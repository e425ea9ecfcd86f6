import Gogoos.Fs.Contents
import Gogoos.Fs.DirectoryRun

/-!
# The inode table

The table is one array of records of 76 bytes, cut into sectors. `inodeSync` writes one record,
through the one or two sectors that it lies in, and `inodeOpen` reads one.
-/

namespace Gogoos

open Program

variable {v r : Volume} {e : Heap} {i : Inode} {ino k : ℕ} {stop : Volume → Prop}

section Records

/-- A byte of the inode table. -/
def Volume.tableByte (v : Volume) (off : ℕ) : UInt8 :=
  v.disk (v.superBlock.inodeTableLbaStart + off / 512) (off % 512)

/-- A record of the inode table. -/
def Volume.record (v : Volume) (ino : ℕ) : Inode :=
  Inode.ofBytes fun k => v.tableByte (ino * 76 + k)

/-- What `inodeSync` stores of an inode. -/
def Inode.pure (i : Inode) : Inode := { i with openCnt := 0, writeDeny := false }

/-- The bytes of the table after a record was stored, those of the last record included. -/
theorem storeInode_tableByte {off : ℕ} : (v.storeInode i).tableByte off =
    if i.ino * 76 ≤ off ∧ off < i.ino * 76 + 76 then i.pure.bytes (off - i.ino * 76)
    else v.tableByte off := by
  set start := i.ino * 76 with hstart
  have hsb : (v.storeInode i).superBlock = v.superBlock := rfl
  unfold Volume.tableByte
  rw [hsb]
  unfold Volume.storeInode
  rw [Volume.write_disk, ← hstart]
  dsimp only
  have hcover : start ≤ off → off < start + 76 →
      off / 512 < start / 512 + (if 512 - start % 512 < 76 then 2 else 1) := by
    intro hlo hhi
    split_ifs <;> omega
  generalize (if 512 - start % 512 < 76 then 2 else 1) = secCnt at hcover
  by_cases hin : start ≤ off ∧ off < start + 76
  · have hpos : 512 * (v.superBlock.inodeTableLbaStart + off / 512 -
        (v.superBlock.inodeTableLbaStart + start / 512)) + off % 512 =
        start % 512 + (off - start) := by omega
    have hsecs := hcover hin.1 hin.2
    rw [if_pos hin, if_pos ⟨by omega, by omega, by omega⟩, hpos]
    unfold memcpy
    rw [if_pos ⟨by omega, by omega⟩, Nat.add_sub_cancel_left]
    rfl
  · rw [if_neg hin]
    split
    · rename_i hsec
      have hpos : 512 * (v.superBlock.inodeTableLbaStart + off / 512 -
          (v.superBlock.inodeTableLbaStart + start / 512)) + off % 512 =
          off - 512 * (start / 512) := by omega
      have hsector : v.superBlock.inodeTableLbaStart + start / 512 +
          (off - 512 * (start / 512)) / 512 = v.superBlock.inodeTableLbaStart + off / 512 := by
        omega
      have hbyte : (off - 512 * (start / 512)) % 512 = off % 512 := by omega
      rw [hpos]
      unfold memcpy
      rw [if_neg (by omega)]
      unfold Volume.sector
      rw [hsector, hbyte]
    · rfl

/-- Two inodes with the same number, size, blocks, count and flag. -/
structure SameInode (i j : Inode) : Prop where
  ino : j.ino = i.ino
  size : j.size = i.size
  openCnt : j.openCnt = i.openCnt
  writeDeny : j.writeDeny = i.writeDeny
  block : ∀ k < 13, j.block k = i.block k

theorem sameInode_of_bytes {b c : ℕ → UInt8} (h : ∀ k < 76, c k = b k) :
    SameInode (Inode.ofBytes b) (Inode.ofBytes c) := by
  have hword : ∀ off, off + 4 ≤ 76 → getWord c off = getWord b off := fun off hoff =>
    getWord_congr fun k hk => h _ (by omega)
  constructor
  · exact hword 0 (by norm_num)
  · exact hword 4 (by norm_num)
  · exact hword 8 (by norm_num)
  · unfold Inode.ofBytes
    simp only [h 12 (by norm_num)]
  · exact fun k hk => hword _ (by omega)

/-- Records do not overlap. -/
theorem storeInode_record_ne (h : ino ≠ i.ino) :
    SameInode (v.record ino) ((v.storeInode i).record ino) := by
  apply sameInode_of_bytes
  intro k hk
  rw [storeInode_tableByte, if_neg]
  rcases Nat.lt_or_gt_of_ne h with hlt | hgt
  · omega
  · omega

theorem storeInode_record_self (hino : i.ino < 4096) (hsize : i.size < 2 ^ 32)
    (hblock : ∀ k < 13, i.block k < 2 ^ 32) :
    SameInode i.pure ((v.storeInode i).record i.ino) := by
  have hbytes : ∀ k < 76, (v.storeInode i).tableByte (i.ino * 76 + k) = i.pure.bytes k := by
    intro k hk
    rw [storeInode_tableByte, if_pos ⟨by omega, by omega⟩, Nat.add_sub_cancel_left]
  have hread := sameInode_of_bytes hbytes
  constructor
  · rw [Volume.record, hread.ino, Inode.ofBytes_bytes_ino]
    exact Nat.mod_eq_of_lt (hino.trans (by norm_num))
  · rw [Volume.record, hread.size, Inode.ofBytes_bytes_size]
    exact Nat.mod_eq_of_lt hsize
  · rw [Volume.record, hread.openCnt]
    apply getWord_eq_zero
    intro k hk
    have h1 : ¬8 + k < 4 := by omega
    have h2 : ¬8 + k < 8 := by omega
    have h3 : 8 + k < 12 := by omega
    simp [Inode.bytes, h1, h2, h3, Inode.pure, wordByte]
  · rw [Volume.record, hread.writeDeny, Inode.ofBytes_bytes_writeDeny]
  · intro k hk
    rw [Volume.record, hread.block k hk, Inode.ofBytes_bytes_block _ hk]
    exact Nat.mod_eq_of_lt (hblock k hk)

end Records

section Calls

/-- `inodeOpen` of an inode that is not open reads its record. -/
theorem wp_inodeOpen_record (hl : Layout v) (hino : ino < 4096) (hnone : v.findOpen ino = none)
    (hheap : stop v ∨ ∀ t, e.sysMalloc t = true) :
    wp stop e (inodeOpen ino) (fun p r => r.inodes p = { v.record ino with openCnt := 1 }) v := by
  have hdata := hl.data_start
  have hlt := hl.data_lt
  have hmalloc : ∀ {f : Unit → VolM ℕ} {Q : ℕ → Volume → Prop}, wp stop e (f ()) Q v →
      wp stop e (sysMallocUnchecked >>= f) Q v := by
    intro f Q hf
    rcases hheap with hstop | he
    · exact wp_sysMallocUnchecked_bind hstop hf
    · unfold sysMallocUnchecked sysMalloc
      rw [wp_bind_assoc]
      apply wp_ask_bind
      intro t
      rw [wp_assert_pos (he t)]
      exact hf
  unfold inodeOpen inodeLocate newInode
  rw [wp_get_bind, hnone]
  simp only [wp_bind_assoc, wp_assert_pos hino, wp_get_bind, wp_pure_bind]
  apply hmalloc
  apply hmalloc
  apply wp_ideRead_total (by omega) (by split_ifs <;> omega) (by split_ifs <;> omega)
  simp only [wp_bind_assoc, wp_get_bind, wp_modify_bind, wp_pure_bind, wp_pure]
  simp only [Volume.setOpenInodes_inodes, Volume.addInode_inodes, if_true]
  have hbytes : ∀ k, v.sector (v.superBlock.inodeTableLbaStart + ino * 76 / 512)
      (ino * 76 % 512 + k) = v.tableByte (ino * 76 + k) := by
    intro k
    have hsec : v.superBlock.inodeTableLbaStart + ino * 76 / 512 + (ino * 76 % 512 + k) / 512 =
        v.superBlock.inodeTableLbaStart + (ino * 76 + k) / 512 := by omega
    have hbyte : (ino * 76 % 512 + k) % 512 = (ino * 76 + k) % 512 := by omega
    unfold Volume.sector Volume.tableByte
    rw [hsec, hbyte]
  unfold Volume.record
  simp only [hbytes]

/-- An inode that is open is found in memory. -/
theorem wp_inodeOpen_found {p : ℕ} (hp : v.findOpen ino = some p) :
    wp stop e (inodeOpen ino) (fun q r => q = p ∧
      r.inodes q = { v.inodes p with openCnt := (v.inodes p).openCnt + 1 }) v := by
  unfold inodeOpen modifyInode
  rw [wp_get_bind, hp]
  exact wp_modify_bind.mpr (wp_pure.mpr ⟨rfl, by simp⟩)

/-- `inodeOpen` returns an inode with this property, and it does return unless the heap is
exhausted. -/
def Loaded (v : Volume) (ino : ℕ) (P : Inode → Prop) : Prop :=
  ∀ e, wp anyStop e (inodeOpen ino) (fun p r => P (r.inodes p)) v ∧
    ((∀ t, e.sysMalloc t = true) → wp noStop e (inodeOpen ino) (fun p r => P (r.inodes p)) v)

theorem loaded_record {P : Inode → Prop} (hl : Layout v) (hino : ino < 4096)
    (hnone : v.findOpen ino = none) (hP : P { v.record ino with openCnt := 1 }) :
    Loaded v ino P := by
  intro e
  constructor
  · apply wp_mono (wp_inodeOpen_record hl hino hnone (.inl trivial))
    intro p r hr
    rwa [hr]
  · intro he
    apply wp_mono (wp_inodeOpen_record hl hino hnone (.inr he))
    intro p r hr
    rwa [hr]

theorem loaded_found {P : Inode → Prop} {p : ℕ} (hp : v.findOpen ino = some p)
    (hP : P { v.inodes p with openCnt := (v.inodes p).openCnt + 1 }) : Loaded v ino P := by
  intro e
  constructor
  · apply wp_mono (wp_inodeOpen_found hp)
    rintro q r ⟨-, hr⟩
    rwa [hr]
  · intro _
    apply wp_mono (wp_inodeOpen_found hp)
    rintro q r ⟨-, hr⟩
    rwa [hr]

/-- A stored inode is read back, the others are read as before, and nothing but the table is
written. -/
theorem inode_table_law (hl : Layout v) (hino : i.ino < 4096) (hsize : i.size < 2 ^ 32)
    (hblock : ∀ k < 13, i.block k < 2 ^ 32) :
    wp noStop e (inodeSync i) (fun _ r =>
      (r.findOpen i.ino = none →
        Loaded r i.ino (SameInode { i with openCnt := 1, writeDeny := false })) ∧
      (∀ ino < 4096, ino ≠ i.ino →
        ∃ j, Loaded v ino (SameInode j) ∧ Loaded r ino (SameInode j)) ∧
      ∀ l, r.disk l ≠ v.disk l → v.superBlock.inodeTableLbaStart ≤ l ∧
        l < v.superBlock.inodeTableLbaStart + 608) v := by
  have hself := storeInode_record_self (v := v) hino hsize hblock
  refine wp_inodeSync_total hl hino ⟨fun hnone => ?_, fun ino hlt hne => ?_, fun l hdisk => ?_⟩
  · apply loaded_record (hl.storeInode i) hino hnone
    exact ⟨hself.ino, hself.size, rfl, hself.writeDeny, hself.block⟩
  · have hfind : (v.storeInode i).findOpen ino = v.findOpen ino := rfl
    cases hp : v.findOpen ino with
    | some p =>
      refine ⟨{ v.inodes p with openCnt := (v.inodes p).openCnt + 1 }, loaded_found hp ?_,
        loaded_found (hfind.trans hp) ?_⟩
      · exact ⟨rfl, rfl, rfl, rfl, fun _ _ => rfl⟩
      · exact ⟨rfl, rfl, rfl, rfl, fun _ _ => rfl⟩
    | none =>
      have hrec := storeInode_record_ne (v := v) hne
      refine ⟨{ v.record ino with openCnt := 1 }, loaded_record hl hlt hp ?_,
        loaded_record (hl.storeInode i) hlt (hfind.trans hp) ?_⟩
      · exact ⟨rfl, rfl, rfl, rfl, fun _ _ => rfl⟩
      · exact ⟨hrec.ino, hrec.size, rfl, hrec.writeDeny, hrec.block⟩
  · by_contra hout
    refine hdisk ?_
    funext j
    unfold Volume.storeInode
    rw [Volume.write_disk]
    dsimp only
    rw [if_neg]
    split_ifs <;> omega

/-- The last inode of the table, whose record ends with the last sector. -/
def lastInode : Inode := ⟨4095, 72, 3, true, fun k => if k = 0 then 680 else 0⟩

theorem inode_table_law_sample :
    wp noStop sampleHeap (inodeSync lastInode) (fun _ r =>
      (r.findOpen 4095 = none →
        Loaded r 4095 (SameInode { lastInode with openCnt := 1, writeDeny := false })) ∧
      (∀ ino < 4096, ino ≠ 4095 →
        ∃ j, Loaded sampleVolume ino (SameInode j) ∧ Loaded r ino (SameInode j)) ∧
      ∀ l, r.disk l ≠ sampleVolume.disk l → sampleVolume.superBlock.inodeTableLbaStart ≤ l ∧
        l < sampleVolume.superBlock.inodeTableLbaStart + 608) sampleVolume :=
  inode_table_law (i := lastInode) (by constructor <;> decide) (by decide) (by decide)
    (by decide)

end Calls

end Gogoos
