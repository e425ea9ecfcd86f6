import Gogoos.Fs.Steps

/-!
# What one call on a directory can do

`SyncResult` lists the states in which `syncDirEntry` can return, `DeleteResult` those of
`deleteDirEntry`, each as a composition of volume transformers. The specification of the
two loops says that they return in no other state, and everything proved about directories
starts from these lists.
-/

namespace Gogoos

open Program

variable {e : Heap} {stop : Volume → Prop} {v : Volume} {p : ℕ}

/-- Block `n` of the data area is taken and its bit stored. -/
def Volume.takeBlock (v : Volume) (n : ℕ) : Volume :=
  (v.setBlockBit n true).sync n .blockBitmap

/-- Block `n` of the data area is given back. -/
def Volume.giveBlock (v : Volume) (n : ℕ) : Volume :=
  (v.setBlockBit n false).sync n .blockBitmap

/-- A sector with one more entry is stored. -/
def Volume.putEntry (v : Volume) (p lba : ℕ) (buf : ℕ → UInt8) : Volume :=
  (v.write lba buf 1).setInode p fun i => i.setSize (i.size + 24)

/-- The indirect table of the inode at `p`, with entries from `allBlocks + 12`. -/
def Volume.putTable (v : Volume) (p : ℕ) (allBlocks : ℕ → ℕ) : Volume :=
  v.write ((v.inodes p).block 12) (wordsBytes fun k => allBlocks (12 + k)) 1

/-- Sector and byte offset of an inode. -/
def Volume.storeInode (v : Volume) (i : Inode) : Volume :=
  let secLba := v.superBlock.inodeTableLbaStart + i.ino * 76 / 512
  v.write secLba (memcpy (v.sector secLba) (i.ino * 76 % 512)
    { i with openCnt := 0, writeDeny := false }.bytes 76)
    (if 512 - i.ino * 76 % 512 < 76 then 2 else 1)

/-- A sector with its first entry. -/
def firstEntry (de : DirEntry) : ℕ → UInt8 := memcpy (fun _ => 0) 0 de.bytes 24

theorem firstFreeSlot_spec (b : ℕ → UInt8) : ∀ cnt n j, firstFreeSlot b cnt n = some j →
    j < n + cnt ∧ (slot b j).fileType = FileType.unknown := by
  intro cnt
  induction cnt with
  | zero => simp [firstFreeSlot]
  | succ cnt ih =>
    intro n j hj
    simp only [firstFreeSlot] at hj
    split_ifs at hj with h
    · obtain rfl : n = j := by simpa using hj
      exact ⟨by omega, h⟩
    · obtain ⟨hlt, htype⟩ := ih (n + 1) j hj
      exact ⟨by omega, htype⟩

theorem firstFreeSlot_eq_some {b : ℕ → UInt8} {j : ℕ} (h : firstFreeSlot b 21 0 = some j) :
    j < 21 ∧ (slot b j).fileType = FileType.unknown := by
  simpa using firstFreeSlot_spec b 21 0 j h

theorem wp_inodeSync_bind {α : Type} {f : Unit → VolM α} {Q : α → Volume → Prop} {i : Inode}
    (hstop : stop v) (h : i.ino < 4096 → wp stop e (f ()) Q (v.storeInode i)) :
    wp stop e (inodeSync i >>= f) Q v := by
  unfold inodeSync inodeLocate
  simp only [wp_bind_assoc, wp_assert_bind, wp_get_bind, wp_pure_bind]
  refine ⟨fun hino => ⟨fun _ => ?_, fun _ => hstop⟩, fun _ => hstop⟩
  refine wp_ideRead_of hstop (wp_ideWrite_of hstop ?_)
  simpa [Volume.storeInode] using h hino

section Insert

/-- The blocks before `k` are there and have no free slot. -/
def FullBefore (v : Volume) (p k : ℕ) : Prop :=
  ∀ k' < k, v.blockAt (v.inodes p) k' ≠ 0 ∧
    firstFreeSlot (v.sector (v.blockAt (v.inodes p) k')) 21 0 = none

inductive SyncResult (v : Volume) (p : ℕ) (de : DirEntry) : Bool → Volume → Prop
  | unchanged : SyncResult v p de false v
  | intoSlot {k j : ℕ} (hk : k < 140) (hfull : FullBefore v p k)
      (hb : v.blockAt (v.inodes p) k ≠ 0)
      (hj : firstFreeSlot (v.sector (v.blockAt (v.inodes p) k)) 21 0 = some j) :
      SyncResult v p de true (v.putEntry p (v.blockAt (v.inodes p) k)
        (memcpy (v.sector (v.blockAt (v.inodes p) k)) (24 * j) de.bytes 24))
  | direct {k n : ℕ} (hk : k < 12) (hfull : FullBefore v p k)
      (hb : v.blockAt (v.inodes p) k = 0) (hn : bitMapScan v.blockBitMap 1 = some n) :
      SyncResult v p de true
        (((v.takeBlock n).setInode p (·.setBlock k (v.superBlock.dataLbaStart + n))).putEntry p
          (v.superBlock.dataLbaStart + n) (firstEntry de))
  | rolledBack {n : ℕ} (hfull : FullBefore v p 12) (hb : v.blockAt (v.inodes p) 12 = 0)
      (hn : bitMapScan v.blockBitMap 1 = some n)
      (hm : bitMapScan (bitMapSet v.blockBitMap n true) 1 = none) :
      SyncResult v p de false
        (((((v.takeBlock n).setInode p (·.setBlock 12 (v.superBlock.dataLbaStart + n))).setBlockBit
          n false).setInode p (·.setBlock 12 0)).sync n .blockBitmap)
  | table {n m : ℕ} (hfull : FullBefore v p 12) (hb : v.blockAt (v.inodes p) 12 = 0)
      (hn : bitMapScan v.blockBitMap 1 = some n)
      (hm : bitMapScan (bitMapSet v.blockBitMap n true) 1 = some m) :
      SyncResult v p de true
        (((((v.takeBlock n).setInode p
          (·.setBlock 12 (v.superBlock.dataLbaStart + n))).takeBlock m).putTable p
          (fun k => if k = 12 then v.superBlock.dataLbaStart + m
            else v.blockAt (v.inodes p) k)).putEntry p
          (v.superBlock.dataLbaStart + m) (firstEntry de))
  | indirect {k n : ℕ} (hk : 12 < k) (hk' : k < 140) (hfull : FullBefore v p k)
      (hb : v.blockAt (v.inodes p) k = 0) (hn : bitMapScan v.blockBitMap 1 = some n) :
      SyncResult v p de true
        (((v.takeBlock n).putTable p
          (fun k' => if k' = k then v.superBlock.dataLbaStart + n
            else v.blockAt (v.inodes p) k')).putEntry p
          (v.superBlock.dataLbaStart + n) (firstEntry de))

variable {u : Volume}

/-- The bit of a block that was just allocated is stored. -/
theorem wp_syncNewBlock_bind {α : Type} {f : Unit → VolM α} {Q : α → Volume → Prop} {n : ℕ}
    (hl : Layout v) (hlog : LogSafe u v) (hstop : ∀ w, LogSafe u w → stop w)
    (hn : n < v.blockBitMap.bits) (hu : n < u.blockBitMap.bits)
    (h : wp stop e (f ()) Q (v.sync n .blockBitmap)) :
    wp stop e (syncNewBlock (v.superBlock.dataLbaStart + n) >>= f) Q v := by
  have hb := hl.bits_lt
  unfold syncNewBlock
  rw [wp_bind_assoc, wp_blockLbaToBitMapIdx_bind, hl.lbaToBitMapIdx hn, wp_bind_assoc,
    wp_assert_pos (by omega), wp_bitMapSync_bind]
  exact ⟨fun _ => h, fun _ => hstop _ (hlog.logIdx hu _)⟩

theorem wp_putFirstEntry {lba : ℕ} {de : DirEntry} {Q : Bool → Volume → Prop} (hl : Layout v)
    (hstop : stop v) (h : Q true (v.putEntry p lba (firstEntry de))) :
    wp stop e (putFirstEntry p lba de) Q v := by
  unfold putFirstEntry addSize
  simp only [wp_get_bind, wp_ideWrite_bind, wp_modifyInode_bind, wp_pure, hl.dirEntrySize]
  exact ⟨fun _ => h, fun _ => hstop⟩

theorem wp_writeTable_bind {α : Type} {f : Unit → VolM α} {Q : α → Volume → Prop}
    {allBlocks : ℕ → ℕ} (hstop : stop v) (h : wp stop e (f ()) Q (v.putTable p allBlocks)) :
    wp stop e (writeTable p allBlocks >>= f) Q v := by
  unfold writeTable
  simp only [wp_bind_assoc, wp_get_bind, wp_ideWrite_bind]
  exact ⟨fun _ => h, fun _ => hstop⟩

theorem wp_putEntry {lba : ℕ} {buf : ℕ → UInt8} {Q : Bool → Volume → Prop} (hstop : stop v)
    (h : Q true (v.putEntry p lba buf)) :
    wp stop e (do ideWrite lba buf 1; addSize p 24; return true) Q v := by
  unfold addSize
  simp only [wp_ideWrite_bind, wp_modifyInode_bind, wp_pure]
  exact ⟨fun _ => h, fun _ => hstop⟩

theorem FullBefore.succ {k : ℕ} (h : FullBefore v p k) (hb : v.blockAt (v.inodes p) k ≠ 0)
    (hk : firstFreeSlot (v.sector (v.blockAt (v.inodes p) k)) 21 0 = none) :
    FullBefore v p (k + 1) := by
  intro k' hk'
  rcases Nat.lt_succ_iff_lt_or_eq.mp hk' with hlt | rfl
  · exact h k' hlt
  · exact ⟨hb, hk⟩

variable {de : DirEntry}

theorem wp_syncAtTable (hl : Layout v) (hstop : ∀ w, LogSafe v w → stop w)
    (hfull : FullBefore v p 12) (hb : v.blockAt (v.inodes p) 12 = 0) {n : ℕ}
    (hn : bitMapScan v.blockBitMap 1 = some n) :
    wp stop e (syncAtTable p (v.blockAt (v.inodes p)) (v.superBlock.dataLbaStart + n) de)
      (SyncResult v p de) (v.takeBlock n) := by
  have hlt : n < v.blockBitMap.bits := (bitMapScan_one_eq_some hn).1
  have hlog : LogSafe v (v.takeBlock n) :=
    ((LogSafe.refl v).setBlockBit hlt true).sync hlt .blockBitmap
  unfold syncAtTable setBlock
  rw [wp_modifyInode_bind]
  apply wp_blockBitMapAlloc_bind
  · intro hm
    simp only [wp_get_bind, wp_blockLbaToBitMapIdx_bind, wp_setBlockBit_bind,
      wp_modifyInode_bind, wp_bitMapSync_bind, wp_pure]
    have hidx : ((v.takeBlock n).setInode p (·.setBlock 12 (v.superBlock.dataLbaStart + n))
        ).superBlock.lbaToBitMapIdx ((((v.takeBlock n).setInode p
          (·.setBlock 12 (v.superBlock.dataLbaStart + n))).inodes p).block 12) = n := by
      simpa [Volume.takeBlock] using hl.lbaToBitMapIdx hlt
    rw [hidx]
    refine ⟨fun _ => SyncResult.rolledBack hfull hb hn hm, fun _ => hstop _ ?_⟩
    exact (((((hlog.setInode _ _).setBlockBit hlt _).setInode _ _).logIdx hlt _))
  · intro m hm
    have hmlt : m < v.blockBitMap.bits := (bitMapScan_one_eq_some hm).1
    have hlog' := ((hlog.setInode p (·.setBlock 12 (v.superBlock.dataLbaStart + n))).setBlockBit
      hmlt true)
    have hl' : Layout (((v.takeBlock n).setInode p
        (·.setBlock 12 (v.superBlock.dataLbaStart + n))).setBlockBit m true) :=
      ((((hl.setBlockBit _ _).sync _ _).setInode _ _).setBlockBit _ _)
    apply wp_syncNewBlock_bind hl' hlog' hstop hmlt hmlt
    apply wp_writeTable_bind (hstop _ (hlog'.sync hmlt _))
    apply wp_putFirstEntry
    · exact (hl'.sync _ _).write _ _ _
    · exact hstop _ ((hlog'.sync hmlt _).write _ _ _)
    · exact SyncResult.table hfull hb hn hm

/-- Induction on the number of blocks left; the state does not change before the last
round. -/
theorem wp_syncBlocks (hl : Layout v) (hstop : ∀ w, LogSafe v w → stop w) :
    ∀ cnt k, k + cnt = 140 → FullBefore v p k →
      wp stop e (syncBlocks p (v.blockAt (v.inodes p)) de cnt k) (SyncResult v p de) v := by
  intro cnt
  induction cnt with
  | zero =>
    intro k _ _
    unfold syncBlocks
    rw [wp_pure]
    exact .unchanged
  | succ cnt ih =>
    intro k hk hfull
    unfold syncBlocks
    have hself := LogSafe.refl v
    by_cases hb : v.blockAt (v.inodes p) k = 0
    · rw [if_pos hb]
      apply wp_blockBitMapAlloc_bind
      · intro _
        rw [wp_pure]
        exact .unchanged
      · intro n hn
        have hlt : n < v.blockBitMap.bits := (bitMapScan_one_eq_some hn).1
        have hlog := hself.setBlockBit hlt true
        have hl' := hl.setBlockBit n true
        apply wp_syncNewBlock_bind hl' hlog hstop hlt hlt
        have hlog' := hlog.sync hlt .blockBitmap
        have hl'' := hl'.sync n .blockBitmap
        apply wp_ite
        · intro hk12
          unfold setBlock
          rw [wp_modifyInode_bind]
          apply wp_putFirstEntry (hl''.setInode _ _) (hstop _ (hlog'.setInode _ _))
          exact .direct hk12 hfull hb hn
        · intro hk12
          apply wp_ite
          · rintro rfl
            exact wp_syncAtTable hl hstop hfull hb hn
          · intro hk12'
            apply wp_writeTable_bind (hstop _ hlog')
            apply wp_putFirstEntry (hl''.write _ _ _) (hstop _ (hlog'.write _ _ _))
            exact .indirect (by omega) (by omega) hfull hb hn
    · rw [if_neg hb, wp_ideRead_bind]
      refine ⟨fun _ => ?_, fun _ => hstop v hself⟩
      rw [wp_get_bind]
      simp only [hl.dirEntrySize]
      cases hj : firstFreeSlot (v.sector (v.blockAt (v.inodes p) k)) 21 0 with
      | none => exact ih (k + 1) (by omega) (hfull.succ hb hj)
      | some j =>
        apply wp_putEntry (hstop v hself)
        exact .intoSlot (by omega) hfull hb hj

theorem wp_syncDirEntry (hl : Layout v) (hstop : ∀ w, LogSafe v w → stop w) (isRoot : Bool) :
    wp stop e (syncDirEntry ⟨isRoot, p⟩ de) (SyncResult v p de) v := by
  have hself := hstop v (LogSafe.refl v)
  unfold syncDirEntry
  rw [wp_get_bind]
  simp only [wp_assert_bind]
  refine ⟨fun _ => wp_sysMalloc_bind fun ok => ?_, fun _ => hself⟩
  cases ok with
  | false => exact wp_pure.mpr .unchanged
  | true =>
    simp only [Bool.not_true, Bool.false_eq_true, ↓reduceIte, wp_loadAllBlocks_bind]
    refine ⟨fun _ => ?_, fun _ => hself⟩
    exact wp_syncBlocks hl hstop 140 0 rfl (fun _ hk => absurd hk (Nat.not_lt_zero _))

end Insert

section Delete

/-- An occupied slot that `deleteDirEntry` counts. -/
def Counted (b : ℕ → UInt8) (j : ℕ) : Prop :=
  (slot b j).fileType ≠ FileType.unknown ∧ (slot b j).fileName ≠ dotName

instance (b : ℕ → UInt8) (j : ℕ) : Decidable (Counted b j) := inferInstanceAs (Decidable (_ ∧ _))

/-- A slot that `deleteDirEntry` takes for the entry of inode `ino`. -/
def Hit (b : ℕ → UInt8) (ino j : ℕ) : Prop := Counted b j ∧ (slot b j).ino = ino

theorem dotName_valid : ValidName dotName := ⟨by decide, by decide⟩

/-- What the scan knows after the first `n` slots. -/
structure ScanOf (b : ℕ → UInt8) (ino n : ℕ) (r : BlockScan) : Prop where
  first : r.isDirFirstBlock = true ↔
    ∃ j < n, (slot b j).fileType ≠ FileType.unknown ∧ (slot b j).fileName = dotName
  cnt : r.dirEntryCnt = (List.range n).countP fun j => decide (Counted b j)
  found : ∀ j, r.deFound = some j → j < n ∧ Hit b ino j ∧ ∀ j' < n, Hit b ino j' → j' = j
  notFound : r.deFound = none → ∀ j < n, ¬Hit b ino j

theorem scanOf_zero (b : ℕ → UInt8) (ino : ℕ) : ScanOf b ino 0 ⟨false, 0, none⟩ :=
  ⟨by simp, by simp, by simp, by simp⟩

/-- A slot that is not counted changes nothing but the flag. -/
theorem ScanOf.skip {b : ℕ → UInt8} {ino n : ℕ} {r : BlockScan} (h : ScanOf b ino n r)
    (hn : ¬Counted b n) {f : Bool} (hf : f = true ↔ r.isDirFirstBlock = true ∨
      ((slot b n).fileType ≠ FileType.unknown ∧ (slot b n).fileName = dotName)) :
    ScanOf b ino (n + 1) { r with isDirFirstBlock := f } := by
  refine ⟨?_, ?_, ?_, ?_⟩
  · simp only [hf, h.first, Nat.exists_lt_succ_right]
  · simp [h.cnt, List.range_succ, hn]
  · intro j hj
    obtain ⟨hjn, hhit, huniq⟩ := h.found j hj
    refine ⟨by omega, hhit, fun j' hj' hit' => ?_⟩
    rcases Nat.lt_succ_iff_lt_or_eq.mp hj' with hlt | rfl
    · exact huniq j' hlt hit'
    · exact absurd hit'.1 hn
  · intro hnone j hj hhit
    rcases Nat.lt_succ_iff_lt_or_eq.mp hj with hlt | rfl
    · exact h.notFound hnone j hlt hhit
    · exact hn hhit.1

theorem ScanOf.count {b : ℕ → UInt8} {ino n : ℕ} {r : BlockScan} (h : ScanOf b ino n r)
    (hn : Counted b n) (hino : (slot b n).ino ≠ ino) :
    ScanOf b ino (n + 1) { r with dirEntryCnt := r.dirEntryCnt + 1 } := by
  refine ⟨?_, ?_, ?_, ?_⟩
  · simp only [h.first, Nat.exists_lt_succ_right, hn.2, and_false, or_false]
  · simp [h.cnt, List.range_succ, hn]
  · intro j hj
    obtain ⟨hjn, hhit, huniq⟩ := h.found j hj
    refine ⟨by omega, hhit, fun j' hj' hit' => ?_⟩
    rcases Nat.lt_succ_iff_lt_or_eq.mp hj' with hlt | rfl
    · exact huniq j' hlt hit'
    · exact absurd hit'.2 hino
  · intro hnone j hj hhit
    rcases Nat.lt_succ_iff_lt_or_eq.mp hj with hlt | rfl
    · exact h.notFound hnone j hlt hhit
    · exact hino hhit.2

theorem ScanOf.hit {b : ℕ → UInt8} {ino n : ℕ} {r : BlockScan} (h : ScanOf b ino n r)
    (hn : Hit b ino n) (hnone : r.deFound = none) :
    ScanOf b ino (n + 1) { r with dirEntryCnt := r.dirEntryCnt + 1, deFound := some n } := by
  refine ⟨?_, ?_, ?_, by simp⟩
  · simp only [h.first, Nat.exists_lt_succ_right, hn.1.2, and_false, or_false]
  · simp [h.cnt, List.range_succ, hn.1]
  · rintro j hj
    obtain rfl : n = j := by simpa using hj
    refine ⟨by omega, hn, fun j' hj' hit' => ?_⟩
    rcases Nat.lt_succ_iff_lt_or_eq.mp hj' with hlt | rfl
    · exact absurd hit' (h.notFound hnone j' hlt)
    · rfl

/-- The scan stops at a second slot with the number of the entry. -/
theorem wp_scanSlots {b : ℕ → UInt8} {ino : ℕ} {Q : BlockScan → Volume → Prop} :
    ∀ cnt n r, (∀ j j', j < j' → j' < n + cnt → Hit b ino j → Hit b ino j' → stop v) →
      ScanOf b ino n r → (∀ r', ScanOf b ino (n + cnt) r' → Q r' v) →
      wp stop e (scanSlots b ino cnt n r) Q v := by
  intro cnt
  induction cnt with
  | zero => exact fun n r _ h hQ => wp_pure.mpr (hQ r h)
  | succ cnt ih =>
    intro n r hstop h hQ
    rw [show n + (cnt + 1) = n + 1 + cnt by omega] at hstop hQ
    have hdot : strEqAt b (24 * n) dotName = true ↔ _ := strEqAt_eq_fileName dotName_valid
    unfold scanSlots
    by_cases hu : getWord b (24 * n + 20) = FileType.unknown
    · rw [if_neg (not_not.mpr hu)]
      have hskip : ¬Counted b n := fun hc => hc.1 hu
      apply ih (n + 1) r hstop _ hQ
      exact h.skip hskip ⟨Or.inl, fun hor => hor.elim id fun hx => absurd hu hx.1⟩
    · rw [if_pos hu]
      by_cases hd : strEqAt b (24 * n) dotName = true
      · rw [if_pos hd]
        have hname : (slot b n).fileName = dotName := hdot.mp hd
        exact ih (n + 1) _ hstop
          (h.skip (fun hc => hc.2 hname) ⟨fun _ => .inr ⟨hu, hname⟩, fun _ => rfl⟩) hQ
      · rw [if_neg hd]
        have hc : Counted b n := ⟨hu, fun hname => hd (hdot.mpr hname)⟩
        apply wp_ite
        · intro hino
          rw [wp_assert_bind]
          refine ⟨fun hnone => ih (n + 1) _ hstop (h.hit ⟨hc, hino⟩ hnone) hQ, fun hfound => ?_⟩
          obtain ⟨j, hj⟩ := Option.ne_none_iff_exists'.mp hfound
          obtain ⟨hjn, hhit, -⟩ := h.found j hj
          exact hstop j n hjn (by omega) hhit ⟨hc, hino⟩
        · intro hino
          exact ih (n + 1) _ hstop (h.count hc hino) hQ

/-- When one number below `n` has a property, it is unique. -/
theorem eq_of_countP_range_eq_one {n : ℕ} {P : ℕ → Bool} (h : (List.range n).countP P = 1)
    {a b : ℕ} (ha : a < n) (hb : b < n) (hPa : P a = true) (hPb : P b = true) : a = b := by
  by_contra hne
  have hsub : [a, b].Subperm ((List.range n).filter P) := by
    apply List.subperm_of_subset
    · simp [hne]
    · intro x hx
      rcases List.mem_pair.mp hx with rfl | rfl
      · exact List.mem_filter.mpr ⟨List.mem_range.mpr ha, hPa⟩
      · exact List.mem_filter.mpr ⟨List.mem_range.mpr hb, hPb⟩
  have hlen := hsub.length_le
  rw [← List.countP_eq_length_filter, h] at hlen
  simp at hlen

/-- No slot of the block at `lba` is taken for the entry of `ino`. -/
def NoHit (v : Volume) (lba ino : ℕ) : Prop := ∀ j < 21, ¬Hit (v.sector lba) ino j

/-- Slot `j` is the entry of `ino` and the only occupied slot of the block. -/
def OnlyHit (v : Volume) (lba ino j : ℕ) : Prop :=
  j < 21 ∧ Hit (v.sector lba) ino j ∧
    ∀ j' < 21, (slot (v.sector lba) j').fileType ≠ FileType.unknown → j' = j

/-- The size and the inode table after the entry is gone. -/
def Volume.dropEntry (v : Volume) (p : ℕ) : Volume :=
  (v.setInode p fun i => i.setSize (i.size - 24)).storeInode
    ((v.setInode p fun i => i.setSize (i.size - 24)).inodes p)

inductive DeleteResult (v : Volume) (p ino : ℕ) : Bool → Volume → Prop
  | notFound (h : ∀ k < 140, v.blockAt (v.inodes p) k ≠ 0 →
      NoHit v (v.blockAt (v.inodes p) k) ino) :
      DeleteResult v p ino false v
  | cleared {k j : ℕ} (hk : k < 140) (hb : v.blockAt (v.inodes p) k ≠ 0) (hj : j < 21)
      (hhit : Hit (v.sector (v.blockAt (v.inodes p) k)) ino j)
      (hmore : ∃ j' < 21, j' ≠ j ∧
        (slot (v.sector (v.blockAt (v.inodes p) k)) j').fileType ≠ FileType.unknown) :
      DeleteResult v p ino true ((v.write (v.blockAt (v.inodes p) k)
        (memset (v.sector (v.blockAt (v.inodes p) k)) (24 * j) 0 24) 1).dropEntry p)
  | direct {k j : ℕ} (hk : k < 12) (hb : v.blockAt (v.inodes p) k ≠ 0)
      (honly : OnlyHit v (v.blockAt (v.inodes p) k) ino j) :
      DeleteResult v p ino true
        (((v.giveBlock (v.superBlock.lbaToBitMapIdx (v.blockAt (v.inodes p) k))).setInode p
          (·.setBlock k 0)).dropEntry p)
  | indirect {k j : ℕ} (hk : 12 ≤ k) (hk' : k < 140) (hb : v.blockAt (v.inodes p) k ≠ 0)
      (honly : OnlyHit v (v.blockAt (v.inodes p) k) ino j)
      (hmore : 1 < indirectBlocksCnt (v.blockAt (v.inodes p))) :
      DeleteResult v p ino true
        (((v.giveBlock (v.superBlock.lbaToBitMapIdx (v.blockAt (v.inodes p) k))).putTable p
          (fun k' => if k' = k then 0 else v.blockAt (v.inodes p) k')).dropEntry p)
  | last {k j : ℕ} (hk : 12 ≤ k) (hk' : k < 140) (hb : v.blockAt (v.inodes p) k ≠ 0)
      (honly : OnlyHit v (v.blockAt (v.inodes p) k) ino j)
      (hone : indirectBlocksCnt (v.blockAt (v.inodes p)) = 1) :
      DeleteResult v p ino true
        ((((v.giveBlock (v.superBlock.lbaToBitMapIdx (v.blockAt (v.inodes p) k))).giveBlock
          (v.superBlock.lbaToBitMapIdx (v.blockAt (v.inodes p) 12))).setInode p
          (·.setBlock 12 0)).dropEntry p)

/-- The only block of the indirect table. -/
theorem eq_zero_of_indirectBlocksCnt {f : ℕ → ℕ} (h : indirectBlocksCnt f = 1) {k k' : ℕ}
    (hk : 12 ≤ k) (hk140 : k < 140) (hf : f k ≠ 0) (hk' : 12 ≤ k') (hk'140 : k' < 140)
    (hne : k' ≠ k) : f k' = 0 := by
  by_contra hf'
  unfold indirectBlocksCnt at h
  rw [← List.countP_eq_length_filter] at h
  have := eq_of_countP_range_eq_one h (a := k - 12) (b := k' - 12) (by omega) (by omega)
    (by simpa [Nat.add_sub_cancel' hk] using hf) (by simpa [Nat.add_sub_cancel' hk'] using hf')
  omega

/-- Another block of the indirect table. -/
theorem exists_other_of_indirectBlocksCnt {f : ℕ → ℕ} (h : 1 < indirectBlocksCnt f) (k : ℕ) :
    ∃ k', 12 ≤ k' ∧ k' < 140 ∧ k' ≠ k ∧ f k' ≠ 0 := by
  by_contra hnone
  have hall : ∀ i ∈ (List.range 128).filter (fun i => f (12 + i) ≠ 0), i = k - 12 := by
    intro i hi
    obtain ⟨hlt, hne⟩ := List.mem_filter.mp hi
    have hlt' := List.mem_range.mp hlt
    by_contra hik
    exact hnone ⟨12 + i, by omega, by omega, by omega, by simpa using hne⟩
  have hnodup := (List.nodup_range (n := 128)).filter (fun i => f (12 + i) ≠ 0)
  have hle : indirectBlocksCnt f ≤ 1 := by
    unfold indirectBlocksCnt
    rw [← List.toFinset_card_of_nodup hnodup, Finset.card_le_one]
    intro a ha b hb
    rw [hall a (List.mem_toFinset.mp ha), hall b (List.mem_toFinset.mp hb)]
  omega

/-- The bit indices of the blocks that a deletion may give back lie inside the bitmap. -/
structure FreesInside (v : Volume) (p ino : ℕ) : Prop where
  block : ∀ k < 140, v.blockAt (v.inodes p) k ≠ 0 →
    v.superBlock.lbaToBitMapIdx (v.blockAt (v.inodes p) k) < v.blockBitMap.bits
  last : ∀ k j, 12 ≤ k → k < 140 → v.blockAt (v.inodes p) k ≠ 0 →
    OnlyHit v (v.blockAt (v.inodes p) k) ino j →
    indirectBlocksCnt (v.blockAt (v.inodes p)) = 1 →
    v.superBlock.lbaToBitMapIdx (v.blockAt (v.inodes p) 12) < v.blockBitMap.bits

theorem wp_freeBlock_bind {α : Type} {f : Unit → VolM α} {Q : α → Volume → Prop} {u : Volume}
    {lba : ℕ} (hlog : LogSafe u v) (hstop : ∀ w, LogSafe u w → stop w)
    (hn : v.superBlock.lbaToBitMapIdx lba < u.blockBitMap.bits)
    (h : wp stop e (f ()) Q (v.giveBlock (v.superBlock.lbaToBitMapIdx lba))) :
    wp stop e (freeBlock lba >>= f) Q v := by
  unfold freeBlock
  simp only [wp_bind_assoc, wp_blockLbaToBitMapIdx_bind, wp_setBlockBit_bind, wp_bitMapSync_bind]
  exact ⟨fun _ => h, fun _ => hstop _ ((hlog.setBlockBit hn _).logIdx hn _)⟩

theorem LogSafe.giveBlock {u : Volume} (h : LogSafe u v) {n : ℕ} (hn : n < u.blockBitMap.bits) :
    LogSafe u (v.giveBlock n) := (h.setBlockBit hn false).sync hn .blockBitmap

theorem wp_dropEntry {Q : Bool → Volume → Prop} (hstop : ∀ g, stop (v.setInode p g))
    (hstop' : stop v) (h : Q true (v.dropEntry p)) :
    wp stop e (do
      let v ← get
      assert (24 ≤ (v.inodes p).size)
      modifyInode p fun i => i.setSize (i.size - 24)
      let v ← get
      inodeSync (v.inodes p)
      return true) Q v := by
  simp only [wp_get_bind, wp_assert_bind, wp_modifyInode_bind]
  refine ⟨fun _ => ?_, fun _ => hstop'⟩
  exact wp_inodeSync_bind (hstop _) fun _ => wp_pure.mpr h

/-- The blocks before `k` do not hold the entry. -/
def NoHitBefore (v : Volume) (p ino k : ℕ) : Prop :=
  ∀ k' < k, v.blockAt (v.inodes p) k' ≠ 0 → NoHit v (v.blockAt (v.inodes p) k') ino

theorem NoHitBefore.succ {ino k : ℕ} (h : NoHitBefore v p ino k)
    (hk : v.blockAt (v.inodes p) k ≠ 0 → NoHit v (v.blockAt (v.inodes p) k) ino) :
    NoHitBefore v p ino (k + 1) := by
  intro k' hk'
  rcases Nat.lt_succ_iff_lt_or_eq.mp hk' with hlt | rfl
  · exact h k' hlt
  · exact hk

/-- One counted slot and no `"."` means one occupied slot. -/
theorem ScanOf.only {lba ino j : ℕ} {r : BlockScan} (h : ScanOf (v.sector lba) ino 21 r)
    (hj : r.deFound = some j) (hcnt : r.dirEntryCnt = 1) (hfirst : r.isDirFirstBlock = false) :
    OnlyHit v lba ino j := by
  obtain ⟨hj21, hhit, -⟩ := h.found j hj
  refine ⟨hj21, hhit, fun j' hj' hu => ?_⟩
  have hnodot : (slot (v.sector lba) j').fileName ≠ dotName := by
    intro hname
    have := h.first.mpr ⟨j', hj', hu, hname⟩
    simp [hfirst] at this
  refine (eq_of_countP_range_eq_one (h.cnt.symm.trans hcnt) hj21 hj' ?_ ?_).symm
  · exact decide_eq_true hhit.1
  · exact decide_eq_true ⟨hu, hnodot⟩

theorem ScanOf.more {lba ino j : ℕ} {r : BlockScan} (h : ScanOf (v.sector lba) ino 21 r)
    (hj : r.deFound = some j) (hcnt : ¬(r.dirEntryCnt = 1 ∧ (!r.isDirFirstBlock) = true)) :
    ∃ j' < 21, j' ≠ j ∧ (slot (v.sector lba) j').fileType ≠ FileType.unknown := by
  obtain ⟨hj21, hhit, -⟩ := h.found j hj
  by_contra hnone
  push Not at hnone
  have hone : ∀ j' < 21, Counted (v.sector lba) j' ↔ j' = j := by
    refine fun j' hj' => ⟨fun hc => ?_, fun h => h ▸ hhit.1⟩
    by_contra hne
    exact hc.1 (hnone j' hj' hne)
  apply hcnt
  constructor
  · rw [h.cnt, List.countP_congr (q := fun j' => j' == j)
      (fun j' hj' => by simp [hone j' (List.mem_range.mp hj')])]
    exact List.count_eq_one_of_mem List.nodup_range (List.mem_range.mpr hj21)
  · have : r.isDirFirstBlock ≠ true := by
      intro hf
      obtain ⟨j', hj', hu, hname⟩ := h.first.mp hf
      by_cases hjj : j' = j
      · exact hhit.1.2 (hjj ▸ hname)
      · exact hu (hnone j' hj' hjj)
    simpa using this

theorem wp_dropBlock_bind {ino k j : ℕ} {f : Unit → VolM Bool}
    (hstop : ∀ w, LogSafe v w → stop w) (hin : FreesInside v p ino) (hk : k < 140)
    (hb : v.blockAt (v.inodes p) k ≠ 0) (honly : OnlyHit v (v.blockAt (v.inodes p) k) ino j)
    (hf : ∀ w, LogSafe v w → DeleteResult v p ino true (w.dropEntry p) →
      wp stop e (f ()) (DeleteResult v p ino) w) :
    wp stop e (dropBlock p (v.blockAt (v.inodes p)) k >>= f) (DeleteResult v p ino) v := by
  have hself := LogSafe.refl v
  have hn := hin.block k hk hb
  unfold dropBlock
  rw [wp_bind_assoc]
  apply wp_freeBlock_bind hself hstop hn
  have hlog := hself.giveBlock hn
  by_cases hk12 : k < 12
  · unfold setBlock
    rw [if_pos hk12, wp_modifyInode_bind]
    exact hf _ (hlog.setInode _ _) (.direct hk12 hb honly)
  · rw [if_neg hk12, wp_bind_assoc, wp_assert_bind]
    refine ⟨fun hpos => ?_, fun _ => hstop _ hlog⟩
    by_cases hmore : 1 < indirectBlocksCnt (v.blockAt (v.inodes p))
    · rw [if_pos hmore]
      apply wp_writeTable_bind (hstop _ hlog)
      exact hf _ (hlog.write _ _ _) (.indirect (by omega) hk hb honly hmore)
    · have hone : indirectBlocksCnt (v.blockAt (v.inodes p)) = 1 := by omega
      have hm := hin.last k j (by omega) hk hb honly hone
      rw [if_neg hmore, wp_bind_assoc]
      apply wp_freeBlock_bind hlog hstop hm
      unfold setBlock
      rw [wp_modifyInode_bind]
      exact hf _ ((hlog.giveBlock hm).setInode _ _) (.last (by omega) hk hb honly hone)

theorem wp_deleteBlocks {ino : ℕ} (hl : Layout v) (hstop : ∀ w, LogSafe v w → stop w)
    (hin : FreesInside v p ino) :
    ∀ cnt k, k + cnt = 140 → NoHitBefore v p ino k →
      wp stop e (deleteBlocks p (v.blockAt (v.inodes p)) ino cnt k) (DeleteResult v p ino) v := by
  intro cnt
  have hself := LogSafe.refl v
  induction cnt with
  | zero =>
    intro k hk hbefore
    unfold deleteBlocks
    rw [wp_pure]
    obtain rfl : k = 140 := by omega
    exact .notFound hbefore
  | succ cnt ih =>
    intro k hk hbefore
    unfold deleteBlocks
    by_cases hb : v.blockAt (v.inodes p) k = 0
    · rw [if_pos hb]
      exact ih (k + 1) (by omega) (hbefore.succ fun h => absurd hb h)
    · rw [if_neg hb, wp_ideRead_bind]
      refine ⟨fun _ => ?_, fun _ => hstop v hself⟩
      rw [wp_get_bind]
      have hsize := hl.dirEntrySize
      generalize v.superBlock.dirEntrySize = s at hsize ⊢
      subst hsize
      apply wp_bind
      apply wp_scanSlots _ _ _ (fun _ _ _ _ _ _ => hstop v hself) (scanOf_zero _ _)
      intro r hr
      cases hd : r.deFound with
      | none =>
        exact ih (k + 1) (by omega) (hbefore.succ fun _ j hj => hr.notFound hd j (by simpa using hj))
      | some j =>
        have hend : ∀ w, LogSafe v w → DeleteResult v p ino true (w.dropEntry p) →
            wp stop e (do
              let v ← get
              assert (24 ≤ (v.inodes p).size)
              modifyInode p fun i => i.setSize (i.size - 24)
              let v ← get
              inodeSync (v.inodes p)
              return true) (DeleteResult v p ino) w := fun w hw hres =>
          wp_dropEntry (fun g => hstop _ (hw.setInode p g)) (hstop w hw) hres
        by_cases hc : r.dirEntryCnt = 1 ∧ (!r.isDirFirstBlock) = true
        · simp only [if_pos hc]
          have honly := hr.only hd hc.1 (by simpa using hc.2)
          exact wp_dropBlock_bind hstop hin (by omega) hb honly hend
        · simp only [if_neg hc]
          obtain ⟨hj, hhit, -⟩ := hr.found j hd
          rw [wp_ideWrite_bind]
          refine ⟨fun _ => ?_, fun _ => hstop v hself⟩
          exact hend _ (hself.write _ _ _) (.cleared (by omega) hb (by simpa using hj) hhit
            (hr.more hd hc))

theorem wp_deleteDirEntry {ino : ℕ} (hl : Layout v) (hstop : ∀ w, LogSafe v w → stop w)
    (hin : FreesInside v p ino) (isRoot : Bool) :
    wp stop e (deleteDirEntry ⟨isRoot, p⟩ ino) (DeleteResult v p ino) v := by
  have hself := hstop v (LogSafe.refl v)
  unfold deleteDirEntry
  apply wp_sysMallocUnchecked_bind hself
  rw [wp_get_bind, wp_loadAllBlocks_bind]
  refine ⟨fun _ => ?_, fun _ => hself⟩
  exact wp_deleteBlocks hl hstop hin 140 0 rfl (fun _ hk => absurd hk (Nat.not_lt_zero _))

end Delete

end Gogoos
