import Gogoos.Fs.Blocks
import Gogoos.Structure.Ownership
import Gogoos.Structure.Grid
import Gogoos.Logic.Run

/-!
# A directory is a finite set of entries

The abstract view of a directory is the multiset of the entries in its occupied slots.
`IsDirectory` is what this view promises, `TidyDir` adds what keeps it true: the blocks of
the directory are its own. Each state of `SyncResult` and `DeleteResult` is shown to keep
`TidyDir`, outside the cases in which the code goes wrong.
-/

namespace Gogoos

open Program

variable {v w : Volume} {i i' : Inode} {p k j n : ℕ} {dot dotdot de : DirEntry}
  {L : Multiset DirEntry}

/-- The entry in slot `j` of block `k`, if the block is there and the slot occupied. -/
def Volume.entryAt (v : Volume) (i : Inode) (k j : ℕ) : Option DirEntry :=
  if v.blockAt i k = 0 then none
  else if (slot (v.disk (v.blockAt i k)) j).fileType = FileType.unknown then none
  else some (slot (v.disk (v.blockAt i k)) j)

/-- The slots of a directory. -/
def slots : Finset (ℕ × ℕ) := Finset.range 140 ×ˢ Finset.range 21

theorem mem_slots {x : ℕ × ℕ} : x ∈ slots ↔ x.1 < 140 ∧ x.2 < 21 := by
  simp [slots, Finset.mem_product]

theorem card_slots : slots.card = 2940 := by
  rw [slots, Finset.card_product, Finset.card_range, Finset.card_range]

attribute [irreducible] slots

/-- The occupied slots hold `dot`, `dotdot` and the entries of `L`, each once, the size
counts them, and every block but the first holds one of them. -/
structure IsDirectory (v : Volume) (i : Inode) (dot dotdot : DirEntry) (L : Multiset DirEntry) :
    Prop where
  entries : bag slots (fun x => v.entryAt i x.1 x.2) = dot ::ₘ dotdot ::ₘ L
  size : i.size = 24 * (2 + Multiset.card L)
  nonempty : ∀ k, 0 < k → k < 140 → v.blockAt i k ≠ 0 → ∃ j < 21, v.entryAt i k j ≠ none

section Entries

theorem slot_sector (lba : ℕ) (hj : j < 21) : slot (v.sector lba) j = slot (v.disk lba) j :=
  slot_congr hj fun _ hi => sector_apply v lba hi

theorem entryAt_congr (hb : w.blockAt i' k = v.blockAt i k)
    (hd : v.blockAt i k ≠ 0 → w.disk (v.blockAt i k) = v.disk (v.blockAt i k)) :
    w.entryAt i' k j = v.entryAt i k j := by
  unfold Volume.entryAt
  rw [hb]
  by_cases h0 : v.blockAt i k = 0
  · simp [h0]
  · rw [hd h0]

theorem entryAt_of_noBlock (h : v.blockAt i k = 0) (j : ℕ) : v.entryAt i k j = none := by
  simp [Volume.entryAt, h]

theorem entryAt_ne_none : v.entryAt i k j ≠ none ↔
    v.blockAt i k ≠ 0 ∧ (slot (v.disk (v.blockAt i k)) j).fileType ≠ FileType.unknown := by
  unfold Volume.entryAt
  split_ifs with h1 h2 <;> simp [*]

theorem entryAt_eq_some : v.entryAt i k j = some de ↔ v.blockAt i k ≠ 0 ∧
    slot (v.disk (v.blockAt i k)) j = de ∧ de.fileType ≠ FileType.unknown := by
  unfold Volume.entryAt
  split_ifs with h1 h2
  · simp [h1]
  · simp only [false_iff, not_and]
    rintro - rfl
    exact not_not.mpr h2
  · simp only [Option.some.injEq, h1, not_false_eq_true, true_and, ne_eq]
    constructor
    · rintro rfl
      exact ⟨rfl, h2⟩
    · exact And.left

/-- One slot more is occupied, and no block is added that stays empty. -/
theorem IsDirectory.insert (h : IsDirectory v i dot dotdot L) (hk : k < 140) (hj : j < 21)
    (hold : v.entryAt i k j = none) (hnew : w.entryAt i' k j = some de)
    (hother : ∀ k' j', k' < 140 → j' < 21 → (k', j') ≠ (k, j) →
      w.entryAt i' k' j' = v.entryAt i k' j')
    (hblock : ∀ k', k' ≠ k → w.blockAt i' k' ≠ 0 → v.blockAt i k' ≠ 0)
    (hsize : i'.size = i.size + 24) : IsDirectory w i' dot dotdot (de ::ₘ L) := by
  refine ⟨?_, ?_, fun k' h0 hk' hb => ?_⟩
  · rw [bag_insert (x := (k, j)) (mem_slots.mpr ⟨hk, hj⟩) hold hnew
      (fun y hy hne => hother y.1 y.2 (mem_slots.mp hy).1 (mem_slots.mp hy).2 hne), h.entries,
      Multiset.cons_swap de, Multiset.cons_swap de]
  · rw [hsize, h.size, Multiset.card_cons]
    ring
  · by_cases hkk : k' = k
    · subst hkk
      exact ⟨j, hj, by simp [hnew]⟩
    · obtain ⟨j', hj', hne⟩ := h.nonempty k' h0 hk' (hblock k' hkk hb)
      refine ⟨j', hj', ?_⟩
      rwa [hother k' j' hk' hj' (by simp [hkk])]

/-- One slot less is occupied, and a block that becomes empty is dropped. -/
theorem IsDirectory.delete (h : IsDirectory v i dot dotdot (de ::ₘ L)) (hk : k < 140)
    (hj : j < 21) (hold : v.entryAt i k j = some de) (hnew : w.entryAt i' k j = none)
    (hother : ∀ k' j', k' < 140 → j' < 21 → (k', j') ≠ (k, j) →
      w.entryAt i' k' j' = v.entryAt i k' j')
    (hblock : ∀ k', k' ≠ k → w.blockAt i' k' ≠ 0 → v.blockAt i k' ≠ 0)
    (hkeep : w.blockAt i' k ≠ 0 → ∃ j' < 21, j' ≠ j ∧ v.entryAt i k j' ≠ none)
    (hsize : i'.size = i.size - 24) : IsDirectory w i' dot dotdot L := by
  refine ⟨?_, ?_, fun k' h0 hk' hb => ?_⟩
  · have hins := bag_insert (f := fun x => w.entryAt i' x.1 x.2)
      (g := fun x => v.entryAt i x.1 x.2) (x := (k, j)) (mem_slots.mpr ⟨hk, hj⟩) hnew hold
      (fun y hy hne => (hother y.1 y.2 (mem_slots.mp hy).1 (mem_slots.mp hy).2 hne).symm)
    rw [h.entries, Multiset.cons_swap dotdot, Multiset.cons_swap dot] at hins
    exact ((Multiset.cons_inj_right de).mp hins).symm
  · rw [hsize, h.size, Multiset.card_cons]
    omega
  · by_cases hkk : k' = k
    · subst hkk
      obtain ⟨j', hj', hne, hocc⟩ := hkeep hb
      exact ⟨j', hj', by rwa [hother k' j' hk' hj' (by simp [hne])]⟩
    · obtain ⟨j', hj', hne⟩ := h.nonempty k' h0 hk' (hblock k' hkk hb)
      exact ⟨j', hj', by rwa [hother k' j' hk' hj' (by simp [hkk])]⟩

theorem IsDirectory.congr (h : IsDirectory v i dot dotdot L)
    (hb : ∀ k < 140, w.blockAt i' k = v.blockAt i k)
    (hd : ∀ k < 140, v.blockAt i k ≠ 0 → w.disk (v.blockAt i k) = v.disk (v.blockAt i k))
    (hsize : i'.size = i.size) : IsDirectory w i' dot dotdot L := by
  have heq : ∀ k < 140, ∀ j, w.entryAt i' k j = v.entryAt i k j :=
    fun k hk j => entryAt_congr (hb k hk) (hd k hk)
  refine ⟨?_, hsize.trans h.size, fun k h0 hk hne => ?_⟩
  · rw [← h.entries]
    exact bag_congr fun x hx => heq x.1 (mem_slots.mp hx).1 x.2
  · obtain ⟨j, hj, hocc⟩ := h.nonempty k h0 hk (by rwa [hb k hk] at hne)
    exact ⟨j, hj, by rwa [heq k hk]⟩

theorem slot_write (v : Volume) (lba : ℕ) (buf : ℕ → UInt8) (hj : j < 21) :
    slot ((v.write lba buf 1).disk lba) j = slot buf j :=
  slot_congr hj fun _ hi => write_disk_self v lba buf hi

theorem slot_firstEntry (h : de.Fits) (j : ℕ) :
    slot (firstEntry de) j = if j = 0 then de else DirEntry.empty := by
  have hz : slot (fun _ => 0) j = DirEntry.empty := ofBytes_zero fun _ _ => rfl
  have := slot_memcpy (fun _ => 0) h 0 j
  rwa [hz] at this

end Entries

/-- A directory with inode `i`, and the facts that keep it one. -/
structure DirAt (v : Volume) (i : Inode) (dot dotdot : DirEntry) (L : Multiset DirEntry) :
    Prop where
  layout : Layout v
  owns : Owns v.superBlock.dataLbaStart v.blockBitMap.bits v.blockBitMap.bit (v.ref i)
  isDir : IsDirectory v i dot dotdot L
  ino_lt : i.ino < 4096
  dot_name : dot.fileName = dotName
  slot_dot : v.entryAt i 0 0 = some dot
  slot_dotdot : v.entryAt i 0 1 = some dotdot
  inos : (L.map DirEntry.ino).Nodup

/-- The directory whose inode lies at address `p`. -/
abbrev DirWf (v : Volume) (p : ℕ) (dot dotdot : DirEntry) (L : Multiset DirEntry) : Prop :=
  DirAt v (v.inodes p) dot dotdot L

/-- There is an indirect table only as long as it has a block. -/
def TableUsed (ref : ℕ → ℕ) : Prop := ref 140 ≠ 0 → ∃ k, 12 ≤ k ∧ k < 140 ∧ ref k ≠ 0

/-- A directory as its own calls leave it: an emptied block is gone, with the table if it was the
last one there, and the entries of `L` stand for other inodes than `dot` and `dotdot`. -/
structure TidyDir (v : Volume) (i : Inode) (dot dotdot : DirEntry) (L : Multiset DirEntry) : Prop
    extends DirAt v i dot dotdot L where
  table : TableUsed (v.ref i)
  outside : ∀ d ∈ L, d.ino ≠ dot.ino ∧ d.ino ≠ dotdot.ino

/-- The directory whose inode lies at address `p`, as its own calls leave it. -/
abbrev DirTidy (v : Volume) (p : ℕ) (dot dotdot : DirEntry) (L : Multiset DirEntry) : Prop :=
  TidyDir v (v.inodes p) dot dotdot L

/-- An entry that may be inserted. -/
structure NewEntry (dot dotdot : DirEntry) (L : Multiset DirEntry) (de : DirEntry) : Prop where
  fits : de.Fits
  fileType : de.fileType ≠ FileType.unknown
  ino : ∀ d ∈ dot ::ₘ dotdot ::ₘ L, d.ino ≠ de.ino

/-- The sector that `bitMapSync` writes for bit `n` is none of the directory's, unless it is
block `n` itself. -/
def SyncMisses (v : Volume) (p n : ℕ) : Prop :=
  ∀ k, v.ref (v.inodes p) k ≠ 0 → v.ref (v.inodes p) k ≠ v.superBlock.dataLbaStart + n →
    v.ref (v.inodes p) k ≠ v.syncLba n

section Table

variable {ref : ℕ → ℕ}

theorem TableUsed.update (h : TableUsed ref) (hk : k < 12) (lba : ℕ) :
    TableUsed (Function.update ref k lba) := by
  intro htable
  rw [Function.update_of_ne (by omega)] at htable
  obtain ⟨k', h12, h140, hne⟩ := h htable
  exact ⟨k', h12, h140, by rwa [Function.update_of_ne (by omega)]⟩

theorem tableUsed_of_block (hk : 12 ≤ k) (hk' : k < 140) (h : ref k ≠ 0) : TableUsed ref :=
  fun _ => ⟨k, hk, hk', h⟩

theorem tableUsed_of_noTable (h : ref 140 = 0) : TableUsed ref := fun hne => absurd h hne

end Table

namespace NewEntry

variable (h : NewEntry dot dotdot L de)
include h

theorem notMem : de.ino ∉ L.map DirEntry.ino := by
  intro hmem
  obtain ⟨d, hd, heq⟩ := Multiset.mem_map.mp hmem
  exact h.ino d (Multiset.mem_cons_of_mem (Multiset.mem_cons_of_mem hd)) heq

theorem outside (hL : ∀ d ∈ L, d.ino ≠ dot.ino ∧ d.ino ≠ dotdot.ino) :
    ∀ d ∈ de ::ₘ L, d.ino ≠ dot.ino ∧ d.ino ≠ dotdot.ino := by
  intro d hd
  rcases Multiset.mem_cons.mp hd with rfl | hd
  · exact ⟨(h.ino dot (Multiset.mem_cons_self _ _)).symm,
      (h.ino dotdot (Multiset.mem_cons_of_mem (Multiset.mem_cons_self _ _))).symm⟩
  · exact hL d hd

end NewEntry

namespace DirAt

variable (h : DirAt v i dot dotdot L)
include h

theorem first_ne_zero : v.blockAt i 0 ≠ 0 :=
  (entryAt_eq_some.mp h.slot_dot).1

theorem ref_ne_fresh (hn : bitMapScan v.blockBitMap 1 = some n) (k : ℕ) :
    v.ref i k ≠ v.superBlock.dataLbaStart + n :=
  h.owns.ne_fresh (bitMapScan_one_eq_some hn).2.1 h.layout.data_pos k

theorem lba_lt (hn : n < v.blockBitMap.bits) : v.superBlock.dataLbaStart + n < 2 ^ 32 := by
  have := h.layout.bits_lt
  omega

theorem ref_lt (k : ℕ) : v.ref i k < 2 ^ 32 := by
  by_cases h0 : v.ref i k = 0
  · rw [h0]
    norm_num
  · obtain ⟨n, hn, hr, -⟩ := h.owns.used k h0
    rw [hr]
    exact h.lba_lt hn

theorem blockAt_inj {k k' : ℕ} (hk : k < 140) (hk' : k' < 140) (hb : v.blockAt i k ≠ 0)
    (heq : v.blockAt i k = v.blockAt i k') : k = k' := by
  apply h.owns.inj k k'
  · rw [ref_of_lt hk, ref_of_lt hk', heq]
  · rwa [ref_of_lt hk]

theorem blockAt_ne_table (hk : k < 140) (hb : v.blockAt i k ≠ 0) :
    v.blockAt i k ≠ i.block 12 := by
  intro heq
  have := h.owns.inj k 140 (by rw [ref_of_lt hk, ref_table, heq]) (by rwa [ref_of_lt hk])
  omega

theorem exists_idx (hk : k < 140) (hb : v.blockAt i k ≠ 0) :
    ∃ n < v.blockBitMap.bits, v.ref i k = v.superBlock.dataLbaStart + n ∧
      v.superBlock.lbaToBitMapIdx (v.blockAt i k) = n := by
  obtain ⟨n, hn, hr, -⟩ := h.owns.used k (by rwa [ref_of_lt hk])
  refine ⟨n, hn, hr, ?_⟩
  rw [← ref_of_lt hk, hr, h.layout.lbaToBitMapIdx hn]

theorem inos_filter (P : DirEntry → Prop) [DecidablePred P] :
    ((L.filter P).map DirEntry.ino).Nodup :=
  Multiset.nodup_of_le (Multiset.map_le_map (Multiset.filter_le P L)) h.inos

/-- The words of a table with one entry changed fit. -/
theorem table_word_lt {lba : ℕ} (hlba : lba < 2 ^ 32) (k j : ℕ) (hj : j < 128) :
    (if 12 + j = k then lba else v.blockAt i (12 + j)) < 2 ^ 32 := by
  split_ifs
  · exact hlba
  · rw [← ref_of_lt (by omega)]
    exact h.ref_lt _

end DirAt

namespace TidyDir

variable (h : DirTidy v p dot dotdot L)
include h

theorem outside_filter (P : DirEntry → Prop) [DecidablePred P] :
    ∀ d ∈ L.filter P, d.ino ≠ dot.ino ∧ d.ino ≠ dotdot.ino :=
  fun d hd => h.outside d (Multiset.mem_of_mem_filter hd)

/-- The entry goes into a free slot of a block that is there. -/
theorem insertSlot (hde : NewEntry dot dotdot L de) (hk : k < 140) (hj : j < 21)
    (hb : v.blockAt (v.inodes p) k ≠ 0)
    (hfree : (slot (v.sector (v.blockAt (v.inodes p) k)) j).fileType = FileType.unknown) :
    DirTidy (v.putEntry p (v.blockAt (v.inodes p) k)
      (memcpy (v.sector (v.blockAt (v.inodes p) k)) (24 * j) de.bytes 24)) p dot dotdot
      (de ::ₘ L) := by
  set b := v.blockAt (v.inodes p) k with hbdef
  set w := v.putEntry p b (memcpy (v.sector b) (24 * j) de.bytes 24) with hw
  have hinode : w.inodes p = (v.inodes p).setSize ((v.inodes p).size + 24) := by
    simp [hw, Volume.putEntry]
  have hdisk : ∀ s, s ≠ b → w.disk s = v.disk s := fun s hs => putEntry_disk hs
  have href : w.ref (w.inodes p) = v.ref (v.inodes p) := by
    apply ref_congr (fun k _ => by rw [hinode]; rfl)
    intro _
    exact hdisk _ (h.blockAt_ne_table hk hb).symm
  have hblock : ∀ k' < 140, w.blockAt (w.inodes p) k' = v.blockAt (v.inodes p) k' := by
    intro k' hk'
    rw [← ref_of_lt hk', ← ref_of_lt hk', href]
  have hsame : ∀ k' < 140, k' ≠ k → ∀ j',
      w.entryAt (w.inodes p) k' j' = v.entryAt (v.inodes p) k' j' := by
    intro k' hk' hne j'
    apply entryAt_congr (hblock k' hk')
    intro hb'
    exact hdisk _ fun heq => hne (h.blockAt_inj hk' hk hb' heq)
  have hslot : ∀ j' < 21, slot (w.disk b) j' = if j' = j then de else slot (v.disk b) j' := by
    intro j' hj'
    rw [← slot_sector (v := v) b hj']
    exact (slot_write v b _ hj').trans (slot_memcpy _ hde.fits j j')
  have hold : v.entryAt (v.inodes p) k j = none := by
    rw [slot_sector b hj] at hfree
    simp [Volume.entryAt, ← hbdef, hfree]
  have hother : ∀ k' j', k' < 140 → j' < 21 → (k', j') ≠ (k, j) →
      w.entryAt (w.inodes p) k' j' = v.entryAt (v.inodes p) k' j' := by
    intro k' j' hk' hj' hne
    by_cases hkk : k' = k
    · subst hkk
      have hjj : j' ≠ j := fun h => hne (by rw [h])
      unfold Volume.entryAt
      rw [hblock k' hk', ← hbdef, hslot j' hj', if_neg hjj]
    · exact hsame k' hk' hkk j'
  have hne : ∀ j' < 21, ∀ d, v.entryAt (v.inodes p) 0 j' = some d → (0, j') ≠ (k, j) := by
    rintro j' - d hd heq
    obtain ⟨rfl, rfl⟩ := Prod.mk.inj heq
    simp [hd] at hold
  refine ⟨⟨h.layout.putEntry _ _ _, ?_, ?_, ?_, h.dot_name, ?_, ?_, ?_⟩, ?_, hde.outside h.outside⟩
  · rw [href]
    exact h.owns
  · apply h.isDir.insert hk hj hold _ hother
    · intro k' _ hb'
      by_cases hk' : k' < 140
      · rwa [hblock k' hk'] at hb'
      · exact absurd (blockAt_of_le w _ (not_lt.mp hk')) hb'
    · rw [hinode]
      rfl
    · rw [entryAt_eq_some, hblock k hk, ← hbdef, hslot j hj, if_pos rfl]
      exact ⟨hb, rfl, hde.fileType⟩
  · rw [hinode]
    exact h.ino_lt
  · rw [hother 0 0 (by norm_num) (by norm_num) (hne 0 (by norm_num) _ h.slot_dot), h.slot_dot]
  · rw [hother 0 1 (by norm_num) (by norm_num) (hne 1 (by norm_num) _ h.slot_dotdot),
      h.slot_dotdot]
  · rw [Multiset.map_cons, Multiset.nodup_cons]
    exact ⟨hde.notMem, h.inos⟩
  · rw [href]
    exact h.table

/-- The entry goes into a block that was not there: the block holds it and nothing else,
and the other blocks are as before. -/
theorem insertNew (lba : ℕ) (hde : NewEntry dot dotdot L de) (hk : k < 140) (hb : v.blockAt (v.inodes p) k = 0)
    (hlba : lba ≠ 0) (hlayout : Layout w)
    (howns : Owns w.superBlock.dataLbaStart w.blockBitMap.bits w.blockBitMap.bit
      (w.ref (w.inodes p)))
    (htable : TableUsed (w.ref (w.inodes p)))
    (href : ∀ k' < 140, w.ref (w.inodes p) k' = if k' = k then lba else v.ref (v.inodes p) k')
    (hdisk : ∀ k' < 140, v.ref (v.inodes p) k' ≠ 0 →
      w.disk (v.ref (v.inodes p) k') = v.disk (v.ref (v.inodes p) k'))
    (hnew : ∀ j < 21, slot (w.disk lba) j = slot (firstEntry de) j)
    (hnum : (w.inodes p).ino = (v.inodes p).ino)
    (hsize : (w.inodes p).size = (v.inodes p).size + 24) :
    DirTidy w p dot dotdot (de ::ₘ L) := by
  have hk0 : k ≠ 0 := by
    rintro rfl
    exact h.first_ne_zero hb
  have hblock : ∀ k' < 140,
      w.blockAt (w.inodes p) k' = if k' = k then lba else v.blockAt (v.inodes p) k' := by
    intro k' hk'
    rw [← ref_of_lt hk', ← ref_of_lt hk', href k' hk']
  have hsame : ∀ k' < 140, k' ≠ k → ∀ j',
      w.entryAt (w.inodes p) k' j' = v.entryAt (v.inodes p) k' j' := by
    intro k' hk' hne j'
    have hkept := hdisk k' hk'
    rw [ref_of_lt hk'] at hkept
    refine entryAt_congr ?_ hkept
    rw [hblock k' hk', if_neg hne]
  have hslot : ∀ j' < 21, slot (w.disk (w.blockAt (w.inodes p) k)) j' =
      if j' = 0 then de else DirEntry.empty := by
    intro j' hj'
    rw [hblock k hk, if_pos rfl, hnew j' hj', slot_firstEntry hde.fits]
  have hk' : w.blockAt (w.inodes p) k ≠ 0 := by
    rwa [hblock k hk, if_pos rfl]
  refine ⟨⟨hlayout, howns, ?_, ?_, h.dot_name, ?_, ?_, ?_⟩, htable, hde.outside h.outside⟩
  · apply h.isDir.insert hk (j := 0) (by norm_num) (entryAt_of_noBlock hb 0) _ _ _ hsize
    · rw [entryAt_eq_some, hslot 0 (by norm_num), if_pos rfl]
      exact ⟨hk', rfl, hde.fileType⟩
    · intro k' j' hk' hj' hne
      by_cases hkk : k' = k
      · subst hkk
        have hj0 : j' ≠ 0 := fun h => hne (by rw [h])
        rw [entryAt_of_noBlock hb]
        unfold Volume.entryAt
        simp [hslot j' hj', hj0, DirEntry.empty]
      · exact hsame k' hk' hkk j'
    · intro k' hne hb'
      by_cases hk' : k' < 140
      · rwa [hblock k' hk', if_neg hne] at hb'
      · exact absurd (blockAt_of_le w _ (not_lt.mp hk')) hb'
  · rw [hnum]
    exact h.ino_lt
  · rw [hsame 0 (by norm_num) hk0.symm, h.slot_dot]
  · rw [hsame 0 (by norm_num) hk0.symm, h.slot_dotdot]
  · rw [Multiset.map_cons, Multiset.nodup_cons]
    exact ⟨hde.notMem, h.inos⟩

/-- The sectors of the directory after a block is taken and written. -/
theorem take_disk (hn : bitMapScan v.blockBitMap 1 = some n) (hmiss : SyncMisses v p n)
    (hr : v.ref (v.inodes p) k ≠ 0) :
    (v.takeBlock n).disk (v.ref (v.inodes p) k) = v.disk (v.ref (v.inodes p) k) :=
  takeBlock_disk (hmiss k hr (h.ref_ne_fresh hn k))

theorem insertDirect (hde : NewEntry dot dotdot L de) (hk : k < 12) (hb : v.blockAt (v.inodes p) k = 0)
    (hn : bitMapScan v.blockBitMap 1 = some n) (hmiss : SyncMisses v p n) :
    DirTidy (((v.takeBlock n).setInode p (·.setBlock k (v.superBlock.dataLbaStart + n))).putEntry p
      (v.superBlock.dataLbaStart + n) (firstEntry de)) p dot dotdot (de ::ₘ L) := by
  set lba := v.superBlock.dataLbaStart + n with hlba
  set w := ((v.takeBlock n).setInode p (·.setBlock k lba)).putEntry p lba (firstEntry de) with hw
  obtain ⟨hlt, hfree, -⟩ := bitMapScan_one_eq_some hn
  have hpos := h.layout.data_pos
  have hinode : w.inodes p = ((v.inodes p).setBlock k lba).setSize ((v.inodes p).size + 24) := by
    simp [hw, Volume.putEntry]
  have hdisk : ∀ k', v.ref (v.inodes p) k' ≠ 0 →
      w.disk (v.ref (v.inodes p) k') = v.disk (v.ref (v.inodes p) k') := fun k' hr =>
    (putEntry_disk (h.ref_ne_fresh hn k')).trans (h.take_disk hn hmiss hr)
  have href : w.ref (w.inodes p) = Function.update (v.ref (v.inodes p)) k lba := by
    apply ref_setBlock_direct hk
    · intro j _
      simp [hinode]
    · intro h12
      have := hdisk 140 (by rwa [ref_table])
      rwa [ref_table] at this
  apply h.insertNew lba hde (by omega) hb (by omega)
  · exact (((h.layout.takeBlock n).setInode _ _).putEntry _ _ _)
  · rw [href]
    exact h.owns.alloc hpos hlt hfree (bitMapSet_bit_self _ _ _)
      (fun m hm => bitMapSet_bit_ne _ _ hm) k
  · rw [href]
    exact h.table.update hk lba
  · intro k' _
    rw [href, Function.update_apply]
  · exact fun k' _ => hdisk k'
  · exact fun j hj => slot_write _ lba _ hj
  · rw [hinode]
    rfl
  · rw [hinode]
    rfl

theorem insertIndirect (hde : NewEntry dot dotdot L de) (hk : 12 < k) (hk' : k < 140)
    (hb : v.blockAt (v.inodes p) k = 0) (htable : (v.inodes p).block 12 ≠ 0)
    (hn : bitMapScan v.blockBitMap 1 = some n) (hmiss : SyncMisses v p n) :
    DirTidy (((v.takeBlock n).putTable p (fun k' => if k' = k then v.superBlock.dataLbaStart + n
      else v.blockAt (v.inodes p) k')).putEntry p (v.superBlock.dataLbaStart + n)
      (firstEntry de)) p dot dotdot (de ::ₘ L) := by
  set lba := v.superBlock.dataLbaStart + n with hlba
  set w := ((v.takeBlock n).putTable p (fun k' => if k' = k then lba
    else v.blockAt (v.inodes p) k')).putEntry p lba (firstEntry de) with hw
  obtain ⟨hlt, hfree, -⟩ := bitMapScan_one_eq_some hn
  have hpos := h.layout.data_pos
  have hinode : w.inodes p = (v.inodes p).setSize ((v.inodes p).size + 24) := by
    simp [hw, Volume.putEntry, Volume.putTable]
  have hdisk : ∀ k' < 140, v.ref (v.inodes p) k' ≠ 0 →
      w.disk (v.ref (v.inodes p) k') = v.disk (v.ref (v.inodes p) k') := by
    intro k' hk' hr
    rw [putEntry_disk (h.ref_ne_fresh hn k'), putTable_disk, h.take_disk hn hmiss hr]
    rw [ref_of_lt hk'] at hr ⊢
    exact h.blockAt_ne_table hk' hr
  have href : w.ref (w.inodes p) = Function.update (v.ref (v.inodes p)) k lba := by
    have hself : v.ref (v.inodes p) = Function.update (v.ref (v.inodes p)) 140
        ((v.inodes p).block 12) := by simp
    rw [hself]
    apply ref_update_table (by rw [hinode]; rfl) htable hk.le hk' (fun j _ => by rw [hinode]; rfl)
    intro j hj
    have hne := h.ref_ne_fresh hn 140
    rw [ref_table] at hne
    rw [putEntry_disk hne]
    exact putTable_words rfl hj (h.table_word_lt (h.lba_lt hlt) k j hj)
  apply h.insertNew lba hde hk' hb (by omega)
  · exact (((h.layout.takeBlock n).putTable _ _).putEntry _ _ _)
  · rw [href]
    exact h.owns.alloc hpos hlt hfree (bitMapSet_bit_self _ _ _)
      (fun m hm => bitMapSet_bit_ne _ _ hm) k
  · rw [href]
    refine tableUsed_of_block hk.le hk' ?_
    rw [Function.update_self]
    omega
  · intro k' _
    rw [href, Function.update_apply]
  · exact hdisk
  · exact fun j hj => slot_write _ lba _ hj
  · rw [hinode]
    rfl
  · rw [hinode]
    rfl

/-- A new indirect table takes over the entries of the one before it, if there was one. -/
theorem insertTable {m : ℕ} (hde : NewEntry dot dotdot L de) (hb : v.blockAt (v.inodes p) 12 = 0)
    (hn : bitMapScan v.blockBitMap 1 = some n) (hmiss : SyncMisses v p n)
    (hm : bitMapScan (bitMapSet v.blockBitMap n true) 1 = some m) (hmiss' : SyncMisses v p m) :
    DirTidy (((((v.takeBlock n).setInode p
      (·.setBlock 12 (v.superBlock.dataLbaStart + n))).takeBlock m).putTable p
      (fun k => if k = 12 then v.superBlock.dataLbaStart + m
        else v.blockAt (v.inodes p) k)).putEntry p
      (v.superBlock.dataLbaStart + m) (firstEntry de)) p dot dotdot (de ::ₘ L) := by
  set t := v.superBlock.dataLbaStart + n with ht
  set lba := v.superBlock.dataLbaStart + m with hlba
  set u := ((v.takeBlock n).setInode p (·.setBlock 12 t)).takeBlock m with hu
  set w := (u.putTable p (fun k => if k = 12 then lba else v.blockAt (v.inodes p) k)).putEntry p
    lba (firstEntry de) with hw
  obtain ⟨hlt, hfree, -⟩ := bitMapScan_one_eq_some hn
  obtain ⟨hmlt, hmfree, -⟩ := bitMapScan_one_eq_some hm
  have hmn : m ≠ n := by
    rintro rfl
    simp at hmfree
  have hmfree' : v.blockBitMap.bit m = false := by
    rwa [bitMapSet_bit_ne _ _ hmn] at hmfree
  have hpos := h.layout.data_pos
  have hinode : w.inodes p = ((v.inodes p).setBlock 12 t).setSize ((v.inodes p).size + 24) := by
    simp [hw, hu, Volume.putEntry, Volume.putTable]
  have hut : (u.inodes p).block 12 = t := by simp [hu]
  have hdisk : ∀ k' < 140, v.ref (v.inodes p) k' ≠ 0 →
      w.disk (v.ref (v.inodes p) k') = v.disk (v.ref (v.inodes p) k') := by
    intro k' hk' hr
    have hm' := h.owns.ne_fresh hmfree' hpos k'
    have hn' := h.ref_ne_fresh hn k'
    rw [putEntry_disk hm', putTable_disk (by rwa [hut])]
    have hu' : u.disk (v.ref (v.inodes p) k') = (v.takeBlock n).disk (v.ref (v.inodes p) k') :=
      takeBlock_disk (v := (v.takeBlock n).setInode p (·.setBlock 12 t)) (hmiss' k' hr hm')
    exact hu'.trans (h.take_disk hn hmiss hr)
  have href : w.ref (w.inodes p) =
      Function.update (Function.update (v.ref (v.inodes p)) 140 t) 12 lba := by
    apply ref_update_table (by rw [hinode]; simp) (by omega) le_rfl (by norm_num)
    · intro j hj
      have hj12 : j ≠ 12 := by omega
      rw [hinode]
      simp [hj12]
    · intro j hj
      rw [putEntry_disk (by omega)]
      exact putTable_words hut hj (h.table_word_lt (h.lba_lt hmlt) 12 j hj)
  apply h.insertNew lba hde (k := 12) (by norm_num) hb (by omega)
  · exact ((((h.layout.takeBlock n).setInode _ _).takeBlock m).putTable _ _).putEntry _ _ _
  · rw [href]
    have howns := h.owns.alloc hpos hlt hfree (bitMapSet_bit_self _ _ _)
      (fun x hx => bitMapSet_bit_ne _ _ hx) 140
    exact howns.alloc hpos hmlt hmfree (bitMapSet_bit_self _ _ _)
      (fun x hx => bitMapSet_bit_ne _ _ hx) 12
  · rw [href]
    refine tableUsed_of_block le_rfl (by norm_num) ?_
    rw [Function.update_self]
    omega
  · intro k' hk'
    rw [href, Function.update_apply, Function.update_apply, if_neg (show k' ≠ 140 by omega)]
  · exact hdisk
  · exact fun j hj => slot_write _ lba _ hj
  · rw [hinode]
    rfl
  · rw [hinode]
    rfl

/-- A failed insertion at index 12 changes nothing the directory refers to, when there was
no indirect table. -/
theorem rolledBack (hb : (v.inodes p).block 12 = 0) (hn : bitMapScan v.blockBitMap 1 = some n)
    (hmiss : SyncMisses v p n) :
    DirTidy (((((v.takeBlock n).setInode p
      (·.setBlock 12 (v.superBlock.dataLbaStart + n))).setBlockBit n false).setInode p
      (·.setBlock 12 0)).sync n .blockBitmap) p dot dotdot L := by
  set w := ((((v.takeBlock n).setInode p
    (·.setBlock 12 (v.superBlock.dataLbaStart + n))).setBlockBit n false).setInode p
    (·.setBlock 12 0)).sync n .blockBitmap with hw
  obtain ⟨hlt, hfree, -⟩ := bitMapScan_one_eq_some hn
  have hinode : w.inodes p = v.inodes p := by
    have hblock : (fun j => if j = 12 then 0 else if j = 12 then v.superBlock.dataLbaStart + n
        else (v.inodes p).block j) = (v.inodes p).block := by
      funext j
      split_ifs with hj
      · rw [hj, hb]
      · rfl
    simp [hw, Inode.setBlock, hblock]
  have hbit : w.blockBitMap.bit = v.blockBitMap.bit := by
    funext x
    simp only [hw, sync_blockBitMap, Volume.setInode_blockBitMap, Volume.setBlockBit_blockBitMap,
      takeBlock_blockBitMap, bitMapSet_bit]
    split_ifs with hx
    · rw [hx, hfree]
    · rfl
  have hdisk : ∀ k', v.ref (v.inodes p) k' ≠ 0 →
      w.disk (v.ref (v.inodes p) k') = v.disk (v.ref (v.inodes p) k') := by
    intro k' hr
    have hlast : w.disk (v.ref (v.inodes p) k') = (v.takeBlock n).disk (v.ref (v.inodes p) k') :=
      sync_disk_ne n .blockBitmap (hmiss k' hr (h.ref_ne_fresh hn k'))
    exact hlast.trans (h.take_disk hn hmiss hr)
  have href : w.ref (w.inodes p) = v.ref (v.inodes p) := by
    apply ref_congr (fun k _ => by rw [hinode])
    exact fun h12 => absurd hb h12
  have hblock : ∀ k' < 140, w.blockAt (w.inodes p) k' = v.blockAt (v.inodes p) k' := by
    intro k' hk'
    rw [← ref_of_lt hk', ← ref_of_lt hk', href]
  have hdisk' : ∀ k' < 140, v.blockAt (v.inodes p) k' ≠ 0 →
      w.disk (v.blockAt (v.inodes p) k') = v.disk (v.blockAt (v.inodes p) k') := by
    intro k' hk' hb'
    have := hdisk k' (by rwa [ref_of_lt hk'])
    rwa [ref_of_lt hk'] at this
  refine ⟨⟨?_, ?_, h.isDir.congr hblock hdisk' (by rw [hinode]), by rw [hinode]; exact h.ino_lt,
    h.dot_name, ?_, ?_, h.inos⟩, ?_, h.outside⟩
  · exact ((((h.layout.takeBlock n).setInode _ _).setBlockBit _ _).setInode _ _).sync _ _
  · rw [href, hbit]
    exact h.owns
  · rw [entryAt_congr (hblock 0 (by norm_num)) (hdisk' 0 (by norm_num)), h.slot_dot]
  · rw [entryAt_congr (hblock 0 (by norm_num)) (hdisk' 0 (by norm_num)), h.slot_dotdot]
  · rw [href]
    exact h.table

/-- The entry that a deletion finds was inserted before, if it is not `dotdot`. -/
theorem exists_of_hit {ino : ℕ} (hk : k < 140) (hj : j < 21)
    (hb : v.blockAt (v.inodes p) k ≠ 0) (hhit : Hit (v.sector (v.blockAt (v.inodes p) k)) ino j)
    (hdd : ino ≠ dotdot.ino) :
    ∃ de, v.entryAt (v.inodes p) k j = some de ∧ de.ino = ino ∧ de.fileName ≠ dotName ∧
      L = de ::ₘ L.filter (·.ino ≠ ino) := by
  obtain ⟨⟨htype, hname⟩, hino⟩ := hhit
  rw [slot_sector _ hj] at htype hname hino
  set de := slot (v.disk (v.blockAt (v.inodes p) k)) j with hde
  have hat : v.entryAt (v.inodes p) k j = some de :=
    entryAt_eq_some.mpr ⟨hb, hde.symm, htype⟩
  have hmem : de ∈ dot ::ₘ dotdot ::ₘ L := by
    rw [← h.isDir.entries]
    exact mem_bag.mpr ⟨(k, j), mem_slots.mpr ⟨hk, hj⟩, hat⟩
  have hL : de ∈ L := by
    rcases Multiset.mem_cons.mp hmem with rfl | hmem
    · exact absurd h.dot_name hname
    · rcases Multiset.mem_cons.mp hmem with rfl | hmem
      · exact absurd hino.symm hdd
      · exact hmem
  obtain ⟨L', rfl⟩ := Multiset.exists_cons_of_mem hL
  refine ⟨de, hat, hino, hname, ?_⟩
  have hnotin : de.ino ∉ L'.map DirEntry.ino := by
    have := h.inos
    rw [Multiset.map_cons, Multiset.nodup_cons] at this
    exact this.1
  rw [Multiset.filter_cons_of_neg _ (by simp [hino]), Multiset.filter_eq_self.mpr]
  intro d hd heq
  exact hnotin (Multiset.mem_map.mpr ⟨d, hd, heq.trans hino.symm⟩)

/-- An entry is removed and its block stays. -/
theorem deleteSlot {ino : ℕ} (hk : k < 140) (hj : j < 21)
    (hb : v.blockAt (v.inodes p) k ≠ 0) (hhit : Hit (v.sector (v.blockAt (v.inodes p) k)) ino j)
    (hmore : ∃ j' < 21, j' ≠ j ∧
      (slot (v.sector (v.blockAt (v.inodes p) k)) j').fileType ≠ FileType.unknown)
    (hdd : ino ≠ dotdot.ino) :
    DirTidy ((v.write (v.blockAt (v.inodes p) k)
      (memset (v.sector (v.blockAt (v.inodes p) k)) (24 * j) 0 24) 1).dropEntry p) p dot dotdot
      (L.filter (·.ino ≠ ino)) := by
  obtain ⟨de, hat, hino, hname, hL⟩ := h.exists_of_hit hk hj hb hhit hdd
  set b := v.blockAt (v.inodes p) k with hbdef
  set u := v.write b (memset (v.sector b) (24 * j) 0 24) 1 with hu
  have hinode : (u.dropEntry p).inodes p = (v.inodes p).setSize ((v.inodes p).size - 24) := by
    rw [dropEntry_inodes]
    rfl
  have hstart : ∀ k' < 140, v.blockAt (v.inodes p) k' ≠ 0 →
      v.superBlock.dataLbaStart ≤ v.blockAt (v.inodes p) k' := by
    intro k' hk' hb'
    rw [← ref_of_lt hk'] at hb' ⊢
    exact h.owns.base_le hb'
  have hdrop : ∀ s, v.superBlock.dataLbaStart ≤ s → (u.dropEntry p).disk s = u.disk s :=
    fun s hs => dropEntry_disk (h.layout.write _ _ _) h.ino_lt hs
  have href : (u.dropEntry p).ref ((u.dropEntry p).inodes p) = v.ref (v.inodes p) := by
    apply ref_congr (fun k _ => by rw [hinode]; rfl)
    intro h12
    have hle : v.superBlock.dataLbaStart ≤ (v.inodes p).block 12 := by
      rw [← ref_table (v := v)] at h12 ⊢
      exact h.owns.base_le h12
    rw [hdrop _ hle]
    exact write_disk_ne _ _ _ (h.blockAt_ne_table hk hb).symm
  have hblock : ∀ k' < 140, (u.dropEntry p).blockAt ((u.dropEntry p).inodes p) k' =
      v.blockAt (v.inodes p) k' := by
    intro k' hk'
    rw [← ref_of_lt hk', ← ref_of_lt hk', href]
  have hslot : ∀ j' < 21, slot ((u.dropEntry p).disk b) j' =
      if j' = j then DirEntry.empty else slot (v.disk b) j' := by
    intro j' hj'
    rw [← slot_sector (v := v) b hj', hdrop b (hstart k hk hb)]
    exact (slot_write v b _ hj').trans (slot_memset _ j j')
  have hother : ∀ k' j', k' < 140 → j' < 21 → (k', j') ≠ (k, j) →
      (u.dropEntry p).entryAt ((u.dropEntry p).inodes p) k' j' =
        v.entryAt (v.inodes p) k' j' := by
    intro k' j' hk' hj' hne
    by_cases hkk : k' = k
    · subst hkk
      have hjj : j' ≠ j := fun h => hne (by rw [h])
      unfold Volume.entryAt
      rw [hblock k' hk', ← hbdef, hslot j' hj', if_neg hjj]
    · apply entryAt_congr (hblock k' hk')
      intro hb'
      rw [hdrop _ (hstart k' hk' hb')]
      exact write_disk_ne _ _ _ fun heq => hkk (h.blockAt_inj hk' hk hb' heq)
  have hne : ∀ j' < 21, ∀ d, v.entryAt (v.inodes p) 0 j' = some d → de ≠ d →
      (0, j') ≠ (k, j) := by
    rintro j' - d hd hdne heq
    obtain ⟨rfl, rfl⟩ := Prod.mk.inj heq
    exact hdne (by simpa [hat] using hd)
  refine ⟨⟨(h.layout.write _ _ _).dropEntry p, ?_, ?_, ?_, h.dot_name, ?_, ?_, h.inos_filter _⟩,
    ?_, h.outside_filter _⟩
  · rw [href]
    exact h.owns
  · have hdir := h.isDir
    rw [hL] at hdir
    refine hdir.delete hk hj hat ?_ hother ?_ ?_ ?_
    · unfold Volume.entryAt
      rw [hblock k hk, ← hbdef, hslot j hj, if_pos rfl]
      simp [DirEntry.empty]
    · intro k' _ hb'
      by_cases hk' : k' < 140
      · rwa [hblock k' hk'] at hb'
      · exact absurd (blockAt_of_le _ _ (not_lt.mp hk')) hb'
    · intro _
      obtain ⟨j', hj', hjj, hocc⟩ := hmore
      rw [slot_sector _ hj'] at hocc
      exact ⟨j', hj', hjj, entryAt_ne_none.mpr ⟨hb, hocc⟩⟩
    · rw [hinode]
      rfl
  · rw [hinode]
    exact h.ino_lt
  · rw [hother 0 0 (by norm_num) (by norm_num)
      (hne 0 (by norm_num) _ h.slot_dot fun heq => hname (heq ▸ h.dot_name)), h.slot_dot]
  · rw [hother 0 1 (by norm_num) (by norm_num)
      (hne 1 (by norm_num) _ h.slot_dotdot fun heq => hdd (by rw [← hino, heq])), h.slot_dotdot]
  · rw [href]
    exact h.table

/-- An entry is removed together with its block, which holds nothing else. -/
theorem deleteBlock {ino : ℕ} (hk : k < 140) (hb : v.blockAt (v.inodes p) k ≠ 0)
    (honly : OnlyHit v (v.blockAt (v.inodes p) k) ino j) (hdd : ino ≠ dotdot.ino)
    (hlayout : Layout w)
    (howns : Owns w.superBlock.dataLbaStart w.blockBitMap.bits w.blockBitMap.bit
      (w.ref (w.inodes p)))
    (htable : TableUsed (w.ref (w.inodes p)))
    (href : ∀ k' < 140, w.ref (w.inodes p) k' = if k' = k then 0 else v.ref (v.inodes p) k')
    (hdisk : ∀ k' < 140, k' ≠ k → v.ref (v.inodes p) k' ≠ 0 →
      w.disk (v.ref (v.inodes p) k') = v.disk (v.ref (v.inodes p) k'))
    (hinode : (w.inodes p).ino = (v.inodes p).ino)
    (hsize : (w.inodes p).size = (v.inodes p).size - 24) :
    DirTidy w p dot dotdot (L.filter (·.ino ≠ ino)) := by
  obtain ⟨hj, hhit, huniq⟩ := honly
  obtain ⟨de, hat, hino, hname, hL⟩ := h.exists_of_hit hk hj hb hhit hdd
  have hblock : ∀ k' < 140,
      w.blockAt (w.inodes p) k' = if k' = k then 0 else v.blockAt (v.inodes p) k' := by
    intro k' hk'
    rw [← ref_of_lt hk', ← ref_of_lt hk', href k' hk']
  have hkblock : w.blockAt (w.inodes p) k = 0 := by rw [hblock k hk, if_pos rfl]
  have hk0 : k ≠ 0 := by
    rintro rfl
    have hdot := h.slot_dot
    obtain ⟨-, hslot, htype⟩ := entryAt_eq_some.mp hdot
    have hj0 : (0 : ℕ) = j := by
      apply huniq 0 (by norm_num)
      rw [slot_sector _ (by norm_num), hslot]
      exact htype
    subst hj0
    rw [hat, Option.some.injEq] at hdot
    exact hname (hdot ▸ h.dot_name)
  have hsame : ∀ k' < 140, k' ≠ k → ∀ j',
      w.entryAt (w.inodes p) k' j' = v.entryAt (v.inodes p) k' j' := by
    intro k' hk' hne j'
    have hkept := hdisk k' hk' hne
    rw [ref_of_lt hk'] at hkept
    refine entryAt_congr ?_ hkept
    rw [hblock k' hk', if_neg hne]
  refine ⟨⟨hlayout, howns, ?_, by rw [hinode]; exact h.ino_lt, h.dot_name, ?_, ?_,
    h.inos_filter _⟩, htable, h.outside_filter _⟩
  · have hdir := h.isDir
    rw [hL] at hdir
    refine hdir.delete hk hj hat (entryAt_of_noBlock hkblock j) ?_ ?_
      (fun hne => absurd hkblock hne) hsize
    · intro k' j' hk' hj' hne
      by_cases hkk : k' = k
      · subst hkk
        have hjj : j' ≠ j := fun h => hne (by rw [h])
        rw [entryAt_of_noBlock hkblock]
        by_contra hocc
        obtain ⟨-, hocc'⟩ := entryAt_ne_none.mp (Ne.symm hocc)
        rw [← slot_sector _ hj'] at hocc'
        exact hjj (huniq j' hj' hocc')
      · exact hsame k' hk' hkk j'
    · intro k' hne hb'
      by_cases hk' : k' < 140
      · rwa [hblock k' hk', if_neg hne] at hb'
      · exact absurd (blockAt_of_le w _ (not_lt.mp hk')) hb'
  · rw [hsame 0 (by norm_num) hk0.symm, h.slot_dot]
  · rw [hsame 0 (by norm_num) hk0.symm, h.slot_dotdot]

/-- The other sectors of the directory after a block is given back. -/
theorem give_disk (hr : v.ref (v.inodes p) k = v.superBlock.dataLbaStart + n)
    (hmiss : SyncMisses v p n) {k' : ℕ} (hne : k' ≠ k) (hr' : v.ref (v.inodes p) k' ≠ 0) :
    (v.giveBlock n).disk (v.ref (v.inodes p) k') = v.disk (v.ref (v.inodes p) k') := by
  apply giveBlock_disk
  apply hmiss k' hr'
  intro heq
  exact hne (h.owns.inj k' k (heq.trans hr.symm) hr')

theorem deleteDirect {ino : ℕ} (hk : k < 12) (hb : v.blockAt (v.inodes p) k ≠ 0)
    (honly : OnlyHit v (v.blockAt (v.inodes p) k) ino j) (hdd : ino ≠ dotdot.ino)
    (hmiss : SyncMisses v p (v.superBlock.lbaToBitMapIdx (v.blockAt (v.inodes p) k))) :
    DirTidy (((v.giveBlock (v.superBlock.lbaToBitMapIdx (v.blockAt (v.inodes p) k))).setInode p
      (·.setBlock k 0)).dropEntry p) p dot dotdot (L.filter (·.ino ≠ ino)) := by
  have hk140 : k < 140 := by omega
  obtain ⟨n, hn, hr, hidx⟩ := h.exists_idx hk140 hb
  rw [hidx] at hmiss ⊢
  set u := (v.giveBlock n).setInode p (·.setBlock k 0) with hu
  have hlayout : Layout u := (h.layout.giveBlock n).setInode _ _
  have hinode : (u.dropEntry p).inodes p =
      ((v.inodes p).setBlock k 0).setSize ((v.inodes p).size - 24) := by
    rw [dropEntry_inodes]
    simp [hu]
  have hdisk : ∀ k', k' ≠ k → v.ref (v.inodes p) k' ≠ 0 →
      (u.dropEntry p).disk (v.ref (v.inodes p) k') = v.disk (v.ref (v.inodes p) k') := by
    intro k' hne hr'
    rw [dropEntry_disk hlayout (by simpa [hu] using h.ino_lt) (h.owns.base_le hr')]
    exact h.give_disk hr hmiss hne hr'
  have href : (u.dropEntry p).ref ((u.dropEntry p).inodes p) =
      Function.update (v.ref (v.inodes p)) k 0 := by
    apply ref_setBlock_direct hk
    · intro x _
      rw [hinode]
      simp
    · intro h12
      have := hdisk 140 (by omega) (by rwa [ref_table])
      rwa [ref_table] at this
  apply h.deleteBlock hk140 hb honly hdd (hlayout.dropEntry p)
  · rw [href]
    exact h.owns.free hr fun m hm => bitMapSet_bit_ne _ _ hm
  · rw [href]
    exact h.table.update hk 0
  · intro k' _
    rw [href, Function.update_apply]
  · exact fun k' _ => hdisk k'
  · rw [hinode]
    rfl
  · rw [hinode]
    rfl

theorem deleteIndirect {ino : ℕ} (hk : 12 ≤ k) (hk' : k < 140)
    (hb : v.blockAt (v.inodes p) k ≠ 0)
    (honly : OnlyHit v (v.blockAt (v.inodes p) k) ino j) (hdd : ino ≠ dotdot.ino)
    (hmore : 1 < indirectBlocksCnt (v.blockAt (v.inodes p)))
    (hmiss : SyncMisses v p (v.superBlock.lbaToBitMapIdx (v.blockAt (v.inodes p) k))) :
    DirTidy (((v.giveBlock (v.superBlock.lbaToBitMapIdx (v.blockAt (v.inodes p) k))).putTable p
      (fun k' => if k' = k then 0 else v.blockAt (v.inodes p) k')).dropEntry p) p dot dotdot
      (L.filter (·.ino ≠ ino)) := by
  obtain ⟨n, hn, hr, hidx⟩ := h.exists_idx hk' hb
  rw [hidx] at hmiss ⊢
  set u := (v.giveBlock n).putTable p (fun k' => if k' = k then 0
    else v.blockAt (v.inodes p) k') with hu
  have hlayout : Layout u := (h.layout.giveBlock n).putTable _ _
  have hinode : (u.dropEntry p).inodes p = (v.inodes p).setSize ((v.inodes p).size - 24) := by
    rw [dropEntry_inodes]
    simp [hu, Volume.putTable]
  have htable : (v.inodes p).block 12 ≠ 0 := by
    intro h12
    exact hb (blockAt_noTable v h12 hk)
  have hdrop : ∀ s, v.superBlock.dataLbaStart ≤ s → (u.dropEntry p).disk s = u.disk s :=
    fun s hs => dropEntry_disk hlayout (by simpa [hu, Volume.putTable] using h.ino_lt) hs
  have hdisk : ∀ k' < 140, k' ≠ k → v.ref (v.inodes p) k' ≠ 0 →
      (u.dropEntry p).disk (v.ref (v.inodes p) k') = v.disk (v.ref (v.inodes p) k') := by
    intro k' hk' hne hr'
    rw [hdrop _ (h.owns.base_le hr'), putTable_disk, h.give_disk hr hmiss hne hr']
    rw [ref_of_lt hk'] at hr' ⊢
    exact h.blockAt_ne_table hk' hr'
  have href : (u.dropEntry p).ref ((u.dropEntry p).inodes p) =
      Function.update (v.ref (v.inodes p)) k 0 := by
    have hself : v.ref (v.inodes p) = Function.update (v.ref (v.inodes p)) 140
        ((v.inodes p).block 12) := by simp
    rw [hself]
    apply ref_update_table (by rw [hinode]; rfl) htable hk hk' (fun j _ => by rw [hinode]; rfl)
    intro j hj
    have hle : v.superBlock.dataLbaStart ≤ (v.inodes p).block 12 := by
      rw [← ref_table (v := v)] at htable ⊢
      exact h.owns.base_le htable
    rw [hdrop _ hle]
    exact putTable_words rfl hj (h.table_word_lt (by norm_num) k j hj)
  apply h.deleteBlock hk' hb honly hdd (hlayout.dropEntry p)
  · rw [href]
    exact h.owns.free hr fun m hm => bitMapSet_bit_ne _ _ hm
  · rw [href]
    obtain ⟨k', h12, h140, hkk, hne⟩ := exists_other_of_indirectBlocksCnt hmore k
    refine tableUsed_of_block h12 h140 ?_
    rwa [Function.update_of_ne hkk, ref_of_lt h140]
  · intro k' _
    rw [href, Function.update_apply]
  · exact hdisk
  · rw [hinode]
    rfl
  · rw [hinode]
    rfl

/-- The last block of the indirect table goes together with the table, when it is the block
at index 12. The bit of the table itself stays set. -/
theorem deleteLast {ino : ℕ} (hb : v.blockAt (v.inodes p) 12 ≠ 0)
    (honly : OnlyHit v (v.blockAt (v.inodes p) 12) ino j)
    (hone : indirectBlocksCnt (v.blockAt (v.inodes p)) = 1) (hdd : ino ≠ dotdot.ino)
    (hmiss : SyncMisses v p (v.superBlock.lbaToBitMapIdx (v.blockAt (v.inodes p) 12))) :
    DirTidy ((((v.giveBlock (v.superBlock.lbaToBitMapIdx (v.blockAt (v.inodes p) 12))).giveBlock
      (v.superBlock.lbaToBitMapIdx (v.blockAt (v.inodes p) 12))).setInode p
      (·.setBlock 12 0)).dropEntry p) p dot dotdot (L.filter (·.ino ≠ ino)) := by
  obtain ⟨n, hn, hr, hidx⟩ := h.exists_idx (k := 12) (by norm_num) hb
  rw [hidx] at hmiss ⊢
  set u := ((v.giveBlock n).giveBlock n).setInode p (·.setBlock 12 0) with hu
  have hlayout : Layout u := ((h.layout.giveBlock n).giveBlock n).setInode _ _
  have hinode : (u.dropEntry p).inodes p =
      ((v.inodes p).setBlock 12 0).setSize ((v.inodes p).size - 24) := by
    rw [dropEntry_inodes]
    simp [hu]
  have hdisk : ∀ k', k' ≠ 12 → v.ref (v.inodes p) k' ≠ 0 →
      (u.dropEntry p).disk (v.ref (v.inodes p) k') = v.disk (v.ref (v.inodes p) k') := by
    intro k' hne hr'
    have htwice : u.disk (v.ref (v.inodes p) k') = (v.giveBlock n).disk (v.ref (v.inodes p) k') :=
      giveBlock_disk (hmiss k' hr' fun heq => hne (h.owns.inj k' 12 (heq.trans hr.symm) hr'))
    rw [dropEntry_disk hlayout (by simpa [hu] using h.ino_lt) (h.owns.base_le hr'), htwice]
    exact h.give_disk hr hmiss hne hr'
  have hblock12 : ((u.dropEntry p).inodes p).block 12 = 0 := by
    rw [hinode]
    simp
  have href : (u.dropEntry p).ref ((u.dropEntry p).inodes p) =
      Function.update (Function.update (v.ref (v.inodes p)) 12 0) 140 0 := by
    funext x
    rw [ref_noTable hblock12, Function.update_apply, Function.update_apply]
    by_cases hx : x < 12
    · have hx12 : x ≠ 12 := by omega
      have hx140 : x ≠ 140 := by omega
      rw [if_pos hx, if_neg hx140, if_neg hx12, ref_of_lt (by omega), blockAt_direct v _ hx,
        hinode]
      simp [hx12]
    · rw [if_neg hx]
      by_cases hx12 : x = 12
      · simp [hx12]
      · rw [if_neg hx12]
        split_ifs with hx140
        · rfl
        · by_cases hlt : x < 140
          · rw [ref_of_lt hlt]
            exact (eq_zero_of_indirectBlocksCnt hone le_rfl (by norm_num) hb (by omega) hlt
              hx12).symm
          · rw [ref_of_gt (by omega)]
  apply h.deleteBlock (k := 12) (by norm_num) hb honly hdd (hlayout.dropEntry p)
  · rw [href]
    refine (h.owns.free hr fun m hm => ?_).forget 140
    exact (bitMapSet_bit_ne _ _ hm).trans (bitMapSet_bit_ne _ _ hm)
  · rw [href]
    exact tableUsed_of_noTable (Function.update_self _ _ _)
  · intro k' hk'
    have hk140 : k' ≠ 140 := by omega
    rw [href, Function.update_apply, if_neg hk140, Function.update_apply]
  · exact fun k' _ => hdisk k'
  · rw [hinode]
    rfl
  · rw [hinode]
    rfl

end TidyDir

end Gogoos
