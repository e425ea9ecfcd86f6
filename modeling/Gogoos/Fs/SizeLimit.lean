import Gogoos.Fs.Contents

/-!
# The size limit of a file

`fileWrite` rejects a write whose end lies behind 71680, in 32-bit arithmetic, and then
asserts that the last block has an index below 140. What it needs for this from earlier
writes is the inode in memory only: the sectors of the disk, which `bitMapSync` may store in
the wrong place, matter through one entry of the indirect table.
-/

namespace Gogoos

open Program

variable {v w : Volume} {e : Heap} {p fd k cnt has will : ℕ} {all all' : ℕ → ℕ} {fs fs' : Fs}
  {buf : List UInt8}

/-- Free blocks lie on the disk, and block 0 is in use. -/
structure MountedVol (v : Volume) : Prop where
  layout : Layout v
  root : v.blockBitMap.bit 0 = true
  free : FreeInside v

/-- The blocks 0 to `m` are there, as far as the inode in memory shows. -/
structure HasBlocks (i : Inode) (m : ℕ) : Prop where
  direct : ∀ k < 12, i.block k ≠ 0 ↔ k ≤ m
  table : i.block 12 ≠ 0 ↔ 12 ≤ m
  below : ∀ k ≤ 12, i.block k < maxLba

/-- The inode of a file after writes: an empty file may have no block yet. -/
structure FileInode (i : Inode) : Prop where
  ino : i.ino < 4096
  size : i.size < 71680
  blocks : (i.size = 0 ∧ ∀ k ≤ 12, i.block k = 0) ∨ HasBlocks i (i.size / 512)

theorem HasBlocks.table_eq_zero {i : Inode} {m : ℕ} (h : HasBlocks i m) (hm : m < 12) :
    i.block 12 = 0 := by
  by_contra hne
  exact absurd (h.table.mp hne) (not_le.mpr hm)

theorem MountedVol.within (h : MountedVol v) : Within v v :=
  ⟨h.layout, rfl, rfl, fun _ hn => hn, h.root⟩

theorem Within.mounted (h : Within v w) (hv : MountedVol v) : MountedVol w := by
  refine ⟨h.layout, h.root, fun n hn hbit => ?_⟩
  rw [h.superBlock]
  exact hv.free n (h.bits ▸ hn) (h.mono n hbit)

section Allocation

/-- The volumes differ in disk sectors and in the log only. -/
def UpToDisk (v w : Volume) : Prop := w = { v with disk := w.disk, idxLog := w.idxLog }

theorem UpToDisk.trans {u : Volume} (h : UpToDisk u v) (h' : UpToDisk v w) : UpToDisk u w := by
  unfold UpToDisk at *
  rw [h', h]

theorem UpToDisk.mounted (h : UpToDisk v w) (hv : MountedVol v) : MountedVol w := by
  rw [h]
  exact ⟨hv.layout.congr rfl rfl rfl rfl rfl, hv.root, hv.free⟩

theorem upToDisk_sync (v : Volume) (n : ℕ) : UpToDisk v (v.sync n .blockBitmap) := rfl

theorem upToDisk_write (v : Volume) (lba : ℕ) (b : ℕ → UInt8) (n : ℕ) :
    UpToDisk v (v.write lba b n) := rfl

/-- `Alloc` without what it says of the disk. -/
def Grew (v w : Volume) (p k cnt : ℕ) (all all' : ℕ → ℕ) : Prop :=
  ∃ w', Alloc v w' p 0 k cnt all all' ∧ UpToDisk w' w

theorem Alloc.upToDisk {v' : Volume} (h : Alloc v' w p fd k cnt all all') (hd : UpToDisk v v') :
    Alloc v { w with disk := v.disk } p fd k cnt all all' := by
  rw [hd] at h
  exact ⟨⟨h.frame.superBlock, h.frame.lbaStart, h.frame.secCnt, h.frame.blockBitMap,
    h.frame.inodeBitMap, h.frame.inodes, h.frame.ino⟩, h.size, fun _ _ => rfl, h.mono, h.clear,
    h.block, h.old, h.new, h.owns⟩

theorem Grew.refl (v : Volume) (p k : ℕ) (all : ℕ → ℕ) : Grew v v p k 0 all all :=
  ⟨v, .refl v p 0 k all, rfl⟩

theorem Grew.cons {v₁ : Volume} {all₁ : ℕ → ℕ} (h : Grew v v₁ p k 1 all all₁)
    (h' : Grew v₁ w p (k + 1) cnt all₁ all') : Grew v w p k (cnt + 1) all all' := by
  obtain ⟨u, hu, hd⟩ := h
  obtain ⟨u', hu', hd'⟩ := h'
  exact ⟨{ u' with disk := u.disk }, hu.cons (hu'.upToDisk hd), by rw [hd']; rfl⟩

theorem Grew.mounted (h : Grew v w p k cnt all all') (hv : MountedVol v) : MountedVol w := by
  obtain ⟨u, hu, hd⟩ := h
  exact hd.mounted ((hu.within hv.within).mounted hv)

theorem Grew.frame (h : Grew v w p k cnt all all') : WriteFrame p v w := by
  obtain ⟨u, hu, hd⟩ := h
  rw [hd]
  exact ⟨hu.frame.superBlock, hu.frame.lbaStart, hu.frame.secCnt, hu.frame.blockBitMap,
    hu.frame.inodeBitMap, hu.frame.inodes, hu.frame.ino⟩

theorem Grew.size (h : Grew v w p k cnt all all') : (w.inodes p).size = (v.inodes p).size := by
  obtain ⟨u, hu, hd⟩ := h
  rw [hd]
  exact hu.size

theorem Grew.clear (h : Grew v w p k cnt all all') :
    w.blockBitMap.clearBits + cnt = v.blockBitMap.clearBits := by
  obtain ⟨u, hu, hd⟩ := h
  rw [hd]
  exact hu.clear

theorem Grew.block (h : Grew v w p k cnt all all') : ∀ j ≤ 12, (w.inodes p).block j =
    if (k ≤ j ∧ j < k + cnt) ∧ j < 12 then all' j else (v.inodes p).block j := by
  obtain ⟨u, hu, hd⟩ := h
  rw [hd]
  exact hu.block

theorem Grew.old (h : Grew v w p k cnt all all') : ∀ j, ¬(k ≤ j ∧ j < k + cnt) →
    all' j = all j := by
  obtain ⟨u, hu, -⟩ := h
  exact hu.old

theorem Grew.new (h : Grew v w p k cnt all all') (hv : MountedVol v) :
    ∀ j, k ≤ j → j < k + cnt → all' j ≠ 0 ∧ all' j < maxLba := by
  obtain ⟨u, hu, -⟩ := h
  exact fun j hj hj' => hu.new_lt hv.within hv.free hj hj'

variable (all) in
/-- `bitMapSync` for a block just taken stores a sector of the disk, though perhaps not one
of the block bitmap. -/
theorem wp_syncTaken_upToDisk {α : Type} {f : Unit → VolM α} {Q : α → Volume → Prop} {n : ℕ}
    (hv : MountedVol v) (hn : bitMapScan v.blockBitMap 1 = some n)
    (hQ : ∀ w, Grew v w p k 1 all (fun j => if j = k then v.superBlock.dataLbaStart + n else all j) →
      wp noStop e (f ()) Q w) :
    wp noStop e (bitMapSync n .blockBitmap >>= f) Q (v.takeFor p k n) := by
  obtain ⟨hlt, hfree, -⟩ := bitMapScan_one_eq_some hn
  have hmax := hv.free n hlt hfree
  have h1 := hv.layout.inodeBitMap_start
  have h2 := hv.layout.inodeTable_start
  have h3 := hv.layout.data_start
  have hsb : (v.takeFor p k n).superBlock = v.superBlock := by
    unfold Volume.takeFor
    split_ifs <;> rfl
  have hstart : (v.takeFor p k n).bitMapLbaStart .blockBitmap = v.superBlock.blockBitMapLbaStart := by
    rw [← hsb]
    rfl
  rw [wp_bitMapSync_bind, hstart]
  refine ⟨fun _ => hQ _ ⟨v.takeFor p k n, ?_, upToDisk_sync _ n⟩, fun hge => hge ?_⟩
  · exact alloc_one hv.layout hn ⟨rfl, fun _ _ => rfl⟩
  · unfold syncSecOffset
    omega

/-- One round of the allocation loops: the volume is full, or a block is taken. -/
theorem wp_allocBlocks_succ {check : Bool} {Q : Option (ℕ → ℕ) → Volume → Prop} (hv : MountedVol v)
    (hzero : k < 12 → (v.inodes p).block k = 0)
    (hnone : bitMapScan v.blockBitMap 1 = none → Q none v)
    (hsome : ∀ w all', Grew v w p k 1 all all' →
      wp noStop e (allocBlocks (fun n => bitMapSync n .blockBitmap) p check cnt (k + 1) all') Q w) :
    wp noStop e (allocBlocks (fun n => bitMapSync n .blockBitmap) p check (cnt + 1) k all) Q v := by
  unfold allocBlocks
  apply wp_blockBitMapAlloc_bind
  · exact fun hn => wp_pure.mpr (hnone hn)
  · intro n hn
    have hrest : wp noStop e (do
        let blockBitMapIdx ← blockLbaToBitMapIdx (v.superBlock.dataLbaStart + n)
        assert (check → blockBitMapIdx ≠ 0)
        bitMapSync blockBitMapIdx .blockBitmap
        allocBlocks (fun n => bitMapSync n .blockBitmap) p check cnt (k + 1)
          (fun j => if j = k then v.superBlock.dataLbaStart + n else all j)) Q
        (v.takeFor p k n) := by
      rw [wp_blockLbaToBitMapIdx_bind, takeFor_idx hv.layout hn,
        wp_assert_pos fun _ => hv.within.fresh_ne_zero hn]
      exact wp_syncTaken_upToDisk all hv hn fun w hone => hsome w _ hone
    by_cases hk : k < 12
    · have h0 : ((v.setBlockBit n true).inodes p).block k = 0 := hzero hk
      simp only [if_pos hk, wp_get_bind]
      rw [wp_assert_pos h0]
      unfold setBlock
      rw [wp_modifyInode_bind]
      simpa only [Volume.takeFor, if_pos hk] using hrest
    · simp only [if_neg hk]
      simpa only [Volume.takeFor, if_neg hk] using hrest

theorem Grew.zero {c : ℕ} (h : Grew v w p k 1 all all')
    (hzero : ∀ j, k ≤ j → j < k + (c + 1) → j < 12 → (v.inodes p).block j = 0) :
    ∀ j, k + 1 ≤ j → j < k + 1 + c → j < 12 → (w.inodes p).block j = 0 := by
  intro j hj hj' hj12
  rw [h.block j (by omega), if_neg (by omega)]
  exact hzero j (by omega) (by omega) hj12

/-- Induction on the number of blocks to allocate, as for `Alloc`. -/
theorem wp_allocBlocks_grew {check : Bool} {Q : Option (ℕ → ℕ) → Volume → Prop} : ∀ cnt k all v,
    MountedVol v → cnt ≤ v.blockBitMap.clearBits →
    (∀ j, k ≤ j → j < k + cnt → j < 12 → (v.inodes p).block j = 0) →
    (∀ w all', Grew v w p k cnt all all' → Q (some all') w) →
    wp noStop e (allocBlocks (fun n => bitMapSync n .blockBitmap) p check cnt k all) Q v := by
  intro cnt
  induction cnt with
  | zero => exact fun k all v _ _ _ hQ => wp_pure.mpr (hQ v all (.refl v p k all))
  | succ cnt ih =>
    intro k all v hv hclear hzero hQ
    apply wp_allocBlocks_succ hv (hzero k le_rfl (by omega))
    · intro hnone
      obtain ⟨n, hn⟩ := exists_scan_of_clearBits v.blockBitMap (by omega)
      simp [hnone] at hn
    · intro w all' hone
      have hc := hone.clear
      exact ih (k + 1) all' w (hone.mounted hv) (by omega) (hone.zero hzero)
        fun w' all'' h' => hQ w' all'' (hone.cons h')

/-- With too few free blocks the loop fails. -/
theorem wp_allocBlocks_full {check : Bool} : ∀ cnt k all v, MountedVol v →
    v.blockBitMap.clearBits < cnt →
    (∀ j, k ≤ j → j < k + cnt → j < 12 → (v.inodes p).block j = 0) →
    wp noStop e (allocBlocks (fun n => bitMapSync n .blockBitmap) p check cnt k all)
      (fun r _ => r = none) v := by
  intro cnt
  induction cnt with
  | zero => exact fun k all v _ hclear _ => absurd hclear (by omega)
  | succ cnt ih =>
    intro k all v hv hclear hzero
    apply wp_allocBlocks_succ hv (hzero k le_rfl (by omega)) fun _ => rfl
    intro w all' hone
    have hc := hone.clear
    exact ih (k + 1) all' w (hone.mounted hv) (by omega) (hone.zero hzero)

/-- The first block of an empty file. -/
theorem wp_allocFirstBlock_grew {Q : Bool → Volume → Prop} (hv : MountedVol v)
    (hclear : (v.inodes p).block 0 = 0 → 1 ≤ v.blockBitMap.clearBits)
    (hthere : (v.inodes p).block 0 ≠ 0 → Q true v)
    (hQ : (v.inodes p).block 0 = 0 → ∀ w all', Grew v w p 0 1 (fun _ => 0) all' → Q true w) :
    wp noStop e (allocFirstBlock (fun n => bitMapSync n .blockBitmap) p) Q v := by
  unfold allocFirstBlock
  rw [wp_get_bind]
  apply wp_ite
  · intro h0
    apply wp_blockBitMapAlloc_free_bind (hclear h0)
    intro n hn
    have hrest : wp noStop e (do
        let blockBitMapIdx ← blockLbaToBitMapIdx (v.superBlock.dataLbaStart + n)
        assert (blockBitMapIdx ≠ 0)
        bitMapSync blockBitMapIdx .blockBitmap
        return true) Q (v.takeFor p 0 n) := by
      rw [wp_blockLbaToBitMapIdx_bind, takeFor_idx hv.layout hn,
        wp_assert_pos (hv.within.fresh_ne_zero hn)]
      apply wp_syncTaken_upToDisk (fun _ => 0) hv hn
      exact fun w hw => wp_pure.mpr (hQ h0 w _ hw)
    unfold setBlock
    rw [wp_modifyInode_bind]
    simpa only [Volume.takeFor, if_pos (show 0 < 12 by norm_num)] using hrest
  · exact fun h0 => wp_pure.mpr (hthere h0)

end Allocation

section Prepare

/-- The state in which `prepareBlocks` returns: the inode has the blocks up to `will`, and
`all` has the one written first, as it was in `v`, and those that were taken. -/
structure Ready (v w : Volume) (p has will : ℕ) (all : ℕ → ℕ) : Prop where
  mounted : MountedVol w
  frame : WriteFrame p v w
  size : (w.inodes p).size = (v.inodes p).size
  blocks : HasBlocks (w.inodes p) will
  first : all has = v.blockAt (v.inodes p) has
  new : ∀ k, has < k → k ≤ will → all k < maxLba

theorem Ready.write (h : Ready v w p has will all) (lba : ℕ) (b : ℕ → UInt8) :
    Ready v (w.write lba b 1) p has will all :=
  ⟨(upToDisk_write w lba b 1).mounted h.mounted, ⟨h.frame.superBlock, h.frame.lbaStart,
    h.frame.secCnt, h.frame.blockBitMap, h.frame.inodeBitMap, h.frame.inodes, h.frame.ino⟩, h.size,
    h.blocks, h.first, h.new⟩

theorem ready_same (hv : MountedVol v) (h : HasBlocks (v.inodes p) has)
    (hall : all has = v.blockAt (v.inodes p) has) : Ready v v p has has all :=
  ⟨hv, .refl p v, rfl, h, hall, fun k hk hk' => absurd hk' (by omega)⟩

/-- The blocks after `has` were taken, in a volume whose inode has its indirect table if the
write needs it. -/
theorem ready_grew {v₁ : Volume} {all₁ : ℕ → ℕ} (hle : has ≤ will) (hv₁ : MountedVol v₁)
    (hframe : WriteFrame p v v₁) (hsize : (v₁.inodes p).size = (v.inodes p).size)
    (h : HasBlocks (v.inodes p) has)
    (hblock : ∀ j < 12, (v₁.inodes p).block j = (v.inodes p).block j)
    (htable : (v₁.inodes p).block 12 ≠ 0 ↔ 12 ≤ will) (hlt : (v₁.inodes p).block 12 < maxLba)
    (hall : all₁ has = v.blockAt (v.inodes p) has)
    (hg : Grew v₁ w p (has + 1) (will - has) all₁ all) : Ready v w p has will all := by
  have hnew : ∀ k, has < k → k ≤ will → all k ≠ 0 ∧ all k < maxLba :=
    fun k hk hk' => hg.new hv₁ k hk (by omega)
  have h12 : (w.inodes p).block 12 = (v₁.inodes p).block 12 := by
    rw [hg.block 12 le_rfl, if_neg (by omega)]
  refine ⟨hg.mounted hv₁, hframe.trans hg.frame, hg.size.trans hsize,
    ⟨fun k hk => ?_, by rw [h12]; exact htable, fun k hk => ?_⟩, ?_, fun k hk hk' => (hnew k hk hk').2⟩
  · rw [hg.block k hk.le]
    split_ifs with hin
    · exact iff_of_true (hnew k (by omega) (by omega)).1 (by omega)
    · rw [hblock k hk, h.direct k hk]
      omega
  · rcases hk.lt_or_eq with hk | rfl
    · rw [hg.block k hk.le]
      split_ifs with hin
      · exact (hnew k (by omega) (by omega)).2
      · rw [hblock k hk]
        exact h.below k hk.le
    · rw [h12]
      exact hlt
  · rw [hg.old has (by omega), hall]

theorem HasBlocks.has_ne_zero (h : HasBlocks (v.inodes p) has) (hlt : has < 12) :
    (v.inodes p).block has ≠ 0 := (h.direct has hlt).mpr le_rfl

theorem HasBlocks.zero (h : HasBlocks (v.inodes p) has) :
    ∀ j, has + 1 ≤ j → j < 12 → (v.inodes p).block j = 0 := by
  intro j hj hj12
  by_contra hne
  have := (h.direct j hj12).mp hne
  omega

/-- With too few free blocks `prepareBlocks` fails, in whichever of its loops. -/
theorem wp_prepareBlocks_full (hv : MountedVol v) (hle : has ≤ will)
    (h : HasBlocks (v.inodes p) has) (hclear : v.blockBitMap.clearBits < blocksNeeded has will) :
    wp noStop e (prepareBlocks (fun n => bitMapSync n .blockBitmap) p has will)
      (fun r _ => r = none) v := by
  have htlt : (v.inodes p).block 12 < maxLba := h.below 12 le_rfl
  have hzero : ∀ j, has + 1 ≤ j → j < has + 1 + (will - has) → j < 12 → (v.inodes p).block j = 0 :=
    fun j hj _ hj12 => h.zero j hj hj12
  unfold blocksNeeded at hclear
  have hne : will ≠ has := by
    rintro rfl
    rw [if_neg (by omega)] at hclear
    omega
  unfold prepareBlocks
  rw [wp_get_bind, if_neg hne]
  by_cases h12 : will < 12
  · rw [if_pos h12, wp_assert_pos (h.has_ne_zero (by omega))]
    rw [if_neg (by omega)] at hclear
    exact wp_allocBlocks_full _ _ _ _ hv (by omega) hzero
  · rw [if_neg h12]
    by_cases hhas : has < 12
    · rw [if_pos hhas, wp_assert_pos (h.has_ne_zero hhas)]
      rw [if_pos ⟨hhas, by omega⟩] at hclear
      apply wp_blockBitMapAlloc_bind
      · exact fun _ => wp_pure.mpr rfl
      · intro n hn
        have h120 : (v.inodes p).block 12 = 0 := h.table_eq_zero hhas
        have htake := tableTaken p 0 hv.within hv.free hn
        rw [wp_assert_pos h120]
        unfold setBlock
        rw [wp_modifyInode_bind]
        have hc := clearBits_set (bitMapScan_one_eq_some hn).1 (bitMapScan_one_eq_some hn).2.1
        apply wp_call (wp_allocBlocks_full _ _ _ _ (htake.within.mounted hv) ?_ ?_)
        · rintro _ w rfl
          exact wp_pure.mpr rfl
        · change (bitMapSet v.blockBitMap n true).clearBits < _
          omega
        · intro j hj hj' hj12
          rw [htake.block j hj12]
          exact hzero j hj hj' hj12
    · rw [if_neg (by omega)] at hclear
      have htable : (v.inodes p).block 12 ≠ 0 := h.table.mpr (by omega)
      rw [if_neg hhas, wp_assert_pos htable]
      apply wp_bind
      apply wp_readTable htable htlt
      intro all _ _
      apply wp_call (wp_allocBlocks_full _ _ _ _ hv (by omega) hzero)
      rintro _ w rfl
      exact wp_pure.mpr rfl

/-- The cases of `prepareBlocks`, with enough free blocks. -/
theorem wp_prepareBlocks_ready {Q : Option (ℕ → ℕ) → Volume → Prop} (hv : MountedVol v)
    (hle : has ≤ will) (hwill : will < 140) (h : HasBlocks (v.inodes p) has)
    (hclear : blocksNeeded has will ≤ v.blockBitMap.clearBits)
    (hQ : ∀ w all, Ready v w p has will all → Q (some all) w) :
    wp noStop e (prepareBlocks (fun n => bitMapSync n .blockBitmap) p has will) Q v := by
  have htable : 12 ≤ has → (v.inodes p).block 12 ≠ 0 := h.table.mpr
  have htlt : (v.inodes p).block 12 < maxLba := h.below 12 le_rfl
  have hone : has < 12 → oneBlock (v.inodes p).block has has = v.blockAt (v.inodes p) has :=
    fun hlt => oneBlock_has v p hlt
  unfold prepareBlocks
  rw [wp_get_bind]
  by_cases hsame : will = has
  · subst hsame
    rw [if_pos rfl]
    by_cases h12 : will < 12
    · rw [if_pos h12, wp_assert_pos (h.has_ne_zero h12), wp_pure]
      exact hQ v _ (ready_same hv h (hone h12))
    · rw [if_neg h12, wp_assert_pos (htable (by omega))]
      apply wp_bind
      apply wp_readTable (htable (by omega)) htlt
      intro all hall _
      rw [wp_pure]
      exact hQ v _ (ready_same hv h (hall will (by omega) hwill))
  · unfold blocksNeeded at hclear
    rw [if_neg hsame]
    by_cases h12 : will < 12
    · rw [if_pos h12, wp_assert_pos (h.has_ne_zero (by omega))]
      apply wp_allocBlocks_grew _ _ _ _ hv (by omega) (fun j hj _ hj12 => h.zero j hj hj12)
      intro w all hg
      have h120 : (v.inodes p).block 12 ≠ 0 ↔ 12 ≤ will := by
        rw [h.table]
        omega
      exact hQ w all (ready_grew hle hv (.refl p v) rfl h (fun _ _ => rfl) h120 htlt
        (hone (by omega)) hg)
    · rw [if_neg h12]
      by_cases hhas : has < 12
      · rw [if_pos hhas, wp_assert_pos (h.has_ne_zero hhas)]
        rw [if_pos ⟨hhas, by omega⟩] at hclear
        have hpos : 0 < v.blockBitMap.clearBits := by omega
        apply wp_blockBitMapAlloc_free_bind hpos
        intro n hn
        have h120 : (v.inodes p).block 12 = 0 := h.table_eq_zero hhas
        have htake := tableTaken p 0 hv.within hv.free hn
        rw [wp_assert_pos h120]
        unfold setBlock
        rw [wp_modifyInode_bind]
        have hc := clearBits_set (bitMapScan_one_eq_some hn).1 (bitMapScan_one_eq_some hn).2.1
        apply wp_bind
        apply wp_allocBlocks_grew _ _ _ _ (htake.within.mounted hv)
        · change _ ≤ (bitMapSet v.blockBitMap n true).clearBits
          omega
        · intro j hj _ hj12
          rw [htake.block j hj12]
          exact h.zero j hj hj12
        · intro w all hg
          have hready : Ready v w p has will all := by
            refine ready_grew hle (htake.within.mounted hv) htake.frame htake.size h htake.block
              ?_ ?_ (hone hhas) hg
            · rw [htake.table]
              exact iff_of_true htake.ne (by omega)
            · rw [htake.table]
              exact htake.lt
          simp only [wp_ideWrite_bind, wp_pure]
          exact ⟨fun _ => hQ _ _ (hready.write _ _), fun hge => absurd htake.lt hge⟩
      · rw [if_neg hhas, wp_assert_pos (htable (by omega))]
        apply wp_bind
        apply wp_readTable (htable (by omega)) htlt
        intro all hall _
        apply wp_bind
        apply wp_allocBlocks_grew _ _ _ _ hv (by omega) (fun j hj _ hj12 => h.zero j hj hj12)
        intro w all' hg
        have hready : Ready v w p has will all' :=
          ready_grew hle hv (.refl p v) rfl h (fun _ _ => rfl)
            (iff_of_true (htable (by omega)) (by omega)) htlt (hall has (by omega) (by omega)) hg
        simp only [wp_ideWrite_bind, wp_pure]
        exact ⟨fun _ => hQ _ _ (hready.write _ _), fun hge => absurd htlt hge⟩

end Prepare

section Chunks

/-- The values of `secIdx` in the copy loop of a write of `sizeLeft` bytes at `size`. -/
def secIdxs : (fuel size sizeLeft : ℕ) → List ℕ
  | 0, _, _ => []
  | fuel + 1, size, sizeLeft =>
    if sizeLeft = 0 then []
    else
      let chunkSize := min sizeLeft (512 - size % 512)
      size / 512 :: secIdxs fuel (size + chunkSize) (sizeLeft - chunkSize)

theorem secIdxs_bounds : ∀ fuel size sizeLeft, ∀ k ∈ secIdxs fuel size sizeLeft,
    size / 512 ≤ k ∧ 512 * k < size + sizeLeft := by
  intro fuel
  induction fuel with
  | zero => simp [secIdxs]
  | succ fuel ih =>
    intro size sizeLeft k hk
    unfold secIdxs at hk
    split_ifs at hk with h0
    · simp at hk
    · rcases List.mem_cons.mp hk with rfl | hk
      · omega
      · have := ih _ _ k hk
        omega

theorem setSize_self (v : Volume) (p : ℕ) : v.setInode p (·.setSize (v.inodes p).size) = v := by
  have h : (fun q => if q = p then (v.inodes q).setSize (v.inodes p).size else v.inodes q) =
      v.inodes := by
    funext q
    split_ifs with hq
    · rw [hq]
      rfl
    · rfl
  unfold Volume.setInode
  rw [h]

theorem upToDisk_round (v : Volume) (p n m lba : ℕ) (b : ℕ → UInt8) :
    UpToDisk (v.setInode p (·.setSize m))
      (((v.write lba b 1).setInode p fun i => i.setSize (i.size + n)).setInode p (·.setSize m)) := by
  have h : (fun q => if q = p then (if q = p then (v.inodes q).setSize ((v.inodes q).size + n)
      else v.inodes q).setSize m else if q = p then (v.inodes q).setSize ((v.inodes q).size + n)
      else v.inodes q) = fun q => if q = p then (v.inodes q).setSize m else v.inodes q := by
    funext q
    split_ifs <;> rfl
  unfold UpToDisk Volume.setInode Volume.write
  simp only [h]

/-- Induction on the number of rounds: every block that the loop writes to lies on the disk,
or the machine may stop. -/
theorem wp_writeChunks_size {stop : Volume → Prop} {Q : Unit → Volume → Prop} : ∀ fuel src first v,
    src.length ≤ fuel →
    (∀ k, 0 < src.length → (v.inodes p).size / 512 ≤ k →
      512 * k < (v.inodes p).size + src.length → all k < maxLba ∨ ∀ x, stop x) →
    (∀ w, UpToDisk (v.setInode p (·.setSize ((v.inodes p).size + src.length))) w → Q () w) →
    wp stop e (writeChunks p all fuel src first) Q v := by
  intro fuel
  induction fuel with
  | zero =>
    intro src first v hfuel _ hQ
    obtain rfl : src = [] := List.length_eq_zero_iff.mp (Nat.le_zero.mp hfuel)
    unfold writeChunks
    rw [wp_pure]
    apply hQ v
    rw [List.length_nil, Nat.add_zero, setSize_self]
    rfl
  | succ fuel ih =>
    intro src first v hfuel hall hQ
    unfold writeChunks
    by_cases hnil : src = []
    · rw [if_pos hnil, wp_pure]
      apply hQ v
      rw [hnil, List.length_nil, Nat.add_zero, setSize_self]
      rfl
    · have hpos : 0 < src.length := List.length_pos_iff.mpr hnil
      rw [if_neg hnil, wp_get_bind]
      set size := (v.inodes p).size with hsize
      set n := min src.length (512 - size % 512) with hn
      have hrest : ∀ ioBuf : ℕ → UInt8, wp stop e (do
          ideWrite (all (size / 512)) (memcpy ioBuf (size % 512) (fun k => src.getD k 0) n) 1
          addSize p n
          writeChunks p all fuel (src.drop n) false) Q v := by
        intro ioBuf
        rw [wp_ideWrite_bind]
        refine ⟨fun _ => ?_, fun hge => (hall _ hpos le_rfl (by omega)).resolve_left hge v⟩
        unfold addSize
        rw [wp_modifyInode_bind]
        set v₁ := (v.write (all (size / 512))
          (memcpy ioBuf (size % 512) (fun k => src.getD k 0) n) 1).setInode p
            (fun i => i.setSize (i.size + n)) with hv₁
        have hsize₁ : (v₁.inodes p).size = size + n := by simp [hv₁, hsize]
        have hdrop : (src.drop n).length = src.length - n := List.length_drop
        apply ih (src.drop n) false v₁ (by omega)
        · intro k _ hk hk'
          rw [hsize₁] at hk hk'
          exact hall k hpos (by omega) (by omega)
        · intro w hw
          apply hQ w
          rw [hsize₁, hdrop, show size + n + (src.length - n) = size + src.length by omega] at hw
          exact (upToDisk_round v p n _ _ _).trans hw
      cases first with
      | true =>
        simp only [if_pos, wp_ideRead_bind]
        exact ⟨fun _ => hrest _, fun hge => (hall _ hpos le_rfl (by omega)).resolve_left hge v⟩
      | false =>
        simp only [Bool.false_eq_true, if_false, wp_pure_bind]
        exact hrest _

end Chunks

section Phases

/-- The block of the next byte is there, and on the disk if it was or if it is new. -/
structure FirstReady (v w : Volume) (p : ℕ) : Prop where
  mounted : MountedVol w
  frame : WriteFrame p v w
  size : (w.inodes p).size = (v.inodes p).size
  blocks : HasBlocks (w.inodes p) ((v.inodes p).size / 512)
  first : w.blockAt (w.inodes p) ((v.inodes p).size / 512) < maxLba ↔
    v.blockAt (v.inodes p) ((v.inodes p).size / 512) < maxLba

theorem firstReady_there (hv : MountedVol v) (h : FileInode (v.inodes p))
    (h0 : (v.inodes p).block 0 ≠ 0) : FirstReady v v p := by
  refine ⟨hv, .refl p v, rfl, ?_, Iff.rfl⟩
  rcases h.blocks with ⟨-, hz⟩ | hb
  · exact absurd (hz 0 (by norm_num)) h0
  · exact hb

theorem firstReady_taken {all all' : ℕ → ℕ} (hv : MountedVol v) (h : FileInode (v.inodes p))
    (h0 : (v.inodes p).block 0 = 0) (hg : Grew v w p 0 1 all all') : FirstReady v w p := by
  obtain ⟨hsize, hz⟩ : (v.inodes p).size = 0 ∧ ∀ k ≤ 12, (v.inodes p).block k = 0 := by
    rcases h.blocks with hz | hb
    · exact hz
    · exact absurd h0 ((hb.direct 0 (by norm_num)).mpr (Nat.zero_le _))
  have hnew := hg.new hv 0 le_rfl (by norm_num)
  have hmax : 0 < maxLba := by decide
  have hblock : ∀ k ≤ 12, (w.inodes p).block k = if k = 0 then all' 0 else 0 := by
    intro k hk
    rw [hg.block k hk, hz k hk]
    by_cases hk0 : k = 0
    · simp [hk0]
    · rw [if_neg (by omega), if_neg hk0]
  rw [← Nat.zero_div 512] at hsize
  refine ⟨hg.mounted hv, hg.frame, hg.size, ⟨fun k hk => ?_, ?_, fun k hk => ?_⟩, ?_⟩
  · rw [hblock k hk.le, hsize]
    split_ifs with hk0
    · simp [hk0, hnew.1]
    · simp [hk0]
  · rw [hblock 12 le_rfl, hsize]
    simp
  · rw [hblock k hk]
    split_ifs
    · exact hnew.2
    · exact hmax
  · rw [hsize, blockAt_direct _ _ (by norm_num), blockAt_direct _ _ (by norm_num)]
    rw [hblock 0 (by norm_num), hz 0 (by norm_num)]
    exact iff_of_true hnew.2 hmax

/-- The blocks of the write are there, all of them on the disk if the first one is. -/
structure WriteReady (v w : Volume) (p count : ℕ) (all : ℕ → ℕ) : Prop where
  mounted : MountedVol w
  frame : WriteFrame p v w
  size : (w.inodes p).size = (v.inodes p).size
  blocks : HasBlocks (w.inodes p) (((v.inodes p).size + count) / 512)
  first : all ((v.inodes p).size / 512) < maxLba ↔
    v.blockAt (v.inodes p) ((v.inodes p).size / 512) < maxLba
  new : ∀ k, (v.inodes p).size / 512 < k → k ≤ ((v.inodes p).size + count) / 512 → all k < maxLba

/-- `allocFirstBlock`, when there is a free block if it needs one. -/
theorem wp_allocFirstBlock_ready {Q : Bool → Volume → Prop} (hv : MountedVol v)
    (h : FileInode (v.inodes p)) (hclear : (v.inodes p).block 0 = 0 → 1 ≤ v.blockBitMap.clearBits)
    (hQ : ∀ w, FirstReady v w p → w.blockBitMap.clearBits +
      (if (v.inodes p).block 0 = 0 then 1 else 0) = v.blockBitMap.clearBits → Q true w) :
    wp noStop e (allocFirstBlock (fun n => bitMapSync n .blockBitmap) p) Q v := by
  apply wp_allocFirstBlock_grew hv hclear
  · intro h0
    exact hQ v (firstReady_there hv h h0) (by rw [if_neg h0, Nat.add_zero])
  · intro h0 w all' hg
    exact hQ w (firstReady_taken hv h h0 hg) (by rw [if_pos h0, hg.clear])

/-- `fileWrite` up to its copy loop, for a write that ends before the limit. -/
theorem wp_fileWrite_ready {stop : Fs → Prop} {Q : ℤ → Fs → Prop}
    (hp : (fs.fileTable fd).fdInode = some p)
    (hv : MountedVol fs.vol) (h : FileInode (fs.vol.inodes p)) (he : ∀ t, e.sysMalloc t = true)
    (hfit : (fs.vol.inodes p).size + buf.length < 71680)
    (hclear : writeNeeds (fs.vol.inodes p) buf.length ≤ fs.vol.blockBitMap.clearBits)
    (hQ : ∀ w all, WriteReady fs.vol w p buf.length all → wp stop e (do
      onVol (writeChunks p all buf.length buf true)
      let fs' ← get
      setFile fd { fs'.fileTable fd with
        fdPos := ((fs.vol.inodes p).size + (2 ^ 32 - 1) + buf.length) % 2 ^ 32 }
      onVol (inodeSync (fs'.vol.inodes p))
      return (buf.length : ℤ)) Q (fs.setVol w)) : wp stop e (fileWrite fd buf) Q fs := by
  unfold fileWrite fileWriteWith
  apply wp_slotInode_bind hp
  rw [wp_get_bind]
  have hmod : ((fs.vol.inodes p).size + buf.length) % 2 ^ 32 = (fs.vol.inodes p).size + buf.length :=
    Nat.mod_eq_of_lt (by omega)
  simp only [hmod]
  rw [if_neg (by omega)]
  apply wp_onVol_sysMalloc_ok he
  simp only [Bool.not_true, Bool.false_eq_true, if_false]
  apply wp_onVol_sysMalloc_ok he
  simp only [Bool.not_true, Bool.false_eq_true, if_false]
  unfold writeNeeds at hclear
  apply wp_onVol_bind
  apply wp_of_noStop
  apply wp_allocFirstBlock_ready hv h
  · intro h0
    rw [if_pos h0] at hclear
    omega
  intro v₁ h₁ hc
  simp only [Bool.not_true, Bool.false_eq_true, if_false]
  rw [wp_assert_pos (by rw [hmod]; omega)]
  apply wp_onVol_bind
  apply wp_of_noStop
  apply wp_prepareBlocks_ready h₁.mounted (by omega) (by omega) h₁.blocks (by omega)
  intro w all hw
  apply hQ w all
  refine ⟨hw.mounted, h₁.frame.trans hw.frame, hw.size.trans h₁.size, hw.blocks, ?_, hw.new⟩
  rw [hw.first]
  exact h₁.first

end Phases

section Law

/-- The file in slot `fd` is open and has the blocks that writes left it. -/
structure WrittenFile (fd : ℕ) (fs : Fs) : Prop where
  mounted : MountedVol fs.vol
  slot : (fs.fileTable fd).fdInode ≠ none
  inode : FileInode (fs.vol.inodes (fs.inodeAt fd))

theorem WrittenFile.fdInode (h : WrittenFile fd fs) :
    (fs.fileTable fd).fdInode = some (fs.inodeAt fd) := by
  obtain ⟨q, hq⟩ := Option.ne_none_iff_exists'.mp h.slot
  rw [Fs.inodeAt, hq]
  rfl

theorem WrittenFile.of_slot (hv : MountedVol fs.vol) (hp : (fs.fileTable fd).fdInode = some p)
    (h : FileInode (fs.vol.inodes p)) : WrittenFile fd fs := by
  have hat : fs.inodeAt fd = p := by
    rw [Fs.inodeAt, hp]
    rfl
  exact ⟨hv, by simp [hp], by rwa [hat]⟩

/-- The indices into `allBlocks` that a write uses: the block written first and those that
are allocated, then one index for each round of the copy loop. -/
def usedIdxs (size count : ℕ) : List ℕ :=
  List.range' (size / 512) ((size + count) / 512 + 1 - size / 512) ++ secIdxs count size count

/-- What the size limit asks of a write, in natural numbers. -/
def ObeysLimit (e : Heap) (fs : Fs) (fd : ℕ) (buf : List UInt8) : Prop :=
  let size := (fs.vol.inodes (fs.inodeAt fd)).size
  if size + buf.length ≤ 71680 then
    wp noStop e (fileWrite fd buf) (fun r fs' => r = buf.length ∧
      (fs'.vol.inodes (fs.inodeAt fd)).size = size + buf.length) fs ∧
    ∀ k ∈ usedIdxs size buf.length, k < 140
  else wp noStop e (fileWrite fd buf) (fun r fs' => r = -1 ∧ fs' = fs) fs

/-- The write ends before the limit and starts in a block on the disk, or it ends behind the
limit and before 2^32. -/
def LimitOk (fs : Fs) (fd count : ℕ) : Prop :=
  let i := fs.vol.inodes (fs.inodeAt fd)
  (i.size + count < 71680 ∧ (0 < count → fs.vol.blockAt i (i.size / 512) < maxLba)) ∨
    (71680 < i.size + count ∧ i.size + count < 2 ^ 32)

theorem MountedVol.setInode (h : MountedVol v) (p : ℕ) (g : Inode → Inode) :
    MountedVol (v.setInode p g) :=
  ⟨h.layout.setInode p g, h.root, h.free⟩

/-- The end of a write: the position is moved and the inode is written to the disk. -/
theorem wp_endWrite {pos : ℕ} {r : ℤ} (hp : (fs.fileTable fd).fdInode = some p)
    (hmounted : MountedVol fs.vol) (hino : (fs.vol.inodes p).ino < 4096)
    (hsize : (fs.vol.inodes p).size < 71680)
    (hblocks : HasBlocks (fs.vol.inodes p) ((fs.vol.inodes p).size / 512)) :
    wp noStop e (do
      let fs ← get
      setFile fd { fs.fileTable fd with fdPos := pos }
      onVol (inodeSync (fs.vol.inodes p))
      return r) (fun r' fs' => r' = r ∧ fs'.vol.inodes p = fs.vol.inodes p ∧ WrittenFile fd fs')
      fs := by
  rw [wp_get_bind, wp_setFile_bind]
  apply wp_onVol_bind
  apply wp_inodeSync_total hmounted.layout hino
  rw [wp_pure]
  refine ⟨rfl, rfl, .of_slot (p := p) ((upToDisk_write fs.vol _ _ _).mounted hmounted) ?_
    ⟨hino, hsize, .inr hblocks⟩⟩
  simpa using hp

/-- A write that ends before the limit grows the file. -/
theorem wp_fileWrite_grows (h : WrittenFile fd fs) (he : ∀ t, e.sysMalloc t = true)
    (hfit : (fs.vol.inodes (fs.inodeAt fd)).size + buf.length < 71680)
    (hfirst : 0 < buf.length → fs.vol.blockAt (fs.vol.inodes (fs.inodeAt fd))
      ((fs.vol.inodes (fs.inodeAt fd)).size / 512) < maxLba)
    (hclear : writeNeeds (fs.vol.inodes (fs.inodeAt fd)) buf.length ≤
      fs.vol.blockBitMap.clearBits) :
    wp noStop e (fileWrite fd buf) (fun r fs' => r = buf.length ∧
      (fs'.vol.inodes (fs.inodeAt fd)).size =
        (fs.vol.inodes (fs.inodeAt fd)).size + buf.length ∧ WrittenFile fd fs') fs := by
  apply wp_fileWrite_ready h.fdInode h.mounted h.inode he hfit hclear
  set p := fs.inodeAt fd with hp
  intro w all hw
  apply wp_onVol_bind
  apply wp_writeChunks_size _ _ _ _ le_rfl
  · intro k hpos hk hk'
    left
    change (w.inodes p).size / 512 ≤ k at hk
    change 512 * k < (w.inodes p).size + buf.length at hk'
    rw [hw.size] at hk hk'
    rcases hk.eq_or_lt with rfl | hk
    · exact hw.first.mpr (hfirst hpos)
    · exact hw.new k hk (by omega)
  intro w' hw'
  have hinode : w'.inodes p = (w.inodes p).setSize ((fs.vol.inodes p).size + buf.length) := by
    rw [hw', ← hw.size]
    simp
  have hmounted : MountedVol w' := hw'.mounted (hw.mounted.setInode _ _)
  have hino : (w'.inodes p).ino < 4096 := by
    rw [hinode]
    change (w.inodes p).ino < 4096
    rw [hw.frame.ino]
    exact h.inode.ino
  have hend : (w'.inodes p).size < 71680 := by
    rw [hinode]
    exact hfit
  have hblocks : HasBlocks (w'.inodes p) ((w'.inodes p).size / 512) := by
    rw [hinode]
    exact ⟨hw.blocks.direct, hw.blocks.table, hw.blocks.below⟩
  have hslot : (((fs.setVol w).setVol w').fileTable fd).fdInode = some p := h.fdInode
  apply wp_mono (wp_endWrite hslot hmounted hino hend hblocks)
  rintro r fs' ⟨rfl, hsame, hwritten⟩
  refine ⟨rfl, ?_, hwritten⟩
  rw [hsame]
  change (w'.inodes p).size = _
  rw [hinode]
  rfl

/-- At the limit itself the assertion fails, unless the write failed before. -/
theorem wp_fileWrite_exact (h : WrittenFile fd fs)
    (hfit : (fs.vol.inodes (fs.inodeAt fd)).size + buf.length = 71680) :
    wp anyStop e (fileWrite fd buf) (fun r _ => r = -1) fs := by
  unfold fileWrite fileWriteWith
  apply wp_slotInode_bind h.fdInode
  rw [wp_get_bind]
  have hmod : ((fs.vol.inodes (fs.inodeAt fd)).size + buf.length) % 2 ^ 32 = 71680 := by
    omega
  simp only [hmod]
  rw [if_neg (by norm_num)]
  apply wp_onVol_bind
  apply wp_ask
  intro t
  apply wp_ite
  · exact fun _ => wp_pure.mpr rfl
  intro _
  apply wp_onVol_bind
  apply wp_ask
  intro t'
  apply wp_ite
  · exact fun _ => wp_pure.mpr rfl
  intro _
  apply wp_onVol_bind
  apply wp_iff.mpr
  refine ⟨fun ok w _ => ?_, fun _ _ => trivial⟩
  apply wp_ite
  · exact fun _ => wp_pure.mpr rfl
  intro _
  rw [wp_assert_bind]
  exact ⟨fun hlt => absurd hlt (by rw [hmod]; norm_num), fun _ => trivial⟩

/-- A write that ends before the block it starts in takes no block. -/
theorem wp_prepareBlocks_back {sync : ℕ → VolM Unit} {Q : Option (ℕ → ℕ) → Volume → Prop}
    (hle : will ≤ has) (hQ : ∀ w all, w.inodes = v.inodes → Q (some all) w) :
    wp anyStop e (prepareBlocks sync p has will) Q v := by
  have hnone : will - has = 0 := by omega
  have hread : ∀ lba base, wp anyStop e (readTable lba base) (fun _ w => w = v) v := by
    intro lba base
    unfold readTable
    rw [wp_ideRead_bind]
    exact ⟨fun _ => wp_pure.mpr rfl, fun _ => trivial⟩
  unfold prepareBlocks
  rw [wp_get_bind, hnone]
  apply wp_ite
  · intro _
    apply wp_ite
    · exact fun _ => wp_assert_bind.mpr ⟨fun _ => wp_pure.mpr (hQ _ _ rfl), fun _ => trivial⟩
    · refine fun _ => wp_assert_bind.mpr ⟨fun _ => ?_, fun _ => trivial⟩
      apply wp_call (hread _ _)
      rintro all w rfl
      exact wp_pure.mpr (hQ _ _ rfl)
  · intro _
    apply wp_ite
    · exact fun _ => wp_assert_bind.mpr ⟨fun _ => wp_pure.mpr (hQ _ _ rfl), fun _ => trivial⟩
    · intro h12
      rw [if_neg (show ¬has < 12 by omega)]
      refine wp_assert_bind.mpr ⟨fun _ => ?_, fun _ => trivial⟩
      apply wp_call (hread _ _)
      rintro all w rfl
      simp only [allocBlocks, wp_pure_bind, wp_ideWrite_bind, wp_pure]
      exact ⟨fun _ => hQ _ _ rfl, fun _ => trivial⟩

theorem wp_inodeSync_inodes (v : Volume) (i : Inode) :
    wp anyStop e (inodeSync i) (fun _ w => w.inodes = v.inodes) v := by
  have h : wp anyStop e (inodeSync i >>= fun _ => pure ()) (fun _ w => w.inodes = v.inodes) v :=
    wp_inodeSync_bind trivial fun _ => wp_pure.mpr rfl
  rwa [bind_pure_unit] at h

/-- Behind 2^32 the sum is small again: if the write returns, the file has grown. -/
theorem wp_fileWrite_wraps (h : WrittenFile fd fs) (hbuf : buf.length < 2 ^ 32)
    (hfit : 2 ^ 32 ≤ (fs.vol.inodes (fs.inodeAt fd)).size + buf.length)
    (he : ∀ t, e.sysMalloc t = true) :
    wp anyStop e (fileWrite fd buf) (fun _ fs' => (fs'.vol.inodes (fs.inodeAt fd)).size =
      (fs.vol.inodes (fs.inodeAt fd)).size + buf.length) fs := by
  set p := fs.inodeAt fd with hp
  have hin : FileInode (fs.vol.inodes p) := h.inode
  have hsize := hin.size
  have h0 : (fs.vol.inodes p).block 0 ≠ 0 := by
    rcases hin.blocks with ⟨hzero, -⟩ | hb
    · omega
    · exact (hb.direct 0 (by norm_num)).mpr (Nat.zero_le _)
  unfold fileWrite fileWriteWith
  apply wp_slotInode_bind h.fdInode
  rw [wp_get_bind]
  simp only [← hp]
  rw [if_neg (by omega)]
  apply wp_onVol_sysMalloc_ok he
  simp only [Bool.not_true, Bool.false_eq_true, if_false]
  apply wp_onVol_sysMalloc_ok he
  simp only [Bool.not_true, Bool.false_eq_true, if_false]
  apply wp_onVol_bind
  unfold allocFirstBlock
  rw [wp_get_bind, if_neg h0, wp_pure]
  simp only [Bool.not_true, Bool.false_eq_true, if_false]
  refine wp_assert_bind.mpr ⟨fun _ => ?_, fun _ => trivial⟩
  apply wp_onVol_bind
  apply wp_prepareBlocks_back (by omega)
  intro w all hw
  apply wp_onVol_bind
  apply wp_writeChunks_size _ _ _ _ le_rfl
  · exact fun _ _ _ _ => .inr fun _ => trivial
  intro w' hw'
  have hinode : (w'.inodes p).size = (fs.vol.inodes p).size + buf.length := by
    rw [hw']
    simp [hw]
  rw [wp_get_bind, wp_setFile_bind]
  apply wp_onVol_bind
  apply wp_mono (wp_inodeSync_inodes _ _)
  intro _ w'' hw''
  rw [wp_pure]
  change (w''.inodes p).size = _
  rw [hw'']
  exact hinode

/-- The first round stops the machine when the block of the next byte is not on the disk. -/
theorem wp_fileWrite_lost (h : WrittenFile fd fs) (he : ∀ t, e.sysMalloc t = true)
    (hfit : (fs.vol.inodes (fs.inodeAt fd)).size + buf.length < 71680) (hpos : 0 < buf.length)
    (hfirst : ¬fs.vol.blockAt (fs.vol.inodes (fs.inodeAt fd))
      ((fs.vol.inodes (fs.inodeAt fd)).size / 512) < maxLba)
    (hclear : writeNeeds (fs.vol.inodes (fs.inodeAt fd)) buf.length ≤
      fs.vol.blockBitMap.clearBits) :
    wp anyStop e (fileWrite fd buf) (fun _ _ => False) fs := by
  apply wp_fileWrite_ready h.fdInode h.mounted h.inode he hfit hclear
  intro w all hw
  have hnil : buf ≠ [] := List.length_pos_iff.mp hpos
  have hlost : ¬all ((w.inodes (fs.inodeAt fd)).size / 512) < maxLba := by
    rw [hw.size, hw.first]
    exact hfirst
  obtain ⟨n, hn⟩ := Nat.exists_eq_succ_of_ne_zero hpos.ne'
  rw [hn]
  apply wp_onVol_bind
  unfold writeChunks
  rw [if_neg hnil, wp_get_bind]
  simp only [if_pos]
  rw [wp_ideRead_bind]
  exact ⟨fun hlt => absurd hlt hlost, fun _ => trivial⟩

theorem usedIdxs_lt {size count : ℕ} (h : size + count < 71680) :
    ∀ k ∈ usedIdxs size count, k < 140 := by
  intro k hk
  rcases List.mem_append.mp hk with hk | hk
  · have := List.mem_range'_1.mp hk
    omega
  · have := secIdxs_bounds _ _ _ k hk
    omega

/-- Anything else that happens between two writes: the volume stays mounted, and the file in
slot `fd` is open with the size and the blocks it had. -/
structure LeavesFile (fd : ℕ) (fs fs' : Fs) : Prop where
  mounted : MountedVol fs'.vol
  slot : (fs'.fileTable fd).fdInode ≠ none
  ino : (fs'.vol.inodes (fs'.inodeAt fd)).ino = (fs.vol.inodes (fs.inodeAt fd)).ino
  size : (fs'.vol.inodes (fs'.inodeAt fd)).size = (fs.vol.inodes (fs.inodeAt fd)).size
  block : ∀ k ≤ 12, (fs'.vol.inodes (fs'.inodeAt fd)).block k =
    (fs.vol.inodes (fs.inodeAt fd)).block k

/-- A write to the file within `LimitOk`, or anything else. -/
inductive WriteStep (fd : ℕ) : Fs → Fs → Prop
  | write {fs fs' : Fs} {e : Heap} {buf : List UInt8} {r : ℤ} (he : ∀ t, e.sysMalloc t = true)
      (hok : LimitOk fs fd buf.length)
      (hclear : (fs.vol.inodes (fs.inodeAt fd)).size + buf.length ≤ 71680 →
        writeNeeds (fs.vol.inodes (fs.inodeAt fd)) buf.length ≤ fs.vol.blockBitMap.clearBits)
      (h : Returns e (fileWrite fd buf) fs r fs') : WriteStep fd fs fs'
  | other {fs fs' : Fs} (h : LeavesFile fd fs fs') : WriteStep fd fs fs'

/-- The file in slot `fd` is open, empty and without a block. -/
structure NewFile (fd : ℕ) (fs : Fs) : Prop where
  mounted : MountedVol fs.vol
  slot : (fs.fileTable fd).fdInode ≠ none
  ino : (fs.vol.inodes (fs.inodeAt fd)).ino < 4096
  size : (fs.vol.inodes (fs.inodeAt fd)).size = 0
  block : ∀ k ≤ 12, (fs.vol.inodes (fs.inodeAt fd)).block k = 0

theorem NewFile.written (h : NewFile fd fs) : WrittenFile fd fs :=
  ⟨h.mounted, h.slot, h.ino, by rw [h.size]; norm_num, .inl ⟨h.size, h.block⟩⟩

theorem FileInode.congr {i i' : Inode} (h : FileInode i) (hino : i'.ino = i.ino)
    (hsize : i'.size = i.size) (hblock : ∀ k ≤ 12, i'.block k = i.block k) : FileInode i' := by
  refine ⟨hino ▸ h.ino, hsize ▸ h.size, h.blocks.imp (fun hz => ⟨hsize ▸ hz.1, fun k hk => ?_⟩)
    fun hb => ⟨fun k hk => ?_, ?_, fun k hk => ?_⟩⟩
  · rw [hblock k hk]
    exact hz.2 k hk
  · rw [hblock k hk.le, hsize]
    exact hb.direct k hk
  · rw [hblock 12 le_rfl, hsize]
    exact hb.table
  · rw [hblock k hk]
    exact hb.below k hk

theorem wp_fileWrite_rejected {i : Inode} (h : WrittenFile fd fs)
    (hi : fs.vol.inodes (fs.inodeAt fd) = i) (hgt : 71680 < i.size + buf.length)
    (hlt : i.size + buf.length < 2 ^ 32) :
    wp noStop e (fileWrite fd buf) (fun r fs' => r = -1 ∧ fs' = fs) fs := by
  unfold fileWrite fileWriteWith
  apply wp_slotInode_bind h.fdInode
  rw [wp_get_bind, hi]
  simp only [Nat.mod_eq_of_lt hlt]
  rw [if_pos (by omega), wp_pure]
  exact ⟨rfl, rfl⟩

theorem WrittenFile.step {fs fs' : Fs} (h : WrittenFile fd fs) (hstep : WriteStep fd fs fs') :
    WrittenFile fd fs' := by
  cases hstep with
  | write he hok hclear hret =>
    rcases hok with ⟨hfit, hfirst⟩ | ⟨hgt, hlt⟩
    · exact (hret.of_wp (wp_fileWrite_grows h he hfit hfirst (hclear hfit.le))).2.2
    · obtain ⟨-, rfl⟩ := hret.of_wp (wp_fileWrite_rejected h rfl hgt hlt)
      exact h
  | other ho => exact ⟨ho.mounted, ho.slot, h.inode.congr ho.ino ho.size ho.block⟩

theorem sampleFs_mounted : MountedVol sampleFs.vol := by
  refine ⟨sampleFs_empty.layout, sampleFs_empty.root, fun n hn _ => ?_⟩
  have hn' : n < 4096 := hn
  change 675 + n < maxLba
  unfold maxLba
  omega

theorem sampleFs_newFile : NewFile 3 sampleFs :=
  ⟨sampleFs_mounted, by decide, by decide, rfl, fun _ _ => rfl⟩

theorem sampleFs_clear : 142 ≤ sampleFs.vol.blockBitMap.clearBits := by
  have hsub : Finset.Icc 1 142 ⊆ (Finset.range sampleFs.vol.blockBitMap.bits).filter
      fun n => sampleFs.vol.blockBitMap.bit n = false := by decide +kernel
  exact Finset.card_le_card hsub

end Law

end Gogoos
