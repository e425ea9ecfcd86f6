import Gogoos.Fs.Blocks
import Gogoos.Structure.Ownership

/-!
# The blocks that `fileWrite` allocates

`fileWrite` is taken over the routine that stores a sector of the block bitmap, under the
assumption that this routine writes bitmap sectors only. Then the allocation loops take
fresh blocks, one for each index, and change nothing else.
-/

namespace Gogoos

open Program

variable {u v w : Volume} {e : Heap} {p fd k cnt : ℕ} {sync : ℕ → VolM Unit}
  {all all' : ℕ → ℕ}

/-- Only sectors of the on-disk block bitmap are written. -/
structure StoresBitMap (v w : Volume) : Prop where
  same : w = { v with disk := w.disk, idxLog := w.idxLog }
  disk : ∀ s, s < v.superBlock.blockBitMapLbaStart ∨
    v.superBlock.blockBitMapLbaStart + v.superBlock.blockBitMapSecCnt ≤ s → w.disk s = v.disk s

/-- The assumption on the routine that stores the bitmap sector of a block, for the blocks
that are free in `u`. -/
def SyncInside (sync : ℕ → VolM Unit) (u : Volume) : Prop :=
  ∀ e v n, Layout v → v.blockBitMap.bits = u.blockBitMap.bits → n < u.blockBitMap.bits →
    u.blockBitMap.bit n = false → wp noStop e (sync n) (fun _ w => StoresBitMap v w) v

/-- `bitMapSync` meets the assumption for the bits of the first 512. -/
theorem bitMapSync_inside
    (hfree : ∀ n < u.blockBitMap.bits, u.blockBitMap.bit n = false → n < 512) :
    SyncInside (fun n => bitMapSync n .blockBitmap) u := by
  intro e v n hl hbits hn hbit
  have hlt := hfree n hn hbit
  rw [← hbits] at hn
  have hoff : syncSecOffset n = 0 := by
    unfold syncSecOffset
    omega
  have hstart : v.bitMapLbaStart .blockBitmap = v.superBlock.blockBitMapLbaStart := rfl
  have hdata := hl.data_lt
  have h1 := hl.inodeBitMap_start
  have h2 := hl.inodeTable_start
  have h3 := hl.data_start
  have h4 := hl.block_length
  rw [wp_bitMapSync, hoff, hstart]
  refine ⟨fun _ => ⟨rfl, fun s hs => ?_⟩, fun hge => absurd ?_ hge⟩
  · apply sync_disk
    unfold Volume.syncLba
    rw [hoff]
    unfold BitMap.bits at hn
    omega
  · omega

/-- What an allocation for the inode at `p` leaves alone. -/
structure WriteFrame (p : ℕ) (v w : Volume) : Prop where
  superBlock : w.superBlock = v.superBlock
  lbaStart : w.lbaStart = v.lbaStart
  secCnt : w.secCnt = v.secCnt
  blockBitMap : w.blockBitMap.length = v.blockBitMap.length
  inodeBitMap : w.inodeBitMap = v.inodeBitMap
  inodes : ∀ q, q ≠ p → w.inodes q = v.inodes q
  ino : (w.inodes p).ino = (v.inodes p).ino

namespace WriteFrame

theorem refl (p : ℕ) (v : Volume) : WriteFrame p v v :=
  ⟨rfl, rfl, rfl, rfl, rfl, fun _ _ => rfl, rfl⟩

theorem trans (h : WriteFrame p u v) (h' : WriteFrame p v w) : WriteFrame p u w :=
  ⟨h'.superBlock.trans h.superBlock, h'.lbaStart.trans h.lbaStart, h'.secCnt.trans h.secCnt,
    h'.blockBitMap.trans h.blockBitMap, h'.inodeBitMap.trans h.inodeBitMap,
    fun q hq => (h'.inodes q hq).trans (h.inodes q hq), h'.ino.trans h.ino⟩

theorem layout (h : WriteFrame p v w) (hl : Layout v) : Layout w :=
  hl.congr h.superBlock h.lbaStart h.secCnt h.blockBitMap (by rw [h.inodeBitMap])

theorem bits (h : WriteFrame p v w) : w.blockBitMap.bits = v.blockBitMap.bits := by
  simp [BitMap.bits, h.blockBitMap]

end WriteFrame

/-- Blocks for the indices from `k` on, `cnt` of them, were allocated. -/
structure Alloc (v w : Volume) (p fd k cnt : ℕ) (all all' : ℕ → ℕ) : Prop where
  frame : WriteFrame p v w
  size : (w.inodes p).size = (v.inodes p).size
  disk : ∀ s, v.superBlock.dataLbaStart ≤ s → w.disk s = v.disk s
  mono : ∀ n, w.blockBitMap.bit n = false → v.blockBitMap.bit n = false
  clear : w.blockBitMap.clearBits + cnt = v.blockBitMap.clearBits
  block : ∀ j ≤ 12, (w.inodes p).block j =
    if (k ≤ j ∧ j < k + cnt) ∧ j < 12 then all' j else (v.inodes p).block j
  old : ∀ j, ¬(k ≤ j ∧ j < k + cnt) → all' j = all j
  new : ∀ j, k ≤ j → j < k + cnt → ∃ n < v.blockBitMap.bits,
    all' j = v.superBlock.dataLbaStart + n ∧ v.blockBitMap.bit n = false
  owns : ∀ R : ℕ × ℕ → ℕ, Owns v.superBlock.dataLbaStart v.blockBitMap.bits v.blockBitMap.bit R →
    Owns v.superBlock.dataLbaStart v.blockBitMap.bits w.blockBitMap.bit
      (fun y => if y.1 = fd ∧ k ≤ y.2 ∧ y.2 < k + cnt then all' y.2 else R y)

theorem Alloc.refl (v : Volume) (p fd k : ℕ) (all : ℕ → ℕ) : Alloc v v p fd k 0 all all := by
  have hnone : ∀ j, ¬(k ≤ j ∧ j < k + 0) := by omega
  refine ⟨.refl p v, rfl, fun _ _ => rfl, fun _ hn => hn, rfl, fun j _ => ?_, fun _ _ => rfl,
    fun j hj hj' => absurd ⟨hj, hj'⟩ (hnone j), fun R hR => ?_⟩
  · rw [if_neg fun h => hnone j h.1]
  · have hfun : (fun y : ℕ × ℕ => if y.1 = fd ∧ k ≤ y.2 ∧ y.2 < k + 0 then all y.2 else R y) = R :=
      funext fun y => if_neg fun hy => hnone y.2 hy.2
    rwa [hfun]

theorem Alloc.cons {v₁ : Volume} {all₁ : ℕ → ℕ} (h : Alloc v v₁ p fd k 1 all all₁)
    (h' : Alloc v₁ w p fd (k + 1) cnt all₁ all') : Alloc v w p fd k (cnt + 1) all all' := by
  have hk : all' k = all₁ k := h'.old k (by omega)
  have hsb := h.frame.superBlock
  have hbits := h.frame.bits
  refine ⟨h.frame.trans h'.frame, h'.size.trans h.size, fun s hs => ?_,
    fun n hn => h.mono n (h'.mono n hn), ?_, fun j hj => ?_, fun j hj => ?_, fun j hj hj' => ?_,
    fun R hR => ?_⟩
  · exact (h'.disk s (by rwa [hsb])).trans (h.disk s hs)
  · have h1 := h.clear
    have h2 := h'.clear
    omega
  · rw [h'.block j hj, h.block j hj]
    by_cases hjk : j = k
    · subst hjk
      rw [if_neg (by omega), ← hk]
      by_cases hj12 : j < 12
      · rw [if_pos ⟨⟨by omega, by omega⟩, hj12⟩, if_pos ⟨⟨by omega, by omega⟩, hj12⟩]
      · rw [if_neg (by omega), if_neg (by omega)]
    · by_cases hin : (k + 1 ≤ j ∧ j < k + 1 + cnt) ∧ j < 12
      · rw [if_pos hin, if_pos ⟨⟨by omega, by omega⟩, hin.2⟩]
      · rw [if_neg hin, if_neg (by omega), if_neg (by omega)]
  · rw [h'.old j (by omega), h.old j (by omega)]
  · by_cases hjk : j = k
    · subst hjk
      rw [hk]
      exact h.new j le_rfl (by omega)
    · obtain ⟨n, hn, hall, hbit⟩ := h'.new j (by omega) (by omega)
      rw [hbits] at hn
      rw [hsb] at hall
      exact ⟨n, hn, hall, h.mono n hbit⟩
  · have h1 := h.owns R hR
    have h2 := h'.owns _ (by rwa [hsb, hbits])
    rw [hsb, hbits] at h2
    convert h2 using 1
    funext y
    by_cases hy : y.1 = fd ∧ k ≤ y.2 ∧ y.2 < k + (cnt + 1)
    · by_cases hyk : y.2 = k
      · rw [if_pos hy, if_neg (by omega), if_pos ⟨hy.1, by omega, by omega⟩, hyk, hk]
      · rw [if_pos hy, if_pos ⟨hy.1, by omega, by omega⟩]
    · rw [if_neg hy, if_neg (by omega), if_neg (by omega)]

/-- One block is allocated; below index 12 it goes into the inode. -/
def Volume.takeFor (v : Volume) (p k n : ℕ) : Volume :=
  if k < 12 then
    (v.setBlockBit n true).setInode p (·.setBlock k (v.superBlock.dataLbaStart + n))
  else v.setBlockBit n true

theorem alloc_one {n : ℕ} (hl : Layout v) (hn : bitMapScan v.blockBitMap 1 = some n)
    (hw : StoresBitMap (v.takeFor p k n) w) : Alloc v w p fd k 1 all
      (fun j => if j = k then v.superBlock.dataLbaStart + n else all j) := by
  obtain ⟨hlt, hfree, -⟩ := bitMapScan_one_eq_some hn
  have hstart := hl.inodeBitMap_start
  have htable := hl.inodeTable_start
  have hdata := hl.data_start
  have hsb : w.superBlock = v.superBlock := by
    rw [hw.same]
    unfold Volume.takeFor
    split_ifs <;> rfl
  have hbm : w.blockBitMap = bitMapSet v.blockBitMap n true := by
    rw [hw.same]
    unfold Volume.takeFor
    split_ifs <;> rfl
  have hinodes : ∀ q, w.inodes q = if q = p ∧ k < 12 then
      (v.inodes q).setBlock k (v.superBlock.dataLbaStart + n) else v.inodes q := by
    intro q
    rw [hw.same]
    unfold Volume.takeFor
    split_ifs with h12 hq hq
    · simp [hq.1]
    · have hqp : q ≠ p := fun h => hq ⟨h, h12⟩
      simp [hqp]
    · exact absurd hq.2 h12
    · rfl
  have hdisk : ∀ s, v.superBlock.dataLbaStart ≤ s → w.disk s = v.disk s := by
    intro s hs
    have hsame : (v.takeFor p k n).disk = v.disk := by
      unfold Volume.takeFor
      split_ifs <;> rfl
    have hsup : (v.takeFor p k n).superBlock = v.superBlock := by
      unfold Volume.takeFor
      split_ifs <;> rfl
    rw [hw.disk s (by rw [hsup]; omega), hsame]
  have hframe : WriteFrame p v w := by
    refine ⟨hsb, ?_, ?_, by rw [hbm]; rfl, ?_, fun q hq => ?_, ?_⟩
    · rw [hw.same]
      unfold Volume.takeFor
      split_ifs <;> rfl
    · rw [hw.same]
      unfold Volume.takeFor
      split_ifs <;> rfl
    · rw [hw.same]
      unfold Volume.takeFor
      split_ifs <;> rfl
    · rw [hinodes q, if_neg fun h => hq h.1]
    · rw [hinodes p]
      split_ifs <;> rfl
  refine ⟨hframe, ?_, hdisk, fun m hm => ?_, ?_, fun j _ => ?_, fun j hj => ?_,
    fun j hj hj' => ?_, fun R hR => ?_⟩
  · rw [hinodes p]
    split_ifs <;> rfl
  · rw [hbm, bitMapSet_bit] at hm
    split_ifs at hm with hmn
    exact hm
  · rw [hbm]
    exact clearBits_set hlt hfree
  · rw [hinodes p]
    by_cases hjk : j = k
    · subst hjk
      by_cases hj12 : j < 12
      · simp [hj12]
      · simp [hj12]
    · rw [if_neg (show ¬((k ≤ j ∧ j < k + 1) ∧ j < 12) by omega)]
      split_ifs <;> simp [hjk]
  · exact if_neg (by omega)
  · exact ⟨n, hlt, if_pos (by omega), hfree⟩
  · have hown := hR.alloc hl.data_pos hlt hfree (bitMapSet_bit_self _ _ _)
      (fun m hm => bitMapSet_bit_ne _ _ hm) (fd, k)
    rw [← hbm] at hown
    convert hown using 1
    funext y
    rw [Function.update_apply]
    by_cases hy : y = (fd, k)
    · simp [hy]
    · have hy' : ¬(y.1 = fd ∧ k ≤ y.2 ∧ y.2 < k + 1) := by
        rintro ⟨h1, h2, h3⟩
        exact hy (Prod.ext h1 (by omega))
      rw [if_neg hy', if_neg hy]

/-- The volume `v` came from `u` by taking blocks; block 0 belongs to the root directory. -/
structure Within (u v : Volume) : Prop where
  layout : Layout v
  superBlock : v.superBlock = u.superBlock
  bits : v.blockBitMap.bits = u.blockBitMap.bits
  mono : ∀ n, v.blockBitMap.bit n = false → u.blockBitMap.bit n = false
  root : v.blockBitMap.bit 0 = true

theorem Alloc.within (h : Alloc v w p fd k cnt all all') (hu : Within u v) : Within u w := by
  refine ⟨h.frame.layout hu.layout, h.frame.superBlock.trans hu.superBlock,
    h.frame.bits.trans hu.bits, fun n hn => hu.mono n (h.mono n hn), ?_⟩
  by_contra h0
  have := h.mono 0 (by simpa using h0)
  simp [hu.root] at this

theorem Within.fresh_ne_zero {n : ℕ} (hu : Within u v) (hn : bitMapScan v.blockBitMap 1 = some n) :
    n ≠ 0 := by
  rintro rfl
  have hfree := (bitMapScan_one_eq_some hn).2.1
  simp [hu.root] at hfree

theorem takeFor_idx {n : ℕ} (hl : Layout v) (hn : bitMapScan v.blockBitMap 1 = some n) :
    (v.takeFor p k n).superBlock.lbaToBitMapIdx (v.superBlock.dataLbaStart + n) = n := by
  have hsb : (v.takeFor p k n).superBlock = v.superBlock := by
    unfold Volume.takeFor
    split_ifs <;> rfl
  rw [hsb]
  exact hl.lbaToBitMapIdx (bitMapScan_one_eq_some hn).1

theorem wp_syncTaken {α : Type} {f : Unit → VolM α} {Q : α → Volume → Prop} {n : ℕ}
    (hsync : SyncInside sync u) (hu : Within u v) (hn : bitMapScan v.blockBitMap 1 = some n)
    (hQ : ∀ w, StoresBitMap (v.takeFor p k n) w → wp noStop e (f ()) Q w) :
    wp noStop e (sync n >>= f) Q (v.takeFor p k n) := by
  obtain ⟨hlt, hfree, -⟩ := bitMapScan_one_eq_some hn
  have hlayout : Layout (v.takeFor p k n) := by
    unfold Volume.takeFor
    split_ifs
    · exact (hu.layout.setBlockBit n true).setInode _ _
    · exact hu.layout.setBlockBit n true
  have hbits : (v.takeFor p k n).blockBitMap.bits = u.blockBitMap.bits := by
    rw [← hu.bits]
    unfold Volume.takeFor
    split_ifs <;> rfl
  exact wp_call (hsync e _ n hlayout hbits (hu.bits ▸ hlt) (hu.mono n hfree)) fun _ w hw => hQ w hw

variable (fd) in
/-- Induction on the number of blocks to allocate. -/
theorem wp_allocBlocks {check : Bool} {Q : Option (ℕ → ℕ) → Volume → Prop}
    (hsync : SyncInside sync u) : ∀ cnt k all v, Within u v → cnt ≤ v.blockBitMap.clearBits →
      (∀ j, k ≤ j → j < k + cnt → j < 12 → (v.inodes p).block j = 0) →
      (∀ w all', Alloc v w p fd k cnt all all' → Q (some all') w) →
      wp noStop e (allocBlocks sync p check cnt k all) Q v := by
  intro cnt
  induction cnt with
  | zero => exact fun k all v _ _ _ hQ => wp_pure.mpr (hQ v all (.refl v p fd k all))
  | succ cnt ih =>
    intro k all v hu hclear hzero hQ
    unfold allocBlocks
    have hpos : 0 < v.blockBitMap.clearBits := by omega
    apply wp_blockBitMapAlloc_free_bind hpos
    intro n hn
    have hrest : wp noStop e (do
        let blockBitMapIdx ← blockLbaToBitMapIdx (v.superBlock.dataLbaStart + n)
        assert (check → blockBitMapIdx ≠ 0)
        sync blockBitMapIdx
        allocBlocks sync p check cnt (k + 1)
          (fun j => if j = k then v.superBlock.dataLbaStart + n else all j)) Q
        (v.takeFor p k n) := by
      rw [wp_blockLbaToBitMapIdx_bind, takeFor_idx hu.layout hn,
        wp_assert_pos fun _ => hu.fresh_ne_zero hn]
      apply wp_syncTaken hsync hu hn
      intro w hw
      have hone : Alloc v w p fd k 1 all _ := alloc_one hu.layout hn hw
      have hc := hone.clear
      apply ih (k + 1) _ w (hone.within hu) (by omega)
      · intro j hj hj' hj12
        rw [hone.block j (by omega), if_neg (by omega)]
        exact hzero j (by omega) (by omega) hj12
      · exact fun w' all' h' => hQ w' all' (hone.cons h')
    by_cases hk : k < 12
    · have h0 : ((v.setBlockBit n true).inodes p).block k = 0 := hzero k le_rfl (by omega) hk
      simp only [if_pos hk, wp_get_bind]
      rw [wp_assert_pos h0]
      unfold setBlock
      rw [wp_modifyInode_bind]
      simpa only [Volume.takeFor, if_pos hk] using hrest
    · simp only [if_neg hk]
      simpa only [Volume.takeFor, if_neg hk] using hrest

variable (fd) in
/-- The first block of an empty file. -/
theorem wp_allocFirstBlock {Q : Bool → Volume → Prop} (hsync : SyncInside sync u)
    (hu : Within u v) (hclear : (v.inodes p).block 0 = 0 → 1 ≤ v.blockBitMap.clearBits)
    (hthere : (v.inodes p).block 0 ≠ 0 → Q true v)
    (hQ : (v.inodes p).block 0 = 0 → ∀ w all', Alloc v w p fd 0 1 (fun _ => 0) all' → Q true w) :
    wp noStop e (allocFirstBlock sync p) Q v := by
  unfold allocFirstBlock
  rw [wp_get_bind]
  apply wp_ite
  · intro h0
    apply wp_blockBitMapAlloc_free_bind (hclear h0)
    intro n hn
    have hrest : wp noStop e (do
        let blockBitMapIdx ← blockLbaToBitMapIdx (v.superBlock.dataLbaStart + n)
        assert (blockBitMapIdx ≠ 0)
        sync blockBitMapIdx
        return true) Q (v.takeFor p 0 n) := by
      rw [wp_blockLbaToBitMapIdx_bind, takeFor_idx hu.layout hn,
        wp_assert_pos (hu.fresh_ne_zero hn)]
      apply wp_syncTaken hsync hu hn
      exact fun w hw => wp_pure.mpr (hQ h0 w _ (alloc_one hu.layout hn hw))
    unfold setBlock
    rw [wp_modifyInode_bind]
    simpa only [Volume.takeFor, if_pos (show 0 < 12 by norm_num)] using hrest
  · exact fun h0 => wp_pure.mpr (hthere h0)

end Gogoos
