import Gogoos.Fs.Codec

/-!
# Rules for the volume primitives

One rule for each primitive of the volume, in the form of its weakest precondition. The
state after a primitive is always a named transformer of the state before, so the facts
about a run are facts about compositions of these transformers.
-/

namespace Gogoos

open Program

variable {stop : Volume → Prop} {e : Heap} {α : Type} {Q : α → Volume → Prop} {v w : Volume}

/-- The volume after `bitMapSync`. -/
def Volume.sync (v : Volume) (bitIdx : ℕ) (btype : BitMapType) : Volume :=
  (v.logIdx btype bitIdx).write (v.bitMapLbaStart btype + syncSecOffset bitIdx)
    (fun i => (v.bitMap btype).startAddr (syncSecOffset bitIdx * 512 + i)) 1

section Projections

variable (bitIdx : ℕ) (btype : BitMapType)

@[simp] theorem sync_superBlock : (v.sync bitIdx btype).superBlock = v.superBlock := rfl
@[simp] theorem sync_lbaStart : (v.sync bitIdx btype).lbaStart = v.lbaStart := rfl
@[simp] theorem sync_secCnt : (v.sync bitIdx btype).secCnt = v.secCnt := rfl
@[simp] theorem sync_blockBitMap : (v.sync bitIdx btype).blockBitMap = v.blockBitMap := rfl
@[simp] theorem sync_inodeBitMap : (v.sync bitIdx btype).inodeBitMap = v.inodeBitMap := rfl
@[simp] theorem sync_inodes : (v.sync bitIdx btype).inodes = v.inodes := rfl
@[simp] theorem sync_nextInode : (v.sync bitIdx btype).nextInode = v.nextInode := rfl
@[simp] theorem sync_openInodes : (v.sync bitIdx btype).openInodes = v.openInodes := rfl
@[simp] theorem sync_rootInode : (v.sync bitIdx btype).rootInode = v.rootInode := rfl
@[simp] theorem sync_idxLog :
    (v.sync bitIdx btype).idxLog = (btype, bitIdx) :: v.idxLog := rfl

theorem sync_disk_ne {l : ℕ} (h : l ≠ v.bitMapLbaStart btype + syncSecOffset bitIdx) :
    (v.sync bitIdx btype).disk l = v.disk l := write_disk_ne _ _ _ h

end Projections

section Rules

theorem wp_sysMalloc_bind {f : Bool → VolM α} (h : ∀ ok, wp stop e (f ok) Q v) :
    wp stop e (sysMalloc >>= f) Q v := wp_ask_bind fun _ => h _

theorem wp_sysMallocUnchecked_bind {f : Unit → VolM α} (hstop : stop v)
    (h : wp stop e (f ()) Q v) : wp stop e (sysMallocUnchecked >>= f) Q v := by
  unfold sysMallocUnchecked
  rw [wp_bind_assoc]
  apply wp_sysMalloc_bind
  intro ok
  rw [wp_assert_bind]
  exact ⟨fun _ => h, fun _ => hstop⟩

theorem wp_ideRead_bind {lba : ℕ} {f : (ℕ → UInt8) → VolM α} :
    wp stop e (ideRead lba 1 >>= f) Q v ↔
      (lba < maxLba → wp stop e (f (v.sector lba)) Q v) ∧ (¬lba < maxLba → stop v) := by
  unfold ideRead
  simp only [wp_bind_assoc, wp_assert_bind]
  by_cases h : lba < maxLba
  · simp [h]
    rfl
  · simp [h]

/-- The same for any number of sectors, where the range checks may fail. -/
theorem wp_ideRead_of {lba secCnt : ℕ} {f : (ℕ → UInt8) → VolM α} (hstop : stop v)
    (h : wp stop e (f (v.sector lba)) Q v) : wp stop e (ideRead lba secCnt >>= f) Q v := by
  unfold ideRead
  simp only [wp_bind_assoc, wp_assert_bind, wp_get_bind, wp_pure_bind]
  exact ⟨fun _ => ⟨fun _ => h, fun _ => hstop⟩, fun _ => hstop⟩

theorem wp_ideWrite_of {lba secCnt : ℕ} {buf : ℕ → UInt8} {f : Unit → VolM α} (hstop : stop v)
    (h : wp stop e (f ()) Q (v.write lba buf secCnt)) :
    wp stop e (ideWrite lba buf secCnt >>= f) Q v := by
  unfold ideWrite
  simp only [wp_bind_assoc, wp_assert_bind, wp_modify_bind]
  exact ⟨fun _ => ⟨fun _ => h, fun _ => hstop⟩, fun _ => hstop⟩

/-- A transfer of up to 256 sectors at an address on the disk goes through. -/
theorem wp_ideRead_total {lba n : ℕ} {f : (ℕ → UInt8) → VolM α} (hlba : lba < maxLba)
    (hn : 0 < n) (hn' : n ≤ 256) (h : wp stop e (f (v.sector lba)) Q v) :
    wp stop e (ideRead lba n >>= f) Q v := by
  unfold ideRead
  rw [wp_bind_assoc, wp_assert_pos ⟨hlba, hn⟩, wp_bind_assoc, wp_assert_pos (by omega),
    wp_bind_assoc, wp_get_bind, wp_pure_bind]
  exact h

theorem wp_ideWrite_total {lba n : ℕ} {buf : ℕ → UInt8} {Q : Unit → Volume → Prop}
    (hlba : lba < maxLba) (hn : 0 < n) (hn' : n ≤ 256) (h : Q () (v.write lba buf n)) :
    wp stop e (ideWrite lba buf n) Q v := by
  unfold ideWrite
  rw [wp_assert_pos ⟨hlba, hn⟩, wp_assert_pos (by omega), wp_modify]
  exact h

theorem wp_ideWrite {lba : ℕ} {buf : ℕ → UInt8} {Q : Unit → Volume → Prop} :
    wp stop e (ideWrite lba buf 1) Q v ↔
      (lba < maxLba → Q () (v.write lba buf 1)) ∧ (¬lba < maxLba → stop v) := by
  unfold ideWrite
  simp only [wp_assert_bind]
  by_cases h : lba < maxLba <;> simp [h]

theorem wp_ideWrite_bind {lba : ℕ} {buf : ℕ → UInt8} {f : Unit → VolM α} :
    wp stop e (ideWrite lba buf 1 >>= f) Q v ↔
      (lba < maxLba → wp stop e (f ()) Q (v.write lba buf 1)) ∧ (¬lba < maxLba → stop v) := by
  unfold ideWrite
  simp only [wp_bind_assoc, wp_assert_bind]
  by_cases h : lba < maxLba <;> simp [h]

@[simp] theorem wp_setBlockBit {i : ℕ} {b : Bool} {Q : Unit → Volume → Prop} :
    wp stop e (setBlockBit i b) Q v ↔ Q () (v.setBlockBit i b) := wp_modify

@[simp] theorem wp_setBlockBit_bind {i : ℕ} {b : Bool} {f : Unit → VolM α} :
    wp stop e (setBlockBit i b >>= f) Q v ↔ wp stop e (f ()) Q (v.setBlockBit i b) := Iff.rfl

@[simp] theorem wp_setInodeBit {i : ℕ} {b : Bool} {Q : Unit → Volume → Prop} :
    wp stop e (setInodeBit i b) Q v ↔ Q () (v.setInodeBit i b) := wp_modify

@[simp] theorem wp_setInodeBit_bind {i : ℕ} {b : Bool} {f : Unit → VolM α} :
    wp stop e (setInodeBit i b >>= f) Q v ↔ wp stop e (f ()) Q (v.setInodeBit i b) := Iff.rfl

@[simp] theorem wp_modifyInode {p : ℕ} {g : Inode → Inode} {Q : Unit → Volume → Prop} :
    wp stop e (modifyInode p g) Q v ↔ Q () (v.setInode p g) := wp_modify

@[simp] theorem wp_modifyInode_bind {p : ℕ} {g : Inode → Inode} {f : Unit → VolM α} :
    wp stop e (modifyInode p g >>= f) Q v ↔ wp stop e (f ()) Q (v.setInode p g) := Iff.rfl

@[simp] theorem wp_blockLbaToBitMapIdx_bind {lba : ℕ} {f : ℕ → VolM α} :
    wp stop e (blockLbaToBitMapIdx lba >>= f) Q v ↔
      wp stop e (f (v.superBlock.lbaToBitMapIdx lba)) Q v := by
  unfold blockLbaToBitMapIdx
  rw [wp_bind_assoc, wp_get_bind, wp_pure_bind]

theorem wp_bitMapSync {i : ℕ} {t : BitMapType} {Q : Unit → Volume → Prop} :
    wp stop e (bitMapSync i t) Q v ↔
      (v.bitMapLbaStart t + syncSecOffset i < maxLba → Q () (v.sync i t)) ∧
        (¬v.bitMapLbaStart t + syncSecOffset i < maxLba → stop (v.logIdx t i)) := by
  unfold bitMapSync
  simp only [wp_modify_bind, wp_get_bind]
  cases t <;> exact wp_ideWrite

theorem wp_bitMapSync_bind {i : ℕ} {t : BitMapType} {f : Unit → VolM α} :
    wp stop e (bitMapSync i t >>= f) Q v ↔
      (v.bitMapLbaStart t + syncSecOffset i < maxLba → wp stop e (f ()) Q (v.sync i t)) ∧
        (¬v.bitMapLbaStart t + syncSecOffset i < maxLba → stop (v.logIdx t i)) := by
  unfold bitMapSync
  simp only [wp_bind_assoc, wp_modify_bind, wp_get_bind]
  cases t <;> exact wp_ideWrite_bind

/-- Allocation takes the least clear bit, or fails without a trace when there is none. -/
theorem wp_blockBitMapAlloc_bind {f : Option ℕ → VolM α}
    (hnone : bitMapScan v.blockBitMap 1 = none → wp stop e (f none) Q v)
    (hsome : ∀ i, bitMapScan v.blockBitMap 1 = some i →
      wp stop e (f (some (v.superBlock.dataLbaStart + i))) Q (v.setBlockBit i true)) :
    wp stop e (blockBitMapAlloc >>= f) Q v := by
  unfold blockBitMapAlloc
  simp only [wp_bind_assoc, wp_get_bind]
  cases h : bitMapScan v.blockBitMap 1 with
  | none => exact hnone h
  | some i => exact hsome i h

/-- A free block is found. -/
theorem wp_blockBitMapAlloc_free_bind {f : Option ℕ → VolM α} (hclear : 0 < v.blockBitMap.clearBits)
    (hsome : ∀ i, bitMapScan v.blockBitMap 1 = some i →
      wp stop e (f (some (v.superBlock.dataLbaStart + i))) Q (v.setBlockBit i true)) :
    wp stop e (blockBitMapAlloc >>= f) Q v := by
  apply wp_blockBitMapAlloc_bind _ hsome
  intro hnone
  obtain ⟨i, hi⟩ := exists_scan_of_clearBits v.blockBitMap hclear
  rw [hnone] at hi
  cases hi

theorem wp_inodeBitMapAlloc_bind {f : Option ℕ → VolM α}
    (hnone : bitMapScan v.inodeBitMap 1 = none → wp stop e (f none) Q v)
    (hsome : ∀ i, bitMapScan v.inodeBitMap 1 = some i →
      wp stop e (f (some i)) Q (v.setInodeBit i true)) :
    wp stop e (inodeBitMapAlloc >>= f) Q v := by
  unfold inodeBitMapAlloc
  simp only [wp_bind_assoc, wp_get_bind]
  cases h : bitMapScan v.inodeBitMap 1 with
  | none => exact hnone h
  | some i => exact hsome i h

end Rules

section FileRules

variable {stop : Fs → Prop} {Q : α → Fs → Prop} {fs : Fs} {β : Type}

/-- A program on the volume runs in the volume of the larger state. -/
theorem wp_onVol_bind {m : VolM β} {f : β → FsM α}
    (h : wp (fun x => stop (fs.setVol x)) e m (fun a x => wp stop e (f a) Q (fs.setVol x)) fs.vol) :
    wp stop e (onVol m >>= f) Q fs :=
  wp_bind (wp_zoom h)

theorem wp_onVol {m : VolM α}
    (h : wp (fun x => stop (fs.setVol x)) e m (fun a x => Q a (fs.setVol x)) fs.vol) :
    wp stop e (onVol m) Q fs := wp_zoom h

theorem wp_onVol_sysMalloc_ok {f : Bool → FsM α} (he : ∀ t, e.sysMalloc t = true)
    (h : wp stop e (f true) Q fs) : wp stop e (onVol sysMalloc >>= f) Q fs := by
  apply wp_onVol_bind
  apply wp_ask
  intro t
  rw [he t]
  exact h

@[simp] theorem wp_setFile_bind {i : ℕ} {x : File} {f : Unit → FsM α} :
    wp stop e (setFile i x >>= f) Q fs ↔ wp stop e (f ()) Q (fs.setFile i x) := Iff.rfl

@[simp] theorem wp_setFile {i : ℕ} {x : File} {Q : Unit → Fs → Prop} :
    wp stop e (setFile i x) Q fs ↔ Q () (fs.setFile i x) := wp_modify

@[simp] theorem setFile_self (fs : Fs) (i : ℕ) : fs.setFile i (fs.fileTable i) = fs := by
  have htable : (fun j => if j = i then fs.fileTable i else fs.fileTable j) = fs.fileTable := by
    funext j
    split_ifs with hj
    · rw [hj]
    · rfl
  unfold Fs.setFile
  rw [htable]

theorem wp_slotInode_bind {i p : ℕ} {f : ℕ → FsM α} (hp : (fs.fileTable i).fdInode = some p)
    (h : wp stop e (f p) Q fs) : wp stop e (slotInode i >>= f) Q fs := by
  unfold slotInode
  rw [wp_bind_assoc, wp_get_bind, hp]
  exact h

end FileRules

section Blocks

/-- Block `k` of an inode: direct for `k < 12`, else from the indirect table. -/
def Volume.blockAt (v : Volume) (i : Inode) (k : ℕ) : ℕ :=
  if k < 12 then i.block k
  else if i.block 12 ≠ 0 ∧ k < 140 then getWord (v.disk (i.block 12)) (4 * (k - 12))
  else 0

theorem blockAt_direct (v : Volume) (i : Inode) {k : ℕ} (hk : k < 12) :
    v.blockAt i k = i.block k := by simp [Volume.blockAt, hk]

theorem blockAt_of_le (v : Volume) (i : Inode) {k : ℕ} (hk : 140 ≤ k) : v.blockAt i k = 0 := by
  have h1 : ¬k < 12 := by omega
  have h2 : ¬k < 140 := by omega
  simp [Volume.blockAt, h1, h2]

theorem blockAt_noTable (v : Volume) {i : Inode} (h : i.block 12 = 0) {k : ℕ} (hk : 12 ≤ k) :
    v.blockAt i k = 0 := by simp [Volume.blockAt, h, not_lt.mpr hk]

/-- `loadAllBlocks` computes `blockAt`. -/
theorem wp_loadAllBlocks_bind {i : Inode} {f : (ℕ → ℕ) → VolM α} :
    wp stop e (loadAllBlocks i >>= f) Q v ↔
      (i.block 12 < maxLba ∨ i.block 12 = 0 → wp stop e (f (v.blockAt i)) Q v) ∧
        (¬(i.block 12 < maxLba ∨ i.block 12 = 0) → stop v) := by
  unfold loadAllBlocks
  by_cases h : i.block 12 = 0
  · have hb : v.blockAt i = fun k => if k < 12 then i.block k else 0 := by
      funext k
      simp [Volume.blockAt, h]
    simp [h, hb]
  · have hb : v.blockAt i = fun k => if k < 12 then i.block k else if k < 140 then
        getWord (v.sector (i.block 12)) (4 * (k - 12)) else 0 := by
      funext k
      unfold Volume.blockAt
      split_ifs with h1 h2 h3 h3
      · rfl
      · rw [getWord_sector _ _ (by omega)]
      · exact absurd h2.2 h3
      · exact absurd ⟨h, h3⟩ h2
      · rfl
    simp only [ne_eq, h, not_false_eq_true, ↓reduceIte, wp_bind_assoc, wp_ideRead_bind, or_false,
      wp_pure_bind, hb]

/-- The blocks of an inode only depend on the sector of its table. -/
theorem blockAt_congr {i : Inode} (h : i.block 12 ≠ 0 → w.disk (i.block 12) = v.disk (i.block 12)) :
    w.blockAt i = v.blockAt i := by
  funext k
  unfold Volume.blockAt
  by_cases h12 : i.block 12 = 0
  · simp [h12]
  · rw [h h12]

end Blocks

section Log

/-- Every index logged on the way from `v` to `w` lies inside its block bitmap. -/
structure LogSafe (v w : Volume) : Prop where
  bits : w.blockBitMap.bits = v.blockBitMap.bits
  log : ∀ x ∈ w.idxLog, x ∈ v.idxLog ∨ x.1 = .inodeBitmap ∨ x.2 < v.blockBitMap.bits

theorem LogSafe.refl (v : Volume) : LogSafe v v := ⟨rfl, fun _ hx => .inl hx⟩

theorem LogSafe.trans {u : Volume} (h : LogSafe u v) (h' : LogSafe v w) : LogSafe u w := by
  refine ⟨h'.bits.trans h.bits, fun x hx => ?_⟩
  rcases h'.log x hx with hx | hx | hx
  · exact h.log x hx
  · exact .inr (.inl hx)
  · exact .inr (.inr (h.bits ▸ hx))

theorem LogSafe.write (h : LogSafe v w) (lba : ℕ) (buf : ℕ → UInt8) (n : ℕ) :
    LogSafe v (w.write lba buf n) := ⟨h.bits, h.log⟩

theorem LogSafe.setInode (h : LogSafe v w) (p : ℕ) (g : Inode → Inode) :
    LogSafe v (w.setInode p g) := ⟨h.bits, h.log⟩

theorem LogSafe.logIdx (h : LogSafe v w) {i : ℕ} (hi : i < v.blockBitMap.bits) (t : BitMapType) :
    LogSafe v (w.logIdx t i) := by
  refine ⟨h.bits, fun x hx => ?_⟩
  rcases List.mem_cons.mp hx with rfl | hx
  · exact .inr (.inr hi)
  · exact h.log x hx

theorem LogSafe.sync (h : LogSafe v w) {i : ℕ} (hi : i < v.blockBitMap.bits) (t : BitMapType) :
    LogSafe v (w.sync i t) := (h.logIdx hi t).write _ _ _

theorem LogSafe.setBlockBit (h : LogSafe v w) {i : ℕ} (hi : i < v.blockBitMap.bits) (b : Bool) :
    LogSafe v (w.setBlockBit i b) := by
  refine ⟨h.bits, fun x hx => ?_⟩
  rcases List.mem_cons.mp hx with rfl | hx
  · exact .inr (.inr hi)
  · exact h.log x hx

end Log

/-- The sizes that no operation changes. -/
structure Layout (v : Volume) : Prop where
  dirEntrySize : v.superBlock.dirEntrySize = 24
  rootInodeNo : v.superBlock.rootInodeNo = 0
  inodeBitMap_start : v.superBlock.blockBitMapLbaStart + v.superBlock.blockBitMapSecCnt =
    v.superBlock.inodeBitMapLbaStart
  inodeTable_start : v.superBlock.inodeBitMapLbaStart + 1 = v.superBlock.inodeTableLbaStart
  data_start : v.superBlock.inodeTableLbaStart + 608 = v.superBlock.dataLbaStart
  block_length : v.blockBitMap.length = 512 * v.superBlock.blockBitMapSecCnt
  inode_length : v.inodeBitMap.length = 512
  data_lt : v.superBlock.dataLbaStart < maxLba
  data_le : v.superBlock.dataLbaStart ≤ v.lbaStart + v.secCnt
  bits_lt : v.superBlock.dataLbaStart + v.blockBitMap.bits < 2 ^ 32 - 1

namespace Layout

theorem congr (h : Layout v) (hsb : w.superBlock = v.superBlock) (hl : w.lbaStart = v.lbaStart)
    (hs : w.secCnt = v.secCnt) (hb : w.blockBitMap.length = v.blockBitMap.length)
    (hi : w.inodeBitMap.length = v.inodeBitMap.length) : Layout w := by
  obtain ⟨h1, h2, h3, h4, h5, h6, h7, h8, h9, h10⟩ := h
  refine ⟨?_, ?_, ?_, ?_, ?_, ?_, ?_, ?_, ?_, ?_⟩ <;>
    simpa only [hsb, hl, hs, hb, hi, BitMap.bits] using by assumption

theorem write (h : Layout v) (lba : ℕ) (buf : ℕ → UInt8) (n : ℕ) : Layout (v.write lba buf n) :=
  h.congr rfl rfl rfl rfl rfl

theorem sync (h : Layout v) (i : ℕ) (t : BitMapType) : Layout (v.sync i t) :=
  h.congr rfl rfl rfl rfl rfl

theorem setBlockBit (h : Layout v) (i : ℕ) (b : Bool) : Layout (v.setBlockBit i b) :=
  h.congr rfl rfl rfl rfl rfl

theorem setInodeBit (h : Layout v) (i : ℕ) (b : Bool) : Layout (v.setInodeBit i b) :=
  h.congr rfl rfl rfl rfl rfl

theorem setInode (h : Layout v) (p : ℕ) (g : Inode → Inode) : Layout (v.setInode p g) :=
  h.congr rfl rfl rfl rfl rfl

theorem addInode (h : Layout v) (i : Inode) : Layout (v.addInode i) :=
  h.congr rfl rfl rfl rfl rfl

theorem setOpenInodes (h : Layout v) (l : List ℕ) : Layout (v.setOpenInodes l) :=
  h.congr rfl rfl rfl rfl rfl

/-- The bit index of a data block. -/
theorem lbaToBitMapIdx (h : Layout v) {i : ℕ} (hi : i < v.blockBitMap.bits) :
    v.superBlock.lbaToBitMapIdx (v.superBlock.dataLbaStart + i) = i := by
  have hb := h.bits_lt
  unfold SuperBlock.lbaToBitMapIdx
  omega

end Layout

end Gogoos
