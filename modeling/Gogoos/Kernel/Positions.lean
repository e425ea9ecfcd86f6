import Gogoos.Kernel.Handles
import Gogoos.Fs.SizeLimit

/-!
# File positions

`fdPos` is moved by writes, reads and `sysLseek`. The calls here are made by any processes in
any order; a slot in use stays at or before the end of its file as long as nobody writes nothing
to an empty file and no read ends behind 2^32.
-/

namespace Gogoos

open Program

variable {v w : Volume} {e : Heap} {fs fs' : Fs} {α β : Type} {p k slot : ℕ}

section Calls

/-- The value of a 32-bit signed integer after an operation in 32 bits. -/
def toInt32 (x : ℤ) : ℤ :=
  if x % 2 ^ 32 < 2 ^ 31 then x % 2 ^ 32 else x % 2 ^ 32 - 2 ^ 32

namespace SeekFlag
abbrev set : ℕ := 1
abbrev cur : ℕ := 2
abbrev fromEnd : ℕ := 3
end SeekFlag

/-- `newPos` starts as zero and stays so for a flag that no case names. -/
def sysLseek (fd offset : ℤ) (seekFlag : ℕ) : FsM ℤ := do
  if fd < 0 then return -1
  assert (0 < seekFlag ∧ seekFlag < 4)
  let globalFd ← fdLocalToGlobal fd.toNat
  let p ← slotInode globalFd
  let fs ← get
  let file := fs.fileTable globalFd
  let fileSize := toInt32 (fs.vol.inodes p).size
  let newPos :=
    if seekFlag = SeekFlag.set then toInt32 offset
    else if seekFlag = SeekFlag.cur then toInt32 (toInt32 file.fdPos + offset)
    else if seekFlag = SeekFlag.fromEnd then toInt32 (fileSize + offset)
    else 0
  if newPos < 0 ∨ newPos > toInt32 (fileSize - 1) then return -1
  setFile globalFd { file with fdPos := newPos.toNat }
  return newPos

/-- The bytes stored in the buffer, or `none` for -1. The keyboard delivers `keys`. -/
def sysRead (keys : ℕ → UInt8) (fd : ℤ) (count : ℕ) : FsM (Option (List UInt8)) := do
  if fd < 0 ∨ fd = 1 ∨ fd = 2 then return none
  else if fd = 0 then return if count = 0 then none else some ((List.range count).map keys)
  else
    let globalFd ← fdLocalToGlobal fd.toNat
    fileRead globalFd count

end Calls

section Grows

/-- No inode in memory shrinks, and the open ones are in memory. -/
structure NoShrink (v w : Volume) : Prop where
  nextInode : v.nextInode ≤ w.nextInode
  size : ∀ p < v.nextInode, (v.inodes p).size ≤ (w.inodes p).size
  fresh : (∀ p ∈ v.openInodes, p < v.nextInode) → ∀ p ∈ w.openInodes, p < w.nextInode

theorem NoShrink.refl (v : Volume) : NoShrink v v := ⟨le_rfl, fun _ _ => le_rfl, id⟩

theorem NoShrink.trans {u : Volume} (h : NoShrink u v) (h' : NoShrink v w) : NoShrink u w :=
  ⟨h.nextInode.trans h'.nextInode,
    fun p hp => (h.size p hp).trans (h'.size p (hp.trans_le h.nextInode)),
    fun hu => h'.fresh (h.fresh hu)⟩

theorem noShrink_setInode {g : Inode → Inode} (hg : ∀ i, i.size ≤ (g i).size) :
    NoShrink v (v.setInode p g) := by
  refine ⟨le_rfl, fun q _ => ?_, id⟩
  by_cases hq : q = p
  · simp [hq, hg]
  · simp [hq]

theorem NoShrink.addInode (v : Volume) (i : Inode) : NoShrink v (v.addInode i) := by
  refine ⟨Nat.le_succ _, fun q hq => ?_, fun h q hq => Nat.lt_succ_of_lt (h q hq)⟩
  have hne : q ≠ v.nextInode := by omega
  simp [hne]

instance : Opening NoShrink where
  refl := NoShrink.refl
  trans _ _ _ := NoShrink.trans
  stores v w hi ho hn _ := ⟨hn.ge, fun p _ => by rw [hi], fun h => by rw [ho, hn]; exact h⟩
  grows _ _ _ hg := noShrink_setInode fun i => (hg i).2.2
  adds := NoShrink.addInode
  links v i := by
    have h := NoShrink.addInode v i
    refine ⟨h.nextInode, h.size, fun hv q hq => ?_⟩
    rcases List.mem_cons.mp hq with rfl | hq
    · exact Nat.lt_succ_self _
    · exact Nat.lt_succ_of_lt (hv q hq)
  unlinks _ _ := ⟨le_rfl, fun _ _ => le_rfl, fun h q hq => h q (List.mem_of_mem_erase hq)⟩
  counts _ _ _ := noShrink_setInode fun _ => le_rfl

theorem NoShrink.modifyInode {g : Inode → Inode} (hg : ∀ i, i.size ≤ (g i).size) :
    Keeps NoShrink (modifyInode p g) := .modify fun _ => noShrink_setInode hg

/-- The inode that `inodeOpen` returns is in memory, found or new. -/
theorem NoShrink.wp_inodeOpen (ino : ℕ) (v : Volume) : wp anyStop e (inodeOpen ino)
    (fun p w => NoShrink v w ∧ ((∀ q ∈ v.openInodes, q < v.nextInode) → p < w.nextInode)) v := by
  unfold Gogoos.inodeOpen
  rw [wp_get_bind]
  cases hfind : v.findOpen ino with
  | some p =>
    dsimp only
    rw [wp_modifyInode_bind, wp_pure]
    exact ⟨noShrink_setInode fun _ => le_rfl, fun h => h p (List.mem_of_find?_eq_some hfind)⟩
  | none =>
    dsimp only
    apply wp_call (keeps_inodeLocate (R := NoShrink) ino e v)
    intro ip v₁ h₁
    apply wp_call (keeps_sysMallocUnchecked (R := NoShrink) e v₁)
    intro _ v₂ h₂
    apply wp_call (keeps_sysMallocUnchecked (R := NoShrink) e v₂)
    intro _ v₃ h₃
    apply wp_call (keeps_ideRead (R := NoShrink) _ _ e v₃)
    intro inodeBuf v₄ h₄
    unfold Gogoos.newInode
    simp only [wp_bind_assoc, wp_get_bind, wp_modify_bind, wp_pure_bind, wp_pure]
    have hall := ((h₁.trans h₂).trans h₃).trans h₄
    exact ⟨hall.trans (Opening.links v₄ _), fun _ => Nat.lt_succ_self _⟩

end Grows

section InRange

/-- Every slot in use stands at or before the end of its file. -/
structure InRange (fs : Fs) : Prop where
  fresh : ∀ p ∈ fs.vol.openInodes, p < fs.vol.nextInode
  lt : ∀ k p, (fs.fileTable k).fdInode = some p → p < fs.vol.nextInode
  pos : ∀ k p, (fs.fileTable k).fdInode = some p →
    (fs.fileTable k).fdPos ≤ (fs.vol.inodes p).size

theorem InRange.setVol (h : InRange fs) (hw : NoShrink fs.vol w) : InRange (fs.setVol w) :=
  ⟨hw.fresh h.fresh, fun k p hk => (h.lt k p hk).trans_le hw.nextInode,
    fun k p hk => (h.pos k p hk).trans (hw.size p (h.lt k p hk))⟩

theorem InRange.setFile (h : InRange fs) {f : File} (hf : ∀ p, f.fdInode = some p →
    p < fs.vol.nextInode ∧ f.fdPos ≤ (fs.vol.inodes p).size) : InRange (fs.setFile k f) := by
  refine ⟨h.fresh, fun j p hj => ?_, fun j p hj => ?_⟩
  · by_cases hjk : j = k
    · subst hjk
      exact (hf p (by simpa using hj)).1
    · exact h.lt j p (by simpa [hjk] using hj)
  · by_cases hjk : j = k
    · subst hjk
      simpa using (hf p (by simpa using hj)).2
    · simpa [hjk] using h.pos j p (by simpa [hjk] using hj)

theorem wp_onVol_inRange_bind {m : VolM β} {f : β → FsM α} {Q : α → Fs → Prop} (h : InRange fs)
    (hm : Keeps NoShrink m) (hf : ∀ b w, NoShrink fs.vol w → InRange (fs.setVol w) →
      wp anyStop e (f b) Q (fs.setVol w)) : wp anyStop e (onVol m >>= f) Q fs :=
  wp_onVol_call (hm e fs.vol) fun b w hw => hf b w hw (h.setVol hw)

theorem wp_pcbFdInstall_inRange (h : InRange fs) :
    wp anyStop e (pcbFdInstall k) (fun _ => InRange) fs := by
  unfold pcbFdInstall
  rw [wp_get_bind]
  cases freeFdFrom fs.fdTable 4 3 with
  | none => exact wp_pure.mpr h
  | some fd => exact wp_modify_bind.mpr (wp_pure.mpr ⟨h.fresh, h.lt, h.pos⟩)

theorem wp_fileCreate_inRange {dir : Dir} {name : List UInt8} {flag : ℕ} (h : InRange fs) :
    wp anyStop e (fileCreate dir name flag) (fun _ => InRange) fs := by
  have hfail : ∀ ino (f : Fs), InRange f → wp anyStop e (do
      onVol (setInodeBit ino false)
      return (-1 : ℤ)) (fun _ => InRange) f :=
    fun ino f hf => wp_onVol_inRange_bind hf (keeps_setInodeBit _ _)
      fun _ _ _ hf' => wp_pure.mpr hf'
  unfold fileCreate
  refine wp_onVol_inRange_bind h keeps_ask fun ok v₁ _ h₁ =>
    wp_ite (fun _ => wp_pure.mpr h₁) fun _ => ?_
  apply wp_onVol_inRange_bind h₁ keeps_inodeBitMapAlloc
  rintro (_ | ino) v₂ - h₂
  · exact wp_pure.mpr h₂
  refine wp_onVol_inRange_bind h₂ keeps_ask fun ok v₃ _ h₃ =>
    wp_ite (fun _ => hfail ino _ h₃) fun _ => ?_
  have hnew : wp anyStop e (newInode (inodeInit ino))
      (fun p w => NoShrink v₃ w ∧ p < w.nextInode) v₃ := by
    refine wp_mono (wp_and (keeps_newInode _ e v₃) (R := fun p w => p < w.nextInode) ?_)
      fun _ _ h => h
    unfold newInode
    simp only [wp_get_bind, wp_modify_bind, wp_pure]
    simp
  apply wp_onVol_call hnew
  rintro p v₄ ⟨hw₄, hp⟩
  have h₄ := h₃.setVol hw₄
  unfold getFreeSlotInGlobal
  simp only [wp_bind_assoc, wp_get_bind, wp_pure_bind]
  cases freeSlotFrom ((((fs.setVol v₁).setVol v₂).setVol v₃).setVol v₄).fileTable 29 3 with
  | none => exact hfail ino _ h₄
  | some slot =>
    dsimp only
    rw [wp_setFile_bind]
    have h₅ := h₄.setFile (k := slot) (f := ⟨0, flag, some p⟩) fun q hq => by
      obtain rfl : p = q := by simpa using hq
      exact ⟨hp, Nat.zero_le _⟩
    refine wp_onVol_inRange_bind h₅ (NoShrink.modifyInode fun _ => le_rfl) fun _ v₆ hw₆ h₆ => ?_
    refine wp_onVol_inRange_bind h₆ (keeps_assert.bind fun _ => keeps_pure _) fun de v₇ hw₇ h₇ => ?_
    refine wp_onVol_inRange_bind h₇ (keeps_syncDirEntry _ _) fun ok v₈ hw₈ h₈ => ?_
    apply wp_ite
    · intro _
      rw [wp_setFile_bind]
      exact hfail ino _ (h₈.setFile fun q hq => by simp at hq)
    intro _
    rw [wp_get_bind]
    refine wp_onVol_inRange_bind h₈ (keeps_inodeSync _) fun _ v₉ hw₉ h₉ => ?_
    refine wp_onVol_inRange_bind h₉ (keeps_inodeSync _) fun _ v₁₀ hw₁₀ h₁₀ => ?_
    refine wp_onVol_inRange_bind h₁₀ (keeps_bitMapSync _ _) fun _ v₁₁ hw₁₁ h₁₁ => ?_
    have hp₁₁ : p < v₁₁.nextInode := hp.trans_le
      (((((hw₆.trans hw₇).trans hw₈).trans hw₉).trans hw₁₀).trans hw₁₁).nextInode
    apply wp_onVol_bind
    rw [wp_modify]
    apply wp_onVol_bind
    rw [wp_modifyInode]
    apply wp_pcbFdInstall_inRange
    have hlink : NoShrink v₁₁ ((v₁₁.setOpenInodes (p :: v₁₁.openInodes)).setInode p
        fun i => { i with openCnt := 1 }) := by
      have hlist : NoShrink v₁₁ (v₁₁.setOpenInodes (p :: v₁₁.openInodes)) := by
        refine ⟨le_rfl, fun _ _ => le_rfl, fun hf q hq => ?_⟩
        rcases List.mem_cons.mp hq with rfl | hq
        · exact hp₁₁
        · exact hf q hq
      apply hlist.trans
      apply noShrink_setInode
      exact fun _ => le_rfl
    exact h₁₁.setVol hlink

theorem wp_fileOpen_inRange {ino flag : ℕ} (h : InRange fs) :
    wp anyStop e (fileOpen ino flag) (fun _ => InRange) fs := by
  unfold fileOpen getFreeSlotInGlobal
  simp only [wp_bind_assoc, wp_get_bind, wp_pure_bind]
  cases freeSlotFrom fs.fileTable 29 3 with
  | none => exact wp_pure.mpr h
  | some slot =>
    dsimp only
    apply wp_onVol_call (NoShrink.wp_inodeOpen ino fs.vol)
    rintro p w ⟨hw, hp⟩
    rw [wp_setFile_bind]
    have h₁ := (h.setVol hw).setFile (k := slot) (f := ⟨0, flag, some p⟩) fun q hq => by
      obtain rfl : p = q := by simpa using hq
      exact ⟨hp h.fresh, Nat.zero_le _⟩
    apply wp_ite
    · intro _
      rw [wp_get_bind]
      apply wp_ite
      · refine fun _ => wp_onVol_inRange_bind h₁ (NoShrink.modifyInode ?_)
          fun _ _ _ h₂ => wp_pcbFdInstall_inRange h₂
        exact fun _ => le_rfl
      · refine fun _ => wp_onVol_inRange_bind h₁ (keeps_inodeClose p) fun _ _ _ h₂ => ?_
        exact wp_setFile_bind.mpr (wp_pure.mpr (h₂.setFile fun q hq => by simp at hq))
    · exact fun _ => wp_pcbFdInstall_inRange h₁

theorem wp_sysOpen_inRange {path : List UInt8} {flags : ℕ} (h : InRange fs) :
    wp anyStop e (sysOpen path flags) (fun _ => InRange) fs := by
  have hclose : ∀ (dir : Dir) (r : ℤ) (f : Fs), InRange f → wp anyStop e (do
      onVol (dirClose dir)
      return r) (fun _ => InRange) f :=
    fun dir r f hf => wp_onVol_inRange_bind hf (keeps_dirClose _) fun _ _ _ hf' => wp_pure.mpr hf'
  unfold sysOpen
  refine wp_ite (fun _ => wp_pure.mpr h) fun _ => ?_
  refine wp_assert_bind.mpr ⟨fun _ => ?_, fun _ => trivial⟩
  refine wp_onVol_inRange_bind h (keeps_pathDepthCnt _) fun _ _ _ h₁ => ?_
  apply wp_onVol_inRange_bind h₁ (keeps_searchFile path)
  rintro ⟨ino, record⟩ w - h₂
  refine wp_ite (fun _ => hclose _ _ _ h₂) fun _ => ?_
  refine wp_onVol_inRange_bind h₂ (keeps_pathDepthCnt _) fun _ _ _ h₃ => ?_
  refine wp_ite (fun _ => hclose _ _ _ h₃) fun _ => ?_
  refine wp_onVol_inRange_bind h₃ (keeps_lastName _) fun _ _ _ h₄ => ?_
  cases ino with
  | none =>
    refine wp_ite (fun _ => hclose _ _ _ h₄) fun _ => ?_
    exact wp_call (wp_fileCreate_inRange h₄) fun _ _ h₅ => hclose _ _ _ h₅
  | some ino =>
    refine wp_ite (fun _ => hclose _ _ _ h₄) fun _ => ?_
    exact wp_call (wp_fileOpen_inRange h₄) fun _ _ h₅ => hclose _ _ _ h₅

theorem wp_slotInode {Q : ℕ → Fs → Prop} (hQ : ∀ p, (fs.fileTable k).fdInode = some p → Q p fs) :
    wp anyStop e (slotInode k) Q fs := by
  unfold slotInode
  rw [wp_get_bind]
  cases hp : (fs.fileTable k).fdInode with
  | none => exact wp_halt.mpr trivial
  | some p => exact wp_pure.mpr (hQ p hp)

theorem wp_fdLocalToGlobal {localFd : ℕ} {Q : ℕ → Fs → Prop} (hQ : ∀ slot : ℕ,
    fs.fdTable localFd = slot → slot < 32 → Q slot fs) :
    wp anyStop e (fdLocalToGlobal localFd) Q fs := by
  unfold fdLocalToGlobal
  rw [wp_get_bind, wp_assert_bind]
  refine ⟨fun h => wp_pure.mpr (hQ _ ?_ ?_), fun _ => trivial⟩
  · omega
  · omega

theorem wp_fileClose_inRange (h : InRange fs) :
    wp anyStop e (fileClose k) (fun _ => InRange) fs := by
  unfold fileClose
  apply wp_bind
  apply wp_slotInode
  intro p hp
  refine wp_onVol_inRange_bind h (NoShrink.modifyInode ?_) fun _ _ _ h₁ => ?_
  · exact fun _ => le_rfl
  refine wp_onVol_inRange_bind h₁ (keeps_inodeClose p) fun _ w _ h₂ => ?_
  simp only [wp_get_bind, wp_setFile_bind, wp_pure]
  exact h₂.setFile fun q hq => by simp at hq

theorem wp_sysClose_inRange {fd : ℤ} (h : InRange fs) :
    wp anyStop e (sysClose fd) (fun _ => InRange) fs := by
  unfold sysClose
  refine wp_ite (fun _ => ?_) fun _ => wp_pure.mpr h
  apply wp_bind
  apply wp_fdLocalToGlobal
  intro slot _ _
  apply wp_call (wp_fileClose_inRange h)
  intro r f hf
  rw [wp_modify_bind, wp_pure]
  exact ⟨hf.fresh, hf.lt, hf.pos⟩

end InRange

section Moves

/-- The file in slot `k` is not left empty by a write of `count` bytes, and ends within the
size limit. -/
def WritesInside (fs : Fs) (k count : ℕ) : Prop :=
  ∀ p, (fs.fileTable k).fdInode = some p →
    0 < (fs.vol.inodes p).size + count ∧ (fs.vol.inodes p).size + count ≤ 71680

theorem NoShrink.allocBlocks {check : Bool} : ∀ cnt i all,
    Keeps NoShrink (allocBlocks (fun n => Gogoos.bitMapSync n .blockBitmap) p check cnt i all)
  | 0, _, _ => keeps_pure _
  | cnt + 1, i, all => by
    unfold Gogoos.allocBlocks
    refine keeps_blockBitMapAlloc.bind ?_
    rintro (_ | lba)
    · exact keeps_pure _
    · have hrest : Keeps NoShrink (do
          let blockBitMapIdx ← Gogoos.blockLbaToBitMapIdx lba
          assert (check → blockBitMapIdx ≠ 0)
          Gogoos.bitMapSync blockBitMapIdx .blockBitmap
          Gogoos.allocBlocks (fun n => Gogoos.bitMapSync n .blockBitmap) p check cnt (i + 1)
            (fun k => if k = i then lba else all k)) :=
        (keeps_blockLbaToBitMapIdx lba).bind fun _ => keeps_assert.bind fun _ =>
          (keeps_bitMapSync _ _).bind fun _ => allocBlocks cnt (i + 1) _
      apply Keeps.ite
      · exact .get_bind fun _ => keeps_assert.bind fun _ => (keeps_setBlock _ _).bind fun _ => hrest
      · exact hrest

theorem NoShrink.allocFirstBlock :
    Keeps NoShrink (allocFirstBlock (fun n => Gogoos.bitMapSync n .blockBitmap) p) := by
  refine .get_bind fun v => ?_
  apply Keeps.ite
  · refine keeps_blockBitMapAlloc.bind ?_
    rintro (_ | lba)
    · exact keeps_pure _
    · exact (keeps_setBlock _ _).bind fun _ => (keeps_blockLbaToBitMapIdx _).bind fun _ =>
        keeps_assert.bind fun _ => (keeps_bitMapSync _ _).bind fun _ => keeps_pure _
  · exact keeps_pure _

theorem NoShrink.readTable (lba : ℕ) (base : ℕ → ℕ) : Keeps NoShrink (readTable lba base) :=
  (keeps_ideRead _ _).bind fun _ => keeps_pure _

theorem NoShrink.prepareBlocks (has will : ℕ) : Keeps NoShrink
    (prepareBlocks (fun n => Gogoos.bitMapSync n .blockBitmap) p has will) := by
  refine .get_bind fun v => ?_
  apply Keeps.ite
  · apply Keeps.ite
    · exact keeps_assert.bind fun _ => keeps_pure _
    · exact keeps_assert.bind fun _ => (readTable _ _).bind fun _ => keeps_pure _
  apply Keeps.ite
  · exact keeps_assert.bind fun _ => allocBlocks _ _ _
  apply Keeps.ite
  · refine keeps_assert.bind fun _ => keeps_blockBitMapAlloc.bind ?_
    rintro (_ | lba)
    · exact keeps_pure _
    refine keeps_assert.bind fun _ => (keeps_setBlock _ _).bind fun _ => (allocBlocks _ _ _).bind ?_
    rintro (_ | all)
    · exact keeps_pure _
    · exact (keeps_ideWrite _ _ _).bind fun _ => keeps_pure _
  · refine keeps_assert.bind fun _ => (readTable _ _).bind fun _ => (allocBlocks _ _ _).bind ?_
    rintro (_ | all)
    · exact keeps_pure _
    · exact (keeps_ideWrite _ _ _).bind fun _ => keeps_pure _

theorem noShrink_upToDisk {n : ℕ} (h : UpToDisk (v.setInode p (·.setSize n)) w)
    (hn : (v.inodes p).size ≤ n) : NoShrink v w := by
  rw [h]
  refine ⟨le_rfl, fun q _ => ?_, id⟩
  by_cases hq : q = p
  · subst hq
    simpa using hn
  · simp [hq]

theorem wp_fileWrite_inRange {buf : List UInt8} (h : InRange fs)
    (hin : WritesInside fs k buf.length) :
    wp anyStop e (fileWrite k buf) (fun _ => InRange) fs := by
  unfold fileWrite fileWriteWith
  apply wp_bind
  apply wp_slotInode
  intro p hp
  obtain ⟨hpos, hle⟩ := hin p hp
  have hlt := h.lt k p hp
  rw [wp_get_bind]
  refine wp_ite (fun _ => wp_pure.mpr h) fun _ => ?_
  refine wp_onVol_inRange_bind h keeps_ask fun _ v₁ hv₁ h₁ =>
    wp_ite (fun _ => wp_pure.mpr h₁) fun _ => ?_
  refine wp_onVol_inRange_bind h₁ keeps_ask fun _ v₂ hv₂ h₂ =>
    wp_ite (fun _ => wp_pure.mpr h₂) fun _ => ?_
  refine wp_onVol_inRange_bind h₂ NoShrink.allocFirstBlock fun _ v₃ hv₃ h₃ =>
    wp_ite (fun _ => wp_pure.mpr h₃) fun _ => ?_
  refine wp_assert_bind.mpr ⟨fun _ => ?_, fun _ => trivial⟩
  apply wp_onVol_inRange_bind h₃ (NoShrink.prepareBlocks _ _)
  rintro (_ | all) v₄ hv₄ h₄
  · exact wp_pure.mpr h₄
  have hup : NoShrink fs.vol v₄ := ((hv₁.trans hv₂).trans hv₃).trans hv₄
  have hsize := hup.size p hlt
  dsimp only
  apply wp_onVol_bind
  apply wp_writeChunks_size _ _ _ _ le_rfl
  · exact fun _ _ _ _ => .inr fun _ => trivial
  intro v₅ hv₅
  have hsize₅ : (v₅.inodes p).size = (v₄.inodes p).size + buf.length := by
    rw [hv₅]
    simp
  have hv₄₅ : NoShrink v₄ v₅ := noShrink_upToDisk hv₅ (Nat.le_add_right _ _)
  rw [wp_get_bind, wp_setFile_bind]
  refine wp_onVol_inRange_bind ?_ (keeps_inodeSync _) fun _ _ _ h₆ => wp_pure.mpr h₆
  apply (h₄.setVol hv₄₅).setFile
  intro q hq
  obtain rfl : p = q := by simpa [hp] using hq
  refine ⟨hlt.trans_le (hup.trans hv₄₅).nextInode, ?_⟩
  change _ ≤ (v₅.inodes p).size
  rw [hsize₅]
  dsimp only
  omega

theorem wp_sysWrite_inRange {fd : ℤ} {buf : List UInt8} (h : InRange fs)
    (hin : fd ≠ 1 → fd ≠ 2 → ∀ slot : ℕ, fs.fdTable fd.toNat = slot →
      WritesInside fs slot buf.length) :
    wp anyStop e (sysWrite fd buf) (fun _ => InRange) fs := by
  unfold sysWrite
  refine wp_ite (fun _ => wp_pure.mpr h) fun _ => ?_
  refine wp_ite (fun _ => wp_assert_bind.mpr ⟨fun _ => wp_pure.mpr h, fun _ => trivial⟩)
    fun hfd => ?_
  apply wp_bind
  apply wp_fdLocalToGlobal
  intro slot hslot _
  rw [wp_get_bind]
  exact wp_ite (fun _ => wp_fileWrite_inRange h (hin (by omega) (by omega) slot hslot))
    fun _ => wp_pure.mpr h

theorem NoShrink.readChunks (all : ℕ → ℕ) : ∀ fuel pos n, Keeps NoShrink (readChunks all fuel pos n)
  | 0, _, _ => keeps_pure _
  | fuel + 1, pos, n => by
    unfold Gogoos.readChunks
    apply Keeps.ite (keeps_pure _)
    exact (keeps_ideRead _ _).bind fun _ => (readChunks all fuel _ _).bind fun _ => keeps_pure _

theorem NoShrink.readBlocks (block : ℕ → ℕ) (first last : ℕ) :
    Keeps NoShrink (readBlocks block first last) := by
  apply Keeps.ite (keeps_pure _)
  exact keeps_assert.bind fun _ => readTable _ _

/-- The number of bytes a read transfers when the sum of position and count does not wrap. -/
theorem read_size {pos size count : ℕ} (hpos : pos ≤ size) (hsum : pos + count < 2 ^ 32) :
    (if (pos + count) % 2 ^ 32 > size then (size + 2 ^ 32 - pos) % 2 ^ 32 else count) =
      min count (size - pos) := by
  split_ifs <;> omega

theorem wp_fileRead_inRange {count : ℕ} (h : InRange fs)
    (hsum : (fs.fileTable k).fdPos + count < 2 ^ 32) :
    wp anyStop e (fileRead k count) (fun _ => InRange) fs := by
  unfold fileRead
  apply wp_bind
  apply wp_slotInode
  intro p hp
  have hlt := h.lt k p hp
  have hpos := h.pos k p hp
  rw [wp_get_bind]
  simp only [read_size hpos hsum]
  refine wp_ite (fun _ => wp_pure.mpr h) fun _ => ?_
  refine wp_onVol_inRange_bind h keeps_ask fun _ v₁ hv₁ h₁ =>
    wp_ite (fun _ => wp_pure.mpr h₁) fun _ => ?_
  refine wp_onVol_inRange_bind h₁ keeps_ask fun _ v₂ hv₂ h₂ =>
    wp_ite (fun _ => wp_pure.mpr h₂) fun _ => ?_
  refine wp_assert_bind.mpr ⟨fun _ => ?_, fun _ => trivial⟩
  refine wp_onVol_inRange_bind h₂ (NoShrink.readBlocks _ _ _) fun _ v₃ hv₃ h₃ => ?_
  refine wp_onVol_inRange_bind h₃ (NoShrink.readChunks _ _ _ _) fun _ v₄ hv₄ h₄ => ?_
  have hup : NoShrink fs.vol v₄ := ((hv₁.trans hv₂).trans hv₃).trans hv₄
  have hsize := hup.size p hlt
  rw [wp_setFile_bind, wp_pure]
  apply h₄.setFile
  intro q hq
  obtain rfl : p = q := by simpa [hp] using hq
  refine ⟨hlt.trans_le hup.nextInode, ?_⟩
  change _ ≤ (v₄.inodes p).size
  dsimp only
  omega

theorem wp_sysRead_inRange {keys : ℕ → UInt8} {fd : ℤ} {count : ℕ} (h : InRange fs)
    (hsum : 2 < fd → ∀ slot : ℕ, fs.fdTable fd.toNat = slot →
      (fs.fileTable slot).fdPos + count < 2 ^ 32) :
    wp anyStop e (sysRead keys fd count) (fun _ => InRange) fs := by
  unfold sysRead
  refine wp_ite (fun _ => wp_pure.mpr h) fun hfd => wp_ite (fun _ => wp_pure.mpr h) fun hfd' => ?_
  apply wp_bind
  apply wp_fdLocalToGlobal
  exact fun slot hslot _ => wp_fileRead_inRange h (hsum (by omega) slot hslot)

theorem toInt32_sub_one_lt (n : ℕ) (h : 0 ≤ toInt32 (toInt32 n - 1)) :
    toInt32 (toInt32 n - 1) < n := by
  unfold toInt32 at *
  split_ifs at * <;> omega

/-- `sysLseek` needs no condition: the end it compares with is never behind the file. -/
theorem wp_sysLseek_inRange {fd offset : ℤ} {seekFlag : ℕ} (h : InRange fs) :
    wp anyStop e (sysLseek fd offset seekFlag) (fun _ => InRange) fs := by
  unfold sysLseek
  refine wp_ite (fun _ => wp_pure.mpr h) fun _ => ?_
  refine wp_assert_bind.mpr ⟨fun _ => ?_, fun _ => trivial⟩
  apply wp_bind
  apply wp_fdLocalToGlobal
  intro slot _ _
  apply wp_bind
  apply wp_slotInode
  intro p hp
  rw [wp_get_bind]
  refine wp_ite (fun _ => wp_pure.mpr h) fun hout => ?_
  rw [wp_setFile_bind, wp_pure]
  apply h.setFile
  intro q hq
  obtain rfl : p = q := by simpa [hp] using hq
  have hend := toInt32_sub_one_lt (fs.vol.inodes p).size
  refine ⟨h.lt slot p hp, ?_⟩
  dsimp only at hout ⊢
  omega

end Moves

section Read

/-- The blocks of the `n` bytes from `pos` on, and the block behind them, are where a read looks
for them, and on the disk. -/
structure ReadInside (v : Volume) (i : Inode) (pos n : ℕ) : Prop where
  lt : pos + n < 71680
  table : 12 ≤ (pos + n) / 512 → i.block 12 ≠ 0 ∧ i.block 12 < maxLba
  below : 0 < n → ∀ j, pos / 512 ≤ j → 512 * j < pos + n → v.blockAt i j < maxLba

/-- The sum of position and count does not wrap, and the blocks are there unless the read is
answered at once, at the end of the file. -/
structure ReadOk (fs : Fs) (k count : ℕ) : Prop where
  sum : (fs.fileTable k).fdPos + count < 2 ^ 32
  blocks : ∀ p, (fs.fileTable k).fdInode = some p →
    (0 < count → (fs.fileTable k).fdPos < (fs.vol.inodes p).size) →
    ReadInside fs.vol (fs.vol.inodes p) (fs.fileTable k).fdPos
      (min count ((fs.vol.inodes p).size - (fs.fileTable k).fdPos))

/-- Induction on the number of rounds. -/
theorem wp_readChunks_length {all : ℕ → ℕ} : ∀ fuel pos n, n ≤ fuel →
    (0 < n → ∀ j, pos / 512 ≤ j → 512 * j < pos + n → all j < maxLba) →
    wp noStop e (readChunks all fuel pos n) (fun bytes _ => bytes.length = n) v := by
  intro fuel
  induction fuel with
  | zero =>
    intro pos n hn _
    obtain rfl : n = 0 := by omega
    exact wp_pure.mpr rfl
  | succ fuel ih =>
    intro pos n hn hall
    unfold readChunks
    by_cases hn0 : n = 0
    · rw [if_pos hn0, wp_pure, hn0]
      rfl
    · rw [if_neg hn0, wp_ideRead_bind]
      have hlt := hall (by omega) (pos / 512) le_rfl (by omega)
      refine ⟨fun _ => ?_, fun hge => absurd hlt hge⟩
      apply wp_call (ih (pos + min n (512 - pos % 512)) (n - min n (512 - pos % 512)) (by omega)
        fun _ j hj hj' => hall (by omega) j (by omega) (by omega))
      intro rest _ hrest
      rw [wp_pure, List.length_append, List.length_map, List.length_range, hrest]
      omega

theorem wp_readBlocks_inside {Q : (ℕ → ℕ) → Volume → Prop} {i : Inode} {pos n : ℕ}
    (hlt : pos + n < 71680) (htable : 12 ≤ (pos + n) / 512 → i.block 12 ≠ 0 ∧ i.block 12 < maxLba)
    (hQ : ∀ all, (∀ j, pos / 512 ≤ j → 512 * j < pos + n → all j = v.blockAt i j) → Q all v) :
    wp noStop e (readBlocks i.block (pos / 512) ((pos + n) / 512)) Q v := by
  unfold readBlocks
  by_cases h12 : (pos + n) / 512 < 12
  · rw [if_pos h12, wp_pure]
    apply hQ
    intro j hj hj'
    rw [if_pos ⟨hj, by omega, by omega⟩, blockAt_direct v _ (by omega)]
  · obtain ⟨h0, htlt⟩ := htable (by omega)
    rw [if_neg h12, wp_assert_pos (.inr h0)]
    apply wp_readTable h0 htlt
    intro all hall hdirect
    apply hQ
    intro j hj hj'
    by_cases hj12 : j < 12
    · rw [hdirect j hj12, if_pos ⟨hj, by omega, hj12⟩, blockAt_direct v _ hj12]
    · rw [hall j (by omega) (by omega)]

/-- `fileRead` up to its copy loop. A machine short of memory answers before. -/
theorem wp_fileRead_ready {stop : Fs → Prop} {Q : Option (List UInt8) → Fs → Prop} {count : ℕ}
    (hp : (fs.fileTable k).fdInode = some p) (hpos : (fs.fileTable k).fdPos ≤ (fs.vol.inodes p).size)
    (hsum : (fs.fileTable k).fdPos + count < 2 ^ 32)
    (hin : (0 < count → (fs.fileTable k).fdPos < (fs.vol.inodes p).size) →
      (fs.fileTable k).fdPos + min count ((fs.vol.inodes p).size - (fs.fileTable k).fdPos) < 71680 ∧
        (12 ≤ ((fs.fileTable k).fdPos + min count ((fs.vol.inodes p).size -
          (fs.fileTable k).fdPos)) / 512 →
          (fs.vol.inodes p).block 12 ≠ 0 ∧ (fs.vol.inodes p).block 12 < maxLba))
    (hnone : ((∀ t, e.sysMalloc t = true) →
      min count ((fs.vol.inodes p).size - (fs.fileTable k).fdPos) = 0) → Q none fs)
    (hQ : (0 < count → (fs.fileTable k).fdPos < (fs.vol.inodes p).size) →
      ∀ all, (∀ j, (fs.fileTable k).fdPos / 512 ≤ j → 512 * j < (fs.fileTable k).fdPos +
        min count ((fs.vol.inodes p).size - (fs.fileTable k).fdPos) →
        all j = fs.vol.blockAt (fs.vol.inodes p) j) →
      wp stop e (do
        let bytes ← onVol (readChunks all
          (min count ((fs.vol.inodes p).size - (fs.fileTable k).fdPos)) (fs.fileTable k).fdPos
          (min count ((fs.vol.inodes p).size - (fs.fileTable k).fdPos)))
        setFile k
          { fs.fileTable k with
            fdPos := (fs.fileTable k).fdPos +
              min count ((fs.vol.inodes p).size - (fs.fileTable k).fdPos) }
        return some bytes) Q fs) : wp stop e (fileRead k count) Q fs := by
  unfold fileRead
  apply wp_slotInode_bind hp
  rw [wp_get_bind]
  have hmod := Nat.mod_eq_of_lt hsum
  have hlast := read_size hpos hsum
  rw [hmod] at hlast
  simp only [hmod, hlast]
  by_cases hend : (fs.fileTable k).fdPos + count > (fs.vol.inodes p).size ∧
      min count ((fs.vol.inodes p).size - (fs.fileTable k).fdPos) = 0
  · rw [if_pos hend, wp_pure]
    exact hnone fun _ => hend.2
  · have hleft : 0 < count → (fs.fileTable k).fdPos < (fs.vol.inodes p).size := by omega
    obtain ⟨hlt, htable⟩ := hin hleft
    rw [if_neg hend]
    apply wp_onVol_bind
    apply wp_ask
    intro t
    apply wp_ite
    · intro h
      refine wp_pure.mpr (hnone fun he => ?_)
      simp [he t] at h
    intro _
    apply wp_onVol_bind
    apply wp_ask
    intro t'
    apply wp_ite
    · intro h
      refine wp_pure.mpr (hnone fun he => ?_)
      simp [he t'] at h
    intro _
    have hmod' : ((fs.fileTable k).fdPos + min count ((fs.vol.inodes p).size -
        (fs.fileTable k).fdPos)) % 2 ^ 32 = (fs.fileTable k).fdPos +
        min count ((fs.vol.inodes p).size - (fs.fileTable k).fdPos) := Nat.mod_eq_of_lt (by omega)
    rw [wp_assert_pos (by simp only [hmod, hlast]; omega), hmod']
    apply wp_onVol_bind
    apply wp_of_noStop
    exact wp_readBlocks_inside hlt htable fun all hall => hQ hleft all hall

/-- A read transfers what is asked for or what is left, whichever is less. -/
theorem wp_fileRead_min {count : ℕ} (hp : (fs.fileTable k).fdInode = some p)
    (hpos : (fs.fileTable k).fdPos ≤ (fs.vol.inodes p).size) (hok : ReadOk fs k count) :
    wp noStop e (fileRead k count) (fun r _ => (∀ t, e.sysMalloc t = true) → (r.getD []).length =
      min count ((fs.vol.inodes p).size - (fs.fileTable k).fdPos)) fs := by
  apply wp_fileRead_ready hp hpos hok.sum
  · exact fun hleft => ⟨(hok.blocks p hp hleft).lt, (hok.blocks p hp hleft).table⟩
  · exact fun hnone he => (hnone he).symm
  intro hleft all hall
  have hin := hok.blocks p hp hleft
  apply wp_onVol_bind
  apply wp_mono (wp_readChunks_length _ _ _ le_rfl fun hn j hj hj' => ?_)
  · intro bytes _ hlen
    rw [wp_setFile_bind, wp_pure]
    exact fun _ => hlen
  · rw [hall j hj hj']
    exact hin.below hn j hj hj'

end Read

namespace FileUsers

inductive PosCall where
  | open (pathName : List UInt8) (flags : ℕ)
  | write (fd : ℤ) (buf : List UInt8)
  | read (fd : ℤ) (count : ℕ)
  | lseek (fd offset : ℤ) (seekFlag : ℕ)
  | close (fd : ℤ)

variable {s s' : FileUsers} {q : ℕ}

/-- A process makes one of the calls, and the call returns. -/
inductive PosStep (cond : FileUsers → ℕ → PosCall → Prop) : FileUsers → FileUsers → Prop where
  | open {s : FileUsers} {q pathName flags e r f} : cond s q (.open pathName flags) →
      Returns e (sysOpen pathName flags) (s.fs q) r f → PosStep cond s (s.setFs q f)
  | write {s : FileUsers} {q fd buf e r f} : cond s q (.write fd buf) →
      Returns e (sysWrite fd buf) (s.fs q) r f → PosStep cond s (s.setFs q f)
  | read {s : FileUsers} {q fd count keys e r f} : cond s q (.read fd count) →
      Returns e (sysRead keys fd count) (s.fs q) r f → PosStep cond s (s.setFs q f)
  | lseek {s : FileUsers} {q fd offset seekFlag e r f} : cond s q (.lseek fd offset seekFlag) →
      Returns e (sysLseek fd offset seekFlag) (s.fs q) r f → PosStep cond s (s.setFs q f)
  | close {s : FileUsers} {q fd e r f} : cond s q (.close fd) →
      Returns e (sysClose fd) (s.fs q) r f → PosStep cond s (s.setFs q f)

/-- Writes end within the size limit. -/
def WithinLimit (s : FileUsers) (q : ℕ) : PosCall → Prop
  | .write fd buf => fd ≠ 1 → fd ≠ 2 → ∀ slot p : ℕ, s.fdTable q fd.toNat = slot →
      (s.fileTable slot).fdInode = some p → (s.vol.inodes p).size + buf.length ≤ 71680
  | _ => True

/-- Moreover no write of no bytes goes to an empty file, and no read ends behind 2^32. -/
def MovesInside (s : FileUsers) (q : ℕ) : PosCall → Prop
  | .write fd buf => fd ≠ 1 → fd ≠ 2 → ∀ slot : ℕ, s.fdTable q fd.toNat = slot →
      WritesInside (s.fs q) slot buf.length
  | .read fd count => 2 < fd → ∀ slot : ℕ, s.fdTable q fd.toNat = slot →
      (s.fileTable slot).fdPos + count < 2 ^ 32
  | _ => True

/-- Positions are in range, and a read whose blocks are in place transfers what is asked for or
what is left of the file. -/
structure PosLaw (s : FileUsers) : Prop where
  pos : ∀ k p, (s.fileTable k).fdInode = some p → (s.fileTable k).fdPos ≤ (s.vol.inodes p).size
  read : ∀ e keys q fd count, ∀ slot p : ℕ, (∀ t, e.sysMalloc t = true) → 2 < fd →
    s.fdTable q fd.toNat = slot → slot < 32 → (s.fileTable slot).fdInode = some p →
    ReadOk (s.fs q) slot count →
    wp noStop e (sysRead keys fd count) (fun r _ => (r.getD []).length =
      min count ((s.vol.inodes p).size - (s.fileTable slot).fdPos)) (s.fs q)

/-- No file is open. -/
structure NoFiles (s : FileUsers) : Prop where
  fresh : ∀ p ∈ s.vol.openInodes, p < s.vol.nextInode
  free : ∀ k, (s.fileTable k).fdInode = none

theorem NoFiles.inRange (h : NoFiles s) (q : ℕ) : InRange (s.fs q) :=
  ⟨h.fresh, fun k p hk => by simp [fs, h.free k] at hk, fun k p hk => by simp [fs, h.free k] at hk⟩

theorem posLaw_of_inRange (h : ∀ q, InRange (s.fs q)) : PosLaw s := by
  refine ⟨(h 0).pos, fun e keys q fd count slot p he hfd hslot hlt hp hok => ?_⟩
  unfold sysRead
  rw [if_neg (by omega), if_neg (by omega)]
  unfold fdLocalToGlobal
  have htable : (s.fs q).fdTable fd.toNat = slot := hslot
  simp only [wp_bind_assoc, wp_get_bind]
  rw [wp_assert_pos (by rw [htable]; omega), wp_pure_bind, htable, Int.toNat_natCast]
  exact wp_mono (wp_fileRead_min hp ((h q).pos slot p hp) hok) fun _ _ hlen => hlen he

theorem inRange_setFs {f : Fs} (h : InRange f) (q r : ℕ) : InRange ((s.setFs q f).fs r) :=
  ⟨h.fresh, h.lt, h.pos⟩

theorem PosStep.inRange (h : ∀ q, InRange (s.fs q)) (hst : PosStep MovesInside s s') :
    ∀ q, InRange (s'.fs q) := by
  cases hst with
  | «open» _ hret => exact inRange_setFs (hret.of_wp (wp_sysOpen_inRange (h _))) _
  | write hc hret => exact inRange_setFs (hret.of_wp (wp_sysWrite_inRange (h _) hc)) _
  | read hc hret => exact inRange_setFs (hret.of_wp (wp_sysRead_inRange (h _) hc)) _
  | lseek _ hret => exact inRange_setFs (hret.of_wp (wp_sysLseek_inRange (h _))) _
  | close _ hret => exact inRange_setFs (hret.of_wp (wp_sysClose_inRange (h _))) _

/-- In every state of a run in which no file is open at first. -/
theorem position_law (h : NoFiles s) (hrun : Run (PosStep MovesInside) s s') : PosLaw s' :=
  posLaw_of_inRange (hrun.invariant (fun _ _ hI hst => PosStep.inRange hI hst) h.inRange)

theorem startUsers_noFiles : NoFiles startUsers := ⟨by decide, fun _ => rfl⟩

/-- Descriptor 3 is bound to slot 3, where the new file is. -/
theorem openUsers_slot {slot : ℕ} (h : openUsers.fdTable 1 3 = slot) :
    (openUsers.fileTable slot).fdInode = some 1 := by
  have h3 : openUsers.fdTable 1 3 = 3 := by decide +kernel
  obtain rfl : slot = 3 := by
    rw [h3] at h
    omega
  decide +kernel

theorem openUsers_size : (openUsers.vol.inodes 1).size = 0 := by decide +kernel

/-- Process 1 writes three bytes to `/a`, which it has created. -/
def writtenUsers : FileUsers :=
  openUsers.setFs 1 (sysWrite 3 [7, 8, 9] sampleHeap 0 (openUsers.fs 1)).state

theorem position_law_sample : Run (PosStep MovesInside) startUsers writtenUsers ∧
    PosLaw writtenUsers ∧ (writtenUsers.fileTable 3).fdPos = 2 := by
  have hopen : PosStep MovesInside startUsers openUsers :=
    .open (e := sampleHeap) (r := 3) trivial (.of_value (by decide +kernel))
  have hwrite : PosStep MovesInside openUsers writtenUsers := by
    refine .write (e := sampleHeap) (r := 3) (fun _ _ slot hslot p hp => ?_)
      (.of_value (by decide +kernel))
    obtain rfl : 1 = p := Option.some.inj ((openUsers_slot hslot).symm.trans hp)
    change 0 < (openUsers.vol.inodes 1).size + 3 ∧ (openUsers.vol.inodes 1).size + 3 ≤ 71680
    rw [openUsers_size]
    decide
  have hrun := (Relation.ReflTransGen.single hopen).tail hwrite
  exact ⟨hrun, position_law startUsers_noFiles hrun, by decide +kernel⟩

/-- Process 1 writes nothing to `/a`. -/
def emptyWrite : FileUsers :=
  openUsers.setFs 1 (sysWrite 3 [] sampleHeap 0 (openUsers.fs 1)).state

/-- The position starts from the size minus one, in 32 bits. -/
theorem position_law_fails : ¬∀ s s' : FileUsers, NoFiles s → Run (PosStep WithinLimit) s s' →
    ∀ k p, (s'.fileTable k).fdInode = some p → (s'.fileTable k).fdPos ≤ (s'.vol.inodes p).size := by
  intro hall
  have hopen : PosStep WithinLimit startUsers openUsers :=
    .open (e := sampleHeap) (r := 3) trivial (.of_value (by decide +kernel))
  have hwrite : PosStep WithinLimit openUsers emptyWrite := by
    refine .write (e := sampleHeap) (r := 0) (fun _ _ slot p hslot hp => ?_)
      (.of_value (by decide +kernel))
    obtain rfl : 1 = p := Option.some.inj ((openUsers_slot hslot).symm.trans hp)
    rw [openUsers_size]
    decide
  have hpos := hall startUsers emptyWrite startUsers_noFiles
    ((Relation.ReflTransGen.single hopen).tail hwrite) 3 1 (by decide +kernel)
  exact absurd hpos (by decide +kernel)

end FileUsers

end Gogoos
