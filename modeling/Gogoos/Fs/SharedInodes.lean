import Gogoos.Fs.InodeHeaps

/-!
# Inodes in the heap of the kernel

Every inode that somebody may come across again, by the list of open inodes, a slot of the table
of open files or a directory, lies in the heap of the kernel. All calls keep it so, except for the
last part of `fileCreate`, which links an inode from the heap of the caller.
-/

namespace Gogoos

open Program

namespace Heaped

variable {e : Heap} {α β : Type} {s s' : Heaped} {d p slot ino flag : ℕ} {L L' : Set ℕ}

section Frame

/-- The same inodes are in memory and on the list. -/
structure SameList (v w : Volume) : Prop where
  openInodes : w.openInodes = v.openInodes
  nextInode : w.nextInode = v.nextInode
  rootInode : w.rootInode = v.rootInode

theorem SameList.refl (v : Volume) : SameList v v := ⟨rfl, rfl, rfl⟩

theorem keeps_sameList {m : VolM α} (hm : Keeps SameOpen m) : Keeps SameList m :=
  hm.mono fun _ _ h => ⟨h.openInodes, h.nextInode, h.rootInode⟩

theorem keeps_setInode (g : Inode → Inode) : Keeps SameList (modifyInode p g) :=
  .modify fun _ => ⟨rfl, rfl, rfl⟩

@[simps -fullyApplied] def setFs (s : Heaped) (f : Fs) : Heaped := { s with fs := f }

@[simps! -fullyApplied] def setVol (s : Heaped) (v : Volume) : Heaped := s.setFs (s.fs.setVol v)

/-- What only depends on the list of open inodes, and not on what is in an inode. -/
def Framed (P : Heaped → Prop) : Prop := ∀ s w, P s → SameList s.fs.vol w → P (s.setVol w)

theorem wp_onVol_call {m : VolM β} {f : β → HeapedM α} {Q : α → Heaped → Prop}
    {P : β → Volume → Prop} (hm : wp anyStop e m P s.fs.vol)
    (hf : ∀ b w, P b w → wp anyStop e (f b) Q (s.setVol w)) :
    wp anyStop e (onVol m >>= f) Q s :=
  wp_bind (wp_zoom (wp_zoom (wp_mono hm hf)))

theorem wp_framed_bind {m : VolM β} {f : β → HeapedM α} {Q : α → Heaped → Prop}
    {P : Heaped → Prop} (hP : Framed P) (h : P s) (hm : Keeps SameList m)
    (hf : ∀ b s', P s' → wp anyStop e (f b) Q s') : wp anyStop e (onVol m >>= f) Q s :=
  wp_onVol_call (hm e s.fs.vol) fun b w hw => hf b _ (hP s w h hw)

theorem wp_onFs_call {m : FsM β} {f : β → HeapedM α} {Q : α → Heaped → Prop}
    {P : β → Fs → Prop} (hm : wp anyStop e m P s.fs)
    (hf : ∀ b f', P b f' → wp anyStop e (f b) Q (s.setFs f')) :
    wp anyStop e (onFs m >>= f) Q s :=
  wp_bind (wp_zoom (wp_mono hm hf))

end Frame

section Kept

/-- The inode `p` is in memory, in a block from the heap of the kernel. -/
def Shared (s : Heaped) (p : ℕ) : Prop := s.heapOf p = 0 ∧ p < s.fs.vol.nextInode

/-- The running thread has `pageDir` `d`, everything that leads to an inode leads to a shared one,
and so do the pointers in `L`. What was freed went back where it had come from. -/
structure Kept (d : ℕ) (L : Set ℕ) (s : Heaped) : Prop where
  pageDir : s.pageDir = d
  listed : ∀ p ∈ s.fs.vol.openInodes, s.Shared p
  root : s.Shared s.fs.vol.rootInode
  slots : ∀ i p, (s.fs.fileTable i).fdInode = some p → s.Shared p
  held : ∀ p ∈ L, s.Shared p
  freed : ∀ x ∈ s.freed, x.2 = s.heapOf x.1 ∧ x.1 < s.fs.vol.nextInode

theorem framed_kept : Framed (Kept d L) := by
  intro s w h hw
  have hs : ∀ p, s.Shared p → (s.setVol w).Shared p := fun p hp => ⟨hp.1, hw.nextInode ▸ hp.2⟩
  refine ⟨h.pageDir, fun p hp => hs p (h.listed p ?_), ?_, fun i p hp => hs p (h.slots i p hp),
    fun p hp => hs p (h.held p hp), fun x hx => ?_⟩
  · exact hw.openInodes ▸ hp
  · have hroot : (s.setVol w).fs.vol.rootInode = s.fs.vol.rootInode := hw.rootInode
    exact hroot ▸ hs _ h.root
  · exact ⟨(h.freed x hx).1, hw.nextInode ▸ (h.freed x hx).2⟩

theorem Kept.mono (h : Kept d L s) (hL : L' ⊆ L) : Kept d L' s :=
  { h with held := fun p hp => h.held p (hL hp) }

theorem Kept.hold (h : Kept d L s) (hp : s.Shared p) : Kept d (insert p L) s :=
  { h with held := by rintro q (rfl | hq); exacts [hp, h.held q hq] }

theorem Kept.setPageDir (h : Kept d L s) (d' : ℕ) : Kept d' L { s with pageDir := d' } :=
  ⟨rfl, h.listed, h.root, h.slots, h.held, h.freed⟩

theorem Kept.setFile (h : Kept d L s) {f : File} (hf : ∀ p, f.fdInode = some p → s.Shared p) :
    Kept d L (s.setFs (s.fs.setFile slot f)) := by
  refine ⟨h.pageDir, h.listed, h.root, fun i p hp => ?_, h.held, h.freed⟩
  by_cases hi : i = slot
  · exact hf p (by simpa [hi] using hp)
  · exact h.slots i p (by simpa [hi] using hp)

theorem Kept.setOpenInodes (h : Kept d L s) {l : List ℕ} (hl : ∀ p ∈ l, s.Shared p) :
    Kept d L (s.setVol (s.fs.vol.setOpenInodes l)) :=
  ⟨h.pageDir, hl, h.root, h.slots, h.held, h.freed⟩

/-- An inode is given back to the heap that it came from. -/
theorem Kept.free (h : Kept d L s) (hp : s.heapOf p = d) (hlt : p < s.fs.vol.nextInode) :
    Kept d L { s with freed := (p, s.pageDir) :: s.freed } := by
  refine ⟨h.pageDir, h.listed, h.root, h.slots, h.held, fun x hx => ?_⟩
  rcases List.mem_cons.mp hx with rfl | hx
  · exact ⟨h.pageDir.trans hp.symm, hlt⟩
  · exact h.freed x hx

/-- The inode `p` is new: nothing leads to it. -/
structure Fresh (d heap : ℕ) (L : Set ℕ) (p : ℕ) (s : Heaped) : Prop where
  kept : Kept d L s
  heap : s.heapOf p = heap
  lt : p < s.fs.vol.nextInode

theorem framed_fresh {heap : ℕ} : Framed (Fresh d heap L p) := fun s w h hw =>
  ⟨framed_kept s w h.kept hw, h.heap, hw.nextInode ▸ h.lt⟩

theorem wp_newInode_bind {heap : ℕ} {i : Inode} {f : ℕ → HeapedM α} {Q : α → Heaped → Prop}
    (h : Kept d L s) (hf : ∀ p s', Fresh d heap L p s' → wp anyStop e (f p) Q s') :
    wp anyStop e (newInode heap i >>= f) Q s := by
  unfold newInode
  rw [wp_bind_assoc]
  apply wp_onVol_call (P := fun p w => p = s.fs.vol.nextInode ∧ w = s.fs.vol.addInode i)
  · unfold Gogoos.newInode
    simp only [wp_get_bind, wp_modify_bind, wp_pure, and_self]
  rintro p w ⟨rfl, rfl⟩
  rw [wp_bind_assoc, wp_modify_bind, wp_pure_bind]
  apply hf
  have hne : ∀ q, q < s.fs.vol.nextInode → (if q = s.fs.vol.nextInode then heap else s.heapOf q) =
      s.heapOf q := fun q hq => if_neg hq.ne
  have hs : ∀ q, s.Shared q → (if q = s.fs.vol.nextInode then heap else s.heapOf q) = 0 ∧
      q < s.fs.vol.nextInode + 1 := fun q hq => ⟨(hne q hq.2).trans hq.1, Nat.lt_succ_of_lt hq.2⟩
  refine ⟨⟨h.pageDir, fun q hq => hs q (h.listed q hq), hs _ h.root,
    fun i q hq => hs q (h.slots i q hq), fun q hq => hs q (h.held q hq), fun x hx => ?_⟩, ?_, ?_⟩
  · obtain ⟨hheap, hlt⟩ := h.freed x hx
    exact ⟨hheap.trans (hne _ hlt).symm, Nat.lt_succ_of_lt hlt⟩
  · exact if_pos rfl
  · exact Nat.lt_succ_self _

end Kept

section Inodes

theorem wp_inodeOpen (h : Kept d L s) :
    wp anyStop e (inodeOpen ino) (fun p s' => Kept d (insert p L) s') s := by
  unfold inodeOpen
  rw [wp_get_bind]
  cases hfind : s.fs.vol.findOpen ino with
  | some p =>
    have hp : s.Shared p := h.listed p (List.mem_of_find?_eq_some hfind)
    apply wp_framed_bind framed_kept (h.hold hp) (keeps_setInode _)
    exact fun _ s' h' => wp_pure.mpr h'
  | none =>
    apply wp_framed_bind framed_kept h (keeps_sameList (keeps_inodeLocate ino))
    intro ip s₁ h₁
    obtain rfl := h.pageDir
    -- the block of the inode is taken with `pageDir` 0
    apply wp_modify_bind.mpr
    apply wp_framed_bind framed_kept (h₁.setPageDir 0) (keeps_sameList keeps_sysMallocUnchecked)
    intro _ s₂ h₂
    rw [wp_get_bind, h₂.pageDir]
    apply wp_modify_bind.mpr
    apply wp_framed_bind framed_kept (h₂.setPageDir s.pageDir)
      (keeps_sameList keeps_sysMallocUnchecked)
    intro _ s₃ h₃
    apply wp_framed_bind framed_kept h₃ (keeps_sameList (keeps_ideRead _ _))
    intro inodeBuf s₄ h₄
    apply wp_newInode_bind h₄
    intro p s₅ h₅
    have hp : s₅.Shared p := ⟨h₅.heap, h₅.lt⟩
    apply wp_onVol_call (P := fun _ w => w = s₅.fs.vol.setOpenInodes (p :: s₅.fs.vol.openInodes))
    · exact wp_modify.mpr rfl
    rintro _ w rfl
    apply wp_pure.mpr
    apply (h₅.kept.hold hp).setOpenInodes
    rintro q hq
    rcases List.mem_cons.mp hq with rfl | hq
    · exact hp
    · exact h₅.kept.listed q hq

theorem wp_inodeClose (h : Kept d L s) (hp : p ∈ L) :
    wp anyStop e (inodeClose p) (fun _ s' => Kept d L s') s := by
  unfold inodeClose
  apply wp_framed_bind framed_kept h (keeps_setInode _)
  intro _ s₁ h₁
  rw [wp_get_bind]
  apply wp_ite
  · intro _
    apply wp_onVol_call (P := fun _ w => w = s₁.fs.vol.setOpenInodes (s₁.fs.vol.openInodes.erase p))
    · exact wp_modify.mpr rfl
    rintro _ w rfl
    have h₂ := h₁.setOpenInodes (l := s₁.fs.vol.openInodes.erase p) fun q hq =>
      h₁.listed q (List.mem_of_mem_erase hq)
    apply wp_modify_bind.mpr
    apply wp_modify_bind.mpr
    apply wp_modify.mpr
    have h₃ := (h₂.setPageDir 0).free (h₁.held p hp).1 (h₁.held p hp).2
    rw [h₁.pageDir]
    exact h₃.setPageDir d
  · exact fun _ => wp_pure.mpr h₁

end Inodes

section Dirs

variable {dir : Dir} {path : List UInt8}

theorem wp_dirOpen (h : Kept d L s) :
    wp anyStop e (dirOpen ino) (fun dir s' => Kept d (insert dir.inode L) s') s := by
  unfold dirOpen
  apply wp_framed_bind framed_kept h (keeps_sameList keeps_sysMallocUnchecked)
  intro _ s₁ h₁
  exact wp_call (wp_inodeOpen h₁) fun p s₂ h₂ => wp_pure.mpr h₂

theorem wp_dirClose (h : Kept d (insert dir.inode L) s) :
    wp anyStop e (dirClose dir) (fun _ s' => Kept d L s') s := by
  have hL : L ⊆ insert dir.inode L := Set.subset_insert _ _
  unfold dirClose
  apply wp_ite
  · exact fun _ => wp_pure.mpr (h.mono hL)
  · exact fun _ => wp_mono (wp_inodeClose h (Set.mem_insert _ _)) fun _ _ h' => h'.mono hL

theorem wp_closeAndReturn {a : α} (h : Kept d (insert dir.inode L) s) :
    wp anyStop e (do
      dirClose dir
      return a) (fun _ s' => Kept d L s') s :=
  wp_call (wp_dirClose h) fun _ _ h' => wp_pure.mpr h'

theorem wp_searchLoop : ∀ fuel name subPath record parentIno deIno s,
    Kept d (insert record.parentDir.inode L) s →
      wp anyStop e (searchLoop fuel name subPath record parentIno deIno)
        (fun r s' => Kept d (insert r.2.parentDir.inode L) s') s := by
  intro fuel
  induction fuel with
  | zero => exact fun _ _ _ _ _ _ _ => wp_halt.mpr trivial
  | succ fuel ih =>
    intro name subPath record parentIno deIno s h
    unfold searchLoop
    apply wp_ite
    · intro _
      apply wp_call (wp_dirClose h)
      intro _ s₁ h₁
      exact wp_call (wp_dirOpen h₁) fun dir s₂ h₂ => wp_pure.mpr h₂
    · intro _
      rw [wp_assert_bind]
      refine ⟨fun _ => ?_, fun _ => trivial⟩
      apply wp_framed_bind framed_kept h (keeps_sameList (keeps_searchDirEntry _ _))
      rintro (_ | de) s₁ h₁
      · exact wp_pure.mpr h₁
      dsimp only
      apply wp_ite
      · intro _
        rw [wp_get_bind]
        apply wp_call (wp_dirClose h₁)
        intro _ s₂ h₂
        exact wp_call (wp_dirOpen h₂) fun dir s₃ h₃ => ih _ _ _ _ _ _ h₃
      intro _
      apply wp_ite
      · exact fun _ => wp_pure.mpr h₁
      · exact fun _ => ih _ _ _ _ _ _ h₁

theorem wp_searchFile (h : Kept d L s) :
    wp anyStop e (searchFile path) (fun r s' => Kept d (insert r.2.parentDir.inode L) s') s := by
  have hroot : Kept d (insert s.fs.vol.rootDir.inode L) s := h.hold h.root
  unfold searchFile
  rw [wp_get_bind]
  apply wp_ite
  · exact fun _ => wp_pure.mpr hroot
  · intro _
    rw [wp_assert_bind]
    refine ⟨fun _ => ?_, fun _ => trivial⟩
    apply wp_ask_bind
    exact fun t => wp_searchLoop _ _ _ _ _ _ _ hroot

theorem wp_sysOpenDir (h : Kept d L s) :
    wp anyStop e (sysOpenDir path) (fun _ s' => Kept d L s') s := by
  have hL : ∀ p, L ⊆ insert p L := fun p => Set.subset_insert p L
  unfold sysOpenDir
  rw [wp_assert_bind]
  refine ⟨fun _ => ?_, fun _ => trivial⟩
  apply wp_ite
  · exact fun _ => wp_get_bind.mpr (wp_pure.mpr h)
  intro _
  apply wp_call (wp_searchFile h)
  rintro ⟨_ | ino, record⟩ s₁ h₁
  · exact wp_pure.mpr (h₁.mono (hL _))
  apply wp_ite
  · intro _
    apply wp_call (wp_dirOpen (h₁.mono (hL _)))
    exact fun dir s₂ h₂ => wp_pure.mpr (h₂.mono (hL _))
  · exact fun _ => wp_pure.mpr (h₁.mono (hL _))

end Dirs

section Files

variable {dir : Dir} {name : List UInt8}

/-- Neither the thread nor its table of descriptors matters. -/
theorem Kept.congr (h : Kept d L s) (hvol : s'.fs.vol = s.fs.vol)
    (htable : s'.fs.fileTable = s.fs.fileTable) (hheap : s'.heapOf = s.heapOf)
    (hfreed : s'.freed = s.freed) : Kept s'.pageDir L s' := by
  have hs : ∀ p, s.Shared p → s'.Shared p := fun p hp => ⟨hheap ▸ hp.1, hvol ▸ hp.2⟩
  refine ⟨rfl, fun p hp => hs p (h.listed p (hvol ▸ hp)), hvol ▸ hs _ h.root,
    fun i p hp => hs p (h.slots i p (htable ▸ hp)), fun p hp => hs p (h.held p hp), fun x hx => ?_⟩
  rw [hheap, hvol]
  exact h.freed x (hfreed ▸ hx)

theorem Kept.setFs (h : Kept d L s) {f : Fs} (hvol : f.vol = s.fs.vol)
    (htable : f.fileTable = s.fs.fileTable) : Kept d L (s.setFs f) := by
  have hs : Kept (s.setFs f).pageDir L (s.setFs f) := h.congr hvol htable rfl rfl
  exact h.pageDir ▸ hs

theorem wp_pcbFdInstall (h : Kept d L s) :
    wp anyStop e (onFs (pcbFdInstall slot)) (fun _ s' => Kept d L s') s := by
  apply wp_zoom
  unfold pcbFdInstall
  rw [wp_get_bind]
  cases freeFdFrom s.fs.fdTable 4 3 with
  | none => exact wp_pure.mpr h
  | some k =>
    simp only [wp_modify_bind, wp_pure]
    exact h.setFs rfl rfl

theorem wp_setFile_bind {f : File} {g : Unit → HeapedM α} {Q : α → Heaped → Prop} :
    wp anyStop e (onFs (setFile slot f) >>= g) Q s ↔
      wp anyStop e (g ()) Q (s.setFs (s.fs.setFile slot f)) := Iff.rfl

/-- Looking for a free slot changes nothing. -/
theorem wp_getFreeSlot_bind {f : Option ℕ → HeapedM α} {Q : α → Heaped → Prop}
    (h : ∀ slot, wp anyStop e (f slot) Q s) :
    wp anyStop e (onFs getFreeSlotInGlobal >>= f) Q s := by
  apply wp_onFs_call (P := fun _ f' => f' = s.fs)
  · unfold getFreeSlotInGlobal
    rw [wp_get_bind, wp_pure]
  · rintro slot _ rfl
    exact h slot

theorem wp_fileOpen (h : Kept d L s) :
    wp anyStop e (fileOpen ino flag) (fun _ s' => Kept d L s') s := by
  unfold fileOpen
  apply wp_getFreeSlot_bind
  rintro (_ | slot)
  · exact wp_pure.mpr h
  apply wp_call (wp_inodeOpen h)
  intro p s₁ h₁
  have hL : L ⊆ insert p L := Set.subset_insert _ _
  have hp : p ∈ insert p L := Set.mem_insert _ _
  have h₂ : Kept d (insert p L) (s₁.setFs (s₁.fs.setFile slot ⟨0, flag, some p⟩)) :=
    h₁.setFile fun q hq => Option.some.inj hq ▸ h₁.held p hp
  rw [wp_setFile_bind]
  apply wp_ite
  · intro _
    rw [wp_get_bind]
    apply wp_ite
    · intro _
      apply wp_framed_bind framed_kept (h₂.mono hL) (keeps_setInode _)
      exact fun _ s₃ h₃ => wp_pcbFdInstall h₃
    · intro _
      apply wp_call (wp_inodeClose h₂ hp)
      intro _ s₃ h₃
      rw [wp_setFile_bind]
      exact wp_pure.mpr ((h₃.mono hL).setFile fun q hq => by simp at hq)
  · exact fun _ => wp_pcbFdInstall (h₂.mono hL)

theorem wp_fileClose (h : Kept d L s) :
    wp anyStop e (fileClose slot) (fun _ s' => Kept d L s') s := by
  unfold fileClose
  apply wp_onFs_call (P := fun p f' => (s.fs.fileTable slot).fdInode = some p ∧ f' = s.fs)
  · unfold slotInode
    rw [wp_get_bind]
    cases hp : (s.fs.fileTable slot).fdInode with
    | none => exact wp_halt.mpr trivial
    | some p => exact wp_pure.mpr ⟨rfl, rfl⟩
  rintro p _ ⟨hp, rfl⟩
  have hL : L ⊆ insert p L := Set.subset_insert _ _
  apply wp_framed_bind framed_kept (h.hold (h.slots slot p hp)) (keeps_setInode _)
  intro _ s₁ h₁
  apply wp_call (wp_inodeClose h₁ (Set.mem_insert _ _))
  intro _ s₂ h₂
  rw [wp_get_bind, wp_setFile_bind]
  exact wp_pure.mpr ((h₂.mono hL).setFile fun q hq => by simp at hq)

theorem wp_sysClose {fd : ℤ} (h : Kept d L s) :
    wp anyStop e (sysClose fd) (fun _ s' => Kept d L s') s := by
  unfold sysClose
  apply wp_ite
  · intro _
    apply wp_onFs_call (P := fun _ f' => f' = s.fs)
    · unfold fdLocalToGlobal
      rw [wp_get_bind, wp_assert_bind]
      exact ⟨fun _ => wp_pure.mpr rfl, fun _ => trivial⟩
    rintro globalFd _ rfl
    apply wp_call (wp_fileClose h)
    intro ret s₁ h₁
    apply wp_onFs_call (P := fun _ f' => f'.vol = s₁.fs.vol ∧ f'.fileTable = s₁.fs.fileTable)
    · exact wp_modify.mpr ⟨rfl, rfl⟩
    · exact fun _ f' hf => wp_pure.mpr (h₁.setFs hf.1 hf.2)
  · exact fun _ => wp_pure.mpr h

end Files

section Creation

variable {dir : Dir} {name path : List UInt8} {flags : ℕ}

/-- What `fileCreate` does before it links the new inode: the slot and the inode, `none` when it
has rolled back. -/
def makeInode (parentDir : Dir) (fileName : List UInt8) (flag : ℕ) :
    HeapedM (Option (ℕ × ℕ)) := do
  if !(← onVol sysMalloc) then return none
  match ← onVol inodeBitMapAlloc with
  | none => return none
  | some ino =>
    if !(← onVol sysMalloc) then
      onVol (setInodeBit ino false)
      return none
    let s ← get
    let newFileInode ← newInode s.pageDir (inodeInit ino)
    match ← onFs getFreeSlotInGlobal with
    | none =>
      sysFree newFileInode
      onVol (setInodeBit ino false)
      return none
    | some fdIdx =>
      onFs (setFile fdIdx ⟨0, flag, some newFileInode⟩)
      onVol (modifyInode newFileInode fun i => { i with writeDeny := false })
      let newDirEntry ← onVol (createDirEntry fileName ino FileType.regular)
      if !(← onVol (syncDirEntry parentDir newDirEntry)) then
        onFs (setFile fdIdx ⟨0, 0, none⟩)
        sysFree newFileInode
        onVol (setInodeBit ino false)
        return none
      let s ← get
      onVol (inodeSync (s.fs.vol.inodes parentDir.inode))
      onVol (inodeSync (s.fs.vol.inodes newFileInode))
      onVol (bitMapSync ino .inodeBitmap)
      return some (fdIdx, newFileInode)

/-- The rest of `fileCreate` after `makeInode`. -/
def linkInode : Option (ℕ × ℕ) → HeapedM ℤ
  | none => return -1
  | some (fdIdx, newFileInode) => do
    onVol (modify fun v => v.setOpenInodes (newFileInode :: v.openInodes))
    onVol (modifyInode newFileInode fun i => { i with openCnt := 1 })
    onFs (pcbFdInstall fdIdx)

theorem fileCreate_eq (dir : Dir) (name : List UInt8) (flag : ℕ) :
    fileCreate dir name flag = (makeInode dir name flag >>= linkInode) := by
  unfold fileCreate makeInode
  rw [bind_bind]
  refine bind_congr fun ok => ?_
  cases ok with
  | false => rfl
  | true =>
    simp only [Bool.not_true, Bool.false_eq_true, if_false]
    rw [bind_bind]
    refine bind_congr fun ino => ?_
    cases ino with
    | none => rfl
    | some ino =>
      dsimp only
      rw [bind_bind]
      refine bind_congr fun ok => ?_
      cases ok with
      | false => rfl
      | true =>
        simp only [Bool.not_true, Bool.false_eq_true, if_false, bind_bind]
        refine bind_congr fun s => bind_congr fun p => bind_congr fun slot => ?_
        cases slot with
        | none => rfl
        | some slot =>
          simp only [bind_bind]
          refine bind_congr fun _ => bind_congr fun _ => bind_congr fun de => bind_congr fun ok => ?_
          cases ok with
          | false => rfl
          | true =>
            simp only [Bool.not_true, Bool.false_eq_true, if_false, bind_bind]
            rfl

/-- The new inode `p` is in a slot, and nothing else leads to it. -/
structure Made (d : ℕ) (L : Set ℕ) (slot p : ℕ) (s : Heaped) : Prop where
  rest : Fresh d d L p (s.setFs (s.fs.setFile slot ⟨0, 0, none⟩))
  inode : (s.fs.fileTable slot).fdInode = some p

theorem framed_made : Framed (Made d L slot p) := fun _ w h hw =>
  ⟨framed_fresh _ w h.rest hw, h.inode⟩

theorem setFile_setFile (fs : Fs) (f g : File) :
    (fs.setFile slot f).setFile slot g = fs.setFile slot g := by
  have htable : (fun i => if i = slot then g else if i = slot then f else fs.fileTable i) =
      fun i => if i = slot then g else fs.fileTable i := by
    funext i
    split_ifs <;> rfl
  exact congrArg (fun t => (⟨fs.vol, t, fs.fdTable⟩ : Fs)) htable

theorem Fresh.place (h : Fresh d d L p s) (slot flag : ℕ) :
    Made d L slot p (s.setFs (s.fs.setFile slot ⟨0, flag, some p⟩)) := by
  have hs : (s.setFs (s.fs.setFile slot ⟨0, flag, some p⟩)).fs.setFile slot ⟨0, 0, none⟩ =
      s.fs.setFile slot ⟨0, 0, none⟩ := setFile_setFile _ _ _
  refine ⟨⟨?_, h.heap, h.lt⟩, by simp⟩
  rw [hs]
  exact h.kept.setFile fun q hq => by simp at hq

/-- A new inode from the heap of the kernel may be kept. -/
theorem Made.kept (h : Made 0 L slot p s) : Kept 0 L s := by
  have hs : Kept 0 L (s.setFs ((s.fs.setFile slot ⟨0, 0, none⟩).setFile slot (s.fs.fileTable slot))) :=
    h.rest.kept.setFile fun q hq => by
      obtain rfl : p = q := Option.some.inj (h.inode.symm.trans hq)
      exact ⟨h.rest.heap, h.rest.lt⟩
  rw [setFile_setFile, setFile_self] at hs
  exact hs

/-- After `makeInode`. -/
def MadeOrKept (d : ℕ) (L : Set ℕ) : Option (ℕ × ℕ) → Heaped → Prop
  | none, s => Kept d L s
  | some (slot, p), s => Made d L slot p s

theorem wp_freeAndReturn (h : Fresh d d L p s) :
    wp anyStop e (do
      sysFree p
      onVol (setInodeBit ino false)
      return none) (MadeOrKept d L) s := by
  apply wp_modify_bind.mpr
  apply wp_framed_bind framed_kept (h.kept.free h.heap h.lt)
    (keeps_sameList (keeps_setInodeBit _ _))
  exact fun _ s' h' => wp_pure.mpr h'

theorem wp_makeInode (h : Kept d L s) :
    wp anyStop e (makeInode dir name flag) (MadeOrKept d L) s := by
  unfold makeInode
  apply wp_framed_bind framed_kept h (keeps_sameList keeps_sysMalloc)
  intro ok s₁ h₁
  apply wp_ite
  · exact fun _ => wp_pure.mpr h₁
  intro _
  apply wp_framed_bind framed_kept h₁ (keeps_sameList keeps_inodeBitMapAlloc)
  rintro (_ | ino) s₂ h₂
  · exact wp_pure.mpr h₂
  apply wp_framed_bind framed_kept h₂ (keeps_sameList keeps_sysMalloc)
  intro ok s₃ h₃
  apply wp_ite
  · intro _
    apply wp_framed_bind framed_kept h₃ (keeps_sameList (keeps_setInodeBit _ _))
    exact fun _ s' h' => wp_pure.mpr h'
  intro _
  rw [wp_get_bind, h₃.pageDir]
  apply wp_newInode_bind h₃
  intro p s₄ h₄
  apply wp_getFreeSlot_bind
  rintro (_ | slot)
  · exact wp_freeAndReturn h₄
  rw [wp_setFile_bind]
  have h₅ := h₄.place slot flag
  apply wp_framed_bind framed_made h₅ (keeps_setInode _)
  intro _ s₆ h₆
  apply wp_framed_bind framed_made h₆ (keeps_sameList (keeps_createDirEntry _ _ _))
  intro de s₇ h₇
  apply wp_framed_bind framed_made h₇ (keeps_sameList (keeps_syncDirEntry _ _))
  intro ok s₈ h₈
  apply wp_ite
  · intro _
    rw [wp_setFile_bind]
    exact wp_freeAndReturn h₈.rest
  intro _
  rw [wp_get_bind]
  apply wp_framed_bind framed_made h₈ (keeps_sameList (keeps_inodeSync _))
  intro _ s₉ h₉
  apply wp_framed_bind framed_made h₉ (keeps_sameList (keeps_inodeSync _))
  intro _ s₁₀ h₁₀
  apply wp_framed_bind framed_made h₁₀ (keeps_sameList (keeps_bitMapSync _ _))
  exact fun _ s' h' => wp_pure.mpr h'

/-- Linking makes the inode one that others come across. -/
theorem wp_linkInode {r : Option (ℕ × ℕ)} (h : MadeOrKept d L r s) (hd : r ≠ none → d = 0) :
    wp anyStop e (linkInode r) (fun _ s' => Kept d L s') s := by
  rcases r with _ | ⟨slot, p⟩
  · exact wp_pure.mpr h
  obtain rfl := hd (by simp)
  have hkept : Kept 0 L s := Made.kept h
  have hp : s.Shared p := ⟨h.rest.heap, h.rest.lt⟩
  unfold linkInode
  apply wp_onVol_call (P := fun _ w => w = s.fs.vol.setOpenInodes (p :: s.fs.vol.openInodes))
  · exact wp_modify.mpr rfl
  rintro _ w rfl
  have h₁ := hkept.setOpenInodes (l := p :: s.fs.vol.openInodes) fun q hq =>
    (List.mem_cons.mp hq).elim (fun hqp => hqp ▸ hp) (hkept.listed q)
  apply wp_framed_bind framed_kept h₁ (keeps_setInode _)
  exact fun _ s₂ h₂ => wp_pcbFdInstall h₂

/-- `sysOpen` gets as far as linking a new inode. -/
def Creates (e : Heap) (path : List UInt8) (flags : ℕ) (s : Heaped) : Prop :=
  path.getLast? ≠ some slash ∧ ∃ record s₁ depth name x s₂,
    Returns e (searchFile path) s (none, record) s₁ ∧ record.fileType ≠ FileType.directory ∧
      Returns e (pathDepthCnt path) s.fs.vol depth s.fs.vol ∧
        Returns e (pathDepthCnt record.searchPath) s₁.fs.vol depth s₁.fs.vol ∧
          Returns e (lastName record.searchPath) s₁.fs.vol name s₁.fs.vol ∧
            Returns e (makeInode record.parentDir name flags) s₁ (some x) s₂

/-- A read-only call, with the run that it makes. -/
theorem wp_reads_bind {m : VolM β} {f : β → HeapedM α} {Q : α → Heaped → Prop} (hm : Keeps Eq m)
    (hf : ∀ b, Returns e m s.fs.vol b s.fs.vol → wp anyStop e (f b) Q s) :
    wp anyStop e (onVol m >>= f) Q s := by
  apply wp_onVol_call (wp_and_returns (hm e s.fs.vol))
  rintro b w ⟨rfl, hb⟩
  exact hf b hb

theorem wp_thenDirClose {m : HeapedM ℤ} (h : wp anyStop e m
    (fun _ s' => Kept d (insert dir.inode L) s') s) : wp anyStop e (do
      let fd ← m
      dirClose dir
      return fd) (fun _ s' => Kept d L s') s :=
  wp_call h fun _ _ h' => wp_closeAndReturn h'

/-- A user process must not get as far as creating a file. -/
theorem wp_sysOpen (h : Kept d L s) (hc : d = 0 ∨ flags &&& OFlags.creat = 0 ∨
    ¬Creates e path flags s) :
    wp anyStop e (sysOpen path flags) (fun _ s' => Kept d L s') s := by
  unfold sysOpen
  apply wp_ite
  · exact fun _ => wp_pure.mpr h
  intro hlast
  rw [wp_assert_bind]
  refine ⟨fun _ => ?_, fun _ => trivial⟩
  apply wp_reads_bind (keeps_pathDepthCnt _)
  intro depth hdepth
  apply wp_call (wp_and_returns (wp_searchFile h))
  rintro ⟨ino, record⟩ s₁ ⟨h₁, hret⟩
  dsimp only
  apply wp_ite
  · exact fun _ => wp_closeAndReturn h₁
  intro hdir
  apply wp_reads_bind (keeps_pathDepthCnt _)
  intro depth' hdepth'
  apply wp_ite
  · exact fun _ => wp_closeAndReturn h₁
  intro hne
  obtain rfl : depth = depth' := not_not.mp hne
  apply wp_reads_bind (keeps_lastName _)
  intro name hname
  cases ino with
  | none =>
    apply wp_ite
    · exact fun _ => wp_closeAndReturn h₁
    intro hcreat
    apply wp_thenDirClose
    rw [fileCreate_eq]
    apply wp_call (wp_and_returns (wp_makeInode h₁))
    rintro r s₂ ⟨h₂, hr⟩
    apply wp_linkInode h₂
    intro hsome
    obtain ⟨x, rfl⟩ := Option.ne_none_iff_exists'.mp hsome
    have hcreates : Creates e path flags s :=
      ⟨hlast, record, s₁, depth, name, x, s₂, hret, hdir, hdepth, hdepth', hname, hr⟩
    rcases hc with hc | hc | hc
    · exact hc
    · exact absurd hc (not_not.mp hcreat)
    · exact absurd hcreates hc
  | some ino =>
    apply wp_ite
    · exact fun _ => wp_closeAndReturn h₁
    · intro _
      apply wp_thenDirClose
      exact wp_fileOpen h₁

end Creation

end Heaped

end Gogoos
