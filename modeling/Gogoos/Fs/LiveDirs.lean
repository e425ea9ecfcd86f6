import Gogoos.Fs.LiveHeap
import Gogoos.Fs.Firm

/-!
# The blocks of directories and inodes

The search of a path and `sysMkdir` with the blocks that they take from the heap. What they leave
in use is what they had found in use, except for the directory that the search leaves open.
-/

namespace Gogoos

open Program

namespace Alive

/-- A pointer to a `Dir`. `rootDir` lies in no block of the heap. -/
structure DirPtr where
  dir : Dir
  addr : ℕ

/-- The record of a search with the address of its directory. -/
structure Search where
  searchPath : List UInt8
  parentDir : DirPtr
  fileType : ℕ

def Search.record (r : Search) : PathSearchRecord := ⟨r.searchPath, r.parentDir.dir, r.fileType⟩

section Inodes

/-- The address of a block whose allocation is not checked. -/
def sysMallocUnchecked : AliveM ℕ := do
  onVol Gogoos.sysMallocUnchecked
  let s ← get
  modify fun s => s.take s.fresh
  return s.fresh

@[simps -fullyApplied] def setInodeBufs (s : Alive) (l : Finset ℕ) : Alive :=
  { s with inodeBufs := l }

def newInode (i : Inode) : AliveM ℕ := do
  let p ← onVol (Gogoos.newInode i)
  modify fun s => s.setInodeBufs (insert p s.inodeBufs)
  return p

/-- `sysFree` of an inode. -/
def freeInode (p : ℕ) : AliveM Unit := modify fun s => s.setInodeBufs (s.inodeBufs.erase p)

/-- `inodeOpen` once the inode has a block and the disk is read. -/
def linkInode (i : Inode) : AliveM ℕ := do
  let p ← newInode i
  onVol (modify fun v => v.setOpenInodes (p :: v.openInodes))
  return p

def readInode (ip : InodePosition) : AliveM ℕ := do
  let inodeBuf ← onVol (ideRead ip.secLba (if ip.crossSec then 2 else 1))
  linkInode { Inode.ofBytes (fun k => inodeBuf (ip.byteOffset + k)) with openCnt := 1 }

def inodeOpen (ino : ℕ) : AliveM ℕ := do
  let s ← get
  match s.fs.vol.findOpen ino with
  | some p =>
    onVol (modifyInode p fun i => { i with openCnt := i.openCnt + 1 })
    return p
  | none =>
    let ip ← onVol (inodeLocate ino)
    onVol Gogoos.sysMallocUnchecked
    let inodeBuf ← sysMallocUnchecked
    let p ← readInode ip
    sysFree inodeBuf
    return p

def inodeClose (p : ℕ) : AliveM Unit := do
  onVol (modifyInode p fun i =>
    { i with openCnt := if i.openCnt = 0 then 2 ^ 32 - 1 else i.openCnt - 1 })
  let s ← get
  if (s.fs.vol.inodes p).openCnt = 0 then
    onVol (modify fun v => v.setOpenInodes (v.openInodes.erase p))
    freeInode p

end Inodes

section Dirs

def dirOpen (ino : ℕ) : AliveM DirPtr := do
  let dir ← sysMallocUnchecked
  let p ← inodeOpen ino
  return ⟨⟨false, p⟩, dir⟩

def dirClose (dir : DirPtr) : AliveM Unit := do
  if dir.dir.isRoot then return
  inodeClose dir.dir.inode
  sysFree dir.addr

/-- The search of a directory with its sector buffer. -/
def searchWith (dir : Dir) (name : List UInt8) : AliveM (Option DirEntry) := do
  let s ← get
  let allBlocks ← onVol (loadAllBlocks (s.fs.vol.inodes dir.inode))
  let buf ← sysMallocUnchecked
  let de ← onVol (searchBlocks allBlocks name 140 0)
  sysFree buf
  return de

def searchDirEntry (dir : Dir) (name : List UInt8) : AliveM (Option DirEntry) := do
  match ← sysMalloc with
  | none => return none
  | some allBlocks =>
    let de ← searchWith dir name
    sysFree allBlocks
    return de

def syncDirEntry (parentDir : Dir) (de : DirEntry) : AliveM Bool := do
  let s ← get
  let dirInode := s.fs.vol.inodes parentDir.inode
  assert (dirInode.size % s.fs.vol.superBlock.dirEntrySize = 0)
  match ← sysMalloc with
  | none => return false
  | some allBlocks =>
    let ok ← onVol (do
      let allBlocks ← loadAllBlocks dirInode
      syncBlocks parentDir.inode allBlocks de 140 0)
    sysFree allBlocks
    return ok

def searchLoop : (fuel : ℕ) → (name : List UInt8) → (subPath : Option (List UInt8)) →
    (record : Search) → (parentIno deIno : ℕ) → AliveM (Option ℕ × Search)
  | 0, _, _, _, _, _ => halt
  | fuel + 1, name, subPath, record, parentIno, deIno => do
    if name = [] then
      dirClose record.parentDir
      let parentDir ← dirOpen parentIno
      return (toIno deIno, { record with parentDir, fileType := FileType.directory })
    else
      assert (record.searchPath.length < 512)
      let record := { record with searchPath := record.searchPath ++ slash :: name }
      match ← searchDirEntry record.parentDir.dir name with
      | none => return (none, record)
      | some de =>
        let next := pathNext subPath
        if de.fileType = FileType.directory then
          let s ← get
          let parentIno := (s.fs.vol.inodes record.parentDir.dir.inode).ino
          dirClose record.parentDir
          let parentDir ← dirOpen de.ino
          searchLoop fuel next.1 next.2 { record with parentDir } parentIno de.ino
        else if de.fileType = FileType.regular then
          return (toIno de.ino, { record with fileType := FileType.regular })
        else
          searchLoop fuel next.1 next.2 record parentIno de.ino

/-- The pointer to `rootDir`. -/
def rootPtr (s : Alive) : DirPtr := ⟨s.fs.vol.rootDir, 0⟩

def searchFile (pathName : List UInt8) : AliveM (Option ℕ × Search) := do
  let s ← get
  if isRootPath pathName then
    return (some 0, ⟨[], s.rootPtr, FileType.directory⟩)
  else
    assert (pathName.head? = some slash ∧ pathName.length < 512)
    let word ← ask Heap.junk
    let first := pathParse pathName
    searchLoop (pathName.length + 1) first.1 first.2 ⟨[], s.rootPtr, FileType.unknown⟩ 0 word

end Dirs

section Erasure

variable {α β γ : Type} {g : γ → α}

/-- Without the heap and the addresses, `m'` is the call `m` on the volume. -/
abbrev ErasesVol (g : γ → α) (m' : AliveM γ) (m : VolM α) : Prop :=
  ErasesAs (fun s : Alive => s.fs.vol) g m' m

abbrev ErasesToVol (m' : AliveM α) (m : VolM α) : Prop :=
  Erases (fun s : Alive => s.fs.vol) m' m

theorem vol_onVol (m : VolM α) : ErasesToVol (onVol m) m := by
  intro e t s
  simp only [onVol, onFs, Gogoos.onVol, zoom]
  cases m e t s.fs.vol <;> rfl

theorem vol_modify {g : Alive → Alive} (hg : ∀ s, (g s).fs.vol = s.fs.vol) :
    ErasesToVol (modify g) (pure ()) := fun _ t s => congrArg (Outcome.returned () t) (hg s)

theorem vol_sysMallocUnchecked_bind {f' : ℕ → AliveM α} {m : VolM α}
    (h : ∀ a, ErasesToVol (f' a) m) : ErasesToVol (sysMallocUnchecked >>= f') (do
      Gogoos.sysMallocUnchecked
      m) := by
  unfold sysMallocUnchecked
  simp only [bind_bind]
  apply (vol_onVol Gogoos.sysMallocUnchecked).bind
  intro _
  apply Erases.ghost_get
  intro s
  exact .ghost_modify (fun _ => rfl) (h s.fresh)

theorem vol_sysMalloc_bind {f' : Option ℕ → AliveM α} {n f : VolM α}
    (hnone : ErasesToVol (f' none) n) (hsome : ∀ a, ErasesToVol (f' (some a)) f) :
    ErasesToVol (sysMalloc >>= f') (do
      if !(← Gogoos.sysMalloc) then n
      else f) := by
  unfold sysMalloc
  rw [bind_bind]
  apply (vol_onVol Gogoos.sysMalloc).bind
  intro ok
  cases ok with
  | false => exact hnone
  | true =>
    simp only [Bool.not_true, Bool.false_eq_true, if_false, bind_bind]
    apply Erases.ghost_get
    intro s
    exact .ghost_modify (fun _ => rfl) (hsome s.fresh)

theorem vol_sysFree_bind {a : ℕ} {f' : Unit → AliveM α} {m : VolM α}
    (h : ErasesToVol (f' ()) m) : ErasesToVol (sysFree a >>= f') m :=
  .ghost_modify (fun _ => rfl) h

/-- A buffer is freed after its last use. -/
theorem vol_thenFree {m' : AliveM α} {m : VolM α} {a : ℕ} (h : ErasesToVol m' m) :
    ErasesToVol (do
      let r ← m'
      sysFree a
      return r) m := h.ghost_after fun r => vol_sysFree_bind (erases_pure r)

theorem vol_linkInode (i : Inode) : ErasesToVol (linkInode i) (do
    let p ← Gogoos.newInode i
    modify fun v => v.setOpenInodes (p :: v.openInodes)
    return p) := by
  unfold linkInode newInode
  simp only [bind_bind]
  apply (vol_onVol _).bind
  intro p
  apply Erases.ghost_modify
  · exact fun _ => rfl
  have hlink : ErasesToVol (do
      onVol (modify fun v => v.setOpenInodes (p :: v.openInodes))
      return p) (do
      modify fun v => v.setOpenInodes (p :: v.openInodes)
      return p) := (vol_onVol _).bind fun _ => erases_pure p
  exact hlink

theorem vol_inodeOpen (ino : ℕ) : ErasesToVol (inodeOpen ino) (Gogoos.inodeOpen ino) := by
  apply Erases.get_bind
  intro s
  cases s.fs.vol.findOpen ino with
  | some p => exact (vol_onVol _).bind fun _ => erases_pure p
  | none =>
    apply (vol_onVol _).bind
    intro ip
    apply (vol_onVol _).bind
    intro _
    apply vol_sysMallocUnchecked_bind
    intro inodeBuf
    apply vol_thenFree
    exact (vol_onVol _).bind fun bytes => vol_linkInode _

theorem vol_inodeClose (p : ℕ) : ErasesToVol (inodeClose p) (Gogoos.inodeClose p) := by
  apply (vol_onVol _).bind
  intro _
  apply Erases.get_bind
  intro s
  apply Erases.ite
  · apply (vol_onVol _).ghost_after
    exact fun _ => vol_modify fun _ => rfl
  · exact erases_pure ()

theorem vol_dirOpen (ino : ℕ) : ErasesVol DirPtr.dir (dirOpen ino) (Gogoos.dirOpen ino) := by
  unfold ErasesVol ErasesAs dirOpen
  rw [bind_bind]
  apply vol_sysMallocUnchecked_bind
  intro a
  rw [bind_bind]
  exact (vol_inodeOpen ino).bind fun p => erases_pure _

theorem vol_dirClose (dir : DirPtr) : ErasesToVol (dirClose dir) (Gogoos.dirClose dir.dir) := by
  apply Erases.ite
  · exact erases_pure ()
  · exact (vol_inodeClose _).ghost_after fun _ => vol_modify fun _ => rfl

theorem vol_searchDirEntry (dir : Dir) (name : List UInt8) :
    ErasesToVol (searchDirEntry dir name) (Gogoos.searchDirEntry dir name) := by
  apply vol_sysMalloc_bind
  · exact erases_pure none
  intro a
  apply vol_thenFree
  apply Erases.get_bind
  intro s
  apply (vol_onVol _).bind
  intro allBlocks
  apply vol_sysMallocUnchecked_bind
  intro buf
  exact vol_thenFree (vol_onVol _)

theorem vol_syncDirEntry (dir : Dir) (de : DirEntry) :
    ErasesToVol (syncDirEntry dir de) (Gogoos.syncDirEntry dir de) := by
  apply Erases.get_bind
  intro s
  apply erases_assert.bind
  intro _
  apply vol_sysMalloc_bind
  · exact erases_pure false
  · exact fun a => vol_thenFree (vol_onVol _)

/-- The results of a search, without the address. -/
def dropAddr (found : Option ℕ × Search) : Option ℕ × PathSearchRecord := (found.1, found.2.record)

theorem vol_searchLoop : ∀ fuel name subPath record parentIno deIno,
    ErasesVol dropAddr (searchLoop fuel name subPath record parentIno deIno)
      (Gogoos.searchLoop fuel name subPath record.record parentIno deIno) := by
  intro fuel
  induction fuel with
  | zero => exact fun _ _ _ _ _ => erasesAs_halt
  | succ fuel ih =>
    intro name subPath record parentIno deIno
    apply ErasesAs.ite
    · apply (vol_dirClose _).erasesAs.bindAs
      intro _
      exact (vol_dirOpen _).bindAs fun dir => erasesAs_pure _
    · apply erases_assert.erasesAs.bindAs
      intro _
      apply (vol_searchDirEntry _ _).erasesAs.bindAs
      intro de
      cases de with
      | none => exact erasesAs_pure _
      | some de =>
        apply ErasesAs.ite
        · apply ErasesAs.get_bind
          intro s
          apply (vol_dirClose _).erasesAs.bindAs
          intro _
          exact (vol_dirOpen _).bindAs fun dir => ih _ _ _ _ _
        · exact ErasesAs.ite (erasesAs_pure _) (ih _ _ _ _ _)

theorem vol_searchFile (path : List UInt8) :
    ErasesVol dropAddr (searchFile path) (Gogoos.searchFile path) := by
  apply ErasesAs.get_bind
  intro s
  apply ErasesAs.ite
  · exact erasesAs_pure _
  · apply erases_assert.erasesAs.bindAs
    intro _
    apply erases_ask.erasesAs.bindAs
    exact fun word => vol_searchLoop _ _ _ _ _ _

end Erasure

end Alive

end Gogoos
