import Gogoos.Fs.OpenFiles
import Gogoos.Logic.Erase
import Gogoos.Logic.Run

/-!
# The heaps of the inodes in memory

`sysMalloc` and `sysFree` work on the heap of the kernel or on that of the running process, as
`pageDir` of the running thread says. Here the calls that make and free inodes run with `pageDir`
in the state, and each inode remembers the heap that its block was taken from.
-/

namespace Gogoos

open Program

structure Heaped where
  fs : Fs
  /-- `pageDir` of the running thread, 0 for `NULL`. -/
  pageDir : ℕ
  /-- Whose heap the block of an inode was taken from: a page directory, 0 for the kernel. -/
  heapOf : ℕ → ℕ
  /-- The inodes given to `sysFree`, newest first, each with the heap that `sysFree` worked on. -/
  freed : List (ℕ × ℕ)

abbrev HeapedM (α : Type) : Type := Program Heap Heaped α

namespace Heaped

section Inodes

def onFs {α : Type} (m : FsM α) : HeapedM α := zoom Heaped.fs (fun f s => { s with fs := f }) m

def onVol {α : Type} (m : VolM α) : HeapedM α := onFs (Gogoos.onVol m)

def setPageDir (pageDir : ℕ) : HeapedM Unit := modify fun s => { s with pageDir := pageDir }

/-- The inode whose block was taken from `heap`. -/
def newInode (heap : ℕ) (i : Inode) : HeapedM ℕ := do
  let p ← onVol (Gogoos.newInode i)
  modify fun s => { s with heapOf := fun q => if q = p then heap else s.heapOf q }
  return p

/-- `sysFree` of an inode. -/
def sysFree (p : ℕ) : HeapedM Unit := modify fun s => { s with freed := (p, s.pageDir) :: s.freed }

/-- `pageDir` is `NULL` while the block of the inode is allocated, but not for the buffer. -/
def inodeOpen (ino : ℕ) : HeapedM ℕ := do
  let s ← get
  match s.fs.vol.findOpen ino with
  | some p =>
    onVol (modifyInode p fun i => { i with openCnt := i.openCnt + 1 })
    return p
  | none =>
    let ip ← onVol (inodeLocate ino)
    let curPageDirBak := s.pageDir
    setPageDir 0
    onVol sysMallocUnchecked
    let s ← get
    let heap := s.pageDir
    setPageDir curPageDirBak
    onVol sysMallocUnchecked
    let inodeBuf ← onVol (ideRead ip.secLba (if ip.crossSec then 2 else 1))
    let p ← newInode heap
      { Inode.ofBytes (fun k => inodeBuf (ip.byteOffset + k)) with openCnt := 1 }
    onVol (modify fun v => v.setOpenInodes (p :: v.openInodes))
    return p

def inodeClose (p : ℕ) : HeapedM Unit := do
  onVol (modifyInode p fun i =>
    { i with openCnt := if i.openCnt = 0 then 2 ^ 32 - 1 else i.openCnt - 1 })
  let s ← get
  if (s.fs.vol.inodes p).openCnt = 0 then
    onVol (modify fun v => v.setOpenInodes (v.openInodes.erase p))
    let curPageDirBak := s.pageDir
    setPageDir 0
    sysFree p
    setPageDir curPageDirBak

end Inodes

section Dirs

def dirOpen (ino : ℕ) : HeapedM Dir := do
  onVol sysMallocUnchecked
  let p ← inodeOpen ino
  return ⟨false, p⟩

def dirClose (dir : Dir) : HeapedM Unit :=
  if dir.isRoot then pure () else inodeClose dir.inode

def searchLoop : (fuel : ℕ) → (name : List UInt8) → (subPath : Option (List UInt8)) →
    (record : PathSearchRecord) → (parentIno deIno : ℕ) → HeapedM (Option ℕ × PathSearchRecord)
  | 0, _, _, _, _, _ => halt
  | fuel + 1, name, subPath, record, parentIno, deIno => do
    if name = [] then
      dirClose record.parentDir
      let parentDir ← dirOpen parentIno
      return (toIno deIno, { record with parentDir, fileType := FileType.directory })
    else
      assert (record.searchPath.length < 512)
      let record := { record with searchPath := record.searchPath ++ slash :: name }
      match ← onVol (searchDirEntry record.parentDir name) with
      | none => return (none, record)
      | some de =>
        let next := pathNext subPath
        if de.fileType = FileType.directory then
          let s ← get
          let parentIno := (s.fs.vol.inodes record.parentDir.inode).ino
          dirClose record.parentDir
          let parentDir ← dirOpen de.ino
          searchLoop fuel next.1 next.2 { record with parentDir } parentIno de.ino
        else if de.fileType = FileType.regular then
          return (toIno de.ino, { record with fileType := FileType.regular })
        else
          searchLoop fuel next.1 next.2 record parentIno de.ino

def searchFile (pathName : List UInt8) : HeapedM (Option ℕ × PathSearchRecord) := do
  let s ← get
  if isRootPath pathName then
    return (some 0, ⟨[], s.fs.vol.rootDir, FileType.directory⟩)
  else
    assert (pathName.head? = some slash ∧ pathName.length < 512)
    let word ← ask Heap.junk
    let first := pathParse pathName
    searchLoop (pathName.length + 1) first.1 first.2 ⟨[], s.fs.vol.rootDir, FileType.unknown⟩ 0 word

end Dirs

section Files

/-- The caller's `pageDir` is in force throughout, also where the new inode is allocated. -/
def fileCreate (parentDir : Dir) (fileName : List UInt8) (flag : ℕ) : HeapedM ℤ := do
  if !(← onVol sysMalloc) then return -1
  match ← onVol inodeBitMapAlloc with
  | none => return -1
  | some ino =>
    if !(← onVol sysMalloc) then
      onVol (setInodeBit ino false)
      return -1
    let s ← get
    let newFileInode ← newInode s.pageDir (inodeInit ino)
    match ← onFs getFreeSlotInGlobal with
    | none =>
      sysFree newFileInode
      onVol (setInodeBit ino false)
      return -1
    | some fdIdx =>
      onFs (setFile fdIdx ⟨0, flag, some newFileInode⟩)
      onVol (modifyInode newFileInode fun i => { i with writeDeny := false })
      let newDirEntry ← onVol (createDirEntry fileName ino FileType.regular)
      if !(← onVol (syncDirEntry parentDir newDirEntry)) then
        onFs (setFile fdIdx ⟨0, 0, none⟩)
        sysFree newFileInode
        onVol (setInodeBit ino false)
        return -1
      let s ← get
      onVol (inodeSync (s.fs.vol.inodes parentDir.inode))
      onVol (inodeSync (s.fs.vol.inodes newFileInode))
      onVol (bitMapSync ino .inodeBitmap)
      onVol (modify fun v => v.setOpenInodes (newFileInode :: v.openInodes))
      onVol (modifyInode newFileInode fun i => { i with openCnt := 1 })
      onFs (pcbFdInstall fdIdx)

def fileOpen (ino flag : ℕ) : HeapedM ℤ := do
  match ← onFs getFreeSlotInGlobal with
  | none => return -1
  | some fdIdx =>
    let p ← inodeOpen ino
    onFs (setFile fdIdx ⟨0, flag, some p⟩)
    if writes flag then
      let s ← get
      if !(s.fs.vol.inodes p).writeDeny then
        onVol (modifyInode p fun i => { i with writeDeny := true })
        onFs (pcbFdInstall fdIdx)
      else
        inodeClose p
        onFs (setFile fdIdx ⟨0, flag, none⟩)
        return -1
    else
      onFs (pcbFdInstall fdIdx)

def fileClose (fdIdx : ℕ) : HeapedM ℤ := do
  let p ← onFs (slotInode fdIdx)
  onVol (modifyInode p fun i => { i with writeDeny := false })
  inodeClose p
  let s ← get
  onFs (setFile fdIdx { s.fs.fileTable fdIdx with fdInode := none })
  return 0

end Files

section Calls

def sysOpen (pathName : List UInt8) (flags : ℕ) : HeapedM ℤ := do
  if pathName.getLast? = some slash then return -1
  assert (flags ≤ 7)
  let pathNameDepth ← onVol (pathDepthCnt pathName)
  let (ino, record) ← searchFile pathName
  if record.fileType = FileType.directory then
    dirClose record.parentDir
    return -1
  let pathSearchedDepth ← onVol (pathDepthCnt record.searchPath)
  if pathNameDepth ≠ pathSearchedDepth then
    dirClose record.parentDir
    return -1
  let fileName ← onVol (lastName record.searchPath)
  let create := flags &&& OFlags.creat ≠ 0
  match ino with
  | none =>
    if ¬create then
      dirClose record.parentDir
      return -1
    let fd ← fileCreate record.parentDir fileName flags
    dirClose record.parentDir
    return fd
  | some ino =>
    if create then
      dirClose record.parentDir
      return -1
    let fd ← fileOpen ino flags
    dirClose record.parentDir
    return fd

def sysOpenDir (pathName : List UInt8) : HeapedM (Option Dir) := do
  assert (pathName.length ≤ 512)
  if pathName = [slash] ∨ slash :: dotName <+: pathName then
    let s ← get
    return some s.fs.vol.rootDir
  else
    let (ino, record) ← searchFile pathName
    match ino with
    | none => return none
    | some ino =>
      if record.fileType = FileType.directory then
        let dir ← dirOpen ino
        return some dir
      else return none

def sysClose (fd : ℤ) : HeapedM ℤ := do
  if 2 < fd then
    let globalFd ← onFs (fdLocalToGlobal fd.toNat)
    let ret ← fileClose globalFd
    onFs (modify fun fs =>
      { fs with fdTable := fun i => if i = fd.toNat then -1 else fs.fdTable i })
    return ret
  else return -1

end Calls

section Erasure

variable {α β : Type} {ino fdIdx flag : ℕ} {path : List UInt8}

/-- Without the heaps, `m'` is `m`. -/
abbrev ErasesTo (m' : HeapedM α) (m : FsM α) : Prop := Erases Heaped.fs m' m

theorem erases_onFs (m : FsM α) : ErasesTo (onFs m) m := erases_zoom (fun _ _ => rfl) m

theorem erases_onVol (m : VolM α) : ErasesTo (onVol m) (Gogoos.onVol m) := erases_onFs _

theorem erases_onVol_bind {m' : HeapedM α} {m : VolM α} {f' : α → HeapedM β} {f : α → VolM β}
    (hm : ErasesTo m' (Gogoos.onVol m)) (hf : ∀ a, ErasesTo (f' a) (Gogoos.onVol (f a))) :
    ErasesTo (m' >>= f') (Gogoos.onVol (m >>= f)) := by
  have hbind : Gogoos.onVol (m >>= f) = (Gogoos.onVol m >>= fun a => Gogoos.onVol (f a)) := by
    apply zoom_bind
    · exact fun _ _ => rfl
    · exact fun _ _ _ => rfl
  rw [hbind]
  exact hm.bind hf

theorem erases_onVol_get_bind {f' : Heaped → HeapedM α} {f : Volume → VolM α}
    (h : ∀ s, ErasesTo (f' s) (Gogoos.onVol (f s.fs.vol))) :
    ErasesTo (get >>= f') (Gogoos.onVol (get >>= f)) := fun e t s => h s e t s

theorem erases_onVol_ite {p : Prop} [Decidable p] {m' n' : HeapedM α} {m n : VolM α}
    (hm : ErasesTo m' (Gogoos.onVol m)) (hn : ErasesTo n' (Gogoos.onVol n)) :
    ErasesTo (if p then m' else n') (Gogoos.onVol (if p then m else n)) := by
  split_ifs
  · exact hm
  · exact hn

theorem erases_onVol_pure (a : α) : ErasesTo (pure a) (Gogoos.onVol (pure a)) := fun _ _ _ => rfl

theorem erases_onVol_assert {p : Prop} [Decidable p] :
    ErasesTo (assert p) (Gogoos.onVol (assert p)) := by
  intro e t s
  by_cases hp : p <;> simp only [assert, if_pos, hp] <;> rfl

theorem erases_newInode (heap : ℕ) (i : Inode) :
    ErasesTo (newInode heap i) (Gogoos.onVol (Gogoos.newInode i)) :=
  (erases_onVol _).ghost_after fun p => .ghost_modify (fun _ => rfl) (erases_pure p)

theorem erases_inodeOpen (ino : ℕ) :
    ErasesTo (inodeOpen ino) (Gogoos.onVol (Gogoos.inodeOpen ino)) := by
  apply erases_onVol_get_bind
  intro s
  cases s.fs.vol.findOpen ino with
  | some p => exact erases_onVol_bind (erases_onVol _) fun _ => erases_onVol_pure p
  | none =>
    refine erases_onVol_bind (erases_onVol _) fun ip => ?_
    refine .ghost_modify (fun _ => rfl) ?_
    refine erases_onVol_bind (erases_onVol _) fun _ => ?_
    refine .ghost_get fun _ => .ghost_modify (fun _ => rfl) ?_
    refine erases_onVol_bind (erases_onVol _) fun _ => ?_
    refine erases_onVol_bind (erases_onVol _) fun inodeBuf => ?_
    refine erases_onVol_bind (erases_newInode _ _) fun p => ?_
    exact erases_onVol_bind (erases_onVol _) fun _ => erases_onVol_pure p

theorem erases_inodeClose (p : ℕ) :
    ErasesTo (inodeClose p) (Gogoos.onVol (Gogoos.inodeClose p)) := by
  refine erases_onVol_bind (erases_onVol _) fun _ => erases_onVol_get_bind fun s => ?_
  apply erases_onVol_ite
  · exact (erases_onVol _).ghost_after fun _ => .ghost_modify (fun _ => rfl)
      (.ghost_modify (fun _ => rfl) fun _ _ _ => rfl)
  · exact erases_onVol_pure ()

theorem erases_dirOpen (ino : ℕ) : ErasesTo (dirOpen ino) (Gogoos.onVol (Gogoos.dirOpen ino)) :=
  erases_onVol_bind (erases_onVol _) fun _ => erases_onVol_bind (erases_inodeOpen ino) fun _ =>
    erases_onVol_pure _

theorem erases_dirClose (dir : Dir) :
    ErasesTo (dirClose dir) (Gogoos.onVol (Gogoos.dirClose dir)) :=
  erases_onVol_ite (erases_onVol_pure ()) (erases_inodeClose _)

theorem erases_searchLoop : ∀ fuel name subPath record parentIno deIno,
    ErasesTo (searchLoop fuel name subPath record parentIno deIno)
      (Gogoos.onVol (Gogoos.searchLoop fuel name subPath record parentIno deIno)) := by
  intro fuel
  induction fuel with
  | zero => exact fun _ _ _ _ _ _ _ _ => rfl
  | succ fuel ih =>
    intro name subPath record parentIno deIno
    apply erases_onVol_ite
    · exact erases_onVol_bind (erases_dirClose _) fun _ => erases_onVol_bind (erases_dirOpen _)
        fun _ => erases_onVol_pure _
    · refine erases_onVol_bind erases_onVol_assert fun _ => erases_onVol_bind (erases_onVol _) ?_
      rintro (_ | de)
      · exact erases_onVol_pure _
      · apply erases_onVol_ite
        · exact erases_onVol_get_bind fun _ => erases_onVol_bind (erases_dirClose _) fun _ =>
            erases_onVol_bind (erases_dirOpen _) fun _ => ih _ _ _ _ _
        · exact erases_onVol_ite (erases_onVol_pure _) (ih _ _ _ _ _)

theorem erases_searchFile (path : List UInt8) :
    ErasesTo (searchFile path) (Gogoos.onVol (Gogoos.searchFile path)) := by
  refine erases_onVol_get_bind fun s => ?_
  apply erases_onVol_ite (erases_onVol_pure _)
  refine erases_onVol_bind erases_onVol_assert fun _ => erases_onVol_bind (fun _ _ _ => rfl) fun _ => ?_
  exact erases_searchLoop _ _ _ _ _ _

theorem erases_fileCreate (dir : Dir) (name : List UInt8) (flag : ℕ) :
    ErasesTo (fileCreate dir name flag) (Gogoos.fileCreate dir name flag) := by
  have hfail : ∀ ino, ErasesTo (do
      onVol (setInodeBit ino false)
      return (-1 : ℤ)) (do
      Gogoos.onVol (setInodeBit ino false)
      return -1) := fun ino => (erases_onVol _).bind fun _ => erases_pure _
  refine (erases_onVol _).bind fun ok => ?_
  apply Erases.ite (erases_pure _)
  refine (erases_onVol _).bind ?_
  rintro (_ | ino)
  · exact erases_pure _
  refine (erases_onVol _).bind fun ok => ?_
  apply Erases.ite (hfail ino)
  refine .ghost_get fun s => (erases_newInode _ _).bind fun p => (erases_onFs _).bind ?_
  rintro (_ | fdIdx)
  · exact .ghost_modify (fun _ => rfl) (hfail ino)
  refine (erases_onFs _).bind fun _ => (erases_onVol _).bind fun _ => (erases_onVol _).bind
    fun de => (erases_onVol _).bind fun ok => ?_
  apply Erases.ite
  · exact (erases_onFs _).bind fun _ => .ghost_modify (fun _ => rfl) (hfail ino)
  · exact .get_bind fun s => (erases_onVol _).bind fun _ => (erases_onVol _).bind fun _ =>
      (erases_onVol _).bind fun _ => (erases_onVol _).bind fun _ => (erases_onVol _).bind fun _ =>
        erases_onFs _

theorem erases_fileOpen (ino flag : ℕ) :
    ErasesTo (fileOpen ino flag) (Gogoos.fileOpen ino flag) := by
  refine (erases_onFs _).bind ?_
  rintro (_ | fdIdx)
  · exact erases_pure _
  · refine (erases_inodeOpen ino).bind fun p => (erases_onFs _).bind fun _ => ?_
    apply Erases.ite
    · refine .get_bind fun s => ?_
      apply Erases.ite
      · exact (erases_onVol _).bind fun _ => erases_onFs _
      · exact (erases_inodeClose p).bind fun _ => (erases_onFs _).bind fun _ => erases_pure _
    · exact erases_onFs _

theorem erases_fileClose (fdIdx : ℕ) : ErasesTo (fileClose fdIdx) (Gogoos.fileClose fdIdx) :=
  (erases_onFs _).bind fun p => (erases_onVol _).bind fun _ => (erases_inodeClose p).bind fun _ =>
    .get_bind fun _ => (erases_onFs _).bind fun _ => erases_pure _

/-- The calls do to the files what the calls without heaps do. -/
theorem erases_sysClose (fd : ℤ) : ErasesTo (sysClose fd) (Gogoos.sysClose fd) :=
  .ite ((erases_onFs _).bind fun _ => (erases_fileClose _).bind fun _ => (erases_onFs _).bind
    fun _ => erases_pure _) (erases_pure _)

theorem erases_sysOpenDir (path : List UInt8) :
    ErasesTo (sysOpenDir path) (Gogoos.onVol (Gogoos.sysOpenDir path)) := by
  refine erases_onVol_bind erases_onVol_assert fun _ => ?_
  apply erases_onVol_ite
  · exact erases_onVol_get_bind fun _ => erases_onVol_pure _
  · refine erases_onVol_bind (erases_searchFile path) ?_
    rintro ⟨_ | ino, record⟩
    · exact erases_onVol_pure _
    · exact erases_onVol_ite (erases_onVol_bind (erases_dirOpen ino) fun _ => erases_onVol_pure _)
        (erases_onVol_pure _)

theorem erases_sysOpen (path : List UInt8) (flags : ℕ) :
    ErasesTo (sysOpen path flags) (Gogoos.sysOpen path flags) := by
  have hclose : ∀ (dir : Dir) (r : ℤ), ErasesTo (do
      dirClose dir
      return r) (do
      Gogoos.onVol (Gogoos.dirClose dir)
      return r) := fun dir r => (erases_dirClose dir).bind fun _ => erases_pure r
  apply Erases.ite (erases_pure _)
  refine erases_assert.bind fun _ => (erases_onVol _).bind fun _ => (erases_searchFile path).bind ?_
  rintro ⟨ino, record⟩
  apply Erases.ite (hclose _ _)
  refine (erases_onVol _).bind fun _ => ?_
  apply Erases.ite (hclose _ _)
  refine (erases_onVol _).bind fun _ => ?_
  cases ino with
  | none =>
    apply Erases.ite (hclose _ _)
    exact (erases_fileCreate _ _ _).bind fun _ => hclose _ _
  | some ino =>
    apply Erases.ite (hclose _ _)
    exact (erases_fileOpen _ _).bind fun _ => hclose _ _

end Erasure

end Heaped

end Gogoos
