import Gogoos.Fs.File

/-!
# Paths and system calls

`fs/fs.c`: path resolution and the calls that act on a path or a descriptor. A path is the
list of its characters, without the terminating zero.
-/

namespace Gogoos

open Program

/-- The character `'/'`. -/
def slash : UInt8 := 47

/-- The name that `pathParse` stores and the pointer it returns, `none` for `NULL`. -/
def pathParse (pathName : List UInt8) : List UInt8 × Option (List UInt8) :=
  let p := if pathName.head? = some slash then pathName.dropWhile (· = slash) else pathName
  let rest := p.dropWhile (· ≠ slash)
  (p.takeWhile (· ≠ slash), if rest = [] then none else some rest)

/-- The name that the next round of a loop over a path sees: the buffer was cleared, and it
stays empty when the pointer is `NULL`. -/
def pathNext (subPath : Option (List UInt8)) : List UInt8 × Option (List UInt8) :=
  match subPath with
  | none => ([], none)
  | some p => pathParse p

/-- The loop of `pathDepthCnt` once a first name was stored. Each round takes a character
from the path, so as many rounds as characters are enough. -/
def depthLoop : (fuel : ℕ) → (subPath : Option (List UInt8)) → ℕ
  | 0, _ => 1
  | fuel + 1, subPath =>
    let next := pathNext subPath
    if next.1 = [] then 1 else depthLoop fuel next.2 + 1

/-- The name buffer is not initialised: when the first name is empty the loop looks at what
was on the stack. -/
def pathDepthCnt (pathName : List UInt8) : VolM ℕ := do
  let first := pathParse pathName
  if first.1 = [] then
    let word ← ask Heap.junk
    return if word = 0 then 0 else 1
  else
    return depthLoop pathName.length first.2

structure PathSearchRecord where
  searchPath : List UInt8
  parentDir : Dir
  fileType : ℕ
deriving DecidableEq

/-- An `int` that holds an inode number; the word of all ones is -1. -/
def toIno (word : ℕ) : Option ℕ := if word = 2 ^ 32 - 1 then none else some word

/-- The paths that `searchFile` answers at once. -/
def isRootPath (pathName : List UInt8) : Bool :=
  pathName = [slash] || pathName = slash :: dotName || pathName = slash :: dotDotName

def Volume.rootDir (v : Volume) : Dir := ⟨true, v.rootInode⟩

/-- The loop of `searchFile`. `name` is the component to look up next, `subPath` the rest of
the path and `deIno` what `de.ino` holds. -/
def searchLoop : (fuel : ℕ) → (name : List UInt8) → (subPath : Option (List UInt8)) →
    (record : PathSearchRecord) → (parentIno deIno : ℕ) → VolM (Option ℕ × PathSearchRecord)
  | 0, _, _, _, _, _ => halt
  | fuel + 1, name, subPath, record, parentIno, deIno => do
    if name = [] then
      dirClose record.parentDir
      let parentDir ← dirOpen parentIno
      return (toIno deIno, { record with parentDir, fileType := FileType.directory })
    else
      assert (record.searchPath.length < 512)
      let record := { record with searchPath := record.searchPath ++ slash :: name }
      match ← searchDirEntry record.parentDir name with
      | none => return (none, record)
      | some de =>
        let next := pathNext subPath
        if de.fileType = FileType.directory then
          let v ← get
          let parentIno := (v.inodes record.parentDir.inode).ino
          dirClose record.parentDir
          let parentDir ← dirOpen de.ino
          searchLoop fuel next.1 next.2 { record with parentDir } parentIno de.ino
        else if de.fileType = FileType.regular then
          return (toIno de.ino, { record with fileType := FileType.regular })
        else
          searchLoop fuel next.1 next.2 record parentIno de.ino

/-- A path without a component returns `de.ino` as the stack left it. -/
def searchFile (pathName : List UInt8) : VolM (Option ℕ × PathSearchRecord) := do
  let v ← get
  if isRootPath pathName then
    return (some 0, ⟨[], v.rootDir, FileType.directory⟩)
  else
    assert (pathName.head? = some slash ∧ pathName.length < 512)
    let word ← ask Heap.junk
    let first := pathParse pathName
    searchLoop (pathName.length + 1) first.1 first.2 ⟨[], v.rootDir, FileType.unknown⟩ 0 word

/-- The characters after the last slash. Without a slash the code adds one to `NULL`, and
using the result stops the machine. -/
def lastName (searchPath : List UInt8) : VolM (List UInt8) := do
  assert (slash ∈ searchPath)
  return (searchPath.reverse.takeWhile (· ≠ slash)).reverse

/-- Returns the descriptor or -1. -/
def sysOpen (pathName : List UInt8) (flags : ℕ) : FsM ℤ := do
  if pathName.getLast? = some slash then return -1
  assert (flags ≤ 7)
  let pathNameDepth ← onVol (pathDepthCnt pathName)
  let (ino, record) ← onVol (searchFile pathName)
  if record.fileType = FileType.directory then
    onVol (dirClose record.parentDir)
    return -1
  let pathSearchedDepth ← onVol (pathDepthCnt record.searchPath)
  if pathNameDepth ≠ pathSearchedDepth then
    onVol (dirClose record.parentDir)
    return -1
  let fileName ← onVol (lastName record.searchPath)
  let create := flags &&& OFlags.creat ≠ 0
  match ino with
  | none =>
    if ¬create then
      onVol (dirClose record.parentDir)
      return -1
    let fd ← fileCreate record.parentDir fileName flags
    onVol (dirClose record.parentDir)
    return fd
  | some ino =>
    if create then
      onVol (dirClose record.parentDir)
      return -1
    let fd ← fileOpen ino flags
    onVol (dirClose record.parentDir)
    return fd

/-- The slot of a descriptor. -/
def fdLocalToGlobal (localFd : ℕ) : FsM ℕ := do
  let fs ← get
  let globalFd := fs.fdTable localFd
  assert (0 ≤ globalFd ∧ globalFd < 32)
  return globalFd.toNat

def sysClose (fd : ℤ) : FsM ℤ := do
  if 2 < fd then
    let globalFd ← fdLocalToGlobal fd.toNat
    let ret ← fileClose globalFd
    modify fun fs => { fs with fdTable := fun i => if i = fd.toNat then -1 else fs.fdTable i }
    return ret
  else return -1

/-- What is written to the screen leaves no trace in this state. -/
def sysWrite (fd : ℤ) (buf : List UInt8) : FsM ℤ := do
  if fd < 0 then return -1
  if fd = 1 ∨ fd = 2 then
    assert (buf.length ≤ 1024)
    return buf.length
  let globalFd ← fdLocalToGlobal fd.toNat
  let fs ← get
  if writes (fs.fileTable globalFd).fdFlag then fileWrite globalFd buf
  else return -1

def inUse (fileTable : ℕ → File) (inodes : ℕ → Inode) (ino : ℕ) : Bool :=
  (List.range 32).any fun fileIdx =>
    match (fileTable fileIdx).fdInode with
    | none => false
    | some p => (inodes p).ino = ino

def sysUnlink (pathName : List UInt8) : FsM ℤ := do
  assert (pathName.length < 512)
  let (ino, record) ← onVol (searchFile pathName)
  match ino with
  | none =>
    onVol (dirClose record.parentDir)
    return -1
  | some ino =>
    assert (ino ≠ 0)
    if record.fileType = FileType.directory then
      onVol (dirClose record.parentDir)
      return -1
    let fs ← get
    if inUse fs.fileTable fs.vol.inodes ino then
      onVol (dirClose record.parentDir)
      return -1
    if !(← onVol sysMalloc) then
      onVol (dirClose record.parentDir)
      return -1
    let _ ← onVol (deleteDirEntry record.parentDir ino)
    onVol (inodeRelease ino)
    onVol (dirClose record.parentDir)
    return 0

/-- The sector of a new directory: `"."` and `".."`. -/
def newDirSector (ino parentIno : ℕ) : ℕ → UInt8 :=
  memcpy (memcpy (fun _ => 0) 0 (DirEntry.bytes ⟨dotName, ino, FileType.directory⟩) 24)
    24 (DirEntry.bytes ⟨dotDotName, parentIno, FileType.directory⟩) 24

/-- `sysMkdir` after the path was searched and its last component found missing. -/
def makeDir (record : PathSearchRecord) : VolM ℤ := do
  let dirName ← lastName record.searchPath
  match ← inodeBitMapAlloc with
  | none =>
    dirClose record.parentDir
    return -1
  | some ino =>
    match ← blockBitMapAlloc with
    | none =>
      setInodeBit ino false
      return -1
    | some blockLba =>
      let blockBitMapIdx ← blockLbaToBitMapIdx blockLba
      assert (blockBitMapIdx ≠ 0)
      bitMapSync blockBitMapIdx .blockBitmap
      let v ← get
      let parentIno := (v.inodes record.parentDir.inode).ino
      ideWrite blockLba (newDirSector ino parentIno) 1
      let newDirEntry ← createDirEntry dirName ino FileType.directory
      if !(← syncDirEntry record.parentDir newDirEntry) then
        setInodeBit ino false
        return -1
      let v ← get
      inodeSync (v.inodes record.parentDir.inode)
      inodeSync
        { inodeInit ino with
          block := fun k => if k = 0 then blockLba else 0
          size := 2 * v.superBlock.dirEntrySize }
      bitMapSync ino .inodeBitmap
      dirClose record.parentDir
      return 0

def sysMkdir (pathName : List UInt8) : VolM ℤ := do
  if !(← sysMalloc) then return -1
  let (ino, record) ← searchFile pathName
  match ino with
  | some ino =>
    assert (ino ≠ 0)
    dirClose record.parentDir
    return -1
  | none =>
    let pathNameDepth ← pathDepthCnt pathName
    let pathSearchedDepth ← pathDepthCnt record.searchPath
    if pathNameDepth ≠ pathSearchedDepth then
      dirClose record.parentDir
      return -1
    makeDir record

def sysRmdir (pathName : List UInt8) : VolM ℤ := do
  let (ino, record) ← searchFile pathName
  match ino with
  | none =>
    dirClose record.parentDir
    return -1
  | some ino =>
    if ino = 0 then
      dirClose record.parentDir
      return -1
    else
      let dir ← dirOpen ino
      let ret ← do
        if !(← dirIsEmpty dir) then pure (-1)
        else if ← dirRemove record.parentDir dir then pure 0
        else pure (-1)
      dirClose dir
      dirClose record.parentDir
      return ret

/-- `none` is `NULL`. The directory that the search left in `record.parentDir` is not closed. -/
def sysOpenDir (pathName : List UInt8) : VolM (Option Dir) := do
  assert (pathName.length ≤ 512)
  if pathName = [slash] ∨ slash :: dotName <+: pathName then
    let v ← get
    return some v.rootDir
  else
    let (ino, record) ← searchFile pathName
    match ino with
    | none => return none
    | some ino =>
      if record.fileType = FileType.directory then
        let dir ← dirOpen ino
        return some dir
      else return none

def sysCloseDir (dir : Option Dir) : VolM ℤ :=
  match dir with
  | none => return -1
  | some dir => do
    dirClose dir
    return 0

/-- The number that `cwdIno` of the caller is set to, or `none` for -1. -/
def sysChDir (pathName : List UInt8) : VolM (Option ℕ) := do
  let (ino, record) ← searchFile pathName
  dirClose record.parentDir
  if record.fileType = FileType.directory then return ino
  else return none

structure Stat where
  fileType : ℕ
  ino : ℕ
  size : ℕ

/-- What is stored in `*stat`, or `none` for -1. -/
def sysStat (path : List UInt8) : VolM (Option Stat) := do
  if isRootPath path then
    let v ← get
    return some ⟨FileType.directory, 0, (v.inodes v.rootInode).size⟩
  else
    let (ino, record) ← searchFile path
    match ino with
    | none =>
      dirClose record.parentDir
      return none
    | some ino =>
      let p ← inodeOpen ino
      let v ← get
      inodeClose p
      dirClose record.parentDir
      return some ⟨record.fileType, ino, (v.inodes p).size⟩

end Gogoos
