import Gogoos.Fs.Volume

/-!
# Directories

`fs/dir.c`: lookup, insertion and deletion of directory entries. A directory block holds
21 entries of 24 bytes; an entry whose type is `FT_UNKNOWN` is a free slot.
-/

namespace Gogoos

open Program

/-- `isRoot` tells `&rootDir` from the directories that `dirOpen` allocates. -/
structure Dir where
  isRoot : Bool
  inode : ℕ
deriving DecidableEq

def dirOpen (ino : ℕ) : VolM Dir := do
  sysMallocUnchecked
  let p ← inodeOpen ino
  return ⟨false, p⟩

def dirClose (dir : Dir) : VolM Unit :=
  if dir.isRoot then pure () else inodeClose dir.inode

section Search

/-- Inner loop of `searchDirEntry`: the first slot whose name is `name`. -/
def searchSlots (buf : ℕ → UInt8) (name : List UInt8) : (cnt dirEntryIdx : ℕ) → Option ℕ
  | 0, _ => none
  | cnt + 1, dirEntryIdx =>
    if strEqAt buf (24 * dirEntryIdx) name then some dirEntryIdx
    else searchSlots buf name cnt (dirEntryIdx + 1)

/-- The inner loop runs over `dirEntrySize` slots, not over the 21 slots of a sector, so
it also looks at bytes behind the sector buffer. -/
def searchBlocks (allBlocks : ℕ → ℕ) (name : List UInt8) :
    (cnt blockIdx : ℕ) → VolM (Option DirEntry)
  | 0, _ => return none
  | cnt + 1, blockIdx => do
    if allBlocks blockIdx = 0 then searchBlocks allBlocks name cnt (blockIdx + 1)
    else
      let sector ← ideRead (allBlocks blockIdx) 1
      let behind ← ask Heap.behind
      let v ← get
      let buf := fun j => if j < 512 then sector j else behind (j - 512)
      match searchSlots buf name v.superBlock.dirEntrySize 0 with
      | some dirEntryIdx => return some (DirEntry.ofBytes buf (24 * dirEntryIdx))
      | none => searchBlocks allBlocks name cnt (blockIdx + 1)

/-- The entry found, or `none` when the code returns false. -/
def searchDirEntry (dir : Dir) (name : List UInt8) : VolM (Option DirEntry) := do
  if !(← sysMalloc) then return none
  let v ← get
  let allBlocks ← loadAllBlocks (v.inodes dir.inode)
  sysMallocUnchecked
  searchBlocks allBlocks name 140 0

end Search

def createDirEntry (fileName : List UInt8) (ino fileType : ℕ) : VolM DirEntry := do
  assert (fileName.length ≤ 16)
  return ⟨fileName, ino, fileType⟩

section Sync

/-- The first free slot of a directory block. -/
def firstFreeSlot (buf : ℕ → UInt8) : (cnt dirEntryIdx : ℕ) → Option ℕ
  | 0, _ => none
  | cnt + 1, dirEntryIdx =>
    if getWord buf (24 * dirEntryIdx + 20) = FileType.unknown then some dirEntryIdx
    else firstFreeSlot buf cnt (dirEntryIdx + 1)

@[simps] def Inode.setBlock (i : Inode) (k lba : ℕ) : Inode :=
  { i with block := fun j => if j = k then lba else i.block j }

@[simps] def Inode.setSize (i : Inode) (size : ℕ) : Inode := { i with size := size }

def setBlock (p k lba : ℕ) : VolM Unit := modifyInode p fun i => i.setBlock k lba

def addSize (p n : ℕ) : VolM Unit := modifyInode p fun i => i.setSize (i.size + n)

/-- Writes `allBlocks + 12` to the sector of the indirect table. -/
def writeTable (p : ℕ) (allBlocks : ℕ → ℕ) : VolM Unit := do
  let v ← get
  ideWrite ((v.inodes p).block 12) (wordsBytes fun k => allBlocks (12 + k)) 1

/-- The entry becomes the only one of a new block. -/
def putFirstEntry (p blockLba : ℕ) (de : DirEntry) : VolM Bool := do
  let v ← get
  let ioBuf := memcpy (fun _ => 0) 0 de.bytes v.superBlock.dirEntrySize
  ideWrite blockLba ioBuf 1
  addSize p v.superBlock.dirEntrySize
  return true

/-- `bitMapSync` of a block that was just allocated. -/
def syncNewBlock (blockLba : ℕ) : VolM Unit := do
  let blockBitMapIdx ← blockLbaToBitMapIdx blockLba
  assert (blockBitMapIdx ≠ 2 ^ 32 - 1)
  bitMapSync blockBitMapIdx .blockBitmap

/-- A new block `blockLba` at index 12 becomes the indirect table, whatever `block[12]`
was before, and a second block is allocated for the entry. -/
def syncAtTable (p : ℕ) (allBlocks : ℕ → ℕ) (blockLba : ℕ) (de : DirEntry) : VolM Bool := do
  setBlock p 12 blockLba
  match ← blockBitMapAlloc with
  | none =>
    let v ← get
    let blockBitMapIdx ← blockLbaToBitMapIdx ((v.inodes p).block 12)
    setBlockBit blockBitMapIdx false
    setBlock p 12 0
    bitMapSync blockBitMapIdx .blockBitmap
    return false
  | some blockLba =>
    syncNewBlock blockLba
    writeTable p fun k => if k = 12 then blockLba else allBlocks k
    putFirstEntry p blockLba de

def syncBlocks (p : ℕ) (allBlocks : ℕ → ℕ) (de : DirEntry) : (cnt blockIdx : ℕ) → VolM Bool
  | 0, _ => return false
  | cnt + 1, blockIdx => do
    if allBlocks blockIdx = 0 then
      match ← blockBitMapAlloc with
      | none => return false
      | some blockLba =>
        syncNewBlock blockLba
        if blockIdx < 12 then
          setBlock p blockIdx blockLba
          putFirstEntry p blockLba de
        else if blockIdx = 12 then
          syncAtTable p allBlocks blockLba de
        else
          writeTable p fun k => if k = blockIdx then blockLba else allBlocks k
          putFirstEntry p blockLba de
    else
      let ioBuf ← ideRead (allBlocks blockIdx) 1
      let v ← get
      let dirEntrySize := v.superBlock.dirEntrySize
      match firstFreeSlot ioBuf (512 / dirEntrySize) 0 with
      | some dirEntryIdx =>
        ideWrite (allBlocks blockIdx) (memcpy ioBuf (24 * dirEntryIdx) de.bytes dirEntrySize) 1
        addSize p dirEntrySize
        return true
      | none => syncBlocks p allBlocks de cnt (blockIdx + 1)

def syncDirEntry (parentDir : Dir) (de : DirEntry) : VolM Bool := do
  let v ← get
  let dirInode := v.inodes parentDir.inode
  assert (dirInode.size % v.superBlock.dirEntrySize = 0)
  if !(← sysMalloc) then return false
  let allBlocks ← loadAllBlocks dirInode
  syncBlocks parentDir.inode allBlocks de 140 0

end Sync

section Delete

/-- What the scan of one directory block finds. -/
structure BlockScan where
  isDirFirstBlock : Bool
  dirEntryCnt : ℕ
  deFound : Option ℕ

/-- The name `"."`. -/
def dotName : List UInt8 := [46]

/-- The name `".."`. -/
def dotDotName : List UInt8 := [46, 46]

/-- The second test of the code compares with `"."` twice and never with `".."`, so every
occupied slot that is not named `"."` counts. -/
def scanSlots (buf : ℕ → UInt8) (ino : ℕ) : (cnt dirEntryIdx : ℕ) → BlockScan → VolM BlockScan
  | 0, _, r => return r
  | cnt + 1, dirEntryIdx, r => do
    if getWord buf (24 * dirEntryIdx + 20) ≠ FileType.unknown then
      if strEqAt buf (24 * dirEntryIdx) dotName then
        scanSlots buf ino cnt (dirEntryIdx + 1) { r with isDirFirstBlock := true }
      else if getWord buf (24 * dirEntryIdx + 16) = ino then
        assert (r.deFound = none)
        scanSlots buf ino cnt (dirEntryIdx + 1)
          { r with dirEntryCnt := r.dirEntryCnt + 1, deFound := some dirEntryIdx }
      else
        scanSlots buf ino cnt (dirEntryIdx + 1) { r with dirEntryCnt := r.dirEntryCnt + 1 }
    else
      scanSlots buf ino cnt (dirEntryIdx + 1) r

/-- Gives the bit of a block back. -/
def freeBlock (blockLba : ℕ) : VolM Unit := do
  let blockBitMapIdx ← blockLbaToBitMapIdx blockLba
  setBlockBit blockBitMapIdx false
  bitMapSync blockBitMapIdx .blockBitmap

/-- `indirectBlocksCnt`: the non-zero entries of the indirect table. -/
def indirectBlocksCnt (allBlocks : ℕ → ℕ) : ℕ :=
  ((List.range 128).filter fun k => allBlocks (12 + k) ≠ 0).length

/-- Drops a block that holds only the entry to delete. When it is the last one of the
indirect table the code gives back `allBlocks[12]`, not the table. -/
def dropBlock (p : ℕ) (allBlocks : ℕ → ℕ) (blockIdx : ℕ) : VolM Unit := do
  freeBlock (allBlocks blockIdx)
  if blockIdx < 12 then setBlock p blockIdx 0
  else
    assert (1 ≤ indirectBlocksCnt allBlocks)
    if 1 < indirectBlocksCnt allBlocks then
      writeTable p fun k => if k = blockIdx then 0 else allBlocks k
    else
      freeBlock (allBlocks 12)
      setBlock p 12 0

def deleteBlocks (p : ℕ) (allBlocks : ℕ → ℕ) (ino : ℕ) : (cnt blockIdx : ℕ) → VolM Bool
  | 0, _ => return false
  | cnt + 1, blockIdx => do
    if allBlocks blockIdx = 0 then deleteBlocks p allBlocks ino cnt (blockIdx + 1)
    else
      let ioBuf ← ideRead (allBlocks blockIdx) 1
      let v ← get
      let dirEntrySize := v.superBlock.dirEntrySize
      let r ← scanSlots ioBuf ino (512 / dirEntrySize) 0 ⟨false, 0, none⟩
      match r.deFound with
      | none => deleteBlocks p allBlocks ino cnt (blockIdx + 1)
      | some deFound =>
        if r.dirEntryCnt = 1 ∧ !r.isDirFirstBlock then
          dropBlock p allBlocks blockIdx
        else
          ideWrite (allBlocks blockIdx) (memset ioBuf (24 * deFound) 0 dirEntrySize) 1
        let v ← get
        assert (dirEntrySize ≤ (v.inodes p).size)
        modifyInode p fun i => i.setSize (i.size - dirEntrySize)
        let v ← get
        inodeSync (v.inodes p)
        return true

def deleteDirEntry (dir : Dir) (ino : ℕ) : VolM Bool := do
  sysMallocUnchecked
  let v ← get
  let allBlocks ← loadAllBlocks (v.inodes dir.inode)
  deleteBlocks dir.inode allBlocks ino 140 0

end Delete

def dirIsEmpty (dir : Dir) : VolM Bool := do
  let v ← get
  return (v.inodes dir.inode).size = v.superBlock.dirEntrySize * 2

/-- Returns whether the code returns 0. The result of `deleteDirEntry` is not looked at. -/
def dirRemove (parentDir childDir : Dir) : VolM Bool := do
  let v ← get
  let childDirInode := v.inodes childDir.inode
  assert (∀ k : ℕ, k < 12 → childDirInode.block (k + 1) = 0)
  if !(← sysMalloc) then return false
  let _ ← deleteDirEntry parentDir childDirInode.ino
  inodeRelease childDirInode.ino
  return true

end Gogoos
