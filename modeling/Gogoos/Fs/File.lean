import Gogoos.Fs.Dir

/-!
# Open files

`fs/file.c`: the table of open files, creation, opening, closing, writing and reading.
The state is the volume, the table of open files and the descriptor table of the thread
that runs.
-/

namespace Gogoos

open Program

structure File where
  fdPos : ℕ
  fdFlag : ℕ
  /-- `none` is `NULL`, a free slot. -/
  fdInode : Option ℕ

/-- `fileTable` has the slots 0 to 31 and `fdTable` the descriptors 0 to 6; what lies
behind `fdTable` in memory is read through the same function. -/
structure Fs where
  vol : Volume
  fileTable : ℕ → File
  fdTable : ℕ → ℤ

abbrev FsM (α : Type) : Type := Program Heap Fs α

@[simps -fullyApplied] def Fs.setVol (fs : Fs) (v : Volume) : Fs := { fs with vol := v }

@[simps -fullyApplied] def Fs.setFile (fs : Fs) (fdIdx : ℕ) (f : File) : Fs :=
  { fs with fileTable := fun i => if i = fdIdx then f else fs.fileTable i }

/-- A program on the volume alone. -/
def onVol {α : Type} (m : VolM α) : FsM α := zoom Fs.vol (fun v fs => fs.setVol v) m

namespace OFlags
abbrev wrOnly : ℕ := 1
abbrev rdWr : ℕ := 2
abbrev creat : ℕ := 4
end OFlags

/-- `flag & O_WRONLY || flag & O_RDWR`. -/
def writes (flag : ℕ) : Bool := flag &&& OFlags.wrOnly ≠ 0 || flag &&& OFlags.rdWr ≠ 0

section Table

def setFile (fdIdx : ℕ) (f : File) : FsM Unit := modify fun fs => fs.setFile fdIdx f

def freeSlotFrom (fileTable : ℕ → File) : (cnt fdIdx : ℕ) → Option ℕ
  | 0, _ => none
  | cnt + 1, fdIdx =>
    if (fileTable fdIdx).fdInode = none then some fdIdx else freeSlotFrom fileTable cnt (fdIdx + 1)

/-- The first free slot from 3 to 31. -/
def getFreeSlotInGlobal : FsM (Option ℕ) := do
  let fs ← get
  return freeSlotFrom fs.fileTable 29 3

def freeFdFrom (fdTable : ℕ → ℤ) : (cnt fd : ℕ) → Option ℕ
  | 0, _ => none
  | cnt + 1, fd => if fdTable fd = -1 then some fd else freeFdFrom fdTable cnt (fd + 1)

/-- The descriptor installed, or -1. -/
def pcbFdInstall (globalFdIdx : ℕ) : FsM ℤ := do
  let fs ← get
  match freeFdFrom fs.fdTable 4 3 with
  | none => return -1
  | some localFdIdx =>
    modify fun fs =>
      { fs with fdTable := fun i => if i = localFdIdx then globalFdIdx else fs.fdTable i }
    return localFdIdx

end Table

/-- Creation of a file in `parentDir`. The steps that fail before the directory entry is
written are rolled back; a full descriptor table, which `pcbFdInstall` finds at the very
end, is not. -/
def fileCreate (parentDir : Dir) (fileName : List UInt8) (flag : ℕ) : FsM ℤ := do
  if !(← onVol sysMalloc) then return -1
  match ← onVol inodeBitMapAlloc with
  | none => return -1
  | some ino =>
    if !(← onVol sysMalloc) then
      onVol (setInodeBit ino false)
      return -1
    let newFileInode ← onVol (newInode (inodeInit ino))
    match ← getFreeSlotInGlobal with
    | none =>
      onVol (setInodeBit ino false)
      return -1
    | some fdIdx =>
      setFile fdIdx ⟨0, flag, some newFileInode⟩
      onVol (modifyInode newFileInode fun i => { i with writeDeny := false })
      let newDirEntry ← onVol (createDirEntry fileName ino FileType.regular)
      if !(← onVol (syncDirEntry parentDir newDirEntry)) then
        setFile fdIdx ⟨0, 0, none⟩
        onVol (setInodeBit ino false)
        return -1
      let fs ← get
      onVol (inodeSync (fs.vol.inodes parentDir.inode))
      onVol (inodeSync (fs.vol.inodes newFileInode))
      onVol (bitMapSync ino .inodeBitmap)
      onVol (modify fun v => v.setOpenInodes (newFileInode :: v.openInodes))
      onVol (modifyInode newFileInode fun i => { i with openCnt := 1 })
      pcbFdInstall fdIdx

def fileOpen (ino flag : ℕ) : FsM ℤ := do
  match ← getFreeSlotInGlobal with
  | none => return -1
  | some fdIdx =>
    let p ← onVol (inodeOpen ino)
    setFile fdIdx ⟨0, flag, some p⟩
    if writes flag then
      let fs ← get
      if !(fs.vol.inodes p).writeDeny then
        onVol (modifyInode p fun i => { i with writeDeny := true })
        pcbFdInstall fdIdx
      else
        onVol (inodeClose p)
        setFile fdIdx ⟨0, flag, none⟩
        return -1
    else
      pcbFdInstall fdIdx

/-- The inode of a slot; a free slot holds `NULL`, and using it stops the machine. -/
def slotInode (fdIdx : ℕ) : FsM ℕ := do
  let fs ← get
  match (fs.fileTable fdIdx).fdInode with
  | none => halt
  | some p => return p

/-- Closing clears `writeDeny` whatever the mode of the slot. -/
def fileClose (fdIdx : ℕ) : FsM ℤ := do
  let p ← slotInode fdIdx
  onVol (modifyInode p fun i => { i with writeDeny := false })
  onVol (inodeClose p)
  let fs ← get
  setFile fdIdx { fs.fileTable fdIdx with fdInode := none }
  return 0

section Write

/-- The three loops of `fileWrite` that allocate the blocks from `blockIdx` on; the first
of them also asserts that the bit index is not zero. `none` is a full volume: the blocks
allocated so far stay where they are. -/
def allocBlocks (sync : ℕ → VolM Unit) (p : ℕ) (checkIdx : Bool) :
    (cnt blockIdx : ℕ) → (ℕ → ℕ) → VolM (Option (ℕ → ℕ))
  | 0, _, allBlocks => return some allBlocks
  | cnt + 1, blockIdx, allBlocks => do
    match ← blockBitMapAlloc with
    | none => return none
    | some blockLba =>
      if blockIdx < 12 then
        let v ← get
        assert ((v.inodes p).block blockIdx = 0)
        setBlock p blockIdx blockLba
      let blockBitMapIdx ← blockLbaToBitMapIdx blockLba
      assert (checkIdx → blockBitMapIdx ≠ 0)
      sync blockBitMapIdx
      allocBlocks sync p checkIdx cnt (blockIdx + 1)
        (fun k => if k = blockIdx then blockLba else allBlocks k)

/-- The first block of a file that has none. -/
def allocFirstBlock (sync : ℕ → VolM Unit) (p : ℕ) : VolM Bool := do
  let v ← get
  if (v.inodes p).block 0 = 0 then
    match ← blockBitMapAlloc with
    | none => return false
    | some blockLba =>
      setBlock p 0 blockLba
      let blockBitMapIdx ← blockLbaToBitMapIdx blockLba
      assert (blockBitMapIdx ≠ 0)
      sync blockBitMapIdx
      return true
  else return true

/-- `allBlocks` when all blocks written to are direct: only the block written first. -/
def oneBlock (block : ℕ → ℕ) (blockIdx : ℕ) : ℕ → ℕ :=
  fun k => if k = blockIdx then block k else 0

/-- `ideRead(curPart->disk, block[12], allBlocks + 12, 1)`. -/
def readTable (lba : ℕ) (allBlocks : ℕ → ℕ) : VolM (ℕ → ℕ) := do
  let table ← ideRead lba 1
  return fun k => if 12 ≤ k ∧ k < 140 then getWord table (4 * (k - 12)) else allBlocks k

/-- The block addresses `fileWrite` works with, after allocating what the write needs. -/
def prepareBlocks (sync : ℕ → VolM Unit) (p fileHasUsedBlocks fileWillUseBlocks : ℕ) :
    VolM (Option (ℕ → ℕ)) := do
  let v ← get
  let block := (v.inodes p).block
  let addBlocks := fileWillUseBlocks - fileHasUsedBlocks
  if fileWillUseBlocks = fileHasUsedBlocks then
    if fileWillUseBlocks < 12 then
      assert (block fileHasUsedBlocks ≠ 0)
      return some (oneBlock block fileHasUsedBlocks)
    else
      assert (block 12 ≠ 0)
      return some (← readTable (block 12) fun _ => 0)
  else if fileWillUseBlocks < 12 then
    assert (block fileHasUsedBlocks ≠ 0)
    allocBlocks sync p true addBlocks (fileHasUsedBlocks + 1) (oneBlock block fileHasUsedBlocks)
  else if fileHasUsedBlocks < 12 then
    assert (block fileHasUsedBlocks ≠ 0)
    match ← blockBitMapAlloc with
    | none => return none
    | some blockLba =>
      assert (block 12 = 0)
      -- no bitMapSync follows for the block of the indirect table
      setBlock p 12 blockLba
      match ← allocBlocks sync p false addBlocks (fileHasUsedBlocks + 1)
          (oneBlock block fileHasUsedBlocks) with
      | none => return none
      | some allBlocks =>
        ideWrite blockLba (wordsBytes fun k => allBlocks (12 + k)) 1
        return some allBlocks
  else
    assert (block 12 ≠ 0)
    let allBlocks ← readTable (block 12) fun _ => 0
    match ← allocBlocks sync p false addBlocks (fileHasUsedBlocks + 1) allBlocks with
    | none => return none
    | some allBlocks =>
      ideWrite (block 12) (wordsBytes fun k => allBlocks (12 + k)) 1
      return some allBlocks

/-- The loop that copies the buffer, one sector per round. Each round takes at least one
byte, so as many rounds as bytes are enough. -/
def writeChunks (p : ℕ) (allBlocks : ℕ → ℕ) :
    (fuel : ℕ) → (src : List UInt8) → (firstWriteBlock : Bool) → VolM Unit
  | 0, _, _ => pure ()
  | fuel + 1, src, firstWriteBlock =>
    if src = [] then pure ()
    else do
      let v ← get
      let size := (v.inodes p).size
      let secLba := allBlocks (size / 512)
      let secOffBytes := size % 512
      let chunkSize := min src.length (512 - secOffBytes)
      let ioBuf ← if firstWriteBlock then ideRead secLba 1 else pure fun _ => 0
      ideWrite secLba (memcpy ioBuf secOffBytes (fun k => src.getD k 0) chunkSize) 1
      addSize p chunkSize
      writeChunks p allBlocks fuel (src.drop chunkSize) false

/-- `fileWrite` over the routine that puts the changed sector of the block bitmap on disk.
A write that runs out of blocks returns -1 with the blocks taken so far still taken. -/
def fileWriteWith (sync : ℕ → VolM Unit) (fdIdx : ℕ) (buf : List UInt8) : FsM ℤ := do
  let p ← slotInode fdIdx
  let fs ← get
  let size := (fs.vol.inodes p).size
  let count := buf.length
  if (size + count) % 2 ^ 32 > 512 * 140 then return -1
  if !(← onVol sysMalloc) then return -1
  if !(← onVol sysMalloc) then return -1
  if !(← onVol (allocFirstBlock sync p)) then return -1
  let fileHasUsedBlocks := size / 512
  let fileWillUseBlocks := (size + count) % 2 ^ 32 / 512
  assert (fileWillUseBlocks < 140)
  match ← onVol (prepareBlocks sync p fileHasUsedBlocks fileWillUseBlocks) with
  | none => return -1
  | some allBlocks =>
    onVol (writeChunks p allBlocks count buf true)
    let fs ← get
    setFile fdIdx { fs.fileTable fdIdx with fdPos := (size + (2 ^ 32 - 1) + count) % 2 ^ 32 }
    onVol (inodeSync (fs.vol.inodes p))
    return count

def fileWrite (fdIdx : ℕ) (buf : List UInt8) : FsM ℤ :=
  fileWriteWith (fun bitIdx => bitMapSync bitIdx .blockBitmap) fdIdx buf

end Write

section Read

/-- The block addresses `fileRead` works with. -/
def readBlocks (block : ℕ → ℕ) (blockReadStartIdx blockReadEndIdx : ℕ) : VolM (ℕ → ℕ) := do
  let direct := fun k =>
    if blockReadStartIdx ≤ k ∧ k ≤ blockReadEndIdx ∧ k < 12 then block k else 0
  if blockReadEndIdx < 12 then return direct
  else
    assert (blockReadStartIdx = blockReadEndIdx ∨ block 12 ≠ 0)
    readTable (block 12) direct

/-- The loop that copies to the buffer; it returns the bytes in order. -/
def readChunks (allBlocks : ℕ → ℕ) : (fuel fdPos sizeLeft : ℕ) → VolM (List UInt8)
  | 0, _, _ => return []
  | fuel + 1, fdPos, sizeLeft =>
    if sizeLeft = 0 then return []
    else do
      let secOffBytes := fdPos % 512
      let chunkSize := min sizeLeft (512 - secOffBytes)
      let ioBuf ← ideRead (allBlocks (fdPos / 512)) 1
      let rest ← readChunks allBlocks fuel (fdPos + chunkSize) (sizeLeft - chunkSize)
      return (List.range chunkSize).map (fun k => ioBuf (secOffBytes + k)) ++ rest

/-- The bytes stored in the buffer, or `none` for -1. -/
def fileRead (fdIdx count : ℕ) : FsM (Option (List UInt8)) := do
  let p ← slotInode fdIdx
  let fs ← get
  let file := fs.fileTable fdIdx
  let inode := fs.vol.inodes p
  let past := (file.fdPos + count) % 2 ^ 32 > inode.size
  let size := if past then (inode.size + 2 ^ 32 - file.fdPos) % 2 ^ 32 else count
  if past ∧ size = 0 then return none
  if !(← onVol sysMalloc) then return none
  if !(← onVol sysMalloc) then return none
  let blockReadStartIdx := file.fdPos / 512
  let blockReadEndIdx := (file.fdPos + size) % 2 ^ 32 / 512
  assert (blockReadStartIdx < 140 ∧ blockReadEndIdx < 140)
  let allBlocks ← onVol (readBlocks inode.block blockReadStartIdx blockReadEndIdx)
  let bytes ← onVol (readChunks allBlocks size file.fdPos size)
  setFile fdIdx { file with fdPos := file.fdPos + size }
  return some bytes

end Read

end Gogoos
