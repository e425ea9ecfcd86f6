import Gogoos.Structure.BitMap

/-!
# The mounted volume

`curPart` with its disk: sectors, superblock, the two bitmaps in memory and the list of
open inodes. Memory regions and sectors are functions from byte offsets to bytes, words
are natural numbers stored little-endian, and an inode in memory is named by a number
standing for its address. The heap allocator is seen through an oracle: whether the
`t`-th `sysMalloc` of a run succeeds, and which bytes lie behind a sector buffer.
-/

namespace Gogoos

/-- `SECTOR_BYTE_SIZE` is 512; the disk has 80 MiB. -/
def maxLba : ℕ := 80 * 1024 * 1024 / 512 - 1

def divRoundUp (x step : ℕ) : ℕ := (x + step - 1) / step

section Words

/-- The 32-bit word at byte offset `off`. -/
def getWord (b : ℕ → UInt8) (off : ℕ) : ℕ :=
  (b off).toNat + 256 * (b (off + 1)).toNat + 65536 * (b (off + 2)).toNat +
    16777216 * (b (off + 3)).toNat

/-- Byte `k` of the 32-bit word `v`. -/
def wordByte (v k : ℕ) : UInt8 := UInt8.ofNat (v / 256 ^ k)

def memset (dst : ℕ → UInt8) (off : ℕ) (val : UInt8) (size : ℕ) : ℕ → UInt8 :=
  fun i => if off ≤ i ∧ i < off + size then val else dst i

def memcpy (dst : ℕ → UInt8) (off : ℕ) (src : ℕ → UInt8) (size : ℕ) : ℕ → UInt8 :=
  fun i => if off ≤ i ∧ i < off + size then src (i - off) else dst i

/-- Bytes of an array of words. -/
def wordsBytes (w : ℕ → ℕ) : ℕ → UInt8 := fun i => wordByte (w (i / 4)) (i % 4)

end Words

structure SuperBlock where
  magicNum : ℕ
  secCnt : ℕ
  inodeCnt : ℕ
  partLbaStart : ℕ
  blockBitMapLbaStart : ℕ
  blockBitMapSecCnt : ℕ
  inodeBitMapLbaStart : ℕ
  inodeBitMapSecCnt : ℕ
  inodeTableLbaStart : ℕ
  inodeTableSecCnt : ℕ
  dataLbaStart : ℕ
  rootInodeNo : ℕ
  dirEntrySize : ℕ

/-- `struct inode` without its list tag; `block` has the indices 0 to 12. -/
structure Inode where
  ino : ℕ
  size : ℕ
  openCnt : ℕ
  writeDeny : Bool
  block : ℕ → ℕ

/-- The 76 bytes of an inode whose list tag is zeroed. -/
def Inode.bytes (i : Inode) : ℕ → UInt8 := fun k =>
  if k < 4 then wordByte i.ino k
  else if k < 8 then wordByte i.size (k - 4)
  else if k < 12 then wordByte i.openCnt (k - 8)
  else if k < 16 then (if k = 12 ∧ i.writeDeny then 1 else 0)
  else if k < 68 then wordByte (i.block ((k - 16) / 4)) ((k - 16) % 4)
  else 0

def Inode.ofBytes (b : ℕ → UInt8) : Inode where
  ino := getWord b 0
  size := getWord b 4
  openCnt := getWord b 8
  writeDeny := b 12 ≠ 0
  block k := getWord b (16 + 4 * k)

/-- `fileName` holds the characters before the terminating zero. -/
structure DirEntry where
  fileName : List UInt8
  ino : ℕ
  fileType : ℕ
  deriving DecidableEq

namespace FileType
abbrev unknown : ℕ := 0
abbrev regular : ℕ := 1
abbrev directory : ℕ := 2
end FileType

/-- The 24 bytes of a directory entry. -/
def DirEntry.bytes (de : DirEntry) : ℕ → UInt8 := fun k =>
  if k < 16 then de.fileName.getD k 0
  else if k < 20 then wordByte de.ino (k - 16)
  else if k < 24 then wordByte de.fileType (k - 20)
  else 0

/-- The entry stored at byte offset `off`. -/
def DirEntry.ofBytes (b : ℕ → UInt8) (off : ℕ) : DirEntry where
  fileName := ((List.range 16).map fun i => b (off + i)).takeWhile (· ≠ 0)
  ino := getWord b (off + 16)
  fileType := getWord b (off + 20)

/-- `strcmp` of the string at offset `off` with a string without zero bytes: true when
they are equal. It reads as many bytes as `name` has, and one more. -/
def strEqAt (b : ℕ → UInt8) (off : ℕ) : List UInt8 → Bool
  | [] => b off = 0
  | c :: cs => b off = c && strEqAt b (off + 1) cs

inductive BitMapType where
  | inodeBitmap
  | blockBitmap
  deriving DecidableEq

/-- `idxLog` is a record of the bit indices handed to `bitMapSet` and `bitMapSync`, newest
first. The code keeps no such record; it is here for the statements about these indices. -/
structure Volume where
  disk : ℕ → ℕ → UInt8
  lbaStart : ℕ
  secCnt : ℕ
  superBlock : SuperBlock
  blockBitMap : BitMap
  inodeBitMap : BitMap
  inodes : ℕ → Inode
  nextInode : ℕ
  openInodes : List ℕ
  /-- `rootDir.inode`. -/
  rootInode : ℕ
  idxLog : List (BitMapType × ℕ)

structure Heap where
  sysMalloc : ℕ → Bool
  /-- The bytes behind the 512 bytes of a sector buffer. -/
  behind : ℕ → ℕ → UInt8
  /-- Contents of an uninitialised stack word. -/
  junk : ℕ → ℕ

abbrev VolM (α : Type) : Type := Program Heap Volume α

open Program

/-- Whether an allocation succeeds. -/
def sysMalloc : VolM Bool := ask Heap.sysMalloc

/-- An allocation whose result is used without a check: writing through `NULL` stops
the machine. -/
def sysMallocUnchecked : VolM Unit := do
  let ok ← sysMalloc
  assert ok

/-- `ideRead` of `secCnt` sectors, as the bytes it stores. The second range check is the
one `selectSector` makes for the last of its chunks of 256 sectors. -/
def ideRead (lba secCnt : ℕ) : VolM (ℕ → UInt8) := do
  assert (lba < maxLba ∧ 0 < secCnt)
  assert (lba + (secCnt - 1) / 256 * 256 < maxLba)
  let v ← get
  return fun i => v.disk (lba + i / 512) (i % 512)

/-- The volume after a transfer of `secCnt` sectors to the disk. -/
@[simps -fullyApplied] def Volume.write (v : Volume) (lba : ℕ) (buf : ℕ → UInt8) (secCnt : ℕ) : Volume :=
  { v with
    disk := fun l j =>
      if lba ≤ l ∧ l < lba + secCnt ∧ j < 512 then buf (512 * (l - lba) + j) else v.disk l j }

def ideWrite (lba : ℕ) (buf : ℕ → UInt8) (secCnt : ℕ) : VolM Unit := do
  assert (lba < maxLba ∧ 0 < secCnt)
  assert (lba + (secCnt - 1) / 256 * 256 < maxLba)
  modify fun v => v.write lba buf secCnt

section BitMaps

/-- `bitMapSet` on the inode bitmap. -/
@[simps -fullyApplied] def Volume.setInodeBit (v : Volume) (bitIdx : ℕ) (val : Bool) : Volume :=
  { v with
    inodeBitMap := bitMapSet v.inodeBitMap bitIdx val
    idxLog := (.inodeBitmap, bitIdx) :: v.idxLog }

/-- `bitMapSet` on the block bitmap. -/
@[simps -fullyApplied] def Volume.setBlockBit (v : Volume) (bitIdx : ℕ) (val : Bool) : Volume :=
  { v with
    blockBitMap := bitMapSet v.blockBitMap bitIdx val
    idxLog := (.blockBitmap, bitIdx) :: v.idxLog }

def setInodeBit (bitIdx : ℕ) (val : Bool) : VolM Unit :=
  modify fun v => v.setInodeBit bitIdx val

def setBlockBit (bitIdx : ℕ) (val : Bool) : VolM Unit :=
  modify fun v => v.setBlockBit bitIdx val

/-- `bitMapScanAndSet(&part->inodeBitMap, 1, 1)`. -/
def inodeBitMapAlloc : VolM (Option ℕ) := do
  let v ← get
  match bitMapScan v.inodeBitMap 1 with
  | none => return none
  | some bitIdx =>
    setInodeBit bitIdx true
    return some bitIdx

def blockBitMapAlloc : VolM (Option ℕ) := do
  let v ← get
  match bitMapScan v.blockBitMap 1 with
  | none => return none
  | some bitIdx =>
    setBlockBit bitIdx true
    return some (v.superBlock.dataLbaStart + bitIdx)

/-- Unsigned 32-bit subtraction. -/
def SuperBlock.lbaToBitMapIdx (sb : SuperBlock) (blockLba : ℕ) : ℕ :=
  (blockLba + (2 ^ 32 - sb.dataLbaStart)) % 2 ^ 32

def blockLbaToBitMapIdx (blockLba : ℕ) : VolM ℕ := do
  let v ← get
  return v.superBlock.lbaToBitMapIdx blockLba

/-- The sector offset of `bitMapSync`: `bitIdx / BITS_PER_SECTOR`, where the macro is
`SECTOR_BYTE_SIZE*8` without parentheses. -/
def syncSecOffset (bitIdx : ℕ) : ℕ := bitIdx / 512 * 8

def Volume.bitMapLbaStart (v : Volume) : BitMapType → ℕ
  | .inodeBitmap => v.superBlock.inodeBitMapLbaStart
  | .blockBitmap => v.superBlock.blockBitMapLbaStart

def Volume.bitMap (v : Volume) : BitMapType → BitMap
  | .inodeBitmap => v.inodeBitMap
  | .blockBitmap => v.blockBitMap

@[simps -fullyApplied] def Volume.logIdx (v : Volume) (btype : BitMapType) (bitIdx : ℕ) : Volume :=
  { v with idxLog := (btype, bitIdx) :: v.idxLog }

def bitMapSync (bitIdx : ℕ) (btype : BitMapType) : VolM Unit := do
  modify fun v => v.logIdx btype bitIdx
  let v ← get
  let secOffset := syncSecOffset bitIdx
  let byteOffset := secOffset * 512
  let secLba := v.bitMapLbaStart btype + secOffset
  ideWrite secLba (fun i => (v.bitMap btype).startAddr (byteOffset + i)) 1

end BitMaps

section Inodes

/-- Position of an inode in the inode table: sector, byte offset and whether the inode
crosses into the next sector. -/
structure InodePosition where
  crossSec : Bool
  secLba : ℕ
  byteOffset : ℕ

def inodeLocate (ino : ℕ) : VolM InodePosition := do
  assert (ino < 4096)
  let v ← get
  let byteOffset := ino * 76
  return {
    crossSec := 512 - byteOffset % 512 < 76
    secLba := v.superBlock.inodeTableLbaStart + byteOffset / 512
    byteOffset := byteOffset % 512 }

/-- The argument is the inode to store; its open count and write flag are stored as zero. -/
def inodeSync (inode : Inode) : VolM Unit := do
  let ip ← inodeLocate inode.ino
  let v ← get
  assert (ip.secLba ≤ v.lbaStart + v.secCnt)
  let pureInode := { inode with openCnt := 0, writeDeny := false }
  let secs := if ip.crossSec then 2 else 1
  let inodeBuf ← ideRead ip.secLba secs
  ideWrite ip.secLba (memcpy inodeBuf ip.byteOffset pureInode.bytes 76) secs

@[simps -fullyApplied] def Volume.setInode (v : Volume) (p : ℕ) (g : Inode → Inode) : Volume :=
  { v with inodes := fun q => if q = p then g (v.inodes q) else v.inodes q }

def modifyInode (p : ℕ) (g : Inode → Inode) : VolM Unit :=
  modify fun v => v.setInode p g

/-- The first open inode with this number. -/
def Volume.findOpen (v : Volume) (ino : ℕ) : Option ℕ :=
  v.openInodes.find? fun p => (v.inodes p).ino = ino

/-- A new inode object in memory. -/
@[simps -fullyApplied] def Volume.addInode (v : Volume) (i : Inode) : Volume :=
  { v with
    inodes := fun q => if q = v.nextInode then i else v.inodes q
    nextInode := v.nextInode + 1 }

def newInode (i : Inode) : VolM ℕ := do
  let v ← get
  modify fun v => v.addInode i
  return v.nextInode

@[simps -fullyApplied] def Volume.setOpenInodes (v : Volume) (l : List ℕ) : Volume :=
  { v with openInodes := l }

def inodeOpen (ino : ℕ) : VolM ℕ := do
  let v ← get
  match v.findOpen ino with
  | some p =>
    modifyInode p fun i => { i with openCnt := i.openCnt + 1 }
    return p
  | none =>
    let ip ← inodeLocate ino
    sysMallocUnchecked
    sysMallocUnchecked
    let inodeBuf ← ideRead ip.secLba (if ip.crossSec then 2 else 1)
    let p ← newInode
      { Inode.ofBytes (fun k => inodeBuf (ip.byteOffset + k)) with openCnt := 1 }
    modify fun v => v.setOpenInodes (p :: v.openInodes)
    return p

/-- The open count is unsigned: one below zero is the largest word. It is not bounded
above here. -/
def inodeClose (p : ℕ) : VolM Unit := do
  modifyInode p fun i =>
    { i with openCnt := if i.openCnt = 0 then 2 ^ 32 - 1 else i.openCnt - 1 }
  let v ← get
  if (v.inodes p).openCnt = 0 then
    modify fun v => v.setOpenInodes (v.openInodes.erase p)

def inodeInit (ino : ℕ) : Inode where
  ino := ino
  size := 0
  openCnt := 0
  writeDeny := false
  block _ := 0

/-- `allBlocks`: the twelve direct blocks and, when there is an indirect table, its 128
entries. A fresh array is zero. -/
def loadAllBlocks (i : Inode) : VolM (ℕ → ℕ) := do
  if i.block 12 ≠ 0 then
    let table ← ideRead (i.block 12) 1
    return fun k =>
      if k < 12 then i.block k else if k < 140 then getWord table (4 * (k - 12)) else 0
  else
    return fun k => if k < 12 then i.block k else 0

/-- Second loop of `inodeRelease`, over `blockCnt` blocks. -/
def releaseBlocks (allBlocks : ℕ → ℕ) : (cnt blockIdx : ℕ) → VolM Unit
  | 0, _ => pure ()
  | cnt + 1, blockIdx => do
    if allBlocks blockIdx ≠ 0 then
      let blockBitMapIdx ← blockLbaToBitMapIdx (allBlocks blockIdx)
      assert (0 < blockBitMapIdx)
      setBlockBit blockBitMapIdx false
      bitMapSync blockBitMapIdx .blockBitmap
    releaseBlocks allBlocks cnt (blockIdx + 1)

/-- After reading the indirect table the code assigns 140 to `blockIdx`, which the next
statement overwrites, so `blockCnt` is 12 for every inode. -/
def inodeRelease (ino : ℕ) : VolM Unit := do
  let p ← inodeOpen ino
  let v ← get
  let inodeToDel := v.inodes p
  assert (inodeToDel.ino = ino)
  sysMallocUnchecked
  let allBlocks ← loadAllBlocks inodeToDel
  if inodeToDel.block 12 ≠ 0 then
    let blockBitMapIdx ← blockLbaToBitMapIdx (inodeToDel.block 12)
    assert (0 < blockBitMapIdx)
    setBlockBit blockBitMapIdx false
    bitMapSync blockBitMapIdx .blockBitmap
  let blockCnt := 12
  releaseBlocks allBlocks blockCnt 0
  setInodeBit ino false
  bitMapSync ino .inodeBitmap
  inodeClose p

end Inodes

end Gogoos
