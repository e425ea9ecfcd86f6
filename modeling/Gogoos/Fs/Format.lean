import Gogoos.Fs.Path

/-!
# Formatting and mounting

`partitionFormat`, `mountPartition` and `fsInit` of `fs/fs.c`.
-/

namespace Gogoos

open Program

/-- A partition of one of the disks, with room for the tables and eight blocks. -/
structure Partition where
  name : List UInt8
  hd : ℕ
  lbaStart : ℕ
  secCnt : ℕ
  room : 620 ≤ secCnt
  onDisk : lbaStart + secCnt ≤ maxLba

section Bytes

/-- The 13 words of the superblock; the rest of the sector was never set. -/
def SuperBlock.bytes (sb : SuperBlock) (emptyByte : ℕ → UInt8) : ℕ → UInt8 := fun k =>
  if k < 52 then
    wordsBytes (fun i => [sb.magicNum, sb.secCnt, sb.inodeCnt, sb.partLbaStart,
      sb.blockBitMapLbaStart, sb.blockBitMapSecCnt, sb.inodeBitMapLbaStart,
      sb.inodeBitMapSecCnt, sb.inodeTableLbaStart, sb.inodeTableSecCnt, sb.dataLbaStart,
      sb.rootInodeNo, sb.dirEntrySize].getD i 0) k
  else emptyByte k

def SuperBlock.ofBytes (b : ℕ → UInt8) : SuperBlock where
  magicNum := getWord b 0
  secCnt := getWord b 4
  inodeCnt := getWord b 8
  partLbaStart := getWord b 12
  blockBitMapLbaStart := getWord b 16
  blockBitMapSecCnt := getWord b 20
  inodeBitMapLbaStart := getWord b 24
  inodeBitMapSecCnt := getWord b 28
  inodeTableLbaStart := getWord b 32
  inodeTableSecCnt := getWord b 36
  dataLbaStart := getWord b 40
  rootInodeNo := getWord b 44
  dirEntrySize := getWord b 48

end Bytes

namespace Partition

/-- `SUPER_BLOCK_MAGIC_NUM`. -/
def magic : ℕ := 0x20212021

/-- The sectors behind the boot sector, the superblock, the inode bitmap and the inode table. -/
def freeSecCnt (p : Partition) : ℕ := p.secCnt - (1 + 1 + 1 + divRoundUp (76 * 4096) 512)

/-- The blocks that the bitmap is about. -/
def blockBitMapBitCnt (p : Partition) : ℕ := p.freeSecCnt - divRoundUp p.freeSecCnt 4096

def blockBitMapSecCnt (p : Partition) : ℕ := divRoundUp p.blockBitMapBitCnt 4096

def superBlock (p : Partition) : SuperBlock where
  magicNum := magic
  secCnt := p.secCnt
  inodeCnt := 4096
  partLbaStart := p.lbaStart
  blockBitMapLbaStart := p.lbaStart + 2
  blockBitMapSecCnt := p.blockBitMapSecCnt
  inodeBitMapLbaStart := p.lbaStart + 2 + p.blockBitMapSecCnt
  inodeBitMapSecCnt := 1
  inodeTableLbaStart := p.lbaStart + 2 + p.blockBitMapSecCnt + 1
  inodeTableSecCnt := divRoundUp (76 * 4096) 512
  dataLbaStart := p.lbaStart + 2 + p.blockBitMapSecCnt + 1 + divRoundUp (76 * 4096) 512
  rootInodeNo := 0
  dirEntrySize := 24

/-- The block bitmap: the bits behind the last block are set to the end of its sector. -/
def blockBitMap (p : Partition) : BitMap :=
  let lastByte := p.blockBitMapBitCnt / 8
  let lastBit := p.blockBitMapBitCnt % 8
  let lastSize := 512 - lastByte % 512
  let buf := memset (memset (fun _ => 0) 0 0x01 1) lastByte 0xff lastSize
  bitMapSetRun ⟨512 * p.blockBitMapSecCnt, buf⟩ false lastBit (8 * lastByte)

/-- The root directory. -/
def rootInode (p : Partition) : Inode where
  ino := 0
  size := p.superBlock.dirEntrySize * 2
  openCnt := 0
  writeDeny := false
  block k := if k = 0 then p.superBlock.dataLbaStart else 0

end Partition

/-- `partitionFormat`, on the disk of the partition. -/
def partitionFormat (p : Partition) : VolM Unit := do
  let emptyByte ← ask fun e t => e.behind t
  ideWrite (p.lbaStart + 1) (p.superBlock.bytes emptyByte) 1
  sysMallocUnchecked
  ideWrite p.superBlock.blockBitMapLbaStart p.blockBitMap.startAddr p.superBlock.blockBitMapSecCnt
  ideWrite p.superBlock.inodeBitMapLbaStart (memset (fun _ => 0) 0 0x01 1)
    p.superBlock.inodeBitMapSecCnt
  ideWrite p.superBlock.inodeTableLbaStart p.rootInode.bytes p.superBlock.inodeTableSecCnt
  ideWrite p.superBlock.dataLbaStart (newDirSector 0 0) 1

/-- The part of `mountPartition` that reads the disk. -/
def readTables (p : Partition) : VolM (SuperBlock × BitMap × BitMap) := do
  sysMallocUnchecked
  sysMallocUnchecked
  let buf ← ideRead (p.lbaStart + 1) 1
  let sb := SuperBlock.ofBytes buf
  sysMallocUnchecked
  let blocks ← ideRead sb.blockBitMapLbaStart sb.blockBitMapSecCnt
  sysMallocUnchecked
  let inodes ← ideRead sb.inodeBitMapLbaStart sb.inodeBitMapSecCnt
  return (sb, ⟨512 * sb.blockBitMapSecCnt, blocks⟩, ⟨512 * sb.inodeBitMapSecCnt, inodes⟩)

/-- The disks and what the kernel knows of them. The sectors of disk `curHd` are those of the
mounted volume. -/
structure Computer where
  disks : ℕ → ℕ → ℕ → UInt8
  partitionList : List Partition
  curHd : ℕ
  fs : Fs

abbrev ComputerM (α : Type) : Type := Program Heap Computer α

namespace Computer

/-- What is on the disks. -/
def image (c : Computer) (hd : ℕ) : ℕ → ℕ → UInt8 :=
  if hd = c.curHd then c.fs.vol.disk else c.disks hd

/-- A program on one disk. -/
def onDisk {α : Type} (hd : ℕ) (m : VolM α) : ComputerM α :=
  zoom (fun c => { c.fs.vol with disk := c.disks hd })
    (fun v c => { c with disks := fun h => if h = hd then v.disk else c.disks h }) m

/-- The loop of `fsInit` over the partitions. -/
def formatAll : List Partition → ComputerM Unit
  | [] => return ()
  | p :: ps => do
    onDisk p.hd do
      let sb ← ideRead (p.lbaStart + 1) 1
      if (SuperBlock.ofBytes sb).magicNum = Partition.magic then partitionFormat p
      else partitionFormat p
    formatAll ps

def mountPartition (p : Partition) : ComputerM Unit := do
  let (sb, blockBitMap, inodeBitMap) ← onDisk p.hd (readTables p)
  modify fun c =>
    { c with
      curHd := p.hd
      fs := c.fs.setVol
        { c.fs.vol with
          disk := c.disks p.hd
          lbaStart := p.lbaStart
          secCnt := p.secCnt
          superBlock := sb
          blockBitMap := blockBitMap
          inodeBitMap := inodeBitMap
          openInodes := [] } }

/-- A program on the mounted volume. -/
def onMounted {α : Type} (m : VolM α) : ComputerM α :=
  zoom (fun c => c.fs.vol) (fun v c => { c with fs := c.fs.setVol v }) m

def openRootDir : ComputerM Unit := do
  let c ← get
  let p ← onMounted (inodeOpen c.fs.vol.superBlock.rootInodeNo)
  modify fun c => { c with fs := c.fs.setVol { c.fs.vol with rootInode := p } }

/-- `"sdb1"`. -/
def defaultPart : List UInt8 := [115, 100, 98, 49]

/-- `fsInit` of a kernel that finds this on the disks. -/
def fsInit : ComputerM Unit := do
  modify fun c => { c with disks := c.image }
  let c ← get
  formatAll c.partitionList
  match c.partitionList.find? fun p => p.name = defaultPart with
  | none => halt
  | some p =>
    mountPartition p
    openRootDir
    modify fun c =>
      { c with fs := { c.fs with fileTable := fun fd =>
          if fd < 32 then { c.fs.fileTable fd with fdInode := none } else c.fs.fileTable fd } }

end Computer

end Gogoos
