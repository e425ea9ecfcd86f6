import Gogoos.Kernel.Exec

/-!
# Where a program is loaded

`sysExecv` of `kernel/user/exec.c` with 32-bit addresses: which pages it maps and at which
addresses it stores bytes. The kernel's part of memory belongs to the picture, what the bytes say
does not, the headers of the file apart. What a page table or a variable says after the file was
stored onto it is not described either.

The heap that `sysMalloc` takes its blocks from is the caller's own, and its links lie in user
space. As long as they are in order a call stores on the pages of the heap and in the block lists
of the PCB. After a byte was stored over a link the next call may store anywhere.
-/

namespace Gogoos

open Program

/-- What a call of `sysMalloc` does: the pages that it adds to the heap, and the addresses at which
it stores, the later use of the block included. -/
structure Grant where
  pages : List ℕ
  bytes : ℕ → Bool

structure Loader where
  content : List UInt8
  fdPos : ℕ
  /-- The pages that are present, those of the kernel included. -/
  mapped : ℕ → Bool
  /-- The page of the PCB of the caller, where its kernel stack is. -/
  stackPage : ℕ
  /-- Where the variables of `load` are in that page. -/
  elfHeader : ℕ
  programHeader : ℕ
  /-- What the next calls of `sysMalloc` do, or `NULL`. -/
  heap : List (Option Grant)
  /-- The pages of the caller's heap. -/
  heapPage : ℕ → Bool
  /-- Whether a byte was stored over a link of the heap. -/
  disturbed : Bool
  /-- The user frames that are left. -/
  frames : ℕ
  /-- Whether an entry of the block table that was not read is the number of a sector. -/
  behind : ℕ → Bool
  /-- The addresses at which a byte was stored. -/
  stored : ℕ → Bool
  /-- The bits that `getOnePage` has set, counted from the beginning of the caller's bitmap. -/
  marked : ℕ → Bool

abbrev LoaderM (α : Type) : Type := Program Unit Loader α

namespace Loader

open Image (header field Acceptable ptLoad)

section Memory

/-- The pages of user space: from `USER_VADDR_START` to `0xc0000000`. -/
def userPage (p : ℕ) : Bool := 8 ≤ p && p < 0xc0000

/-- The bits of the bitmap of a process. -/
def bitMapLength : ℕ := (0xc0000000 - 0x8000) / 4096 / 8 * 8

/-- The places in an arena where the links of its three blocks of 1024 bytes are, the size for both
buffers of `fileRead`. -/
def isLink (off : ℕ) : Bool := off < 3072 && 12 ≤ off % 1024 && off % 1024 < 20

/-- A byte is stored at `a`. -/
def store (s : Loader) (a : ℕ) : Loader :=
  { s with
    stored := fun a' => a' = a || s.stored a'
    disturbed := s.disturbed || (s.heapPage (a / 4096) && isLink (a % 4096)) }

/-- The bit of a page is set. The difference that gives it is one of `uint32`, so that it is never
negative. -/
def mark (s : Loader) (page : ℕ) : Loader :=
  { s with marked := fun b => b = (page + 2 ^ 20 - 8) % 2 ^ 20 || s.marked b }

def mapPage (s : Loader) (page : ℕ) : Loader :=
  { s with mapped := fun p => p = page || s.mapped p, frames := s.frames - 1 }

/-- `memcpy` and `memset`; a page that is not present faults. -/
def storeBytes : (count dst : ℕ) → LoaderM Unit
  | 0, _ => return ()
  | count + 1, dst => do
    let s ← get
    assert (s.mapped (dst / 4096) = true)
    modify fun s => s.store dst
    storeBytes count ((dst + 1) % 2 ^ 32)

/-- A page that the heap gets is a user page that was not mapped. -/
def added (s : Loader) (g : Grant) (p : ℕ) : Bool :=
  userPage p && !s.mapped p && g.pages.contains p

/-- A block is given. -/
def grant (s : Loader) (g : Grant) : Loader :=
  { s with
    mapped := fun p => s.mapped p || s.added g p
    heapPage := fun p => s.heapPage p || s.added g p
    frames := s.frames - g.pages.length
    stored := fun a => s.stored a || (g.bytes a && (s.disturbed || s.heapPage (a / 4096) ||
      s.added g (a / 4096) || a / 4096 = s.stackPage)) }

/-- The heap of a process grows in its user space. -/
def sysMalloc : LoaderM Bool := do
  let s ← get
  match s.heap with
  | [] => return false
  | none :: heap =>
    modify fun s => { s with heap := heap }
    return false
  | some g :: heap =>
    modify fun s => { s.grant g with heap := heap }
    return true

/-- `getOnePage(PF_USER, vaddrPage)`. -/
def getOnePage (page : ℕ) : LoaderM Bool := do
  modify fun s => s.mark page
  let s ← get
  if s.frames = 0 then return false
  else
    -- `PANIC("pte repeat")`
    assert (s.mapped page = false)
    modify fun s => s.mapPage page
    return true

end Memory

section Files

/-- How many bytes `fileRead` sets out to read; `none` at the end of the file. -/
def readCount (size fdPos count : ℕ) : Option ℕ :=
  if (fdPos + count) % 2 ^ 32 > size then
    let left := (size + 2 ^ 32 - fdPos) % 2 ^ 32
    if left = 0 then none else some left
  else some count

/-- The loop of `fileRead`. The entries of the block table, which is in the heap, are right for a
read inside of the file. -/
def readSectors (inFile : Bool) : (rounds sizeLeft dst : ℕ) → LoaderM Unit
  | 0, _, _ => return ()
  | rounds + 1, sizeLeft, dst =>
    if sizeLeft = 0 then return ()
    else do
      let s ← get
      assert ((inFile = true ∧ s.disturbed = false) ∨ s.behind (s.fdPos / 512) = true)
      let chunkSize := min sizeLeft (512 - s.fdPos % 512)
      storeBytes chunkSize dst
      modify fun s => { s with fdPos := (s.fdPos + chunkSize) % 2 ^ 32 }
      readSectors inFile rounds (sizeLeft - chunkSize) ((dst + chunkSize) % 2 ^ 32)

/-- `fileRead`; -1 is `none`. -/
def fileRead (buf count : ℕ) : LoaderM (Option ℕ) := do
  let s ← get
  match readCount s.content.length s.fdPos count with
  | none => return none
  | some size =>
    let ioBuf ← sysMalloc
    if ioBuf then
      let allBlocks ← sysMalloc
      if allBlocks then
        assert (s.fdPos / 512 < 140 ∧ (s.fdPos + size) % 2 ^ 32 / 512 < 140)
        readSectors (s.fdPos + size ≤ s.content.length) size size buf
        return some size
      else return none
    else return none

/-- `sysRead` of a file. -/
def sysRead (buf count : ℕ) : LoaderM (Option ℕ) := do
  assert (buf ≠ 0)
  fileRead buf count

/-- The position after `sysLseek(fd, offset, SEEK_SET)`; `offset` is read as an `int32`. -/
def seek (content : List UInt8) (fdPos offset : ℕ) : ℕ :=
  if offset < 2 ^ 31 ∧ offset < content.length then offset else fdPos

def sysLseek (offset : ℕ) : LoaderM Unit :=
  modify fun s => { s with fdPos := seek s.content s.fdPos offset }

end Files

section Load

def occupyPages (fileSize vaddr : ℕ) : ℕ :=
  let sizeInFirstPage := 4096 - vaddr % 4096
  if fileSize > sizeInFirstPage then (fileSize - sizeInFirstPage + 4095) % 2 ^ 32 / 4096 + 1
  else 1

/-- The loop of `segmentLoad`. Every round tests the first page, whatever page it is about. -/
def mapSegment (vaddr : ℕ) : (left page : ℕ) → LoaderM Bool
  | 0, _ => return true
  | left + 1, page => do
    let s ← get
    if s.mapped (vaddr / 4096) = true then mapSegment vaddr left ((page + 1) % 2 ^ 20)
    else
      let got ← getOnePage page
      if got then mapSegment vaddr left ((page + 1) % 2 ^ 20) else return false

def segmentLoad (offset fileSize vaddr : ℕ) : LoaderM Bool := do
  let mapped ← mapSegment vaddr (occupyPages fileSize vaddr) (vaddr / 4096)
  if mapped then
    sysLseek offset
    let _ ← sysRead vaddr fileSize
    return true
  else return false

/-- The header at some place of the file. -/
def headerAt (content : List UInt8) (off : ℕ) : Elf32Phdr :=
  header ((content.drop off).take 32)

/-- The loop over the program headers. A read that returns 32 was one inside of the file. -/
def loadHeaders : (left programHeaderOffset : ℕ) → LoaderM Bool
  | 0, _ => return true
  | left + 1, programHeaderOffset => do
    let s ← get
    storeBytes 32 (s.stackPage * 4096 + s.programHeader)
    sysLseek programHeaderOffset
    let s ← get
    let got ← sysRead (s.stackPage * 4096 + s.programHeader) 32
    if got ≠ some 32 then return false
    else
      let programHeader := headerAt s.content s.fdPos
      let loaded ←
        if programHeader.type = ptLoad then
          segmentLoad programHeader.offset programHeader.filesz programHeader.vaddr
        else pure true
      if loaded then loadHeaders left ((programHeaderOffset + 32) % 2 ^ 32) else return false

/-- `load`, after `sysOpen` has found the file. -/
def load : LoaderM ℤ := do
  let s ← get
  storeBytes 52 (s.stackPage * 4096 + s.elfHeader)
  let got ← sysRead (s.stackPage * 4096 + s.elfHeader) 52
  let elfHeader := (s.content.drop s.fdPos).take 52
  if got ≠ some 52 then return -1
  else if ¬ Acceptable elfHeader then return -1
  else
    let loaded ← loadHeaders (field elfHeader 44 2) (field elfHeader 28 4)
    if loaded then return Int.bmod (field elfHeader 24 4) (2 ^ 32) else return -1

/-- Words are stored at some places behind `start`. -/
def storeWords (start : ℕ) : List ℕ → LoaderM Unit
  | [] => return ()
  | off :: offs => do
    storeBytes 4 (start + off)
    storeWords start offs

/-- The fields of `IntrStack` that `sysExecv` sets: `edi`, `esi`, `ebp`, `espDummy`, `edx`, `eax`,
`ebx`, `ecx`, `eip` and `esp`. -/
def intrStackFields : List ℕ := [4, 8, 12, 16, 24, 32, 20, 28, 56, 68]

/-- The end of `sysExecv`; the jump to `intrExit` is the return of 0. -/
def setIntrStack (entryPoint : ℤ) : LoaderM ℤ := do
  if entryPoint = -1 then return -1
  else
    let s ← get
    storeWords (s.stackPage * 4096 + (4096 - 76)) intrStackFields
    return 0

def sysExecv : LoaderM ℤ := do
  let entryPoint ← load
  setIntrStack entryPoint

end Load

section Meaning

/-- The first MiB of memory and the tables of the kernel are mapped in every address space. -/
def resident (p : ℕ) : Bool :=
  (0xc0000 ≤ p && p < 0xc0100) || (0xfff00 ≤ p && p < 0x100000)

/-- A user process that has just opened the file. Its PCB is on a page of the kernel heap, and its
own heap is in order. -/
structure Caller (s : Loader) : Prop where
  heapPage : ∀ p, s.heapPage p = true → userPage p = true
  intact : s.disturbed = false
  pos : s.fdPos = 0
  low : 0xc0100 ≤ s.stackPage
  high : s.stackPage < 0xfff00
  stack : s.mapped s.stackPage = true
  resident : ∀ p, resident p = true → s.mapped p = true
  elfHeader : s.elfHeader + 52 ≤ 4096
  programHeader : s.programHeader + 32 ≤ 4096

/-- An address of user space or of the caller's own kernel stack. -/
def Allowed (s : Loader) (a : ℕ) : Prop := a < 0xc0000000 ∨ a / 4096 = s.stackPage

/-- From `s` to `s'` only pages of user space were mapped, with bits of the caller's bitmap, and
only bytes of user space and of the caller's kernel stack were stored. -/
structure Confined (s s' : Loader) : Prop where
  pages : ∀ p, s'.mapped p = true → s.mapped p = true ∨ p < 0xc0000
  bytes : ∀ a, s'.stored a = true → s.stored a = true ∨ s.Allowed a
  bits : ∀ b, s'.marked b = true → s.marked b = true ∨ b < bitMapLength

/-- Whatever process executes the file, and however that ends. -/
def Safe (c : List UInt8) : Prop :=
  ∀ s, Caller s → s.content = c →
    wp (Confined s) () sysExecv (fun _ s' => Confined s s') s

/-- A program header that can be read. -/
def Whole (c : List UInt8) (off : ℕ) : Prop := off + 32 ≤ c.length ∧ off + 32 < 140 * 512

instance (c : List UInt8) (off : ℕ) : Decidable (Whole c off) :=
  inferInstanceAs (Decidable (_ ∧ _))

/-- How many bytes a read delivers at position `fdPos`; `none` when an assertion fails. -/
def amount (c : List UInt8) (fdPos count : ℕ) : Option ℕ :=
  match readCount c.length fdPos count with
  | none => some 0
  | some n => if fdPos / 512 < 140 ∧ (fdPos + n) % 2 ^ 32 / 512 < 140 then some n else none

/-- What the loop of `load` comes to: the headers that are left, the place of the next one and the
position of the descriptor. A segment is passed also when there is no memory to read it. -/
inductive Comes (c : List UInt8) : (left programHeaderOffset fdPos : ℕ) → Prop
  | start : 52 ≤ c.length → Acceptable (c.take 52) →
      Comes c (field (c.take 52) 44 2) (field (c.take 52) 28 4) 52
  | other {left off pos : ℕ} : Comes c (left + 1) off pos → Whole c (seek c pos off) →
      (headerAt c (seek c pos off)).type ≠ ptLoad →
      Comes c left ((off + 32) % 2 ^ 32) (seek c pos off + 32)
  | read {left off pos n : ℕ} {g : Elf32Phdr} : Comes c (left + 1) off pos →
      Whole c (seek c pos off) → headerAt c (seek c pos off) = g → g.type = ptLoad →
      amount c (seek c (seek c pos off + 32) g.offset) g.filesz = some n →
      Comes c left ((off + 32) % 2 ^ 32) (seek c (seek c pos off + 32) g.offset + n)
  | unread {left off pos : ℕ} {g : Elf32Phdr} : Comes c (left + 1) off pos →
      Whole c (seek c pos off) → headerAt c (seek c pos off) = g → g.type = ptLoad →
      Comes c left ((off + 32) % 2 ^ 32) (seek c (seek c pos off + 32) g.offset)

/-- The first page of a segment is a user page or always there, and its bytes that are in the file
end in user space. -/
structure InUserSpace (c : List UInt8) (g : Elf32Phdr) (fdPos : ℕ) : Prop where
  page : userPage (g.vaddr / 4096) = true ∨ resident (g.vaddr / 4096) = true
  bytes : ∀ n, amount c fdPos g.filesz = some n → n = 0 ∨ g.vaddr + n ≤ 0xc0000000

/-- Every segment that the loop comes to is in user space. -/
def Harmless (c : List UInt8) : Prop :=
  ∀ left off pos, Comes c (left + 1) off pos → Whole c (seek c pos off) →
    (headerAt c (seek c pos off)).type = ptLoad →
      InUserSpace c (headerAt c (seek c pos off))
        (seek c (seek c pos off + 32) (headerAt c (seek c pos off)).offset)

/-- A segment that is stored over the place of a link is the last thing that is read. -/
def Undisturbing (c : List UInt8) : Prop :=
  ∀ left off pos n, Comes c (left + 1) off pos → Whole c (seek c pos off) →
    (headerAt c (seek c pos off)).type = ptLoad →
    amount c (seek c (seek c pos off + 32) (headerAt c (seek c pos off)).offset)
      (headerAt c (seek c pos off)).filesz = some n →
    (∀ i < n, isLink (((headerAt c (seek c pos off)).vaddr + i) % 4096) = false) ∨ left = 0 ∨
      readCount c.length (seek c (seek c (seek c pos off + 32)
        (headerAt c (seek c pos off)).offset + n) ((off + 32) % 2 ^ 32)) 32 = none

end Meaning

end Loader

end Gogoos
