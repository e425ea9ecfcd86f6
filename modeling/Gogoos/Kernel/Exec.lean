import Gogoos.Logic.Program

/-!
# Loading a program

`segmentLoad` and `load` of `kernel/user/exec.c`. The file is its content and the position of
the descriptor, as `fileRead` and `sysLseek` see it, and memory the bytes of the user pages that
are mapped. A page that `getOnePage` maps holds what was in its frame before.

`fileRead` takes two blocks of the heap that it never gives back, and this is the heap of the
caller, in the same user space. What its calls of `sysMalloc` do there is the environment of the
program.
-/

namespace Gogoos

open Program

structure Image where
  /-- The bytes of the file. -/
  content : List UInt8
  fdPos : ℕ
  mapped : ℕ → Bool
  bytes : ℕ → UInt8
  /-- What a page shows when it gets a frame. -/
  fresh : ℕ → UInt8
  /-- The user frames that are left. -/
  frames : ℕ

/-- What a call of `sysMalloc` does to user space, the later use of its block included: the page
that the heap grows by, which is cleared, and the bytes that are stored. -/
structure HeapCall where
  page : Option ℕ
  bytes : ℕ → Option UInt8

/-- The calls of `sysMalloc`, one after the other; `none` stands for `NULL`. -/
abbrev HeapCalls : Type := ℕ → Option HeapCall

/-- There is enough memory. -/
def Ample (e : HeapCalls) : Prop := ∀ t, e t ≠ none

abbrev ImageM (α : Type) : Type := Program HeapCalls Image α

/-- A program header, as far as `load` reads it. -/
structure Elf32Phdr where
  type : ℕ
  offset : ℕ
  vaddr : ℕ
  filesz : ℕ
  memsz : ℕ
  deriving DecidableEq

namespace Image

section Files

/-- The user space after a call of `sysMalloc`. -/
def grow (s : Image) (c : HeapCall) : Image :=
  { s with
    mapped := fun p => c.page = some p || s.mapped p
    bytes := fun a => (c.bytes a).getD (if c.page = some (a / 4096) then 0 else s.bytes a)
    frames := if c.page = none then s.frames else s.frames - 1 }

def sysMalloc : ImageM Bool := do
  let call ← ask fun e t => e t
  match call with
  | none => return false
  | some c =>
    modify fun s => s.grow c
    return true

/-- The file holds fewer than 140 blocks. -/
def fileRead (count : ℕ) : ImageM (Option (List UInt8)) := do
  let s ← get
  let size := if s.fdPos + count > s.content.length then s.content.length - s.fdPos else count
  if s.fdPos + count > s.content.length ∧ size = 0 then return none
  else
    let ioBuf ← sysMalloc
    if ioBuf then
      let allBlocks ← sysMalloc
      if allBlocks then
        assert (s.fdPos / 512 < 140 ∧ (s.fdPos + size) / 512 < 140)
        modify fun s => { s with fdPos := s.fdPos + size }
        return some ((s.content.drop s.fdPos).take size)
      else return none
    else return none

/-- `sysLseek(fd, offset, SEEK_SET)`; `offset` is read as an `int32`. -/
def sysLseek (offset : ℕ) : ImageM ℤ := do
  let s ← get
  if offset < 2 ^ 31 ∧ offset < s.content.length then
    modify fun s => { s with fdPos := offset }
    return offset
  else return -1

/-- The page at `vaddr` gets a frame. -/
def mapPage (s : Image) (page : ℕ) : Image :=
  { s with
    mapped := fun p => p = page || s.mapped p
    bytes := fun a => if a / 4096 = page then s.fresh a else s.bytes a
    frames := s.frames - 1 }

/-- Bytes are stored at `vaddr`. -/
def write (s : Image) (vaddr : ℕ) (data : List UInt8) : Image :=
  { s with
    bytes := fun a => if vaddr ≤ a ∧ a < vaddr + data.length then data.getD (a - vaddr) 0
      else s.bytes a }

/-- `sysRead` into user memory. A page that is not mapped faults. -/
def readUser (vaddr count : ℕ) : ImageM ℤ := do
  assert (vaddr ≠ 0)
  let data ← fileRead count
  match data with
  | none => return -1
  | some data =>
    let s ← get
    assert (∀ i < data.length, s.mapped ((vaddr + i) / 4096) = true)
    modify fun s => s.write vaddr data
    return data.length

/-- `getOnePage(PF_USER, vaddrPage)`, which is called for pages that are not mapped. -/
def getOnePage (page : ℕ) : ImageM Bool := do
  let s ← get
  if s.frames = 0 then return false
  else
    assert (s.mapped page = false)
    modify fun s => s.mapPage page
    return true

end Files

section Load

/-- The pages that `fileSize` bytes from `vaddr` on occupy. -/
def occupyPages (fileSize vaddr : ℕ) : ℕ :=
  let sizeInFirstPage := 4096 - vaddr % 4096
  if fileSize > sizeInFirstPage then (fileSize - sizeInFirstPage + 4095) / 4096 + 1 else 1

/-- The loop of `segmentLoad`. Every round tests the first page, whatever page it is about. -/
def mapSegment (vaddr : ℕ) : (left page : ℕ) → ImageM Bool
  | 0, _ => return true
  | left + 1, page => do
    let s ← get
    if s.mapped (vaddr / 4096) = true then mapSegment vaddr left (page + 1)
    else
      let got ← getOnePage page
      if got then mapSegment vaddr left (page + 1) else return false

/-- The results of the seek and of the read are not used. -/
def segmentLoad (offset fileSize vaddr : ℕ) : ImageM Bool := do
  let mapped ← mapSegment vaddr (occupyPages fileSize vaddr) (vaddr / 4096)
  if mapped then
    let _ ← sysLseek offset
    let _ ← readUser vaddr fileSize
    return true
  else return false

/-- A field of `len` bytes at `off`, little endian. -/
def field (data : List UInt8) (off : ℕ) : (len : ℕ) → ℕ
  | 0 => 0
  | len + 1 => (data.getD off 0).toNat + 256 * field data (off + 1) len

def header (data : List UInt8) : Elf32Phdr where
  type := field data 0 4
  offset := field data 4 4
  vaddr := field data 8 4
  filesz := field data 16 4
  memsz := field data 20 4

/-- `PT_LOAD`. -/
def ptLoad : ℕ := 1

/-- The loop over the program headers; false when one cannot be loaded. -/
def loadHeaders : (left programHeaderOffset : ℕ) → ImageM Bool
  | 0, _ => return true
  | left + 1, programHeaderOffset => do
    let _ ← sysLseek programHeaderOffset
    let data ← fileRead 32
    let data := data.getD []
    if data.length ≠ 32 then return false
    else
      let programHeader := header data
      let loaded ←
        if programHeader.type = ptLoad then
          segmentLoad programHeader.offset programHeader.filesz programHeader.vaddr
        else pure true
      if loaded then loadHeaders left ((programHeaderOffset + 32) % 2 ^ 32) else return false

/-- `"\x7f\x45\x4c\x46\x01\x01\x01"`. -/
def elfMagic : List UInt8 := [127, 69, 76, 70, 1, 1, 1]

/-- What the header of the file must say. -/
def Acceptable (data : List UInt8) : Prop :=
  data.take 7 = elfMagic ∧ field data 16 2 = 2 ∧ field data 18 2 = 3 ∧ field data 20 4 = 1 ∧
    field data 44 2 ≤ 1024 ∧ field data 42 2 = 32

instance (data : List UInt8) : Decidable (Acceptable data) := by
  unfold Acceptable
  infer_instance

/-- `load`, after `sysOpen` has found the file. The entry point is returned as an `int32`. -/
def load : ImageM ℤ := do
  let data ← fileRead 52
  let data := data.getD []
  if data.length ≠ 52 then return -1
  else if ¬ Acceptable data then return -1
  else
    let loaded ← loadHeaders (field data 44 2) (field data 28 4)
    if loaded then return Int.bmod (field data 24 4) (2 ^ 32) else return -1

end Load

section Meaning

/-- The program headers from `programHeaderOffset` on. -/
def table (content : List UInt8) : (left programHeaderOffset : ℕ) → List Elf32Phdr
  | 0, _ => []
  | left + 1, programHeaderOffset =>
    header ((content.drop programHeaderOffset).take 32) ::
      table content left (programHeaderOffset + 32)

/-- The `PT_LOAD` segments among some headers. -/
def loads (headers : List Elf32Phdr) : List Elf32Phdr := headers.filter fun g => g.type = ptLoad

/-- The `PT_LOAD` segments of the file. -/
def segments (content : List UInt8) : List Elf32Phdr :=
  loads (table content (field content 44 2) (field content 28 4))

/-- A segment lies in another part of memory than the next ones. -/
def Apart (g g' : Elf32Phdr) : Prop :=
  g.vaddr + max g.filesz g.memsz ≤ g'.vaddr ∨ g'.vaddr + max g'.filesz g'.memsz ≤ g.vaddr

/-- A file that was just opened, with its program header table, and segments that are disjoint
ranges of user space. -/
structure Loadable (s : Image) : Prop where
  pos : s.fdPos = 0
  size : s.content.length < 140 * 512
  table : field s.content 28 4 + 32 * field s.content 44 2 ≤ s.content.length
  user : ∀ g ∈ segments s.content,
    0x8000 ≤ g.vaddr ∧ g.vaddr + max g.filesz g.memsz ≤ 0xc0000000
  apart : (segments s.content).Pairwise Apart

/-- The pages that belong to the heap of the caller, as far as it is used. -/
def heapPages (e : HeapCalls) : Set ℕ :=
  { p | ∃ t c, e t = some c ∧ (c.page = some p ∨ ∃ a, a / 4096 = p ∧ c.bytes a ≠ none) }

/-- No segment lies on a page of the heap. -/
def Clear (e : HeapCalls) (s : Image) : Prop :=
  ∀ g ∈ segments s.content, ∀ i < max g.filesz g.memsz, (g.vaddr + i) / 4096 ∉ heapPages e

/-- The bytes of a segment are in the file. -/
def Present (s : Image) (g : Elf32Phdr) : Prop := g.offset + g.filesz ≤ s.content.length

instance (s : Image) (g : Elf32Phdr) : Decidable (Present s g) :=
  inferInstanceAs (Decidable (_ ≤ _))

/-- In `s'` the segment `g` of the file of `s` is in memory. -/
structure Loaded (s s' : Image) (g : Elf32Phdr) : Prop where
  present : Present s g
  mapped : ∀ i < g.memsz, s'.mapped ((g.vaddr + i) / 4096) = true
  file : ∀ i < g.filesz, s'.bytes (g.vaddr + i) = s.content.getD (g.offset + i) 0
  zero : ∀ i, g.filesz ≤ i → i < g.memsz → s'.bytes (g.vaddr + i) = 0

/-- What an address shows, once its page is mapped. -/
def shows (s : Image) (a : ℕ) : UInt8 := if s.mapped (a / 4096) = true then s.bytes a else s.fresh a

/-- Each page of `g` is mapped already or is the first page of a segment, and the rest of `g`
happens to be zero. -/
structure Prepared (s : Image) (g : Elf32Phdr) : Prop where
  present : Present s g
  mapped : ∀ i < g.memsz, s.mapped ((g.vaddr + i) / 4096) = true ∨
    ∃ g' ∈ segments s.content, g'.vaddr / 4096 = (g.vaddr + i) / 4096
  zero : ∀ i, g.filesz ≤ i → i < g.memsz → s.shows (g.vaddr + i) = 0

end Meaning

end Image

end Gogoos
