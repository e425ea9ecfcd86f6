import Gogoos.Kernel.Memory

/-!
# The heap

`sysMalloc` and `sysFree` of `kernel/memory.c` on one heap. A header is kept under the address
of its page, and a free list as the list of the addresses of its blocks; the links lie in the
free blocks, which hold nothing else. What `allocPage` returns is an argument of the operation,
0 for `NULL`, and the ranges that were not given back are remembered.
-/

namespace Gogoos

open Program

/-- `desc` is the index of a descriptor. -/
structure Arena where
  desc : Option ℕ
  cnt : ℕ
  large : Bool

structure Malloc where
  arenas : ℕ → Arena
  /-- The free lists of the descriptors. -/
  freeList : ℕ → List ℕ
  bytes : ℕ → UInt8
  /-- The ranges got from `allocPage`, by address and number of pages. -/
  held : List (ℕ × ℕ)
  /-- The size of the pool. -/
  poolSize : ℕ

abbrev MallocM (α : Type) : Type := Program Unit Malloc α

/-- `MEM_BLOCK_DESC_CNT`. -/
def memBlockDescCnt : ℕ := 7

def blockSize (descIdx : ℕ) : ℕ := (memBlockDescInit descIdx).blockSize

def blocksPerArena (descIdx : ℕ) : ℕ := (memBlockDescInit descIdx).blocksPerArena

def arenaToBlock (arena descIdx idx : ℕ) : ℕ := arena + arenaSize + idx * blockSize descIdx

def blockToArena (block : ℕ) : ℕ := block - block % 4096

namespace Malloc

@[simps] def setArena (s : Malloc) (arena : ℕ) (a : Arena) : Malloc :=
  { s with arenas := fun p => if p = arena then a else s.arenas p }

@[simps] def setFree (s : Malloc) (descIdx : ℕ) (l : List ℕ) : Malloc :=
  { s with freeList := fun d => if d = descIdx then l else s.freeList d }

@[simps] def setHeld (s : Malloc) (held : List (ℕ × ℕ)) : Malloc := { s with held := held }

/-- `memset(addr, 0, n)`. -/
@[simps] def clear (s : Malloc) (addr n : ℕ) : Malloc :=
  { s with bytes := fun a => if addr ≤ a ∧ a < addr + n then 0 else s.bytes a }

section Pages

/-- `page` is what the call returns. -/
def allocPage (page pageCnt : ℕ) : MallocM Bool := do
  assert (0 < pageCnt ∧ pageCnt < 3840)
  if page = 0 then return false
  else
    modify fun s => s.setHeld ((page, pageCnt) :: s.held)
    return true

/-- Takes back a range that was given out. -/
def freePage (page pgCnt : ℕ) : MallocM Unit := do
  let s ← get
  assert ((page, pgCnt) ∈ s.held)
  modify fun s => s.setHeld (s.held.erase (page, pgCnt))

end Pages

section Allocate

/-- The loop that puts the blocks of a new arena on the free list. -/
def appendBlocks (arena descIdx : ℕ) : (left blockIdx : ℕ) → MallocM Unit
  | 0, _ => pure ()
  | left + 1, blockIdx => do
    let s ← get
    let block := arenaToBlock arena descIdx blockIdx
    assert (block ∉ s.freeList descIdx)
    modify fun s => s.setFree descIdx (s.freeList descIdx ++ [block])
    appendBlocks arena descIdx left (blockIdx + 1)

/-- An empty free list gets a new arena; false when there is no page. -/
def refill (page descIdx : ℕ) : MallocM Bool := do
  let s ← get
  if s.freeList descIdx = [] then
    let got ← allocPage page 1
    if got then
      modify fun s => s.clear page 4096
      modify fun s => s.setArena page ⟨some descIdx, blocksPerArena descIdx, false⟩
      appendBlocks page descIdx (blocksPerArena descIdx) 0
      return true
    else return false
  else return true

/-- The first block of a free list. -/
def takeBlock (descIdx : ℕ) : MallocM ℕ := do
  let s ← get
  match s.freeList descIdx with
  | [] => halt
  | block :: rest =>
    modify fun s => s.setFree descIdx rest
    modify fun s => s.clear block (blockSize descIdx)
    modify fun s =>
      let a := s.arenas (blockToArena block)
      s.setArena (blockToArena block) { a with cnt := (a.cnt + (2 ^ 32 - 1)) % 2 ^ 32 }
    return block

/-- The loop over the descriptors. -/
def findDesc (size : ℕ) : (left descIdx : ℕ) → ℕ
  | 0, descIdx => descIdx
  | left + 1, descIdx => if size ≤ blockSize descIdx then descIdx else findDesc size left (descIdx + 1)

/-- `DIV_ROUND_UP(size + sizeof(Arena), PG_SIZE)`. -/
def pageCount (size : ℕ) : ℕ := (size + arenaSize + 4095) / 4096

def largeBlock (page size : ℕ) : MallocM ℕ := do
  let got ← allocPage page (pageCount size)
  if got then
    modify fun s => s.clear page (pageCount size * 4096)
    modify fun s => s.setArena page ⟨none, pageCount size, true⟩
    return page + arenaSize
  else return 0

def smallBlock (page size : ℕ) : MallocM ℕ := do
  let descIdx := findDesc size memBlockDescCnt 0
  let filled ← refill page descIdx
  if filled then takeBlock descIdx else return 0

def sysMalloc (page size : ℕ) : MallocM ℕ := do
  let s ← get
  if ¬(0 < size ∧ size < s.poolSize) then return 0
  else if 1024 < size then largeBlock page size
  else smallBlock page size

end Allocate

section Release

/-- The loop that takes the blocks of an arena off the free list. -/
def removeBlocks (arena descIdx : ℕ) : (left blockIdx : ℕ) → MallocM Unit
  | 0, _ => pure ()
  | left + 1, blockIdx => do
    let s ← get
    let block := arenaToBlock arena descIdx blockIdx
    assert (block ∈ s.freeList descIdx)
    modify fun s => s.setFree descIdx ((s.freeList descIdx).erase block)
    removeBlocks arena descIdx left (blockIdx + 1)

/-- A small block goes back to the end of its free list, and an arena of which no block is left
goes back as a page. -/
def freeSmall (ptr arena descIdx : ℕ) : MallocM Unit := do
  modify fun s => s.setFree descIdx (s.freeList descIdx ++ [ptr])
  modify fun s =>
    s.setArena arena { s.arenas arena with cnt := ((s.arenas arena).cnt + 1) % 2 ^ 32 }
  let s ← get
  if (s.arenas arena).cnt = blocksPerArena descIdx then
    removeBlocks arena descIdx (blocksPerArena descIdx) 0
    freePage arena 1
  else pure ()

/-- A header whose `desc` is `NULL` is that of a large block or faults. -/
def sysFree (ptr : ℕ) : MallocM Unit := do
  assert (ptr ≠ 0)
  let s ← get
  let arena := blockToArena ptr
  match (s.arenas arena).desc with
  | none =>
    if (s.arenas arena).large = true then freePage arena (s.arenas arena).cnt else halt
  | some descIdx => freeSmall ptr arena descIdx

end Release

end Malloc

end Gogoos
