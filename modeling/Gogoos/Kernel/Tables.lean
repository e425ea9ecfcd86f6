import Gogoos.Kernel.Memory

/-!
# Address spaces

The page allocator of `kernel/memory.c` over the address space of a process, where no two entries
of the directory name one table. The entries of the page directory and of the page tables are kept
by number, a page being numbered by its address over 4096; `getPdePtr` and `getPtePtr` reach them
through the directory, and an entry of a table that is not present cannot be reached.
-/

namespace Gogoos

open Program

structure Mem where
  pde : ℕ → ℕ
  pte : ℕ → ℕ
  kernelPap : PhysicalAddrPool
  userPap : PhysicalAddrPool
  kernelVap : VirtualAddrPool
  /-- `cur->vap`. -/
  vap : VirtualAddrPool

abbrev MemM (α : Type) : Type := Program Unit Mem α

/-- `memPoolInit`: what is not used yet of `allMem` bytes is shared between the two pools. -/
def memPoolInit (allMem : ℕ) (m : Mem) : Mem :=
  let usedMem := 4096 * 256 + 0x00100000
  let freePages := (allMem - usedMem) / 4096 / 2
  let bmLength := freePages / 8
  let emptyBitMap : BitMap := ⟨bmLength, fun _ => 0⟩
  { m with
    kernelPap := ⟨emptyBitMap, usedMem⟩
    userPap := ⟨emptyBitMap, usedMem + freePages * 4096⟩
    kernelVap := ⟨emptyBitMap, 0xc009a000 + 2 * bmLength, 0xc0100000⟩ }

/-- `createUserVAddrBitMap`. -/
def createUserVAddrBitMap (m : Mem) : Mem :=
  { m with vap := ⟨⟨(0xc0000000 - 0x8000) / 4096 / 8, fun _ => 0⟩, 0, 0x8000⟩ }

namespace Mem

/-- The frame behind a page. -/
def walk (m : Mem) (page : ℕ) : Option ℕ :=
  if present (m.pde (page / 1024)) ∧ present (m.pte page) then some (entryFrame (m.pte page))
  else none

def pap (m : Mem) : PoolFlag → PhysicalAddrPool
  | .user => m.userPap
  | .kernel => m.kernelPap

def setPapBit (m : Mem) (pf : PoolFlag) (bitIdx : ℕ) (val : Bool) : Mem :=
  match pf with
  | .user => { m with userPap := { m.userPap with bitMap := bitMapSet m.userPap.bitMap bitIdx val } }
  | .kernel =>
    { m with kernelPap := { m.kernelPap with bitMap := bitMapSet m.kernelPap.bitMap bitIdx val } }

/-- The pool of virtual pages. -/
def vpool (m : Mem) : PoolFlag → VirtualAddrPool
  | .user => m.vap
  | .kernel => m.kernelVap

def setVap (m : Mem) (pf : PoolFlag) (bm : BitMap) : Mem :=
  match pf with
  | .user => { m with vap := { m.vap with bitMap := bm } }
  | .kernel => { m with kernelVap := { m.kernelVap with bitMap := bm } }

@[simps] def setPte (m : Mem) (page entry : ℕ) : Mem :=
  { m with pte := fun v => if v = page then entry else m.pte v }

/-- A new table for entry `idx` of the directory, cleared. -/
@[simps] def setTable (m : Mem) (idx entry : ℕ) : Mem :=
  { m with
    pde := fun d => if d = idx then entry else m.pde d
    pte := fun v => if v / 1024 = idx then 0 else m.pte v }

section Access

/-- What `getPtePtr` of a page leads to. -/
def readPte (page : ℕ) : MemM ℕ := do
  let m ← get
  if present (m.pde (page / 1024)) then return m.pte page
  else halt

def addrV2P (vaddr : ℕ) : MemM ℕ := do
  let pte ← readPte (vaddr / 4096)
  return entryFrame pte * 4096 + vaddr % 4096

end Access

section Allocation

def allocPhyAddr (pf : PoolFlag) : MemM (Option ℕ) := do
  let m ← get
  match bitMapScan (m.pap pf).bitMap 1 with
  | none => return none
  | some bitIdx =>
    modify fun m => m.setPapBit pf bitIdx true
    return some (bitIdx * 4096 + (m.pap pf).startAddr)

/-- The pool that an address belongs to. -/
def poolOf (m : Mem) (phyPageAddr : ℕ) : PoolFlag :=
  if phyPageAddr ≥ m.userPap.startAddr then .user else .kernel

def freePhyAddr (phyPageAddr : ℕ) : MemM Unit := do
  let m ← get
  let pf := m.poolOf phyPageAddr
  modify fun m => m.setPapBit pf (wordSub phyPageAddr (m.pap pf).startAddr / 4096) false

def allocVirAddr (pf : PoolFlag) (pageCnt : ℕ) : MemM (Option ℕ) := do
  let m ← get
  match bitMapScanAndSet (m.vpool pf).bitMap pageCnt true with
  | (none, _) => return none
  | (some bitIdxStart, bm) =>
    modify fun m => m.setVap pf bm
    let virPageAddr := (m.vpool pf).startAddr + bitIdxStart * 4096
    assert (pf = .user → virPageAddr < 0xc0000000 - 4096)
    return some virPageAddr

/-- `bitMapSet` of `pgCnt` bits in a row. -/
def freeVirAddr (pf : PoolFlag) (virPageAddr pgCnt : ℕ) : MemM Unit := do
  let m ← get
  let bitIdxStart := wordSub virPageAddr (m.vpool pf).startAddr / 4096
  modify fun m => m.setVap pf (bitMapSetRun (m.vpool pf).bitMap false pgCnt bitIdxStart)

/-- When the kernel pool is empty the new page table gets the address `NULL`. -/
def mapPageTable (vaddr paddr : ℕ) : MemM Unit := do
  let m ← get
  if present (m.pde (vaddr / 4096 / 1024)) then
    if !present (m.pte (vaddr / 4096)) then
      modify fun m => m.setPte (vaddr / 4096) (mkEntry paddr)
    else halt
  else
    let phyPageAddr ← allocPhyAddr .kernel
    modify fun m => m.setTable (vaddr / 4096 / 1024) (mkEntry (phyPageAddr.getD 0))
    modify fun m => m.setPte (vaddr / 4096) (mkEntry paddr)

def unmapPageTable (virPageAddr : ℕ) : MemM Unit := do
  let pte ← readPte (virPageAddr / 4096)
  modify fun m => m.setPte (virPageAddr / 4096) (pte - pte % 2)

/-- The rollback of `allocPage`: gives back `cnt` pages, the last one at `vaddr`. -/
def unmapBack : (cnt vaddr : ℕ) → MemM Unit
  | 0, _ => pure ()
  | cnt + 1, vaddr => do
    let paddr ← addrV2P vaddr
    freePhyAddr paddr
    unmapPageTable vaddr
    unmapBack cnt (vaddr - 4096)

/-- The loop of `allocPage`, with `left` pages to go and `done` pages mapped. -/
def mapPages (pf : PoolFlag) : (left done vaddr : ℕ) → MemM Bool
  | 0, _, _ => return true
  | left + 1, done, vaddr => do
    let paddr ← allocPhyAddr pf
    match paddr with
    | none =>
      unmapBack done (vaddr - 4096)
      return false
    | some paddr =>
      mapPageTable vaddr paddr
      mapPages pf left (done + 1) (vaddr + 4096)

def allocPage (pf : PoolFlag) (pageCnt : ℕ) : MemM (Option ℕ) := do
  assert (0 < pageCnt ∧ pageCnt < 3840)
  let virPageAddr ← allocVirAddr pf pageCnt
  match virPageAddr with
  | none => return none
  | some virPageAddr =>
    let mapped ← mapPages pf pageCnt 0 virPageAddr
    if mapped then return some virPageAddr
    else
      freeVirAddr pf virPageAddr pageCnt
      assert (wordSub virPageAddr 4096 < virPageAddr)
      return none

/-- The loop of `freePage`; `user` tells which of its two copies runs. -/
def freeFrames (user : Bool) : (cnt vaddr : ℕ) → MemM Unit
  | 0, _ => pure ()
  | cnt + 1, vaddr => do
    let paddr ← addrV2P vaddr
    let m ← get
    assert (paddr % 4096 = 0)
    (if user then assert (m.userPap.startAddr < paddr)
      else assert (m.kernelPap.startAddr ≤ paddr ∧ paddr < m.userPap.startAddr))
    freePhyAddr paddr
    unmapPageTable vaddr
    freeFrames user cnt (vaddr + 4096)

def freePage (pf : PoolFlag) (virPageAddr pgCnt : ℕ) : MemM Unit := do
  assert (0 < pgCnt ∧ virPageAddr % 4096 = 0)
  let paddr ← addrV2P virPageAddr
  assert (paddr % 4096 = 0 ∧ 0x102000 < paddr)
  let m ← get
  freeFrames (m.poolOf paddr = .user) pgCnt virPageAddr
  freeVirAddr pf virPageAddr pgCnt

end Allocation

section Entries

variable {m m' : Mem} {page : ℕ} {pf : PoolFlag}

@[simp] theorem setPapBit_pde {i : ℕ} {b : Bool} : (m.setPapBit pf i b).pde = m.pde := by
  cases pf <;> rfl

@[simp] theorem setPapBit_pte {i : ℕ} {b : Bool} : (m.setPapBit pf i b).pte = m.pte := by
  cases pf <;> rfl

@[simp] theorem setVap_pde {bm : BitMap} : (m.setVap pf bm).pde = m.pde := by cases pf <;> rfl

@[simp] theorem setVap_pte {bm : BitMap} : (m.setVap pf bm).pte = m.pte := by cases pf <;> rfl

theorem walk_congr (hpde : m'.pde = m.pde) (hpte : m'.pte = m.pte) : m'.walk page = m.walk page := by
  unfold walk
  rw [hpde, hpte]

theorem walk_eq_none_of_pde (h : present (m.pde (page / 1024)) = false) : m.walk page = none := by
  simp [walk, h]

theorem walk_eq_none_of_pte (h : present (m.pte page) = false) : m.walk page = none := by
  simp [walk, h]

end Entries

/-- The machine with 32 MB, after `memInit`. The page tables of the kernel are present. -/
def initMem : Mem :=
  memPoolInit 0x2000000 (createUserVAddrBitMap
    { pde := fun d => if 768 ≤ d ∧ d < 1023 then mkEntry (0x101000 + (d - 768) * 4096) else 0
      pte := fun _ => 0
      kernelPap := ⟨⟨0, fun _ => 0⟩, 0⟩
      userPap := ⟨⟨0, fun _ => 0⟩, 0⟩
      kernelVap := ⟨⟨0, fun _ => 0⟩, 0, 0⟩
      vap := ⟨⟨0, fun _ => 0⟩, 0, 0⟩ })

end Mem

end Gogoos
