import Gogoos.Kernel.Machine

/-!
# Memory management

`kernel/memory.c` and the page directories of `kernel/user/process.c`. A page has `PG_SIZE`,
4096, bytes. Every access to memory goes through the page tables that `cr3` names; an access to
a page that is not mapped stops the machine. The last entry of a page directory maps the
directory itself, which is how the kernel reaches the tables.
-/

namespace Gogoos

open Program

/-- `PG_P_1`: the entry of a page table or page directory is present. -/
def present (entry : ℕ) : Bool := entry % 2 = 1

/-- Frame of an entry. -/
def entryFrame (entry : ℕ) : ℕ := entry / 4096

/-- `addr | PG_US_U | PG_RW_W | PG_P_1`. -/
def mkEntry (addr : ℕ) : ℕ := addr ||| 7

def pdeIdx (vaddr : ℕ) : ℕ := vaddr / 2 ^ 22

def pteIdx (vaddr : ℕ) : ℕ := vaddr / 4096 % 1024

section Access

/-- The frame behind a virtual address. -/
def Machine.walk (m : Machine) (vaddr : ℕ) : Option ℕ :=
  let pde := m.phys m.cr3 (pdeIdx vaddr)
  if present pde then
    let pte := m.phys (entryFrame pde) (pteIdx vaddr)
    if present pte then some (entryFrame pte) else none
  else none

def frameOf (vaddr : ℕ) : KernelM ℕ := do
  let m ← get
  match m.walk vaddr with
  | none => halt
  | some f => return f

/-- Reads a word. -/
def load (vaddr : ℕ) : KernelM ℕ := do
  let f ← frameOf vaddr
  let m ← get
  return m.phys f (vaddr % 4096 / 4)

/-- Writes a word. -/
def store (vaddr word : ℕ) : KernelM Unit := do
  let f ← frameOf vaddr
  modify fun m =>
    m.setFrame f fun i => if i = vaddr % 4096 / 4 then word else m.phys f i

/-- `memset` of a page with zero. -/
def clearPage (vaddr : ℕ) : KernelM Unit := do
  let f ← frameOf vaddr
  modify fun m => m.setFrame f fun _ => 0

/-- `memset` of `cnt` pages with zero. -/
def clearPages : (cnt vaddr : ℕ) → KernelM Unit
  | 0, _ => pure ()
  | cnt + 1, vaddr => do
    clearPage vaddr
    clearPages cnt (vaddr + 4096)

/-- `memcpy` of a page. -/
def copyPage (dst src : ℕ) : KernelM Unit := do
  let g ← frameOf src
  let f ← frameOf dst
  modify fun m => m.setFrame f (m.phys g)

end Access

section Entries

theorem mkEntry_eq (f : ℕ) : mkEntry (f * 4096) = f * 4096 + 7 := by
  have h := Nat.two_pow_add_eq_or_of_lt (show 7 < 2 ^ 12 by norm_num) f
  unfold mkEntry
  rw [show f * 4096 = 2 ^ 12 * f by omega, ← h]

@[simp] theorem present_mkEntry (f : ℕ) : present (mkEntry (f * 4096)) = true := by
  rw [mkEntry_eq]
  unfold present
  simp only [decide_eq_true_eq]
  omega

@[simp] theorem entryFrame_mkEntry (f : ℕ) : entryFrame (mkEntry (f * 4096)) = f := by
  rw [mkEntry_eq]
  unfold entryFrame
  omega

end Entries

/-- Address of the page-table entry of `vaddr`. -/
def getPtePtr (vaddr : ℕ) : ℕ := 0xffc00000 + pdeIdx vaddr * 4096 + pteIdx vaddr * 4

/-- Address of the page-directory entry of `vaddr`. -/
def getPdePtr (vaddr : ℕ) : ℕ := 0xfffff000 + pdeIdx vaddr * 4

def addrV2P (vaddr : ℕ) : KernelM ℕ := do
  let pte ← load (getPtePtr vaddr)
  return entryFrame pte * 4096 + vaddr % 4096

inductive PoolFlag where
  | user
  | kernel
  deriving DecidableEq

section Pools

def Machine.pap (m : Machine) : PoolFlag → PhysicalAddrPool
  | .user => m.userPap
  | .kernel => m.kernelPap

def Machine.setPapBit (m : Machine) (pf : PoolFlag) (bitIdx : ℕ) (val : Bool) : Machine :=
  match pf with
  | .user => { m with userPap := { m.userPap with bitMap := bitMapSet m.userPap.bitMap bitIdx val } }
  | .kernel =>
    { m with kernelPap := { m.kernelPap with bitMap := bitMapSet m.kernelPap.bitMap bitIdx val } }

def allocPhyAddr (pf : PoolFlag) : KernelM (Option ℕ) := do
  let m ← get
  match bitMapScan (m.pap pf).bitMap 1 with
  | none => return none
  | some bitIdx =>
    modify fun m => m.setPapBit pf bitIdx true
    return some (bitIdx * 4096 + (m.pap pf).startAddr)

/-- Unsigned subtraction of two words. -/
def wordSub (x y : ℕ) : ℕ := (x + (2 ^ 32 - y)) % 2 ^ 32

/-- The pool that an address belongs to. -/
def Machine.poolOf (m : Machine) (phyPageAddr : ℕ) : PoolFlag :=
  if phyPageAddr ≥ m.userPap.startAddr then .user else .kernel

def freePhyAddr (phyPageAddr : ℕ) : KernelM Unit := do
  let m ← get
  let pf := m.poolOf phyPageAddr
  modify fun m => m.setPapBit pf (wordSub phyPageAddr (m.pap pf).startAddr / 4096) false

/-- The pool of virtual pages: the kernel's, or that of the current thread. -/
def Machine.vap (m : Machine) : PoolFlag → VirtualAddrPool
  | .user => (m.tasks m.current).vap
  | .kernel => m.kernelVap

def Machine.setVap (m : Machine) (pf : PoolFlag) (bm : BitMap) : Machine :=
  match pf with
  | .user =>
    let cur := m.tasks m.current
    m.setTask m.current { cur with vap := { cur.vap with bitMap := bm } }
  | .kernel => m.setKernelVap bm

def allocVirAddr (pf : PoolFlag) (pageCnt : ℕ) : KernelM (Option ℕ) := do
  let m ← get
  match bitMapScanAndSet (m.vap pf).bitMap pageCnt true with
  | (none, _) => return none
  | (some bitIdxStart, bm) =>
    modify fun m => m.setVap pf bm
    let virPageAddr := (m.vap pf).startAddr + bitIdxStart * 4096
    assert (pf = .user → virPageAddr < 0xc0000000 - 4096)
    return some virPageAddr

/-- `bitMapSet` of `cnt` bits in a row. -/
def freeVirAddr (pf : PoolFlag) (virPageAddr pgCnt : ℕ) : KernelM Unit := do
  let m ← get
  let bitIdxStart := wordSub virPageAddr (m.vap pf).startAddr / 4096
  modify fun m => m.setVap pf (bitMapSetRun (m.vap pf).bitMap false pgCnt bitIdxStart)

end Pools

section Tables

/-- When the kernel pool is empty the new page table gets the address `NULL`. -/
def mapPageTable (vaddr paddr : ℕ) : KernelM Unit := do
  let pde ← load (getPdePtr vaddr)
  if present pde then
    let pte ← load (getPtePtr vaddr)
    if !present pte then store (getPtePtr vaddr) (mkEntry paddr)
    else halt
  else
    let phyPageAddr := (← allocPhyAddr .kernel).getD 0
    store (getPdePtr vaddr) (mkEntry phyPageAddr)
    clearPage (getPtePtr vaddr)
    store (getPtePtr vaddr) (mkEntry paddr)

def unmapPageTable (virPageAddr : ℕ) : KernelM Unit := do
  let pte ← load (getPtePtr virPageAddr)
  store (getPtePtr virPageAddr) (pte - pte % 2)

end Tables

section Pages

/-- The rollback of `allocPage`: gives back `cnt` pages, the last one at `vaddr`. -/
def unmapBack : (cnt vaddr : ℕ) → KernelM Unit
  | 0, _ => pure ()
  | cnt + 1, vaddr => do
    freePhyAddr (← addrV2P vaddr)
    unmapPageTable vaddr
    unmapBack cnt (vaddr - 4096)

/-- The loop of `allocPage`, with `left` pages to go and `done` pages mapped. -/
def mapPages (pf : PoolFlag) : (left done vaddr : ℕ) → KernelM Bool
  | 0, _, _ => return true
  | left + 1, done, vaddr => do
    match ← allocPhyAddr pf with
    | none =>
      unmapBack done (vaddr - 4096)
      return false
    | some paddr =>
      mapPageTable vaddr paddr
      mapPages pf left (done + 1) (vaddr + 4096)

def allocPage (pf : PoolFlag) (pageCnt : ℕ) : KernelM (Option ℕ) := do
  assert (0 < pageCnt ∧ pageCnt < 3840)
  match ← allocVirAddr pf pageCnt with
  | none => return none
  | some virPageAddr =>
    if ← mapPages pf pageCnt 0 virPageAddr then return some virPageAddr
    else
      freeVirAddr pf virPageAddr pageCnt
      assert (wordSub virPageAddr 4096 < virPageAddr)
      return none

/-- The loop of `freePage`; `user` tells which of its two copies runs. -/
def freeFrames (user : Bool) : (cnt vaddr : ℕ) → KernelM Unit
  | 0, _ => pure ()
  | cnt + 1, vaddr => do
    let paddr ← addrV2P vaddr
    let m ← get
    assert (paddr % 4096 = 0)
    if user then assert (m.userPap.startAddr < paddr)
    else assert (m.kernelPap.startAddr ≤ paddr ∧ paddr < m.userPap.startAddr)
    freePhyAddr paddr
    unmapPageTable vaddr
    freeFrames user cnt (vaddr + 4096)

def freePage (pf : PoolFlag) (virPageAddr pgCnt : ℕ) : KernelM Unit := do
  assert (0 < pgCnt ∧ virPageAddr % 4096 = 0)
  let paddr ← addrV2P virPageAddr
  assert (paddr % 4096 = 0 ∧ 0x102000 < paddr)
  let m ← get
  freeFrames (m.poolOf paddr = .user) pgCnt virPageAddr
  freeVirAddr pf virPageAddr pgCnt

def getKernelPages (pageCnt : ℕ) : KernelM (Option ℕ) := do
  match ← allocPage .kernel pageCnt with
  | none => return none
  | some vaddr =>
    clearPages pageCnt vaddr
    return some vaddr

def getOnePageWithoutVBM (pf : PoolFlag) (vaddr : ℕ) : KernelM (Option ℕ) := do
  match ← allocPhyAddr pf with
  | none => return none
  | some paddr =>
    mapPageTable vaddr paddr
    return some vaddr

end Pages

section Directories

/-- `PAGE_DIR_TABLE_POS`, the directory of the kernel threads. -/
def kernelPageDir : ℕ := 0x00100000

def pageDirActivate (ts : ℕ) : KernelM Unit := do
  let m ← get
  let pageDirPhyAddr ←
    if (m.tasks ts).pageDir ≠ 0 then addrV2P (m.tasks ts).pageDir else pure kernelPageDir
  modify fun m => m.setCr3 (entryFrame pageDirPhyAddr)

/-- Copies the 256 kernel entries of the active directory to the page at `pageDirVaddr`. -/
def copyKernelEntries (pageDirVaddr : ℕ) : KernelM Unit := do
  let g ← frameOf 0xfffff000
  let f ← frameOf pageDirVaddr
  modify fun m =>
    m.setFrame f fun i => if 768 ≤ i ∧ i < 1024 then m.phys g i else m.phys f i

def pageDirCreate : KernelM (Option ℕ) := do
  match ← getKernelPages 1 with
  | none => return none
  | some pageDirVaddr =>
    copyKernelEntries pageDirVaddr
    let pageDirRaddr ← addrV2P pageDirVaddr
    store (pageDirVaddr + 4 * 1023) (mkEntry pageDirRaddr)
    return some pageDirVaddr

end Directories

/-- `sizeof(Arena)`: a pointer, a counter and a padded flag. -/
def arenaSize : ℕ := 12

/-- `memBlockDescInit`: blocks of 16 to 1024 bytes, all free lists empty. -/
def memBlockDescInit : ℕ → MemBlockDesc := fun descIdx =>
  ⟨16 * 2 ^ descIdx, (4096 - arenaSize) / (16 * 2 ^ descIdx), []⟩

end Gogoos
