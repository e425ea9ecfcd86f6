import Gogoos.Kernel.Memory

/-!
# Fork

`kernel/user/fork.c`, with the pids of `kernel/thread/thread.c`. The child starts as a copy of
the PCB page of its parent and then gets its own bitmap, page directory and pages.
-/

namespace Gogoos

open Program

/-- `USER_VADDR_START` is 0x8000. The number of pages of the bitmap of a process. -/
def bitMapPgCnt : ℕ := divRoundUp ((0xc0000000 - 0x8000) / 4096 / 8) 4096

/-- The pid of bit `i` is `i + 1`. When no bit is left the scan returns -1 and the pid is 0. -/
def allocatePid : KernelM ℤ := do
  let m ← get
  match bitMapScanAndSet m.pidBitMap 1 true with
  | (none, _) => return 0
  | (some bitIdx, bm) =>
    modify fun m => m.setPidBitMap bm
    return bitIdx + 1

def forkPid : KernelM ℤ := allocatePid

/-- The suffix `"_fork"`. -/
def forkSuffix : List UInt8 := [95, 102, 111, 114, 107]

def modifyTask (pcb : ℕ) (g : TaskStruct → TaskStruct) : KernelM Unit :=
  modify fun m => m.setTask pcb (g (m.tasks pcb))

/-- Returns whether the code returns 0. -/
def copyPcbVaddrBitMapStack0 (childThread parentThread : ℕ) : KernelM Bool := do
  modify fun m => m.setTask childThread (m.tasks parentThread)
  let pid ← forkPid
  let m ← get
  let parentPid := (m.tasks parentThread).pid
  modifyTask childThread fun t =>
    { t with
      pid := pid
      elapsedTicks := 0
      status := TaskStatus.ready
      ticks := t.priority
      parentPid := parentPid
      umbdArr := memBlockDescInit }
  match ← getKernelPages bitMapPgCnt with
  | none => return false
  | some vaddrBitMap =>
    let m ← get
    let bytes :=
      memcpy (fun _ => 0) 0 (m.tasks parentThread).vap.bitMap.startAddr (bitMapPgCnt * 4096)
    modifyTask childThread fun t =>
      { t with
        vap := { t.vap with
          bitMap := { t.vap.bitMap with startAddr := bytes }
          bitMapAddr := vaddrBitMap } }
    let m ← get
    assert ((m.tasks childThread).name.length < 11)
    modifyTask childThread fun t => { t with name := t.name ++ forkSuffix }
    return true

section Body

/-- One page of the parent: through the buffer into a new page of the child. The result of
`getOnePageWithoutVBM` is not looked at. -/
def copyUserPage (childThread parentThread bufPage progVaddr : ℕ) : KernelM Unit := do
  copyPage bufPage progVaddr
  pageDirActivate childThread
  let _ ← getOnePageWithoutVBM .user progVaddr
  copyPage progVaddr bufPage
  pageDirActivate parentThread

/-- Inner loop: the eight bits of a byte. -/
def copyBits (childThread parentThread bufPage : ℕ) (byte : UInt8) (vaddrStart idxByte : ℕ) :
    (cnt idxBit : ℕ) → KernelM Unit
  | 0, _ => pure ()
  | cnt + 1, idxBit => do
    if byte.toNat.testBit idxBit then
      copyUserPage childThread parentThread bufPage ((idxByte * 8 + idxBit) * 4096 + vaddrStart)
    copyBits childThread parentThread bufPage byte vaddrStart idxByte cnt (idxBit + 1)

def copyBytes (childThread parentThread bufPage : ℕ) (vap : VirtualAddrPool) :
    (cnt idxByte : ℕ) → KernelM Unit
  | 0, _ => pure ()
  | cnt + 1, idxByte => do
    if vap.bitMap.startAddr idxByte ≠ 0 then
      copyBits childThread parentThread bufPage (vap.bitMap.startAddr idxByte) vap.startAddr
        idxByte 8 0
    copyBytes childThread parentThread bufPage vap cnt (idxByte + 1)

def copyBodyStack3 (childThread parentThread bufPage : ℕ) : KernelM Unit := do
  let m ← get
  let vap := (m.tasks parentThread).vap
  copyBytes childThread parentThread bufPage vap vap.bitMap.length 0

end Body

/-- The child gets 0 from the call; the return addresses on its kernel stack are not kept
here. -/
def buildChildStack (childThread : ℕ) : KernelM Unit :=
  modifyTask childThread fun t => { t with eax := 0 }

/-- The loop of `updateInodeOpenCnt`. A descriptor below -1 is not caught by the assertion; it
names no slot and stops the machine here. -/
def openAgain (fdTable : ℕ → ℤ) : (cnt localFd : ℕ) → FsM Unit
  | 0, _ => pure ()
  | cnt + 1, localFd => do
    let globalFd := fdTable localFd
    assert (globalFd < 32)
    if globalFd ≠ -1 then
      assert (0 ≤ globalFd)
      let p ← slotInode globalFd.toNat
      onVol (modifyInode p fun i => { i with openCnt := i.openCnt + 1 })
    openAgain fdTable cnt (localFd + 1)

def updateInodeOpenCnt (thread : ℕ) : KernelM Unit := do
  let m ← get
  onFs (openAgain (m.tasks thread).fdTable 4 3)

/-- Returns whether the code returns 0. Nothing taken before a failure is given back. -/
def copyProcess (childThread parentThread : ℕ) : KernelM Bool := do
  match ← getKernelPages 1 with
  | none => return false
  | some bufPage =>
    if !(← copyPcbVaddrBitMapStack0 childThread parentThread) then return false
    match ← pageDirCreate with
    | none =>
      modifyTask childThread fun t => { t with pageDir := 0 }
      return false
    | some pageDir =>
      modifyTask childThread fun t => { t with pageDir := pageDir }
      copyBodyStack3 childThread parentThread bufPage
      buildChildStack childThread
      updateInodeOpenCnt childThread
      freePage .kernel bufPage 1
      return true

/-- Returns the pid of the child, or -1. Interrupts are off in a system call. The second
assertion of the code looks for the tag of the other list, which is never there. -/
def sysFork : KernelM ℤ := do
  let m ← get
  let parentThread := m.current
  match ← getKernelPages 1 with
  | none => return -1
  | some childThread =>
    let m ← get
    assert ((m.tasks parentThread).pageDir ≠ 0)
    if !(← copyProcess childThread parentThread) then return -1
    let m ← get
    assert (childThread ∉ m.threadReadyList)
    modify fun m => m.setReadyList (m.threadReadyList ++ [childThread])
    modify fun m => m.setAllList (m.threadAllList ++ [childThread])
    return (m.tasks childThread).pid

end Gogoos
