import Gogoos.Kernel.Fork

/-!
# Exit and wait

`kernel/user/wait_exit.c`, with `schedule` and the ends of threads of `kernel/thread/thread.c`. A
call that gives up the processor ends here: `schedule` is a step of its own.
-/

namespace Gogoos

open Program

section Release

/-- The inner loop over the 1024 entries of a page table. It reads `*vPdePtr` where the entry
of the table is meant, so it frees the frame of the table and no frame of a page. -/
def releaseTable (vPdePtr : ℕ) : (cnt : ℕ) → KernelM Unit
  | 0 => pure ()
  | cnt + 1 => do
    let pte ← load vPdePtr
    if present pte then freePhyAddr (entryFrame pte * 4096)
    releaseTable vPdePtr cnt

def releaseDirectory (pageDirVaddr : ℕ) : (cnt pdeIdx : ℕ) → KernelM Unit
  | 0, _ => pure ()
  | cnt + 1, pdeIdx => do
    let vPdePtr := pageDirVaddr + 4 * pdeIdx
    let pde ← load vPdePtr
    if present pde then
      releaseTable vPdePtr 1024
      freePhyAddr (entryFrame pde * 4096)
    releaseDirectory pageDirVaddr cnt (pdeIdx + 1)

/-- Closes the descriptors of the running thread. -/
def closeAll : (cnt fdIdx : ℕ) → FsM Unit
  | 0, _ => pure ()
  | cnt + 1, fdIdx => do
    let fs ← get
    if fs.fdTable fdIdx ≠ -1 then
      let _ ← sysClose fdIdx
    closeAll cnt (fdIdx + 1)

def releaseProgramResource (thread : ℕ) : KernelM Unit := do
  let m ← get
  releaseDirectory (m.tasks thread).pageDir 768 0
  let m ← get
  freePage .kernel (m.tasks thread).vap.bitMapAddr bitMapPgCnt
  onFs (closeAll 4 3)

end Release

/-- The children of `pid` get the pid 4 as parent. -/
def adoptChildren (pid : ℤ) : KernelM Unit :=
  modify fun m =>
    { m with
      tasks := fun p =>
        if p ∈ m.threadAllList ∧ (m.tasks p).parentPid = pid then
          { m.tasks p with parentPid := 4 }
        else m.tasks p }

def Machine.pidToThread (m : Machine) (pid : ℤ) : Option ℕ :=
  m.threadAllList.find? fun p => (m.tasks p).pid = pid

/-- The thread is put at the front of the ready list. -/
def threadUnblock (pcb : ℕ) : KernelM Unit := do
  let m ← get
  assert (pcb ∉ m.threadReadyList)
  let status := (m.tasks pcb).status
  assert (status = TaskStatus.blocked ∨ status = TaskStatus.hanging ∨ status = TaskStatus.waiting)
  modifyTask pcb fun t => { t with status := TaskStatus.ready }
  modify fun m => m.setReadyList (pcb :: m.threadReadyList)

/-- The task that runs goes to the end of the ready list, the first of the list gets the
processor. -/
def schedule : KernelM Unit := do
  let m ← get
  let cur := m.current
  if (m.tasks cur).status = TaskStatus.running then
    assert (cur ∉ m.threadReadyList)
    modify fun m => m.setReadyList (m.threadReadyList ++ [cur])
    modifyTask cur fun t => { t with ticks := t.priority, status := TaskStatus.ready }
  let m ← get
  if m.threadReadyList = [] then threadUnblock m.idleThread
  let m ← get
  match m.threadReadyList with
  | [] => halt
  | next :: rest =>
    modify fun m => m.setReadyList rest
    modifyTask next fun t => { t with status := TaskStatus.running }
    pageDirActivate next
    modify fun m => m.setCurrent next

/-- The running thread stops running. -/
def threadBlock (status : ℤ) : KernelM Unit := do
  assert (status = TaskStatus.blocked ∨ status = TaskStatus.hanging ∨ status = TaskStatus.waiting)
  let m ← get
  assert (m.current ∉ m.threadReadyList)
  modifyTask m.current fun t => { t with status := status }

/-- The argument is stored in the field `status` of the PCB, which `threadBlock` overwrites. -/
def sysExit (status : ℤ) : KernelM Unit := do
  let m ← get
  let childThread := m.current
  modifyTask childThread fun t => { t with status := status }
  assert ((m.tasks childThread).parentPid ≠ -1)
  adoptChildren (m.tasks childThread).pid
  releaseProgramResource childThread
  let m ← get
  match m.pidToThread (m.tasks childThread).parentPid with
  | none => halt
  | some parentThread =>
    if (m.tasks parentThread).status = TaskStatus.waiting then threadUnblock parentThread
    threadBlock TaskStatus.hanging

def releasePid (pid : ℤ) : KernelM Unit :=
  modify fun m =>
    m.setPidBitMap (bitMapSet m.pidBitMap ((pid - 1) % 2 ^ 32).toNat false)

/-- `threadExit` without the final `schedule`. The pid is read from the PCB after its page was
given back. -/
def threadExit (threadOver : ℕ) : KernelM Unit := do
  modifyTask threadOver fun t => { t with status := TaskStatus.died }
  let m ← get
  if threadOver ∈ m.threadReadyList then
    modify fun m => m.setReadyList (m.threadReadyList.erase threadOver)
  if (m.tasks threadOver).pageDir ≠ 0 then freePage .kernel (m.tasks threadOver).pageDir 1
  modify fun m => m.setAllList (m.threadAllList.erase threadOver)
  if threadOver ≠ m.mainThread then freePage .kernel threadOver 1
  releasePid (m.tasks threadOver).pid

/-- How one round of the loop of `sysWait` ends. -/
inductive WaitResult where
  | reaped (status childPid : ℤ)
  | noChild
  | blocked
  deriving DecidableEq

/-- One round of the loop of `sysWait`. -/
def sysWait : KernelM WaitResult := do
  let m ← get
  let pid := (m.tasks m.current).pid
  match m.threadAllList.find? fun p =>
      (m.tasks p).parentPid = pid ∧ (m.tasks p).status = TaskStatus.hanging with
  | some childThread =>
    threadExit childThread
    -- `childPid` is a `uint16`
    return .reaped (m.tasks childThread).status ((m.tasks childThread).pid % 2 ^ 16)
  | none =>
    match m.threadAllList.find? fun p => (m.tasks p).parentPid = pid with
    | none => return .noChild
    | some _ =>
      threadBlock TaskStatus.waiting
      return .blocked

end Gogoos
