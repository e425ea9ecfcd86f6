import Gogoos.Kernel.Machine

/-!
# Threads and the scheduler

`kernel/thread/thread.c` and the timer interrupt of `device/timer.c`. A PCB is known by the
address of its page, and the intrusive lists of PCBs are lists of these addresses. Switching
to another thread sets `current`: what the old thread does when it runs again belongs to a
later step. The page allocator is reduced to the pages it has given out.
-/

namespace Gogoos

open Program

structure Threads where
  tasks : ℕ → TaskStruct
  /-- `getCurrentThread()`. -/
  current : ℕ
  mainThread : ℕ
  idleThread : ℕ
  threadReadyList : List ℕ
  threadAllList : List ℕ
  pidBitMap : BitMap
  /-- The pages got from `getKernelPages(1)` and not given back. -/
  pages : List ℕ
  /-- `getIntrStatus() == INTR_ON`. -/
  intr : Bool
  /-- The active page directory, 0 for the one of the kernel. -/
  cr3 : ℕ
  /-- The global `ticks`. -/
  ticks : ℕ

abbrev ThreadM (α : Type) : Type := Program Unit Threads α

/-- The statuses that `threadBlock` and `threadUnblock` accept. -/
abbrev Sleeping (status : ℤ) : Prop :=
  status = TaskStatus.blocked ∨ status = TaskStatus.hanging ∨ status = TaskStatus.waiting

def stackMagicNumber : ℕ := 0x20212021

namespace Threads

abbrev status (s : Threads) (t : ℕ) : ℤ := (s.tasks t).status

@[simps] def setTask (s : Threads) (pcb : ℕ) (t : TaskStruct) : Threads :=
  { s with tasks := fun p => if p = pcb then t else s.tasks p }

@[simps] def setReadyList (s : Threads) (l : List ℕ) : Threads := { s with threadReadyList := l }

@[simps] def setAllList (s : Threads) (l : List ℕ) : Threads := { s with threadAllList := l }

@[simps] def setIntr (s : Threads) (b : Bool) : Threads := { s with intr := b }

@[simps] def setStatus (s : Threads) (pcb : ℕ) (status : ℤ) : Threads :=
  { s with tasks := fun p => if p = pcb then { s.tasks pcb with status := status } else s.tasks p }

/-- `processActivate` and `switchTo`. A kernel thread has no directory of its own. -/
@[simps] def switchTo (s : Threads) (next : ℕ) : Threads :=
  { s with cr3 := (s.tasks next).pageDir, current := next }

section Status

variable {s : Threads} {t pcb next : ℕ} {task : TaskStruct} {l : List ℕ} {b : Bool} {st : ℤ}

@[simp] theorem status_setTask :
    (s.setTask pcb task).status t = if t = pcb then task.status else s.status t :=
  apply_ite TaskStruct.status _ _ _

@[simp] theorem status_setStatus :
    (s.setStatus pcb st).status t = if t = pcb then st else s.status t :=
  apply_ite TaskStruct.status _ _ _

@[simp] theorem status_setReadyList : (s.setReadyList l).status t = s.status t := rfl

@[simp] theorem status_setAllList : (s.setAllList l).status t = s.status t := rfl

@[simp] theorem status_setIntr : (s.setIntr b).status t = s.status t := rfl

@[simp] theorem status_switchTo : (s.switchTo next).status t = s.status t := rfl

end Status

section Switching

def disableIntr : ThreadM Unit := modify fun s => s.setIntr false

/-- The thread is put at the front of the ready list. After the assertions its status is not
`TASK_READY`, so the second test of the code always goes one way. -/
def threadUnblock (pcb : ℕ) : ThreadM Unit := do
  let s ← get
  assert (pcb ∉ s.threadReadyList)
  assert (Sleeping (s.status pcb))
  modify fun s => (s.setStatus pcb TaskStatus.ready).setReadyList (pcb :: s.threadReadyList)

/-- The first part of `schedule`: a thread that still runs goes to the end of the list. -/
def requeue : ThreadM Unit := do
  let s ← get
  let cur := s.current
  if s.status cur = TaskStatus.running then
    assert (cur ∉ s.threadReadyList)
    modify fun s =>
      (s.setTask cur { s.tasks cur with
        ticks := (s.tasks cur).priority, status := TaskStatus.ready }).setReadyList
        (s.threadReadyList ++ [cur])
  else pure ()

/-- The second part: an empty list gets the idle thread. -/
def wakeIdle : ThreadM Unit := do
  let s ← get
  if s.threadReadyList = [] then threadUnblock s.idleThread else pure ()

/-- The last part: the first of the list runs. -/
def dispatch : ThreadM Unit := do
  let s ← get
  match s.threadReadyList with
  | [] => halt
  | next :: rest =>
    modify fun s => ((s.setStatus next TaskStatus.running).setReadyList rest).switchTo next

def schedule : ThreadM Unit := do
  let s ← get
  assert (s.intr = false)
  requeue
  wakeIdle
  dispatch

def threadBlock (status : ℤ) : ThreadM Unit := do
  assert (Sleeping status)
  disableIntr
  let s ← get
  assert (s.current ∉ s.threadReadyList)
  modify fun s => s.setStatus s.current status
  schedule

def threadYield : ThreadM Unit := do
  disableIntr
  let s ← get
  assert (s.current ∉ s.threadReadyList)
  modify fun s =>
    (s.setStatus s.current TaskStatus.ready).setReadyList (s.threadReadyList ++ [s.current])
  schedule

/-- The interrupt gate turns interrupts off. -/
def intrTimerHandler : ThreadM Unit := do
  disableIntr
  let s ← get
  let cur := s.current
  assert ((s.tasks cur).stackMagicNum = stackMagicNumber)
  modify fun s =>
    { s.setTask cur { s.tasks cur with elapsedTicks := (s.tasks cur).elapsedTicks + 1 } with
      ticks := s.ticks + 1 }
  if (s.tasks cur).ticks = 0 then schedule
  else modify fun s => s.setTask cur { s.tasks cur with ticks := (s.tasks cur).ticks - 1 }

end Switching

section StartExit

/-- The pid of bit `i` is `i + 1`. When no bit is left the scan returns -1 and the pid is 0. -/
def allocatePid : ThreadM ℤ := do
  let s ← get
  match bitMapScanAndSet s.pidBitMap 1 true with
  | (none, _) => return 0
  | (some bitIdx, bm) =>
    modify fun s => { s with pidBitMap := bm }
    return bitIdx + 1

def releasePid (pid : ℤ) : ThreadM Unit :=
  modify fun s =>
    { s with pidBitMap := bitMapSet s.pidBitMap ((pid - 1) % 2 ^ 32).toNat false }

/-- The PCB as `threadCreate` fills it. The page is cleared first. -/
def freshTask (name : List UInt8) (priority : ℕ) (pid : ℤ) : TaskStruct where
  status := TaskStatus.ready
  pid := pid
  priority := priority
  name := name
  ticks := priority
  elapsedTicks := 0
  fdTable := fun fd => if fd < 3 then fd else -1
  pageDir := 0
  umbdArr := fun _ => ⟨0, 0, []⟩
  vap := ⟨⟨0, fun _ => 0⟩, 0, 0⟩
  cwdIno := 0
  parentPid := -1
  stackMagicNum := stackMagicNumber
  eax := 0

def threadCreate (pcb : ℕ) (name : List UInt8) (priority : ℕ) : ThreadM Unit := do
  let pid ← allocatePid
  modify fun s => s.setTask pcb (freshTask name priority pid)

/-- `pcb` is what `getKernelPages(1)` returns, 0 for `NULL`, which `threadStart` does not test. -/
def threadStart (pcb : ℕ) (name : List UInt8) (priority : ℕ) : ThreadM Unit := do
  modify fun s => { s with pages := if pcb = 0 then s.pages else pcb :: s.pages }
  threadCreate pcb name priority
  let s ← get
  assert (pcb ∉ s.threadReadyList)
  assert (pcb ∉ s.threadAllList)
  modify fun s =>
    (s.setReadyList (s.threadReadyList ++ [pcb])).setAllList (s.threadAllList ++ [pcb])

/-- `freePage(PF_KERNEL, page, 1)`, which takes back a page that was given out. It drops the page
of the stack from the TLB, so a thread that gives back its own PCB, above which its stack lies,
faults when it returns. -/
def freeKernelPage (page : ℕ) : ThreadM Unit := do
  let s ← get
  assert (page ∈ s.pages)
  modify fun s => { s with pages := s.pages.erase page }
  if page = s.current then halt else pure ()

/-- The pid is read from the PCB after its page was given back. -/
def threadExit (threadOver : ℕ) (needSchedule : Bool) : ThreadM Unit := do
  disableIntr
  modify fun s =>
    (s.setStatus threadOver TaskStatus.died).setReadyList (s.threadReadyList.erase threadOver)
  let s ← get
  (if (s.tasks threadOver).pageDir ≠ 0 then freeKernelPage (s.tasks threadOver).pageDir
    else pure ())
  modify fun s => s.setAllList (s.threadAllList.erase threadOver)
  (if threadOver ≠ s.mainThread then freeKernelPage threadOver else pure ())
  releasePid (s.tasks threadOver).pid
  if needSchedule then schedule else pure ()

def pidToThread (s : Threads) (pid : ℤ) : Option ℕ :=
  s.threadAllList.find? fun p => (s.tasks p).pid = pid

end StartExit

end Threads

end Gogoos
