import Gogoos.Kernel.Process

/-!
# Locks

`kernel/thread/sync.c`. The parts of the code that run with interrupts off are single
programs; between them, and before and after each write to `holder` and
`holderRepeatTimes`, another thread may run. `LockPc` says where in the code a thread is, and
the nesting depth of a thread counts its calls of `lockLock` that have returned and are not
yet matched.
-/

namespace Gogoos

open Program Threads

/-- A lock with its semaphore. The lists hold the threads by their PCBs. -/
structure Lock where
  holder : Option ℕ
  value : ℕ
  blockedList : List ℕ
  waitingList : List ℕ
  holderRepeatTimes : ℕ

def lockInit : Lock := ⟨none, 1, [], [], 0⟩

structure Monitor where
  threads : Threads
  lock : Lock

abbrev MonitorM (α : Type) : Type := Program Unit Monitor α

namespace Monitor

def onThreads {α : Type} (p : ThreadM α) : MonitorM α :=
  zoom Monitor.threads (fun th m => { m with threads := th }) p

def setLock (g : Lock → Lock) : MonitorM Unit := modify fun m => { m with lock := g m.lock }

section Semaphore

/-- One round of the loop of `semaDown`: whether the semaphore was taken. Otherwise the thread
sleeps and tests the value again when it runs. -/
def semaDown : MonitorM Bool := do
  let m ← get
  let cur := m.threads.current
  if m.lock.value = 0 then
    assert (cur ∉ m.lock.blockedList)
    setLock fun l => { l with blockedList := l.blockedList ++ [cur] }
    onThreads (threadBlock TaskStatus.blocked)
    return false
  else
    setLock fun l => { l with value := (l.value + 255) % 256 }
    let m ← get
    assert (m.lock.value = 0)
    return true

/-- The loop of `semaUp`, over what is left of the list. -/
def wakeBlocked : List ℕ → MonitorM Unit
  | [] => pure ()
  | thread :: rest => do
    setLock fun l => { l with blockedList := rest }
    let m ← get
    if m.threads.status thread = TaskStatus.blocked then onThreads (threadUnblock thread)
    else wakeBlocked rest

def semaUp : MonitorM Unit := do
  let m ← get
  assert (m.lock.value = 0)
  wakeBlocked m.lock.blockedList
  setLock fun l => { l with value := (l.value + 1) % 256 }
  let m ← get
  assert (m.lock.value = 1)

end Semaphore

section Lock

/-- The test of `lockLock`: whether the thread has the lock already and only counts. -/
def lockAgain : MonitorM Bool := do
  let m ← get
  if m.lock.holder = some m.threads.current then
    setLock fun l => { l with holderRepeatTimes := (l.holderRepeatTimes + 1) % 2 ^ 32 }
    return true
  else return false

def setHolder : MonitorM Unit := do
  let m ← get
  setLock fun l => { l with holder := some m.threads.current }

def setTimes : MonitorM Unit := setLock fun l => { l with holderRepeatTimes := 1 }

/-- The tests of `lockUnlock`: whether the thread keeps the lock and only counts. -/
def unlockInner : MonitorM Bool := do
  let m ← get
  assert (m.lock.holder = some m.threads.current)
  if 1 < m.lock.holderRepeatTimes then
    setLock fun l => { l with holderRepeatTimes := l.holderRepeatTimes - 1 }
    return true
  else
    assert (m.lock.holderRepeatTimes = 1)
    return false

def clearHolder : MonitorM Unit := setLock fun l => { l with holder := none }

def clearTimes : MonitorM Unit := setLock fun l => { l with holderRepeatTimes := 0 }

/-- The whole of `lockUnlock`, which `lockWait` calls with interrupts off. -/
def lockUnlock : MonitorM Unit := do
  if ← unlockInner then pure ()
  else
    clearHolder
    clearTimes
    semaUp

/-- `lockWait` up to the point where the thread sleeps. It goes on with `lockLock`. -/
def lockWait : MonitorM Unit := do
  let m ← get
  let cur := m.threads.current
  assert (m.lock.holder = some cur)
  assert (cur ∉ m.lock.waitingList)
  assert (cur ∉ m.lock.blockedList)
  setLock fun l => { l with waitingList := l.waitingList ++ [cur] }
  lockUnlock
  onThreads (threadBlock TaskStatus.waiting)

def lockNotify : MonitorM Unit := do
  let m ← get
  assert (m.lock.holder = some m.threads.current)
  match m.lock.waitingList with
  | [] => pure ()
  | thread :: rest =>
    setLock fun l => { l with waitingList := rest }
    onThreads (threadUnblock thread)

/-- The loop of `lockNotifyAll`, over what is left of the list. -/
def wakeWaiting : List ℕ → MonitorM Unit
  | [] => pure ()
  | thread :: rest => do
    setLock fun l => { l with waitingList := rest }
    onThreads (threadUnblock thread)
    wakeWaiting rest

def lockNotifyAll : MonitorM Unit := do
  let m ← get
  assert (m.lock.holder = some m.threads.current)
  wakeWaiting m.lock.waitingList

end Lock

end Monitor

/-- Where a thread is in the code of the lock. -/
inductive LockPc where
  /-- In none of the functions. -/
  | out
  /-- In `semaDown`, before the first test of the value. -/
  | down
  /-- In `semaDown`, asleep or about to test the value again. -/
  | retest
  /-- In `lockLock`, with the semaphore taken and `holder` to be set. -/
  | setHolder
  | setTimes
  /-- In `lockUnlock`, at the outermost level, with `holder` to be cleared. -/
  | clearHolder
  | clearTimes
  /-- In `lockUnlock`, before `semaUp`. -/
  | up
  /-- In `lockWait`, asleep or about to call `lockLock`. -/
  | waiting
  deriving DecidableEq

structure LockSys extends Monitor where
  pc : ℕ → LockPc
  depth : ℕ → ℕ

abbrev SysM (α : Type) : Type := Program Unit LockSys α

/-- The calls on the lock. -/
inductive LockCall where
  | lock
  | unlock
  | wait
  | notify
  | notifyAll

/-- What happens next: the running thread calls a function of the lock, goes on in one, or it
does something else, which may be that the timer interrupts it. -/
inductive LockEvent where
  | call (c : LockCall)
  | resume
  | thread (op : ThreadOp)
  | proc (op : ProcOp)

namespace LockSys

abbrev cur (s : LockSys) : ℕ := s.threads.current

def onMonitor {α : Type} (p : MonitorM α) : SysM α :=
  zoom LockSys.toMonitor (fun m s => { s with toMonitor := m }) p

/-- The thread `t` is now at `pc` and has nested `depth` calls. -/
def goto (t : ℕ) (pc : LockPc) (depth : ℕ) : SysM Unit :=
  modify fun s =>
    { s with
      pc := fun p => if p = t then pc else s.pc p
      depth := fun p => if p = t then depth else s.depth p }

def lockLock (t depth : ℕ) : SysM Unit := do
  let again ← onMonitor Monitor.lockAgain
  if again then goto t .out (depth + 1) else goto t .down depth

def LockCall.run (t depth : ℕ) : LockCall → SysM Unit
  | .lock => lockLock t depth
  | .unlock => do
    let inner ← onMonitor Monitor.unlockInner
    if inner then goto t .out (depth - 1) else goto t .clearHolder 0
  | .wait => do
    onMonitor Monitor.lockWait
    goto t .waiting (depth - 1)
  | .notify => onMonitor Monitor.lockNotify
  | .notifyAll => onMonitor Monitor.lockNotifyAll

def testSema (t depth : ℕ) : SysM Unit := do
  let taken ← onMonitor Monitor.semaDown
  if taken then goto t .setHolder depth else goto t .retest depth

/-- The thread `t` goes on from `pc`. -/
def resume (t depth : ℕ) : LockPc → SysM Unit
  | .out => pure ()
  | .down | .retest => testSema t depth
  | .setHolder => do
    onMonitor Monitor.setHolder
    goto t .setTimes depth
  | .setTimes => do
    onMonitor Monitor.setTimes
    goto t .out 1
  | .clearHolder => do
    onMonitor Monitor.clearHolder
    goto t .clearTimes depth
  | .clearTimes => do
    onMonitor Monitor.clearTimes
    goto t .up depth
  | .up => do
    onMonitor Monitor.semaUp
    goto t .out depth
  | .waiting => lockLock t depth

def onThreads {α : Type} (p : ThreadM α) : SysM α := onMonitor (Monitor.onThreads p)

def LockEvent.run (s : LockSys) : LockEvent → SysM Unit
  | .call c => LockCall.run s.cur (s.depth s.cur) c
  | .resume => resume s.cur (s.depth s.cur) (s.pc s.cur)
  | .thread op => onThreads (op.run s.threads)
  | .proc op => onThreads op.run

/-- A thread that is in the code of the lock is not aimed at by what other threads do
elsewhere, and no thread ends while it has the lock. Every switch may wake the idle thread. -/
def Elsewhere (s : LockSys) (spares keeps : ℕ → Prop) : Prop :=
  (∀ t, s.pc t ≠ .out → t ≠ s.threads.idleThread → spares t) ∧ ∀ t, 0 < s.depth t → keeps t

/-- When an event can happen. A thread only unlocks, waits on and notifies a lock that it has. -/
def LockEvent.Enabled (s : LockSys) : LockEvent → Prop
  | .call .lock => s.pc s.cur = .out
  | .call _ => s.pc s.cur = .out ∧ 0 < s.depth s.cur
  | .resume => s.pc s.cur ≠ .out
  | .thread op =>
    op.Enabled s.threads ∧ op.HasPage s.threads ∧
      s.Elsewhere (op.Spares s.threads) (op.Keeps s.threads)
  | .proc op =>
    op.Enabled s.threads ∧ s.pc s.cur = .out ∧ ∀ t, 0 < s.depth t → op.Keeps s.threads t

/-- The idle thread does not call `lockLock`. Only a key press can make it: the handler runs on top
of any thread, and `ioQueuePutChar` takes the lock of the queue. -/
def NotIdle (s : LockSys) (ev : LockEvent) : Prop :=
  ev = .call .lock → s.cur ≠ s.threads.idleThread

def LockStep (cond : LockSys → LockEvent → Prop) (s s' : LockSys) : Prop :=
  ∃ ev, LockEvent.Enabled s ev ∧ cond s ev ∧ Returns () (LockEvent.run s ev) s () s'

end LockSys

end Gogoos
