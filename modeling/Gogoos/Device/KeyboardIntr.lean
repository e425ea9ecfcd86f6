import Gogoos.Device.Keyboard
import Gogoos.Kernel.LockRun
import Gogoos.Logic.Keeps
import Gogoos.Structure.IOQueue

/-!
# The keyboard interrupt and the lock of its queue

The handler runs with interrupts off on top of whichever thread is running and puts what the keys
say into the queue, under the lock that the readers use. `ioQueueGetChar` is cut into the parts
between which an interrupt may come. A handler that has to wait puts the interrupted thread to
sleep.
-/

namespace Gogoos

open Program Threads

/-- Where a thread is in `ioQueueGetChar`, with the character it has read. -/
inductive ReaderPc where
  | out
  /-- In `lockLock` or `lockWait`, or about to test whether the queue is empty. -/
  | enter
  /-- The queue was empty: about to call `lockWait`. -/
  | waits
  /-- About to write `tail`. -/
  | moving (res : UInt8)
  /-- About to clear `isFull`. -/
  | freeing (res : UInt8)
  /-- About to compare `tail` and `head`. -/
  | testing (res : UInt8)
  /-- About to set `isEmpty`. -/
  | emptying (res : UInt8)
  | notifying (res : UInt8)
  | unlocking (res : UInt8)
  /-- In `lockUnlock`, or about to return. -/
  | leaving (res : UInt8)
  deriving DecidableEq

structure KeyboardSys extends LockSys where
  keyboard : Keyboard
  queue : IOQueue
  reader : ℕ → ReaderPc

abbrev KeyboardM (α : Type) : Type := Program Unit KeyboardSys α

inductive KeyboardEvent where
  /-- The controller sends a byte. -/
  | key (byte : ℕ)
  /-- The running thread calls `ioQueueGetChar`. -/
  | getChar
  /-- It goes on in `ioQueueGetChar`, outside of the functions of the lock. -/
  | read
  /-- It goes on in a function of the lock. -/
  | lock
  /-- A thread does something else, or the timer interrupts it. -/
  | thread (op : ThreadOp)

namespace KeyboardSys

section System

def onLock {α : Type} (p : SysM α) : KeyboardM α :=
  zoom KeyboardSys.toLockSys (fun l s => { s with toLockSys := l }) p

def onMonitor {α : Type} (p : MonitorM α) : KeyboardM α := onLock (LockSys.onMonitor p)

/-- `lockLock` in the handler: whether the thread now has the lock. Otherwise it went to sleep. -/
def lockLock : MonitorM Bool := do
  if ← Monitor.lockAgain then return true
  else if ← Monitor.semaDown then
    Monitor.setHolder
    Monitor.setTimes
    return true
  else return false

/-- Whether the call returns before the thread sleeps. -/
def ioQueuePutChar (elem : UInt8) : KeyboardM Bool := do
  if ← onMonitor lockLock then
    let s ← get
    if s.queue.isFull then
      onMonitor Monitor.lockWait
      return false
    else
      modify fun s => { s with queue := s.queue.store elem }
      onMonitor Monitor.lockNotifyAll
      onMonitor Monitor.lockUnlock
      return true
  else return false

/-- Whether the handler returns before the interrupted thread sleeps. -/
def intrKeyBoardHandler (byte : ℕ) : KeyboardM Bool := do
  let s ← get
  let (keyboard, c) := s.keyboard.intrKeyBoardHandler byte
  modify fun s => { s with keyboard := keyboard }
  match c with
  | none => return true
  | some c => ioQueuePutChar c

def setReader (t : ℕ) (pc : ReaderPc) : KeyboardM Unit :=
  modify fun s => { s with reader := fun q => if q = t then pc else s.reader q }

def setQueue (g : IOQueue → IOQueue) : KeyboardM Unit :=
  modify fun s => { s with queue := g s.queue }

/-- An event of the lock alone. -/
def lockEvent (ev : LockEvent) : KeyboardM Unit := do
  let s ← get
  onLock (LockSys.LockEvent.run s.toLockSys ev)

/-- The thread `t` goes on in `ioQueueGetChar`. -/
def ioQueueGetChar (t : ℕ) : ReaderPc → KeyboardM Unit
  | .out => pure ()
  | .enter => do
    let s ← get
    if s.queue.isEmpty then setReader t .waits
    else setReader t (.moving s.queue.first)
  | .waits => do
    lockEvent (.call .wait)
    setReader t .enter
  | .moving res => do
    setQueue fun queue => { queue with tail := nextPos queue.tail }
    setReader t (.freeing res)
  | .freeing res => do
    setQueue fun queue => { queue with isFull := false }
    setReader t (.testing res)
  | .testing res => do
    let s ← get
    if s.queue.tail = s.queue.head then setReader t (.emptying res)
    else setReader t (.notifying res)
  | .emptying res => do
    setQueue fun queue => { queue with isEmpty := true }
    setReader t (.notifying res)
  | .notifying res => do
    lockEvent (.call .notifyAll)
    setReader t (.unlocking res)
  | .unlocking res => do
    lockEvent (.call .unlock)
    setReader t (.leaving res)
  | .leaving _ => setReader t .out

def KeyboardEvent.run (s : KeyboardSys) : KeyboardEvent → KeyboardM Bool
  | .key byte => intrKeyBoardHandler byte
  | .getChar => do
    lockEvent (.call .lock)
    setReader s.cur .enter
    return true
  | .read => do
    ioQueueGetChar s.cur (s.reader s.cur)
    return true
  | .lock => do
    lockEvent .resume
    return true
  | .thread op => do
    lockEvent (.thread op)
    return true

/-- When an event can happen. Interrupts are off in `semaDown`. What threads do elsewhere is not
aimed at a reader, and a reader does not end. -/
def KeyboardEvent.Enabled (s : KeyboardSys) : KeyboardEvent → Prop
  | .key _ => s.pc s.cur ≠ .retest
  | .getChar => s.reader s.cur = .out ∧ s.cur ≠ s.threads.idleThread
  | .read => s.reader s.cur ≠ .out ∧ s.pc s.cur = .out
  | .lock => s.pc s.cur ≠ .out
  | .thread op => op.Enabled s.threads ∧ op.HasPage s.threads ∧
      ∀ t, s.reader t ≠ .out → op.Spares s.threads t

def Step (cond : KeyboardSys → KeyboardEvent → Prop) (s s' : KeyboardSys) : Prop :=
  ∃ ev r, KeyboardEvent.Enabled s ev ∧ cond s ev ∧ Returns () (KeyboardEvent.run s ev) s r s'

/-- A byte that yields a character comes when there is room in the queue and the lock is free, or
held by the interrupted thread with `holderRepeatTimes` set. -/
def Calm (s : KeyboardSys) : KeyboardEvent → Prop
  | .key byte => (s.keyboard.intrKeyBoardHandler byte).2 ≠ none → s.queue.isFull = false ∧
      (s.lock.value = 1 ∨ (s.lock.holder = some s.cur ∧ 0 < s.lock.holderRepeatTimes))
  | _ => True

/-- The threads before anybody has used the keyboard. -/
def init (th : Threads) (buf : ℕ → UInt8) : KeyboardSys where
  toLockSys := LockSys.initLock th
  keyboard := Keyboard.keyBoardInit
  queue := IOQueue.ioQueueInit ⟨buf, 0, 0, false, false⟩
  reader _ := .out

/-- The point of the lock's code and the nesting depth that go with a point of `ioQueueGetChar`. -/
def ReaderAt : ReaderPc → LockPc → ℕ → Prop
  | .out, p, d => p = .out ∧ d = 0
  | .enter, p, d => p = .out ∧ d = 1 ∨
      (p = .down ∨ p = .retest ∨ p = .setHolder ∨ p = .setTimes ∨ p = .waiting) ∧ d = 0
  | .waits, p, d => p = .out ∧ d = 1
  | .leaving _, p, d => (p = .clearHolder ∨ p = .clearTimes ∨ p = .up ∨ p = .out) ∧ d = 0
  | .moving _, p, d | .freeing _, p, d | .testing _, p, d | .emptying _, p, d | .notifying _, p, d
  | .unlocking _, p, d => p = .out ∧ d = 1

structure Inv (s : KeyboardSys) : Prop where
  lock : LockInv s.toLockSys
  reader : ∀ t, ReaderAt (s.reader t) (s.pc t) (s.depth t)

structure Law (s : KeyboardSys) : Prop where
  /-- The next key press is over before anything else runs, and its thread runs on. -/
  returns : ∀ byte, KeyboardEvent.Enabled s (.key byte) → s.Calm (.key byte) →
    wp noStop () (intrKeyBoardHandler byte) (fun r s' => r = true ∧ s'.cur = s.cur ∧
      s'.threads.status s.cur = TaskStatus.running) s
  idle : s.threads.idleThread ∉ s.lock.blockedList ∧ s.threads.idleThread ∉ s.lock.waitingList
  /-- No assertion of the next event fails. -/
  asserts : ∀ ev, KeyboardEvent.Enabled s ev → s.Calm ev →
    wp noStop () (KeyboardEvent.run s ev) (fun _ _ => True) s

end System

section Handler

variable {s s' : KeyboardSys} {e : Unit} {t : ℕ} {r : ReaderPc} {p : LockPc} {d byte : ℕ}
  {elem : UInt8}

theorem wp_onMonitor {α : Type} {m : MonitorM α} {Q : α → KeyboardSys → Prop}
    (h : wp noStop e m (fun a mon => Q a { s with toMonitor := mon }) s.toMonitor) :
    wp noStop e (onMonitor m) Q s := wp_zoom (wp_zoom h)

theorem ReaderAt.depth_le (h : ReaderAt r p d) : d ≤ 1 := by
  cases r <;> simp only [ReaderAt] at h <;> omega

/-- The lock of a thread that may enter it once more is not nested. -/
theorem Inv.times_le (h : Inv s) (hh : s.lock.holder = some s.cur) :
    OwnerInv s.lock s.pc s.depth (some s.cur) ∧ s.lock.holderRepeatTimes ≤ 1 := by
  obtain ⟨o, ho⟩ := h.lock.owner
  have hin : Inside s.pc s.depth s.cur := by
    by_contra hout
    exact ho.not_holder hout hh
  obtain rfl := (ho.inside s.cur).mp hin
  have hd := (h.reader s.cur).depth_le
  have hf := ho.fields s.cur rfl
  refine ⟨ho, ?_⟩
  cases hp : s.pc s.cur <;> simp only [Fields, hp] at hf <;> omega

/-- Threads are woken and fields of the lock change, and nobody moves. -/
theorem Inv.woken {th : Threads} {lk : Lock} {o : Option ℕ} (h : Inv s) (queue : IOQueue)
    (hth : Wf th) (hq : QueueInv th lk s.pc) (hall : th.threadAllList = s.threads.threadAllList)
    (hidle : th.idleThread = s.threads.idleThread) (ho : OwnerInv lk s.pc s.depth o)
    (hs : NotStranded lk s.pc) : Inv { s with threads := th, lock := lk, queue := queue } where
  lock := ⟨hth, hq, ⟨o, ho⟩, fun t ht => hall ▸ hidle ▸ h.lock.held t ht, hs⟩
  reader := h.reader

/-- The thread on top of which the handler runs has the lock: the handler enters it once more. -/
theorem wp_putChar_nested (h : Inv s) (hfull : s.queue.isFull = false)
    (hholder : s.lock.holder = some s.cur) (htimes : 0 < s.lock.holderRepeatTimes) :
    wp noStop e (ioQueuePutChar elem) (fun r s' => r = true ∧ Inv s' ∧ s'.cur = s.cur) s := by
  obtain ⟨ho, hle⟩ := h.times_le hholder
  have hone : s.lock.holderRepeatTimes = 1 := by omega
  unfold ioQueuePutChar lockLock
  apply wp_bind
  apply wp_onMonitor
  apply wp_bind
  refine Monitor.wp_lockAgain (fun _ => ?_) fun hne => absurd hholder hne
  rw [if_pos rfl, wp_pure, if_pos rfl, wp_get_bind]
  apply wp_ite
  · intro hf
    exact absurd hf (by simp [hfull])
  intro _
  rw [wp_modify_bind]
  apply wp_bind
  apply wp_onMonitor
  unfold Monitor.lockNotifyAll
  rw [wp_get_bind, wp_assert_pos hholder]
  refine LockSys.wp_wakeWaiting h.lock.wf (h.lock.queue.congr rfl rfl) rfl ?_
  intro th hth hq hcur hall hidle _ _
  apply wp_bind
  apply wp_onMonitor
  have hmod : (s.lock.holderRepeatTimes + 1) % 2 ^ 32 = 2 := by omega
  have hvalue := ho.value_of_inside
  refine Monitor.wp_lockUnlock hth (hcur ▸ hholder) ?_ hvalue ?_ (fun _ => ?_) (fun h1 => ?_)
    fun h1 => ?_
  · change 0 < (s.lock.holderRepeatTimes + 1) % 2 ^ 32
    omega
  · exact hq.blocked_mem
  · refine wp_pure.mpr ⟨rfl, h.woken _ hth (hq.congr rfl rfl) hall hidle (ho.congr rfl rfl ?_)
      (LockSys.not_stranded_taken hvalue), hcur⟩
    change (s.lock.holderRepeatTimes + 1) % 2 ^ 32 - 1 = s.lock.holderRepeatTimes
    omega
  · change (s.lock.holderRepeatTimes + 1) % 2 ^ 32 = 1 at h1
    omega
  · change (s.lock.holderRepeatTimes + 1) % 2 ^ 32 = 1 at h1
    omega

/-- The lock is free: the handler takes it and gives it back. -/
theorem wp_putChar_free (h : Inv s) (hfull : s.queue.isFull = false) (hvalue : s.lock.value = 1) :
    wp noStop e (ioQueuePutChar elem) (fun r s' => r = true ∧ Inv s' ∧ s'.cur = s.cur) s := by
  obtain ⟨o, ho⟩ := h.lock.owner
  obtain rfl := ho.free_of_value hvalue
  obtain ⟨hholder, htimes⟩ := ho.free rfl
  have hnot : s.lock.holder ≠ some s.cur := by simp [hholder]
  unfold ioQueuePutChar lockLock
  apply wp_bind
  apply wp_onMonitor
  apply wp_bind
  refine Monitor.wp_lockAgain (fun hh => absurd hh hnot) fun _ => ?_
  rw [if_neg Bool.false_ne_true]
  apply wp_bind
  refine Monitor.wp_semaDown h.lock.wf (LockSys.cur_not_blocked h.lock) (.inr hvalue)
    (fun h0 => ?_) fun _ => ?_
  · omega
  unfold Monitor.setHolder Monitor.setTimes Monitor.setLock
  rw [if_pos rfl, wp_bind_assoc, wp_get_bind, wp_modify_bind, wp_modify_bind, wp_pure, if_pos rfl,
    wp_get_bind]
  apply wp_ite
  · intro hf
    exact absurd hf (by simp [hfull])
  intro _
  rw [wp_modify_bind]
  apply wp_bind
  apply wp_onMonitor
  unfold Monitor.lockNotifyAll
  rw [wp_get_bind, wp_assert_pos rfl]
  refine LockSys.wp_wakeWaiting h.lock.wf (h.lock.queue.congr rfl rfl) rfl ?_
  intro th hth hq hcur hall hidle _ _
  apply wp_bind
  apply wp_onMonitor
  refine Monitor.wp_lockUnlock hth (congrArg some hcur.symm) Nat.one_pos rfl hq.blocked_mem (fun h1 => ?_)
    (fun _ hnil => ?_) fun _ t rest hl => ?_
  · exact absurd h1 (lt_irrefl 1)
  · refine wp_pure.mpr ⟨rfl, h.woken _ hth (hq.congr rfl rfl) hall hidle
      (ho.congr hvalue.symm hholder.symm htimes.symm) ?_, hcur⟩
    exact fun _ hne => absurd hnil hne
  · have hlist : s.lock.blockedList = t :: rest := hl
    obtain ⟨htm, hst⟩ := hq.blocked_mem t (by simp [hlist])
    have hsleep : Sleeping (th.status t) := by simp [hst, Sleeping]
    refine wp_pure.mpr ⟨rfl, h.woken _ (hth.unblocked htm hsleep) ((hq.wakeBlocked hl).congr rfl rfl)
      hall hidle (ho.congr hvalue.symm hholder.symm htimes.symm) ?_, hcur⟩
    intro _ _
    exact ⟨t, (h.lock.queue.blocked t (by simp [hlist])).1,
      (List.nodup_cons.mp (hlist ▸ h.lock.queue.blocked_nodup)).1⟩

/-- No reader moves. -/
def SameReader (s s' : KeyboardSys) : Prop := s'.reader = s.reader

instance : Std.Refl SameReader := ⟨fun _ => rfl⟩

instance : IsTrans KeyboardSys SameReader := ⟨fun _ _ _ h h' => Eq.trans h' h⟩

theorem keeps_onMonitor {α : Type} (m : MonitorM α) : Keeps SameReader (onMonitor m) :=
  fun _ _ => wp_zoom (wp_zoom (wp_iff.mpr ⟨fun _ _ _ => rfl, fun _ _ => trivial⟩))

theorem keeps_ioQueuePutChar : Keeps SameReader (ioQueuePutChar elem) := by
  refine (keeps_onMonitor _).bind fun locked => .ite (.get_bind fun s => .ite ?_ ?_) (keeps_pure _)
  · exact (keeps_onMonitor _).bind fun _ => keeps_pure _
  · refine (Keeps.modify ?_).bind fun _ => (keeps_onMonitor _).bind fun _ =>
      (keeps_onMonitor _).bind fun _ => keeps_pure _
    exact fun _ => rfl

theorem keeps_handler : Keeps SameReader (intrKeyBoardHandler byte) := by
  apply Keeps.get_bind
  intro s
  rcases s.keyboard.intrKeyBoardHandler byte with ⟨keyboard, c⟩
  refine Keeps.bind (Keeps.modify ?_) fun _ => ?_
  · exact fun _ => rfl
  · cases c with
    | none => exact keeps_pure _
    | some c => exact keeps_ioQueuePutChar

theorem wp_handler (h : Inv s) (hc : s.Calm (.key byte)) :
    wp noStop e (intrKeyBoardHandler byte) (fun r s' => r = true ∧ Inv s' ∧ s'.cur = s.cur) s := by
  unfold intrKeyBoardHandler
  rw [wp_get_bind]
  have hc' : (s.keyboard.intrKeyBoardHandler byte).2 ≠ none → s.queue.isFull = false ∧
      (s.lock.value = 1 ∨ (s.lock.holder = some s.cur ∧ 0 < s.lock.holderRepeatTimes)) := hc
  rcases hres : s.keyboard.intrKeyBoardHandler byte with ⟨keyboard, c⟩
  rw [hres] at hc'
  rw [wp_modify_bind]
  have hkey : Inv { s with keyboard := keyboard } := ⟨h.lock, h.reader⟩
  cases c with
  | none => exact wp_pure.mpr ⟨rfl, hkey, rfl⟩
  | some c =>
    obtain ⟨hfull, hvalue | ⟨hholder, htimes⟩⟩ := hc' (by simp)
    · exact wp_putChar_free hkey hfull hvalue
    · exact wp_putChar_nested hkey hfull hholder htimes

end Handler

section Reader

variable {s s' : KeyboardSys} {e : Unit} {t : ℕ} {r : ReaderPc} {res : UInt8}

/-- A function of the lock is called or goes on. -/
theorem wp_lockEvent {ev : LockEvent} {Q : Unit → KeyboardSys → Prop} (h : Inv s)
    (hen : LockSys.LockEvent.Enabled s.toLockSys ev) (hidle : s.toLockSys.NotIdle ev)
    (hproc : ∀ op, ev ≠ .proc op)
    (hQ : ∀ l, LockInv l → LockSys.Moves s.toLockSys ev l → Q () { s with toLockSys := l }) :
    wp noStop e (lockEvent ev) Q s := by
  have hd := (h.reader s.cur).depth_le
  have hb : s.toLockSys.Shallow ev := fun _ => by
    have : s.depth s.cur + 1 ≤ 2 := by omega
    exact this.trans_lt (by norm_num)
  unfold lockEvent
  rw [wp_get_bind]
  apply wp_zoom
  apply wp_mono (wp_and (LockSys.wp_event h.lock hen hidle hb hproc) LockSys.wp_moves)
  exact fun _ l ⟨hinv, hm⟩ => hQ l hinv hm

/-- The running thread has come to a new point of `ioQueueGetChar`. -/
theorem Inv.moved {l : LockSys} {ev : LockEvent} (h : Inv s) (hinv : LockInv l)
    (hm : LockSys.Moves s.toLockSys ev l)
    (hr : ∀ p d, LockSys.Successor s.toLockSys p d ev → ReaderAt r p d) :
    Inv { s with toLockSys := l, reader := fun q => if q = s.cur then r else s.reader q } where
  lock := hinv
  reader t := by
    by_cases ht : t = s.cur
    · subst ht
      simpa using hr _ _ hm.next
    · have := h.reader t
      simp only [ht, if_false]
      rwa [(hm.other t ht).1, (hm.other t ht).2]

/-- The same without a change of `reader`. -/
theorem Inv.stays {l : LockSys} {ev : LockEvent} (h : Inv s) (hinv : LockInv l)
    (hm : LockSys.Moves s.toLockSys ev l)
    (hr : ∀ p d, LockSys.Successor s.toLockSys p d ev → ReaderAt (s.reader s.cur) p d) :
    Inv { s with toLockSys := l } := by
  have hself : (fun q => if q = s.cur then s.reader s.cur else s.reader q) = s.reader := by
    funext q
    split_ifs with hq
    · rw [hq]
    · rfl
  have hmoved := h.moved hinv hm hr
  rwa [hself] at hmoved

/-- Nothing but the queue and the point of the running thread in `ioQueueGetChar` changes. -/
theorem Inv.goto (h : Inv s) (queue : IOQueue) (hr : ReaderAt r (s.pc s.cur) (s.depth s.cur)) :
    Inv { s with queue := queue, reader := fun q => if q = s.cur then r else s.reader q } where
  lock := h.lock
  reader t := by
    by_cases ht : t = s.cur
    · subst ht
      simpa using hr
    · simpa [ht] using h.reader t

theorem wp_read (h : Inv s) (hr : s.reader s.cur ≠ .out) (hpc : s.pc s.cur = .out) :
    wp noStop e (ioQueueGetChar s.cur (s.reader s.cur)) (fun _ s' => Inv s') s := by
  have hat := h.reader s.cur
  cases hreader : s.reader s.cur with
  | out => exact absurd hreader hr
  | enter =>
    have hd : s.depth s.cur = 1 := by
      simpa [hreader, ReaderAt, hpc] using hat
    unfold ioQueueGetChar
    rw [wp_get_bind]
    apply wp_ite
    · exact fun _ => wp_modify.mpr (h.goto s.queue ⟨hpc, hd⟩)
    · exact fun _ => wp_modify.mpr (h.goto s.queue ⟨hpc, hd⟩)
  | waits =>
    rw [hreader] at hat
    unfold ioQueueGetChar
    apply wp_bind
    refine wp_lockEvent h ⟨hpc, by simp [hat.2]⟩ nofun (by simp) fun l hinv hm => ?_
    apply wp_modify.mpr
    refine h.moved hinv hm ?_
    rintro p d ⟨rfl, rfl⟩
    exact .inr ⟨by simp, by simp [hat.2]⟩
  | moving res =>
    rw [hreader] at hat
    exact wp_modify_bind.mpr (wp_modify.mpr (h.goto _ hat))
  | freeing res =>
    rw [hreader] at hat
    exact wp_modify_bind.mpr (wp_modify.mpr (h.goto _ hat))
  | testing res =>
    rw [hreader] at hat
    unfold ioQueueGetChar
    rw [wp_get_bind]
    apply wp_ite
    · exact fun _ => wp_modify.mpr (h.goto _ hat)
    · exact fun _ => wp_modify.mpr (h.goto _ hat)
  | emptying res =>
    rw [hreader] at hat
    exact wp_modify_bind.mpr (wp_modify.mpr (h.goto _ hat))
  | notifying res =>
    rw [hreader] at hat
    unfold ioQueueGetChar
    apply wp_bind
    refine wp_lockEvent h ⟨hpc, by simp [hat.2]⟩ nofun (by simp) fun l hinv hm => ?_
    apply wp_modify.mpr
    refine h.moved hinv hm ?_
    rintro p d ⟨rfl, rfl⟩
    exact hat
  | unlocking res =>
    rw [hreader] at hat
    unfold ioQueueGetChar
    apply wp_bind
    refine wp_lockEvent h ⟨hpc, by simp [hat.2]⟩ nofun (by simp) fun l hinv hm => ?_
    apply wp_modify.mpr
    refine h.moved hinv hm ?_
    rintro p d (⟨rfl, rfl⟩ | ⟨rfl, rfl⟩)
    · exact ⟨by simp, by simp [hat.2]⟩
    · exact ⟨by simp, rfl⟩
  | leaving res =>
    rw [hreader] at hat
    exact wp_modify.mpr (h.goto s.queue ⟨hpc, hat.2⟩)

/-- A reader that is in the code of the lock goes on there. -/
theorem Inv.resumed {p : LockPc} {d : ℕ} (h : Inv s) (hpc : s.pc s.cur ≠ .out)
    (hs : LockSys.Successor s.toLockSys p d .resume) : ReaderAt (s.reader s.cur) p d := by
  have hat := h.reader s.cur
  cases hreader : s.reader s.cur <;> rw [hreader] at hat <;> cases hp : s.pc s.cur <;>
    simp only [LockSys.Successor, hp] at hs <;> simp_all [ReaderAt] <;> grind

end Reader

section Law

variable {s s' : KeyboardSys} {e : Unit} {ev : KeyboardEvent} {th : Threads} {buf : ℕ → UInt8}

theorem wp_run (h : Inv s) (hen : KeyboardEvent.Enabled s ev) (hc : s.Calm ev) :
    wp noStop e (KeyboardEvent.run s ev) (fun _ s' => Inv s') s := by
  cases ev with
  | key byte => exact wp_mono (wp_handler h hc) fun _ _ hr => hr.2.1
  | getChar =>
    obtain ⟨hout, hidle⟩ := hen
    have hat := h.reader s.cur
    rw [hout] at hat
    unfold KeyboardEvent.run
    apply wp_bind
    refine wp_lockEvent h hat.1 (fun _ => hidle) (by simp) fun l hinv hm => ?_
    refine wp_modify_bind.mpr (wp_pure.mpr (h.moved hinv hm ?_))
    rintro p d (⟨rfl, rfl⟩ | ⟨rfl, rfl⟩)
    · exact .inl ⟨rfl, by simp [hat.2]⟩
    · exact .inr ⟨by simp, hat.2⟩
  | read =>
    unfold KeyboardEvent.run
    exact wp_call (wp_read h hen.1 hen.2) fun _ _ hi => wp_pure.mpr hi
  | lock =>
    unfold KeyboardEvent.run
    apply wp_bind
    refine wp_lockEvent h hen nofun (by simp) fun l hinv hm => ?_
    exact wp_pure.mpr (h.stays hinv hm fun p d hs => h.resumed hen hs)
  | thread op =>
    obtain ⟨hop, hal, hsp⟩ := hen
    have hreader : ∀ t, s.pc t ≠ .out ∨ 0 < s.depth t → s.reader t ≠ .out := by
      intro t ht hout
      have hat := h.reader t
      rw [hout] at hat
      rcases ht with ht | ht
      · exact ht hat.1
      · exact absurd hat.2 (by omega)
    unfold KeyboardEvent.run
    apply wp_bind
    refine wp_lockEvent h ⟨hop, hal, fun t ht _ => hsp t (hreader t (.inl ht)), fun t ht =>
      LockSys.ThreadOp.keeps_of_spares (hsp t (hreader t (.inr ht)))⟩ nofun (by simp)
      fun l hinv hm => ?_
    refine wp_pure.mpr (h.stays hinv hm ?_)
    rintro p d ⟨rfl, rfl⟩
    exact h.reader s.cur

theorem init_inv (h : Wf th) : Inv (init th buf) where
  lock := LockSys.initLock_inv h
  reader _ := ⟨rfl, rfl⟩

theorem Inv.law (h : Inv s) : Law s where
  returns byte _ hc := by
    apply wp_mono (wp_handler h hc)
    rintro r s' ⟨hr, hi, hcur⟩
    exact ⟨hr, hcur, hcur ▸ hi.lock.wf.current_running⟩
  idle := by
    constructor
    · intro hm
      exact (h.lock.queue.active _ (by simp [(h.lock.queue.blocked _ hm).1])).2 rfl
    · intro hm
      exact (h.lock.queue.active _ (by simp [(h.lock.queue.waiting _ hm).1])).2 rfl
  asserts ev hen hc := wp_mono (wp_run h hen hc) fun _ _ _ => trivial

/-- In every state of a run. -/
theorem interrupt_law (hth : Wf th) (h : Run (Step Calm) (init th buf) s) : Law s := by
  have hinv : Inv s := by
    refine Run.invariant (I := Inv) ?_ h (init_inv hth)
    rintro s s' hi ⟨ev, r, hen, hc, hret⟩
    exact hret.of_wp (wp_run hi hen hc)
  exact hinv.law

/-- The key `a` was pressed `n` times while the main thread ran. -/
def pressed : ℕ → KeyboardSys
  | 0 => init initThreads fun _ => 0
  | n + 1 => (intrKeyBoardHandler 0x1e () 0 (pressed n)).state

theorem pressed_returns {n : ℕ} (hn : n < 10) : (pressed n).pc (pressed n).cur ≠ .retest ∧
    Returns () (intrKeyBoardHandler 0x1e) (pressed n) true (pressed (n + 1)) := by
  have hv : ∀ n < 10, (pressed n).pc (pressed n).cur ≠ .retest ∧
      (intrKeyBoardHandler 0x1e () 0 (pressed n)).value = some true := by decide +kernel
  exact ⟨(hv n hn).1, .of_value (hv n hn).2⟩

theorem pressed_step {cond : KeyboardSys → KeyboardEvent → Prop} {n : ℕ} (hn : n < 10)
    (hc : cond (pressed n) (.key 0x1e)) : Step cond (pressed n) (pressed (n + 1)) :=
  ⟨.key 0x1e, true, (pressed_returns hn).1, hc, (pressed_returns hn).2⟩

theorem interrupt_law_sample : Run (Step Calm) (pressed 0) (pressed 1) ∧ Law (pressed 1) := by
  have hstep : Step Calm (pressed 0) (pressed 1) :=
    pressed_step (by decide) fun _ => ⟨rfl, .inl rfl⟩
  exact ⟨.single hstep, interrupt_law (initThreads_returns.of_wp (wp_threadInit bootThreads_boot))
    (.single hstep)⟩

theorem pressed_run (n : ℕ) (hn : n ≤ 10) : Run (Step fun _ _ => True) (pressed 0) (pressed n) := by
  induction n with
  | zero => exact .refl
  | succ n ih => exact (ih (by omega)).tail (pressed_step hn trivial)

theorem pressed_reader {n : ℕ} (hn : n ≤ 10) : (pressed n).reader = fun _ => .out := by
  induction n with
  | zero => rfl
  | succ n ih => exact (keeps_handler.of_returns (pressed_returns hn).2).trans (ih (by omega))

/-- The queue is full, and the main thread yields to the idle thread. -/
def idleSys : KeyboardSys := (KeyboardEvent.run (pressed 10) (.thread .yield) () 0 (pressed 10)).state

/-- One more key puts the idle thread to sleep on the lock of the queue. -/
theorem interrupt_law_fails : Run (Step fun _ _ => True) (pressed 0) idleSys ∧
    idleSys.cur = idleSys.threads.idleThread ∧
      ∃ s, Step (fun _ _ => True) idleSys s ∧ s.threads.idleThread ∈ s.lock.waitingList ∧
        s.threads.status s.threads.idleThread = TaskStatus.waiting ∧ ¬Law s := by
  have hyield : Step (fun _ _ => True) (pressed 10) idleSys :=
    ⟨.thread .yield, true, ⟨trivial, trivial, fun t ht =>
      absurd (congrFun (pressed_reader le_rfl) t) ht⟩, trivial, .of_value (by decide +kernel)⟩
  refine ⟨(pressed_run 10 le_rfl).tail hyield, by decide +kernel, _,
    ⟨.key 0x1e, false, (by decide +kernel : idleSys.pc idleSys.cur ≠ .retest), trivial,
      .of_value (by decide +kernel)⟩,
    by decide +kernel, by decide +kernel, fun hlaw => ?_⟩
  exact hlaw.idle.2 (by decide +kernel)

end Law

end KeyboardSys

end Gogoos
