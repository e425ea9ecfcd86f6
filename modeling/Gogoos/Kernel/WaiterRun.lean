import Gogoos.Kernel.LockRun
import Gogoos.Logic.Keeps

/-!
# Waiters and parents

Threads that read and write a queue wait on its lock, and processes wait for their children.
Both sleep with the status `TASK_WAITING`, and `sysExit` looks at nothing else before it wakes
the parent. As long as it meets no parent that waits on the lock, only a notify wakes a
waiter.
-/

namespace Gogoos

open Program Threads

variable {s s' : LockSys} {e : Unit} {t : ℕ}

namespace LockSys

section Keeps

/-- The waiting list loses nobody. -/
def WaitersKept (m m' : Monitor) : Prop :=
  ∀ t ∈ m.lock.waitingList, t ∈ m'.lock.waitingList

instance : Std.Refl WaitersKept := ⟨fun _ _ ht => ht⟩

instance : IsTrans Monitor WaitersKept := ⟨fun _ _ _ h h' t ht => h' t (h t ht)⟩

theorem keeps_setLock {g : Lock → Lock} (h : ∀ l t, t ∈ l.waitingList → t ∈ (g l).waitingList) :
    Keeps WaitersKept (Monitor.setLock g) :=
  Keeps.modify fun m t ht => h m.lock t ht

theorem keeps_setLock_bind {α : Type} {g : Lock → Lock} {f : Unit → MonitorM α}
    (h : ∀ l t, t ∈ l.waitingList → t ∈ (g l).waitingList) (hf : ∀ a, Keeps WaitersKept (f a)) :
    Keeps WaitersKept (Monitor.setLock g >>= f) :=
  (keeps_setLock h).bind hf

theorem keeps_onThreads {α : Type} {p : ThreadM α} : Keeps WaitersKept (Monitor.onThreads p) := by
  intro e m
  apply wp_zoom
  intro n
  cases p e n m.threads with
  | returned a k th => exact fun t ht => ht
  | stopped th => trivial

theorem keeps_wakeBlocked (l : List ℕ) : Keeps WaitersKept (Monitor.wakeBlocked l) := by
  induction l with
  | nil => exact keeps_pure ()
  | cons t rest ih =>
    unfold Monitor.wakeBlocked
    refine keeps_setLock_bind (fun _ _ ht => ht) ?_
    intro _
    apply Keeps.get_bind
    intro m
    exact keeps_onThreads.ite ih

theorem keeps_semaUp : Keeps WaitersKept Monitor.semaUp := by
  apply Keeps.get_bind
  intro m
  apply Keeps.assert_bind
  intro _
  apply (keeps_wakeBlocked _).bind
  intro _
  refine keeps_setLock_bind (fun _ _ ht => ht) ?_
  intro _
  apply Keeps.get_bind
  intro m'
  exact keeps_assert

theorem keeps_semaDown : Keeps WaitersKept Monitor.semaDown := by
  apply Keeps.get_bind
  intro m
  apply Keeps.ite
  · apply Keeps.assert_bind
    intro _
    refine keeps_setLock_bind (fun _ _ ht => ht) ?_
    intro _
    exact keeps_onThreads.bind fun _ => keeps_pure false
  · refine keeps_setLock_bind (fun _ _ ht => ht) ?_
    intro _
    apply Keeps.get_bind
    intro m'
    apply Keeps.assert_bind
    intro _
    exact keeps_pure true

theorem keeps_lockAgain : Keeps WaitersKept Monitor.lockAgain := by
  apply Keeps.get_bind
  intro m
  apply Keeps.ite
  · exact keeps_setLock_bind (fun _ _ ht => ht) fun _ => keeps_pure true
  · exact keeps_pure false

theorem keeps_unlockInner : Keeps WaitersKept Monitor.unlockInner := by
  apply Keeps.get_bind
  intro m
  apply Keeps.assert_bind
  intro _
  apply Keeps.ite
  · exact keeps_setLock_bind (fun _ _ ht => ht) fun _ => keeps_pure true
  · apply Keeps.assert_bind
    intro _
    exact keeps_pure false

theorem keeps_lockUnlock : Keeps WaitersKept Monitor.lockUnlock := by
  apply keeps_unlockInner.bind
  intro b
  apply Keeps.ite
  · exact keeps_pure ()
  · refine keeps_setLock_bind (fun _ _ ht => ht) ?_
    intro _
    refine keeps_setLock_bind (fun _ _ ht => ht) ?_
    intro _
    exact keeps_semaUp

theorem keeps_lockWait : Keeps WaitersKept Monitor.lockWait := by
  apply Keeps.get_bind
  intro m
  apply Keeps.assert_bind
  intro _
  apply Keeps.assert_bind
  intro _
  apply Keeps.assert_bind
  intro _
  refine keeps_setLock_bind (fun _ _ ht => List.mem_append_left _ ht) ?_
  intro _
  exact keeps_lockUnlock.bind fun _ => keeps_onThreads

/-- The same of a whole step. -/
def SysWaitersKept (s s' : LockSys) : Prop := WaitersKept s.toMonitor s'.toMonitor

instance : Std.Refl SysWaitersKept := ⟨fun _ _ ht => ht⟩

instance : IsTrans LockSys SysWaitersKept := ⟨fun _ _ _ h h' t ht => h' t (h t ht)⟩

theorem keeps_onMonitor {α : Type} {p : MonitorM α} (h : Keeps WaitersKept p) :
    Keeps SysWaitersKept (onMonitor p) :=
  h.zoom fun _ _ hx => hx

theorem keeps_goto {p : LockPc} {d : ℕ} : Keeps SysWaitersKept (LockSys.goto t p d) :=
  Keeps.modify fun _ _ ht => ht

theorem keeps_then_goto {α : Type} {m : MonitorM α} {p : α → LockPc} {d : α → ℕ}
    (h : Keeps WaitersKept m) :
    Keeps SysWaitersKept (onMonitor m >>= fun a => LockSys.goto t (p a) (d a)) :=
  (keeps_onMonitor h).bind fun _ => keeps_goto

theorem keeps_branch {m : MonitorM Bool} {p p' : LockPc} {d d' : ℕ} (h : Keeps WaitersKept m) :
    Keeps SysWaitersKept (do
      let b ← onMonitor m
      if b then LockSys.goto t p d else LockSys.goto t p' d') :=
  (keeps_onMonitor h).bind fun _ => keeps_goto.ite keeps_goto

/-- Only the two notifies take a thread off the waiting list. -/
theorem keeps_event {ev : LockEvent} (hn : ev ≠ .call .notify) (hall : ev ≠ .call .notifyAll) :
    Keeps SysWaitersKept (LockEvent.run s ev) := by
  cases ev with
  | call c =>
    cases c with
    | lock => exact keeps_branch keeps_lockAgain
    | unlock => exact keeps_branch keeps_unlockInner
    | wait => exact keeps_then_goto keeps_lockWait
    | notify => exact absurd rfl hn
    | notifyAll => exact absurd rfl hall
  | thread op => exact keeps_onMonitor keeps_onThreads
  | proc op => exact keeps_onMonitor keeps_onThreads
  | resume =>
    unfold LockEvent.run
    cases hp : s.pc s.cur with
    | out => exact keeps_pure ()
    | down => exact keeps_branch keeps_semaDown
    | retest => exact keeps_branch keeps_semaDown
    | setHolder =>
      exact keeps_then_goto (Keeps.get_bind fun _ => keeps_setLock fun _ _ ht => ht)
    | setTimes => exact keeps_then_goto (keeps_setLock fun _ _ ht => ht)
    | clearHolder => exact keeps_then_goto (keeps_setLock fun _ _ ht => ht)
    | clearTimes => exact keeps_then_goto (keeps_setLock fun _ _ ht => ht)
    | up => exact keeps_then_goto keeps_semaUp
    | waiting => exact keeps_branch keeps_lockAgain

end Keeps

section Waiters

/-- The calls of `ioQueueGetChar` and `ioQueuePutChar`, which take the lock of the queue once
and are never nested. No key press comes on top of the idle thread. -/
def QueueUse (s : LockSys) (ev : LockEvent) : Prop :=
  (ev = .call .lock → s.depth s.cur = 0) ∧ s.NotIdle ev

/-- No process exits while its parent waits on the lock. -/
def ParentElsewhere (s : LockSys) (ev : LockEvent) : Prop :=
  ∀ st, ev = .proc (.exit st) → ∀ p ∈ s.threads.waitingParent, p ∉ s.lock.waitingList

/-- Steps of threads that use the queue and of processes. -/
def WaiterStep : LockSys → LockSys → Prop :=
  LockStep fun s ev => s.QueueUse ev ∧ s.ParentElsewhere ev

/-- Nobody nests the lock. -/
def OneDeep (s : LockSys) : Prop :=
  ∀ t, s.depth t ≤ 1 ∧ (s.pc t = .waiting → s.depth t = 0)

theorem OneDeep.shallow {ev : LockEvent} (h : OneDeep s) : s.Shallow ev := by
  intro _
  have := (h s.cur).1
  omega

theorem one_deep_step {cond : LockSys → LockEvent → Prop} (hc : ∀ s ev, cond s ev → s.QueueUse ev)
    (h : OneDeep s) (hst : LockStep cond s s') : OneDeep s' := by
  obtain ⟨ev, hen, hcond, hret⟩ := hst
  have hm := hret.of_wp (wp_moves (e := ()))
  intro t
  by_cases htc : t = s.cur
  · subst htc
    have hnext := hm.next
    obtain ⟨hd, hw⟩ := h s.cur
    cases ev with
    | call c =>
      cases c with
      | lock =>
        have h0 := (hc s _ hcond).1 rfl
        obtain ⟨hp', hd'⟩ | ⟨hp', hd'⟩ := hnext <;> simp [hp', hd', h0]
      | unlock =>
        obtain ⟨hp', hd'⟩ | ⟨hp', hd'⟩ := hnext
        · simp [hp', hd']
          omega
        · simp [hp', hd']
      | wait =>
        obtain ⟨hp', hd'⟩ := hnext
        simp [hp', hd']
        omega
      | notify => rw [hnext.1, hnext.2]; exact ⟨hd, hw⟩
      | notifyAll => rw [hnext.1, hnext.2]; exact ⟨hd, hw⟩
    | thread op => rw [hnext.1, hnext.2]; exact ⟨hd, hw⟩
    | proc op => rw [hnext.1, hnext.2]; exact ⟨hd, hw⟩
    | resume =>
      cases hp : s.pc s.cur <;> simp only [Successor, hp] at hnext
      case waiting =>
        have h0 := hw hp
        obtain ⟨hp', hd'⟩ | ⟨hp', hd'⟩ := hnext <;> simp [hp', hd', h0]
      case down => obtain ⟨hp' | hp', hd'⟩ := hnext <;> simp [hp', hd', hd]
      case retest => obtain ⟨hp' | hp', hd'⟩ := hnext <;> simp [hp', hd', hd]
      all_goals simp [hnext.1, hnext.2, hd]
  · obtain ⟨hp', hd'⟩ := hm.other t htc
    rw [hp', hd']
    exact h t

structure WaiterLaw (s : LockSys) : Prop where
  waiting : ∀ t ∈ s.lock.waitingList, s.threads.status t = TaskStatus.waiting
  /-- Nothing but a notify takes a thread off the list. -/
  kept : ∀ ev s', LockEvent.Enabled s ev → ev ≠ .call .notify → ev ≠ .call .notifyAll →
    Returns () (LockEvent.run s ev) s () s' → ∀ t ∈ s.lock.waitingList, t ∈ s'.lock.waitingList
  /-- The checks of `lockWait` and of `threadUnblock` in the notifies, with all the others. -/
  asserts : ∀ ev, LockEvent.Enabled s ev → s.QueueUse ev → (∀ op, ev ≠ .proc op) →
    wp noStop () (LockEvent.run s ev) (fun _ _ => True) s
  /-- The checks of `threadUnblock` in `sysExit`. -/
  parent : ∀ p ∈ s.threads.waitingParent,
    p ∉ s.threads.threadReadyList ∧ Sleeping (s.threads.status p)

theorem waiter_inv_step (h : LockInv s) (hd : OneDeep s) (hst : WaiterStep s s') : LockInv s' := by
  obtain ⟨ev, hen, ⟨huse, hparent⟩, hret⟩ := hst
  cases ev with
  | proc op =>
    refine hret.of_wp (wp_proc h hen.1 hen.2.1 hen.2.2 ?_)
    rintro st rfl
    exact hparent st rfl
  | call c => exact hret.of_wp (wp_event h hen huse.2 hd.shallow (by simp))
  | resume => exact hret.of_wp (wp_event h hen huse.2 hd.shallow (by simp))
  | thread op => exact hret.of_wp (wp_event h hen huse.2 hd.shallow (by simp))

theorem LockInv.waiter (h : LockInv s) (hd : OneDeep s) : WaiterLaw s where
  waiting t ht := (h.queue.waiting t ht).2
  kept ev s' _ hn hall hret := (keeps_event hn hall).of_returns hret
  asserts ev hen huse hproc := wp_mono (wp_event h hen huse.2 hd.shallow hproc) fun _ _ _ => trivial
  parent p hp := by
    obtain ⟨-, -, hst⟩ := waitingParent_mem hp
    exact ⟨h.wf.not_ready (by rw [hst]; decide), by simp [hst, Sleeping]⟩

/-- In every run in which no process exits while its parent waits on the lock, a waiter sleeps
until a notify takes it off the list. -/
theorem waiter_law {th : Threads} (hth : Wf th) (h : Run WaiterStep (initLock th) s) :
    WaiterLaw s := by
  have hinv : LockInv s ∧ OneDeep s := by
    refine Run.invariant (I := fun s => LockInv s ∧ OneDeep s) ?_ h ⟨initLock_inv hth, by
      simp [OneDeep, initLock]⟩
    rintro s s' ⟨hi, hd⟩ hst
    exact ⟨waiter_inv_step hi hd hst, one_deep_step (fun _ _ hc => hc.1) hd hst⟩
  exact LockInv.waiter hinv.1 hinv.2

/-- A process with pid 5 that runs, and the idle thread. -/
def familyThreads : Threads where
  tasks p :=
    if p = 0xc0101000 then
      { freshTask [] 1 5 with
        status := TaskStatus.running, pageDir := 0xc0102000, parentPid := 1 }
    else freshTask [] 0 2
  current := 0xc0101000
  mainThread := 0xc009e000
  idleThread := 0xc0100000
  threadReadyList := [0xc0100000]
  threadAllList := [0xc0100000, 0xc0101000]
  pidBitMap := ⟨128, fun _ => 0⟩
  pages := [0xc0100000, 0xc0101000, 0xc0102000]
  intr := false
  cr3 := 0xc0102000
  ticks := 0

theorem familyThreads_wf : Wf familyThreads := by
  refine .mk' ⟨⟨by decide, by decide, ?_, by decide, by decide, by decide, by decide, by decide⟩,
    by decide⟩ ⟨by decide, by decide, by decide, by decide, by decide⟩ ⟨by decide, by decide⟩
  intro t
  constructor
  · intro ht
    obtain rfl : t = 0xc0100000 := by simpa [familyThreads] using ht
    decide
  · rintro ⟨ht, hs⟩
    have : t = 0xc0100000 ∨ t = 0xc0101000 := by simpa [familyThreads] using ht
    obtain rfl | rfl := this
    · decide
    · exact absurd hs (by decide)

/-- The process has forked and taken the lock. -/
def holderWithChild : LockSys := (initLock familyThreads).after
  [.proc (.fork forkPages), .call .lock, .resume, .resume, .resume]

theorem queueUse {ev : LockEvent} (h : ev ≠ .call .lock) : s.QueueUse ev :=
  ⟨fun hc => absurd hc h, fun hc => absurd hc h⟩

theorem holderWithChild_run {cond : LockSys → LockEvent → Prop}
    (hc : ∀ s ev, s.QueueUse ev → (∀ st, ev ≠ .proc (.exit st)) → cond s ev) :
    Run (LockStep cond) (initLock familyThreads) holderWithChild := by
  apply Plays.run
  refine .event ⟨⟨fun _ => ⟨by decide, by decide⟩, fun _ => ⟨⟨by decide, by decide⟩, by decide⟩⟩, rfl,
    fun _ _ => trivial⟩ (hc _ _ (queueUse nofun) nofun) (by rfl) ?_
  refine .call rfl (.inl rfl) (hc _ _ ⟨fun _ => rfl, fun _ => by decide⟩ nofun) (by rfl) ?_
  refine .resume (by decide) (hc _ _ (queueUse nofun) nofun) (by rfl) ?_
  refine .resume (by decide) (hc _ _ (queueUse nofun) nofun) (by rfl) ?_
  refine .resume (by decide) (hc _ _ (queueUse nofun) nofun) (by rfl) ?_
  trivial

/-- It waits on the lock until the child notifies it. The child exits and is reaped. -/
def reunion : List LockEvent :=
  [.call .wait, .thread (.block TaskStatus.blocked), .call .lock, .resume, .resume, .resume,
    .call .notify, .call .unlock, .resume, .resume, .resume, .proc (.exit 0),
    .resume, .resume, .resume, .resume, .call .unlock, .resume, .resume, .resume, .proc .wait]

theorem reunion_plays : Plays (fun s ev => s.QueueUse ev ∧ s.ParentElsewhere ev) holderWithChild
    reunion := by
  have hcond : ∀ {s : LockSys} {ev : LockEvent}, ev ≠ .call .lock → (∀ st, ev ≠ .proc (.exit st)) →
      s.QueueUse ev ∧ s.ParentElsewhere ev :=
    fun hlock hexit => ⟨queueUse hlock, fun st hc => absurd hc (hexit st)⟩
  refine .call rfl (.inr (by decide)) (hcond nofun nofun) (by rfl) ?_
  refine .idle (by decide) (hcond nofun nofun) (by rfl) ?_
  refine .call rfl (.inl rfl) ⟨⟨fun _ => rfl, fun _ => by decide⟩, nofun⟩ (by rfl) ?_
  refine .resume (by decide) (hcond nofun nofun) (by rfl) ?_
  refine .resume (by decide) (hcond nofun nofun) (by rfl) ?_
  refine .resume (by decide) (hcond nofun nofun) (by rfl) ?_
  refine .call rfl (.inr (by decide)) (hcond nofun nofun) (by rfl) ?_
  refine .call rfl (.inr (by decide)) (hcond nofun nofun) (by rfl) ?_
  refine .resume (by decide) (hcond nofun nofun) (by rfl) ?_
  refine .resume (by decide) (hcond nofun nofun) (by rfl) ?_
  refine .resume (by decide) (hcond nofun nofun) (by rfl) ?_
  -- the parent is awake when its child exits
  refine .event ⟨(by decide : 0xc0103000 ≠ 0xc0100000), rfl, fun _ _ => trivial⟩
    ⟨queueUse nofun, fun _ _ => by decide⟩ (by rfl) ?_
  refine .resume (by decide) (hcond nofun nofun) (by rfl) ?_
  refine .resume (by decide) (hcond nofun nofun) (by rfl) ?_
  refine .resume (by decide) (hcond nofun nofun) (by rfl) ?_
  refine .resume (by decide) (hcond nofun nofun) (by rfl) ?_
  refine .call rfl (.inr (by decide)) (hcond nofun nofun) (by rfl) ?_
  refine .resume (by decide) (hcond nofun nofun) (by rfl) ?_
  refine .resume (by decide) (hcond nofun nofun) (by rfl) ?_
  refine .resume (by decide) (hcond nofun nofun) (by rfl) ?_
  refine .event ⟨(by decide : 0xc0101000 ≠ 0xc0100000), rfl, fun t ht hf => ?_⟩ (hcond nofun nofun)
    (by decide +kernel) trivial
  obtain rfl : 0xc0103000 = t := Option.some.inj (Eq.trans (by decide +kernel) hf)
  exact absurd ht (by decide +kernel)

theorem waiter_law_sample : WaiterLaw (holderWithChild.after reunion) :=
  waiter_law familyThreads_wf
    ((holderWithChild_run fun _ _ h hexit => ⟨h, fun st hc => absurd hc (hexit st)⟩).trans
      reunion_plays.run)

/-- The process waits on the lock, the idle thread blocks, and the child exits. -/
def wokenWaiter : LockSys :=
  holderWithChild.after [.call .wait, .thread (.block TaskStatus.blocked), .proc (.exit 0)]

/-- The waiter runs and is still on the waiting list. -/
theorem waiter_law_fails :
    Run (LockStep QueueUse) (initLock familyThreads) wokenWaiter ∧
      0xc0101000 ∈ wokenWaiter.lock.waitingList ∧
      wokenWaiter.threads.status 0xc0101000 = TaskStatus.running := by
  refine ⟨?_, by decide, by decide⟩
  have hplays : Plays QueueUse holderWithChild
      [.call .wait, .thread (.block TaskStatus.blocked), .proc (.exit 0)] := by
    refine .call rfl (.inr (by decide)) (queueUse nofun) (by rfl) ?_
    refine .idle (by decide) (queueUse nofun) (by rfl) ?_
    exact .event ⟨(by decide : 0xc0103000 ≠ 0xc0100000), rfl, fun _ _ => trivial⟩ (queueUse nofun)
      (by rfl) trivial
  exact (holderWithChild_run fun _ _ h _ => h).trans hplays.run

end Waiters

end LockSys

end Gogoos
