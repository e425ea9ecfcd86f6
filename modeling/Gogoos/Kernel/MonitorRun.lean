import Gogoos.Kernel.LockRun

/-!
# Waiting on a lock

`lockWait` calls `lockUnlock` once, so a thread that has nested its calls keeps the lock while
it sleeps. When every `lockWait` is called at depth 1 the lock is a monitor: a sleeper does not
have it, gets it back at depth 1, and is woken by the next notify that reaches it.
-/

namespace Gogoos

open Program Threads

variable {s s' : LockSys} {e : Unit} {t : ℕ}

namespace LockSys

section Monitor

/-- All calls on the lock, with `lockWait` at depth 1 only, by other threads than the idle one. -/
def MonitorCond (s : LockSys) (ev : LockEvent) : Prop :=
  (∀ op, ev ≠ .proc op) ∧ s.NotIdle ev ∧ s.Shallow ev ∧ (ev = .call .wait → s.depth s.cur = 1)

def MonitorStep : LockSys → LockSys → Prop := LockStep MonitorCond

/-- A thread in `lockWait` has given the lock up. -/
def WaitsOutside (s : LockSys) : Prop := ∀ t, s.pc t = .waiting → s.depth t = 0

theorem waits_outside_step (h : WaitsOutside s) (hst : MonitorStep s s') : WaitsOutside s' := by
  obtain ⟨ev, hen, ⟨-, -, -, hwait⟩, hret⟩ := hst
  have hm := hret.of_wp (wp_moves (e := ()))
  intro t ht
  by_cases htc : t = s.cur
  · subst htc
    have hnext := hm.next
    have hcur := h s.cur
    cases ev with
    | call c =>
      cases c with
      | lock => simp [Successor, ht] at hnext
      | unlock => simp [Successor, ht] at hnext
      | wait =>
        rw [hnext.2, hwait rfl]
      | notify => rw [hnext.2]; exact hcur (hnext.1 ▸ ht)
      | notifyAll => rw [hnext.2]; exact hcur (hnext.1 ▸ ht)
    | thread op => rw [hnext.2]; exact hcur (hnext.1 ▸ ht)
    | proc op => rw [hnext.2]; exact hcur (hnext.1 ▸ ht)
    | resume =>
      cases hp : s.pc s.cur <;> simp [Successor, hp, ht] at hnext
  · obtain ⟨hpc, hd⟩ := hm.other t htc
    rw [hd]
    exact h t (hpc ▸ ht)

structure MonitorLaw (s : LockSys) : Prop where
  /-- Who sleeps in `lockWait`, or was woken and has not asked for the lock yet, does not have
  it: the semaphore is free or another thread has it. -/
  released : ∀ t, s.pc t = .waiting → s.lock.holder ≠ some t ∧
    (s.lock.value = 1 ∨ ∃ u, u ≠ t ∧ Inside s.pc s.depth u)
  /-- Who is in `lockWait` is queued and asleep, or was taken off the list and is awake. -/
  queued : ∀ t, s.pc t = .waiting →
    t ∈ s.lock.waitingList ∧ s.threads.status t = TaskStatus.waiting ∨
      t ∉ s.lock.waitingList ∧ ¬Sleeping (s.threads.status t)
  /-- After the call the thread is queued: queueing and falling asleep are one step. -/
  wait : ∀ s', LockEvent.Enabled s (.call .wait) →
    Returns () (LockEvent.run s (.call .wait)) s () s' →
    s'.pc s.cur = .waiting ∧ s.cur ∈ s'.lock.waitingList
  /-- A notify wakes the first of the queue, `lockNotifyAll` wakes all of it. -/
  notify : ∀ s', LockEvent.Enabled s (.call .notify) →
    Returns () (LockEvent.run s (.call .notify)) s () s' →
    s'.lock.waitingList = s.lock.waitingList.tail ∧
      ∀ t ∈ s.lock.waitingList.head?, s'.threads.status t = TaskStatus.ready
  notifyAll : ∀ s', LockEvent.Enabled s (.call .notifyAll) →
    Returns () (LockEvent.run s (.call .notifyAll)) s () s' →
    s'.lock.waitingList = [] ∧
      ∀ t ∈ s.lock.waitingList, s'.threads.status t = TaskStatus.ready
  asserts : ∀ ev, LockEvent.Enabled s ev → MonitorCond s ev →
    wp noStop () (LockEvent.run s ev) (fun _ _ => True) s

theorem LockInv.monitor (h : LockInv s) (hw : WaitsOutside s) : MonitorLaw s := by
  obtain ⟨o, ho⟩ := h.owner
  refine ⟨?_, ?_, ?_, ?_, ?_, ?_⟩
  · intro t ht
    have hout : ¬Inside s.pc s.depth t := by simp [Inside, hw t ht, ht, LockPc.Busy]
    refine ⟨ho.not_holder hout, ?_⟩
    cases o with
    | none => exact .inl ho.value
    | some u =>
      refine .inr ⟨u, ?_, (ho.inside u).mpr rfl⟩
      rintro rfl
      exact hout ((ho.inside u).mpr rfl)
  · intro t ht
    by_cases hm : t ∈ s.lock.waitingList
    · exact .inl ⟨hm, (h.queue.waiting t hm).2⟩
    · have hb : t ∉ s.lock.blockedList := fun hb => by simp [(h.queue.blocked t hb).1] at ht
      exact .inr ⟨hm, h.queue.awake t (by simp [ht]) hb hm⟩
  · intro s' hen hret
    have hm : Moves s (.call .wait) s' := hret.of_wp wp_moves
    exact ⟨hm.next.1, (hret.of_wp (wp_wait h hen.2)).2⟩
  · intro s' hen hret
    obtain ⟨-, -, hlock, hready⟩ := hret.of_wp (wp_lockNotify h hen.2)
    exact ⟨by rw [hlock], hready⟩
  · intro s' hen hret
    obtain ⟨-, -, hlock, hready⟩ := hret.of_wp (wp_lockNotifyAll h hen.2)
    exact ⟨by rw [hlock], hready⟩
  · intro ev hen hc
    exact wp_mono (wp_event h hen hc.2.1 hc.2.2.1 hc.1) fun _ _ _ => trivial

end Monitor

section Return

/-- A run during which the thread `t` stays in the code of the lock, but for its last state. -/
def RunInside (t : ℕ) : LockSys → LockSys → Prop :=
  Run fun a b => MonitorStep a b ∧ a.pc t ≠ .out

/-- On the way back from `lockWait`. -/
def Returning (t : ℕ) (s : LockSys) : Prop :=
  (s.pc t = .waiting ∨ s.pc t = .down ∨ s.pc t = .retest ∨ s.pc t = .setHolder ∨
    s.pc t = .setTimes) ∧ s.depth t = 0 ∨ s.pc t = .out ∧ s.depth t = 1

theorem returning_step (h : Returning t s) (hst : MonitorStep s s') (hpc : s.pc t ≠ .out) :
    Returning t s' := by
  obtain ⟨ev, hen, -, hret⟩ := hst
  have hm := hret.of_wp (wp_moves (e := ()))
  obtain ⟨hp, hd⟩ := h.resolve_right fun hc => hpc hc.1
  by_cases htc : t = s.cur
  · subst htc
    have hnext := hm.next
    cases ev with
    | call c =>
      have hout : s.pc s.cur = .out := by
        cases c with
        | lock => exact hen
        | _ => exact hen.1
      exact absurd hout hpc
    | thread op => exact .inl ⟨hnext.1 ▸ hp, hnext.2.trans hd⟩
    | proc op => exact .inl ⟨hnext.1 ▸ hp, hnext.2.trans hd⟩
    | resume =>
      unfold Returning
      obtain hp | hp | hp | hp | hp := hp <;> simp only [Successor, hp] at hnext
      · obtain ⟨hp', hd'⟩ | ⟨hp', hd'⟩ := hnext <;> simp [hp', hd', hd]
      · obtain ⟨hp' | hp', hd'⟩ := hnext <;> simp [hp', hd', hd]
      · obtain ⟨hp' | hp', hd'⟩ := hnext <;> simp [hp', hd', hd]
      · simp [hnext.1, hnext.2, hd]
      · simp [hnext.1, hnext.2]
  · obtain ⟨hpc', hd'⟩ := hm.other t htc
    exact .inl ⟨hpc'.symm ▸ hp, hd'.trans hd⟩

theorem returning_run (hpc : s.pc t = .waiting) (hd : s.depth t = 0) (h : RunInside t s s') :
    Returning t s' := by
  induction h with
  | refl => exact .inl ⟨.inl hpc, hd⟩
  | tail _ hst ih => exact returning_step ih hst.1 hst.2

theorem RunInside.run (h : RunInside t s s') : Run MonitorStep s s' := by
  induction h with
  | refl => exact .refl
  | tail _ hst ih => exact ih.tail hst.1

end Return

section Law

theorem monitor_inv {th : Threads} (hth : Wf th) (h : Run MonitorStep (initLock th) s) :
    LockInv s ∧ WaitsOutside s := by
  refine Run.invariant (I := fun s => LockInv s ∧ WaitsOutside s) ?_ h ⟨initLock_inv hth, by
    simp [WaitsOutside, initLock]⟩
  rintro s s' ⟨hi, hw⟩ hst
  exact ⟨inv_step (fun _ _ hc => hc.2.1) (fun _ _ hc => hc.2.2.1) (fun _ _ hc => hc.1) hi hst, waits_outside_step hw hst⟩

/-- In every run whose calls of `lockWait` are at depth 1, the lock is a monitor; and a thread
that comes back from `lockWait` has the lock at the depth it had before. -/
theorem monitor_law {th : Threads} (hth : Wf th) (h : Run MonitorStep (initLock th) s) :
    MonitorLaw s ∧ ∀ s' t, s.pc t = .waiting → RunInside t s s' → s'.pc t = .out →
      s'.lock.holder = some t ∧ s'.depth t = 1 ∧ s'.lock.holderRepeatTimes = 1 := by
  obtain ⟨hi, hw⟩ := monitor_inv hth h
  refine ⟨LockInv.monitor hi hw, fun s' t hpc hrun hout => ?_⟩
  have hd := ((returning_run hpc (hw t hpc) hrun).resolve_left fun hc => by simp [hout] at hc).2
  obtain ⟨hi', -⟩ := monitor_inv hth (h.trans hrun.run)
  obtain ⟨o, ho⟩ := hi'.owner
  obtain ⟨-, hholder, htimes⟩ := ho.holder_of_depth (t := t) (by omega)
  exact ⟨hholder, hd, htimes.trans hd⟩

/-- Another thread is there, and the main thread takes the lock and waits on it. -/
def waitingSys : LockSys := (initLock initThreads).after
  [.thread (.start 0xc0101000 [116, 49] 1), .call .lock, .resume, .resume, .resume, .call .wait]

/-- The other thread notifies it, and it comes back from `lockWait`. -/
def notified : List LockEvent :=
  [.thread (.block TaskStatus.blocked), .call .lock, .resume, .resume, .resume, .call .notify,
    .call .unlock, .resume, .resume, .resume, .thread .yield, .resume, .resume, .resume, .resume]

theorem monitorCond {ev : LockEvent} (hproc : ∀ op, ev ≠ .proc op) (hlock : ev ≠ .call .lock)
    (hwait : ev ≠ .call .wait) (hd : s.depth s.cur + 1 < 2 ^ 32) : MonitorCond s ev :=
  ⟨hproc, fun h => absurd h hlock, shallow_of_depth hd, fun h => absurd h hwait⟩

theorem monitorCond_lock (hidle : s.cur ≠ s.threads.idleThread) (hd : s.depth s.cur + 1 < 2 ^ 32) :
    MonitorCond s (.call .lock) :=
  ⟨nofun, fun _ => hidle, shallow_of_depth hd, nofun⟩

theorem waitingSys_run : Run MonitorStep (initLock initThreads) waitingSys := by
  apply Plays.run
  refine .event ⟨⟨by decide, by decide⟩, show 0xc0101000 ≠ 0 by decide, fun t ht => absurd rfl ht,
    fun t ht => trivial⟩ (monitorCond nofun nofun nofun (by decide)) rfl ?_
  refine .call rfl (.inl rfl) (monitorCond_lock (by decide) (by decide)) rfl ?_
  refine .resume (by decide) (monitorCond nofun nofun nofun (by decide)) rfl ?_
  refine .resume (by decide) (monitorCond nofun nofun nofun (by decide)) rfl ?_
  refine .resume (by decide) (monitorCond nofun nofun nofun (by decide)) rfl ?_
  refine .call rfl (.inr (by decide)) ⟨nofun, nofun, shallow_of_depth (by decide), fun _ => rfl⟩ rfl ?_
  trivial

theorem notified_plays : Plays (fun s ev => MonitorCond s ev ∧ s.pc 0xc009e000 ≠ .out) waitingSys
    notified := by
  refine .idle (by decide) ⟨monitorCond nofun nofun nofun (by decide), by decide⟩ rfl ?_
  refine .call rfl (.inl rfl) ⟨monitorCond_lock (by decide) (by decide), by decide⟩ rfl ?_
  refine .resume (by decide) ⟨monitorCond nofun nofun nofun (by decide), by decide⟩ rfl ?_
  refine .resume (by decide) ⟨monitorCond nofun nofun nofun (by decide), by decide⟩ rfl ?_
  refine .resume (by decide) ⟨monitorCond nofun nofun nofun (by decide), by decide⟩ rfl ?_
  refine .call rfl (.inr (by decide)) ⟨monitorCond nofun nofun nofun (by decide), by decide⟩ rfl ?_
  refine .call rfl (.inr (by decide)) ⟨monitorCond nofun nofun nofun (by decide), by decide⟩ rfl ?_
  refine .resume (by decide) ⟨monitorCond nofun nofun nofun (by decide), by decide⟩ rfl ?_
  refine .resume (by decide) ⟨monitorCond nofun nofun nofun (by decide), by decide⟩ rfl ?_
  refine .resume (by decide) ⟨monitorCond nofun nofun nofun (by decide), by decide⟩ rfl ?_
  refine .yield ⟨monitorCond nofun nofun nofun (by decide), by decide⟩ rfl ?_
  refine .resume (by decide) ⟨monitorCond nofun nofun nofun (by decide), by decide⟩ rfl ?_
  refine .resume (by decide) ⟨monitorCond nofun nofun nofun (by decide), by decide⟩ rfl ?_
  refine .resume (by decide) ⟨monitorCond nofun nofun nofun (by decide), by decide⟩ rfl ?_
  refine .resume (by decide) ⟨monitorCond nofun nofun nofun (by decide), by decide⟩ rfl ?_
  trivial

theorem notified_run : RunInside 0xc009e000 waitingSys (waitingSys.after notified) :=
  Relation.ReflTransGen.mono (fun _ _ ⟨ev, hen, ⟨hc, hpc⟩, hret⟩ => ⟨⟨ev, hen, hc, hret⟩, hpc⟩) _ _
    notified_plays.run

theorem monitor_law_sample : MonitorLaw waitingSys ∧
    (waitingSys.after notified).lock.holder = some 0xc009e000 ∧
    (waitingSys.after notified).depth 0xc009e000 = 1 ∧
    (waitingSys.after notified).lock.holderRepeatTimes = 1 := by
  have hlaw := monitor_law (initThreads_returns.of_wp (wp_threadInit bootThreads_boot)) waitingSys_run
  exact ⟨hlaw.1, hlaw.2 _ _ rfl notified_run rfl⟩

/-- The main thread has taken the lock twice and waits. -/
def sleepingHolder : LockSys := lockedSys.after [.call .lock, .call .wait]

/-- All calls on the lock. -/
def AnyCall (s : LockSys) (ev : LockEvent) : Prop :=
  (∀ op, ev ≠ .proc op) ∧ s.NotIdle ev ∧ s.Shallow ev

/-- At depth 2 the thread sleeps in `lockWait` and has the lock. -/
theorem monitor_law_fails : Run (LockStep AnyCall) (initLock initThreads) sleepingHolder ∧
    sleepingHolder.pc initThreads.current = .waiting ∧
    sleepingHolder.threads.status initThreads.current = TaskStatus.waiting ∧
    sleepingHolder.lock.holder = some initThreads.current ∧ sleepingHolder.lock.value = 0 := by
  refine ⟨?_, rfl, rfl, rfl, rfl⟩
  have hlocked := Run.weaken (d := AnyCall) (fun _ _ hc => ⟨hc.1.not_proc, hc.2⟩) lockedSys_run
  have hwaits : Plays AnyCall lockedSys [.call .lock, .call .wait] := by
    refine .call rfl (.inl rfl) ⟨nofun, fun _ => by decide, shallow_of_depth (by decide)⟩ rfl ?_
    refine .call rfl (.inr (by decide)) ⟨nofun, nofun, shallow_of_depth (by decide)⟩ rfl ?_
    trivial
  exact hlocked.trans hwaits.run

end Law

end LockSys

end Gogoos
