import Gogoos.Kernel.LockSteps

/-!
# Runs of a lock

Threads call `lockLock` and `lockUnlock` in any order and nest them to any depth that the
counter can hold. One thread at a time is between the two, the fields name it, and nobody is
left asleep when the semaphore is free.
-/

namespace Gogoos

open Program Threads

variable {s s' : LockSys} {e : Unit} {t : ℕ}

namespace LockSys

section Moves

/-- The point of the code and the depth at which the running thread may be after an event. -/
def Successor (s : LockSys) (p : LockPc) (d : ℕ) : LockEvent → Prop
  | .call .lock => p = .out ∧ d = s.depth s.cur + 1 ∨ p = .down ∧ d = s.depth s.cur
  | .call .unlock => p = .out ∧ d = s.depth s.cur - 1 ∨ p = .clearHolder ∧ d = 0
  | .call .wait => p = .waiting ∧ d = s.depth s.cur - 1
  | .call .notify | .call .notifyAll | .thread _ | .proc _ => p = s.pc s.cur ∧ d = s.depth s.cur
  | .resume =>
    match s.pc s.cur with
    | .out => p = .out ∧ d = s.depth s.cur
    | .down | .retest => (p = .setHolder ∨ p = .retest) ∧ d = s.depth s.cur
    | .setHolder => p = .setTimes ∧ d = s.depth s.cur
    | .setTimes => p = .out ∧ d = 1
    | .clearHolder => p = .clearTimes ∧ d = s.depth s.cur
    | .clearTimes => p = .up ∧ d = s.depth s.cur
    | .up => p = .out ∧ d = s.depth s.cur
    | .waiting => p = .out ∧ d = s.depth s.cur + 1 ∨ p = .down ∧ d = s.depth s.cur

/-- Only the running thread moves in the code. -/
structure Moves (s : LockSys) (ev : LockEvent) (s' : LockSys) : Prop where
  other : ∀ q, q ≠ s.cur → s'.pc q = s.pc q ∧ s'.depth q = s.depth q
  next : s.Successor (s'.pc s.cur) (s'.depth s.cur) ev

theorem wp_onMonitor_any {α : Type} {p : MonitorM α} {Q : α → LockSys → Prop}
    (h : ∀ a m, Q a { s with toMonitor := m }) : wp anyStop e (onMonitor p) Q s := by
  apply wp_zoom
  intro n
  cases p e n s.toMonitor with
  | returned a k m => exact h a m
  | stopped m => trivial

theorem wp_goto_any {p : LockPc} {d : ℕ} {Q : Unit → LockSys → Prop}
    (h : Q () { s with
      pc := fun q => if q = t then p else s.pc q
      depth := fun q => if q = t then d else s.depth q }) :
    wp anyStop e (LockSys.goto t p d) Q s := wp_modify.mpr h

theorem wp_then_goto {α : Type} {p : MonitorM α} {ev : LockEvent} {q : α → LockPc} {d : α → ℕ}
    (h : ∀ a, s.Successor (q a) (d a) ev) :
    wp anyStop e (onMonitor p >>= fun a => LockSys.goto s.cur (q a) (d a))
      (fun _ s' => Moves s ev s') s := by
  apply wp_bind
  apply wp_onMonitor_any
  intro a m
  apply wp_goto_any
  refine ⟨fun r hr => by simp [hr], ?_⟩
  simpa using h a

theorem wp_branch {p : MonitorM Bool} {ev : LockEvent} {q q' : LockPc} {d d' : ℕ}
    (h : s.Successor q d ev) (h' : s.Successor q' d' ev) :
    wp anyStop e (do
        let b ← onMonitor p
        if b then LockSys.goto s.cur q d else LockSys.goto s.cur q' d')
      (fun _ s' => Moves s ev s') s := by
  apply wp_bind
  apply wp_onMonitor_any
  intro b m
  apply wp_ite
  · intro _
    exact wp_goto_any ⟨fun r hr => by simp [hr], by simpa using h⟩
  · intro _
    exact wp_goto_any ⟨fun r hr => by simp [hr], by simpa using h'⟩

theorem wp_stays {p : MonitorM Unit} {ev : LockEvent}
    (h : s.Successor (s.pc s.cur) (s.depth s.cur) ev) :
    wp anyStop e (onMonitor p) (fun _ s' => Moves s ev s') s :=
  wp_onMonitor_any fun _ _ => ⟨fun _ _ => ⟨rfl, rfl⟩, h⟩

theorem wp_moves {ev : LockEvent} :
    wp anyStop e (LockEvent.run s ev) (fun _ s' => Moves s ev s') s := by
  cases ev with
  | call c =>
    cases c with
    | lock => exact wp_branch (.inl ⟨rfl, rfl⟩) (.inr ⟨rfl, rfl⟩)
    | unlock => exact wp_branch (.inl ⟨rfl, rfl⟩) (.inr ⟨rfl, rfl⟩)
    | wait => exact wp_then_goto fun _ => ⟨rfl, rfl⟩
    | notify => exact wp_stays ⟨rfl, rfl⟩
    | notifyAll => exact wp_stays ⟨rfl, rfl⟩
  | thread op => exact wp_stays ⟨rfl, rfl⟩
  | proc op => exact wp_stays ⟨rfl, rfl⟩
  | resume =>
    unfold LockEvent.run
    cases hp : s.pc s.cur with
    | out => exact wp_pure.mpr ⟨fun _ _ => ⟨rfl, rfl⟩, by simp [Successor, hp]⟩
    | down => exact wp_branch (by simp [Successor, hp]) (by simp [Successor, hp])
    | retest => exact wp_branch (by simp [Successor, hp]) (by simp [Successor, hp])
    | setHolder => exact wp_then_goto fun _ => by simp [Successor, hp]
    | setTimes => exact wp_then_goto fun _ => by simp [Successor, hp]
    | clearHolder => exact wp_then_goto fun _ => by simp [Successor, hp]
    | clearTimes => exact wp_then_goto fun _ => by simp [Successor, hp]
    | up => exact wp_then_goto fun _ => by simp [Successor, hp]
    | waiting => exact wp_branch (by simp [Successor, hp]) (by simp [Successor, hp])

end Moves

section Law

/-- Before anybody has used the lock. -/
def initLock (th : Threads) : LockSys := ⟨⟨th, lockInit⟩, fun _ => .out, fun _ => 0⟩

theorem initLock_inv {th : Threads} (h : Wf th) : LockInv (initLock th) where
  wf := h
  queue := ⟨List.nodup_nil, List.nodup_nil, by simp [initLock, lockInit],
    by simp [initLock, lockInit], by simp [initLock], by simp [initLock]⟩
  owner := ⟨none, by simp [initLock, Inside, LockPc.Busy], rfl, fun _ => ⟨rfl, rfl⟩, by simp,
    by simp [initLock], by simp [initLock]⟩
  held := by simp [initLock]
  stranded := fun _ hne => absurd rfl hne

/-- Threads use the lock without waiting on it, nested as deep as the counter goes. -/
def PlainStep : LockSys → LockSys → Prop :=
  LockStep fun s ev => LockEvent.Plain ev ∧ s.NotIdle ev ∧ s.Shallow ev

structure LockLaw (s : LockSys) : Prop where
  /-- One thread at a time, up to the point where it gives the semaphore back. -/
  exclusive : ∀ t u, Inside s.pc s.depth t → Inside s.pc s.depth u → t = u
  holder : ∀ t, 0 < s.depth t → s.lock.holder = some t ∧ s.lock.holderRepeatTimes = s.depth t
  value : s.lock.value = 0 ∨ s.lock.value = 1
  blocked_once : s.lock.blockedList.Nodup
  blocked : ∀ t ∈ s.lock.blockedList, s.threads.status t = TaskStatus.blocked
  not_stranded : s.lock.value = 1 → s.lock.blockedList ≠ [] →
    ∃ t, s.pc t = .retest ∧ t ∉ s.lock.blockedList ∧ ¬Sleeping (s.threads.status t)
  asserts : ∀ ev, LockEvent.Enabled s ev → LockEvent.Plain ev → s.NotIdle ev → s.Shallow ev →
    wp noStop () (LockEvent.run s ev) (fun _ _ => True) s

theorem LockEvent.Plain.not_proc {ev : LockEvent} (h : LockEvent.Plain ev) (op : ProcOp) :
    ev ≠ .proc op := by
  rintro rfl
  exact h

theorem inv_step {cond : LockSys → LockEvent → Prop} (hidle : ∀ s ev, cond s ev → s.NotIdle ev)
    (hb : ∀ s ev, cond s ev → s.Shallow ev)
    (hproc : ∀ s ev, cond s ev → ∀ op, ev ≠ .proc op) (h : LockInv s) (hst : LockStep cond s s') :
    LockInv s' := by
  obtain ⟨ev, hen, hc, hret⟩ := hst
  exact hret.of_wp (wp_event h hen (hidle s ev hc) (hb s ev hc) (hproc s ev hc))

/-- Without `lockWait` nobody is on the waiting list. -/
def NoWaiter (s : LockSys) : Prop := ∀ t, s.pc t ≠ .waiting

theorem no_waiter_step (h : NoWaiter s) (hst : PlainStep s s') : NoWaiter s' := by
  obtain ⟨ev, hen, ⟨hplain, -⟩, hret⟩ := hst
  have hm := hret.of_wp (wp_moves (e := ()))
  intro t
  by_cases ht : t = s.cur
  · have hnext := ht ▸ hm.next
    have hcur := h s.cur
    cases ev with
    | call c => cases c <;> simp_all [Successor, LockEvent.Plain] <;> grind
    | thread op => rw [hnext.1]; exact h _
    | proc op => exact hplain.elim
    | resume =>
      cases hp : s.pc s.cur <;> simp only [Successor, hp] at hnext <;> grind
  · rw [(hm.other t ht).1]
    exact h t

theorem LockInv.law (h : LockInv s) (hw : NoWaiter s) : LockLaw s := by
  obtain ⟨o, ho⟩ := h.owner
  refine ⟨?_, fun t ht => (ho.holder_of_depth ht).2, ho.value_cases, h.queue.blocked_nodup,
    fun t ht => (h.queue.blocked t ht).2, ?_, ?_⟩
  · intro t u ht hu
    exact Option.some.inj (((ho.inside t).mp ht).symm.trans ((ho.inside u).mp hu))
  · intro hv hne
    obtain ⟨t, hpc, hnot⟩ := h.stranded hv hne
    have hnw : t ∉ s.lock.waitingList := fun hm => hw t (h.queue.waiting t hm).1
    exact ⟨t, hpc, hnot, h.queue.awake t (by simp [hpc]) hnot hnw⟩
  · intro ev hen hplain hidle hb
    exact wp_mono (wp_event h hen hidle hb hplain.not_proc) fun _ _ _ => trivial

/-- Lock safety in every run. -/
theorem lock_law {th : Threads} (hth : Wf th) (h : Run PlainStep (initLock th) s) : LockLaw s := by
  have hinv : LockInv s ∧ NoWaiter s := by
    refine Run.invariant (I := fun s => LockInv s ∧ NoWaiter s) ?_ h ⟨initLock_inv hth, by
      simp [NoWaiter, initLock]⟩
    rintro s s' ⟨hi, hw⟩ hst
    exact ⟨inv_step (fun _ _ hc => hc.2.1) (fun _ _ hc => hc.2.2) (fun _ _ hc => hc.1.not_proc) hi hst,
      no_waiter_step hw hst⟩
  exact LockInv.law hinv.1 hinv.2

section Plays

def after (s : LockSys) (evs : List LockEvent) : LockSys := stateAfter LockEvent.run s evs

/-- Events that can happen one after another, each of them allowed. -/
def Plays (cond : LockSys → LockEvent → Prop) : LockSys → List LockEvent → Prop :=
  Gogoos.Plays LockEvent.run fun s ev => LockEvent.Enabled s ev ∧ cond s ev

variable {cond : LockSys → LockEvent → Prop} {evs : List LockEvent}

theorem Plays.run (h : Plays cond s evs) : Run (LockStep cond) s (s.after evs) :=
  Gogoos.Plays.reaches (fun _ ev _ hmay hret => ⟨ev, hmay.1, hmay.2, hret⟩) h

theorem Plays.event {ev : LockEvent} (hen : LockEvent.Enabled s ev) (hc : cond s ev)
    (hret : (LockEvent.run s ev () 0 s).value = some ()) (h : Plays cond (s.after [ev]) evs) :
    Plays cond s (ev :: evs) := ⟨⟨hen, hc⟩, hret, h⟩

theorem Plays.call {c : LockCall} (hout : s.pc s.cur = .out) (hd : c = .lock ∨ 0 < s.depth s.cur)
    (hc : cond s (.call c)) (hret : (LockEvent.run s (.call c) () 0 s).value = some ())
    (h : Plays cond (s.after [.call c]) evs) : Plays cond s (.call c :: evs) := by
  refine .event ?_ hc hret h
  obtain rfl | hd := hd
  · exact hout
  · cases c <;> first | exact hout | exact ⟨hout, hd⟩

theorem Plays.resume (hpc : s.pc s.cur ≠ .out) (hc : cond s .resume)
    (hret : (LockEvent.run s .resume () 0 s).value = some ())
    (h : Plays cond (s.after [.resume]) evs) : Plays cond s (.resume :: evs) :=
  .event hpc hc hret h

theorem Plays.yield (hc : cond s (.thread .yield))
    (hret : (LockEvent.run s (.thread .yield) () 0 s).value = some ())
    (h : Plays cond (s.after [.thread .yield]) evs) : Plays cond s (.thread .yield :: evs) :=
  .event ⟨trivial, trivial, fun _ _ hne => ⟨hne, trivial⟩, fun _ _ => trivial⟩ hc hret h

/-- The idle thread goes to sleep. -/
theorem Plays.idle (hidle : s.cur = s.threads.idleThread)
    (hc : cond s (.thread (.block TaskStatus.blocked)))
    (hret : (LockEvent.run s (.thread (.block TaskStatus.blocked)) () 0 s).value = some ())
    (h : Plays cond (s.after [.thread (.block TaskStatus.blocked)]) evs) :
    Plays cond s (.thread (.block TaskStatus.blocked) :: evs) :=
  .event ⟨.inl rfl, trivial, fun _ _ hne => ⟨hne, fun hc => hne (hc.trans hidle)⟩, fun _ _ => trivial⟩
    hc hret h

theorem shallow_of_depth {ev : LockEvent} (h : s.depth s.cur + 1 < 2 ^ 32) : s.Shallow ev := fun _ => h

end Plays

/-- The main thread has the lock, and another one sleeps until it gives it back. -/
def contending : List LockEvent :=
  [.thread (.start 0xc0101000 [116, 49] 1), .call .lock, .resume, .resume, .resume,
    .thread .yield, .thread (.block TaskStatus.blocked), .call .lock, .resume, .call .unlock,
    .resume, .resume, .resume, .thread .yield, .resume, .resume, .resume]

theorem contending_plays : Plays (fun s ev => LockEvent.Plain ev ∧ s.NotIdle ev ∧ s.Shallow ev)
    (initLock initThreads) contending := by
  have hstep : ∀ (s : LockSys) (ev : LockEvent), ev ≠ .call .lock → LockEvent.Plain ev →
      s.depth s.cur + 1 < 2 ^ 32 → LockEvent.Plain ev ∧ s.NotIdle ev ∧ s.Shallow ev :=
    fun s ev hne hp hd => ⟨hp, fun h => absurd h hne, shallow_of_depth hd⟩
  refine .event ⟨⟨by decide, by decide⟩, show 0xc0101000 ≠ 0 by decide, fun t ht => absurd rfl ht,
    fun t ht => trivial⟩ (hstep _ _ nofun trivial (by decide)) rfl ?_
  refine .call rfl (.inl rfl) ⟨trivial, fun _ => by decide, shallow_of_depth (by decide)⟩ rfl ?_
  refine .resume (by decide) (hstep _ _ nofun trivial (by decide)) rfl ?_
  refine .resume (by decide) (hstep _ _ nofun trivial (by decide)) rfl ?_
  refine .resume (by decide) (hstep _ _ nofun trivial (by decide)) rfl ?_
  refine .yield (hstep _ _ nofun trivial (by decide)) rfl ?_
  refine .idle (by decide) (hstep _ _ nofun trivial (by decide)) rfl ?_
  -- the lock is taken
  refine .call rfl (.inl rfl) ⟨trivial, fun _ => by decide, shallow_of_depth (by decide)⟩ rfl ?_
  refine .resume (by decide) (hstep _ _ nofun trivial (by decide)) rfl ?_
  refine .call rfl (.inr (by decide)) (hstep _ _ nofun trivial (by decide)) rfl ?_
  refine .resume (by decide) (hstep _ _ nofun trivial (by decide)) rfl ?_
  refine .resume (by decide) (hstep _ _ nofun trivial (by decide)) rfl ?_
  refine .resume (by decide) (hstep _ _ nofun trivial (by decide)) rfl ?_
  refine .yield (hstep _ _ nofun trivial (by decide)) rfl ?_
  refine .resume (by decide) (hstep _ _ nofun trivial (by decide)) rfl ?_
  refine .resume (by decide) (hstep _ _ nofun trivial (by decide)) rfl ?_
  refine .resume (by decide) (hstep _ _ nofun trivial (by decide)) rfl ?_
  trivial

theorem lock_law_sample : LockLaw ((initLock initThreads).after contending) ∧
    ((initLock initThreads).after contending).lock.holder = some 0xc0101000 :=
  ⟨lock_law (initThreads_returns.of_wp (wp_threadInit bootThreads_boot)) contending_plays.run, rfl⟩

/-- A thread that has the lock takes it once more. -/
theorem lock_again (hpc : s.pc s.cur = .out) (hidle : s.cur ≠ s.threads.idleThread)
    (hh : s.lock.holder = some s.cur) :
    LockStep (fun s ev => LockEvent.Plain ev ∧ s.NotIdle ev) s
      { s with
        lock := { s.lock with
          holderRepeatTimes := (s.lock.holderRepeatTimes + 1) % 2 ^ 32 }
        pc := fun q => if q = s.cur then .out else s.pc q
        depth := fun q => if q = s.cur then s.depth s.cur + 1 else s.depth q } := by
  refine ⟨.call .lock, hpc, ⟨trivial, fun _ => hidle⟩, ?_⟩
  have hwp : wp noStop () (LockEvent.run s (.call .lock)) (fun _ s' => s' = { s with
      lock := { s.lock with
        holderRepeatTimes := (s.lock.holderRepeatTimes + 1) % 2 ^ 32 }
      pc := fun q => if q = s.cur then .out else s.pc q
      depth := fun q => if q = s.cur then s.depth s.cur + 1 else s.depth q }) s := by
    apply wp_bind
    apply wp_onMonitor
    apply Monitor.wp_lockAgain
    · intro _
      exact wp_goto rfl
    · intro hne
      exact absurd hh hne
  obtain ⟨⟨⟩, s', hret, rfl⟩ := wp_noStop_returns hwp
  exact hret

theorem lock_nested (hpc : s.pc s.cur = .out) (hidle : s.cur ≠ s.threads.idleThread)
    (hh : s.lock.holder = some s.cur) (ht : s.lock.holderRepeatTimes < 2 ^ 32) (n : ℕ) :
    ∃ s', Run (LockStep fun s ev => LockEvent.Plain ev ∧ s.NotIdle ev) s s' ∧ s'.threads = s.threads ∧
      s'.pc s.cur = .out ∧ s'.lock.holder = some s.cur ∧ s'.depth s.cur = s.depth s.cur + n ∧
      s'.lock.holderRepeatTimes = (s.lock.holderRepeatTimes + n) % 2 ^ 32 := by
  induction n with
  | zero => exact ⟨s, .refl, rfl, hpc, hh, rfl, (Nat.mod_eq_of_lt ht).symm⟩
  | succ n ih =>
    obtain ⟨r, hrun, hth, hrpc, hrh, hrd, hrt⟩ := ih
    have hcur : r.cur = s.cur := by rw [cur, hth]
    have hstep := lock_again (s := r) (hcur ▸ hrpc) (by rw [hcur, hth]; exact hidle) (hcur ▸ hrh)
    refine ⟨_, hrun.tail hstep, hth, by simp [hcur], hrh, ?_, ?_⟩
    · simp only [hcur, if_true, hrd]
      omega
    · change (r.lock.holderRepeatTimes + 1) % 2 ^ 32 = _
      rw [hrt]
      omega

/-- The main thread has taken the lock once. -/
def lockedSys : LockSys := (initLock initThreads).after [.call .lock, .resume, .resume, .resume]

theorem lockedSys_run : Run PlainStep (initLock initThreads) lockedSys := by
  apply Plays.run
  refine .call rfl (.inl rfl) ⟨trivial, fun _ => by decide, shallow_of_depth (by decide)⟩ rfl ?_
  refine .resume (by decide) ⟨trivial, nofun, shallow_of_depth (by decide)⟩ rfl ?_
  refine .resume (by decide) ⟨trivial, nofun, shallow_of_depth (by decide)⟩ rfl ?_
  refine .resume (by decide) ⟨trivial, nofun, shallow_of_depth (by decide)⟩ rfl ?_
  trivial

/-- The idle thread wants the lock, and then the main thread sleeps elsewhere. -/
def idleSys : LockSys :=
  lockedSys.after [.thread .yield, .call .lock, .resume, .thread (.block TaskStatus.waiting)]

theorem idleSys_run : Run (LockStep fun s ev => LockEvent.Plain ev ∧ s.Shallow ev) lockedSys idleSys := by
  apply Plays.run
  refine .yield ⟨trivial, shallow_of_depth (by decide)⟩ rfl ?_
  refine .call rfl (.inl rfl) ⟨trivial, shallow_of_depth (by decide)⟩ rfl ?_
  refine .resume (by decide) ⟨trivial, shallow_of_depth (by decide)⟩ rfl ?_
  refine .event ⟨.inr (.inr rfl), trivial, fun t ht hne => ⟨hne, ?_⟩, fun _ _ => trivial⟩
    ⟨trivial, shallow_of_depth (by decide)⟩ rfl trivial
  rintro rfl
  exact ht rfl

/-- A run whose steps meet a stronger condition. -/
theorem Run.weaken {c d : LockSys → LockEvent → Prop} (hc : ∀ s ev, c s ev → d s ev)
    (h : Run (LockStep c) s s') : Run (LockStep d) s s' := by
  induction h with
  | refl => exact .refl
  | tail _ hst ih =>
    obtain ⟨ev, hen, hcond, hret⟩ := hst
    exact ih.tail ⟨ev, hen, hc _ _ hcond, hret⟩

/-- After 2^32 calls of `lockLock` in a row the counter is 0 again; and `schedule` wakes the idle
thread while it is on the list. -/
theorem lock_law_fails :
    (∃ s t, Run (LockStep fun s ev => LockEvent.Plain ev ∧ s.NotIdle ev) (initLock initThreads) s ∧
      s.depth t = 2 ^ 32 ∧ s.lock.holder = some t ∧ s.lock.holderRepeatTimes ≠ s.depth t) ∧
    ∃ s t, Run (LockStep fun s ev => LockEvent.Plain ev ∧ s.Shallow ev) (initLock initThreads) s ∧
      t ∈ s.lock.blockedList ∧ s.threads.status t = TaskStatus.running := by
  constructor
  · obtain ⟨s, hrun, -, -, hh, hd, ht⟩ := lock_nested (s := lockedSys) rfl (by decide) rfl (by decide)
      (2 ^ 32 - 1)
    have hd₁ : lockedSys.depth lockedSys.cur = 1 := rfl
    have ht₁ : lockedSys.lock.holderRepeatTimes = 1 := rfl
    rw [hd₁] at hd
    rw [ht₁] at ht
    refine ⟨s, lockedSys.cur, (Run.weaken (fun _ _ hc => ⟨hc.1, hc.2.1⟩) lockedSys_run).trans hrun,
      by omega, hh, ?_⟩
    rw [ht, hd]
    omega
  · refine ⟨idleSys, idleSys.threads.idleThread, ?_, by decide, by decide⟩
    exact (Run.weaken (fun _ _ hc => ⟨hc.1, hc.2.2⟩) lockedSys_run).trans idleSys_run

end Law

end LockSys

end Gogoos
