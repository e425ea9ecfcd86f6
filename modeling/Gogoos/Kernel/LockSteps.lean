import Gogoos.Kernel.LockInv

/-!
# The steps of a lock

One specification for each part of the code that runs with interrupts off, and from it that
every step keeps the invariant of the lock.
-/

namespace Gogoos

open Program Threads

variable {stop : Monitor → Prop} {e : Unit} {m : Monitor} {Q : Unit → Monitor → Prop} {t : ℕ}

namespace Monitor

section Specs

/-- A last assertion that holds. -/
theorem wp_assert {p : Prop} [Decidable p] (hp : p) : wp noStop e (assert p) Q m ↔ Q () m := by
  simp [assert, hp]

theorem wp_onThreads {α : Type} {p : ThreadM α} {Q : α → Monitor → Prop}
    (h : wp noStop e p (fun a th => Q a ⟨th, m.lock⟩) m.threads) :
    wp noStop e (onThreads p) Q m :=
  wp_zoom h

/-- The running thread goes to sleep. -/
theorem wp_block {th : Threads} {st : ℤ} {Q : Unit → Threads → Prop} (h : Wf th)
    (hst : Sleeping st)
    (hQ : ∀ th', Wf th' → Switched ((th.setIntr false).setStatus th.current st) th' → Q () th') :
    wp noStop e (threadBlock st) Q th := by
  apply wp_mono (wp_threadBlock h.toScheduled hst)
  rintro ⟨⟩ th' ⟨hs, hw, -⟩
  exact hQ th' (.mk' hs (h.toPaged.setStatus.switched hw) (h.toNamed.setStatus.switched hw)) hw

theorem wp_semaDown {Q : Bool → Monitor → Prop} (h : Wf m.threads)
    (hnot : m.threads.current ∉ m.lock.blockedList)
    (hvalue : m.lock.value = 0 ∨ m.lock.value = 1)
    (hsleep : m.lock.value = 0 → ∀ th', Wf th' →
      Switched ((m.threads.setIntr false).setStatus m.threads.current TaskStatus.blocked) th' →
      Q false ⟨th', { m.lock with blockedList := m.lock.blockedList ++ [m.threads.current] }⟩)
    (htake : m.lock.value = 1 → Q true ⟨m.threads, { m.lock with value := 0 }⟩) :
    wp noStop e semaDown Q m := by
  unfold semaDown setLock
  rw [wp_get_bind]
  apply wp_ite
  · intro h0
    rw [wp_assert_pos hnot, wp_modify_bind]
    apply wp_bind
    apply wp_onThreads
    apply wp_block h (by decide)
    intro th' hth' hw
    exact wp_pure.mpr (hsleep h0 th' hth' hw)
  · intro h0
    have h1 := hvalue.resolve_left h0
    have hzero : (m.lock.value + 255) % 256 = 0 := by simp [h1]
    rw [wp_modify_bind, wp_get_bind]
    refine (wp_assert_pos hzero).mpr ?_
    rw [wp_pure]
    simp only [hzero]
    exact htake h1

/-- The threads on the list are all asleep, so the loop of `semaUp` ends with the first. -/
theorem wp_semaUp (h : Wf m.threads) (hvalue : m.lock.value = 0)
    (hlist : ∀ t ∈ m.lock.blockedList, t ∈ m.threads.threadAllList ∧
      m.threads.status t = TaskStatus.blocked)
    (hnil : m.lock.blockedList = [] → Q () ⟨m.threads, { m.lock with value := 1 }⟩)
    (hcons : ∀ t rest, m.lock.blockedList = t :: rest →
      Q () ⟨m.threads.unblocked t, { m.lock with blockedList := rest, value := 1 }⟩) :
    wp noStop e semaUp Q m := by
  unfold semaUp setLock
  rw [wp_get_bind, wp_assert_pos hvalue]
  cases hl : m.lock.blockedList with
  | nil =>
    unfold wakeBlocked
    have hone : (m.lock.value + 1) % 256 = 1 := by simp [hvalue]
    rw [wp_pure_bind, wp_modify_bind, wp_get_bind]
    refine (wp_assert hone).mpr ?_
    simp only [hone]
    exact hnil hl
  | cons t rest =>
    obtain ⟨hmem, hst⟩ := hlist t (by simp [hl])
    unfold wakeBlocked setLock
    apply wp_bind
    rw [wp_modify_bind, wp_get_bind, if_pos hst]
    apply wp_onThreads
    apply wp_threadUnblock h.toQueued (by simp [hst, Sleeping])
    have hone : (m.lock.value + 1) % 256 = 1 := by simp [hvalue]
    rw [wp_modify_bind, wp_get_bind]
    refine (wp_assert hone).mpr ?_
    simp only [hone]
    exact hcons t rest hl

theorem wp_lockAgain {Q : Bool → Monitor → Prop}
    (hagain : m.lock.holder = some m.threads.current → Q true ⟨m.threads,
      { m.lock with holderRepeatTimes := (m.lock.holderRepeatTimes + 1) % 2 ^ 32 }⟩)
    (hfirst : m.lock.holder ≠ some m.threads.current → Q false m) :
    wp noStop e lockAgain Q m := by
  unfold lockAgain setLock
  rw [wp_get_bind]
  apply wp_ite
  · intro h
    rw [wp_modify_bind]
    exact wp_pure.mpr (hagain h)
  · intro h
    exact wp_pure.mpr (hfirst h)

theorem wp_unlockInner {Q : Bool → Monitor → Prop} (hholder : m.lock.holder = some m.threads.current)
    (htimes : 0 < m.lock.holderRepeatTimes)
    (hinner : 1 < m.lock.holderRepeatTimes → Q true ⟨m.threads,
      { m.lock with holderRepeatTimes := m.lock.holderRepeatTimes - 1 }⟩)
    (houter : m.lock.holderRepeatTimes = 1 → Q false m) :
    wp noStop e unlockInner Q m := by
  unfold unlockInner setLock
  rw [wp_get_bind, wp_assert_pos hholder]
  apply wp_ite
  · intro h
    rw [wp_modify_bind]
    exact wp_pure.mpr (hinner h)
  · intro h
    have h1 : m.lock.holderRepeatTimes = 1 := by omega
    rw [wp_assert_pos h1]
    exact wp_pure.mpr (houter h1)

/-- `lockUnlock` as a whole, at an inner and at the outermost level. -/
theorem wp_lockUnlock (h : Wf m.threads) (hholder : m.lock.holder = some m.threads.current)
    (htimes : 0 < m.lock.holderRepeatTimes) (hvalue : m.lock.value = 0)
    (hlist : ∀ t ∈ m.lock.blockedList, t ∈ m.threads.threadAllList ∧
      m.threads.status t = TaskStatus.blocked)
    (hinner : 1 < m.lock.holderRepeatTimes → Q () ⟨m.threads,
      { m.lock with holderRepeatTimes := m.lock.holderRepeatTimes - 1 }⟩)
    (hnil : m.lock.holderRepeatTimes = 1 → m.lock.blockedList = [] → Q () ⟨m.threads,
      { m.lock with holder := none, holderRepeatTimes := 0, value := 1 }⟩)
    (hcons : m.lock.holderRepeatTimes = 1 → ∀ t rest, m.lock.blockedList = t :: rest →
      Q () ⟨m.threads.unblocked t, { m.lock with
        holder := none, holderRepeatTimes := 0, blockedList := rest, value := 1 }⟩) :
    wp noStop e lockUnlock Q m := by
  unfold lockUnlock
  apply wp_bind
  apply wp_unlockInner hholder htimes
  · intro h1
    exact wp_pure.mpr (hinner h1)
  · intro h1
    change wp noStop e (do clearHolder; clearTimes; semaUp) Q m
    unfold clearHolder clearTimes setLock
    rw [wp_modify_bind, wp_modify_bind]
    exact wp_semaUp h hvalue hlist (hnil h1) (hcons h1)

end Specs

end Monitor

namespace LockSys

variable {s : LockSys} {p : LockPc} {d depth : ℕ}

section Steps

theorem wp_onMonitor {α : Type} {p : MonitorM α} {Q : α → LockSys → Prop}
    (h : wp noStop e p (fun a m => Q a { s with toMonitor := m }) s.toMonitor) :
    wp noStop e (onMonitor p) Q s :=
  wp_zoom h

theorem cur_awake (h : LockInv s) : ¬Sleeping (s.threads.status s.cur) :=
  h.wf.current_running ▸ not_sleeping_running

theorem cur_not_blocked (h : LockInv s) : s.cur ∉ s.lock.blockedList :=
  h.queue.not_blocked (cur_awake h)

theorem cur_not_waiting (h : LockInv s) : s.cur ∉ s.lock.waitingList :=
  h.queue.not_waiting (cur_awake h)

theorem not_stranded_goto {pc : ℕ → LockPc} {lk lk' : Lock} (h : NotStranded lk pc)
    (hpc : pc t ≠ .retest) (hvalue : lk'.value = lk.value)
    (hblocked : lk'.blockedList = lk.blockedList) :
    NotStranded lk' (fun q => if q = t then p else pc q) := by
  intro hv hne
  obtain ⟨q, hq, hnot⟩ := h (hvalue ▸ hv) (hblocked ▸ hne)
  have hqt : q ≠ t := by
    rintro rfl
    exact hpc hq
  exact ⟨q, by simpa [hqt] using hq, hblocked ▸ hnot⟩

theorem not_stranded_taken {pc : ℕ → LockPc} {lk : Lock} (h : lk.value = 0) :
    NotStranded lk pc := fun hv => absurd (h.symm.trans hv) (by decide)

/-- The running thread goes on and only fields of the lock change. -/
theorem inv_goto {lk : Lock} {o : Option ℕ} (h : LockInv s) (hidle : s.cur ≠ s.threads.idleThread)
    (hblocked : lk.blockedList = s.lock.blockedList) (hwaiting : lk.waitingList = s.lock.waitingList)
    (ho : OwnerInv lk (fun q => if q = s.cur then p else s.pc q)
      (fun q => if q = s.cur then d else s.depth q) o)
    (hs : NotStranded lk fun q => if q = s.cur then p else s.pc q) :
    LockInv ⟨⟨s.threads, lk⟩, fun q => if q = s.cur then p else s.pc q,
      fun q => if q = s.cur then d else s.depth q⟩ where
  wf := h.wf
  queue := (h.queue.goto (cur_awake h) h.wf.current_mem' hidle).congr hblocked hwaiting
  owner := ⟨o, ho⟩
  held q hq := by
    by_cases hqc : q = s.cur
    · rw [hqc]
      exact ⟨h.wf.current_mem', hidle⟩
    · exact h.held q (by simpa [hqc] using hq)
  stranded := hs

theorem wp_goto {Q : Unit → LockSys → Prop} {depth : ℕ}
    (h : Q () { s with
      pc := fun q => if q = t then p else s.pc q
      depth := fun q => if q = t then depth else s.depth q }) :
    wp noStop e (goto t p depth) Q s := wp_modify.mpr h

theorem wp_lockLock (h : LockInv s) (hidle : s.cur ≠ s.threads.idleThread)
    (hpc : s.pc s.cur = .out ∨ s.pc s.cur = .waiting) (hbound : s.depth s.cur + 1 < 2 ^ 32) :
    wp noStop e (lockLock s.cur (s.depth s.cur)) (fun _ s' => LockInv s') s := by
  obtain ⟨o, ho⟩ := h.owner
  have hbusy : ¬(s.pc s.cur).Busy := by
    obtain hpc | hpc := hpc <;> simp [hpc, LockPc.Busy]
  have hretest : s.pc s.cur ≠ .retest := by
    obtain hpc | hpc := hpc <;> simp [hpc]
  unfold lockLock
  apply wp_bind
  apply wp_onMonitor
  apply Monitor.wp_lockAgain
  · intro hh
    have hin : Inside s.pc s.depth s.cur := by
      by_contra hout
      exact ho.not_holder hout hh
    obtain ⟨rfl, hholder, htimes⟩ := ho.holder_of_depth (hin.resolve_right hbusy)
    apply wp_goto
    refine inv_goto h hidle rfl rfl (ho.keep (.inl (by omega)) rfl ⟨hholder, ?_⟩ (fun _ => .inl rfl)
      hbound) (not_stranded_taken ho.value_of_inside)
    have hmod : (s.depth s.cur + 1) % 2 ^ 32 = s.depth s.cur + 1 := Nat.mod_eq_of_lt hbound
    simp only [htimes, hmod]
  · intro hh
    have hout : ¬Inside s.pc s.depth s.cur := by
      rintro (hd | hb)
      · exact hh (ho.holder_of_depth hd).2.1
      · exact hbusy hb
    apply wp_goto
    exact inv_goto h hidle rfl rfl (ho.outside hout (by simp [LockPc.Busy]) rfl rfl rfl)
      (not_stranded_goto h.stranded hretest rfl rfl)

theorem wp_unlock (h : LockInv s) (hd : 0 < s.depth s.cur) :
    wp noStop e (LockCall.run s.cur (s.depth s.cur) .unlock) (fun _ s' => LockInv s') s := by
  obtain ⟨o, ho⟩ := h.owner
  obtain ⟨rfl, hholder, htimes⟩ := ho.holder_of_depth hd
  have hidle := (h.held _ hd).2
  have hb := ho.bound s.cur
  unfold LockCall.run
  apply wp_bind
  apply wp_onMonitor
  apply Monitor.wp_unlockInner hholder (htimes ▸ hd)
  · intro h1
    apply wp_goto
    refine inv_goto h hidle rfl rfl (ho.keep (.inl ?_) rfl ⟨hholder, ?_⟩ (fun _ => .inl rfl) ?_)
      (not_stranded_taken ho.value_of_inside)
    · omega
    · simp only [htimes]
    · omega
  · intro h1
    apply wp_goto
    exact inv_goto h hidle rfl rfl (ho.keep (.inr trivial) rfl ⟨hholder, h1⟩ (by simp) (by simp))
      (not_stranded_taken ho.value_of_inside)

/-- A thread that has the semaphore writes to `holder` and `holderRepeatTimes`. -/
theorem wp_write {g : Lock → Lock} (h : LockInv s) (hin : (s.pc s.cur).Busy)
    (hkeep : 0 < d ∨ p.Busy) (hb : (g s.lock).blockedList = s.lock.blockedList)
    (hw : (g s.lock).waitingList = s.lock.waitingList) (hv : (g s.lock).value = s.lock.value)
    (hfields : ∀ o, OwnerInv s.lock s.pc s.depth o → o = some s.cur → Fields (g s.lock) s.cur d p)
    (hrest : 0 < d → p = .out ∨ p = .waiting) (hbound : d < 2 ^ 32) :
    wp noStop e (do onMonitor (Monitor.setLock g); LockSys.goto s.cur p d) (fun _ s' => LockInv s') s := by
  obtain ⟨o, ho⟩ := h.owner
  obtain rfl := (ho.inside s.cur).mp (.inr hin)
  have hidle : s.cur ≠ s.threads.idleThread := by
    refine (h.queue.active s.cur ?_).2
    intro hc
    simp [hc, LockPc.Busy] at hin
  unfold Monitor.setLock
  apply wp_bind
  apply wp_onMonitor
  rw [wp_modify]
  apply wp_goto
  exact inv_goto h hidle hb hw (ho.keep hkeep hv (hfields _ ho rfl) hrest hbound)
    (not_stranded_taken (hv.trans ho.value_of_inside))

theorem wp_testSema (h : LockInv s) (hpc : s.pc s.cur = .down ∨ s.pc s.cur = .retest) :
    wp noStop e (testSema s.cur (s.depth s.cur)) (fun _ s' => LockInv s') s := by
  obtain ⟨o, ho⟩ := h.owner
  have hne : s.pc s.cur ≠ .out := by
    obtain hpc | hpc := hpc <;> simp [hpc]
  have hd : s.depth s.cur = 0 := by
    by_contra hd
    obtain hr | hr := ho.resting s.cur (Nat.pos_of_ne_zero hd)
    · exact hne hr
    · obtain hpc | hpc := hpc <;> simp [hpc] at hr
  have hbusy : ¬(s.pc s.cur).Busy := by
    obtain hpc | hpc := hpc <;> simp [hpc, LockPc.Busy]
  have hout : ¬Inside s.pc s.depth s.cur := by
    rintro (hc | hc)
    · omega
    · exact hbusy hc
  obtain ⟨hmem, hidle⟩ := h.queue.active s.cur hne
  unfold testSema
  apply wp_bind
  apply wp_onMonitor
  apply Monitor.wp_semaDown h.wf (cur_not_blocked h) ho.value_cases
  · intro h0 th' hth' hw
    apply wp_goto
    refine ⟨hth', (h.queue.block (cur_awake h) hne).switched hw,
      ⟨o, ho.outside hout (by simp [LockPc.Busy]) rfl rfl rfl⟩, ?_, not_stranded_taken h0⟩
    intro q hq
    have hqc : q ≠ s.cur := by
      rintro rfl
      simp [hd] at hq
    obtain ⟨hqm, hqi⟩ := h.held q (by simpa [hqc] using hq)
    exact ⟨hw.all ▸ hqm, hw.idle ▸ hqi⟩
  · intro h1
    obtain rfl := ho.free_of_value h1
    apply wp_goto
    exact inv_goto h hidle rfl rfl (ho.acquire rfl rfl rfl hd) (not_stranded_taken rfl)

/-- The thread that gave the lock back wakes the first of the list. -/
theorem wp_up (h : LockInv s) (hpc : s.pc s.cur = .up) :
    wp noStop e (do onMonitor Monitor.semaUp; LockSys.goto s.cur .out (s.depth s.cur))
      (fun _ s' => LockInv s') s := by
  obtain ⟨o, ho⟩ := h.owner
  obtain rfl := (ho.inside s.cur).mp (.inr (by simp [hpc, LockPc.Busy]))
  have hd : s.depth s.cur = 0 := by
    by_contra hd
    have := ho.resting s.cur (Nat.pos_of_ne_zero hd)
    simp [hpc] at this
  obtain ⟨hh, ht⟩ : s.lock.holder = none ∧ s.lock.holderRepeatTimes = 0 := by
    simpa [Fields, hpc] using ho.fields s.cur rfl
  obtain ⟨hmem, hidle⟩ := h.queue.active s.cur (by simp [hpc])
  rw [hd]
  apply wp_bind
  apply wp_onMonitor
  apply Monitor.wp_semaUp h.wf ho.value_of_inside h.queue.blocked_mem
  · intro hnil
    apply wp_goto
    exact inv_goto h hidle rfl rfl (ho.release (by simp [LockPc.Busy]) rfl hh ht)
      fun _ hne => absurd hnil hne
  · intro t rest hl
    apply wp_goto
    obtain ⟨htpc, hst⟩ := h.queue.blocked t (by simp [hl])
    have hsleep : Sleeping (s.threads.status t) := by simp [hst, Sleeping]
    have htm := (h.queue.blocked_mem t (by simp [hl])).1
    have htc : t ≠ s.cur := by
      rintro rfl
      exact cur_awake h hsleep
    have hq := h.queue.wakeBlocked hl
    have hrun : ¬Sleeping ((s.threads.unblocked t).status s.cur) := by
      simpa [Threads.unblocked, htc.symm] using cur_awake h
    refine ⟨h.wf.unblocked htm hsleep, (hq.goto hrun hmem hidle).congr rfl rfl,
      ⟨none, ho.release (by simp [LockPc.Busy]) rfl hh ht⟩, ?_, ?_⟩
    · intro q hq
      have hqc : q ≠ s.cur := by
        rintro rfl
        simp at hq
      exact h.held q (by simpa [hqc] using hq)
    · intro _ _
      have hnd := List.nodup_cons.mp (hl ▸ h.queue.blocked_nodup)
      exact ⟨t, by simpa [htc] using htpc, hnd.1⟩

/-- The state of the threads and the lock when `lockWait` gives up the processor. -/
theorem inv_wait {th' : Threads} {o : Option ℕ} (th : Threads) (lk : Lock) (h : LockInv s)
    (hth' : Wf th') (hcur : th.current = s.cur)
    (hall : th.threadAllList = s.threads.threadAllList)
    (hidle : th.idleThread = s.threads.idleThread)
    (hne : s.cur ≠ s.threads.idleThread)
    (hrun : ¬Sleeping (th.status s.cur)) (hq : QueueInv th lk s.pc)
    (hw : Switched ((th.setIntr false).setStatus th.current TaskStatus.waiting) th')
    (ho : OwnerInv { lk with waitingList := lk.waitingList ++ [s.cur] }
      (fun q => if q = s.cur then .waiting else s.pc q)
      (fun q => if q = s.cur then d else s.depth q) o)
    (hs : NotStranded lk fun q => if q = s.cur then .waiting else s.pc q) :
    LockInv ⟨⟨th', { lk with waitingList := lk.waitingList ++ [s.cur] }⟩,
      fun q => if q = s.cur then .waiting else s.pc q,
      fun q => if q = s.cur then d else s.depth q⟩ where
  wf := hth'
  queue := by
    have hmem : th.current ∈ th.threadAllList := by
      rw [hcur, hall]
      exact h.wf.current_mem'
    have hrun' : ¬Sleeping (th.status th.current) := hcur ▸ hrun
    have hidle' : th.current ≠ th.idleThread := by
      rw [hcur, hidle]
      exact hne
    have := (hq.wait hrun' hmem hidle').switched hw
    rwa [hcur] at this
  owner := ⟨o, ho⟩
  held q hqd := by
    have hall' : th'.threadAllList = s.threads.threadAllList := hw.all.trans hall
    have hidle' : th'.idleThread = s.threads.idleThread := hw.idle.trans hidle
    change q ∈ th'.threadAllList ∧ q ≠ th'.idleThread
    rw [hall', hidle']
    by_cases hqc : q = s.cur
    · rw [hqc]
      exact ⟨h.wf.current_mem', hne⟩
    · exact h.held q (by simpa [hqc] using hqd)
  stranded := hs

theorem wp_wait (h : LockInv s) (hd : 0 < s.depth s.cur) :
    wp noStop e (LockCall.run s.cur (s.depth s.cur) .wait)
      (fun _ s' => LockInv s' ∧ s.cur ∈ s'.lock.waitingList) s := by
  obtain ⟨o, ho⟩ := h.owner
  obtain ⟨rfl, hholder, htimes⟩ := ho.holder_of_depth hd
  have hidle := (h.held _ hd).2
  have hb := ho.bound s.cur
  have hv := ho.value_of_inside
  have hlast : s.lock.holderRepeatTimes = 1 → s.depth s.cur - 1 = 0 := by
    rw [← htimes]
    exact fun h1 => congrArg (· - 1) h1
  unfold LockCall.run
  apply wp_bind
  apply wp_onMonitor
  unfold Monitor.lockWait Monitor.setLock
  rw [wp_get_bind, wp_assert_pos hholder, wp_assert_pos (cur_not_waiting h),
    wp_assert_pos (cur_not_blocked h), wp_modify_bind]
  apply wp_bind
  refine Monitor.wp_lockUnlock h.wf hholder (htimes ▸ hd) hv h.queue.blocked_mem ?_ ?_ ?_
  · -- an inner level: the lock is kept
    intro h1
    have hd1 : 1 < s.depth s.cur := htimes ▸ h1
    apply Monitor.wp_onThreads
    apply Monitor.wp_block h.wf (by decide)
    intro th' hth' hw
    apply wp_goto
    refine ⟨?_, by simp⟩
    refine inv_wait _ { s.lock with holderRepeatTimes := s.lock.holderRepeatTimes - 1 } h hth' rfl
      rfl rfl hidle (cur_awake h)
      (h.queue.congr rfl rfl) hw (ho.keep (.inl ?_) rfl ⟨hholder, ?_⟩ (fun _ => .inr rfl) ?_)
      (not_stranded_taken hv)
    · omega
    · simp only [htimes]
    · omega
  · intro h1 hnil
    apply Monitor.wp_onThreads
    apply Monitor.wp_block h.wf (by decide)
    intro th' hth' hw
    apply wp_goto
    rw [hlast h1]
    refine ⟨?_, by simp⟩
    exact inv_wait _ { s.lock with holder := none, holderRepeatTimes := 0, value := 1 } h hth' rfl
      rfl rfl hidle (cur_awake h)
      (h.queue.congr rfl rfl) hw (ho.release (by simp [LockPc.Busy]) rfl rfl rfl)
      fun _ hne => absurd hnil hne
  · intro h1 t rest hl
    obtain ⟨htpc, hst⟩ := h.queue.blocked t (by simp [show s.lock.blockedList = t :: rest from hl])
    have hsleep : Sleeping (s.threads.status t) := by simp [hst, Sleeping]
    have htm := (h.queue.active t (by simp [htpc])).1
    have htc : t ≠ s.cur := by
      rintro rfl
      exact cur_awake h hsleep
    have hrun : ¬Sleeping ((s.threads.unblocked t).status s.cur) := by
      simpa [Threads.unblocked, htc.symm] using cur_awake h
    apply Monitor.wp_onThreads
    apply Monitor.wp_block (h.wf.unblocked htm hsleep) (by decide)
    intro th' hth' hw
    apply wp_goto
    rw [hlast h1]
    refine ⟨?_, by simp⟩
    refine inv_wait (s.threads.unblocked t) { s.lock with
        holder := none, holderRepeatTimes := 0, blockedList := rest, value := 1 } h hth' rfl
      rfl rfl hidle hrun ((h.queue.wakeBlocked hl).congr rfl rfl) hw
      (ho.release (by simp [LockPc.Busy]) rfl rfl rfl) ?_
    intro _ _
    have hnd := List.nodup_cons.mp (hl ▸ h.queue.blocked_nodup)
    exact ⟨t, by simpa [htc] using htpc, hnd.1⟩

theorem wp_lockNotify (h : LockInv s) (hd : 0 < s.depth s.cur) :
    wp noStop e (LockCall.run s.cur (s.depth s.cur) .notify)
      (fun _ s' => LockInv s' ∧ s'.pc = s.pc ∧
        s'.lock = { s.lock with waitingList := s.lock.waitingList.tail } ∧
        ∀ t ∈ s.lock.waitingList.head?, s'.threads.status t = TaskStatus.ready) s := by
  obtain ⟨o, ho⟩ := h.owner
  obtain ⟨rfl, hholder, -⟩ := ho.holder_of_depth hd
  have hv := ho.value_of_inside
  unfold LockCall.run Monitor.lockNotify Monitor.setLock
  apply wp_onMonitor
  rw [wp_get_bind, wp_assert_pos hholder]
  cases hl : s.lock.waitingList with
  | nil => exact wp_pure.mpr ⟨h, rfl, by rw [List.tail_nil, ← hl], by simp⟩
  | cons t rest =>
    obtain ⟨htpc, hst⟩ := h.queue.waiting t (by simp [hl])
    have hsleep : Sleeping (s.threads.status t) := by simp [hst, Sleeping]
    obtain ⟨htm, hti⟩ := h.queue.active t (by simp [htpc])
    rw [wp_modify_bind]
    apply Monitor.wp_onThreads
    apply wp_threadUnblock h.wf.toQueued hsleep
    exact ⟨⟨h.wf.unblocked htm hsleep, h.queue.wakeWaiting hl, ⟨_, ho.congr rfl rfl rfl⟩, h.held,
      not_stranded_taken hv⟩, rfl, rfl, by simp⟩

/-- The loop of `lockNotifyAll`: every thread on the list is woken. -/
theorem wp_wakeWaiting {l : List ℕ} : ∀ {m : Monitor} {Q : Unit → Monitor → Prop} {pc : ℕ → LockPc},
    Wf m.threads → QueueInv m.threads m.lock pc → m.lock.waitingList = l →
    (∀ th, Wf th → QueueInv th { m.lock with waitingList := [] } pc →
      th.current = m.threads.current →
      th.threadAllList = m.threads.threadAllList → th.idleThread = m.threads.idleThread →
      (∀ t ∈ l, th.status t = TaskStatus.ready) →
      (∀ t, t ∉ l → th.status t = m.threads.status t) →
      Q () ⟨th, { m.lock with waitingList := [] }⟩) →
    wp noStop e (Monitor.wakeWaiting l) Q m := by
  induction l with
  | nil =>
    intro m Q pc hwf hq hl hQ
    unfold Monitor.wakeWaiting
    rw [wp_pure]
    have := hQ m.threads hwf (hq.congr rfl hl.symm) rfl rfl rfl (by simp) fun _ _ => rfl
    rwa [← hl] at this
  | cons t rest ih =>
    intro m Q pc hwf hq hl hQ
    obtain ⟨htpc, hst⟩ := hq.waiting t (by simp [hl])
    have hsleep : Sleeping (m.threads.status t) := by simp [hst, Sleeping]
    obtain ⟨htm, hti⟩ := hq.active t (by simp [htpc])
    have hnd := List.nodup_cons.mp (hl ▸ hq.waiting_nodup)
    unfold Monitor.wakeWaiting Monitor.setLock
    rw [wp_modify_bind]
    apply wp_bind
    apply Monitor.wp_onThreads
    apply wp_threadUnblock hwf.toQueued hsleep
    refine ih (hwf.unblocked htm hsleep) (hq.wakeWaiting hl) rfl ?_
    intro th hth hqth hcur hall hidle hready hsame
    refine hQ th hth hqth hcur hall hidle ?_ ?_
    · intro q hqm
      obtain rfl | hqr := List.mem_cons.mp hqm
      · rw [hsame q hnd.1]
        simp
      · exact hready q hqr
    · intro q hqn
      obtain ⟨hqt, hqr⟩ := not_or.mp (fun hc => hqn (List.mem_cons.mpr hc))
      rw [hsame q hqr]
      simp [hqt]

theorem wp_lockNotifyAll (h : LockInv s) (hd : 0 < s.depth s.cur) :
    wp noStop e (LockCall.run s.cur (s.depth s.cur) .notifyAll)
      (fun _ s' => LockInv s' ∧ s'.pc = s.pc ∧ s'.lock = { s.lock with waitingList := [] } ∧
        ∀ t ∈ s.lock.waitingList, s'.threads.status t = TaskStatus.ready) s := by
  obtain ⟨o, ho⟩ := h.owner
  obtain ⟨rfl, hholder, -⟩ := ho.holder_of_depth hd
  have hv := ho.value_of_inside
  unfold LockCall.run Monitor.lockNotifyAll
  apply wp_onMonitor
  rw [wp_get_bind, wp_assert_pos hholder]
  apply wp_wakeWaiting h.wf h.queue rfl
  intro th hth hq _ hall hidle hready _
  refine ⟨⟨hth, hq, ⟨_, ho.congr rfl rfl rfl⟩, ?_, not_stranded_taken hv⟩, rfl, rfl, hready⟩
  intro q hqd
  obtain ⟨hm, hi⟩ := h.held q hqd
  exact ⟨hall ▸ hm, hidle ▸ hi⟩

/-- What happens elsewhere, when the threads that have the lock stay alive. -/
theorem inv_spared {P K : ℕ → Prop} {th : Threads} (h : LockInv s) (hth : Wf th)
    (hs : Spared P K s.threads th) (hP : ∀ t, s.pc t ≠ .out → P t)
    (hK : ∀ t, s.pc t ≠ .out → K t) (hheld : ∀ t, 0 < s.depth t → K t) :
    LockInv ⟨⟨th, s.lock⟩, s.pc, s.depth⟩ where
  wf := hth
  queue := h.queue.spared hs hP hK
  owner := h.owner
  held t ht := ⟨hs.all t (hheld t ht) (h.held t ht).1, hs.idle ▸ (h.held t ht).2⟩
  stranded := h.stranded

theorem ThreadOp.keeps_of_spares {th : Threads} {op : ThreadOp} (h : op.Spares th t) :
    op.Keeps th t := by
  cases op <;> first | exact h.2 | trivial

theorem wp_thread {op : ThreadOp} (h : LockInv s) (hen : op.Enabled s.threads)
    (hal : op.HasPage s.threads) (hel : s.Elsewhere (op.Spares s.threads) (op.Keeps s.threads)) :
    wp noStop e (LockSys.onThreads (op.run s.threads)) (fun _ s' => LockInv s') s := by
  unfold LockSys.onThreads
  apply wp_onMonitor
  apply Monitor.wp_onThreads
  apply wp_mono (wp_threadOp h.wf hen hal)
  rintro ⟨⟩ th ⟨hth, hs⟩
  have hspares : ∀ t, s.pc t ≠ .out → op.Spares s.threads t :=
    fun t ht => hel.1 t ht (h.queue.active t ht).2
  exact inv_spared h hth hs hspares (fun t ht => ThreadOp.keeps_of_spares (hspares t ht)) hel.2

/-- A thread that is asleep in the code of the lock is on one of its lists. -/
theorem mem_of_sleeping (h : LockInv s) (hpc : s.pc t ≠ .out) (hs : Sleeping (s.threads.status t)) :
    t ∈ s.lock.blockedList ∨ t ∈ s.lock.waitingList := by
  by_contra hn
  obtain ⟨hb, hw⟩ := not_or.mp hn
  exact h.queue.awake t hpc hb hw hs

theorem wp_proc {op : ProcOp} (h : LockInv s) (hen : op.Enabled s.threads)
    (hpc : s.pc s.cur = .out) (hkeep : ∀ t, 0 < s.depth t → op.Keeps s.threads t)
    (hwake : ∀ st, op = .exit st → ∀ t ∈ s.threads.waitingParent, t ∉ s.lock.waitingList) :
    wp anyStop e (LockSys.onThreads op.run) (fun _ s' => LockInv s') s := by
  have hcur : ∀ t, s.pc t ≠ .out → t ≠ s.cur := by
    rintro t ht rfl
    exact ht hpc
  -- a child that hangs is not in the code of the lock
  have hhang : ∀ t, s.pc t ≠ .out →
      s.threads.findHangingChild (s.threads.tasks s.cur).pid ≠ some t := by
    intro t ht hf
    obtain ⟨-, -, hst⟩ := findHangingChild_mem hf
    obtain hm | hm := mem_of_sleeping h ht (by simp [hst, Sleeping])
    · simp [(h.queue.blocked t hm).2] at hst
    · simp [(h.queue.waiting t hm).2] at hst
  have hspares : ∀ t, s.pc t ≠ .out → op.Spares s.threads t := by
    intro t ht
    obtain ⟨hm, hi⟩ := h.queue.active t ht
    refine ⟨hi, ?_⟩
    cases op with
    | fork got =>
      rintro hc rfl
      exact h.wf.not_mem_of_fresh (hen.1 hc) hm
    | exit st =>
      refine ⟨hcur t ht, fun hw => ?_⟩
      obtain ⟨-, -, hst⟩ := waitingParent_mem hw
      obtain hb | hb := mem_of_sleeping h ht (by simp [hst, Sleeping])
      · simp [(h.queue.blocked t hb).2] at hst
      · exact hwake st rfl t hw hb
    | wait => exact ⟨hcur t ht, hhang t ht⟩
  have hkeeps : ∀ t, s.pc t ≠ .out → op.Keeps s.threads t := by
    intro t ht
    cases op with
    | fork got => trivial
    | exit st => trivial
    | wait => exact hhang t ht
  have hrun := wp_procOp (e := e) _ h.wf hen
  refine wp_zoom (wp_zoom (wp_mono hrun ?_))
  rintro ⟨⟩ th ⟨hth, hs⟩
  exact inv_spared h hth hs hspares hkeeps hkeep

/-- The events of a lock that is used alone: no condition waiting and no processes. -/
def LockEvent.Plain : LockEvent → Prop
  | .call .lock | .call .unlock | .resume | .thread _ => True
  | .call _ | .proc _ => False

/-- A call of `lockLock` nests no thread too deep for the counter. -/
def Shallow (s : LockSys) (ev : LockEvent) : Prop :=
  ev = .call .lock ∨ ev = .resume ∧ s.pc s.cur = .waiting → s.depth s.cur + 1 < 2 ^ 32

theorem depth_busy {o : Option ℕ} (ho : OwnerInv s.lock s.pc s.depth o)
    (hpc : s.pc t ≠ .out) (hw : s.pc t ≠ .waiting) : s.depth t = 0 := by
  by_contra hd
  obtain hr | hr := ho.resting t (Nat.pos_of_ne_zero hd)
  · exact hpc hr
  · exact hw hr

theorem wp_resume (h : LockInv s) (hpc : s.pc s.cur ≠ .out) (hb : s.Shallow .resume) :
    wp noStop e (resume s.cur (s.depth s.cur) (s.pc s.cur)) (fun _ s' => LockInv s') s := by
  obtain ⟨o, ho⟩ := h.owner
  have hidle := (h.queue.active s.cur hpc).2
  have hfields : ∀ o, OwnerInv s.lock s.pc s.depth o → o = some s.cur →
      Fields s.lock s.cur (s.depth s.cur) (s.pc s.cur) := fun o ho hc => ho.fields s.cur hc
  have hbound := ho.bound s.cur
  cases hp : s.pc s.cur with
  | out => exact absurd hp hpc
  | down =>
    have := wp_testSema (e := e) h (.inl hp)
    exact this
  | retest =>
    have := wp_testSema (e := e) h (.inr hp)
    exact this
  | setHolder =>
    have hf : ∀ o, OwnerInv s.lock s.pc s.depth o → o = some s.cur →
        s.lock.holder = none ∧ s.lock.holderRepeatTimes = 0 :=
      fun o ho hc => by simpa [hp, Fields] using hfields o ho hc
    have hd := depth_busy ho hpc (by simp [hp])
    exact wp_write (e := e) (g := fun l => { l with holder := some s.cur }) h (by simp [hp, LockPc.Busy])
      (.inr trivial) rfl rfl rfl (fun o ho hc => ⟨rfl, (hf o ho hc).2⟩) (by simp [hd]) hbound
  | setTimes =>
    have hf : ∀ o, OwnerInv s.lock s.pc s.depth o → o = some s.cur →
        s.lock.holder = some s.cur ∧ s.lock.holderRepeatTimes = 0 :=
      fun o ho hc => by simpa [hp, Fields] using hfields o ho hc
    exact wp_write (e := e) (g := fun l => { l with holderRepeatTimes := 1 }) h (by simp [hp, LockPc.Busy])
      (.inl one_pos) rfl rfl rfl (fun o ho hc => ⟨(hf o ho hc).1, rfl⟩) (fun _ => .inl rfl)
      (by decide)
  | clearHolder =>
    have hf : ∀ o, OwnerInv s.lock s.pc s.depth o → o = some s.cur →
        s.lock.holder = some s.cur ∧ s.lock.holderRepeatTimes = 1 :=
      fun o ho hc => by simpa [hp, Fields] using hfields o ho hc
    have hd := depth_busy ho hpc (by simp [hp])
    exact wp_write (e := e) (g := fun l => { l with holder := none }) h (by simp [hp, LockPc.Busy])
      (.inr trivial) rfl rfl rfl (fun o ho hc => ⟨rfl, (hf o ho hc).2⟩) (by simp [hd]) hbound
  | clearTimes =>
    have hf : ∀ o, OwnerInv s.lock s.pc s.depth o → o = some s.cur →
        s.lock.holder = none ∧ s.lock.holderRepeatTimes = 1 :=
      fun o ho hc => by simpa [hp, Fields] using hfields o ho hc
    have hd := depth_busy ho hpc (by simp [hp])
    exact wp_write (e := e) (g := fun l => { l with holderRepeatTimes := 0 }) h (by simp [hp, LockPc.Busy])
      (.inr trivial) rfl rfl rfl (fun o ho hc => ⟨(hf o ho hc).1, rfl⟩) (by simp [hd]) hbound
  | up => exact wp_up h hp
  | waiting => exact wp_lockLock h hidle (.inr hp) (hb (.inr ⟨rfl, hp⟩))

/-- Every step of threads keeps the invariant of the lock, and no assertion fails. -/
theorem wp_event {ev : LockEvent} (h : LockInv s) (hen : LockEvent.Enabled s ev)
    (hidle : s.NotIdle ev) (hb : s.Shallow ev) (hproc : ∀ op, ev ≠ .proc op) :
    wp noStop e (LockEvent.run s ev) (fun _ s' => LockInv s') s := by
  cases ev with
  | call c =>
    cases c with
    | lock => exact wp_lockLock h (hidle rfl) (.inl hen) (hb (.inl rfl))
    | unlock => exact wp_unlock h hen.2
    | wait => exact wp_mono (wp_wait h hen.2) fun _ _ hs => hs.1
    | notify => exact wp_mono (wp_lockNotify h hen.2) fun _ _ hs => hs.1
    | notifyAll => exact wp_mono (wp_lockNotifyAll h hen.2) fun _ _ hs => hs.1
  | resume => exact wp_resume h hen hb
  | thread op => exact wp_thread h hen.1 hen.2.1 hen.2.2
  | proc op => exact absurd rfl (hproc op)

end Steps

end LockSys

end Gogoos
