import Gogoos.Kernel.Thread
import Gogoos.Logic.Run

/-!
# The scheduler invariant

Between two operations exactly one thread runs, and the ready list holds the ready threads,
each once. While `schedule` is called the running thread may already have left that state, so
the invariant has a weaker form without it, which every operation reaches before it calls
`schedule`. The idle thread is what an empty ready list falls back to: nobody runs then and
nobody is ready, so it must be asleep.
-/

namespace Gogoos.Threads

open Program

variable {s s' s'' : Threads} {e : Unit} {t pcb : ℕ} {Q : Unit → Threads → Prop}

/-- The invariant while `schedule` is under way. -/
structure Queued (s : Threads) : Prop where
  all_nodup : s.threadAllList.Nodup
  ready_nodup : s.threadReadyList.Nodup
  ready_iff : ∀ t, t ∈ s.threadReadyList ↔
    t ∈ s.threadAllList ∧ s.status t = TaskStatus.ready
  running : ∀ t ∈ s.threadAllList, s.status t = TaskStatus.running → t = s.current
  current_mem : s.status s.current = TaskStatus.running → s.current ∈ s.threadAllList
  idle_mem : s.idleThread ∈ s.threadAllList
  alive : ∀ t ∈ s.threadAllList,
    s.status t = TaskStatus.running ∨ s.status t = TaskStatus.ready ∨ Sleeping (s.status t)
  magic : ∀ t ∈ s.threadAllList, (s.tasks t).stackMagicNum = stackMagicNumber

/-- The invariant between two operations. -/
structure Scheduled (s : Threads) : Prop extends Queued s where
  current_running : s.status s.current = TaskStatus.running

/-- What a switch leaves alone: it changes statuses and tick counts only, wakes at most the
idle thread and puts nobody to sleep. -/
structure Switched (s s' : Threads) : Prop where
  tasks : ∀ t, s'.tasks t = { s.tasks t with
    status := s'.status t, ticks := (s'.tasks t).ticks, elapsedTicks := (s'.tasks t).elapsedTicks }
  all : s'.threadAllList = s.threadAllList
  main : s'.mainThread = s.mainThread
  idle : s'.idleThread = s.idleThread
  pages : s'.pages = s.pages
  pids : s'.pidBitMap = s.pidBitMap
  asleep : ∀ t, t ≠ s.idleThread → Sleeping (s.status t) → s'.status t = s.status t
  awake : ∀ t, ¬Sleeping (s.status t) → ¬Sleeping (s'.status t)
  sleeping : ∀ t, Sleeping (s'.status t) → s'.status t = s.status t
  dead : ∀ t ∉ s.threadAllList, s'.status t = s.status t

section Parts

theorem Switched.refl : Switched s s where
  tasks _ := rfl
  all := rfl
  main := rfl
  idle := rfl
  pages := rfl
  pids := rfl
  asleep _ _ _ := rfl
  awake _ h := h
  sleeping _ _ := rfl
  dead _ _ := rfl

theorem Switched.trans (h : Switched s s') (h' : Switched s' s'') : Switched s s'' where
  tasks t := by rw [h'.tasks t, h.tasks t]
  all := h'.all.trans h.all
  main := h'.main.trans h.main
  idle := h'.idle.trans h.idle
  pages := h'.pages.trans h.pages
  pids := h'.pids.trans h.pids
  asleep t ht hs := by
    have hst := h.asleep t ht hs
    rw [h'.asleep t (h.idle ▸ ht) (hst ▸ hs), hst]
  awake t ht := h'.awake t (h.awake t ht)
  sleeping t ht := by
    have hst := h'.sleeping t ht
    rw [hst, h.sleeping t (hst ▸ ht)]
  dead t ht := by rw [h'.dead t (h.all ▸ ht), h.dead t ht]

theorem not_sleeping_ready : ¬Sleeping TaskStatus.ready := by decide

theorem not_sleeping_running : ¬Sleeping TaskStatus.running := by decide

theorem Queued.not_ready (h : Queued s) (ht : s.status t ≠ TaskStatus.ready) :
    t ∉ s.threadReadyList := fun hm => ht ((h.ready_iff t).mp hm).2

/-- A thread whose status was changed to `TASK_READY` is queued once more. -/
theorem Queued.enqueue {l : List ℕ} (task : TaskStruct) (h : Queued s)
    (hmem : pcb ∈ s.threadAllList) (hnot : pcb ∉ s.threadReadyList)
    (hl : l.Perm (pcb :: s.threadReadyList)) (hstatus : task.status = TaskStatus.ready)
    (hmagic : task.stackMagicNum = stackMagicNumber) :
    Queued ((s.setTask pcb task).setReadyList l) where
  all_nodup := h.all_nodup
  ready_nodup := hl.nodup_iff.mpr (List.nodup_cons.mpr ⟨hnot, h.ready_nodup⟩)
  ready_iff t := by
    have := h.ready_iff t
    by_cases ht : t = pcb
    · simp [hl.mem_iff, ht, hmem, hstatus]
    · simp [hl.mem_iff, ht, this]
  running t hm hr := by
    by_cases ht : t = pcb
    · simp [ht, hstatus] at hr
    · exact h.running t hm (by simpa [ht] using hr)
  current_mem hr := by
    by_cases ht : s.current = pcb
    · simp [ht, hstatus] at hr
    · exact h.current_mem (by simpa [ht] using hr)
  idle_mem := h.idle_mem
  alive t hm := by
    by_cases ht : t = pcb
    · simp [ht, hstatus]
    · simpa [ht] using h.alive t hm
  magic t hm := by
    by_cases ht : t = pcb
    · simpa [ht] using hmagic
    · simpa [ht] using h.magic t hm

theorem wp_threadUnblock (h : Queued s)
    (hs : Sleeping (s.status pcb))
    (hQ : Q () ((s.setStatus pcb TaskStatus.ready).setReadyList (pcb :: s.threadReadyList))) :
    wp noStop e (threadUnblock pcb) Q s := by
  have hnot : pcb ∉ s.threadReadyList := h.not_ready fun hr => not_sleeping_ready (hr ▸ hs)
  unfold threadUnblock
  rw [wp_get_bind, wp_assert_pos hnot, wp_assert_pos hs, wp_modify]
  exact hQ

theorem Queued.unblock (h : Queued s) (hmem : pcb ∈ s.threadAllList)
    (hs : Sleeping (s.status pcb)) :
    Queued ((s.setStatus pcb TaskStatus.ready).setReadyList (pcb :: s.threadReadyList)) :=
  h.enqueue _ hmem (h.not_ready fun hr => not_sleeping_ready (hr ▸ hs)) (.refl _) rfl
    (h.magic pcb hmem)

theorem wp_requeue (h : Queued s) :
    wp noStop e requeue (fun _ s' => Queued s' ∧ Switched s s' ∧ s'.current = s.current ∧
      s'.intr = s.intr ∧ ∀ t ∈ s'.threadAllList, s'.status t ≠ TaskStatus.running) s := by
  unfold requeue
  rw [wp_get_bind]
  apply wp_ite
  · intro hr
    have hmem := h.current_mem hr
    have hnot : s.current ∉ s.threadReadyList := h.not_ready (by rw [hr]; decide)
    rw [wp_assert_pos hnot, wp_modify]
    refine ⟨h.enqueue _ hmem hnot (List.perm_append_singleton _ _) rfl (h.magic _ hmem), ?_, rfl,
      rfl, ?_⟩
    · constructor
      case tasks => intro t; by_cases ht : t = s.current <;> simp [ht]
      case asleep =>
        intro t _ hs
        have ht : t ≠ s.current := fun ht => not_sleeping_running (hr ▸ ht ▸ hs)
        simp [ht]
      case awake =>
        intro t hs
        by_cases ht : t = s.current
        · simp [ht]
        · simpa [ht] using hs
      case sleeping =>
        intro t hs
        by_cases ht : t = s.current
        · simp [ht, Sleeping] at hs
        · simp [ht]
      case dead =>
        intro t ht
        have : t ≠ s.current := fun hc => ht (hc ▸ hmem)
        simp [this]
      all_goals rfl
    · intro t hm hrun
      by_cases ht : t = s.current
      · simp [ht] at hrun
      · exact ht (h.running t hm (by simpa [ht] using hrun))
  · intro hr
    rw [wp_pure]
    exact ⟨h, .refl, rfl, rfl, fun t hm hrun => hr (h.running t hm hrun ▸ hrun)⟩

theorem Queued.idle_asleep (h : Queued s)
    (hrun : ∀ t ∈ s.threadAllList, s.status t ≠ TaskStatus.running)
    (hready : s.threadReadyList = []) : Sleeping (s.status s.idleThread) := by
  obtain hr | hr | hs := h.alive _ h.idle_mem
  · exact absurd hr (hrun _ h.idle_mem)
  · have := (h.ready_iff _).mpr ⟨h.idle_mem, hr⟩
    simp [hready] at this
  · exact hs

theorem wp_wakeIdle (h : Queued s)
    (hrun : ∀ t ∈ s.threadAllList, s.status t ≠ TaskStatus.running) :
    wp noStop e wakeIdle (fun _ s' => Queued s' ∧ Switched s s' ∧ s'.threadReadyList ≠ [] ∧
      ∀ t ∈ s'.threadAllList, s'.status t ≠ TaskStatus.running) s := by
  unfold wakeIdle
  rw [wp_get_bind]
  apply wp_ite
  · intro hempty
    have hs := h.idle_asleep hrun hempty
    apply wp_threadUnblock h hs
    refine ⟨h.unblock h.idle_mem hs, ?_, by simp, ?_⟩
    · constructor
      case tasks => intro t; by_cases ht : t = s.idleThread <;> simp [ht]
      case asleep => intro t ht _; simp [ht]
      case awake =>
        intro t hst
        have ht : t ≠ s.idleThread := fun ht => hst (ht ▸ hs)
        simpa [ht] using hst
      case sleeping =>
        intro t hst
        by_cases ht : t = s.idleThread
        · simp [ht, Sleeping] at hst
        · simp [ht]
      case dead =>
        intro t ht
        have : t ≠ s.idleThread := fun hc => ht (hc ▸ h.idle_mem)
        simp [this]
      all_goals rfl
    · intro t hm
      by_cases ht : t = s.idleThread
      · simp [ht]
      · simpa [ht] using hrun t hm
  · intro hne
    rw [wp_pure]
    exact ⟨h, .refl, hne, hrun⟩

theorem wp_dispatch (h : Queued s) (hne : s.threadReadyList ≠ [])
    (hrun : ∀ t ∈ s.threadAllList, s.status t ≠ TaskStatus.running) :
    wp noStop e dispatch (fun _ s' => Scheduled s' ∧ Switched s s' ∧
      s'.cr3 = (s'.tasks s'.current).pageDir) s := by
  unfold dispatch
  rw [wp_get_bind]
  cases hl : s.threadReadyList with
  | nil => exact absurd hl hne
  | cons next rest =>
    have hnext := (h.ready_iff next).mp (by simp [hl])
    have hnodup := List.nodup_cons.mp (hl ▸ h.ready_nodup)
    rw [wp_modify]
    refine ⟨⟨⟨h.all_nodup, hnodup.2, ?_, ?_, fun _ => hnext.1, h.idle_mem, ?_, ?_⟩, by simp⟩,
      ?_, rfl⟩
    · intro t
      by_cases ht : t = next
      · simp [ht, hnodup.1]
      · have := h.ready_iff t
        simpa [hl, ht] using this
    · intro t hm hr
      by_contra ht
      exact hrun t hm (by simpa [show t ≠ next from ht] using hr)
    · intro t hm
      by_cases ht : t = next
      · simp [ht]
      · simpa [ht] using h.alive t hm
    · intro t hm
      by_cases ht : t = next
      · simpa [ht] using h.magic next hnext.1
      · simpa [ht] using h.magic t hm
    · have hns : ¬Sleeping (s.status next) := hnext.2 ▸ not_sleeping_ready
      constructor
      case tasks => intro t; by_cases ht : t = next <;> simp [ht]
      case asleep =>
        intro t _ hs
        have ht : t ≠ next := fun ht => hns (ht ▸ hs)
        simp [ht]
      case awake =>
        intro t hs
        by_cases ht : t = next
        · simp [ht]
        · simpa [ht] using hs
      case sleeping =>
        intro t hs
        by_cases ht : t = next
        · simp [ht, Sleeping] at hs
        · simp [ht]
      case dead =>
        intro t ht
        have : t ≠ next := fun hc => ht (hc ▸ hnext.1)
        simp [this]
      all_goals rfl

/-- No assertion of `schedule` fails, and one thread runs afterwards. -/
theorem wp_schedule (h : Queued s) (hintr : s.intr = false) :
    wp noStop e schedule (fun _ s' => Scheduled s' ∧ Switched s s' ∧
      s'.cr3 = (s'.tasks s'.current).pageDir) s := by
  unfold schedule
  rw [wp_get_bind, wp_assert_pos hintr]
  apply wp_call (wp_requeue h)
  rintro ⟨⟩ s₁ ⟨h₁, hs₁, -, -, hrun₁⟩
  apply wp_call (wp_wakeIdle h₁ hrun₁)
  rintro ⟨⟩ s₂ ⟨h₂, hs₂, hne, hrun₂⟩
  apply wp_mono (wp_dispatch h₂ hne hrun₂)
  rintro ⟨⟩ s₃ ⟨h₃, hs₃, hcr3⟩
  exact ⟨h₃, (hs₁.trans hs₂).trans hs₃, hcr3⟩

end Parts

section Operations

theorem Scheduled.current_not_ready (h : Scheduled s) : s.current ∉ s.threadReadyList :=
  h.not_ready (by rw [h.current_running]; decide)

/-- A thread that stops running leaves the rest as it is. -/
theorem Scheduled.leave {st : ℤ} (h : Scheduled s) (hst : Sleeping st) :
    Queued ((s.setIntr false).setStatus s.current st) := by
  have hcur := h.current_not_ready
  refine ⟨h.all_nodup, h.ready_nodup, ?_, ?_, ?_, h.idle_mem, ?_, ?_⟩
  · intro t
    have := h.ready_iff t
    by_cases ht : t = s.current
    · have hne : st ≠ TaskStatus.ready := fun he => not_sleeping_ready (he ▸ hst)
      simpa [ht, hne] using hcur
    · simpa [ht] using this
  · intro t hm hr
    by_contra ht
    exact ht (h.running t hm (by simpa [show t ≠ s.current from ht] using hr))
  · intro hr
    exact h.current_mem h.current_running
  · intro t hm
    by_cases ht : t = s.current
    · simp [ht, hst]
    · simpa [ht] using h.alive t hm
  · intro t hm
    by_cases ht : t = s.current
    · simpa [ht] using h.magic _ (h.current_mem h.current_running)
    · simpa [ht] using h.magic t hm

theorem wp_threadBlock {st : ℤ} (h : Scheduled s) (hst : Sleeping st) :
    wp noStop e (threadBlock st) (fun _ s' => Scheduled s' ∧
      Switched ((s.setIntr false).setStatus s.current st) s' ∧
      s'.cr3 = (s'.tasks s'.current).pageDir) s := by
  unfold threadBlock disableIntr
  rw [wp_assert_pos hst, wp_modify_bind, wp_get_bind]
  refine (wp_assert_pos h.current_not_ready).mpr ?_
  rw [wp_modify_bind]
  exact wp_schedule (h.leave hst) rfl

/-- A change of a PCB that keeps its status leads to a switched state. -/
theorem Switched.update {task : TaskStruct} (hst : task.status = s.status pcb)
    (ht : task = { s.tasks pcb with
      status := task.status, ticks := task.ticks, elapsedTicks := task.elapsedTicks }) :
    Switched s (s.setTask pcb task) where
  tasks t := by
    by_cases h : t = pcb
    · simpa [h] using ht
    · simp [h]
  all := rfl
  main := rfl
  idle := rfl
  pages := rfl
  pids := rfl
  asleep t _ _ := by
    by_cases h : t = pcb
    · simp [h, hst]
    · simp [h]
  awake t hs := by
    by_cases h : t = pcb
    · subst h
      simpa [hst] using hs
    · simpa [h] using hs
  sleeping t _ := by
    by_cases h : t = pcb
    · simp [h, hst]
    · simp [h]
  dead t _ := by
    by_cases h : t = pcb
    · simp [h, hst]
    · simp [h]

theorem Queued.update {task : TaskStruct} (h : Queued s) (hst : task.status = s.status pcb)
    (hmagic : task.stackMagicNum = (s.tasks pcb).stackMagicNum) : Queued (s.setTask pcb task) := by
  have hstatus : ∀ t, (s.setTask pcb task).status t = s.status t := by
    intro t
    by_cases ht : t = pcb
    · simp [ht, hst]
    · simp [ht]
  refine ⟨h.all_nodup, h.ready_nodup, ?_, ?_, ?_, h.idle_mem, ?_, ?_⟩
  · intro t
    rw [hstatus]
    exact h.ready_iff t
  · intro t hm hr
    rw [hstatus] at hr
    exact h.running t hm hr
  · intro hr
    rw [hstatus] at hr
    exact h.current_mem hr
  · intro t hm
    rw [hstatus]
    exact h.alive t hm
  · intro t hm
    by_cases ht : t = pcb
    · subst ht
      simpa [hmagic] using h.magic t hm
    · simpa [ht] using h.magic t hm

theorem Queued.congr (h : Queued s) (htasks : s'.tasks = s.tasks) (hcur : s'.current = s.current)
    (hidle : s'.idleThread = s.idleThread) (hready : s'.threadReadyList = s.threadReadyList)
    (hall : s'.threadAllList = s.threadAllList) : Queued s' := by
  obtain ⟨tasks, current, main, idle, ready, all, _, _, _, _, _⟩ := s'
  subst htasks hcur hidle hready hall
  exact ⟨h.1, h.2, h.3, h.4, h.5, h.6, h.7, h.8⟩

theorem wp_threadYield (h : Scheduled s) :
    wp noStop e threadYield (fun _ s' => Scheduled s' ∧ Switched s s') s := by
  have hcur := h.current_not_ready
  have hmem := h.current_mem h.current_running
  have hsleep : ¬Sleeping (s.status s.current) := h.current_running ▸ not_sleeping_running
  unfold threadYield disableIntr
  rw [wp_modify_bind, wp_get_bind]
  refine (wp_assert_pos hcur).mpr ?_
  rw [wp_modify_bind]
  have hq := h.toQueued.enqueue { s.tasks s.current with status := TaskStatus.ready } hmem hcur
    (List.perm_append_singleton _ _) rfl (h.magic _ hmem)
  refine wp_mono (wp_schedule (hq.congr rfl rfl rfl rfl rfl) rfl) ?_
  rintro ⟨⟩ s' ⟨hs', hw, -⟩
  refine ⟨hs', Switched.trans ?_ hw⟩
  constructor
  case tasks => intro t; by_cases ht : t = s.current <;> simp [ht]
  case asleep =>
    intro t _ hs
    have ht : t ≠ s.current := fun ht => hsleep (ht ▸ hs)
    simp [ht]
  case awake =>
    intro t hs
    by_cases ht : t = s.current
    · simp [ht]
    · simpa [ht] using hs
  case sleeping =>
    intro t hs
    by_cases ht : t = s.current
    · simp [ht, Sleeping] at hs
    · simp [ht]
  case dead =>
    intro t ht
    have : t ≠ s.current := fun hc => ht (hc ▸ hmem)
    simp [this]
  all_goals rfl

theorem Switched.of_eq (h : Switched s s') {r : Threads} (htasks : r.tasks = s.tasks)
    (hmain : r.mainThread = s.mainThread) (hidle : r.idleThread = s.idleThread)
    (hall : r.threadAllList = s.threadAllList) (hpages : r.pages = s.pages)
    (hpids : r.pidBitMap = s.pidBitMap) : Switched r s' := by
  obtain ⟨tasks, current, main, idle, ready, all, _, _, _, _, _⟩ := r
  subst htasks hmain hidle hall hpages hpids
  exact ⟨h.1, h.2, h.3, h.4, h.5, h.6, h.7, h.8, h.9, h.10⟩

theorem wp_intrTimerHandler (h : Scheduled s) :
    wp noStop e intrTimerHandler (fun _ s' => Scheduled s' ∧ Switched s s') s := by
  have hmem := h.current_mem h.current_running
  unfold intrTimerHandler disableIntr
  rw [wp_modify_bind, wp_get_bind]
  refine (wp_assert_pos (h.magic _ hmem)).mpr ?_
  rw [wp_modify_bind]
  -- the state in which the counters are advanced
  set r := s.setTask s.current
    { s.tasks s.current with elapsedTicks := (s.tasks s.current).elapsedTicks + 1 } with hr
  have hq : Queued r := h.toQueued.update rfl rfl
  have hw : Switched s r := .update rfl rfl
  have hrun : r.status r.current = TaskStatus.running := by
    simpa [hr] using h.current_running
  apply wp_ite
  · intro _
    refine wp_mono (wp_schedule (hq.congr rfl rfl rfl rfl rfl) rfl) ?_
    rintro ⟨⟩ s' ⟨hs', hw', -⟩
    exact ⟨hs', hw.trans (hw'.of_eq rfl rfl rfl rfl rfl rfl)⟩
  · intro _
    rw [wp_modify]
    set r' := r.setTask r.current { r.tasks r.current with ticks := (r.tasks r.current).ticks - 1 }
      with hr'
    have hq' : Queued r' := hq.update rfl rfl
    have hrun' : r'.status r'.current = TaskStatus.running := by
      simpa [hr'] using hrun
    have hw' : Switched r r' := .update rfl rfl
    exact ⟨⟨hq'.congr rfl rfl rfl rfl rfl, hrun'⟩, hw.trans
      ⟨hw'.1, rfl, rfl, rfl, rfl, rfl, hw'.7, hw'.8, hw'.9, hw'.10⟩⟩

end Operations

end Gogoos.Threads
