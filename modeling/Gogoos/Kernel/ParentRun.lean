import Gogoos.Kernel.Boot
import Gogoos.Kernel.FamilyRun

/-!
# Parents

Runs of `sysFork`, `sysExit` and `sysWait` from `threadInit` on. `main` starts one process by
`processStart`, the process of `init`, trades pids with it and ends. `initAdoptChild` gives the
children of a process that exits the pid 4 as parent, whoever has it.
-/

namespace Gogoos.Threads

open Program

variable {s s' : Threads} {e : Unit} {t pcb dir child idle : ℕ}

section System

/-- The last lines of `main` before it ends. Interrupts are off. -/
def startInit (pcb dir : ℕ) : ThreadM Unit := do
  processStart pcb dir [105, 110, 105, 116]
  swapPids

/-- The threads, the process of `init`, and the processes whose parent has exited. -/
structure Lineage where
  threads : Threads
  init : Option ℕ
  orphans : List ℕ

/-- The children of the running process. -/
def children (s : Threads) : List ℕ :=
  s.threadAllList.filter fun p => (s.tasks p).parentPid = (s.tasks s.current).pid

/-- System calls are made by processes. -/
def InProcess (s : Threads) : Prop := (s.tasks s.current).pageDir ≠ 0

variable {f g : Lineage}

/-- A thread that is made at `pcb` is no orphan. -/
def Lineage.born (f : Lineage) (th : Threads) (pcb : ℕ) : Lineage :=
  { f with threads := th, orphans := f.orphans.filter (· ≠ pcb) }

inductive LineageStep (cond : Threads → Prop) (f : Lineage) : Lineage → Prop
  | thread {op : ThreadOp} {th : Threads} (hen : op.Enabled f.threads) (hal : op.HasPage f.threads)
      (hord : Family.Ordinary f.threads op)
      (hret : Returns () (op.run f.threads) f.threads () th) :
      LineageStep cond f (match Family.newPcb op with
        | some pcb => f.born th pcb
        | none => { f with threads := th })
  | startInit {p d : ℕ} {th : Threads} (hnone : f.init = none) (hen : AtMain f.threads)
      (hnull : p ≠ 0) (hpages : ProcessPages f.threads p d)
      (hret : Returns () (startInit p d) f.threads () th) :
      LineageStep cond f { f.born th p with init := some p }
  | endMain {th : Threads} (hen : f.threads.current = f.threads.mainThread)
      (hidle : f.threads.current ≠ f.threads.idleThread)
      (hret : Returns () (threadExit f.threads.current true) f.threads () th) :
      LineageStep cond f { f with threads := th }
  | fork {got : ForkPages} {r : ℤ} {th : Threads} (hen : ProcOp.Enabled f.threads (.fork got))
      (hin : InProcess f.threads) (hnull : got.childThread ≠ 0)
      (hret : Returns () (sysFork got) f.threads r th) :
      LineageStep cond f (f.born th got.childThread)
  | exit {st : ℤ} {th : Threads} (hin : InProcess f.threads)
      (hen : f.threads.current ≠ f.threads.idleThread) (hc : cond f.threads)
      (hret : Returns () (sysExit st) f.threads () th) :
      LineageStep cond f { f with
        threads := th
        orphans := f.threads.children ++ f.orphans }
  | wait {r : WaitResult} {th : Threads} (hin : InProcess f.threads)
      (hen : f.threads.current ≠ f.threads.idleThread) (hret : Returns () sysWait f.threads r th) :
      LineageStep cond f { f with threads := th }

/-- A process that exits has no child. -/
def Childless (s : Threads) : Prop := s.children = []

/-- The state that `threadInit` leaves. -/
structure LineageStart (f : Lineage) : Prop where
  boot : ∃ s₀ idle, Boot s₀ idle ∧ Returns () (threadInit idle) s₀ () f.threads
  init : f.init = none
  orphans : f.orphans = []

structure ParentLaw (f : Lineage) : Prop where
  /-- The parent of each process is on the list. -/
  parent : ∀ t ∈ f.threads.threadAllList, (f.threads.tasks t).pageDir ≠ 0 → f.init ≠ some t →
    ∃ p ∈ f.threads.threadAllList, (f.threads.tasks p).pid = (f.threads.tasks t).parentPid
  /-- Orphans are adopted by the process of `init`. -/
  adopted : ∀ t ∈ f.threads.threadAllList, t ∈ f.orphans →
    ∃ i ∈ f.threads.threadAllList, f.init = some i ∧
      (f.threads.tasks t).parentPid = (f.threads.tasks i).pid
  /-- `sysExit` finds the parent. -/
  found : InProcess f.threads → f.init ≠ some f.threads.current →
    f.threads.pidToThread (f.threads.tasks f.threads.current).parentPid ≠ none

/-- The parent that a process has is a process that has not exited. -/
def HasParent (s : Threads) (t : ℕ) : Prop :=
  ∃ p ∈ s.threadAllList, (s.tasks p).pid = (s.tasks t).parentPid ∧
    (s.tasks p).pageDir ≠ 0 ∧ s.status p ≠ TaskStatus.hanging

/-- The invariant while `schedule` is under way. -/
structure Kinship (f : Lineage) : Prop where
  main : (f.threads.tasks f.threads.mainThread).pageDir = 0
  /-- Before `init` there is no process. -/
  none : f.init = none → ∀ t ∈ f.threads.threadAllList, (f.threads.tasks t).pageDir = 0
  init : ∀ i, f.init = some i → i ∈ f.threads.threadAllList ∧ i ≠ f.threads.mainThread ∧
    (f.threads.tasks i).parentPid = -1
  parent : ∀ t ∈ f.threads.threadAllList, (f.threads.tasks t).pageDir ≠ 0 → f.init ≠ some t →
    HasParent f.threads t
  orphans : f.orphans = []

structure LineageInv (f : Lineage) : Prop extends Kinship f where
  wf : Wf f.threads

end System

section Steps

@[simp] theorem exiting_main : (exiting s).mainThread = s.mainThread := by
  unfold exiting
  cases s.waitingParent <;> rfl

theorem exiting_pageDir : ((exiting s).tasks t).pageDir = (s.tasks t).pageDir := by
  unfold exiting
  cases s.waitingParent with
  | none => by_cases ht : t = s.current <;> simp [ht]
  | some p => by_cases ht : t = s.current <;> by_cases hp : t = p <;> simp_all [unblocked]

variable {f g : Lineage} {task : TaskStruct} {bm : BitMap} {l pages : List ℕ}

/-- No thread comes or goes, and nobody new hangs. -/
structure SameKin (s s' : Threads) : Prop where
  all : s'.threadAllList = s.threadAllList
  main : s'.mainThread = s.mainThread
  pid : ∀ t, (s'.tasks t).pid = (s.tasks t).pid
  parentPid : ∀ t, (s'.tasks t).parentPid = (s.tasks t).parentPid
  pageDir : ∀ t, (s'.tasks t).pageDir = (s.tasks t).pageDir
  hanging : ∀ t, s'.status t = TaskStatus.hanging → s.status t = TaskStatus.hanging

theorem Switched.sameKin (h : Switched s s') : SameKin s s' where
  all := h.all
  main := h.main
  pid t := by rw [h.tasks t]
  parentPid t := by rw [h.tasks t]
  pageDir t := by rw [h.tasks t]
  hanging t ht := (h.sleeping t (by simp [ht, Sleeping])).symm.trans ht

theorem SameKin.trans {s'' : Threads} (h : SameKin s s') (h' : SameKin s' s'') : SameKin s s'' where
  all := h'.all.trans h.all
  main := h'.main.trans h.main
  pid t := (h'.pid t).trans (h.pid t)
  parentPid t := (h'.parentPid t).trans (h.parentPid t)
  pageDir t := (h'.pageDir t).trans (h.pageDir t)
  hanging t ht := h.hanging t (h'.hanging t ht)

theorem sameKin_setStatus {st : ℤ} (hst : st ≠ TaskStatus.hanging) :
    SameKin s ((s.setIntr false).setStatus t st) where
  all := rfl
  main := rfl
  pid p := by by_cases hp : p = t <;> simp [hp]
  parentPid p := by by_cases hp : p = t <;> simp [hp]
  pageDir p := by by_cases hp : p = t <;> simp [hp]
  hanging p hp := by
    by_cases hpt : p = t
    · simp [hpt, hst] at hp
    · simpa [hpt] using hp

theorem Kinship.sameKin (h : Kinship f) (hk : SameKin f.threads s') :
    Kinship { f with threads := s' } where
  main := by
    change (s'.tasks s'.mainThread).pageDir = 0
    rw [hk.main, hk.pageDir]
    exact h.main
  none hn t ht := by
    rw [hk.pageDir]
    exact h.none hn t (hk.all ▸ ht)
  init i hi := by
    obtain ⟨hmem, hmain, hpar⟩ := h.init i hi
    exact ⟨hk.all ▸ hmem, hk.main ▸ hmain, (hk.parentPid i).trans hpar⟩
  parent t ht hd hne := by
    obtain ⟨p, hp, hpid, hpd, hst⟩ := h.parent t (hk.all ▸ ht) (hk.pageDir t ▸ hd) hne
    exact ⟨p, hk.all ▸ hp, by rw [hk.pid, hk.parentPid, hpid], by rw [hk.pageDir]; exact hpd,
      fun hc => hst (hk.hanging p hc)⟩
  orphans := h.orphans

/-- The state with one more thread. -/
def enlisted (s : Threads) (child : ℕ) (task : TaskStruct) (l : List ℕ) (bm : BitMap)
    (pages : List ℕ) : Threads :=
  { s with
    tasks := fun p => if p = child then task else s.tasks p
    threadReadyList := l
    threadAllList := s.threadAllList ++ [child]
    pidBitMap := bm
    pages := pages }

/-- A new thread is no process, or its parent runs. -/
theorem LineageInv.enlisted (h : LineageInv f) (hnew : child ∉ f.threads.threadAllList)
    (hmain : child ≠ f.threads.mainThread)
    (htask : task.pageDir = 0 ∨ InProcess f.threads ∧
      task.parentPid = (f.threads.tasks f.threads.current).pid) :
    Kinship (f.born (f.threads.enlisted child task l bm pages) child) := by
  have hold : ∀ t ∈ f.threads.threadAllList ++ [child], t ≠ child → t ∈ f.threads.threadAllList := by
    intro t ht hc
    simpa [hc] using ht
  have hne : ∀ t ∈ f.threads.threadAllList, t ≠ child := fun t ht hc => hnew (hc ▸ ht)
  refine ⟨?_, fun hn t ht => ?_, fun i hi => ?_, fun t ht hd hi => ?_, ?_⟩
  · simpa [Lineage.born, Threads.enlisted, hmain.symm] using h.main
  · by_cases hc : t = child
    · obtain hz | ⟨hin, -⟩ := htask
      · simpa [Lineage.born, Threads.enlisted, hc] using hz
      · exact absurd (h.none hn _ h.wf.current_mem') hin
    · simpa [Lineage.born, Threads.enlisted, hc] using h.none hn t (hold t ht hc)
  · obtain ⟨hmem, him, hpar⟩ := h.init i hi
    exact ⟨List.mem_append_left _ hmem, him, by
      simpa [Lineage.born, Threads.enlisted, hne i hmem] using hpar⟩
  · by_cases hc : t = child
    · subst hc
      obtain hz | ⟨hin, hpar⟩ := htask
      · exact absurd hz (by simpa [Lineage.born, Threads.enlisted] using hd)
      · have hcur := h.wf.current_mem'
        have hrun := h.wf.current_running
        refine ⟨f.threads.current, List.mem_append_left _ hcur, ?_, ?_, ?_⟩
        · simp [Lineage.born, Threads.enlisted, hne _ hcur, hpar]
        · have hdir : (f.threads.tasks f.threads.current).pageDir ≠ 0 := hin
          simpa [Lineage.born, Threads.enlisted, hne _ hcur] using hdir
        · have : f.threads.status f.threads.current ≠ TaskStatus.hanging := by
            rw [hrun]
            decide
          simpa [Lineage.born, Threads.enlisted, status, hne _ hcur] using this
    · obtain ⟨p, hp, hpid, hpd, hst⟩ := h.parent t (hold t ht hc)
        (by simpa [Lineage.born, Threads.enlisted, hc] using hd) hi
      refine ⟨p, List.mem_append_left _ hp, ?_, ?_, ?_⟩
      · simpa [Lineage.born, Threads.enlisted, hne p hp, hc] using hpid
      · simpa [Lineage.born, Threads.enlisted, hne p hp] using hpd
      · simpa [Lineage.born, Threads.enlisted, status, hne p hp] using hst
  · simp [Lineage.born, h.orphans]

/-- A thread that is nobody's parent is taken off the lists. -/
theorem LineageInv.exited (h : LineageInv f) (hinit : f.init ≠ some t)
    (hover : f.threads.status t = TaskStatus.hanging ∨ (f.threads.tasks t).pageDir = 0) :
    Kinship { f with threads := exited f.threads t } := by
  have hall := h.wf.all_nodup
  refine ⟨?_, fun hn p hp => ?_, fun i hi => ?_, fun p hp hd hi => ?_, h.orphans⟩
  · by_cases hm : f.threads.mainThread = t
    · simpa [Threads.exited, hm] using hm ▸ h.main
    · simpa [Threads.exited, hm] using h.main
  · obtain ⟨hpt, hp⟩ := hall.mem_erase_iff.mp hp
    simpa [Threads.exited, hpt] using h.none hn p hp
  · obtain ⟨hmem, him, hpar⟩ := h.init i hi
    have hit : i ≠ t := by
      rintro rfl
      exact hinit hi
    exact ⟨(List.mem_erase_of_ne hit).mpr hmem, him, by simpa [Threads.exited, hit] using hpar⟩
  · obtain ⟨hpt, hp⟩ := hall.mem_erase_iff.mp hp
    obtain ⟨q, hq, hpid, hqd, hst⟩ := h.parent p hp
      (by simpa [Threads.exited, hpt] using hd) hi
    have hqt : q ≠ t := by
      rintro rfl
      exact hover.elim hst hqd
    exact ⟨q, (List.mem_erase_of_ne hqt).mpr hq, by simpa [Threads.exited, hqt, hpt] using hpid,
      by simpa [Threads.exited, hqt] using hqd, by simpa [Threads.exited, status, hqt] using hst⟩

theorem lineageInv_thread {op : ThreadOp} {th : Threads} (h : LineageInv f)
    (hen : op.Enabled f.threads) (hal : op.HasPage f.threads) (hord : Family.Ordinary f.threads op)
    (hret : Returns () (op.run f.threads) f.threads () th) :
    LineageInv (match Family.newPcb op with
      | some pcb => f.born th pcb
      | none => { f with threads := th }) := by
  have hwf : Wf th := (hret.of_wp (wp_threadOp h.wf hen hal)).1
  cases op with
  | start pcb name priority =>
    have hpcb : pcb ∉ f.threads.threadAllList := fun hm => hen.1 (h.wf.held pcb hm hen.2)
    have hw : wp noStop () (threadStart pcb name priority) (fun _ th => ∃ pid bm pages,
        th = f.threads.enlisted pcb (freshTask name priority pid)
          (f.threads.threadReadyList ++ [pcb]) bm pages) f.threads := by
      apply wp_threadStart (fun hm => hpcb ((h.wf.ready_iff pcb).mp hm).1) hpcb
      exact fun pid bm _ => ⟨pid, bm, _, rfl⟩
    obtain ⟨pid, bm, pages, rfl⟩ := hret.of_wp hw
    exact ⟨h.enlisted hpcb hen.2 (.inl rfl), hwf⟩
  | tick => exact ⟨h.sameKin (hret.of_wp (wp_intrTimerHandler h.wf.toScheduled)).2.sameKin, hwf⟩
  | yield => exact ⟨h.sameKin (hret.of_wp (wp_threadYield h.wf.toScheduled)).2.sameKin, hwf⟩
  | block st =>
    obtain rfl : st = TaskStatus.blocked := hord
    obtain ⟨-, hw, -⟩ := hret.of_wp (wp_threadBlock h.wf.toScheduled hen)
    exact ⟨h.sameKin ((sameKin_setStatus (by decide)).trans hw.sameKin), hwf⟩
  | unblock pcb =>
    have hw : wp noStop () (threadUnblock pcb) (fun _ th => th = f.threads.unblocked pcb)
        f.threads := wp_threadUnblock h.wf.toQueued hen.2 rfl
    obtain rfl := hret.of_wp hw
    have hk : SameKin f.threads ((f.threads.setIntr false).setStatus pcb TaskStatus.ready) :=
      sameKin_setStatus (by decide)
    exact ⟨h.sameKin ⟨hk.all, hk.main, hk.pid, hk.parentPid, hk.pageDir, hk.hanging⟩, hwf⟩
  | exitCurrent => exact hord.elim
  | exitAsleep p => exact hord.elim

theorem lineageInv_startInit {p d : ℕ} {th : Threads} (h : LineageInv f) (hnone : f.init = none)
    (hen : AtMain f.threads) (hnull : p ≠ 0) (hpages : ProcessPages f.threads p d)
    (hret : Returns () (startInit p d) f.threads () th) :
    LineageInv { f.born th p with init := some p } := by
  have hp := h.wf.not_mem_of_fresh hpages.1
  have hcp : f.threads.current ≠ p := fun hc => hp (hc ▸ h.wf.current_mem')
  have hmp : f.threads.mainThread ≠ p := Ne.symm hpages.1.2
  have hw : wp anyStop () (startInit p d)
      (fun _ th => LineageInv { f.born th p with init := some p }) f.threads := by
    unfold startInit
    apply wp_bind
    apply wp_of_noStop
    apply wp_processStart h.wf hpages hnull
    intro pid bm hpid
    set r := processStarted f.threads p d [105, 110, 105, 116] pid bm with hr
    have hwr : Wf r := h.wf.processStarted hpages hpid.nonneg
    have hat : AtMain r := ⟨hen.1, by simpa [hr, processStarted, hcp] using hen.2⟩
    apply wp_swapPids hat
    intro i hi _ hne
    have htasks := fun t => pidsSwapped_tasks (t := t) hne
    have hold : ∀ t ∈ f.threads.threadAllList ++ [p], t ≠ p → t ∈ f.threads.threadAllList := by
      intro t ht hc
      simpa [hc] using ht
    refine ⟨⟨?_, fun hc => by simp at hc, ?_, ?_, ?_⟩, hwr.pidsSwapped hne⟩
    · change ((r.pidsSwapped i).tasks f.threads.mainThread).pageDir = 0
      rw [htasks]
      simpa [hr, processStarted, hmp] using h.main
    · rintro _ ⟨⟩
      refine ⟨List.mem_append_right _ (List.mem_singleton_self p), hpages.1.2, ?_⟩
      change ((r.pidsSwapped i).tasks p).parentPid = -1
      rw [htasks]
      simp [hr, processStarted, processTask, freshTask]
    · intro t ht hd hc
      have htp : t ≠ p := fun he => hc (congrArg some he.symm)
      change ((r.pidsSwapped i).tasks t).pageDir ≠ 0 at hd
      rw [htasks] at hd
      have hz := h.none hnone t (hold t ht htp)
      exact absurd hz (by simpa [hr, processStarted, htp] using hd)
    · simp [Lineage.born, h.orphans]
  exact hret.of_wp hw

theorem lineageInv_endMain {th : Threads} (h : LineageInv f)
    (hen : f.threads.current = f.threads.mainThread)
    (hidle : f.threads.current ≠ f.threads.idleThread)
    (hret : Returns () (threadExit f.threads.current true) f.threads () th) :
    LineageInv { f with threads := th } := by
  have hwf : Wf th := (Returns.of_wp hret (@wp_threadOp _ _ .exitCurrent h.wf hidle hen)).1
  have hmem := h.wf.current_mem'
  have hq := h.wf.toQueued.exit hidle
  have hw : wp noStop () (threadExit f.threads.current true)
      (fun _ th => Switched (exited f.threads f.threads.current) th) f.threads := by
    apply wp_threadExit (h.wf.toPaged.ends hmem hmem fun hne => absurd hen hne)
    exact wp_mono (wp_schedule hq rfl) fun _ _ hr => hr.2.1
  have hsw := hret.of_wp hw
  have hdir : (f.threads.tasks f.threads.current).pageDir = 0 := hen ▸ h.main
  have hinit : f.init ≠ some f.threads.current := fun hc => (h.init _ hc).2.1 hen
  exact ⟨(h.exited hinit (.inr hdir)).sameKin hsw.sameKin, hwf⟩

theorem lineageInv_fork {got : ForkPages} {r : ℤ} {th : Threads} (h : LineageInv f)
    (hen : ProcOp.Enabled f.threads (.fork got)) (hin : InProcess f.threads)
    (hnull : got.childThread ≠ 0) (hret : Returns () (sysFork got) f.threads r th) :
    LineageInv (f.born th got.childThread) := by
  have hnot := h.wf.not_mem_of_fresh (hen.1 hnull)
  set c := got.childThread with hchild
  have hw : wp anyStop () (sysFork got) (fun _ th => LineageInv (f.born th c)) f.threads := by
    apply wp_sysFork
    · exact fun h0 => absurd h0 hnull
    · intro _ _
      refine ⟨⟨h.main, h.none, h.init, h.parent, ?_⟩, h.wf.pageTaken (hen.1 hnull)⟩
      simp [Lineage.born, h.orphans]
    · intro _ _ pid bm task _ _
      rw [← hchild]
      have hne : ∀ t ∈ f.threads.threadAllList, t ≠ c := fun t ht he => hnot (he ▸ ht)
      have hmain : f.threads.mainThread ≠ c := Ne.symm (hen.1 hnull).2
      refine ⟨⟨?_, fun hn t ht => ?_, fun i hi => ?_, fun t ht hd hi => ?_, ?_⟩,
        h.wf.offList (hen.1 hnull)⟩
      · simpa [Lineage.born, forkFailed, hmain] using h.main
      · simpa [Lineage.born, forkFailed, hne t ht] using h.none hn t ht
      · obtain ⟨hmem, him, hpar⟩ := h.init i hi
        exact ⟨hmem, him, by simpa [Lineage.born, forkFailed, hne i hmem] using hpar⟩
      · obtain ⟨p, hp, hpid, hpd, hst⟩ := h.parent t ht
          (by simpa [Lineage.born, forkFailed, hne t ht] using hd) hi
        exact ⟨p, hp, by simpa [Lineage.born, forkFailed, hne t ht, hne p hp] using hpid,
          by simpa [Lineage.born, forkFailed, hne p hp] using hpd,
          by simpa [Lineage.born, forkFailed, status, hne p hp] using hst⟩
      · simp [Lineage.born, h.orphans]
    · intro _ _ hd pid bm hpid
      exact ⟨h.enlisted hnot (hen.1 hnull).2 (.inr ⟨hin, rfl⟩),
        h.wf.forked (hen.1 hnull) (hen.2 hd).1 (hen.2 hd).2 rfl
          (h.wf.magic _ h.wf.current_mem') rfl hpid.nonneg⟩
  exact hret.of_wp hw

/-- `sysExit` without children changes the statuses of two threads. -/
theorem lineageInv_exit {st : ℤ} {th : Threads} (h : LineageInv f)
    (hen : f.threads.current ≠ f.threads.idleThread) (hc : Childless f.threads)
    (hret : Returns () (sysExit st) f.threads () th) :
    LineageInv { f with threads := th, orphans := f.threads.children ++ f.orphans } := by
  have hwf : Wf th := (hret.of_wp (wp_procOp (.exit st) h.wf hen)).1
  have hw : wp anyStop () (sysExit st) (fun _ th => Switched (exiting f.threads) th) f.threads :=
    wp_sysExit h.wf fun _ _ hw => hw
  have hsw := hret.of_wp hw
  have hno : ∀ t ∈ f.threads.threadAllList,
      (f.threads.tasks t).parentPid ≠ (f.threads.tasks f.threads.current).pid := by
    intro t ht hp
    have : t ∈ f.threads.children := List.mem_filter.mpr ⟨ht, by simpa using hp⟩
    rw [show f.threads.children = [] from hc] at this
    exact absurd this List.not_mem_nil
  -- nobody is adopted
  have hpar : ∀ t, ((exiting f.threads).tasks t).parentPid = (f.threads.tasks t).parentPid := by
    intro t
    rw [exiting_parentPid]
    unfold adopted
    dsimp only
    rw [if_neg fun hx => hno t hx.1 hx.2]
  have hdir : ∀ t, ((exiting f.threads).tasks t).pageDir = (f.threads.tasks t).pageDir :=
    fun t => exiting_pageDir
  have hkin : Kinship { f with threads := exiting f.threads } := by
    refine ⟨?_, fun hn t ht => ?_, fun i hi => ?_, fun t ht hd hi => ?_, h.orphans⟩
    · change ((exiting f.threads).tasks (exiting f.threads).mainThread).pageDir = 0
      rw [exiting_main, hdir]
      exact h.main
    · rw [hdir]
      exact h.none hn t (exiting_all ▸ ht)
    · obtain ⟨hmem, him, hp⟩ := h.init i hi
      exact ⟨exiting_all.symm ▸ hmem, exiting_main.symm ▸ him, (hpar i).trans hp⟩
    · have ht' : t ∈ f.threads.threadAllList := exiting_all ▸ ht
      obtain ⟨p, hp, hpid, hpd, hst⟩ := h.parent t ht' (hdir t ▸ hd) hi
      refine ⟨p, exiting_all.symm ▸ hp, by rw [hpar]; exact exiting_pid.trans hpid,
        by rw [hdir]; exact hpd, ?_⟩
      have hpc : p ≠ f.threads.current := by
        rintro rfl
        exact hno t ht' hpid.symm
      change (exiting f.threads).status p ≠ _
      rw [exiting_status, if_neg hpc]
      split_ifs
      · decide
      · exact hst
  refine ⟨?_, hwf⟩
  rw [show f.threads.children = [] from hc]
  exact hkin.sameKin hsw.sameKin

theorem lineageInv_wait {r : WaitResult} {th : Threads} (h : LineageInv f)
    (hret : Returns () sysWait f.threads r th) : LineageInv { f with threads := th } := by
  have hpid : (f.threads.tasks f.threads.current).pid ≠ -1 := by
    have := h.wf.nonneg _ h.wf.current_mem'
    omega
  have hw : wp noStop () sysWait (fun _ th => LineageInv { f with threads := th }) f.threads := by
    apply wp_sysWait h.wf
    · intro c hf
      obtain ⟨-, hppid, hst⟩ := findHangingChild_mem hf
      refine ⟨h.exited (fun hc => hpid ?_) (.inl hst), h.wf.reaped hf⟩
      rw [← hppid]
      exact (h.init c hc).2.2
    · exact fun _ _ => h
    · intro _ _ s' hs hw
      exact ⟨h.sameKin ((sameKin_setStatus (by decide)).trans hw.sameKin),
        .mk' hs (h.wf.toPaged.setStatus.switched hw) (h.wf.toNamed.setStatus.switched hw)⟩
  exact hret.of_wp hw

theorem LineageInv.step (h : LineageInv f) (hst : LineageStep Childless f g) : LineageInv g := by
  cases hst with
  | thread hen hal hord hret => exact lineageInv_thread h hen hal hord hret
  | startInit hnone hen hnull hpages hret => exact lineageInv_startInit h hnone hen hnull hpages hret
  | endMain hen hidle hret => exact lineageInv_endMain h hen hidle hret
  | fork hen hin hnull hret => exact lineageInv_fork h hen hin hnull hret
  | exit _ hen hc hret => exact lineageInv_exit h hen hc hret
  | wait _ _ hret => exact lineageInv_wait h hret

end Steps

section Law

variable {f g : Lineage}

/-- After `threadInit` there are two kernel threads. -/
theorem wp_threadInit_dirs {s : Threads} (h : Boot s idle) :
    wp noStop e (threadInit idle)
      (fun _ s' => (∀ t ∈ s'.threadAllList, (s'.tasks t).pageDir = 0) ∧
        s'.mainThread ∈ s'.threadAllList) s := by
  unfold threadInit makeMainThread
  rw [wp_modify_bind]
  apply wp_bind
  apply wp_bind
  apply wp_allocatePid
  intro pid bm _
  rw [wp_modify_bind, wp_get_bind]
  refine (wp_assert_pos List.not_mem_nil).mpr ?_
  rw [wp_modify]
  apply wp_bind
  apply wp_threadStart (by simp) (by simpa using h.idle_main)
  intro pid' bm' _
  rw [wp_modify]
  refine ⟨fun t ht => ?_, by simp⟩
  by_cases hi : t = idle
  · simp [hi, freshTask]
  · have hc : t = s.current := by simpa [hi] using ht
    simp [hc, h.idle_main.symm, freshTask]

theorem LineageStart.inv (h : LineageStart f) : LineageInv f := by
  obtain ⟨s₀, idle, hboot, hret⟩ := h.boot
  obtain ⟨hdirs, hmain⟩ := hret.of_wp (wp_threadInit_dirs hboot)
  exact ⟨⟨hdirs _ hmain, fun _ => hdirs, fun i hi => by simp [h.init] at hi,
    fun t ht hd => absurd (hdirs t ht) hd, h.orphans⟩, hret.of_wp (wp_threadInit hboot)⟩

theorem LineageInv.law (h : LineageInv f) : ParentLaw f := by
  refine ⟨fun t ht hd hi => ?_, fun t _ ho => ?_, fun hin hi hnone => ?_⟩
  · obtain ⟨p, hp, hpid, -⟩ := h.parent t ht hd hi
    exact ⟨p, hp, hpid⟩
  · rw [h.orphans] at ho
    exact absurd ho List.not_mem_nil
  · obtain ⟨p, hp, hpid, -⟩ := h.parent _ h.wf.current_mem' hin hi
    unfold pidToThread at hnone
    exact absurd hpid (by simpa using List.find?_eq_none.mp hnone p hp)

/-- In every state of a run. -/
theorem parent_law (h : Run (LineageStep Childless) f g) (hs : LineageStart f) : ParentLaw g :=
  (h.invariant (I := LineageInv) (fun _ _ hI hst => hI.step hst) hs.inv).law

/-- After `threadInit`. -/
def startLineage : Lineage := ⟨initThreads, none, []⟩

theorem startLineage_start : LineageStart startLineage :=
  ⟨⟨_, _, bootThreads_boot, initThreads_returns⟩, rfl, rfl⟩

/-- `main` has started the process of `init`. -/
def initStarted : Lineage :=
  { startLineage.born (startInit 0xc0101000 0xc0102000 () 0 startLineage.threads).state 0xc0101000
    with init := some 0xc0101000 }

def mainOver : Lineage :=
  { initStarted with threads := (threadExit 0xc009e000 true () 0 initStarted.threads).state }

/-- The idle thread lets the process of `init` run. -/
def initAwake : Lineage :=
  { mainOver with threads := (threadBlock TaskStatus.blocked () 0 mainOver.threads).state }

/-- It has a child. -/
def firstChild : Lineage :=
  initAwake.born (sysFork forkPages () 0 initAwake.threads).state 0xc0103000

/-- It waits, and the child runs. -/
def childRuns : Lineage := { firstChild with threads := (sysWait () 0 firstChild.threads).state }

theorem childRuns_run {cond : Threads → Prop} : Run (LineageStep cond) startLineage childRuns := by
  have h₁ : LineageStep cond startLineage initStarted :=
    @LineageStep.startInit _ _ 0xc0101000 0xc0102000 _ rfl ⟨by decide, by decide⟩ (by decide)
      ⟨⟨by decide, by decide⟩, fun _ => ⟨⟨by decide, by decide⟩, by decide⟩⟩ ⟨0, 0, by rfl⟩
  have h₂ : LineageStep cond initStarted mainOver := .endMain (by decide) (by decide) ⟨0, 0, by rfl⟩
  have h₃ : LineageStep cond mainOver initAwake :=
    @LineageStep.thread _ _ (.block TaskStatus.blocked) _ (.inl rfl) trivial rfl ⟨0, 0, by rfl⟩
  have h₄ : LineageStep cond initAwake firstChild :=
    @LineageStep.fork _ _ forkPages 3 _
      ⟨fun _ => ⟨by decide, by decide⟩, fun _ => ⟨⟨by decide, by decide⟩, by decide⟩⟩
      (show _ ≠ 0 by decide) (by decide) ⟨0, 0, by rfl⟩
  have h₅ : LineageStep cond firstChild childRuns :=
    .wait (r := .blocked) (show _ ≠ 0 by decide) (by decide) ⟨0, 0, by rfl⟩
  exact ((((Relation.ReflTransGen.single h₁).tail h₂).tail h₃).tail h₄).tail h₅

/-- The running process has called `sysExit(0)`. -/
def Lineage.exitRunning (f : Lineage) : Lineage :=
  { f with
    threads := (sysExit 0 () 0 f.threads).state
    orphans := f.threads.children ++ f.orphans }

/-- The child exits. -/
theorem parent_law_sample : Run (LineageStep Childless) startLineage childRuns.exitRunning ∧
    ParentLaw childRuns.exitRunning := by
  have h : LineageStep Childless childRuns childRuns.exitRunning :=
    .exit (show _ ≠ 0 by decide) (by decide) (show _ = [] by decide) ⟨0, 0, by rfl⟩
  have hrun := childRuns_run.tail h
  exact ⟨hrun, parent_law hrun startLineage_start⟩

def morePages : ForkPages := ⟨0xc0105000, 0xc0107000, 0xc0109000, 0xc0106000⟩

/-- The child has a child of its own. -/
def grandchild : Lineage :=
  childRuns.born (sysFork morePages () 0 childRuns.threads).state 0xc0105000

/-- The child exits, and the grandchild gets its own pid as parent: the process of `init` has
the pid 1. -/
theorem parent_law_fails :
    Run (LineageStep fun _ => True) startLineage grandchild.exitRunning ∧
      (grandchild.exitRunning.threads.tasks 0xc0101000).pid = 1 ∧
      (grandchild.exitRunning.threads.tasks 0xc0105000).parentPid = 4 ∧
      ¬ParentLaw grandchild.exitRunning := by
  have h₆ : LineageStep (fun _ => True) childRuns grandchild :=
    @LineageStep.fork _ _ morePages 4 _
      ⟨fun _ => ⟨by decide, by decide⟩, fun _ => ⟨⟨by decide, by decide⟩, by decide⟩⟩
      (show _ ≠ 0 by decide) (by decide) ⟨0, 0, by rfl⟩
  have h₇ : LineageStep (fun _ => True) grandchild grandchild.exitRunning :=
    .exit (show _ ≠ 0 by decide) (by decide) trivial ⟨0, 0, by rfl⟩
  have hparent : (grandchild.exitRunning.threads.tasks 0xc0105000).parentPid = 4 := by decide
  refine ⟨(childRuns_run.tail h₆).tail h₇, by decide, hparent, fun hlaw => ?_⟩
  obtain ⟨i, -, hi, hpid⟩ := hlaw.adopted 0xc0105000 (by decide) (by decide)
  obtain rfl : 0xc0101000 = i := Option.some.inj hi
  rw [hparent] at hpid
  exact absurd hpid (by decide)

end Law

end Gogoos.Threads
