import Gogoos.Kernel.Family
import Gogoos.Kernel.WaiterRun
import Gogoos.Logic.Run

/-!
# The exit and wait protocol

Runs of `sysFork`, `sysExit` and `sysWait`, with timer ticks, sleeping on other things and new
kernel threads in between. For each PCB the run remembers with which argument its process
exited and how often it was reaped since it was made. The status of a process and the argument
of `sysExit` share one field, so what `sysWait` stores is `TASK_HANGING` whatever the argument
was.
-/

namespace Gogoos.Threads

open Program

variable {s s' : Threads} {e : Unit} {t child dir : ℕ}

/-- The threads with the memory of a run. -/
structure Family where
  threads : Threads
  exitStatus : ℕ → Option ℤ
  reaps : ℕ → ℕ

inductive FamilyEvent where
  | thread (op : ThreadOp)
  | fork (got : ForkPages)
  | exit (status : ℤ)
  | wait

namespace Family

variable {f g : Family}

section System

/-- A process that is made at `pcb` has no history. -/
def born (f : Family) (th : Threads) (pcb : ℕ) : Family where
  threads := th
  exitStatus p := if p = pcb then none else f.exitStatus p
  reaps p := if p = pcb then 0 else f.reaps p

/-- The PCB that an operation makes. -/
def newPcb : ThreadOp → Option ℕ
  | .start pcb _ _ => some pcb
  | _ => none

/-- What the threads may do besides the three calls: they are interrupted, yield, sleep on
something else and are woken, and start kernel threads. -/
def Ordinary (s : Threads) : ThreadOp → Prop
  | .start _ _ _ | .tick | .yield => True
  | .block status => status = TaskStatus.blocked
  | .unblock pcb => s.status pcb = TaskStatus.blocked
  | .exitCurrent | .exitAsleep _ => False

/-- What a call of `sysWait` adds to the memory. -/
def waited (f : Family) (th : Threads) : WaitResult → Family
  | .reaped _ _ =>
    match f.threads.findHangingChild (f.threads.tasks f.threads.current).pid with
    | some c =>
      { f with threads := th, reaps := fun p => if p = c then f.reaps p + 1 else f.reaps p }
    | none => { f with threads := th }
  | .noChild | .blocked => { f with threads := th }

inductive Step (cond : Threads → FamilyEvent → Prop) (f : Family) : Family → Prop
  | thread {op : ThreadOp} {th : Threads} (hen : op.Enabled f.threads) (hal : op.HasPage f.threads)
      (hord : Ordinary f.threads op) (hc : cond f.threads (.thread op))
      (hret : Returns () (op.run f.threads) f.threads () th) :
      Step cond f (match newPcb op with
        | some pcb => f.born th pcb
        | none => { f with threads := th })
  | fork {got : ForkPages} {r : ℤ} {th : Threads} (hen : ProcOp.Enabled f.threads (.fork got))
      (hnull : got.childThread ≠ 0) (hc : cond f.threads (.fork got))
      (hret : Returns () (sysFork got) f.threads r th) : Step cond f (f.born th got.childThread)
  | exit {st : ℤ} {th : Threads} (hen : f.threads.current ≠ f.threads.idleThread)
      (hc : cond f.threads (.exit st)) (hret : Returns () (sysExit st) f.threads () th) :
      Step cond f { f with
        threads := th
        exitStatus := fun p => if p = f.threads.current then some st else f.exitStatus p }
  | wait {r : WaitResult} {th : Threads} (_ : f.threads.current ≠ f.threads.idleThread)
      (hc : cond f.threads .wait) (hret : Returns () sysWait f.threads r th) :
      Step cond f (f.waited th r)

/-- A new thread finds a pid, and a process that exits leaves no hanging child to a process that
sleeps in `sysWait`, other than its own parent. -/
def Orderly (s : Threads) : FamilyEvent → Prop
  | .thread (.start _ _ _) | .fork _ => bitMapScan s.pidBitMap 1 ≠ none
  | .thread _ | .wait => True
  | .exit _ => ∀ c ∈ s.threadAllList, (s.tasks c).parentPid = (s.tasks s.current).pid →
      s.status c = TaskStatus.hanging → ∀ p ∈ s.threadAllList, (s.tasks p).pid = 4 →
      s.status p = TaskStatus.waiting → s.exitParentPid = 4

/-- Besides, every process exits with the number of `TASK_HANGING`. -/
def Faithful (s : Threads) : FamilyEvent → Prop
  | .exit status => Orderly s (.exit status) ∧ status = TaskStatus.hanging
  | ev => Orderly s ev

/-- Threads that run side by side, none of which has exited or waits for a child. -/
structure Start (f : Family) : Prop where
  wf : Wf f.threads
  pids : Pids f.threads
  awake : ∀ t ∈ f.threads.threadAllList, f.threads.status t ≠ TaskStatus.hanging ∧
    f.threads.status t ≠ TaskStatus.waiting
  exitStatus : ∀ t, f.exitStatus t = none
  reaps : ∀ t, f.reaps t = 0

structure FamilyLaw (f : Family) : Prop where
  once : ∀ t, f.reaps t ≤ 1
  /-- A call that reaps a child takes one that has exited and was not reaped, and gives its pid
  and the argument of its `sysExit`. -/
  reap : ∀ v q th, Returns () sysWait f.threads (.reaped v q) th →
    ∃ c ∈ f.threads.threadAllList,
      (f.threads.tasks c).parentPid = (f.threads.tasks f.threads.current).pid ∧
      f.reaps c = 0 ∧ q = (f.threads.tasks c).pid ∧ f.exitStatus c = some v ∧
      c ∉ th.threadAllList
  noChild : ∀ th, Returns () sysWait f.threads .noChild th →
    ∀ c ∈ f.threads.threadAllList,
      (f.threads.tasks c).parentPid ≠ (f.threads.tasks f.threads.current).pid
  peace : ∀ p ∈ f.threads.threadAllList, f.threads.status p = TaskStatus.waiting →
    ∀ c ∈ f.threads.threadAllList, (f.threads.tasks c).parentPid = (f.threads.tasks p).pid →
      f.threads.status c ≠ TaskStatus.hanging

structure Inv (f : Family) : Prop where
  wf : Wf f.threads
  pids : Pids f.threads
  peace : Peace f.threads
  memory : Remembered f.threads f.exitStatus f.reaps

end System

section Steps

/-- The parts of the invariant besides `Wf`, for one operation of a thread. -/
theorem inv_thread {op : ThreadOp} {th : Threads} (h : Inv f) (hen : op.Enabled f.threads)
    (hal : op.HasPage f.threads) (hord : Ordinary f.threads op) (hc : Orderly f.threads (.thread op))
    (hret : Returns () (op.run f.threads) f.threads () th) :
    Inv (match newPcb op with
      | some pcb => f.born th pcb
      | none => { f with threads := th }) := by
  have hwf : Wf th := (hret.of_wp (wp_threadOp h.wf hen hal)).1
  have hcur := h.wf.current_running
  -- an operation that ends in a switch
  have hswitched : ∀ r : Threads, Pids r → Peace r → Remembered r f.exitStatus f.reaps →
      Switched r th → Inv { f with threads := th } := fun r hp hpe hm hw =>
    ⟨hwf, hp.congr hw.all hw.pids fun t => by rw [hw.tasks t], hpe.quiet hw.quiet, hm.switched hw⟩
  cases op with
  | start pcb name priority =>
    have hpcb : pcb ∉ f.threads.threadAllList := fun hm => hen.1 (h.wf.held pcb hm hen.2)
    have hw : wp noStop () (threadStart pcb name priority)
        (fun _ th => Pids th ∧ Peace th ∧ Remembered th (f.born th pcb).exitStatus
          (f.born th pcb).reaps) f.threads := by
      apply wp_threadStart (fun hm => hpcb ((h.wf.ready_iff pcb).mp hm).1) hpcb
      intro pid bm hpid
      exact ⟨h.pids.taken hpid hc, h.peace.enlist rfl, h.memory.enlist rfl⟩
    obtain ⟨hp, hpe, hm⟩ := hret.of_wp hw
    exact ⟨hwf, hp, hpe, hm⟩
  | tick =>
    obtain ⟨-, hw⟩ := hret.of_wp (wp_intrTimerHandler h.wf.toScheduled)
    exact hswitched f.threads h.pids h.peace h.memory hw
  | yield =>
    obtain ⟨-, hw⟩ := hret.of_wp (wp_threadYield h.wf.toScheduled)
    exact hswitched f.threads h.pids h.peace h.memory hw
  | block st =>
    obtain rfl : st = TaskStatus.blocked := hord
    obtain ⟨-, hw, -⟩ := hret.of_wp (wp_threadBlock h.wf.toScheduled hen)
    have hp : Pids ((f.threads.setIntr false).setStatus f.threads.current TaskStatus.blocked) := by
      refine h.pids.congr rfl rfl fun t => ?_
      by_cases ht : t = f.threads.current <;> simp [ht]
    have hm : Remembered ((f.threads.setIntr false).setStatus f.threads.current
        TaskStatus.blocked) f.exitStatus f.reaps :=
      h.memory.setStatus (by rw [hcur]; decide) (by decide)
    exact hswitched _ hp (h.peace.quiet (quiet_setStatus (by decide) (by decide))) hm hw
  | unblock pcb =>
    have hst : f.threads.status pcb = TaskStatus.blocked := hord
    have hw : wp noStop () (threadUnblock pcb) (fun _ th => th = f.threads.unblocked pcb)
        f.threads := wp_threadUnblock h.wf.toQueued hen.2 rfl
    obtain rfl := hret.of_wp hw
    have hm : Remembered ((f.threads.setIntr false).setStatus pcb TaskStatus.ready)
        f.exitStatus f.reaps := h.memory.setStatus (by rw [hst]; decide) (by decide)
    have hpe : Peace ((f.threads.setIntr false).setStatus pcb TaskStatus.ready) :=
      h.peace.quiet (quiet_setStatus (by decide) (by decide))
    have hp : Pids (f.threads.unblocked pcb) := by
      refine h.pids.congr rfl rfl fun t => ?_
      by_cases ht : t = pcb <;> simp [Threads.unblocked, ht]
    exact ⟨hwf, hp, hpe, ⟨hm.hung, hm.stays, hm.fresh, hm.once⟩⟩
  | exitCurrent => exact hord.elim
  | exitAsleep p => exact hord.elim

theorem inv_fork {got : ForkPages} {r : ℤ} {th : Threads} (h : Inv f)
    (hen : ProcOp.Enabled f.threads (.fork got)) (hnull : got.childThread ≠ 0)
    (hc : bitMapScan f.threads.pidBitMap 1 ≠ none)
    (hret : Returns () (sysFork got) f.threads r th) : Inv (f.born th got.childThread) := by
  have hnot := h.wf.not_mem_of_fresh (hen.1 hnull)
  have hmagic := h.wf.magic _ h.wf.current_mem'
  set c := got.childThread with hchild
  have hw : wp anyStop () (sysFork got) (fun _ th => Inv (f.born th c)) f.threads := by
    apply wp_sysFork
    · exact fun h0 => absurd h0 hnull
    · intro _ _
      exact ⟨h.wf.pageTaken (hen.1 hnull), h.pids.congr rfl rfl fun _ => rfl,
        h.peace.quiet ⟨fun t ht => ⟨ht, rfl, rfl⟩, fun _ ht => ht, fun _ ht => ht⟩,
        h.memory.pageTaken hnot⟩
    · intro _ _ pid bm task hpid horphan
      have hstatus : task.status = TaskStatus.ready := by
        obtain ⟨-, rfl⟩ | ⟨-, rfl⟩ := horphan <;> rfl
      rw [← hchild]
      refine ⟨h.wf.offList (hen.1 hnull), ?_, h.peace.quiet ⟨fun t ht => ?_, ?_, ?_⟩,
        h.memory.offList hnot⟩
      · obtain ⟨i, hscan, hi, rfl⟩ := hpid.resolve_left fun hz => hc hz.1
        refine ⟨h.pids.length, fun t ht => ?_, fun t ht p hp heq => ?_⟩
        · have htc : t ≠ c := fun he => hnot (he ▸ ht)
          obtain ⟨j, hj, hlt, hset⟩ := h.pids.marked t ht
          exact ⟨j, by simpa [born, forkFailed, htc] using hj, hlt, by
            simp [born, forkFailed, bitMapSet_bit, hset]⟩
        · have htc : t ≠ c := fun he => hnot (he ▸ ht)
          have hpc : p ≠ c := fun he => hnot (he ▸ hp)
          exact h.pids.inj t ht p hp (by simpa [born, forkFailed, htc, hpc] using heq)
      · have htc : t ≠ c := fun he => hnot (he ▸ ht)
        exact ⟨ht, by simp [born, forkFailed, htc], by simp [born, forkFailed, htc]⟩
      · intro t ht
        by_cases htc : t = c
        · simp [born, forkFailed, status, hstatus, htc] at ht
        · simpa [born, forkFailed, status, htc] using ht
      · intro t ht
        by_cases htc : t = c
        · simp [born, forkFailed, status, hstatus, htc] at ht
        · simpa [born, forkFailed, status, htc] using ht
    · intro _ _ hd pid bm hpid
      exact ⟨h.wf.forked (hen.1 hnull) (hen.2 hd).1 (hen.2 hd).2 rfl hmagic rfl hpid.nonneg,
        h.pids.taken hpid hc, h.peace.enlist rfl, h.memory.enlist rfl⟩
  exact hret.of_wp hw

theorem inv_exit {st : ℤ} {th : Threads} (h : Inv f)
    (hen : f.threads.current ≠ f.threads.idleThread) (hc : Orderly f.threads (.exit st))
    (hret : Returns () (sysExit st) f.threads () th) :
    Inv { f with
      threads := th
      exitStatus := fun p => if p = f.threads.current then some st else f.exitStatus p } := by
  have hwf : Wf th := (hret.of_wp (wp_procOp (.exit st) h.wf hen)).1
  have hw : wp anyStop () (sysExit st) (fun _ th => Switched (exiting f.threads) th) f.threads :=
    wp_sysExit h.wf fun _ _ hw => hw
  have hw := hret.of_wp hw
  have hpids : Pids (exiting f.threads) :=
    h.pids.congr exiting_all exiting_pidBitMap fun _ => exiting_pid
  exact ⟨hwf, hpids.congr hw.all hw.pids fun t => by rw [hw.tasks t],
    (h.peace.exiting h.pids hc).quiet hw.quiet, (h.memory.exiting hen).switched hw⟩

theorem inv_wait {r : WaitResult} {th : Threads} (h : Inv f)
    (hret : Returns () sysWait f.threads r th) : Inv (f.waited th r) := by
  have hcur := h.wf.current_running
  have hw : wp noStop () sysWait (fun r th => Inv (f.waited th r)) f.threads := by
    apply wp_sysWait h.wf
    · intro c hf
      obtain ⟨hcm, -, -⟩ := findHangingChild_mem hf
      simp only [waited, hf]
      exact ⟨h.wf.reaped hf, h.pids.exit h.wf.all_nodup hcm, h.peace.exit h.wf.all_nodup,
        h.memory.reaped h.wf.all_nodup hcm⟩
    · intro _ _
      exact h
    · intro hnone _ th hs hw
      have hm : Remembered ((f.threads.setIntr false).setStatus f.threads.current
          TaskStatus.waiting) f.exitStatus f.reaps :=
        h.memory.setStatus (by rw [hcur]; decide) (by decide)
      have hp : Pids ((f.threads.setIntr false).setStatus f.threads.current
          TaskStatus.waiting) := by
        refine h.pids.congr rfl rfl fun t => ?_
        by_cases ht : t = f.threads.current <;> simp [ht]
      have hp' : Pids th := hp.congr hw.all hw.pids fun t => by rw [hw.tasks t]
      exact ⟨.mk' hs (h.wf.toPaged.setStatus.switched hw) (h.wf.toNamed.setStatus.switched hw),
        hp', (h.peace.wait hnone).quiet hw.quiet, hm.switched hw⟩
  exact hret.of_wp hw

theorem Inv.step (h : Inv f) (hst : Step Orderly f g) : Inv g := by
  cases hst with
  | thread hen hal hord hc hret => exact inv_thread h hen hal hord hc hret
  | fork hen hnull hc hret => exact inv_fork h hen hnull hc hret
  | exit hen hc hret => exact inv_exit h hen hc hret
  | wait _ _ hret => exact inv_wait h hret

theorem Step.orderly (h : Step Faithful f g) : Step Orderly f g := by
  cases h with
  | thread hen hal hord hc hret => exact .thread hen hal hord hc hret
  | fork hen hnull hc hret => exact .fork hen hnull hc hret
  | exit hen hc hret => exact .exit hen hc.1 hret
  | wait hen hc hret => exact .wait hen hc hret

/-- What is remembered of an argument is the number of `TASK_HANGING`. -/
def Hung (f : Family) : Prop := ∀ t st, f.exitStatus t = some st → st = TaskStatus.hanging

theorem Hung.born {th : Threads} {c : ℕ} (h : Hung f) : Hung (f.born th c) := by
  intro t st ht
  by_cases htc : t = c
  · simp [Family.born, htc] at ht
  · exact h t st (by simpa [Family.born, htc] using ht)

theorem Hung.step (h : Hung f) (hst : Step Faithful f g) : Hung g := by
  cases hst with
  | @thread op th hen hal hord hc hret =>
    cases op with
    | start pcb name priority => exact h.born
    | _ => exact h
  | fork hen hnull hc hret => exact h.born
  | exit hen hc hret =>
    intro t v ht
    by_cases htc : t = f.threads.current
    · simp only [htc, if_true, Option.some.injEq] at ht
      exact ht ▸ hc.2
    · exact h t v (by simpa [htc] using ht)
  | @wait r th hen hc hret =>
    cases r with
    | reaped v q =>
      unfold Family.waited
      cases f.threads.findHangingChild (f.threads.tasks f.threads.current).pid <;> exact h
    | noChild => exact h
    | blocked => exact h

theorem Start.inv (h : Start f) : Inv f where
  wf := h.wf
  pids := h.pids
  peace := fun p hp hw => absurd hw (h.awake p hp).2
  memory := by
    constructor
    · exact fun t ht hh => absurd hh (h.awake t ht).1
    · exact fun t _ he => absurd (h.exitStatus t) he
    · exact fun t _ => h.reaps t
    · exact fun t => (h.reaps t).trans_le (Nat.zero_le 1)

/-- How a round of `sysWait` ends. -/
def Waited (s : Threads) : WaitResult → Threads → Prop
  | .reaped v q, th => ∃ c, s.findHangingChild (s.tasks s.current).pid = some c ∧
      v = s.status c ∧ q = (s.tasks c).pid % 2 ^ 16 ∧ th = exited s c
  | .noChild, _ => s.findChild (s.tasks s.current).pid = none
  | .blocked, _ => True

theorem Inv.waited {r : WaitResult} {th : Threads} (h : Inv f)
    (hret : Returns () sysWait f.threads r th) : Waited f.threads r th := by
  apply hret.of_wp
  apply wp_sysWait h.wf
  · exact fun c hf => ⟨c, hf, rfl, rfl, rfl⟩
  · exact fun _ hnone => hnone
  · exact fun _ _ _ _ _ => trivial

theorem Inv.law (h : Inv f) (hh : Hung f) : FamilyLaw f := by
  refine ⟨h.memory.once, ?_, ?_, h.peace⟩
  · intro v q th hret
    obtain ⟨c, hf, rfl, rfl, rfl⟩ := h.waited hret
    obtain ⟨hc, hpar, hst⟩ := findHangingChild_mem hf
    have hexit : f.exitStatus c = some (f.threads.status c) := by
      cases he : f.exitStatus c with
      | none => exact absurd he (h.memory.hung c hc hst)
      | some st => rw [hh c st he, hst]
    -- a pid is at most 1024, so `uint16` holds it
    have hpid : (f.threads.tasks c).pid % 2 ^ 16 = (f.threads.tasks c).pid := by
      obtain ⟨i, hi, hlt, -⟩ := h.pids.marked c hc
      omega
    exact ⟨c, hc, hpar, h.memory.fresh c hc, hpid, hexit,
      fun hm => (h.wf.all_nodup.mem_erase_iff.mp hm).1 rfl⟩
  · intro th hret c hc hpar
    have hnone : f.threads.findChild (f.threads.tasks f.threads.current).pid = none :=
      h.waited hret
    unfold findChild at hnone
    exact absurd hpar (by simpa using List.find?_eq_none.mp hnone c hc)

/-- A process and the idle thread. -/
def startFamily : Family where
  threads := { LockSys.familyThreads with pidBitMap := ⟨128, fun i => if i = 0 then 31 else 0⟩ }
  exitStatus _ := none
  reaps _ := 0

theorem startFamily_start : Start startFamily where
  wf := by
    have h := LockSys.familyThreads_wf
    exact .mk' ⟨⟨h.all_nodup, h.ready_nodup, h.ready_iff, h.running, h.current_mem, h.idle_mem,
      h.alive, h.magic⟩, h.current_running⟩ ⟨h.held, h.nodup, h.main, h.dir, h.dir_inj⟩
      ⟨h.nonneg, h.idle_parent⟩
  pids := by
    refine ⟨rfl, ?_, by decide⟩
    intro t ht
    have : t = 0xc0100000 ∨ t = 0xc0101000 := by
      simpa [startFamily, LockSys.familyThreads] using ht
    obtain rfl | rfl := this
    · exact ⟨1, by decide, by decide, by decide⟩
    · exact ⟨4, by decide, by decide, by decide⟩
  awake := by decide
  exitStatus _ := rfl
  reaps _ := rfl

/-- The process has a child and sleeps in `sysWait`. -/
def forkedFamily : Family :=
  startFamily.born (sysFork forkPages () 0 startFamily.threads).state 0xc0103000

def waitingFamily : Family := { forkedFamily with threads := (sysWait () 0 forkedFamily.threads).state }

/-- The idle thread lets the child run. -/
def childFamily : Family :=
  { waitingFamily with
    threads := (threadBlock TaskStatus.blocked () 0 waitingFamily.threads).state }

/-- The child has called `sysExit(status)`. -/
def exitedFamily (status : ℤ) : Family :=
  { childFamily with
    threads := (sysExit status () 0 childFamily.threads).state
    exitStatus := fun p =>
      if p = childFamily.threads.current then some status else childFamily.exitStatus p }

/-- The child has no children. -/
theorem childFamily_orderly {status : ℤ} : Orderly childFamily.threads (.exit status) := by
  have hall : ∀ c ∈ childFamily.threads.threadAllList, (childFamily.threads.tasks c).parentPid ≠
      (childFamily.threads.tasks childFamily.threads.current).pid := by decide
  intro c hc hpar
  exact absurd hpar (hall c hc)

theorem childFamily_run : Run (Step Faithful) startFamily childFamily := by
  have h₁ : Step Faithful startFamily forkedFamily :=
    @Step.fork _ _ forkPages _ _ ⟨fun _ => ⟨by decide, by decide⟩, fun _ => ⟨⟨by decide, by decide⟩, by decide⟩⟩
      (by decide) (show bitMapScan _ 1 ≠ none by decide) ⟨0, 0, by rfl⟩
  have h₂ : Step Faithful forkedFamily waitingFamily :=
    .wait (r := .blocked) (by decide) trivial ⟨0, 0, by rfl⟩
  have h₃ : Step Faithful waitingFamily childFamily :=
    @Step.thread _ _ (.block TaskStatus.blocked) _ (.inl rfl) trivial rfl trivial ⟨0, 0, by rfl⟩
  exact ((Relation.ReflTransGen.single h₁).tail h₂).tail h₃

/-- In every state of a run. -/
theorem family_law (h : Run (Step Faithful) f g) (hs : Start f) : FamilyLaw g := by
  have hboth : Inv g ∧ Hung g := by
    refine h.invariant (I := fun f => Inv f ∧ Hung f) ?_ ⟨hs.inv, ?_⟩
    · exact fun s t hI hst => ⟨hI.1.step hst.orderly, hI.2.step hst⟩
    · intro t st ht
      rw [hs.exitStatus t] at ht
      exact absurd ht (by simp)
  exact hboth.1.law hboth.2

/-- The parent wakes and reaps. -/
theorem family_law_sample :
    Run (Step Faithful) startFamily (exitedFamily 4) ∧ FamilyLaw (exitedFamily 4) ∧
      ∃ th, Returns () sysWait (exitedFamily 4).threads (.reaped 4 6) th := by
  have h : Step Faithful childFamily (exitedFamily 4) :=
    .exit (by decide) ⟨childFamily_orderly, rfl⟩ ⟨0, 0, by rfl⟩
  have hrun := childFamily_run.tail h
  exact ⟨hrun, family_law hrun startFamily_start, _, ⟨0, 0, by rfl⟩⟩

/-- The child exits with 7 and its parent reads 4. -/
theorem family_law_fails :
    Run (Step Orderly) startFamily (exitedFamily 7) ∧
      (exitedFamily 7).exitStatus 0xc0103000 = some 7 ∧
      (∃ th, Returns () sysWait (exitedFamily 7).threads (.reaped 4 6) th) ∧
      ¬ FamilyLaw (exitedFamily 7) := by
  have h : Step Orderly childFamily (exitedFamily 7) :=
    .exit (by decide) childFamily_orderly ⟨0, 0, by rfl⟩
  have hchild : Run (Step Orderly) startFamily childFamily :=
    Relation.ReflTransGen.mono (fun _ _ => Step.orderly) _ _ childFamily_run
  have hret : ∃ th, Returns () sysWait (exitedFamily 7).threads (.reaped 4 6) th :=
    ⟨_, ⟨0, 0, by rfl⟩⟩
  refine ⟨hchild.tail h, rfl, hret, fun hlaw => ?_⟩
  obtain ⟨th, hth⟩ := hret
  obtain ⟨c, hc, -, -, hpid, hexit, -⟩ := hlaw.reap _ _ _ hth
  have hall : c = 0xc0100000 ∨ c = 0xc0101000 ∨ c = 0xc0103000 := by
    have : (exitedFamily 7).threads.threadAllList = [0xc0100000, 0xc0101000, 0xc0103000] := rfl
    simpa [this] using hc
  obtain rfl | rfl | rfl := hall
  · exact absurd hpid (by decide)
  · exact absurd hpid (by decide)
  · exact absurd hexit (by decide)

end Steps

end Family

end Gogoos.Threads
