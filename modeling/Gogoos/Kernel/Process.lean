import Gogoos.Kernel.ThreadRun

/-!
# The process table

`sysFork`, `sysExit` and `sysWait` as far as they concern the PCBs and the thread lists:
`kernel/user/fork.c` and `kernel/user/wait_exit.c`. The memory of the child and the open files
are left to the modules about them; whether memory was found shows in the pages a call gets.
-/

namespace Gogoos.Threads

open Program

/-- What `getKernelPages` and `pageDirCreate` return in a fork, 0 for `NULL`. -/
structure ForkPages where
  childThread : ℕ
  bufPage : ℕ
  vaddrBitMap : ℕ
  pageDir : ℕ

variable {s s' s'' : Threads} {e : Unit} {t child dir : ℕ} {got : ForkPages} {stop : Threads → Prop}
  {Q : Unit → Threads → Prop}

section Calls

/-- The suffix `"_fork"`. -/
def forkSuffix : List UInt8 := [95, 102, 111, 114, 107]

/-- The PCB that `copyPcbVaddrBitMapStack0` starts with. -/
def copiedTask (parent : TaskStruct) (pid : ℤ) : TaskStruct :=
  { parent with
    pid := pid
    elapsedTicks := 0
    status := TaskStatus.ready
    ticks := parent.priority
    parentPid := parent.pid }

def namedTask (parent : TaskStruct) (pid : ℤ) (dir : ℕ) : TaskStruct :=
  { copiedTask parent pid with
    name := parent.name ++ forkSuffix
    pageDir := dir }

/-- The PCB of a child. -/
def forkedTask (parent : TaskStruct) (pid : ℤ) (dir : ℕ) : TaskStruct :=
  { namedTask parent pid dir with eax := 0 }

/-- Nothing taken before a failure is given back, the pid included. -/
def sysFork (got : ForkPages) : ThreadM ℤ := do
  let s ← get
  let parentThread := s.tasks s.current
  let childThread := got.childThread
  if childThread = 0 then return -1
  else
    modify fun s => { s with pages := childThread :: s.pages }
    assert (parentThread.pageDir ≠ 0)
    if got.bufPage = 0 then return -1
    else
      let pid ← allocatePid
      modify fun s => s.setTask childThread (copiedTask parentThread pid)
      if got.vaddrBitMap = 0 then return -1
      else
        assert (parentThread.name.length < 11)
        modify fun s => s.setTask childThread (namedTask parentThread pid got.pageDir)
        if got.pageDir = 0 then return -1
        else
          modify fun s => s.setTask childThread (forkedTask parentThread pid got.pageDir)
          let s ← get
          assert (childThread ∉ s.threadReadyList)
          modify fun s =>
            { (s.setReadyList (s.threadReadyList ++ [childThread])).setAllList
                (s.threadAllList ++ [childThread]) with pages := got.pageDir :: s.pages }
          return pid

/-- `initAdoptChild`: the children of `pid` get the pid 4 as parent. -/
def adoptChildren (pid : ℤ) : ThreadM Unit :=
  modify fun s =>
    { s with
      tasks := fun p =>
        if p ∈ s.threadAllList ∧ (s.tasks p).parentPid = pid then
          { s.tasks p with parentPid := 4 }
        else s.tasks p }

/-- The last lines of `sysExit`. A parent that is not found is `NULL` and faults. -/
def wakeParent : ThreadM Unit := do
  let s ← get
  match s.pidToThread (s.tasks s.current).parentPid with
  | none => halt
  | some parentThread =>
    if s.status parentThread = TaskStatus.waiting then threadUnblock parentThread else pure ()

/-- The argument is stored in the field `status` of the PCB, which `threadBlock` overwrites. -/
def sysExit (status : ℤ) : ThreadM Unit := do
  let s ← get
  let childThread := s.tasks s.current
  modify fun s => s.setStatus s.current status
  assert (childThread.parentPid ≠ -1)
  adoptChildren childThread.pid
  wakeParent
  threadBlock TaskStatus.hanging

def findHangingChild (s : Threads) (ppid : ℤ) : Option ℕ :=
  s.threadAllList.find? fun p =>
    (s.tasks p).parentPid = ppid ∧ s.status p = TaskStatus.hanging

def findChild (s : Threads) (ppid : ℤ) : Option ℕ :=
  s.threadAllList.find? fun p => (s.tasks p).parentPid = ppid

/-- How one round of the loop of `sysWait` ends. -/
inductive WaitResult where
  /-- `*status` and the pid that is returned. -/
  | reaped (status childPid : ℤ)
  /-- The call returns -1. -/
  | noChild
  | blocked

/-- One round of the loop of `sysWait`. -/
def sysWait : ThreadM WaitResult := do
  let s ← get
  let pid := (s.tasks s.current).pid
  match s.findHangingChild pid with
  | some childThread =>
    threadExit childThread false
    -- `childPid` is a `uint16`
    return .reaped (s.status childThread) ((s.tasks childThread).pid % 2 ^ 16)
  | none =>
    match s.findChild pid with
    | none => return .noChild
    | some _ =>
      threadBlock TaskStatus.waiting
      return .blocked

end Calls

section Specs

/-- A page of the kernel that nothing uses. -/
def FreshPage (s : Threads) (page : ℕ) : Prop := page ∉ s.pages ∧ page ≠ s.mainThread

/-- The state after a child was put on the lists. -/
def forked (s : Threads) (child : ℕ) (task : TaskStruct) (bm : BitMap) (pages : List ℕ) : Threads :=
  { s with
    tasks := fun p => if p = child then task else s.tasks p
    threadReadyList := s.threadReadyList ++ [child]
    threadAllList := s.threadAllList ++ [child]
    pidBitMap := bm
    pages := pages }

/-- The state after a fork that returns -1: the PCB page is not given back. -/
def forkFailed (s : Threads) (child : ℕ) (task : TaskStruct) (bm : BitMap) : Threads :=
  { s with
    tasks := fun p => if p = child then task else s.tasks p
    pidBitMap := bm
    pages := child :: s.pages }

/-- The PCB that a fork leaves when it fails after the pid was taken. -/
def ForkPages.Orphan (got : ForkPages) (parent : TaskStruct) (pid : ℤ) (task : TaskStruct) : Prop :=
  got.vaddrBitMap = 0 ∧ task = copiedTask parent pid ∨
    got.pageDir = 0 ∧ task = namedTask parent pid got.pageDir

theorem forkFailed_self : forkFailed s child (s.tasks child) s.pidBitMap =
    { s with pages := child :: s.pages } := by
  have htasks : (fun p => if p = child then s.tasks child else s.tasks p) = s.tasks := by
    funext p
    by_cases hp : p = child
    · rw [if_pos hp, hp]
    · rw [if_neg hp]
  unfold forkFailed
  rw [htasks]

theorem setTask_setTask {task task' : TaskStruct} :
    (s.setTask child task).setTask child task' = s.setTask child task' := by
  have htasks : ((s.setTask child task).setTask child task').tasks =
      (s.setTask child task').tasks := by
    funext p
    by_cases hp : p = child <;> simp [hp]
  change { s with tasks := ((s.setTask child task).setTask child task').tasks } = _
  rw [htasks]
  rfl

theorem wp_sysFork {Q : ℤ → Threads → Prop} (hnull : got.childThread = 0 → Q (-1) s)
    (hbuf : got.childThread ≠ 0 → got.bufPage = 0 →
      Q (-1) { s with pages := got.childThread :: s.pages })
    (hfail : got.childThread ≠ 0 → got.bufPage ≠ 0 → ∀ (pid : ℤ) bm task,
      PidTaken s.pidBitMap pid bm → got.Orphan (s.tasks s.current) pid task →
      Q (-1) (forkFailed s got.childThread task bm))
    (hfork : got.childThread ≠ 0 → got.bufPage ≠ 0 → got.pageDir ≠ 0 →
      ∀ (pid : ℤ) bm, PidTaken s.pidBitMap pid bm →
      Q pid (forked s got.childThread (forkedTask (s.tasks s.current) pid got.pageDir) bm
        (got.pageDir :: got.childThread :: s.pages))) :
    wp anyStop e (sysFork got) Q s := by
  unfold sysFork
  rw [wp_get_bind]
  apply wp_ite
  · intro hc
    exact wp_pure.mpr (hnull hc)
  · intro hc
    rw [wp_modify_bind, wp_assert_bind]
    refine ⟨fun _ => ?_, fun _ => trivial⟩
    apply wp_ite
    · intro hb
      exact wp_pure.mpr (hbuf hc hb)
    · intro hb
      apply wp_bind
      apply wp_of_noStop
      apply wp_allocatePid
      intro pid bm hpid
      rw [wp_modify_bind]
      apply wp_ite
      · intro hv
        exact wp_pure.mpr (hfail hc hb pid bm _ hpid (.inl ⟨hv, rfl⟩))
      · intro _
        rw [wp_assert_bind]
        refine ⟨fun _ => ?_, fun _ => trivial⟩
        rw [wp_modify_bind, setTask_setTask]
        apply wp_ite
        · intro hd
          exact wp_pure.mpr (hfail hc hb pid bm _ hpid (.inr ⟨hd, rfl⟩))
        · intro hd
          rw [wp_modify_bind, setTask_setTask, wp_get_bind, wp_assert_bind]
          refine ⟨fun _ => ?_, fun _ => trivial⟩
          rw [wp_modify_bind]
          exact wp_pure.mpr (hfork hc hb hd pid bm hpid)

theorem Wf.current_mem' (h : Wf s) : s.current ∈ s.threadAllList :=
  h.current_mem h.current_running

theorem Wf.not_mem_of_fresh (h : Wf s) (hc : FreshPage s child) : child ∉ s.threadAllList :=
  fun hm => hc.1 (h.held child hm hc.2)

/-- A PCB page that is on no list. -/
theorem Wf.offList {task : TaskStruct} {bm : BitMap} (h : Wf s) (hc : FreshPage s child) :
    Wf (forkFailed s child task bm) := by
  have hnot := h.not_mem_of_fresh hc
  have hne : ∀ t ∈ s.threadAllList, t ≠ child := fun t ht he => hnot (he ▸ ht)
  have hcur := hne _ h.current_mem'
  have hidle := hne _ h.idle_mem
  refine .mk' ⟨⟨h.all_nodup, h.ready_nodup, ?_, ?_, fun _ => h.current_mem', h.idle_mem, ?_, ?_⟩, ?_⟩
    ⟨?_, List.nodup_cons.mpr ⟨hc.1, h.nodup⟩, ?_, ?_, ?_⟩ ⟨?_, ?_⟩
  · intro t
    have := h.ready_iff t
    by_cases ht : t = child
    · have hready : child ∉ s.threadReadyList := fun hm => hnot ((h.ready_iff child).mp hm).1
      simp [forkFailed, status, ht, hnot, hready]
    · simpa [forkFailed, status, ht] using this
  · intro t ht
    simpa [forkFailed, status, hne t ht] using h.running t ht
  · intro t ht
    simpa [forkFailed, status, hne t ht] using h.alive t ht
  · intro t ht
    simpa [forkFailed, hne t ht] using h.magic t ht
  · simpa [forkFailed, status, hcur] using h.current_running
  · intro t ht hm
    exact List.mem_cons_of_mem _ (h.held t ht hm)
  · simpa [forkFailed] using ⟨hc.2.symm, h.main⟩
  · intro t ht hd
    simp only [forkFailed, hne t ht, if_false] at hd ⊢
    obtain ⟨hin, hout⟩ := h.dir t ht hd
    exact ⟨List.mem_cons_of_mem _ hin, hout⟩
  · intro t ht p hp
    simpa [forkFailed, hne t ht, hne p hp] using h.dir_inj t ht p hp
  · intro t ht
    simpa [forkFailed, hne t ht] using h.nonneg t ht
  · simpa [forkFailed, hidle] using h.idle_parent

/-- The page of a PCB that nothing is written to. -/
theorem Wf.pageTaken (h : Wf s) (hc : FreshPage s child) :
    Wf { s with pages := child :: s.pages } := by
  rw [← forkFailed_self]
  exact h.offList hc

theorem Wf.forked {task : TaskStruct} {bm : BitMap} (h : Wf s) (hc : FreshPage s child)
    (hd : FreshPage s dir) (hne : dir ≠ child) (hstatus : task.status = TaskStatus.ready)
    (hmagic : task.stackMagicNum = stackMagicNumber) (hdir : task.pageDir = dir)
    (hpid : 0 ≤ task.pid) : Wf (forked s child task bm (dir :: child :: s.pages)) := by
  have hnot := h.not_mem_of_fresh hc
  have hcur : s.current ≠ child := fun he => hnot (he ▸ h.current_mem')
  refine .mk' ⟨h.toQueued.enlist _ _ _ hstatus hmagic hnot h.current_mem', ?_⟩
    (h.toPaged.enlist bm hc.1 ?_ ?_ (by simp) (fun p hp => by simp [hp]) ?_)
    (h.toNamed.enlist hpid fun he => hnot (he ▸ h.idle_mem))
  · simpa [Threads.forked, status, hcur] using h.current_running
  · exact List.nodup_cons.mpr ⟨by simp [hne, hd.1], List.nodup_cons.mpr ⟨hc.1, h.nodup⟩⟩
  · simpa using ⟨hd.2.symm, hc.2.symm, h.main⟩
  · intro _
    rw [hdir]
    exact ⟨by simp, hd.1, h.not_mem_of_fresh hd, hne⟩

/-- The state after `adoptChildren`. -/
@[simps current mainThread idleThread threadReadyList threadAllList pages]
def adopted (s : Threads) (pid : ℤ) : Threads :=
  { s with
    tasks := fun p =>
      if p ∈ s.threadAllList ∧ (s.tasks p).parentPid = pid then { s.tasks p with parentPid := 4 }
      else s.tasks p }

@[simp] theorem adopted_status {pid : ℤ} : (s.adopted pid).status t = s.status t := by
  unfold status adopted
  dsimp only
  split_ifs <;> rfl

@[simp] theorem adopted_pid {pid : ℤ} : ((s.adopted pid).tasks t).pid = (s.tasks t).pid := by
  unfold adopted
  dsimp only
  split_ifs <;> rfl

@[simp] theorem adopted_pageDir {pid : ℤ} :
    ((s.adopted pid).tasks t).pageDir = (s.tasks t).pageDir := by
  unfold adopted
  dsimp only
  split_ifs <;> rfl

/-- The state after `threadUnblock`. -/
def unblocked (s : Threads) (t : ℕ) : Threads :=
  (s.setStatus t TaskStatus.ready).setReadyList (t :: s.threadReadyList)

/-- The pid of the parent that `sysExit` looks for: an own child is adopted as the others. -/
def exitParentPid (s : Threads) : ℤ :=
  ((s.adopted (s.tasks s.current).pid).tasks s.current).parentPid

/-- The parent that `sysExit` wakes. -/
def waitingParent (s : Threads) : Option ℕ :=
  (s.pidToThread s.exitParentPid).filter fun p => s.status p = TaskStatus.waiting

/-- The state in which `sysExit` gives up the processor. -/
def exiting (s : Threads) : Threads :=
  let a := s.adopted (s.tasks s.current).pid
  let w := match s.waitingParent with
    | some p => a.unblocked p
    | none => a
  (w.setIntr false).setStatus s.current TaskStatus.hanging

theorem Wf.adopted {pid : ℤ} (h : Wf s) (hpid : pid ≠ -1) : Wf (s.adopted pid) := by
  have hmagic : ∀ t, ((s.adopted pid).tasks t).stackMagicNum = (s.tasks t).stackMagicNum := by
    intro t
    unfold Threads.adopted
    dsimp only
    split_ifs <;> rfl
  refine .mk' ⟨⟨h.all_nodup, h.ready_nodup, ?_, ?_, ?_, h.idle_mem, ?_, ?_⟩, ?_⟩
    (h.toPaged.congr rfl rfl rfl fun _ => adopted_pageDir) ⟨?_, ?_⟩
  · simpa using h.ready_iff
  · simpa using h.running
  · simpa using h.current_mem
  · simpa using h.alive
  · simpa [hmagic] using h.magic
  · simpa using h.current_running
  · simpa using h.nonneg
  · have hidle : (s.tasks s.idleThread).parentPid ≠ pid := by
      rw [h.idle_parent]
      exact hpid.symm
    simpa [Threads.adopted, hidle] using h.idle_parent

theorem Wf.unblocked (h : Wf s) (ht : t ∈ s.threadAllList) (hs : Sleeping (s.status t)) :
    Wf (s.unblocked t) := by
  refine .mk' ⟨h.toQueued.unblock ht hs, ?_⟩
    ((h.toPaged.setStatus (t := t)).congr rfl rfl rfl fun _ => rfl)
    ((h.toNamed.setStatus (t := t)).congr (fun _ ht => ht) rfl (fun _ => rfl) fun _ => rfl)
  have hne : s.current ≠ t := fun hc => not_sleeping_running (h.current_running ▸ hc ▸ hs)
  simpa [Threads.unblocked, hne] using h.current_running

theorem waitingParent_mem {p : ℕ} (h : s.waitingParent = some p) :
    p ∈ s.threadAllList ∧ (s.tasks p).pid = s.exitParentPid ∧
      s.status p = TaskStatus.waiting := by
  obtain ⟨hfind, hst⟩ := Option.filter_eq_some_iff.mp h
  unfold pidToThread at hfind
  exact ⟨List.mem_of_find?_eq_some hfind, by simpa using List.find?_some hfind, by simpa using hst⟩

/-- The state of `sysExit` before it looks for the parent. -/
theorem exit_pidToThread {pid ppid st : ℤ} {cur : ℕ} :
    pidToThread ((s.setStatus cur st).adopted pid) ppid = s.pidToThread ppid := by
  unfold pidToThread
  have hpid : ∀ p, (((s.setStatus cur st).adopted pid).tasks p).pid = (s.tasks p).pid := by
    intro p
    rw [adopted_pid]
    by_cases hp : p = cur <;> simp [hp]
  simp only [hpid]
  rfl

/-- The status that `sysExit` stores is gone when the thread sleeps, whoever was woken. -/
theorem exit_status_lost {pid st : ℤ} {cur : ℕ} :
    (((s.setStatus cur st).adopted pid).setIntr false).setStatus cur TaskStatus.hanging =
      ((s.adopted pid).setIntr false).setStatus cur TaskStatus.hanging := by
  simp only [setStatus, setIntr, adopted]
  congr 1
  funext q
  by_cases hq : q = cur
  · subst hq
    by_cases hc : q ∈ s.threadAllList ∧ (s.tasks q).parentPid = pid <;> simp [hc]
  · simp [hq]

theorem exit_status_lost_unblocked {pid st : ℤ} {cur p : ℕ} (hp : p ≠ cur) :
    ((((s.setStatus cur st).adopted pid).unblocked p).setIntr false).setStatus cur
        TaskStatus.hanging =
      (((s.adopted pid).unblocked p).setIntr false).setStatus cur TaskStatus.hanging := by
  simp only [unblocked, setStatus, setIntr, setReadyList, adopted]
  congr 1
  funext q
  by_cases hq : q = cur
  · subst hq
    by_cases hc : q ∈ s.threadAllList ∧ (s.tasks q).parentPid = pid <;> simp [hc, hp.symm]
  · by_cases hqp : q = p
    · subst hqp
      simp [hp]
    · simp [hq, hqp]

theorem wp_threadUnblock_any {r : Threads} {pcb : ℕ} (hQ : Q () (r.unblocked pcb)) :
    wp anyStop e (threadUnblock pcb) Q r := by
  unfold threadUnblock
  rw [wp_get_bind, wp_assert_bind]
  refine ⟨fun _ => ?_, fun _ => trivial⟩
  rw [wp_assert_bind]
  refine ⟨fun _ => ?_, fun _ => trivial⟩
  exact wp_modify.mpr hQ

/-- A thread that is its own parent finds itself on the ready list. -/
theorem wp_wake_self {r : Threads} : wp anyStop e (threadUnblock r.current)
    (fun _ r' => wp anyStop e (threadBlock TaskStatus.hanging) Q r') r := by
  apply wp_threadUnblock_any
  unfold threadBlock disableIntr
  rw [wp_assert_pos (by decide), wp_modify_bind, wp_get_bind, wp_assert_bind]
  refine ⟨fun hc => absurd ?_ hc, fun _ => trivial⟩
  exact List.mem_cons_self

/-- The end of the call in the state `r`, which differs from `w` in what the thread overwrites. -/
theorem wp_hang {w r : Threads} (hw : Wf w) (hwc : w.current = s.current)
    (hr : (r.setIntr false).setStatus s.current TaskStatus.hanging =
      (w.setIntr false).setStatus s.current TaskStatus.hanging) (hrc : r.current = s.current)
    (hex : exiting s = (w.setIntr false).setStatus s.current TaskStatus.hanging)
    (hQ : ∀ s', Scheduled s' → Switched (exiting s) s' → Q () s') :
    wp anyStop e (threadBlock TaskStatus.hanging) Q r := by
  unfold threadBlock disableIntr
  rw [wp_assert_pos (by decide), wp_modify_bind, wp_get_bind, wp_assert_bind]
  refine ⟨fun _ => ?_, fun _ => trivial⟩
  rw [wp_modify_bind]
  have hleft : ((r.setIntr false).setStatus (r.setIntr false).current TaskStatus.hanging) =
      (w.setIntr false).setStatus w.current TaskStatus.hanging := by
    rw [setIntr_current, hrc, hwc, hr]
  rw [hleft]
  apply wp_of_noStop
  apply wp_mono (wp_schedule (hw.toScheduled.leave (by decide)) rfl)
  rintro ⟨⟩ s' ⟨hs', hsw, -⟩
  rw [hwc] at hsw
  exact hQ s' hs' (hex ▸ hsw)

theorem wp_sysExit {st : ℤ} (h : Wf s)
    (hQ : ∀ s', Scheduled s' → Switched (exiting s) s' → Q () s') :
    wp anyStop e (sysExit st) Q s := by
  have hcur := h.current_running
  have hpid : (s.tasks s.current).pid ≠ -1 := by
    have := h.nonneg _ h.current_mem'
    omega
  unfold sysExit adoptChildren
  rw [wp_get_bind, wp_modify_bind, wp_assert_bind]
  refine ⟨fun _ => ?_, fun _ => trivial⟩
  rw [wp_modify_bind]
  apply wp_bind
  unfold wakeParent
  rw [wp_get_bind]
  set s₁ := (s.setStatus s.current st).adopted (s.tasks s.current).pid with hs₁
  have hppid : (s₁.tasks s₁.current).parentPid = s.exitParentPid := by
    simp only [hs₁, exitParentPid, adopted, setStatus, if_true]
    split_ifs <;> rfl
  change wp anyStop e (match s₁.pidToThread (s₁.tasks s₁.current).parentPid with
    | none => halt
    | some parentThread =>
      if s₁.status parentThread = TaskStatus.waiting then threadUnblock parentThread
      else pure ()) _ s₁
  rw [hppid, hs₁, exit_pidToThread, ← hs₁]
  cases hp : s.pidToThread s.exitParentPid with
  | none => exact wp_halt.mpr trivial
  | some p =>
    have hadopted := h.adopted hpid
    have hst : s₁.status p = if p = s.current then st else s.status p := by simp [hs₁]
    have hnobody : s.waitingParent = none → wp anyStop e (pure () : ThreadM Unit)
        (fun _ r => wp anyStop e (threadBlock TaskStatus.hanging) Q r) s₁ := by
      intro hnone
      refine wp_pure.mpr (wp_hang (s := s) hadopted rfl exit_status_lost rfl ?_ hQ)
      unfold exiting
      rw [hnone]
    by_cases hself : p = s.current
    · subst hself
      have hnone : s.waitingParent = none := by simp [waitingParent, hp, hcur]
      apply wp_ite
      · exact fun _ => wp_wake_self
      · exact fun _ => hnobody hnone
    · rw [if_neg hself] at hst
      apply wp_ite
      · intro hw
        rw [hst] at hw
        have hsome : s.waitingParent = some p := by simp [waitingParent, hp, hw]
        have hmem := waitingParent_mem hsome
        have hunblocked := hadopted.unblocked (t := p) hmem.1 (by simp [hw, Sleeping])
        apply wp_threadUnblock_any
        refine wp_hang (s := s) hunblocked rfl (exit_status_lost_unblocked hself) rfl ?_ hQ
        unfold exiting
        rw [hsome]
      · intro hw
        rw [hst] at hw
        exact hnobody (by simp [waitingParent, hp, hw])

theorem findHangingChild_mem {p : ℕ} {ppid : ℤ} (h : s.findHangingChild ppid = some p) :
    p ∈ s.threadAllList ∧ (s.tasks p).parentPid = ppid ∧ s.status p = TaskStatus.hanging := by
  unfold findHangingChild at h
  exact ⟨List.mem_of_find?_eq_some h, by simpa using List.find?_some h⟩

theorem Wf.child_ne_idle {p : ℕ} {ppid : ℤ} (h : Wf s) (hppid : ppid ≠ -1)
    (hp : (s.tasks p).parentPid = ppid) : p ≠ s.idleThread := by
  rintro rfl
  exact hppid (hp.symm.trans h.idle_parent)

/-- The child that `sysWait` reaps is neither the running nor the idle thread. -/
theorem Wf.reaped {p : ℕ} (h : Wf s)
    (hf : s.findHangingChild (s.tasks s.current).pid = some p) : Wf (exited s p) := by
  obtain ⟨hp, hppid, hst⟩ := findHangingChild_mem hf
  have hpid : (s.tasks s.current).pid ≠ -1 := by
    have := h.nonneg _ h.current_mem'
    omega
  have hne : s.current ≠ p := by
    intro hc
    have := h.current_running
    rw [hc, hst] at this
    exact absurd this (by decide)
  refine .mk' ⟨h.toQueued.exit (h.child_ne_idle hpid hppid), ?_⟩
    (h.toPaged.exit h.all_nodup hp) h.toNamed.exit
  simpa [status, exited, hne] using h.current_running

theorem wp_sysWait {Q : WaitResult → Threads → Prop} (h : Wf s)
    (hreap : ∀ p, s.findHangingChild (s.tasks s.current).pid = some p →
      Q (.reaped (s.status p) ((s.tasks p).pid % 2 ^ 16)) (exited s p))
    (hnone : s.findHangingChild (s.tasks s.current).pid = none →
      s.findChild (s.tasks s.current).pid = none → Q .noChild s)
    (hblock : s.findHangingChild (s.tasks s.current).pid = none →
      s.findChild (s.tasks s.current).pid ≠ none → ∀ s', Scheduled s' →
      Switched ((s.setIntr false).setStatus s.current TaskStatus.waiting) s' → Q .blocked s') :
    wp noStop e sysWait Q s := by
  unfold sysWait
  rw [wp_get_bind]
  dsimp only
  cases hf : s.findHangingChild (s.tasks s.current).pid with
  | some p =>
    obtain ⟨hp, -, hst⟩ := findHangingChild_mem hf
    have hne : p ≠ s.current := by
      rintro rfl
      rw [h.current_running] at hst
      exact absurd hst (by decide)
    apply wp_bind
    apply wp_threadExit (h.toPaged.ends h.current_mem' hp fun _ => hne)
    exact wp_pure.mpr (wp_pure.mpr (hreap p hf))
  | none =>
    cases hc : s.findChild (s.tasks s.current).pid with
    | none => exact wp_pure.mpr (hnone hf hc)
    | some p =>
      apply wp_bind
      apply wp_mono (wp_threadBlock h.toScheduled (by decide))
      rintro ⟨⟩ s' ⟨hs', hsw, -⟩
      exact wp_pure.mpr (hblock hf (by simp [hc]) s' hs' hsw)

end Specs

section Operations

/-- The pages that a fork finds when there is memory. -/
def forkPages : ForkPages := ⟨0xc0103000, 0xc0105000, 0xc0107000, 0xc0104000⟩

/-- The calls of processes. -/
inductive ProcOp where
  | fork (got : ForkPages)
  | exit (status : ℤ)
  | wait

def ProcOp.run : ProcOp → ThreadM Unit
  | .fork got => do let _ ← sysFork got
  | .exit status => sysExit status
  | .wait => do let _ ← sysWait

/-- The pages of a child are `NULL` or not in use. Kernel threads make no system calls. -/
def ProcOp.Enabled (s : Threads) : ProcOp → Prop
  | .fork got =>
    (got.childThread ≠ 0 → FreshPage s got.childThread) ∧
      (got.pageDir ≠ 0 → FreshPage s got.pageDir ∧ got.pageDir ≠ got.childThread)
  | .exit _ | .wait => s.current ≠ s.idleThread

/-- The threads that a call does not aim at. -/
def ProcOp.Spares (s : Threads) (op : ProcOp) (t : ℕ) : Prop :=
  t ≠ s.idleThread ∧
    match op with
    | .fork got => got.childThread ≠ 0 → t ≠ got.childThread
    | .exit _ => t ≠ s.current ∧ s.waitingParent ≠ some t
    | .wait => t ≠ s.current ∧ s.findHangingChild (s.tasks s.current).pid ≠ some t

/-- The threads that a call leaves on the lists: `sysWait` takes one off. -/
def ProcOp.Keeps (s : Threads) : ProcOp → ℕ → Prop
  | .wait, t => s.findHangingChild (s.tasks s.current).pid ≠ some t
  | _, _ => True

theorem spared_setStatus {st : ℤ} :
    Spared (· ≠ t) (fun _ => True) s ((s.setIntr false).setStatus t st) :=
  spared_of_eq rfl (fun _ _ ht => ht) fun _ ht => if_neg ht

theorem Spared.mono {P R K : ℕ → Prop} (h : Spared R (fun _ => True) s s')
    (hP : ∀ t, P t → R t) : Spared P K s s' :=
  ⟨h.idle, fun t _ => h.all t trivial, fun t ht => h.status t (hP t ht)⟩

theorem Wf.exiting (h : Wf s) : Paged (exiting s) ∧ Named (exiting s) := by
  have hpid : (s.tasks s.current).pid ≠ -1 := by
    have := h.nonneg _ h.current_mem'
    omega
  have hadopted := h.adopted hpid
  unfold Threads.exiting
  cases hw : s.waitingParent with
  | none => exact ⟨hadopted.toPaged.setStatus, hadopted.toNamed.setStatus⟩
  | some p =>
    obtain ⟨hp, -, hst⟩ := waitingParent_mem hw
    have := hadopted.unblocked (t := p) hp (by simp [hst, Sleeping])
    exact ⟨this.toPaged.setStatus, this.toNamed.setStatus⟩

theorem spared_exiting :
    Spared (ProcOp.Spares s (.exit 0)) (fun _ => True) s (exiting s) where
  idle := by
    unfold exiting
    cases s.waitingParent <;> rfl
  all t _ ht := by
    unfold exiting
    cases s.waitingParent <;> exact ht
  status t ht := by
    obtain ⟨-, hcur, hparent⟩ := ht
    left
    unfold exiting
    cases hw : s.waitingParent with
    | none => simp [hcur]
    | some p =>
      have hp : t ≠ p := fun he => hparent (he ▸ hw)
      simp [hcur, unblocked, hp]

theorem wp_procOp (op : ProcOp) (h : Wf s) (hen : op.Enabled s) :
    wp anyStop e op.run (fun _ s' => Wf s' ∧ Spared (op.Spares s) (op.Keeps s) s s') s := by
  have hmem := h.current_mem'
  cases op with
  | fork got =>
    obtain ⟨hc, hd⟩ := hen
    apply wp_bind
    apply wp_sysFork
    · intro _
      exact wp_pure.mpr ⟨h, spared_of_eq rfl (fun _ _ ht => ht) fun _ _ => rfl⟩
    · intro hc0 _
      exact wp_pure.mpr ⟨h.pageTaken (hc hc0),
        spared_of_eq rfl (fun _ _ ht => ht) fun _ _ => rfl⟩
    · intro hc0 _ pid bm task _ _
      exact wp_pure.mpr ⟨h.offList (hc hc0),
        spared_of_eq rfl (fun _ _ ht => ht) fun _ ht => if_neg (ht.2 hc0)⟩
    · intro hc0 _ hd0 pid bm hpid
      refine wp_pure.mpr ⟨h.forked (hc hc0) (hd hd0).1 (hd hd0).2 rfl ?_ rfl hpid.nonneg, ?_⟩
      · exact h.magic _ hmem
      · exact spared_of_eq rfl (fun _ _ ht => List.mem_append_left _ ht)
          fun _ ht => if_neg (ht.2 hc0)
  | exit st =>
    apply wp_sysExit h
    intro s' hs' hw
    exact ⟨.mk' hs' (h.exiting.1.switched hw) (h.exiting.2.switched hw),
      spared_exiting.switched hw fun _ ht => ht.1⟩
  | wait =>
    apply wp_bind
    apply wp_of_noStop
    apply wp_sysWait h
    · intro p hf
      refine wp_pure.mpr ⟨h.reaped hf, ?_⟩
      have hother : ∀ t, s.findHangingChild (s.tasks s.current).pid ≠ some t → t ≠ p := by
        rintro t ht rfl
        exact ht hf
      exact spared_of_eq rfl (fun t ht hm => (List.mem_erase_of_ne (hother t ht)).mpr hm)
        fun t ht => if_neg (hother t ht.2.2)
    · intro _ _
      exact wp_pure.mpr ⟨h, spared_of_eq rfl (fun _ _ ht => ht) fun _ _ => rfl⟩
    · intro _ _ s' hs' hw
      refine wp_pure.mpr ⟨.mk' hs' (h.toPaged.setStatus.switched hw)
        (h.toNamed.setStatus.switched hw), ?_⟩
      refine Spared.switched ?_ hw fun _ ht => ht.1
      exact spared_setStatus.mono fun _ ht => ht.2.1

end Operations

end Gogoos.Threads
