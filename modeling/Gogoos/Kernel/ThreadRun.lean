import Gogoos.Kernel.Scheduler

/-!
# Runs of the scheduler

Threads start, block, wake each other, yield, are interrupted by the timer and exit.
`threadStart` does not test whether it got a page for the PCB: a second thread at the null page
is already on the lists. `threadExit` gives the page of the PCB back even when the thread ends
itself, and then its stack is gone.
-/

namespace Gogoos.Threads

open Program

variable {s s' s'' : Threads} {e : Unit} {t pcb idle : ℕ} {Q : Unit → Threads → Prop}

/-- The pages of the PCBs and of the page directories, each in use for one purpose. -/
structure Paged (s : Threads) : Prop where
  held : ∀ t ∈ s.threadAllList, t ≠ s.mainThread → t ∈ s.pages
  nodup : s.pages.Nodup
  main : s.mainThread ∉ s.pages
  dir : ∀ t ∈ s.threadAllList, (s.tasks t).pageDir ≠ 0 →
    (s.tasks t).pageDir ∈ s.pages ∧ (s.tasks t).pageDir ∉ s.threadAllList
  dir_inj : ∀ t ∈ s.threadAllList, ∀ p ∈ s.threadAllList, (s.tasks t).pageDir ≠ 0 →
    (s.tasks t).pageDir = (s.tasks p).pageDir → t = p

/-- Pids are not negative, so that -1 stands for no parent. -/
structure Named (s : Threads) : Prop where
  nonneg : ∀ t ∈ s.threadAllList, 0 ≤ (s.tasks t).pid
  idle_parent : (s.tasks s.idleThread).parentPid = -1

section Start

/-- The pid that `allocatePid` returns, and the bitmap after it. -/
def PidTaken (bm : BitMap) (pid : ℤ) (bm' : BitMap) : Prop :=
  bitMapScan bm 1 = none ∧ pid = 0 ∧ bm' = bm ∨
    ∃ i, bitMapScan bm 1 = some i ∧ pid = i + 1 ∧ bm' = bitMapSet bm i true

theorem PidTaken.nonneg {bm bm' : BitMap} {pid : ℤ} (h : PidTaken bm pid bm') : 0 ≤ pid := by
  obtain ⟨-, rfl, -⟩ | ⟨i, -, rfl, -⟩ := h
  · exact le_rfl
  · positivity

theorem wp_allocatePid {Q : ℤ → Threads → Prop}
    (hQ : ∀ (pid : ℤ) bm, PidTaken s.pidBitMap pid bm → Q pid { s with pidBitMap := bm }) :
    wp noStop e allocatePid Q s := by
  unfold allocatePid
  rw [wp_get_bind, bitMapScanAndSet_one]
  cases h : bitMapScan s.pidBitMap 1 with
  | none => exact wp_pure.mpr (hQ 0 s.pidBitMap (.inl ⟨h, rfl, rfl⟩))
  | some i => exact wp_modify_bind.mpr (wp_pure.mpr (hQ (i + 1) _ (.inr ⟨i, h, rfl, rfl⟩)))

theorem wp_threadStart {name : List UInt8} {priority : ℕ} (hready : pcb ∉ s.threadReadyList)
    (hpcb : pcb ∉ s.threadAllList)
    (hQ : ∀ (pid : ℤ) bm, PidTaken s.pidBitMap pid bm → Q () { s with
      tasks := fun p => if p = pcb then freshTask name priority pid else s.tasks p
      threadReadyList := s.threadReadyList ++ [pcb]
      threadAllList := s.threadAllList ++ [pcb]
      pidBitMap := bm
      pages := if pcb = 0 then s.pages else pcb :: s.pages }) :
    wp noStop e (threadStart pcb name priority) Q s := by
  unfold threadStart threadCreate
  rw [wp_modify_bind, wp_bind_assoc]
  apply wp_bind
  apply wp_allocatePid
  intro pid bm hpid
  rw [wp_modify_bind, wp_get_bind]
  refine (wp_assert_pos hready).mpr ((wp_assert_pos hpcb).mpr ?_)
  rw [wp_modify]
  exact hQ pid bm hpid

/-- A new thread enters both lists. -/
theorem Queued.enlist (task : TaskStruct) (bm : BitMap) (pages : List ℕ) (h : Queued s)
    (hstatus : task.status = TaskStatus.ready) (hmagic : task.stackMagicNum = stackMagicNumber)
    (hpcb : pcb ∉ s.threadAllList) (hcur : s.current ∈ s.threadAllList) :
    Queued { s with
      tasks := fun p => if p = pcb then task else s.tasks p
      threadReadyList := s.threadReadyList ++ [pcb]
      threadAllList := s.threadAllList ++ [pcb]
      pidBitMap := bm
      pages := pages } := by
  have hready : pcb ∉ s.threadReadyList := fun hm => hpcb ((h.ready_iff pcb).mp hm).1
  have hne : ∀ t ∈ s.threadAllList, t ≠ pcb := fun t hm ht => hpcb (ht ▸ hm)
  refine ⟨?_, ?_, ?_, ?_, ?_, ?_, ?_, ?_⟩
  · exact List.nodup_append.mpr ⟨h.all_nodup, List.nodup_singleton _, by
      rintro a ha b hb rfl
      exact hne a ha (by simpa using hb)⟩
  · exact List.nodup_append.mpr ⟨h.ready_nodup, List.nodup_singleton _, by
      rintro a ha b hb rfl
      rw [List.mem_singleton.mp hb] at ha
      exact hready ha⟩
  · intro t
    have := h.ready_iff t
    by_cases ht : t = pcb
    · simp [status, ht, hstatus]
    · simpa [status, ht] using this
  · intro t hm hr
    by_cases ht : t = pcb
    · simp [status, ht, hstatus] at hr
    · exact h.running t (by simpa [ht] using hm) (by simpa [status, ht] using hr)
  · intro _
    simp [hcur]
  · simp [h.idle_mem]
  · intro t hm
    by_cases ht : t = pcb
    · simp [status, ht, hstatus]
    · simpa [status, ht] using h.alive t (by simpa [ht] using hm)
  · intro t hm
    by_cases ht : t = pcb
    · simpa [ht] using hmagic
    · simpa [ht] using h.magic t (by simpa [ht] using hm)

end Start

section Exit

/-- The pages that are left when the directory of a thread was given back. -/
def dirFreed (s : Threads) (t : ℕ) : List ℕ :=
  if (s.tasks t).pageDir ≠ 0 then s.pages.erase (s.tasks t).pageDir else s.pages

/-- The state after `threadExit` has taken a thread off the lists. -/
def exited (s : Threads) (t : ℕ) : Threads :=
  { s with
    tasks := fun p => if p = t then { s.tasks t with status := TaskStatus.died } else s.tasks p
    threadReadyList := s.threadReadyList.erase t
    threadAllList := s.threadAllList.erase t
    pidBitMap := bitMapSet s.pidBitMap (((s.tasks t).pid - 1) % 2 ^ 32).toNat false
    pages := if t ≠ s.mainThread then (s.dirFreed t).erase t else s.dirFreed t
    intr := false }

theorem wp_freeKernelPage {α : Type} {f : Unit → ThreadM α} {Q : α → Threads → Prop} {page : ℕ}
    (h : page ∈ s.pages) (hself : page ≠ s.current)
    (hQ : wp noStop e (f ()) Q { s with pages := s.pages.erase page }) :
    wp noStop e (freeKernelPage page >>= f) Q s := by
  unfold freeKernelPage
  rw [wp_bind_assoc, wp_get_bind, wp_bind_assoc]
  refine (wp_assert_pos h).mpr ?_
  rw [wp_bind_assoc, wp_modify_bind, if_neg hself, wp_pure_bind]
  exact hQ

/-- `threadExit` up to the call of `releasePid`, with the argument of this call. -/
def beforeRelease (threadOver : ℕ) : ThreadM ℤ := do
  disableIntr
  modify fun s =>
    (s.setStatus threadOver TaskStatus.died).setReadyList (s.threadReadyList.erase threadOver)
  let s ← get
  (if (s.tasks threadOver).pageDir ≠ 0 then freeKernelPage (s.tasks threadOver).pageDir
    else pure ())
  modify fun s => s.setAllList (s.threadAllList.erase threadOver)
  (if threadOver ≠ s.mainThread then freeKernelPage threadOver else pure ())
  return (s.tasks threadOver).pid

theorem threadExit_eq {needSchedule : Bool} : threadExit t needSchedule =
    (beforeRelease t >>= fun pid => releasePid pid >>= fun _ =>
      if needSchedule then schedule else pure ()) := by
  simp only [threadExit, beforeRelease, bind_bind]
  rfl

/-- The pages of a thread, which are in use, and none of them the one that the caller runs on. -/
structure Ends (s : Threads) (t : ℕ) : Prop where
  dir : (s.tasks t).pageDir ≠ 0 → (s.tasks t).pageDir ∈ s.pages ∧ (s.tasks t).pageDir ≠ s.current
  page : t ≠ s.mainThread → t ∈ s.dirFreed t ∧ t ≠ s.current

theorem wp_beforeRelease (h : Ends s t) :
    wp noStop e (beforeRelease t) (fun pid r => pid = (s.tasks t).pid ∧
      r = { exited s t with pidBitMap := s.pidBitMap }) s := by
  have hpid : (((s.setIntr false).setStatus t TaskStatus.died).tasks t).pid = (s.tasks t).pid := by
    simp
  have hdir' : (((s.setIntr false).setStatus t TaskStatus.died).tasks t).pageDir =
      (s.tasks t).pageDir := by simp
  -- the second half, once the directory is given back
  have hrest : ∀ pages : List ℕ, pages = s.dirFreed t →
      wp noStop e (do
        Program.modify fun s => s.setAllList (s.threadAllList.erase t)
        (if t ≠ s.mainThread then freeKernelPage t else pure ())
        return (s.tasks t).pid)
        (fun pid r => pid = (s.tasks t).pid ∧ r = { exited s t with pidBitMap := s.pidBitMap })
        { ((s.setIntr false).setStatus t TaskStatus.died).setReadyList
            (s.threadReadyList.erase t) with pages := pages } := by
    rintro pages rfl
    rw [wp_modify_bind]
    by_cases hmain : t ≠ s.mainThread
    · rw [if_pos hmain]
      obtain ⟨hpage, hself⟩ := h.page hmain
      apply wp_freeKernelPage
      · simpa using hpage
      · exact hself
      · refine wp_pure.mpr ⟨rfl, ?_⟩
        simp [exited, hmain, setAllList, setReadyList, setStatus, setIntr]
    · rw [if_neg hmain]
      refine wp_pure.mpr ⟨rfl, ?_⟩
      simp [exited, hmain, setAllList, setReadyList, setStatus, setIntr]
  unfold beforeRelease disableIntr
  rw [wp_modify_bind, wp_modify_bind, wp_get_bind]
  simp only [setReadyList_tasks, hpid, hdir']
  by_cases hd : (s.tasks t).pageDir ≠ 0
  · rw [if_pos hd]
    apply wp_freeKernelPage
    · exact (h.dir hd).1
    · exact (h.dir hd).2
    · exact hrest _ (if_pos hd).symm
  · rw [if_neg hd, wp_pure_bind]
    exact hrest _ (if_neg hd).symm

theorem wp_threadExit {needSchedule : Bool} (h : Ends s t)
    (hQ : wp noStop e (if needSchedule then schedule else pure ()) Q (exited s t)) :
    wp noStop e (threadExit t needSchedule) Q s := by
  rw [threadExit_eq]
  apply wp_call (wp_beforeRelease h)
  rintro _ _ ⟨rfl, rfl⟩
  unfold releasePid
  rw [wp_modify_bind]
  exact hQ

theorem wp_freeKernelPage_self {page : ℕ} :
    wp anyStop e (freeKernelPage page) (fun _ r => page ≠ s.current ∧ r.current = s.current) s := by
  unfold freeKernelPage
  rw [wp_get_bind]
  refine wp_assert_bind.mpr ⟨fun _ => ?_, fun _ => trivial⟩
  rw [wp_modify_bind]
  exact wp_ite (fun _ => wp_halt.mpr trivial) fun hself => wp_pure.mpr ⟨hself, rfl⟩

/-- No thread but the main one comes back from ending itself. -/
theorem wp_threadExit_self {needSchedule : Bool} : wp anyStop e (threadExit t needSchedule)
    (fun _ _ => t ≠ s.mainThread → t ≠ s.current) s := by
  have hdir : ∀ r : Threads, wp anyStop e (if (r.tasks t).pageDir ≠ 0
      then freeKernelPage (r.tasks t).pageDir else pure ()) (fun _ r' => r'.current = r.current) r :=
    fun r => wp_ite (fun _ => wp_mono wp_freeKernelPage_self fun _ _ h => h.2) fun _ => wp_pure.mpr rfl
  have hown : ∀ r : Threads, wp anyStop e (if t ≠ s.mainThread then freeKernelPage t else pure ())
      (fun _ _ => t ≠ s.mainThread → t ≠ r.current) r :=
    fun r => wp_ite (fun _ => wp_mono wp_freeKernelPage_self fun _ _ h _ => h.1)
      fun hmain => wp_pure.mpr fun hne => absurd hne hmain
  unfold threadExit disableIntr
  rw [wp_modify_bind, wp_modify_bind, wp_get_bind]
  apply wp_call (hdir _)
  intro _ r hr
  rw [wp_modify_bind]
  apply wp_call (hown _)
  intro _ r' hr'
  have hself : t ≠ s.mainThread → t ≠ s.current := fun hne => hr ▸ hr' hne
  exact wp_mono (wp_any _) fun _ _ _ => hself

theorem Queued.exit (h : Queued s) (hidle : t ≠ s.idleThread) : Queued (exited s t) := by
  have hmem : ∀ p, p ∈ s.threadAllList.erase t ↔ p ≠ t ∧ p ∈ s.threadAllList :=
    fun p => h.all_nodup.mem_erase_iff
  refine ⟨h.all_nodup.erase t, h.ready_nodup.erase t, ?_, ?_, ?_, ?_, ?_, ?_⟩
  · intro p
    have := h.ready_iff p
    rw [show (exited s t).threadReadyList = s.threadReadyList.erase t from rfl,
      show (exited s t).threadAllList = s.threadAllList.erase t from rfl,
      h.ready_nodup.mem_erase_iff, hmem, this]
    by_cases hp : p = t
    · simp [hp]
    · simp [status, exited, hp]
  · intro p hp hr
    obtain ⟨hne, hp⟩ := (hmem p).mp hp
    exact h.running p hp (by simpa [status, exited, hne] using hr)
  · intro hr
    by_cases hc : s.current = t
    · simp [status, exited, hc] at hr
    · exact (hmem _).mpr ⟨hc, h.current_mem (by simpa [status, exited, hc] using hr)⟩
  · exact (hmem _).mpr ⟨hidle.symm, h.idle_mem⟩
  · intro p hp
    obtain ⟨hne, hp⟩ := (hmem p).mp hp
    simpa [status, exited, hne] using h.alive p hp
  · intro p hp
    obtain ⟨hne, hp⟩ := (hmem p).mp hp
    simpa [exited, hne] using h.magic p hp

theorem Paged.mem_dirFreed (h : Paged s) {p : ℕ} (hp : p ∈ s.pages)
    (hne : (s.tasks t).pageDir ≠ 0 → p ≠ (s.tasks t).pageDir) : p ∈ s.dirFreed t := by
  unfold dirFreed
  split_ifs with hd
  · exact h.nodup.mem_erase_iff.mpr ⟨hne hd, hp⟩
  · exact hp

theorem Paged.ends (h : Paged s) (hcur : s.current ∈ s.threadAllList) (ht : t ∈ s.threadAllList)
    (hself : t ≠ s.mainThread → t ≠ s.current) : Ends s t where
  dir hd := ⟨(h.dir t ht hd).1, fun hc => (h.dir t ht hd).2 (hc ▸ hcur)⟩
  page hne := ⟨h.mem_dirFreed (h.held t ht hne) fun hd hc => (h.dir t ht hd).2 (hc ▸ ht), hself hne⟩

theorem Paged.exit (h : Paged s) (hall : s.threadAllList.Nodup) (ht : t ∈ s.threadAllList) :
    Paged (exited s t) := by
  have hfreed : (s.dirFreed t).Nodup := by
    unfold dirFreed
    split_ifs with hd
    · exact h.nodup.erase _
    · exact h.nodup
  have hsub : ∀ p, p ∈ s.dirFreed t → p ∈ s.pages := by
    intro p hp
    unfold dirFreed at hp
    split_ifs at hp with hd
    · exact List.mem_of_mem_erase hp
    · exact hp
  have hmem : ∀ p, p ∈ s.dirFreed t → p ≠ t → p ∈ (exited s t).pages := by
    intro p hp hpt
    by_cases hm : t = s.mainThread
    · simpa [exited, hm] using hp
    · simpa [exited, hm, hfreed.mem_erase_iff, hpt] using hp
  refine ⟨?_, ?_, ?_, ?_, ?_⟩
  · intro p hp hne
    obtain ⟨hpt, hp⟩ := hall.mem_erase_iff.mp hp
    exact hmem p (h.mem_dirFreed (h.held p hp hne) fun hd hc => (h.dir t ht hd).2 (hc ▸ hp)) hpt
  · by_cases hm : t = s.mainThread
    · simpa [exited, hm] using hfreed
    · simpa [exited, hm] using hfreed.erase t
  · by_cases hm : t = s.mainThread
    · simpa [exited, hm] using fun hc => h.main (hsub _ hc)
    · have hmain : s.mainThread ∉ (s.dirFreed t).erase t :=
        fun hc => h.main (hsub _ (List.mem_of_mem_erase hc))
      simpa [exited, hm] using hmain
  · intro p hp hd
    obtain ⟨hpt, hp⟩ := hall.mem_erase_iff.mp hp
    simp only [exited, hpt, if_false] at hd ⊢
    obtain ⟨hdir, hnot⟩ := h.dir p hp hd
    have hne : (s.tasks p).pageDir ≠ t := fun hc => hnot (hc ▸ ht)
    refine ⟨hmem _ (h.mem_dirFreed hdir fun _ hc => hpt (h.dir_inj p hp t ht hd hc)) hne, ?_⟩
    exact fun hc => hnot (List.mem_of_mem_erase hc)
  · intro p hp q hq
    obtain ⟨hpt, hp⟩ := hall.mem_erase_iff.mp hp
    obtain ⟨hqt, hq⟩ := hall.mem_erase_iff.mp hq
    simpa [exited, hpt, hqt] using h.dir_inj p hp q hq

end Exit

section Law

/-- The operations on threads, with the arguments that they are called with. -/
inductive ThreadOp where
  | start (pcb : ℕ) (name : List UInt8) (priority : ℕ)
  | tick
  | yield
  | block (status : ℤ)
  | unblock (pcb : ℕ)
  /-- The running thread ends itself. -/
  | exitCurrent
  | exitAsleep (threadOver : ℕ)

def ThreadOp.run (s : Threads) : ThreadOp → ThreadM Unit
  | .start pcb name priority => threadStart pcb name priority
  | .tick => intrTimerHandler
  | .yield => threadYield
  | .block status => threadBlock status
  | .unblock pcb => threadUnblock pcb
  | .exitCurrent => threadExit s.current true
  | .exitAsleep threadOver => threadExit threadOver false

/-- When an operation can be called. `getKernelPages` returns a page that is not in use, or
`NULL`. -/
def ThreadOp.Enabled (s : Threads) : ThreadOp → Prop
  | .start pcb _ _ => pcb ∉ s.pages ∧ pcb ≠ s.mainThread
  | .tick | .yield => True
  | .block status => Sleeping status
  | .unblock pcb => pcb ∈ s.threadAllList ∧ Sleeping (s.status pcb)
  | .exitCurrent => s.current ≠ s.idleThread
  | .exitAsleep threadOver =>
    threadOver ∈ s.threadAllList ∧ Sleeping (s.status threadOver) ∧ threadOver ≠ s.idleThread

/-- A thread gets a page for its PCB, and does not give away the one that it runs on: the main
thread has its PCB elsewhere. -/
def ThreadOp.HasPage (s : Threads) : ThreadOp → Prop
  | .start pcb _ _ => pcb ≠ 0
  | .exitCurrent => s.current = s.mainThread
  | _ => True

/-- One operation. Interrupts may be on or off when it is called. -/
def ThreadStep (cond : Threads → ThreadOp → Prop) (s s' : Threads) : Prop :=
  ∃ op b, op.Enabled s ∧ cond s op ∧ Returns () (op.run s) (s.setIntr b) () s'

structure SchedulerLaw (s : Threads) : Prop where
  current_mem : s.current ∈ s.threadAllList
  running : ∀ t ∈ s.threadAllList, s.status t = TaskStatus.running ↔ t = s.current
  ready : ∀ t, t ∈ s.threadReadyList ↔ t ∈ s.threadAllList ∧ s.status t = TaskStatus.ready
  ready_once : s.threadReadyList.Nodup
  exited : ∀ t, s.status t = TaskStatus.died → t ∉ s.threadReadyList ∧ t ∉ s.threadAllList
  /-- No assertion of the next operation fails. -/
  asserts : ∀ (op : ThreadOp) (b : Bool), op.Enabled s → op.HasPage s →
    wp noStop () (op.run s) (fun _ _ => True) (s.setIntr b)

/-- The running thread becomes the main thread, `"main"`. -/
def makeMainThread : ThreadM Unit := do
  let pid ← allocatePid
  modify fun s =>
    { s with
      mainThread := s.current
      tasks := fun p =>
        if p = s.current then
          { freshTask [109, 97, 105, 110] 4 pid with status := TaskStatus.running }
        else s.tasks p }
  let s ← get
  assert (s.mainThread ∉ s.threadAllList)
  modify fun s => s.setAllList (s.threadAllList ++ [s.mainThread])

/-- `idle` is the page of the idle thread. -/
def threadInit (idle : ℕ) : ThreadM Unit := do
  modify fun s =>
    { s with threadAllList := [], threadReadyList := [], pidBitMap := ⟨128, fun _ => 0⟩ }
  makeMainThread
  threadStart idle [105, 100, 108, 101] 1
  modify fun s => { s with idleThread := idle }

/-- The machine before `threadInit`: the main thread does not lie on a page that was given out,
and the idle thread gets a page. -/
structure Boot (s : Threads) (idle : ℕ) : Prop where
  nodup : s.pages.Nodup
  main : s.current ∉ s.pages
  page : idle ≠ 0
  idle_fresh : idle ∉ s.pages
  idle_main : idle ≠ s.current

structure Wf (s : Threads) : Prop extends Scheduled s, Paged s, Named s

theorem Wf.mk' (h : Scheduled s) (hp : Paged s) (hn : Named s) : Wf s := { h, hp, hn with }

theorem Paged.congr (h : Paged s) (hall : s'.threadAllList = s.threadAllList)
    (hmain : s'.mainThread = s.mainThread) (hpages : s'.pages = s.pages)
    (hdir : ∀ t, (s'.tasks t).pageDir = (s.tasks t).pageDir) : Paged s' := by
  refine ⟨?_, ?_, ?_, ?_, ?_⟩ <;> simp only [hall, hmain, hpages, hdir]
  · exact h.held
  · exact h.nodup
  · exact h.main
  · exact h.dir
  · exact h.dir_inj

theorem Paged.switched (h : Paged s) (hw : Switched s s') : Paged s' :=
  h.congr hw.all hw.main hw.pages fun t => by rw [hw.tasks t]

theorem Paged.setStatus {st : ℤ} (h : Paged s) : Paged ((s.setIntr false).setStatus t st) :=
  h.congr rfl rfl rfl fun p => by by_cases hp : p = t <;> simp [hp]

theorem Named.congr (h : Named s) (hall : ∀ t ∈ s'.threadAllList, t ∈ s.threadAllList)
    (hidle : s'.idleThread = s.idleThread) (hpid : ∀ t, (s'.tasks t).pid = (s.tasks t).pid)
    (hparent : ∀ t, (s'.tasks t).parentPid = (s.tasks t).parentPid) : Named s' where
  nonneg t ht := by
    rw [hpid]
    exact h.nonneg t (hall t ht)
  idle_parent := by
    rw [hparent, hidle]
    exact h.idle_parent

theorem Named.switched (h : Named s) (hw : Switched s s') : Named s' :=
  h.congr (fun _ ht => hw.all ▸ ht) hw.idle (fun t => by rw [hw.tasks t])
    fun t => by rw [hw.tasks t]

theorem Named.setStatus {st : ℤ} (h : Named s) : Named ((s.setIntr false).setStatus t st) :=
  h.congr (fun _ ht => ht) rfl (fun p => by by_cases hp : p = t <;> simp [hp])
    fun p => by by_cases hp : p = t <;> simp [hp]

theorem Named.exit (h : Named s) : Named (exited s t) :=
  h.congr (fun _ ht => List.mem_of_mem_erase ht) rfl
    (fun p => by by_cases hp : p = t <;> simp [exited, hp])
    fun p => by by_cases hp : p = t <;> simp [exited, hp]

theorem Named.enlist {task : TaskStruct} {l : List ℕ} {bm : BitMap} {pages : List ℕ} (h : Named s)
    (hpid : 0 ≤ task.pid) (hidle : s.idleThread ≠ pcb) :
    Named { s with
      tasks := fun p => if p = pcb then task else s.tasks p
      threadReadyList := l
      threadAllList := s.threadAllList ++ [pcb]
      pidBitMap := bm
      pages := pages } where
  nonneg t ht := by
    by_cases hp : t = pcb
    · simpa [hp] using hpid
    · simpa [hp] using h.nonneg t (by simpa [hp] using ht)
  idle_parent := by simpa [hidle] using h.idle_parent

/-- The pages of a new thread, its directory among them if it has one, were not in use. -/
theorem Paged.enlist {task : TaskStruct} {pages : List ℕ} (bm : BitMap) (h : Paged s)
    (hfresh : pcb ∉ s.pages) (hpages : pages.Nodup)
    (hmain : s.mainThread ∉ pages) (hmem : pcb ∈ pages) (hsub : ∀ p ∈ s.pages, p ∈ pages)
    (hdir : task.pageDir ≠ 0 → task.pageDir ∈ pages ∧ task.pageDir ∉ s.pages ∧
      task.pageDir ∉ s.threadAllList ∧ task.pageDir ≠ pcb) :
    Paged { s with
      tasks := fun p => if p = pcb then task else s.tasks p
      threadReadyList := s.threadReadyList ++ [pcb]
      threadAllList := s.threadAllList ++ [pcb]
      pidBitMap := bm
      pages := pages } := by
  have hold : ∀ t ∈ s.threadAllList ++ [pcb], t ≠ pcb → t ∈ s.threadAllList := by
    intro t ht hp
    simpa [hp] using ht
  refine ⟨?_, hpages, hmain, ?_, ?_⟩
  · intro t ht hne
    by_cases hp : t = pcb
    · simpa [hp] using hmem
    · exact hsub t (h.held t (hold t ht hp) hne)
  · intro t ht hd
    by_cases hp : t = pcb
    · simp only [hp, if_true] at hd ⊢
      obtain ⟨hin, -, hnot, hne⟩ := hdir hd
      exact ⟨hin, by simp [hnot, hne]⟩
    · simp only [hp, if_false] at hd ⊢
      obtain ⟨hin, hnot⟩ := h.dir t (hold t ht hp) hd
      have hne : (s.tasks t).pageDir ≠ pcb := fun hc => hfresh (hc ▸ hin)
      exact ⟨hsub _ hin, by simp [hnot, hne]⟩
  · intro t ht p hp hd heq
    by_cases htp : t = pcb
    · by_cases hpp : p = pcb
      · rw [htp, hpp]
      · simp only [htp, hpp, if_true, if_false] at hd heq
        have hin := (h.dir p (hold p hp hpp) (heq ▸ hd)).1
        exact absurd (heq ▸ hin) (hdir hd).2.1
    · by_cases hpp : p = pcb
      · simp only [htp, hpp, if_true, if_false] at hd heq
        have hin := (h.dir t (hold t ht htp) hd).1
        exact absurd (heq ▸ hin) (hdir (heq ▸ hd)).2.1
      · simp only [htp, hpp, if_false] at hd heq
        exact h.dir_inj t (hold t ht htp) p (hold p hp hpp) hd heq

theorem Paged.start (name : List UInt8) (priority : ℕ) (pid : ℤ) (bm : BitMap)
    (h : Paged s) (hfresh : pcb ∉ s.pages) (hne : pcb ≠ s.mainThread) (hnull : pcb ≠ 0) :
    Paged { s with
      tasks := fun p => if p = pcb then freshTask name priority pid else s.tasks p
      threadReadyList := s.threadReadyList ++ [pcb]
      threadAllList := s.threadAllList ++ [pcb]
      pidBitMap := bm
      pages := if pcb = 0 then s.pages else pcb :: s.pages } := by
  rw [if_neg hnull]
  exact h.enlist bm hfresh (List.nodup_cons.mpr ⟨hfresh, h.nodup⟩)
    (by simpa using ⟨hne.symm, h.main⟩) (by simp) (fun p hp => by simp [hp]) fun hd => absurd rfl hd

theorem Wf.setIntr {b : Bool} (h : Wf s) : Wf (s.setIntr b) :=
  .mk' ⟨h.toQueued.congr rfl rfl rfl rfl rfl, h.current_running⟩ (h.toPaged.congr rfl rfl rfl fun _ => rfl)
    (h.toNamed.congr (fun _ ht => ht) rfl (fun _ => rfl) fun _ => rfl)

/-- The threads of `K` stay on the list of all threads, and each thread of `P` keeps its
status, or is awake before and after. -/
structure Spared (P K : ℕ → Prop) (s s' : Threads) : Prop where
  idle : s'.idleThread = s.idleThread
  all : ∀ t, K t → t ∈ s.threadAllList → t ∈ s'.threadAllList
  status : ∀ t, P t →
    s'.status t = s.status t ∨ ¬Sleeping (s.status t) ∧ ¬Sleeping (s'.status t)

theorem Switched.spared (h : Switched s s') :
    Spared (· ≠ s.idleThread) (fun _ => True) s s' where
  idle := h.idle
  all _ _ ht := h.all ▸ ht
  status t ht := by
    by_cases hs : Sleeping (s.status t)
    · exact .inl (h.asleep t ht hs)
    · exact .inr ⟨hs, h.awake t hs⟩

/-- A change of single threads followed by a switch. -/
theorem Spared.switched {P K : ℕ → Prop} (h : Spared P K s s') (hw : Switched s' s'')
    (hidle : ∀ t, P t → t ≠ s.idleThread) : Spared P K s s'' where
  idle := hw.idle.trans h.idle
  all t ht hm := hw.all ▸ h.all t ht hm
  status t ht := by
    have hs := hw.spared.status t (h.idle ▸ hidle t ht)
    obtain he | ⟨ha, ha'⟩ := h.status t ht
    · rwa [he] at hs
    · obtain hs | hs := hs
      · exact .inr ⟨ha, hs ▸ ha'⟩
      · exact .inr ⟨ha, hs.2⟩

theorem spared_of_eq {P K : ℕ → Prop} (hidle : s'.idleThread = s.idleThread)
    (hall : ∀ t, K t → t ∈ s.threadAllList → t ∈ s'.threadAllList)
    (htasks : ∀ t, P t → s'.tasks t = s.tasks t) : Spared P K s s' where
  idle := hidle
  all := hall
  status t ht := .inl (by rw [status, htasks t ht])

/-- The threads that an operation does not aim at. The idle thread is woken by any switch. -/
def ThreadOp.Spares (s : Threads) (op : ThreadOp) (t : ℕ) : Prop :=
  t ≠ s.idleThread ∧
    match op with
    | .start pcb _ _ => t ≠ pcb
    | .tick | .yield => True
    | .block _ | .exitCurrent => t ≠ s.current
    | .unblock p | .exitAsleep p => t ≠ p

/-- The threads that an operation leaves on the lists. -/
def ThreadOp.Keeps (s : Threads) : ThreadOp → ℕ → Prop
  | .exitCurrent, t => t ≠ s.current
  | .exitAsleep p, t => t ≠ p
  | _, _ => True

/-- Every operation keeps the invariant, and none of its assertions fails. -/
theorem wp_threadOp {op : ThreadOp} (h : Wf s) (hen : op.Enabled s) (hal : op.HasPage s) :
    wp noStop e (op.run s) (fun _ s' => Wf s' ∧ Spared (op.Spares s) (op.Keeps s) s s') s := by
  have hmem := h.current_mem h.current_running
  cases op with
  | start pcb name priority =>
    have hpcb : pcb ∉ s.threadAllList := fun hm => hen.1 (h.held pcb hm hen.2)
    apply wp_threadStart (fun hm => hpcb ((h.ready_iff pcb).mp hm).1) hpcb
    intro pid bm hpid
    have hidle : s.idleThread ≠ pcb := fun hc => hpcb (hc ▸ h.idle_mem)
    refine ⟨.mk' ⟨h.toQueued.enlist _ _ _ rfl rfl hpcb hmem, ?_⟩
      (h.toPaged.start _ _ _ _ hen.1 hen.2 hal) (h.toNamed.enlist hpid.nonneg hidle), spared_of_eq rfl
        (fun t _ ht => List.mem_append_left _ ht) fun t ht => if_neg ht.2⟩
    have hne : s.current ≠ pcb := fun hc => hpcb (hc ▸ hmem)
    simpa [status, hne] using h.current_running
  | tick =>
    apply wp_mono (wp_intrTimerHandler h.toScheduled)
    rintro ⟨⟩ s' ⟨hs', hw⟩
    exact ⟨.mk' hs' (h.toPaged.switched hw) (h.toNamed.switched hw),
      (spared_of_eq rfl (fun _ _ ht => ht) fun _ _ => rfl).switched hw fun _ ht => ht.1⟩
  | yield =>
    apply wp_mono (wp_threadYield h.toScheduled)
    rintro ⟨⟩ s' ⟨hs', hw⟩
    exact ⟨.mk' hs' (h.toPaged.switched hw) (h.toNamed.switched hw),
      (spared_of_eq rfl (fun _ _ ht => ht) fun _ _ => rfl).switched hw fun _ ht => ht.1⟩
  | block st =>
    apply wp_mono (wp_threadBlock h.toScheduled hen)
    rintro ⟨⟩ s' ⟨hs', hw, -⟩
    refine ⟨.mk' hs' (h.toPaged.setStatus.switched hw) (h.toNamed.setStatus.switched hw), ?_⟩
    refine Spared.switched ?_ hw fun _ ht => ht.1
    exact spared_of_eq rfl (fun _ _ ht => ht) fun _ ht => if_neg ht.2
  | unblock pcb =>
    obtain ⟨hpcb, hs⟩ := hen
    apply wp_threadUnblock h.toQueued hs
    refine ⟨.mk' ⟨h.toQueued.unblock hpcb hs, ?_⟩
      ((h.toPaged.setStatus (t := pcb)).congr rfl rfl rfl fun _ => rfl)
      ((h.toNamed.setStatus (t := pcb)).congr (fun _ ht => ht) rfl (fun _ => rfl) fun _ => rfl),
      spared_of_eq rfl (fun _ _ ht => ht) fun _ ht => if_neg ht.2⟩
    have hne : s.current ≠ pcb := fun hc => not_sleeping_running (h.current_running ▸ hc ▸ hs)
    simpa [hne] using h.current_running
  | exitCurrent =>
    apply wp_threadExit (h.toPaged.ends hmem hmem fun hne => absurd hal hne)
    apply wp_mono (wp_schedule (h.toQueued.exit hen) rfl)
    rintro ⟨⟩ s' ⟨hs', hw, -⟩
    refine ⟨.mk' hs' ((h.toPaged.exit h.all_nodup hmem).switched hw)
      (h.toNamed.exit.switched hw), ?_⟩
    refine Spared.switched ?_ hw fun _ ht => ht.1
    exact spared_of_eq rfl (fun _ hne ht => (List.mem_erase_of_ne hne).mpr ht)
      fun _ hne => if_neg hne.2
  | exitAsleep t =>
    obtain ⟨ht, hs, hidle⟩ := hen
    have hne : t ≠ s.current := fun hc => not_sleeping_running (h.current_running ▸ hc ▸ hs)
    apply wp_threadExit (h.toPaged.ends hmem ht fun _ => hne)
    refine wp_pure.mpr ⟨.mk' ⟨h.toQueued.exit hidle, ?_⟩ (h.toPaged.exit h.all_nodup ht)
      h.toNamed.exit,
      spared_of_eq rfl (fun _ hne ht => (List.mem_erase_of_ne hne).mpr ht)
        fun _ hne => if_neg hne.2⟩
    simpa [status, exited, hne.symm] using h.current_running

theorem Wf.step (h : Wf s) (hst : ThreadStep ThreadOp.HasPage s s') : Wf s' := by
  obtain ⟨op, b, hen, hal, hret⟩ := hst
  have hrun : op.run s = op.run (s.setIntr b) := by cases op <;> rfl
  have hen' : op.Enabled (s.setIntr b) := by cases op <;> exact hen
  have hal' : op.HasPage (s.setIntr b) := by cases op <;> exact hal
  rw [hrun] at hret
  exact (hret.of_wp (wp_threadOp h.setIntr hen' hal')).1

theorem Wf.law (h : Wf s) : SchedulerLaw s where
  current_mem := h.current_mem h.current_running
  running t ht := ⟨h.running t ht, fun hc => hc ▸ h.current_running⟩
  ready := h.ready_iff
  ready_once := h.ready_nodup
  exited t hd := by
    have hall : t ∉ s.threadAllList := by
      intro hm
      obtain hr | hr | hr := h.alive t hm
      · simp [hd] at hr
      · simp [hd] at hr
      · simp [hd, Sleeping] at hr
    exact ⟨fun hm => hall ((h.ready_iff t).mp hm).1, hall⟩
  asserts op b hen hal := by
    have hrun : op.run s = op.run (s.setIntr b) := by cases op <;> rfl
    have hen' : op.Enabled (s.setIntr b) := by cases op <;> exact hen
    have hal' : op.HasPage (s.setIntr b) := by cases op <;> exact hal
    rw [hrun]
    exact wp_mono (wp_threadOp h.setIntr hen' hal') fun _ _ _ => trivial

theorem Queued.setIdle (h : Queued s) (hmem : idle ∈ s.threadAllList) :
    Queued { s with idleThread := idle } :=
  ⟨h.1, h.2, h.3, h.4, h.5, hmem, h.7, h.8⟩

/-- The machine with the main thread alone. The idle thread is not set yet, any thread on the
list may stand for it. -/
theorem queued_main (s : Threads) (task : TaskStruct) (bm : BitMap)
    (hrun : task.status = TaskStatus.running) (hmagic : task.stackMagicNum = stackMagicNumber) :
    Queued { s with
      mainThread := s.current
      idleThread := s.current
      tasks := fun p => if p = s.current then task else s.tasks p
      threadAllList := [s.current]
      threadReadyList := []
      pidBitMap := bm } := by
  refine ⟨List.nodup_singleton _, List.nodup_nil, ?_, ?_, ?_, ?_, ?_, ?_⟩
  · intro t
    simp only [List.not_mem_nil, List.mem_singleton, false_iff, not_and]
    rintro rfl
    simp [status, hrun]
  · intro t ht _
    simpa using ht
  · simp
  · simp
  · intro t ht
    rw [List.mem_singleton.mp ht]
    simp [status, hrun]
  · intro t ht
    rw [List.mem_singleton.mp ht]
    simpa using hmagic

theorem wp_threadInit (h : Boot s idle) : wp noStop e (threadInit idle) (fun _ s' => Wf s') s := by
  unfold threadInit makeMainThread
  rw [wp_modify_bind]
  apply wp_bind
  apply wp_bind
  apply wp_allocatePid
  intro pid bm hpid
  rw [wp_modify_bind, wp_get_bind]
  refine (wp_assert_pos List.not_mem_nil).mpr ?_
  rw [wp_modify]
  apply wp_bind
  apply wp_threadStart (by simp) (by simpa using h.idle_main)
  intro pid' bm' hpid'
  rw [wp_modify]
  have hmain := queued_main s
    { freshTask [109, 97, 105, 110] 4 pid with status := TaskStatus.running } bm rfl rfl
  have hnew : idle ∉ [s.current] := by simpa using h.idle_main
  have hstart := hmain.enlist (freshTask [105, 100, 108, 101] 1 pid') bm'
    (idle :: s.pages) rfl rfl hnew (by simp)
  have hpaged : Paged { s with
      mainThread := s.current
      tasks := fun p => if p = s.current then
        { freshTask [109, 97, 105, 110] 4 pid with status := TaskStatus.running } else s.tasks p
      threadAllList := [s.current]
      threadReadyList := []
      pidBitMap := bm } := by
    refine ⟨?_, h.nodup, h.main, ?_, ?_⟩
    · intro t ht hne
      exact absurd (List.mem_singleton.mp ht) hne
    · intro t ht
      rw [List.mem_singleton.mp ht]
      simp [freshTask]
    · intro t ht p hp _ _
      rw [List.mem_singleton.mp ht, List.mem_singleton.mp hp]
  have hpaged' := hpaged.start [105, 100, 108, 101] 1 pid' bm' h.idle_fresh h.idle_main h.page
  refine .mk' ⟨(hstart.setIdle (by simp)).congr rfl rfl rfl rfl rfl, ?_⟩
    (hpaged'.congr rfl rfl rfl fun _ => rfl) ⟨?_, ?_⟩
  · simp [status, h.idle_main.symm]
  · intro t ht
    by_cases hi : t = idle
    · simpa [hi, freshTask] using hpid'.nonneg
    · have hc : t = s.current := by simpa [hi] using ht
      simpa [hc, h.idle_main.symm, freshTask] using hpid.nonneg
  · simp [freshTask]

/-- In every run in which each thread gets its page and keeps it while it runs, the scheduler
invariant holds after each step and no assertion can fail. -/
theorem scheduler_law {s₀ : Threads} (hboot : Boot s₀ idle)
    (hinit : Returns () (threadInit idle) s₀ () s)
    (h : Run (ThreadStep ThreadOp.HasPage) s s') : SchedulerLaw s' :=
  (Run.invariant (fun _ _ hs hst => Wf.step hs hst) h (hinit.of_wp (wp_threadInit hboot))).law

/-- A machine with no page given out, about to call `threadInit`. -/
def bootThreads : Threads where
  tasks _ := freshTask [] 0 0
  current := 0xc009e000
  mainThread := 0
  idleThread := 0
  threadReadyList := []
  threadAllList := []
  pidBitMap := ⟨128, fun _ => 0⟩
  pages := []
  intr := false
  cr3 := 0
  ticks := 0

theorem bootThreads_boot : Boot bootThreads 0xc0100000 :=
  ⟨List.nodup_nil, List.not_mem_nil, by decide, List.not_mem_nil, by decide⟩

/-- The state of `bootThreads` after `threadInit`. -/
def initThreads : Threads := (threadInit 0xc0100000 () 0 bootThreads).state

theorem initThreads_returns : Returns () (threadInit 0xc0100000) bootThreads () initThreads :=
  ⟨0, 0, rfl⟩

/-- A thread starts, sleeps and is woken, the idle thread sleeps, and the main thread ends. -/
def lives : List ThreadOp :=
  [.start 0xc0101000 [116, 49] 1, .tick, .yield, .block TaskStatus.blocked,
    .block TaskStatus.waiting, .unblock 0xc0101000, .exitCurrent]

theorem run_of_plays {cond : Threads → ThreadOp → Prop} {ops : List ThreadOp}
    (h : Plays ThreadOp.run (fun s op => op.Enabled s ∧ cond s op) s ops) :
    Run (ThreadStep cond) s (stateAfter ThreadOp.run s ops) :=
  Plays.reaches (fun s op _ hmay hret => ⟨op, s.intr, hmay.1, hmay.2, hret⟩) h

theorem lives_plays :
    Plays ThreadOp.run (fun s op => op.Enabled s ∧ op.HasPage s) initThreads lives := by
  refine ⟨⟨⟨by decide, by decide⟩, show 0xc0101000 ≠ 0 by decide⟩, rfl, ?_⟩
  refine ⟨⟨trivial, trivial⟩, rfl, ?_⟩
  refine ⟨⟨trivial, trivial⟩, rfl, ?_⟩
  refine ⟨⟨.inl rfl, trivial⟩, rfl, ?_⟩
  refine ⟨⟨.inr (.inr rfl), trivial⟩, rfl, ?_⟩
  refine ⟨⟨⟨by decide, .inr (.inr rfl)⟩, trivial⟩, rfl, ?_⟩
  exact ⟨⟨show 0xc009e000 ≠ 0xc0100000 by decide, rfl⟩, rfl, trivial⟩

theorem scheduler_law_sample : SchedulerLaw (stateAfter ThreadOp.run initThreads lives) :=
  scheduler_law bootThreads_boot initThreads_returns (run_of_plays lives_plays)

/-- Two threads that get no page: the second finds the null page on the ready list. And a thread
that ends itself loses its stack. -/
theorem scheduler_law_fails :
    (∃ s, Run (ThreadStep fun _ _ => True) initThreads s ∧
      (ThreadOp.start 0 [116, 49] 1).Enabled s ∧
      ∃ s', Stops () ((ThreadOp.start 0 [116, 49] 1).run s) s s') ∧
    ∃ s, Run (ThreadStep fun s op => op ≠ .exitCurrent → op.HasPage s) initThreads s ∧
      ThreadOp.exitCurrent.Enabled s ∧ ∃ s', Stops () (ThreadOp.exitCurrent.run s) s s' := by
  constructor
  · have h : Plays ThreadOp.run (fun s op => op.Enabled s ∧ True) initThreads
        [.start 0 [116, 48] 1] := ⟨⟨⟨by decide, by decide⟩, trivial⟩, rfl, trivial⟩
    exact ⟨_, run_of_plays h, ⟨by decide, by decide⟩, _, 0, rfl⟩
  · have h : Plays ThreadOp.run (fun s op => op.Enabled s ∧ (op ≠ .exitCurrent → op.HasPage s))
        initThreads [.start 0xc0101000 [116, 49] 1, .yield, .block TaskStatus.blocked] := by
      refine ⟨⟨⟨by decide, by decide⟩, fun _ => show 0xc0101000 ≠ 0 by decide⟩, rfl, ?_⟩
      exact ⟨⟨trivial, fun _ => trivial⟩, rfl, ⟨.inl rfl, fun _ => trivial⟩, rfl, trivial⟩
    exact ⟨_, run_of_plays h, show 0xc0101000 ≠ 0xc0100000 by decide, _, 0, rfl⟩

end Law

end Gogoos.Threads
