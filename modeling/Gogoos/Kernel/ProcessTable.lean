import Gogoos.Kernel.ForkFrame
import Gogoos.Kernel.Process
import Gogoos.Kernel.WaitExit
import Gogoos.Logic.Erase

/-!
# The process table of the machine

What `sysFork`, `sysExit` and `sysWait` do to the PCBs and to the lists of threads is what the
same calls do on the process table: the memory of a process and its descriptors are not seen
there. A call that gives up the processor is looked at together with `schedule`.
-/

namespace Gogoos.Machine

open Program

variable {m r : Machine} {e : Heap} {l : List ℕ} {p : ℕ}

section View

/-- A PCB without descriptors and memory. -/
def outline (t : TaskStruct) : TaskStruct :=
  { t with
    fdTable := fun _ => 0
    umbdArr := fun _ => ⟨0, 0, []⟩
    vap := ⟨⟨0, fun _ => 0⟩, 0, 0⟩ }

/-- The threads in a system call, during which interrupts are off. -/
def threads (pages : List ℕ) (m : Machine) : Threads where
  tasks q := outline (m.tasks q)
  current := m.current
  mainThread := m.mainThread
  idleThread := m.idleThread
  threadReadyList := m.threadReadyList
  threadAllList := m.threadAllList
  pidBitMap := m.pidBitMap
  pages := pages
  intr := false
  cr3 := (m.tasks m.current).pageDir
  ticks := 0

theorem threads_memOnly (h : MemOnly m r) : threads l r = threads l m := by
  unfold threads
  rw [h.tasks, h.current, h.mainThread, h.idleThread, h.ready, h.all, h.pids]

theorem threads_setFs {fs : Fs} : threads l (m.setFs fs) = threads l m := by
  have htasks : ∀ q, outline ((m.setFs fs).tasks q) = outline (m.tasks q) := by
    intro q
    rw [setFs_tasks]
    dsimp only
    split_ifs <;> rfl
  have hdir : ((m.setFs fs).tasks m.current).pageDir = (m.tasks m.current).pageDir := by
    simp
  change ({ threads l m with
    tasks := fun q => outline ((m.setFs fs).tasks q)
    cr3 := ((m.setFs fs).tasks m.current).pageDir } : Threads) = threads l m
  rw [hdir, funext htasks]
  rfl

theorem threads_setTask {t : TaskStruct} (h : p = m.current → t.pageDir = (m.tasks p).pageDir) :
    threads l (m.setTask p t) = (threads l m).setTask p (outline t) := by
  have htasks : ∀ q, outline ((m.setTask p t).tasks q) =
      ((threads l m).setTask p (outline t)).tasks q := by
    intro q
    rw [setTask_tasks]
    exact apply_ite outline _ _ _
  have hdir : ((m.setTask p t).tasks m.current).pageDir = (m.tasks m.current).pageDir := by
    by_cases hp : m.current = p
    · simp [hp, h hp.symm]
    · simp [hp]
  change ({ threads l m with
    tasks := fun q => outline ((m.setTask p t).tasks q)
    cr3 := ((m.setTask p t).tasks m.current).pageDir } : Threads) = _
  rw [hdir, funext htasks]
  rfl

theorem threads_setStatus {v : ℤ} :
    threads l (m.setTask p { m.tasks p with status := v }) =
      (threads l m).setStatus p v := threads_setTask fun _ => rfl

end View

section Scheduler

theorem mirrors_threadUnblock :
    Mirrors (threads l) e (threadUnblock p) (Threads.threadUnblock p) m (fun _ _ => True) := by
  unfold threadUnblock Threads.threadUnblock
  apply mirrors_get_bind
  apply mirrors_assert_bind id
  intro _
  apply mirrors_assert_bind id
  intro _
  refine wp_modifyTask_bind.mpr (wp_modify.mpr ⟨trivial, fun t => ?_⟩)
  change Outcome.returned () t _ = Outcome.returned () t
    ((threads l (m.setTask p { m.tasks p with status := TaskStatus.ready })).setReadyList
      (p :: m.threadReadyList))
  rw [threads_setStatus]
  rfl

theorem ite_bind {ε σ α β : Type} {c : Prop} [Decidable c] {a b : Program ε σ α}
    {f : α → Program ε σ β} : ((if c then a else b) >>= f) = if c then a >>= f else b >>= f := by
  split_ifs <;> rfl

/-- The first part of `schedule`, whatever follows it. -/
theorem mirrors_requeue {f' : KernelM Unit} {f : ThreadM Unit}
    (h : ∀ r, Mirrors (threads l) e f' f r (fun _ _ => True)) :
    Mirrors (threads l) e (get >>= fun m =>
      if (m.tasks m.current).status = TaskStatus.running then do
        assert (m.current ∉ m.threadReadyList)
        modify fun n => n.setReadyList (n.threadReadyList ++ [m.current])
        modifyTask m.current fun t => { t with ticks := t.priority, status := TaskStatus.ready }
        f'
      else f') (Threads.requeue >>= fun _ => f) m (fun _ _ => True) := by
  unfold Threads.requeue
  rw [bind_bind]
  apply mirrors_get_bind
  dsimp only
  rw [ite_bind]
  apply mirrors_ite Iff.rfl
  · intro _
    rw [bind_bind]
    apply mirrors_assert_bind id
    intro _
    refine wp_modify_bind.mpr (wp_modifyTask_bind.mpr ?_)
    set r := (m.setReadyList (m.threadReadyList ++ [m.current])).setTask m.current _ with hr
    have hview : threads l r = ((threads l m).setTask m.current
        { outline (m.tasks m.current) with
          ticks := (m.tasks m.current).priority, status := TaskStatus.ready }).setReadyList
        (m.threadReadyList ++ [m.current]) := by
      rw [hr]
      refine (threads_setTask fun _ => ?_).trans ?_ <;> rfl
    apply wp_mono (h r)
    rintro _ r' ⟨_, hret⟩
    refine ⟨trivial, fun t => ?_⟩
    rw [hview] at hret
    exact hret t
  · exact fun _ => h m

theorem mirrors_wakeIdle {f' : KernelM Unit} {f : ThreadM Unit}
    (h : ∀ r, Mirrors (threads l) e f' f r (fun _ _ => True)) :
    Mirrors (threads l) e (get >>= fun m =>
      if m.threadReadyList = [] then do
        threadUnblock m.idleThread
        f'
      else f') (Threads.wakeIdle >>= fun _ => f) m (fun _ _ => True) := by
  unfold Threads.wakeIdle
  rw [bind_bind]
  apply mirrors_get_bind
  rw [ite_bind]
  apply mirrors_ite Iff.rfl
  · exact fun _ => mirrors_threadUnblock.bind fun _ r _ => h r
  · exact fun _ => h m

theorem mirrors_schedule :
    Mirrors (threads l) e schedule Threads.schedule m (fun _ _ => True) := by
  unfold schedule
  dsimp only
  refine Mirrors.congr (mirrors_requeue fun r => mirrors_wakeIdle fun r' => ?_) fun t => rfl
  unfold Threads.dispatch
  apply mirrors_get_bind
  have hlist : (threads l r').threadReadyList = r'.threadReadyList := rfl
  rw [hlist]
  cases hl : r'.threadReadyList with
  | nil => exact mirrors_halt
  | cons next rest =>
    refine wp_modify_bind.mpr (wp_modifyTask_bind.mpr ?_)
    apply wp_call (keeps_pageDirActivate next e _)
    intro _ r'' hr
    refine wp_modify.mpr ⟨trivial, fun t => ?_⟩
    change Outcome.returned () t (Threads.switchTo _ next) =
      .returned () t (Threads.switchTo (threads l r'') next)
    rw [threads_memOnly hr]
    congr 2
    exact (threads_setStatus (m := r'.setReadyList rest) (p := next)).symm

/-- A thread gives up the processor. -/
theorem mirrors_threadBlock {st : ℤ} : Mirrors (threads l) e
    (threadBlock st >>= fun _ => schedule) (Threads.threadBlock st) m (fun _ _ => True) := by
  unfold threadBlock Threads.threadBlock
  rw [bind_bind]
  apply mirrors_assert_bind id
  intro _
  refine Mirrors.congr (n := get >>= fun s => assert (s.current ∉ s.threadReadyList) >>= fun _ =>
    modify (fun s => s.setStatus s.current st) >>= fun _ => Threads.schedule) ?_ fun t => rfl
  rw [bind_bind]
  apply mirrors_get_bind
  rw [bind_bind]
  apply mirrors_assert_bind id
  intro _
  exact mirrors_modify_bind threads_setStatus mirrors_schedule

end Scheduler

section Exit

theorem keeps_releaseTable {vPdePtr : ℕ} : ∀ cnt, Keeps MemOnly (releaseTable vPdePtr cnt)
  | 0 => keeps_pure ()
  | cnt + 1 => keeps_load.bind fun _ =>
      .ite ((keeps_freePhyAddr _).bind fun _ => keeps_releaseTable cnt) (keeps_releaseTable cnt)

theorem keeps_releaseDirectory {pageDirVaddr : ℕ} : ∀ cnt pdeIdx,
    Keeps MemOnly (releaseDirectory pageDirVaddr cnt pdeIdx)
  | 0, _ => keeps_pure ()
  | cnt + 1, pdeIdx => keeps_load.bind fun _ =>
      .ite ((keeps_releaseTable 1024).bind fun _ => (keeps_freePhyAddr _).bind fun _ =>
        keeps_releaseDirectory cnt (pdeIdx + 1)) (keeps_releaseDirectory cnt (pdeIdx + 1))

theorem threads_freePage {cnt vaddr : ℕ} : wp anyStop e (freePage .kernel vaddr cnt)
    (fun _ r => threads l r = threads l m) m :=
  wp_freePage_kernel fun m₁ h => show threads l m₁ = threads l m from threads_memOnly h

theorem threads_release : wp anyStop e (releaseProgramResource p)
    (fun _ r => threads l r = threads l m) m := by
  unfold releaseProgramResource
  rw [wp_get_bind]
  apply wp_call (keeps_releaseDirectory 768 0 e m)
  intro _ m₁ h₁
  rw [wp_get_bind]
  apply wp_call (threads_freePage (l := l))
  intro _ m₂ h₂
  apply wp_onFs
  refine wp_mono (wp_any _) fun _ fs _ => ?_
  rw [threads_setFs, h₂, threads_memOnly h₁]

theorem mirrors_adoptChildren {pid : ℤ} : Mirrors (threads l) e (adoptChildren pid)
    (Threads.adoptChildren pid) m (fun _ r => r.current = m.current) := by
  refine mirrors_modify ?_ rfl
  set tasks' := fun q => if q ∈ m.threadAllList ∧ (m.tasks q).parentPid = pid then
    { m.tasks q with parentPid := 4 } else m.tasks q with htasks
  have hdir : (tasks' m.current).pageDir = (m.tasks m.current).pageDir := by
    rw [htasks]
    dsimp only
    split_ifs <;> rfl
  have hview : ∀ q, outline (tasks' q) =
      if q ∈ m.threadAllList ∧ (m.tasks q).parentPid = pid then
        { outline (m.tasks q) with parentPid := 4 } else outline (m.tasks q) := by
    intro q
    rw [htasks]
    exact apply_ite outline _ _ _
  change ({ threads l m with
    tasks := fun q => outline (tasks' q)
    cr3 := (tasks' m.current).pageDir } : Threads) = _
  rw [hdir, funext hview]
  rfl

theorem mirrors_sysExit {st : ℤ} : Mirrors (threads l) e (sysExit st >>= fun _ => schedule)
    (Threads.sysExit st) m (fun _ _ => True) := by
  unfold sysExit Threads.sysExit
  rw [bind_bind]
  apply mirrors_get_bind
  dsimp only
  rw [bind_bind]
  apply mirrors_modify_bind threads_setStatus
  rw [bind_bind]
  apply mirrors_assert_bind id
  intro _
  rw [bind_bind]
  apply mirrors_adoptChildren.bind
  intro _ r hcur
  rw [bind_bind]
  apply Mirrors.skip threads_release
  intro _ r' hview
  have hcur' : m.current = r'.current := ((congrArg Threads.current hview).trans hcur).symm
  unfold Threads.wakeParent
  rw [bind_bind, bind_bind]
  apply mirrors_get_bind
  have hparent : (threads l r').pidToThread
      ((threads l r').tasks (threads l r').current).parentPid =
      r'.pidToThread (r'.tasks r'.current).parentPid := rfl
  rw [hparent, hcur']
  cases r'.pidToThread (r'.tasks r'.current).parentPid with
  | none => exact mirrors_halt
  | some parentThread =>
    dsimp only
    rw [ite_bind, ite_bind]
    apply mirrors_ite Iff.rfl
    · intro _
      rw [bind_bind]
      exact mirrors_threadUnblock.bind fun _ _ _ => mirrors_threadBlock
    · exact fun _ => mirrors_threadBlock

theorem exit_table {st : ℤ} : wp anyStop e (sysExit st >>= fun _ => schedule) (fun _ r =>
    Returns () (Threads.sysExit st) (threads l m) () (threads l r)) m :=
  wp_mono mirrors_sysExit fun _ _ hr => ⟨0, 0, hr.2 0⟩

end Exit

section Wait

/-- How a round of `sysWait` ends, on the process table. -/
def waitResult : WaitResult → Threads.WaitResult
  | .reaped status childPid => .reaped status childPid
  | .noChild => .noChild
  | .blocked => .blocked

/-- A step that some states leave out. -/
theorem wp_skip {α : Type} {c : Prop} [Decidable c] {a : KernelM Unit} {f : KernelM α}
    {P : Machine → Prop} {Q : α → Machine → Prop} (ha : c → wp anyStop e a (fun _ r => P r) m)
    (hn : ¬c → P m) (hf : ∀ r, P r → wp anyStop e f Q r) :
    wp anyStop e (if c then a >>= fun _ => f else f) Q m :=
  wp_ite (fun hc => wp_call (ha hc) fun _ r hr => hf r hr) fun hc => hf m (hn hc)

/-- The state after a child was taken off the lists. -/
theorem wp_threadExit_view : wp anyStop e (threadExit p) (fun _ r => ∀ pages',
    threads pages' r = { Threads.exited (threads l m) p with pages := pages' }) m := by
  have hdied := threads_setStatus (m := m) (l := l) (p := p) (v := TaskStatus.died)
  unfold threadExit
  rw [wp_modifyTask_bind, wp_get_bind]
  set m₁ := m.setTask p { m.tasks p with status := TaskStatus.died } with hm₁
  have hpid : (m₁.tasks p).pid = (m.tasks p).pid := by simp [hm₁]
  apply wp_skip (P := fun r => threads l r =
    (threads l m₁).setReadyList (m.threadReadyList.erase p))
  · exact fun _ => wp_modify.mpr rfl
  · intro hnot
    have hout : p ∉ m.threadReadyList := hnot
    rw [List.erase_of_not_mem hout]
    rfl
  intro r₁ h₁
  apply wp_skip (P := fun r => threads l r =
    (threads l m₁).setReadyList (m.threadReadyList.erase p))
  · intro _
    apply wp_mono (threads_freePage (l := l))
    exact fun _ r hr => hr.trans h₁
  · exact fun _ => h₁
  intro r₂ h₂
  rw [wp_modify_bind]
  have hall : r₂.threadAllList = m.threadAllList := congrArg Threads.threadAllList h₂
  have h₃ : threads l (r₂.setAllList (r₂.threadAllList.erase p)) =
      ((threads l m₁).setReadyList (m.threadReadyList.erase p)).setAllList
        (m.threadAllList.erase p) := by
    rw [← h₂, ← hall]
    rfl
  apply wp_skip (P := fun r => threads l r =
    ((threads l m₁).setReadyList (m.threadReadyList.erase p)).setAllList
        (m.threadAllList.erase p))
  · intro _
    apply wp_mono (threads_freePage (l := l))
    exact fun _ r hr => hr.trans h₃
  · exact fun _ => h₃
  intro r₃ h₄
  refine wp_modify.mpr fun pages' => ?_
  have hbm : r₃.pidBitMap = m.pidBitMap := congrArg Threads.pidBitMap h₄
  rw [hpid, hbm]
  change ({ threads l r₃ with
    pages := pages'
    pidBitMap := bitMapSet m.pidBitMap (((m.tasks p).pid - 1) % 2 ^ 32).toNat false } : Threads) = _
  rw [h₄, hdied]
  rfl

/-- A round of `sysWait`, with the switch to another thread when there is nothing to reap yet. -/
def waitRound : KernelM WaitResult := do
  let r ← sysWait
  if r = .blocked then
    schedule
    return r
  else return r

theorem sysWait_blocks {s : Threads} {t : ℕ}
    (hf : s.findHangingChild (s.tasks s.current).pid = none)
    (hc : s.findChild (s.tasks s.current).pid = some p) :
    Threads.sysWait () t s =
      (Threads.threadBlock TaskStatus.waiting >>= fun _ => pure .blocked) () t s := by
  have hget : (get : ThreadM Threads) () t s = .returned s t s := rfl
  unfold Threads.sysWait
  rw [bind_returned hget, hf]
  dsimp only
  rw [hc]

theorem wait_table (h : Threads.Wf (threads l m)) :
    wp anyStop e waitRound (fun o r => ∃ pages',
      Returns () Threads.sysWait (threads l m) (waitResult o) (threads pages' r)) m := by
  unfold waitRound sysWait
  rw [wp_bind_assoc, wp_get_bind]
  dsimp only
  set s := threads l m with hs
  have hchild : s.findHangingChild (s.tasks s.current).pid = m.threadAllList.find? fun q =>
      (m.tasks q).parentPid = (m.tasks m.current).pid ∧
        (m.tasks q).status = TaskStatus.hanging := rfl
  have hany : s.findChild (s.tasks s.current).pid = m.threadAllList.find? fun q =>
      (m.tasks q).parentPid = (m.tasks m.current).pid := rfl
  rw [← hchild, ← hany]
  cases hf : s.findHangingChild (s.tasks s.current).pid with
  | some c =>
    dsimp only
    rw [wp_bind_assoc]
    apply wp_call (wp_threadExit_view (l := l))
    intro _ r hr
    rw [wp_pure_bind, if_neg (by simp)]
    have hw : wp noStop () Threads.sysWait (fun o s' =>
        o = .reaped (s.status c) ((s.tasks c).pid % 2 ^ 16) ∧ s' = Threads.exited s c) s := by
      apply Threads.wp_sysWait h
      · intro q hq
        obtain rfl := Option.some.inj (hf.symm.trans hq)
        exact ⟨rfl, rfl⟩
      · exact fun hn => absurd (hf.symm.trans hn) (by simp)
      · exact fun hn => absurd (hf.symm.trans hn) (by simp)
    obtain ⟨_, _, hret, rfl, rfl⟩ := wp_noStop_returns hw
    refine wp_pure.mpr ⟨(Threads.exited s c).pages, ?_⟩
    rw [hr]
    exact hret
  | none =>
    dsimp only
    cases hc : s.findChild (s.tasks s.current).pid with
    | none =>
      dsimp only
      rw [wp_pure_bind, if_neg (by simp)]
      have hw : wp noStop () Threads.sysWait (fun o s' => o = .noChild ∧ s' = s) s := by
        apply Threads.wp_sysWait h
        · exact fun q hq => absurd (hf.symm.trans hq) (by simp)
        · exact fun _ _ => ⟨rfl, rfl⟩
        · exact fun _ hn => absurd hc hn
      obtain ⟨_, _, hret, rfl, rfl⟩ := wp_noStop_returns hw
      exact wp_pure.mpr ⟨l, hret⟩
    | some c =>
      dsimp only
      rw [wp_bind_assoc]
      have hblock : wp anyStop e (threadBlock TaskStatus.waiting >>= fun _ => schedule)
          (fun _ r => ∀ t, Threads.threadBlock TaskStatus.waiting () t s =
            .returned () t (threads l r)) m := wp_mono mirrors_threadBlock fun _ _ hr => hr.2
      have hround : wp anyStop e ((threadBlock TaskStatus.waiting >>= fun _ => schedule) >>=
          fun _ => (pure .blocked : KernelM WaitResult)) (fun o r => ∃ pages',
            Returns () Threads.sysWait s (waitResult o) (threads pages' r)) m := by
        apply wp_call hblock
        intro _ r hr
        refine wp_pure.mpr ⟨l, 0, 0, ?_⟩
        rw [sysWait_blocks hf hc, bind_returned (hr 0)]
        rfl
      rw [bind_bind] at hround
      exact hround

end Wait

section Fork

open Threads (ForkPages PidTaken copiedTask namedTask forkedTask forkFailed forked)

/-- How far `copyProcess` gets, with the pages that it finds and the threads that it leaves. -/
inductive Copied (s : Threads) (c : ℕ) : ForkPages → Bool → Threads → Prop
  | noBuffer : Copied s c ⟨c, 0, 0, 0⟩ false { s with pages := c :: s.pages }
  | noBitMap {buf : ℕ} {pid : ℤ} {bm : BitMap} : buf ≠ 0 → PidTaken s.pidBitMap pid bm →
      Copied s c ⟨c, buf, 0, 0⟩ false (forkFailed s c (copiedTask (s.tasks s.current) pid) bm)
  | noDirectory {buf vaddrBitMap : ℕ} {pid : ℤ} {bm : BitMap} : buf ≠ 0 → vaddrBitMap ≠ 0 →
      (s.tasks s.current).name.length < 11 → PidTaken s.pidBitMap pid bm →
      Copied s c ⟨c, buf, vaddrBitMap, 0⟩ false
        (forkFailed s c (namedTask (s.tasks s.current) pid 0) bm)
  | all {buf vaddrBitMap dir : ℕ} {pid : ℤ} {bm : BitMap} : buf ≠ 0 → vaddrBitMap ≠ 0 → dir ≠ 0 →
      (s.tasks s.current).name.length < 11 → PidTaken s.pidBitMap pid bm →
      Copied s c ⟨c, buf, vaddrBitMap, dir⟩ true
        (forkFailed s c (forkedTask (s.tasks s.current) pid dir) bm)

variable {s s' : Threads} {c : ℕ} {got : ForkPages} {ok : Bool}

theorem pidTaken_unique {bm bm₁ bm₂ : BitMap} {pid₁ pid₂ : ℤ} (h₁ : PidTaken bm pid₁ bm₁)
    (h₂ : PidTaken bm pid₂ bm₂) : pid₁ = pid₂ ∧ bm₁ = bm₂ := by
  obtain ⟨hs₁, rfl, rfl⟩ | ⟨i, hs₁, rfl, rfl⟩ := h₁ <;>
    obtain ⟨hs₂, rfl, rfl⟩ | ⟨j, hs₂, rfl, rfl⟩ := h₂
  · exact ⟨rfl, rfl⟩
  · exact absurd (hs₁.symm.trans hs₂) (by simp)
  · exact absurd (hs₁.symm.trans hs₂) (by simp)
  · obtain rfl := Option.some.inj (hs₁.symm.trans hs₂)
    exact ⟨rfl, rfl⟩

theorem Copied.ready (h : Copied s c got ok s') : s'.threadReadyList = s.threadReadyList := by
  cases h <;> rfl

/-- A fork that does not find all its pages. -/
theorem Copied.fails (h : Copied s c got false s') (hc : c ≠ 0)
    (hdir : (s.tasks s.current).pageDir ≠ 0) : Returns () (Threads.sysFork got) s (-1) s' := by
  have hw : wp noStop () (Threads.sysFork got) (fun r s'' => r = -1 ∧ s'' = s') s := by
    unfold Threads.sysFork
    rw [wp_get_bind]
    cases h with
    | noBuffer =>
      refine wp_ite (fun h0 => absurd h0 hc) fun _ => ?_
      refine wp_modify_bind.mpr ((wp_assert_pos hdir).mpr ?_)
      exact wp_ite (fun _ => wp_pure.mpr ⟨rfl, rfl⟩) fun h0 => absurd rfl h0
    | noBitMap hbuf hpid =>
      refine wp_ite (fun h0 => absurd h0 hc) fun _ => ?_
      refine wp_modify_bind.mpr ((wp_assert_pos hdir).mpr ?_)
      refine wp_ite (fun h0 => absurd h0 hbuf) fun _ => wp_bind (Threads.wp_allocatePid ?_)
      intro pid bm hpid'
      obtain ⟨rfl, rfl⟩ := pidTaken_unique hpid hpid'
      refine wp_modify_bind.mpr (wp_ite (fun _ => wp_pure.mpr ⟨rfl, rfl⟩) fun h0 => absurd rfl h0)
    | noDirectory hbuf hvb hname hpid =>
      refine wp_ite (fun h0 => absurd h0 hc) fun _ => ?_
      refine wp_modify_bind.mpr ((wp_assert_pos hdir).mpr ?_)
      refine wp_ite (fun h0 => absurd h0 hbuf) fun _ => wp_bind (Threads.wp_allocatePid ?_)
      intro pid bm hpid'
      obtain ⟨rfl, rfl⟩ := pidTaken_unique hpid hpid'
      refine wp_modify_bind.mpr (wp_ite (fun h0 => absurd h0 hvb) fun _ => ?_)
      refine (wp_assert_pos hname).mpr ?_
      rw [wp_modify_bind, Threads.setTask_setTask]
      exact wp_ite (fun _ => wp_pure.mpr ⟨rfl, rfl⟩) fun h0 => absurd rfl h0
  obtain ⟨_, _, hret, rfl, rfl⟩ := wp_noStop_returns hw
  exact hret

theorem Copied.succeeds (h : Copied s c got true s') (hc : c ≠ 0)
    (hdir : (s.tasks s.current).pageDir ≠ 0) (hready : c ∉ s.threadReadyList) :
    Returns () (Threads.sysFork got) s (s'.tasks c).pid { s' with
      threadReadyList := s'.threadReadyList ++ [c]
      threadAllList := s'.threadAllList ++ [c]
      pages := got.pageDir :: s'.pages } := by
  cases h with
  | @all buf vb dir pid bm hbuf hvb hd hname hpid =>
    have hw : wp noStop () (Threads.sysFork ⟨c, buf, vb, dir⟩) (fun r s'' => r = pid ∧
        s'' = forked s c (forkedTask (s.tasks s.current) pid dir) bm (dir :: c :: s.pages)) s := by
      unfold Threads.sysFork
      rw [wp_get_bind]
      refine wp_ite (fun h0 => absurd h0 hc) fun _ => ?_
      refine wp_modify_bind.mpr ((wp_assert_pos hdir).mpr ?_)
      refine wp_ite (fun h0 => absurd h0 hbuf) fun _ => wp_bind (Threads.wp_allocatePid ?_)
      intro pid' bm' hpid'
      obtain ⟨rfl, rfl⟩ := pidTaken_unique hpid hpid'
      refine wp_modify_bind.mpr (wp_ite (fun h0 => absurd h0 hvb) fun _ => ?_)
      refine (wp_assert_pos hname).mpr ?_
      rw [wp_modify_bind, Threads.setTask_setTask]
      refine wp_ite (fun h0 => absurd h0 hd) fun _ => ?_
      rw [wp_modify_bind, Threads.setTask_setTask, wp_get_bind]
      refine (wp_assert_pos hready).mpr (wp_modify_bind.mpr (wp_pure.mpr ⟨rfl, rfl⟩))
    obtain ⟨r, s'', hret, hr, hs⟩ := wp_noStop_returns hw
    have hchild :
        ((forkFailed s c (forkedTask (s.tasks s.current) pid dir) bm).tasks c).pid = pid := by
      simp [forkFailed, forkedTask, namedTask, copiedTask]
    rw [hr, hs] at hret
    rw [hchild]
    exact hret

theorem wp_forkPid_taken {α : Type} {Q : α → Machine → Prop} {f : ℤ → KernelM α}
    (h : ∀ pid bm, PidTaken m.pidBitMap pid bm →
      wp anyStop e (f pid) Q (m.setPidBitMap bm)) : wp anyStop e (forkPid >>= f) Q m := by
  unfold forkPid allocatePid
  rw [wp_bind_assoc, wp_get_bind, bitMapScanAndSet_one]
  cases hscan : bitMapScan m.pidBitMap 1 with
  | none => exact h 0 m.pidBitMap (.inl ⟨hscan, rfl, rfl⟩)
  | some i => exact h _ _ (.inr ⟨i, hscan, rfl, rfl⟩)

section Writes

variable {task : TaskStruct} {bm : BitMap}

theorem forkFailed_setTask {task' : TaskStruct} :
    (forkFailed s c task bm).setTask c task' = forkFailed s c task' bm := by
  have htasks : ((forkFailed s c task bm).setTask c task').tasks =
      (forkFailed s c task' bm).tasks := by
    funext q
    by_cases hq : q = c <;> simp [forkFailed, hq]
  change { forkFailed s c task bm with
    tasks := ((forkFailed s c task bm).setTask c task').tasks } = _
  rw [htasks]
  rfl

theorem outline_child (h : threads l r = forkFailed s c task bm) :
    outline (r.tasks c) = task :=
  (congrFun (congrArg Threads.tasks h) c).trans (if_pos rfl)

/-- The PCB of the child is written once more. -/
theorem threads_write {task' : TaskStruct} (h : threads l r = forkFailed s c task bm)
    (hc : c ≠ s.current) :
    threads l (r.setTask c task') = forkFailed s c (outline task') bm := by
  have hcur : r.current = s.current := congrArg Threads.current h
  rw [threads_setTask fun hp => absurd (hp.trans hcur) hc, h, forkFailed_setTask]

theorem threads_update {f : TaskStruct → TaskStruct} (hf : ∀ t, outline (f t) = f (outline t))
    (h : threads l r = forkFailed s c task bm) (hc : c ≠ s.current) :
    threads l (r.setTask c (f (r.tasks c))) = forkFailed s c (f task) bm := by
  rw [threads_write h hc, hf, outline_child h]

end Writes

theorem wp_copyPcb_table (hm : HeapRange m) (hc : c ≠ m.current) :
    wp anyStop e (copyPcbVaddrBitMapStack0 c m.current) (fun ok r => HeapRange r ∧ ∃ pid bm,
      PidTaken m.pidBitMap pid bm ∧
      (ok = false → threads (c :: l) r =
        forkFailed (threads l m) c (copiedTask (outline (m.tasks m.current)) pid) bm) ∧
      (ok = true → (m.tasks m.current).name.length < 11 ∧
        threads (c :: l) r = forkFailed (threads l m) c
          (namedTask (outline (m.tasks m.current)) pid (m.tasks m.current).pageDir) bm)) m := by
  unfold copyPcbVaddrBitMapStack0
  rw [wp_modify_bind]
  apply wp_forkPid_taken
  intro pid bm hpid
  rw [wp_get_bind, wp_modifyTask_bind]
  set m₀ := (m.setTask c (m.tasks m.current)).setPidBitMap bm with hm₀
  have h₀ : threads (c :: l) m₀ =
      forkFailed (threads l m) c (outline (m.tasks m.current)) bm := by
    change { threads (c :: l) (m.setTask c (m.tasks m.current)) with pidBitMap := bm } = _
    rw [threads_setTask fun hp => absurd hp hc]
    rfl
  set m₁ := m₀.setTask c _ with hm₁
  have h₁ : threads (c :: l) m₁ =
      forkFailed (threads l m) c (copiedTask (outline (m.tasks m.current)) pid) bm := by
    have hself : m₀.tasks c = m.tasks m.current := if_pos rfl
    have hparent : m₀.tasks m.current = m.tasks m.current := if_neg hc.symm
    rw [hm₁, threads_write h₀ hc, hself, hparent]
    rfl
  have hrange : HeapRange m₁ := hm.congr rfl rfl
  clear_value m₁
  apply wp_call (wp_getKernelPages hrange (by norm_num [bitMapPgCnt_eq]))
  rintro (_ | vaddrBitMap) m₂ ⟨hmem, -⟩
  · exact wp_pure.mpr ⟨hmem.heapRange hrange, pid, bm, hpid,
      fun _ => (threads_memOnly hmem).trans h₁, fun h => by simp at h⟩
  have h₂ := (threads_memOnly (l := c :: l) hmem).trans h₁
  rw [wp_get_bind, wp_modifyTask_bind, wp_get_bind, wp_assert_bind]
  refine ⟨fun hname => ?_, fun _ => trivial⟩
  rw [wp_modifyTask_bind, wp_pure]
  set m₃ := m₂.setTask c _ with hm₃
  have h₃ : threads (c :: l) m₃ =
      forkFailed (threads l m) c (copiedTask (outline (m.tasks m.current)) pid) bm := by
    rw [hm₃, threads_write h₂ hc, ← outline_child h₂]
    rfl
  have hchildName : (outline (m₃.tasks c)).name = (m.tasks m.current).name := by
    rw [outline_child h₃]
    rfl
  refine ⟨(hmem.heapRange hrange).congr rfl rfl, pid, bm, hpid, fun h => by simp at h,
    fun _ => ⟨?_, ?_⟩⟩
  · rw [← hchildName]
    exact hname
  · exact threads_update (f := fun t => { t with name := t.name ++ forkSuffix })
      (fun _ => rfl) h₃ hc

theorem wp_copyProcess_table (hm : HeapRange m) (hc : c ≠ m.current) :
    wp anyStop e (copyProcess c m.current) (fun ok r => ∃ got,
      Copied (threads l m) c got ok (threads (c :: l) r)) m := by
  unfold copyProcess
  apply wp_call (wp_getKernelPages hm one_pos)
  rintro (_ | buf) m₁ ⟨h₁, hpages⟩
  · refine wp_pure.mpr ⟨⟨c, 0, 0, 0⟩, ?_⟩
    have hview : threads (c :: l) m₁ = { threads l m with pages := c :: l } :=
      threads_memOnly h₁
    rw [hview]
    exact .noBuffer
  have hbuf : buf ≠ 0 := by
    obtain ⟨n, hn, -⟩ := (hpages buf rfl).1.page
    have := hm.pos
    omega
  have hrange := h₁.heapRange hm
  have hcur : m₁.current = m.current := h₁.current
  have hview : threads l m₁ = threads l m := threads_memOnly h₁
  have hparent : m₁.tasks m.current = m.tasks m.current := by rw [h₁.tasks]
  have hcopy := wp_copyPcb_table (l := l) (e := e) hrange (hcur.symm ▸ hc)
  rw [hcur, hview, hparent, h₁.pids] at hcopy
  apply wp_call hcopy
  rintro (_ | _) m₂ ⟨hrange₂, pid, bm, hpid, hfail, hok⟩
  · refine wp_pure.mpr ⟨⟨c, buf, 0, 0⟩, ?_⟩
    rw [hfail rfl]
    exact .noBitMap hbuf hpid
  obtain ⟨hname, h₂⟩ := hok rfl
  simp only [Bool.not_true, Bool.false_eq_true, ↓reduceIte]
  apply wp_call (wp_pageDirCreate hrange₂)
  rintro (_ | dir) m₃ ⟨hmem, hd⟩
  · have h₃ := (threads_memOnly (l := c :: l) hmem).trans h₂
    refine wp_bind (wp_modifyTask.mpr (wp_pure.mpr ⟨⟨c, buf, buf, 0⟩, ?_⟩))
    rw [threads_update (f := fun t => { t with pageDir := 0 }) (fun _ => rfl) h₃ hc]
    exact .noDirectory hbuf hbuf hname hpid
  have hdir : dir ≠ 0 := hd dir rfl
  have h₃ := (threads_memOnly (l := c :: l) hmem).trans h₂
  rw [wp_modifyTask_bind]
  set m₄ := m₃.setTask c _ with hm₄
  have h₄ : threads (c :: l) m₄ =
      forkFailed (threads l m) c (namedTask (outline (m.tasks m.current)) pid dir) bm :=
    threads_update (f := fun t => { t with pageDir := dir }) (fun _ => rfl) h₃ hc
  clear_value m₄
  apply wp_call (keeps_copyBodyStack3 _ _ _ e m₄)
  intro _ m₅ hmem₅
  have h₅ := (threads_memOnly (l := c :: l) hmem₅).trans h₄
  unfold buildChildStack
  rw [wp_modifyTask_bind]
  set m₆ := m₅.setTask c _ with hm₆
  have h₆ : threads (c :: l) m₆ =
      forkFailed (threads l m) c (forkedTask (outline (m.tasks m.current)) pid dir) bm :=
    threads_update (f := fun t => { t with eax := 0 }) (fun _ => rfl) h₅ hc
  clear_value m₆
  unfold updateInodeOpenCnt
  rw [wp_bind_assoc, wp_get_bind]
  apply wp_onFs_bind
  refine wp_mono (wp_any _) fun _ fs _ => ?_
  apply wp_call (threads_freePage (l := c :: l))
  intro _ r hr
  refine wp_pure.mpr ⟨⟨c, buf, buf, dir⟩, ?_⟩
  rw [hr, threads_setFs, h₆]
  exact .all hbuf hbuf hdir hname hpid

theorem fork_table (hm : HeapRange m) (hc : ¬FreshPages m 1 m.current) :
    wp anyStop e sysFork (fun pid r => ∃ got pages',
      Returns () (Threads.sysFork got) (threads l m) pid (threads pages' r)) m := by
  unfold sysFork
  rw [wp_get_bind]
  apply wp_call (wp_getKernelPages hm one_pos)
  rintro (_ | c) m₁ ⟨h₁, hpages⟩
  · refine wp_pure.mpr ⟨⟨0, 0, 0, 0⟩, l, 0, 0, ?_⟩
    rw [threads_memOnly h₁]
    rfl
  have hfresh := (hpages c rfl).1
  have hview : threads l m₁ = threads l m := threads_memOnly h₁
  have hcur : m₁.current = m.current := h₁.current
  have hparent : m₁.tasks m.current = m.tasks m.current := by rw [h₁.tasks]
  have hne : c ≠ m₁.current := by
    rintro rfl
    exact hc (hcur ▸ hfresh)
  have hpos : c ≠ 0 := by
    obtain ⟨n, hn, -⟩ := hfresh.page
    have := hm.pos
    omega
  rw [wp_get_bind, wp_assert_bind]
  refine ⟨fun hdir => ?_, fun _ => trivial⟩
  rw [hparent] at hdir
  have hcopy := wp_copyProcess_table (l := l) (e := e) (h₁.heapRange hm) hne
  rw [hcur, hview] at hcopy
  apply wp_call hcopy
  rintro (_ | _) m₂ ⟨got, hcopied⟩
  · exact wp_pure.mpr ⟨got, c :: l, hcopied.fails hpos hdir⟩
  simp only [Bool.not_true, Bool.false_eq_true, ↓reduceIte]
  rw [wp_get_bind, wp_assert_bind]
  refine ⟨fun hready => ?_, fun _ => trivial⟩
  rw [wp_modify_bind, wp_modify_bind, wp_pure]
  have hlist : m₂.threadReadyList = m.threadReadyList := hcopied.ready
  rw [hlist] at hready
  exact ⟨got, got.pageDir :: c :: l, hcopied.succeeds hpos hdir hready⟩

end Fork

end Gogoos.Machine
