import Gogoos.Kernel.Rollback
import Gogoos.Kernel.WaiterRun

/-!
# Exhausted pools

`getOnePage` and `getOnePageWithoutVBM` of `kernel/memory.c` take the lock of a pool, a frame of
it and map a page. Here the memory stands beside the two locks and the threads. A thread that has
to wait for the lock is not followed: the programs below are about the time from which it gets
the lock on.
-/

namespace Gogoos

open Program

structure PoolSys where
  mem : Mem
  threads : Threads
  /-- `kernelPap.lock`. -/
  kernelLock : Lock
  /-- `userPap.lock`. -/
  userLock : Lock

abbrev PoolM (α : Type) : Type := Program Unit PoolSys α

namespace PoolSys

variable {s s' : PoolSys} {e : Unit} {pf : PoolFlag} {vaddr paddr : ℕ} {m m' : Mem}

section Programs

def lock (s : PoolSys) : PoolFlag → Lock
  | .user => s.userLock
  | .kernel => s.kernelLock

def setLock (s : PoolSys) (pf : PoolFlag) (l : Lock) : PoolSys :=
  match pf with
  | .user => { s with userLock := l }
  | .kernel => { s with kernelLock := l }

def onMem {α : Type} (p : MemM α) : PoolM α :=
  zoom PoolSys.mem (fun m s => { s with mem := m }) p

/-- The monitor of a pool: the threads with the lock of the pool. -/
def onLock {α : Type} (pf : PoolFlag) (p : MonitorM α) : PoolM α :=
  zoom (fun s => ⟨s.threads, s.lock pf⟩)
    (fun mo s => { s.setLock pf mo.lock with threads := mo.threads }) p

/-- The thread goes to sleep when another one has the semaphore. -/
def lockLock (pf : PoolFlag) : PoolM Unit := do
  let again ← onLock pf Monitor.lockAgain
  if again then pure ()
  else
    let taken ← onLock pf Monitor.semaDown
    if taken then
      onLock pf Monitor.setHolder
      onLock pf Monitor.setTimes
    else halt

def lockUnlock (pf : PoolFlag) : PoolM Unit := onLock pf Monitor.lockUnlock

/-- The pool flag fits the running thread: user space for a process, the kernel's pool for a
thread without a directory. -/
def Matched (s : PoolSys) (pf : PoolFlag) : Prop :=
  match pf with
  | .user => (s.threads.tasks s.threads.current).pageDir ≠ 0
  | .kernel => (s.threads.tasks s.threads.current).pageDir = 0

instance (s : PoolSys) (pf : PoolFlag) : Decidable (s.Matched pf) := by
  cases pf <;> unfold Matched <;> infer_instance

/-- `bitIdx` is an unsigned quotient, so the assertion that it is not negative holds. -/
def markPage (pf : PoolFlag) (vaddr : ℕ) : MemM Unit := do
  let m ← get
  let bitIdx := wordSub vaddr (m.vpool pf).startAddr / 4096
  modify fun m => m.setVap pf (bitMapSet (m.vpool pf).bitMap bitIdx true)

/-- `none` is `NULL`. -/
def getOnePage (pf : PoolFlag) (vaddr : ℕ) : PoolM (Option ℕ) := do
  assert (vaddr % 4096 = 0)
  lockLock pf
  let s ← get
  assert (s.Matched pf)
  onMem (markPage pf vaddr)
  let paddr ← onMem (Mem.allocPhyAddr pf)
  match paddr with
  | none => return none
  | some paddr =>
    onMem (Mem.mapPageTable vaddr paddr)
    lockUnlock pf
    return some vaddr

def getOnePageWithoutVBM (pf : PoolFlag) (vaddr : ℕ) : PoolM (Option ℕ) := do
  lockLock pf
  let paddr ← onMem (Mem.allocPhyAddr pf)
  match paddr with
  | none =>
    lockUnlock pf
    return none
  | some paddr =>
    onMem (Mem.mapPageTable vaddr paddr)
    lockUnlock pf
    return some vaddr

end Programs

section Property

/-- The pool has no frame left. -/
def Empty (m : Mem) (pf : PoolFlag) : Prop := bitMapScan (m.pap pf).bitMap 1 = none

/-- The lock is as it was, and so are the bitmaps and the page tables. -/
structure Undone (pf : PoolFlag) (s s' : PoolSys) : Prop where
  holder : (s'.lock pf).holder = (s.lock pf).holder
  value : (s'.lock pf).value = (s.lock pf).value
  times : (s'.lock pf).holderRepeatTimes = (s.lock pf).holderRepeatTimes
  mem : s'.mem = s.mem

/-- A call that finds no frame returns `NULL` and leaves nothing behind. -/
def FailsCleanly (pf : PoolFlag) (call : PoolM (Option ℕ)) (s : PoolSys) : Prop :=
  Empty s.mem pf → wp noStop () call (fun o s' => o = none ∧ Undone pf s s') s

/-- Every new entry of the directory names a frame that `allocPhyAddr` returned. -/
def TablesReturned (vaddr paddr : ℕ) (m : Mem) : Prop :=
  ∀ m', Returns () (Mem.mapPageTable vaddr paddr) m () m' → ∀ d, m'.pde d ≠ m.pde d →
    ∃ f m₁, Returns () (Mem.allocPhyAddr .kernel) m (some f) m₁ ∧ m'.pde d = mkEntry f

/-- What is promised of an exhausted pool. -/
structure Handled (pf : PoolFlag) (vaddr paddr : ℕ) (s : PoolSys) : Prop where
  getOnePage : FailsCleanly pf (getOnePage pf vaddr) s
  withoutVBM : FailsCleanly pf (getOnePageWithoutVBM pf vaddr) s
  mapPageTable : TablesReturned vaddr paddr s.mem

/-- The running thread can get the lock: nobody has it or the thread itself. The threads that
wait for it are asleep. -/
structure Usable (th : Threads) (l : Lock) : Prop where
  wf : Threads.Wf th
  asleep : ∀ t ∈ l.blockedList, t ∈ th.threadAllList ∧ th.status t = TaskStatus.blocked
  fresh : th.current ∉ l.blockedList
  free : (l.holder = none ∧ l.value = 1 ∧ l.holderRepeatTimes = 0) ∨
    (l.holder = some th.current ∧ l.value = 0 ∧ 0 < l.holderRepeatTimes ∧
      l.holderRepeatTimes + 1 < 2 ^ 32)

end Property

section Locks

@[simp] theorem lock_setLock {l : Lock} : (s.setLock pf l).lock pf = l := by cases pf <;> rfl

@[simp] theorem mem_setLock {l : Lock} : (s.setLock pf l).mem = s.mem := by cases pf <;> rfl

theorem wp_onLock {α : Type} {p : MonitorM α} {Q : α → PoolSys → Prop}
    (h : wp noStop e p (fun a mo => Q a { s.setLock pf mo.lock with threads := mo.threads })
      ⟨s.threads, s.lock pf⟩) : wp noStop e (onLock pf p) Q s :=
  wp_zoom h

/-- After `lockLock` the thread has the lock, one level deeper. -/
structure Locked (pf : PoolFlag) (s s' : PoolSys) : Prop where
  threads : s'.threads = s.threads
  mem : s'.mem = s.mem
  holder : (s'.lock pf).holder = some s.threads.current
  value : (s'.lock pf).value = 0
  times : (s'.lock pf).holderRepeatTimes = (s.lock pf).holderRepeatTimes + 1
  blocked : (s'.lock pf).blockedList = (s.lock pf).blockedList

theorem wp_lockLock (h : Usable s.threads (s.lock pf)) :
    wp noStop e (lockLock pf) (fun _ s' => Locked pf s s') s := by
  have hlk : ∀ l : Lock, ({ s.setLock pf l with threads := s.threads } : PoolSys).lock pf = l := by
    intro l
    cases pf <;> rfl
  unfold lockLock
  apply wp_call (R := fun again s' => if again then Locked pf s s' else s' = s ∧
    (s.lock pf).holder = none ∧ (s.lock pf).value = 1 ∧ (s.lock pf).holderRepeatTimes = 0)
  · apply wp_onLock
    apply Monitor.wp_lockAgain
    · intro hholder
      rcases h.free with ⟨hnone, -⟩ | ⟨-, hvalue, -, htimes⟩
      · rw [hnone] at hholder
        cases hholder
      · refine ⟨rfl, by cases pf <;> rfl, ?_, ?_, ?_, ?_⟩
        · rw [hlk]
          exact hholder
        · rw [hlk]
          exact hvalue
        · rw [hlk]
          exact Nat.mod_eq_of_lt htimes
        · rw [hlk]
    · intro hholder
      rcases h.free with hfree | ⟨hc, -⟩
      · exact ⟨by cases pf <;> rfl, hfree⟩
      · exact absurd hc hholder
  rintro (_ | _) s' hs'
  · obtain ⟨rfl, hnone, hvalue, htimes⟩ := hs'
    rw [if_neg Bool.false_ne_true]
    apply wp_call (R := fun taken r => taken = true ∧
      r = { s'.setLock pf { s'.lock pf with value := 0 } with threads := s'.threads })
    · apply wp_onLock
      apply Monitor.wp_semaDown h.wf h.fresh (.inr hvalue)
      · intro h0
        rw [hvalue] at h0
        exact absurd h0 one_ne_zero
      · exact fun _ => ⟨rfl, rfl⟩
    rintro _ r ⟨rfl, hr⟩
    rw [if_pos rfl]
    unfold Monitor.setHolder Monitor.setTimes Monitor.setLock
    apply wp_bind
    apply wp_onLock
    rw [wp_get_bind, wp_modify]
    apply wp_onLock
    rw [wp_modify, hr]
    cases pf <;> exact ⟨rfl, rfl, rfl, rfl, by rw [htimes]; rfl, rfl⟩
  · rw [if_pos rfl] at hs' ⊢
    exact wp_pure.mpr hs'

/-- `lockUnlock` undoes `lockLock`. -/
theorem wp_lockUnlock (h : Usable s.threads (s.lock pf)) (hl : Locked pf s s') :
    wp noStop e (lockUnlock pf) (fun _ r => Undone pf s r) s' := by
  have hmem : ∀ (l : Lock) th, ({ s'.setLock pf l with threads := th } : PoolSys).mem = s.mem := by
    intro l th
    rw [← hl.mem]
    cases pf <;> rfl
  have hlk : ∀ (l : Lock) th, ({ s'.setLock pf l with threads := th } : PoolSys).lock pf = l := by
    intro l th
    cases pf <;> rfl
  have htimes := hl.times
  apply wp_onLock
  refine Monitor.wp_lockUnlock ?_ ?_ ?_ hl.value ?_ ?_ ?_ ?_
  · rw [hl.threads]
    exact h.wf
  · rw [hl.threads]
    exact hl.holder
  · change 0 < (s'.lock pf).holderRepeatTimes
    omega
  · rw [hl.threads]
    change ∀ t ∈ (s'.lock pf).blockedList, _
    rw [hl.blocked]
    exact h.asleep
  · intro h1
    change 1 < (s'.lock pf).holderRepeatTimes at h1
    rcases h.free with ⟨-, -, h0⟩ | ⟨hholder, hvalue, -, -⟩
    · omega
    · refine ⟨?_, ?_, ?_, hmem _ _⟩
      · rw [hlk, hholder]
        exact hl.holder
      · rw [hlk, hvalue]
        exact hl.value
      · rw [hlk]
        change (s'.lock pf).holderRepeatTimes - 1 = _
        omega
  all_goals
    intro h1
    change (s'.lock pf).holderRepeatTimes = 1 at h1
    rcases h.free with ⟨hnone, hvalue, h0⟩ | ⟨-, -, hpos, -⟩
    swap
    · omega
  · intro _
    exact ⟨by rw [hlk, hnone], by rw [hlk, hvalue], by rw [hlk, h0], hmem _ _⟩
  · intro t rest _
    exact ⟨by rw [hlk, hnone], by rw [hlk, hvalue], by rw [hlk, h0], hmem _ _⟩

end Locks

section Calls

theorem empty_iff : Empty m pf ↔ ¬∃ n < (m.pap pf).bitMap.bits, (m.pap pf).bitMap.bit n = false := by
  constructor
  · rintro h ⟨n, hn, hclear⟩
    rw [bitMapScan_one_eq_none h n hn] at hclear
    exact absurd hclear (by decide)
  · intro h
    cases hscan : bitMapScan (m.pap pf).bitMap 1 with
    | none => exact hscan
    | some n =>
      obtain ⟨hn, hclear, -⟩ := bitMapScan_one_eq_some hscan
      exact absurd ⟨n, hn, hclear⟩ h

theorem wp_onMem {α : Type} {p : MemM α} {Q : α → PoolSys → Prop}
    (h : wp noStop e p (fun a m => Q a { s with mem := m }) s.mem) : wp noStop e (onMem p) Q s :=
  wp_zoom h

theorem wp_allocPhyAddr_empty (h : Empty m pf) :
    wp noStop e (Mem.allocPhyAddr pf) (fun o r => o = none ∧ r = m) m := by
  unfold Mem.allocPhyAddr
  rw [wp_get_bind, h]
  exact wp_pure.mpr ⟨rfl, rfl⟩

/-- `getOnePageWithoutVBM` gives the lock back. -/
theorem withoutVBM_clean (h : Usable s.threads (s.lock pf)) :
    FailsCleanly pf (getOnePageWithoutVBM pf vaddr) s := by
  intro hempty
  unfold getOnePageWithoutVBM
  apply wp_call (wp_lockLock h)
  intro _ r hl
  apply wp_call (R := fun o r' => o = none ∧ r' = r)
  · apply wp_onMem
    rw [← hl.mem] at hempty
    apply wp_mono (wp_allocPhyAddr_empty hempty)
    rintro o m ⟨rfl, rfl⟩
    exact ⟨rfl, rfl⟩
  rintro _ r' ⟨rfl, rfl⟩
  apply wp_call (wp_lockUnlock h hl)
  intro _ r'' hr''
  exact wp_pure.mpr ⟨rfl, hr''⟩

/-- `getOnePage` returns with the lock one level deeper than before. -/
theorem getOnePage_keeps_lock (h : Usable s.threads (s.lock pf)) (hpage : vaddr % 4096 = 0)
    (hm : s.Matched pf) (hempty : Empty s.mem pf) :
    wp noStop e (getOnePage pf vaddr) (fun _ s' =>
      (s'.lock pf).holderRepeatTimes = (s.lock pf).holderRepeatTimes + 1) s := by
  unfold getOnePage
  rw [wp_assert_pos hpage]
  apply wp_call (wp_lockLock h)
  intro _ r hl
  have hr : r.Matched pf := by
    unfold Matched
    rw [hl.threads]
    exact hm
  rw [wp_get_bind, wp_assert_pos hr]
  apply wp_call (R := fun _ r' => Empty r'.mem pf ∧ r'.lock pf = r.lock pf)
  · apply wp_onMem
    unfold markPage
    rw [wp_get_bind, wp_modify]
    refine ⟨?_, by cases pf <;> rfl⟩
    unfold Empty
    rw [Mem.pap_setVap, hl.mem]
    exact hempty
  rintro _ r' ⟨hempty', hlock⟩
  apply wp_call (R := fun o r'' => o = none ∧ r''.lock pf = r.lock pf)
  · apply wp_onMem
    apply wp_mono (wp_allocPhyAddr_empty hempty')
    rintro o m ⟨rfl, rfl⟩
    exact ⟨rfl, hlock⟩
  rintro _ r'' ⟨rfl, hlock'⟩
  refine wp_pure.mpr ?_
  rw [hlock']
  exact hl.times

/-- The address of a new table is used without a test. -/
theorem tablesReturned_iff : TablesReturned vaddr paddr m ↔
    (present (m.pde (vaddr / 4096 / 1024)) = true ∨ ¬Empty m .kernel) := by
  constructor
  · intro h
    by_contra hc
    push Not at hc
    obtain ⟨habs, hempty⟩ := hc
    have hrun : wp noStop () (Mem.mapPageTable vaddr paddr)
        (fun _ r => r.pde (vaddr / 4096 / 1024) = mkEntry 0) m := by
      unfold Mem.mapPageTable
      rw [wp_get_bind, if_neg habs]
      apply wp_call (wp_allocPhyAddr_empty hempty)
      rintro _ _ ⟨rfl, rfl⟩
      rw [wp_modify_bind, wp_modify]
      simp
    obtain ⟨_, m', hret, hpde⟩ := wp_noStop_returns hrun
    have hne : m'.pde (vaddr / 4096 / 1024) ≠ m.pde (vaddr / 4096 / 1024) := by
      intro hc
      rw [← hc, hpde] at habs
      exact habs (by decide)
    obtain ⟨f, m₁, hf, -⟩ := h m' hret _ hne
    cases (hf.of_wp (wp_allocPhyAddr_empty hempty)).1
  · intro h m' hret d hd
    have hrun : wp anyStop () (Mem.mapPageTable vaddr paddr) (fun _ r => r.pde d ≠ m.pde d →
        ∃ f m₁, Returns () (Mem.allocPhyAddr .kernel) m (some f) m₁ ∧ r.pde d = mkEntry f) m := by
      unfold Mem.mapPageTable
      rw [wp_get_bind]
      apply wp_ite
      · intro _
        apply wp_ite
        · exact fun _ => wp_modify.mpr fun hc => absurd rfl hc
        · exact fun _ => wp_halt.mpr trivial
      · intro habs
        have hfull := h.resolve_left habs
        have halloc : wp anyStop () (Mem.allocPhyAddr .kernel) (fun o r => (o = none → Empty m .kernel) ∧
            Returns () (Mem.allocPhyAddr .kernel) m o r ∧ r.pde = m.pde) m := by
          have hnone : wp anyStop () (Mem.allocPhyAddr .kernel)
              (fun o r => (o = none → Empty m .kernel) ∧ r.pde = m.pde) m := by
            unfold Mem.allocPhyAddr
            rw [wp_get_bind]
            cases hscan : bitMapScan (m.pap .kernel).bitMap 1 with
            | none => exact wp_pure.mpr ⟨fun _ => hscan, rfl⟩
            | some n => exact wp_modify_bind.mpr (wp_pure.mpr ⟨nofun, rfl⟩)
          apply wp_mono (wp_and_returns hnone)
          rintro o r ⟨⟨h₁, h₂⟩, h₃⟩
          exact ⟨h₁, h₃, h₂⟩
        apply wp_call halloc
        rintro (_ | f) r ⟨hnone, hf, hpde⟩
        · exact absurd (hnone rfl) hfull
        · rw [wp_modify_bind, wp_modify]
          intro hc
          refine ⟨f, r, hf, ?_⟩
          by_cases hidx : d = vaddr / 4096 / 1024
          · simp [hidx]
          · exact absurd (by simp [hidx, hpde]) hc
    exact hret.of_wp hrun hd

end Calls

section Law

/-- Exhaustion is handled exactly as long as the pool has a frame, so that nothing is left to
handle in `getOnePage`, and the table of the page is there or the kernel's pool has a frame for
it. -/
theorem exhausted_law (h : Usable s.threads (s.lock pf)) (hpage : vaddr % 4096 = 0)
    (hm : s.Matched pf) :
    Handled pf vaddr paddr s ↔
      (∃ n < (s.mem.pap pf).bitMap.bits, (s.mem.pap pf).bitMap.bit n = false) ∧
      (present (s.mem.pde (vaddr / 4096 / 1024)) = true ∨
        ∃ n < s.mem.kernelPap.bitMap.bits, s.mem.kernelPap.bitMap.bit n = false) := by
  have hkernel : ¬Empty s.mem .kernel ↔
      ∃ n < s.mem.kernelPap.bitMap.bits, s.mem.kernelPap.bitMap.bit n = false := by
    rw [empty_iff, not_not]
    rfl
  rw [← hkernel]
  constructor
  · intro hh
    refine ⟨?_, tablesReturned_iff.mp hh.mapPageTable⟩
    by_contra hc
    have hempty := empty_iff.mpr hc
    obtain ⟨o, s', hret, -, hundone⟩ := wp_noStop_returns (hh.getOnePage hempty)
    have htimes := hret.of_wp (getOnePage_keeps_lock h hpage hm hempty)
    have hsame := hundone.times
    omega
  · rintro ⟨hframe, htable⟩
    constructor
    · intro hempty
      exact absurd hframe (empty_iff.mp hempty)
    · exact withoutVBM_clean h
    · exact tablesReturned_iff.mpr htable

/-- A process on a machine with one frame left for user space, which no page is mapped to. -/
def scarceSys : PoolSys := ⟨Mem.scarceMem, LockSys.familyThreads, lockInit, lockInit⟩

/-- Both pools are exhausted. -/
def emptySys : PoolSys :=
  { scarceSys with
    mem := { Mem.scarceMem with
      kernelPap := ⟨⟨1, fun _ => 0xff⟩, 0x200000⟩
      userPap := ⟨⟨1, fun _ => 0xff⟩, 0x208000⟩ } }

theorem usable_lockInit : Usable LockSys.familyThreads lockInit :=
  ⟨LockSys.familyThreads_wf, by decide, by decide, .inl ⟨rfl, rfl, rfl⟩⟩

theorem exhausted_law_sample : Handled .user 0x8000 0x208000 scarceSys :=
  (exhausted_law usable_lockInit (by decide) (by decide)).mpr
    ⟨⟨0, by decide, by decide⟩, .inr ⟨0, by decide, by decide⟩⟩

/-- `getOnePage` returns `NULL` with the lock held and the page marked, and a page is mapped
through a table at frame 0. -/
theorem exhausted_law_fails :
    Usable emptySys.threads (emptySys.lock .user) ∧ Empty emptySys.mem .user ∧
    (∃ s, Returns () (getOnePage .user 0x8000) emptySys none s ∧
      (s.lock .user).holder = some emptySys.threads.current ∧
      s.mem.vap.bitMap.bit 0 = true ∧ emptySys.mem.vap.bitMap.bit 0 = false) ∧
    (∃ m, Returns () (Mem.mapPageTable 0x8000 0x208000) emptySys.mem () m ∧
      emptySys.mem.pde 0 = 0 ∧ m.pde 0 = mkEntry 0) ∧
    ¬Handled .user 0x8000 0x208000 emptySys := by
  have hempty : Empty emptySys.mem .user := by unfold Empty; decide +kernel
  refine ⟨usable_lockInit, hempty, ?_, ?_, ?_⟩
  · exact ⟨_, .of_value (by decide +kernel), by decide +kernel, by decide +kernel,
      by decide +kernel⟩
  · exact ⟨_, .of_value (by decide +kernel), by decide +kernel, by decide +kernel⟩
  · intro hh
    obtain ⟨o, s', hret, -, hundone⟩ := wp_noStop_returns (hh.getOnePage hempty)
    have htimes := hret.of_wp
      (getOnePage_keeps_lock usable_lockInit (by decide) (by decide) hempty)
    have hsame := hundone.times
    omega

end Law

end PoolSys

end Gogoos
