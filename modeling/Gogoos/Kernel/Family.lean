import Gogoos.Kernel.Process

/-!
# Families of processes

What `sysFork`, `sysExit` and `sysWait` keep: pids are unique, nobody sleeps in `sysWait` while
a child hangs, and what a run remembers of a process agrees with its PCB.
-/

namespace Gogoos.Threads

open Program

variable {s s' : Threads} {e : Unit} {t child dir : ℕ}

section Pids

/-- Each thread has a pid of its own, and the bit of the pid is set. -/
structure Pids (s : Threads) : Prop where
  length : s.pidBitMap.length = 128
  marked : ∀ t ∈ s.threadAllList,
    ∃ i : ℕ, (s.tasks t).pid = i + 1 ∧ i < 1024 ∧ s.pidBitMap.bit i = true
  inj : ∀ t ∈ s.threadAllList, ∀ p ∈ s.threadAllList, (s.tasks t).pid = (s.tasks p).pid → t = p

theorem Pids.congr (h : Pids s) (hall : s'.threadAllList = s.threadAllList)
    (hbm : s'.pidBitMap = s.pidBitMap) (hpid : ∀ t, (s'.tasks t).pid = (s.tasks t).pid) :
    Pids s' := by
  refine ⟨?_, ?_, ?_⟩ <;> simp only [hall, hbm, hpid]
  · exact h.length
  · exact h.marked
  · exact h.inj

/-- A new thread with the pid that was found. -/
theorem Pids.taken {task : TaskStruct} {bm : BitMap} {l pages : List ℕ} (h : Pids s)
    (hpid : PidTaken s.pidBitMap task.pid bm) (hfree : bitMapScan s.pidBitMap 1 ≠ none) :
    Pids { s with
      tasks := fun p => if p = child then task else s.tasks p
      threadReadyList := l
      threadAllList := s.threadAllList ++ [child]
      pidBitMap := bm
      pages := pages } := by
  obtain ⟨i, hscan, hi, rfl⟩ := hpid.resolve_left fun hc => hfree hc.1
  obtain ⟨hlt, hclear⟩ := bitMapScan_one_eq_some hscan
  have hbits : s.pidBitMap.bits = 1024 := by simp [BitMap.bits, h.length]
  have hold : ∀ t ∈ s.threadAllList ++ [child], t ≠ child → t ∈ s.threadAllList := by
    intro t ht hc
    simpa [hc] using ht
  -- the bits of the other threads are set, so none of them has this pid
  have hother : ∀ t ∈ s.threadAllList, (s.tasks t).pid ≠ task.pid := by
    intro t ht heq
    obtain ⟨j, hj, -, hset⟩ := h.marked t ht
    have : j = i := by omega
    rw [this, hclear.1] at hset
    exact absurd hset (by decide)
  refine ⟨h.length, ?_, ?_⟩
  · intro t ht
    by_cases hc : t = child
    · exact ⟨i, by simpa [hc] using hi, by omega, by simp⟩
    · obtain ⟨j, hj, hjlt, hset⟩ := h.marked t (hold t ht hc)
      exact ⟨j, by simpa [hc] using hj, hjlt, by simp [bitMapSet_bit, hset]⟩
  · intro t ht p hp heq
    by_cases hc : t = child
    · by_cases hcp : p = child
      · rw [hc, hcp]
      · simp only [hc, hcp, if_true, if_false] at heq
        exact absurd heq.symm (hother p (hold p hp hcp))
    · by_cases hcp : p = child
      · simp only [hc, hcp, if_true, if_false] at heq
        exact absurd heq (hother t (hold t ht hc))
      · simp only [hc, hcp, if_false] at heq
        exact h.inj t (hold t ht hc) p (hold p hp hcp) heq

/-- The pid of a thread that is reaped is given back, the others keep theirs. -/
theorem Pids.exit (h : Pids s) (hall : s.threadAllList.Nodup) (ht : t ∈ s.threadAllList) :
    Pids (exited s t) := by
  obtain ⟨i, hi, hlt, -⟩ := h.marked t ht
  have hidx : (((s.tasks t).pid - 1) % 2 ^ 32).toNat = i := by
    rw [hi]
    omega
  refine ⟨h.length, ?_, ?_⟩
  · intro p hp
    obtain ⟨hpt, hp⟩ := hall.mem_erase_iff.mp hp
    obtain ⟨j, hj, hjlt, hset⟩ := h.marked p hp
    have hji : j ≠ i := by
      rintro rfl
      exact hpt (h.inj p hp t ht (hj.trans hi.symm))
    refine ⟨j, by simpa [exited, hpt] using hj, hjlt, ?_⟩
    change (bitMapSet _ _ _).bit j = true
    rw [hidx, bitMapSet_bit_ne _ _ hji]
    exact hset
  · intro p hp q hq heq
    obtain ⟨hpt, hp⟩ := hall.mem_erase_iff.mp hp
    obtain ⟨hqt, hq⟩ := hall.mem_erase_iff.mp hq
    simp only [exited, hpt, hqt, if_false] at heq
    exact h.inj p hp q hq heq

theorem Pids.find (h : Pids s) (ht : t ∈ s.threadAllList) :
    s.pidToThread (s.tasks t).pid = some t := by
  cases hf : s.pidToThread (s.tasks t).pid with
  | none =>
    unfold pidToThread at hf
    have := List.find?_eq_none.mp hf t ht
    simp at this
  | some p =>
    unfold pidToThread at hf
    have hp := List.mem_of_find?_eq_some hf
    have heq : (s.tasks p).pid = (s.tasks t).pid := by simpa using List.find?_some hf
    rw [h.inj p hp t ht heq]

end Pids

section Peace

/-- Nobody sleeps in `sysWait` while a child hangs. -/
def Peace (s : Threads) : Prop :=
  ∀ p ∈ s.threadAllList, s.status p = TaskStatus.waiting →
    ∀ c ∈ s.threadAllList, (s.tasks c).parentPid = (s.tasks p).pid →
      s.status c ≠ TaskStatus.hanging

/-- Nobody new waits or hangs. -/
structure Quiet (s s' : Threads) : Prop where
  all : ∀ t ∈ s'.threadAllList, t ∈ s.threadAllList ∧ (s'.tasks t).pid = (s.tasks t).pid ∧
    (s'.tasks t).parentPid = (s.tasks t).parentPid
  waiting : ∀ t, s'.status t = TaskStatus.waiting → s.status t = TaskStatus.waiting
  hanging : ∀ t, s'.status t = TaskStatus.hanging → s.status t = TaskStatus.hanging

theorem Peace.quiet (h : Peace s) (hq : Quiet s s') : Peace s' := by
  intro p hp hw c hc hpar hh
  obtain ⟨hp', hpid, -⟩ := hq.all p hp
  obtain ⟨hc', -, hparent⟩ := hq.all c hc
  exact h p hp' (hq.waiting p hw) c hc' (by rw [← hparent, ← hpid, hpar]) (hq.hanging c hh)

theorem Switched.quiet (h : Switched s s') : Quiet s s' where
  all t ht := ⟨h.all ▸ ht, by rw [h.tasks t], by rw [h.tasks t]⟩
  waiting t ht := (h.sleeping t (by simp [ht, Sleeping])).symm.trans ht
  hanging t ht := (h.sleeping t (by simp [ht, Sleeping])).symm.trans ht

theorem Quiet.trans {s'' : Threads} (h : Quiet s s') (h' : Quiet s' s'') : Quiet s s'' where
  all t ht := by
    obtain ⟨ht', hpid, hpar⟩ := h'.all t ht
    obtain ⟨ht'', hpid', hpar'⟩ := h.all t ht'
    exact ⟨ht'', hpid.trans hpid', hpar.trans hpar'⟩
  waiting t ht := h.waiting t (h'.waiting t ht)
  hanging t ht := h.hanging t (h'.hanging t ht)

theorem quiet_setStatus {st : ℤ} (hw : st ≠ TaskStatus.waiting) (hh : st ≠ TaskStatus.hanging) :
    Quiet s ((s.setIntr false).setStatus t st) where
  all p hp := by by_cases h : p = t <;> simp_all
  waiting p hp := by by_cases h : p = t <;> simp_all
  hanging p hp := by by_cases h : p = t <;> simp_all

@[simp] theorem exiting_all : (exiting s).threadAllList = s.threadAllList := by
  unfold exiting
  cases s.waitingParent <;> rfl

@[simp] theorem exiting_idle : (exiting s).idleThread = s.idleThread := by
  unfold exiting
  cases s.waitingParent <;> rfl

@[simp] theorem exiting_pidBitMap : (exiting s).pidBitMap = s.pidBitMap := by
  unfold exiting
  cases s.waitingParent <;> rfl

@[simp] theorem exiting_pid : ((exiting s).tasks t).pid = (s.tasks t).pid := by
  unfold exiting
  cases s.waitingParent with
  | none => by_cases ht : t = s.current <;> simp [ht]
  | some p => by_cases ht : t = s.current <;> by_cases hp : t = p <;> simp_all [unblocked]

theorem exiting_parentPid : ((exiting s).tasks t).parentPid =
    ((s.adopted (s.tasks s.current).pid).tasks t).parentPid := by
  unfold exiting
  cases s.waitingParent with
  | none => by_cases ht : t = s.current <;> simp [ht]
  | some p => by_cases ht : t = s.current <;> by_cases hp : t = p <;> simp_all [unblocked]

theorem exiting_status : (exiting s).status t =
    if t = s.current then TaskStatus.hanging else
      if s.waitingParent = some t then TaskStatus.ready else s.status t := by
  unfold exiting
  cases s.waitingParent with
  | none => by_cases ht : t = s.current <;> simp [ht]
  | some p =>
    by_cases ht : t = s.current
    · simp [ht]
    · by_cases hp : p = t
      · simp [ht, hp, unblocked]
      · simp [ht, hp, Ne.symm hp, unblocked]

/-- The argument about `sysExit`: the parent is woken, and a waiting thread that adopts a
hanging child is that parent. -/
theorem Peace.exiting (h : Peace s) (hpids : Pids s)
    (horphan : ∀ c ∈ s.threadAllList, (s.tasks c).parentPid = (s.tasks s.current).pid →
      s.status c = TaskStatus.hanging → ∀ p ∈ s.threadAllList, (s.tasks p).pid = 4 →
      s.status p = TaskStatus.waiting → s.exitParentPid = 4) : Peace s.exiting := by
  -- who still waits was not the parent
  have hparent : ∀ p ∈ s.threadAllList, s.status p = TaskStatus.waiting →
      (s.tasks p).pid = s.exitParentPid → s.waitingParent = some p := by
    intro p hp hw heq
    simp [waitingParent, ← heq, hpids.find hp, hw]
  intro p hp hw c hc hcp hh
  rw [exiting_all] at hp hc
  rw [exiting_parentPid, exiting_pid] at hcp
  rw [exiting_status] at hw hh
  have hpc : p ≠ s.current := by
    rintro rfl
    simp at hw
  have hpw : s.waitingParent ≠ some p := by
    intro hc
    simp [hpc, hc] at hw
  simp only [hpc, hpw, if_false] at hw
  by_cases hcc : c = s.current
  · subst hcc
    exact hpw (hparent p hp hw hcp.symm)
  · have hch : s.status c = TaskStatus.hanging := by
      by_cases hcw : s.waitingParent = some c
      · simp [hcc, hcw] at hh
      · simpa [hcc, hcw] using hh
    by_cases had : (s.tasks c).parentPid = (s.tasks s.current).pid
    · have h4 : (s.tasks p).pid = 4 := by
        rw [← hcp]
        simp [Threads.adopted, hc, had]
      exact hpw (hparent p hp hw (h4.trans (horphan c hc had hch p hp h4 hw).symm))
    · have hcp' : (s.tasks c).parentPid = (s.tasks p).pid := by
        rw [← hcp]
        simp [Threads.adopted, had]
      exact h p hp hw c hc hcp' hch

theorem Peace.exit (h : Peace s) (hall : s.threadAllList.Nodup) : Peace (exited s t) := by
  intro p hp hw c hc hcp
  obtain ⟨hpt, hp⟩ := hall.mem_erase_iff.mp hp
  obtain ⟨hct, hc⟩ := hall.mem_erase_iff.mp hc
  have hcp' : (s.tasks c).parentPid = (s.tasks p).pid := by simpa [exited, hpt, hct] using hcp
  have hw' : s.status p = TaskStatus.waiting := by simpa [status, exited, hpt] using hw
  simpa [status, exited, hct] using h p hp hw' c hc hcp'

/-- The caller of `sysWait` sleeps because none of its children hangs. -/
theorem Peace.wait (h : Peace s)
    (hnone : s.findHangingChild (s.tasks s.current).pid = none) :
    Peace ((s.setIntr false).setStatus s.current TaskStatus.waiting) := by
  have hpid : ∀ q, (((s.setIntr false).setStatus s.current TaskStatus.waiting).tasks q).pid =
      (s.tasks q).pid := by
    intro q
    by_cases hq : q = s.current <;> simp [hq]
  have hpar : ∀ q, (((s.setIntr false).setStatus s.current TaskStatus.waiting).tasks q).parentPid =
      (s.tasks q).parentPid := by
    intro q
    by_cases hq : q = s.current <;> simp [hq]
  intro p hp hw c hc hcp
  rw [hpid, hpar] at hcp
  by_cases hcc : c = s.current
  · simp [hcc]
  · simp only [status_setStatus, hcc, if_false, status_setIntr]
    by_cases hpc : p = s.current
    · subst hpc
      unfold findHangingChild at hnone
      have := List.find?_eq_none.mp hnone c hc
      intro hh
      exact this (by simpa [hcp] using hh)
    · simp only [status_setStatus, hpc, if_false, status_setIntr] at hw
      exact h p hp hw c hc hcp

/-- A new thread is ready, and no thread waits for what is not there yet. -/
theorem Peace.enlist {task : TaskStruct} {bm : BitMap} {l pages : List ℕ} (h : Peace s)
    (hready : task.status = TaskStatus.ready) :
    Peace { s with
      tasks := fun p => if p = child then task else s.tasks p
      threadReadyList := l
      threadAllList := s.threadAllList ++ [child]
      pidBitMap := bm
      pages := pages } := by
  intro p hp hw c hc hcp hh
  have hpc : p ≠ child := by
    rintro rfl
    simp [status, hready] at hw
  have hcc : c ≠ child := by
    rintro rfl
    simp [status, hready] at hh
  simp only [status, hpc, hcc, if_false] at hw hh hcp
  exact h p (by simpa [hpc] using hp) hw c (by simpa [hcc] using hc) hcp hh

end Peace

section Ghost

/-- What a run remembers: a process hangs once it has exited, and no thread that is on the
lists was reaped. -/
structure Remembered (s : Threads) (exitStatus : ℕ → Option ℤ) (reaps : ℕ → ℕ) : Prop where
  hung : ∀ t ∈ s.threadAllList, s.status t = TaskStatus.hanging → exitStatus t ≠ none
  stays : ∀ t ∈ s.threadAllList, exitStatus t ≠ none →
    s.status t = TaskStatus.hanging ∧ t ≠ s.idleThread
  fresh : ∀ t ∈ s.threadAllList, reaps t = 0
  once : ∀ t, reaps t ≤ 1

variable {exitStatus : ℕ → Option ℤ} {reaps : ℕ → ℕ}

theorem Remembered.quiet (h : Remembered s exitStatus reaps) (hq : Quiet s s')
    (hidle : s'.idleThread = s.idleThread)
    (hkeep : ∀ t ∈ s.threadAllList, t ≠ s.idleThread → s.status t = TaskStatus.hanging →
      s'.status t = TaskStatus.hanging) : Remembered s' exitStatus reaps where
  hung t ht hh := h.hung t (hq.all t ht).1 (hq.hanging t hh)
  stays t ht he := by
    obtain ⟨hh, hi⟩ := h.stays t (hq.all t ht).1 he
    exact ⟨hkeep t (hq.all t ht).1 hi hh, hidle ▸ hi⟩
  fresh t ht := h.fresh t (hq.all t ht).1
  once := h.once

theorem Remembered.switched (h : Remembered s exitStatus reaps) (hw : Switched s s') :
    Remembered s' exitStatus reaps := by
  refine h.quiet hw.quiet hw.idle ?_
  intro t _ hi hh
  rw [hw.asleep t hi (by simp [hh, Sleeping]), hh]

theorem Remembered.setStatus {st : ℤ} (h : Remembered s exitStatus reaps)
    (hst : s.status t ≠ TaskStatus.hanging) (hh : st ≠ TaskStatus.hanging) :
    Remembered ((s.setIntr false).setStatus t st) exitStatus reaps where
  hung p hp := by
    by_cases hpt : p = t
    · simp [hpt, hh]
    · simpa [hpt] using h.hung p hp
  stays p hp he := by
    obtain ⟨hph, hi⟩ := h.stays p hp he
    have hpt : p ≠ t := fun hc => hst (hc ▸ hph)
    exact ⟨by simpa [hpt] using hph, hi⟩
  fresh := h.fresh
  once := h.once

/-- The memory of a PCB starts afresh with a new process. -/
theorem Remembered.enlist {task : TaskStruct} {bm : BitMap} {l pages : List ℕ}
    (h : Remembered s exitStatus reaps) (hready : task.status = TaskStatus.ready) :
    Remembered { s with
      tasks := fun p => if p = child then task else s.tasks p
      threadReadyList := l
      threadAllList := s.threadAllList ++ [child]
      pidBitMap := bm
      pages := pages } (fun p => if p = child then none else exitStatus p)
      (fun p => if p = child then 0 else reaps p) where
  hung p hp := by
    by_cases hpc : p = child
    · simp [status, hpc, hready]
    · simpa [status, hpc] using h.hung p (by simpa [hpc] using hp)
  stays p hp := by
    by_cases hpc : p = child
    · simp [hpc]
    · simpa [status, hpc] using h.stays p (by simpa [hpc] using hp)
  fresh p hp := by
    by_cases hpc : p = child
    · simp [hpc]
    · simpa [hpc] using h.fresh p (by simpa [hpc] using hp)
  once p := by
    by_cases hpc : p = child
    · simp [hpc]
    · simpa [hpc] using h.once p

/-- The same for a PCB that does not come to the lists. -/
theorem Remembered.offList {task : TaskStruct} {bm : BitMap}
    (h : Remembered s exitStatus reaps) (hnot : child ∉ s.threadAllList) :
    Remembered (forkFailed s child task bm) (fun p => if p = child then none else exitStatus p)
      (fun p => if p = child then 0 else reaps p) where
  hung p hp := by
    have hpc : p ≠ child := fun hc => hnot (hc ▸ hp)
    simpa [status, forkFailed, hpc] using h.hung p hp
  stays p hp := by
    have hpc : p ≠ child := fun hc => hnot (hc ▸ hp)
    simpa [status, forkFailed, hpc] using h.stays p hp
  fresh p hp := by
    have hpc : p ≠ child := fun hc => hnot (hc ▸ hp)
    simpa [hpc] using h.fresh p hp
  once p := by
    by_cases hpc : p = child
    · simp [hpc]
    · simpa [hpc] using h.once p

theorem Remembered.pageTaken (h : Remembered s exitStatus reaps) (hnot : child ∉ s.threadAllList) :
    Remembered { s with pages := child :: s.pages }
      (fun p => if p = child then none else exitStatus p)
      (fun p => if p = child then 0 else reaps p) := by
  rw [← forkFailed_self]
  exact h.offList hnot

theorem Remembered.exiting {st : ℤ} (h : Remembered s exitStatus reaps)
    (hidle : s.current ≠ s.idleThread) :
    Remembered (exiting s) (fun p => if p = s.current then some st else exitStatus p) reaps where
  hung p hp := by
    rw [exiting_all] at hp
    rw [exiting_status]
    by_cases hpc : p = s.current
    · simp [hpc]
    · by_cases hpw : s.waitingParent = some p
      · simp [hpc, hpw]
      · simpa [hpc, hpw] using h.hung p hp
  stays p hp he := by
    rw [exiting_all] at hp
    rw [exiting_status, exiting_idle]
    by_cases hpc : p = s.current
    · simpa [hpc] using hidle
    · obtain ⟨hh, hi⟩ := h.stays p hp (by simpa [hpc] using he)
      have hpw : s.waitingParent ≠ some p := by
        intro hc
        obtain ⟨-, -, hw⟩ := waitingParent_mem hc
        simp [hh] at hw
      simpa [hpc, hpw] using ⟨hh, hi⟩
  fresh p hp := h.fresh p (exiting_all ▸ hp)
  once := h.once

theorem Remembered.reaped (h : Remembered s exitStatus reaps) (hall : s.threadAllList.Nodup)
    (ht : t ∈ s.threadAllList) :
    Remembered (exited s t) exitStatus (fun p => if p = t then reaps p + 1 else reaps p) where
  hung p hp := by
    obtain ⟨hpt, hp⟩ := hall.mem_erase_iff.mp hp
    simpa [status, exited, hpt] using h.hung p hp
  stays p hp := by
    obtain ⟨hpt, hp⟩ := hall.mem_erase_iff.mp hp
    simpa [status, exited, hpt] using h.stays p hp
  fresh p hp := by
    obtain ⟨hpt, hp⟩ := hall.mem_erase_iff.mp hp
    simpa [hpt] using h.fresh p hp
  once p := by
    by_cases hpt : p = t
    · simp [hpt, h.fresh t ht]
    · simpa [hpt] using h.once p

end Ghost

end Gogoos.Threads
