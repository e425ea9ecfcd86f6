import Gogoos.Kernel.Lock

/-!
# The invariant of a lock

The invariant has two halves. One follows the threads that sleep on the lock: who is on a list
sleeps with the status of that list, and who has left it is awake. The other says who has the
semaphore and what `holder` and `holderRepeatTimes` are at each point of the code of that
thread; the value of the semaphore is 1 exactly when there is no such thread.
-/

namespace Gogoos

open Program Threads

variable {th th' : Threads} {lk lk' : Lock} {pc : ℕ → LockPc} {depth : ℕ → ℕ} {o : Option ℕ}
  {e : Unit} {t : ℕ} {m : Monitor} {Q : Unit → Monitor → Prop}

section Invariant

/-- The threads that sleep on the lock, and those in its code that do not. -/
structure QueueInv (th : Threads) (lk : Lock) (pc : ℕ → LockPc) : Prop where
  blocked_nodup : lk.blockedList.Nodup
  waiting_nodup : lk.waitingList.Nodup
  blocked : ∀ t ∈ lk.blockedList, pc t = .retest ∧ th.status t = TaskStatus.blocked
  waiting : ∀ t ∈ lk.waitingList, pc t = .waiting ∧ th.status t = TaskStatus.waiting
  active : ∀ t, pc t ≠ .out → t ∈ th.threadAllList ∧ t ≠ th.idleThread
  awake : ∀ t, pc t ≠ .out → t ∉ lk.blockedList → t ∉ lk.waitingList →
    ¬Sleeping (th.status t)

/-- The points between taking the semaphore and `lockLock` returning, and between the outermost
`lockUnlock` starting and giving the semaphore back. -/
def LockPc.Busy : LockPc → Prop
  | .setHolder | .setTimes | .clearHolder | .clearTimes | .up => True
  | .out | .down | .retest | .waiting => False

/-- The thread has the semaphore. -/
def Inside (pc : ℕ → LockPc) (depth : ℕ → ℕ) (t : ℕ) : Prop := 0 < depth t ∨ (pc t).Busy

/-- `holder` and `holderRepeatTimes` while `t` has the semaphore. -/
def Fields (lk : Lock) (t d : ℕ) : LockPc → Prop
  | .setHolder | .up => lk.holder = none ∧ lk.holderRepeatTimes = 0
  | .setTimes => lk.holder = some t ∧ lk.holderRepeatTimes = 0
  | .clearHolder => lk.holder = some t ∧ lk.holderRepeatTimes = 1
  | .clearTimes => lk.holder = none ∧ lk.holderRepeatTimes = 1
  | .out | .down | .retest | .waiting => lk.holder = some t ∧ lk.holderRepeatTimes = d

structure OwnerInv (lk : Lock) (pc : ℕ → LockPc) (depth : ℕ → ℕ) (o : Option ℕ) : Prop where
  inside : ∀ t, Inside pc depth t ↔ o = some t
  value : lk.value = if o = none then 1 else 0
  free : o = none → lk.holder = none ∧ lk.holderRepeatTimes = 0
  fields : ∀ t, o = some t → Fields lk t (depth t) (pc t)
  resting : ∀ t, 0 < depth t → pc t = .out ∨ pc t = .waiting
  bound : ∀ t, depth t < 2 ^ 32

/-- No thread is left asleep: when the semaphore is free, somebody who was woken is about to
test it. -/
def NotStranded (lk : Lock) (pc : ℕ → LockPc) : Prop :=
  lk.value = 1 → lk.blockedList ≠ [] → ∃ t, pc t = .retest ∧ t ∉ lk.blockedList

structure LockInv (s : LockSys) : Prop where
  wf : Wf s.threads
  queue : QueueInv s.threads s.lock s.pc
  owner : ∃ o, OwnerInv s.lock s.pc s.depth o
  held : ∀ t, 0 < s.depth t → t ∈ s.threads.threadAllList ∧ t ≠ s.threads.idleThread
  stranded : NotStranded s.lock s.pc

end Invariant

section Queue

theorem QueueInv.not_blocked (h : QueueInv th lk pc) (hrun : ¬Sleeping (th.status t)) :
    t ∉ lk.blockedList := fun hm => hrun (by simp [(h.blocked t hm).2, Sleeping])

theorem QueueInv.not_waiting (h : QueueInv th lk pc) (hrun : ¬Sleeping (th.status t)) :
    t ∉ lk.waitingList := fun hm => hrun (by simp [(h.waiting t hm).2, Sleeping])

theorem QueueInv.blocked_mem (h : QueueInv th lk pc) :
    ∀ t ∈ lk.blockedList, t ∈ th.threadAllList ∧ th.status t = TaskStatus.blocked := by
  intro t ht
  obtain ⟨hpc, hst⟩ := h.blocked t ht
  exact ⟨(h.active t (by simp [hpc])).1, hst⟩

/-- What other threads do elsewhere keeps the queues. -/
theorem QueueInv.spared {P K : ℕ → Prop} (h : QueueInv th lk pc) (hs : Spared P K th th')
    (hP : ∀ t, pc t ≠ .out → P t) (hK : ∀ t, pc t ≠ .out → K t) : QueueInv th' lk pc where
  blocked_nodup := h.blocked_nodup
  waiting_nodup := h.waiting_nodup
  blocked t ht := by
    obtain ⟨hpc, hst⟩ := h.blocked t ht
    obtain he | ⟨hn, -⟩ := hs.status t (hP t (by simp [hpc]))
    · exact ⟨hpc, he.trans hst⟩
    · exact absurd (by simp [hst, Sleeping]) hn
  waiting t ht := by
    obtain ⟨hpc, hst⟩ := h.waiting t ht
    obtain he | ⟨hn, -⟩ := hs.status t (hP t (by simp [hpc]))
    · exact ⟨hpc, he.trans hst⟩
    · exact absurd (by simp [hst, Sleeping]) hn
  active t ht := by
    obtain ⟨hm, hi⟩ := h.active t ht
    exact ⟨hs.all t (hK t ht) hm, hs.idle ▸ hi⟩
  awake t ht hb hw := by
    obtain he | ⟨-, hn⟩ := hs.status t (hP t ht)
    · exact he ▸ h.awake t ht hb hw
    · exact hn

theorem QueueInv.switched (h : QueueInv th lk pc) (hs : Switched th th') : QueueInv th' lk pc :=
  h.spared hs.spared (fun t ht => (h.active t ht).2) fun _ _ => trivial

/-- The thread `t`, which is awake, goes on to `p`. -/
theorem QueueInv.goto {p : LockPc} (h : QueueInv th lk pc) (hrun : ¬Sleeping (th.status t))
    (hmem : t ∈ th.threadAllList) (hidle : t ≠ th.idleThread) :
    QueueInv th lk (fun q => if q = t then p else pc q) where
  blocked_nodup := h.blocked_nodup
  waiting_nodup := h.waiting_nodup
  blocked q hq := by
    have hne : q ≠ t := fun he => h.not_blocked hrun (he ▸ hq)
    simpa [hne] using h.blocked q hq
  waiting q hq := by
    have hne : q ≠ t := fun he => h.not_waiting hrun (he ▸ hq)
    simpa [hne] using h.waiting q hq
  active q hq := by
    by_cases hqt : q = t
    · exact hqt ▸ ⟨hmem, hidle⟩
    · exact h.active q (by simpa [hqt] using hq)
  awake q hq hb hw := by
    by_cases hqt : q = t
    · exact hqt ▸ hrun
    · exact h.awake q (by simpa [hqt] using hq) hb hw

/-- Only the lists of the lock matter. -/
theorem QueueInv.congr (h : QueueInv th lk pc) (hb : lk'.blockedList = lk.blockedList)
    (hw : lk'.waitingList = lk.waitingList) : QueueInv th lk' pc := by
  refine ⟨?_, ?_, ?_, ?_, h.active, ?_⟩
  · exact hb ▸ h.blocked_nodup
  · exact hw ▸ h.waiting_nodup
  · exact hb ▸ h.blocked
  · exact hw ▸ h.waiting
  · exact hb ▸ hw ▸ h.awake

/-- The running thread goes to sleep on the semaphore. -/
theorem QueueInv.block (h : QueueInv th lk pc) (hrun : ¬Sleeping (th.status th.current))
    (hpc : pc th.current ≠ .out) :
    QueueInv ((th.setIntr false).setStatus th.current TaskStatus.blocked)
      { lk with blockedList := lk.blockedList ++ [th.current] }
      (fun q => if q = th.current then .retest else pc q) := by
  have hnb := h.not_blocked hrun
  have hnw := h.not_waiting hrun
  refine ⟨?_, h.waiting_nodup, ?_, ?_, ?_, ?_⟩
  · exact (List.perm_append_singleton _ _).nodup_iff.mpr (List.nodup_cons.mpr ⟨hnb, h.blocked_nodup⟩)
  · intro q hq
    by_cases hqc : q = th.current
    · simp [hqc]
    · simpa [hqc] using h.blocked q (by simpa [hqc] using hq)
  · intro q hq
    have hne : q ≠ th.current := fun he => hnw (he ▸ hq)
    simpa [hne] using h.waiting q hq
  · intro q hq
    by_cases hqc : q = th.current
    · rw [hqc]
      exact h.active _ hpc
    · exact h.active q (by simpa [hqc] using hq)
  · intro q hq hb hw
    have hqc : q ≠ th.current := fun he => hb (by simp [he])
    simpa [hqc] using h.awake q (by simpa [hqc] using hq) (fun hm => hb (by simp [hm])) hw

/-- The running thread goes to sleep in `lockWait`. -/
theorem QueueInv.wait (h : QueueInv th lk pc) (hrun : ¬Sleeping (th.status th.current))
    (hmem : th.current ∈ th.threadAllList) (hidle : th.current ≠ th.idleThread) :
    QueueInv ((th.setIntr false).setStatus th.current TaskStatus.waiting)
      { lk with waitingList := lk.waitingList ++ [th.current] }
      (fun q => if q = th.current then .waiting else pc q) := by
  have hnb := h.not_blocked hrun
  have hnw := h.not_waiting hrun
  refine ⟨h.blocked_nodup, ?_, ?_, ?_, ?_, ?_⟩
  · exact (List.perm_append_singleton _ _).nodup_iff.mpr (List.nodup_cons.mpr ⟨hnw, h.waiting_nodup⟩)
  · intro q hq
    have hne : q ≠ th.current := fun he => hnb (he ▸ hq)
    simpa [hne] using h.blocked q hq
  · intro q hq
    by_cases hqc : q = th.current
    · simp [hqc]
    · simpa [hqc] using h.waiting q (by simpa [hqc] using hq)
  · intro q hq
    by_cases hqc : q = th.current
    · rw [hqc]
      exact ⟨hmem, hidle⟩
    · exact h.active q (by simpa [hqc] using hq)
  · intro q hq hb hw
    have hqc : q ≠ th.current := fun he => hw (by simp [he])
    simpa [hqc] using h.awake q (by simpa [hqc] using hq) hb fun hm => hw (by simp [hm])

/-- The first of the semaphore's list is woken. -/
theorem QueueInv.wakeBlocked {rest : List ℕ} (h : QueueInv th lk pc)
    (hl : lk.blockedList = t :: rest) :
    QueueInv (th.unblocked t) { lk with blockedList := rest } pc := by
  have hnd := List.nodup_cons.mp (hl ▸ h.blocked_nodup)
  obtain ⟨hpc, hst⟩ := h.blocked t (by simp [hl])
  refine ⟨hnd.2, h.waiting_nodup, ?_, ?_, h.active, ?_⟩
  · intro q hq
    have hne : q ≠ t := fun he => hnd.1 (he ▸ hq)
    simpa [Threads.unblocked, hne] using h.blocked q (by simp [hl, show q ∈ rest from hq])
  · intro q hq
    have hne : q ≠ t := by
      rintro rfl
      simp [(h.waiting q hq).2] at hst
    simpa [Threads.unblocked, hne] using h.waiting q hq
  · intro q hq hb hw
    by_cases hqt : q = t
    · simp [Threads.unblocked, hqt]
    · have hnot : q ∉ lk.blockedList := by
        rw [hl]
        exact fun hm => (List.mem_cons.mp hm).elim hqt hb
      simpa [Threads.unblocked, hqt] using h.awake q hq hnot hw

/-- The first of the waiting list is woken. -/
theorem QueueInv.wakeWaiting {rest : List ℕ} (h : QueueInv th lk pc)
    (hl : lk.waitingList = t :: rest) :
    QueueInv (th.unblocked t) { lk with waitingList := rest } pc := by
  have hnd := List.nodup_cons.mp (hl ▸ h.waiting_nodup)
  obtain ⟨hpc, hst⟩ := h.waiting t (by simp [hl])
  refine ⟨h.blocked_nodup, hnd.2, ?_, ?_, h.active, ?_⟩
  · intro q hq
    have hne : q ≠ t := by
      rintro rfl
      simp [(h.blocked q hq).2] at hst
    simpa [Threads.unblocked, hne] using h.blocked q hq
  · intro q hq
    have hne : q ≠ t := fun he => hnd.1 (he ▸ hq)
    simpa [Threads.unblocked, hne] using h.waiting q (by simp [hl, show q ∈ rest from hq])
  · intro q hq hb hw
    by_cases hqt : q = t
    · simp [Threads.unblocked, hqt]
    · have hnot : q ∉ lk.waitingList := by
        rw [hl]
        exact fun hm => (List.mem_cons.mp hm).elim hqt hw
      simpa [Threads.unblocked, hqt] using h.awake q hq hb hnot

end Queue

section Owner

variable {p : LockPc} {d : ℕ} {o' : Option ℕ}

/-- The lists of the lock do not matter. -/
theorem OwnerInv.congr (h : OwnerInv lk pc depth o) (hvalue : lk'.value = lk.value)
    (hholder : lk'.holder = lk.holder) (htimes : lk'.holderRepeatTimes = lk.holderRepeatTimes) :
    OwnerInv lk' pc depth o := by
  refine ⟨h.inside, hvalue.trans h.value, ?_, ?_, h.resting, h.bound⟩
  · rw [hholder, htimes]
    exact h.free
  · intro t ht
    have hf := h.fields t ht
    cases hpc : pc t <;> simpa [Fields, hpc, hholder, htimes] using hf

/-- One thread goes on, the others stay where they are. -/
theorem OwnerInv.update (h : OwnerInv lk pc depth o) (ho : ∀ q, q ≠ t → (o = some q ↔ o' = some q))
    (hin : (0 < d ∨ p.Busy) ↔ o' = some t) (hvalue : lk'.value = if o' = none then 1 else 0)
    (hfree : o' = none → lk'.holder = none ∧ lk'.holderRepeatTimes = 0)
    (hfields : o' = some t → Fields lk' t d p)
    (hother : ∀ q, q ≠ t → o' = some q →
      lk'.holder = lk.holder ∧ lk'.holderRepeatTimes = lk.holderRepeatTimes)
    (hrest : 0 < d → p = .out ∨ p = .waiting) (hbound : d < 2 ^ 32) :
    OwnerInv lk' (fun q => if q = t then p else pc q) (fun q => if q = t then d else depth q) o' where
  inside q := by
    by_cases hq : q = t
    · simpa [Inside, hq] using hin
    · have := h.inside q
      rw [← ho q hq, ← this]
      simp [Inside, hq]
  value := hvalue
  free := hfree
  fields q hoq := by
    by_cases hq : q = t
    · subst hq
      simpa using hfields hoq
    · obtain ⟨hh, ht⟩ := hother q hq hoq
      have hf := h.fields q ((ho q hq).mpr hoq)
      simp only [hq, if_false]
      cases hpc : pc q <;> simpa [Fields, hpc, hh, ht] using hf
  resting q hq := by
    by_cases hqt : q = t
    · simpa [hqt] using hrest (by simpa [hqt] using hq)
    · simpa [hqt] using h.resting q (by simpa [hqt] using hq)
  bound q := by
    by_cases hqt : q = t
    · simpa [hqt] using hbound
    · simpa [hqt] using h.bound q

/-- A thread that does not have the semaphore moves on without it. -/
theorem OwnerInv.outside (h : OwnerInv lk pc depth o) (hout : ¬Inside pc depth t) (hp : ¬p.Busy)
    (hvalue : lk'.value = lk.value) (hholder : lk'.holder = lk.holder)
    (htimes : lk'.holderRepeatTimes = lk.holderRepeatTimes) :
    OwnerInv lk' (fun q => if q = t then p else pc q)
      (fun q => if q = t then depth t else depth q) o := by
  have hne : o ≠ some t := fun he => hout ((h.inside t).mpr he)
  have hd : depth t = 0 := by
    by_contra hd
    exact hout (.inl (Nat.pos_of_ne_zero hd))
  refine h.update (fun _ _ => Iff.rfl) ?_ (hvalue.trans h.value) ?_ (fun he => absurd he hne)
    (fun _ _ _ => ⟨hholder, htimes⟩) ?_ (h.bound t)
  · simp [hd, hp, hne]
  · intro hn
    rw [hholder, htimes]
    exact h.free hn
  · simp [hd]

/-- The thread that has the semaphore moves on with it. -/
theorem OwnerInv.keep (h : OwnerInv lk pc depth (some t)) (hin : 0 < d ∨ p.Busy)
    (hvalue : lk'.value = lk.value) (hfields : Fields lk' t d p)
    (hrest : 0 < d → p = .out ∨ p = .waiting) (hbound : d < 2 ^ 32) :
    OwnerInv lk' (fun q => if q = t then p else pc q) (fun q => if q = t then d else depth q)
      (some t) := by
  refine h.update (fun _ _ => Iff.rfl) (by simpa using hin) (hvalue.trans h.value) (by simp)
    (fun _ => hfields) ?_ hrest hbound
  intro q hq ho
  exact absurd (Option.some.inj ho).symm hq

theorem OwnerInv.acquire (h : OwnerInv lk pc depth none) (hvalue : lk'.value = 0)
    (hholder : lk'.holder = lk.holder) (htimes : lk'.holderRepeatTimes = lk.holderRepeatTimes)
    (hd : depth t = 0) :
    OwnerInv lk' (fun q => if q = t then .setHolder else pc q)
      (fun q => if q = t then depth t else depth q) (some t) := by
  obtain ⟨hh, ht⟩ := h.free rfl
  refine h.update ?_ (by simp [LockPc.Busy]) (by simpa using hvalue) (by simp) (fun _ => ?_) ?_
    (by simp [hd]) (h.bound t)
  · intro q hq
    simp [hq.symm]
  · exact ⟨hholder.trans hh, htimes.trans ht⟩
  · intro q hq ho
    exact absurd (Option.some.inj ho).symm hq

theorem OwnerInv.release (h : OwnerInv lk pc depth (some t)) (hp : ¬p.Busy)
    (hvalue : lk'.value = 1) (hholder : lk'.holder = none) (htimes : lk'.holderRepeatTimes = 0) :
    OwnerInv lk' (fun q => if q = t then p else pc q) (fun q => if q = t then 0 else depth q)
      none := by
  refine h.update ?_ (by simp [hp]) (by simpa using hvalue) (fun _ => ⟨hholder, htimes⟩) (by simp)
    (by simp) (by simp) (by simp)
  intro q hq
  simp [hq.symm]

theorem OwnerInv.value_cases (h : OwnerInv lk pc depth o) : lk.value = 0 ∨ lk.value = 1 := by
  have := h.value
  split_ifs at this <;> simp [this]

theorem OwnerInv.free_of_value (h : OwnerInv lk pc depth o) (hv : lk.value = 1) : o = none := by
  by_contra hn
  have := h.value
  simp [hn, hv] at this

theorem OwnerInv.value_of_inside (h : OwnerInv lk pc depth (some t)) : lk.value = 0 := by
  simpa using h.value

/-- A thread holds the lock exactly when it has nested calls or is about to give the lock
back. -/
theorem OwnerInv.not_holder (h : OwnerInv lk pc depth o) (hout : ¬Inside pc depth t) :
    lk.holder ≠ some t := by
  intro hh
  cases o with
  | none => simp [(h.free rfl).1] at hh
  | some q =>
    have hq : q ≠ t := fun he => hout ((h.inside t).mpr (he ▸ rfl))
    have hf := h.fields q rfl
    cases hpc : pc q <;> simp [Fields, hpc, hh] at hf <;> exact hq hf.1.symm

theorem OwnerInv.holder_of_depth (h : OwnerInv lk pc depth o) (hd : 0 < depth t) :
    o = some t ∧ lk.holder = some t ∧ lk.holderRepeatTimes = depth t := by
  have ho := (h.inside t).mp (.inl hd)
  have hf := h.fields t ho
  obtain hpc | hpc := h.resting t hd
  · exact ⟨ho, by simpa [Fields, hpc] using hf⟩
  · exact ⟨ho, by simpa [Fields, hpc] using hf⟩

end Owner

end Gogoos
