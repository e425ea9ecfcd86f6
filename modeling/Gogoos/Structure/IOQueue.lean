import Gogoos.Logic.Program
import Gogoos.Logic.Run

/-!
# The queue between interrupt and reader

`lib/structure/ioqueue.c`. A call of `ioQueuePutChar` or `ioQueueGetChar` is cut where it gives
the lock up: one round is what the thread does from getting the lock to `lockWait` or the return.
What was put and what was returned is remembered.
-/

namespace Gogoos

open Program

/-- The queue without its lock. `producer` and `consumer` are never used. -/
structure IOQueue where
  buf : ℕ → UInt8
  head : ℕ
  tail : ℕ
  isFull : Bool
  isEmpty : Bool

/-- `IOQUEUE_BUF_SIZE`. -/
def ioQueueBufSize : ℕ := 10

def nextPos (pos : ℕ) : ℕ := (pos + 1) % ioQueueBufSize

namespace IOQueue

def ioQueueInit (queue : IOQueue) : IOQueue :=
  { queue with head := 0, tail := 0, isEmpty := true, isFull := false }

/-- The statements of `ioQueuePutChar` behind the loop. -/
def store (queue : IOQueue) (elem : UInt8) : IOQueue where
  buf := fun pos => if pos = queue.head then elem else queue.buf pos
  head := nextPos queue.head
  tail := queue.tail
  isFull := if nextPos queue.head = queue.tail then true else queue.isFull
  isEmpty := false

/-- The character that `ioQueueGetChar` returns. -/
def first (queue : IOQueue) : UInt8 := queue.buf queue.tail

/-- The statements of `ioQueueGetChar` behind the loop. -/
def drop (queue : IOQueue) : IOQueue where
  buf := queue.buf
  head := queue.head
  tail := nextPos queue.tail
  isFull := false
  isEmpty := if nextPos queue.tail = queue.head then true else queue.isEmpty

section Content

variable {q : IOQueue} {l : List UInt8} {c : UInt8}

/-- The characters of the list are unread, the oldest at the tail. -/
structure Holds (q : IOQueue) (l : List UInt8) : Prop where
  tail_lt : q.tail < ioQueueBufSize
  length_le : l.length ≤ ioQueueBufSize
  head : q.head = (q.tail + l.length) % ioQueueBufSize
  cells : ∀ i (hi : i < l.length), q.buf ((q.tail + i) % ioQueueBufSize) = l[i]
  isEmpty : q.isEmpty = true ↔ l = []
  isFull : q.isFull = true ↔ l.length = ioQueueBufSize

theorem holds_init : Holds (ioQueueInit q) [] where
  tail_lt := Nat.zero_lt_succ 9
  length_le := by decide
  head := rfl
  cells i hi := absurd hi (Nat.not_lt_zero i)
  isEmpty := by simp [ioQueueInit]
  isFull := by simp [ioQueueInit, ioQueueBufSize]

/-- The cell that is written holds no unread character. -/
theorem Holds.head_ne (h : Holds q l) (hlt : l.length < ioQueueBufSize) {i : ℕ}
    (hi : i < l.length) : (q.tail + i) % ioQueueBufSize ≠ q.head := by
  have htail := h.tail_lt
  rw [h.head]
  unfold ioQueueBufSize at *
  omega

theorem Holds.store (h : Holds q l) (hfull : q.isFull = false) : Holds (q.store c) (l ++ [c]) := by
  have hlt : l.length < ioQueueBufSize := by
    refine lt_of_le_of_ne h.length_le fun hc => ?_
    rw [h.isFull.mpr hc] at hfull
    exact absurd hfull (by decide)
  have hhead := h.head
  have htail := h.tail_lt
  refine ⟨h.tail_lt, by simpa using hlt, ?_, ?_, by simp [IOQueue.store], ?_⟩
  · rw [List.length_append, List.length_singleton]
    change nextPos q.head = (q.tail + (l.length + 1)) % ioQueueBufSize
    unfold nextPos
    rw [hhead, Nat.mod_add_mod, Nat.add_assoc]
  · intro i hi
    rw [List.length_append, List.length_singleton] at hi
    change (if (q.tail + i) % ioQueueBufSize = q.head then c else
      q.buf ((q.tail + i) % ioQueueBufSize)) = _
    by_cases hil : i < l.length
    · rw [if_neg (h.head_ne hlt hil), h.cells i hil, List.getElem_append_left]
    · obtain rfl : i = l.length := by omega
      rw [if_pos hhead.symm]
      simp
  · rw [List.length_append, List.length_singleton]
    change (if nextPos q.head = q.tail then true else q.isFull) = true ↔ _
    rw [hfull]
    have hwrap : nextPos q.head = q.tail ↔ l.length + 1 = ioQueueBufSize := by
      rw [hhead]
      unfold nextPos ioQueueBufSize at *
      omega
    rw [← hwrap]
    split_ifs with hw <;> simp [hw]

theorem Holds.drop (h : Holds q (c :: l)) : q.first = c ∧ Holds q.drop l := by
  have hhead := h.head
  have htail := h.tail_lt
  have hle := h.length_le
  have hne : q.isEmpty = false := by
    rw [← Bool.not_eq_true, h.isEmpty]
    simp
  rw [List.length_cons] at hhead hle
  have hnext : ∀ i, (nextPos q.tail + i) % ioQueueBufSize = (q.tail + (i + 1)) % ioQueueBufSize := by
    intro i
    unfold nextPos
    rw [Nat.mod_add_mod, Nat.add_assoc, Nat.add_comm 1 i]
  refine ⟨?_, Nat.mod_lt _ (by decide), by omega, ?_, ?_, ?_, ?_⟩
  · have h0 := h.cells 0 (by simp)
    rw [Nat.add_zero, Nat.mod_eq_of_lt htail] at h0
    exact h0
  · change q.head = (nextPos q.tail + l.length) % ioQueueBufSize
    rw [hnext, hhead]
  · intro i hi
    change q.buf ((nextPos q.tail + i) % ioQueueBufSize) = l[i]
    rw [hnext, h.cells (i + 1) (by simpa using hi)]
    rfl
  · change (if nextPos q.tail = q.head then true else q.isEmpty) = true ↔ _
    have hwrap : nextPos q.tail = q.head ↔ l = [] := by
      rw [← List.length_eq_zero_iff, hhead]
      unfold nextPos ioQueueBufSize at *
      omega
    rw [hne, ← hwrap]
    split_ifs with hw <;> simp [hw]
  · change false = true ↔ _
    have : l.length ≠ ioQueueBufSize := by omega
    simp [this]

end Content

end IOQueue

/-- A call with its argument. -/
inductive QueueCall where
  | put (elem : UInt8)
  | get
  deriving DecidableEq

/-- The queue and the threads that use it, known by numbers. -/
structure QueueSys where
  queue : IOQueue
  /-- The threads that sleep in `lockWait`. -/
  waitingList : List ℕ
  /-- The call that a thread is in. -/
  calls : ℕ → Option QueueCall
  /-- The characters of the calls of `ioQueuePutChar` that have returned, oldest first. -/
  put : List UInt8
  /-- The characters that were returned, oldest first. -/
  returned : List UInt8

abbrev QueueM (α : Type) : Type := Program Unit QueueSys α

namespace QueueSys

section Calls

def lockWait (cur : ℕ) : QueueM Unit := do
  let s ← get
  assert (cur ∉ s.waitingList)
  modify fun s => { s with waitingList := s.waitingList ++ [cur] }

def lockNotifyAll : QueueM Unit := modify fun s => { s with waitingList := [] }

/-- One round of the loop of `ioQueuePutChar`: whether the call is over. -/
def ioQueuePutChar (cur : ℕ) (elem : UInt8) : QueueM Bool := do
  let s ← get
  if s.queue.isFull = true then
    lockWait cur
    return false
  else
    modify fun s => { s with queue := s.queue.store elem }
    lockNotifyAll
    return true

/-- One round of the loop of `ioQueueGetChar`, with the character when the call is over. -/
def ioQueueGetChar (cur : ℕ) : QueueM (Option UInt8) := do
  let s ← get
  if s.queue.isEmpty = true then
    lockWait cur
    return none
  else
    let res := s.queue.first
    modify fun s => { s with queue := s.queue.drop }
    lockNotifyAll
    return some res

@[simps] def setCall (s : QueueSys) (t : ℕ) (c : Option QueueCall) : QueueSys :=
  { s with calls := fun p => if p = t then c else s.calls p }

/-- What the thread `t` does while it has the lock. -/
def round (t : ℕ) : QueueCall → QueueM Unit
  | .put elem => do
    let done ← ioQueuePutChar t elem
    if done = true then modify fun s => { s.setCall t none with put := s.put ++ [elem] }
    else pure ()
  | .get => do
    let res ← ioQueueGetChar t
    match res with
    | some c => modify fun s => { s.setCall t none with returned := s.returned ++ [c] }
    | none => pure ()

/-- A thread begins a call, or a thread that does not sleep gets the lock. -/
inductive Step (s : QueueSys) : QueueSys → Prop
  | call {t : ℕ} {c : QueueCall} (hout : s.calls t = none) : Step s (s.setCall t (some c))
  | round {t : ℕ} {c : QueueCall} {s' : QueueSys} (hin : s.calls t = some c)
      (hawake : t ∉ s.waitingList) (hret : Returns () (round t c) s () s') : Step s s'

end Calls

section Law

variable {s s' : QueueSys} {e : Unit} {t : ℕ} {c : QueueCall} {l : List UInt8}

/-- The queue after `ioQueueInit`, and nobody uses it yet. -/
structure Start (s : QueueSys) : Prop where
  queue : ∃ q, s.queue = IOQueue.ioQueueInit q
  waitingList : s.waitingList = []
  calls : ∀ t, s.calls t = none
  put : s.put = []
  returned : s.returned = []

/-- What was put is what was returned and then what the queue holds. -/
def Inv (s : QueueSys) : Prop := ∃ l, s.put = s.returned ++ l ∧ s.queue.Holds l

/-- How a round changes the queue and the log. -/
structure Rounds (s s' : QueueSys) (l l' : List UInt8) : Prop where
  holds : s'.queue.Holds l'
  log : s'.put = s'.returned ++ l'
  returned : s'.returned = s.returned ∨ ∃ c, l = c :: l' ∧ s'.returned = s.returned ++ [c]
  kept : ∀ i < l.length, s'.queue.buf ((s.queue.tail + i) % ioQueueBufSize) =
    s.queue.buf ((s.queue.tail + i) % ioQueueBufSize)

/-- Neither log has changed, and the queue is now `q`. -/
structure Logged (s r : QueueSys) (q : IOQueue) : Prop where
  queue : r.queue = q
  put : r.put = s.put
  returned : r.returned = s.returned

theorem wp_lockWait (hawake : t ∉ s.waitingList) :
    wp noStop e (lockWait t) (fun _ r => Logged s r s.queue) s := by
  unfold lockWait
  rw [wp_get_bind, wp_assert_pos hawake, wp_modify]
  exact ⟨rfl, rfl, rfl⟩

theorem wp_ioQueuePutChar {elem : UInt8} (hawake : t ∉ s.waitingList) :
    wp noStop e (ioQueuePutChar t elem) (fun done r => (done = false ∧ Logged s r s.queue) ∨
      (done = true ∧ s.queue.isFull = false ∧ Logged s r (s.queue.store elem))) s := by
  unfold ioQueuePutChar
  rw [wp_get_bind]
  apply wp_ite
  · intro _
    exact wp_call (wp_lockWait hawake) fun _ r hr => wp_pure.mpr (.inl ⟨rfl, hr⟩)
  · intro hfull
    unfold lockNotifyAll
    rw [wp_modify_bind, wp_modify_bind]
    exact wp_pure.mpr (.inr ⟨rfl, by simpa using hfull, ⟨rfl, rfl, rfl⟩⟩)

theorem wp_ioQueueGetChar (hawake : t ∉ s.waitingList) :
    wp noStop e (ioQueueGetChar t) (fun res r => (res = none ∧ Logged s r s.queue) ∨
      (res = some s.queue.first ∧ s.queue.isEmpty = false ∧ Logged s r s.queue.drop)) s := by
  unfold ioQueueGetChar
  rw [wp_get_bind]
  apply wp_ite
  · intro _
    exact wp_call (wp_lockWait hawake) fun _ r hr => wp_pure.mpr (.inl ⟨rfl, hr⟩)
  · intro hempty
    unfold lockNotifyAll
    rw [wp_modify_bind, wp_modify_bind]
    exact wp_pure.mpr (.inr ⟨rfl, by simpa using hempty, ⟨rfl, rfl, rfl⟩⟩)

theorem Logged.rounds {r : QueueSys} (hr : Logged s r s.queue) (hq : s.queue.Holds l)
    (hlog : s.put = s.returned ++ l) : Rounds s r l l :=
  ⟨hr.queue ▸ hq, by rw [hr.put, hr.returned, hlog], .inl hr.returned, fun _ _ => by rw [hr.queue]⟩

theorem wp_round (hq : s.queue.Holds l) (hlog : s.put = s.returned ++ l)
    (hawake : t ∉ s.waitingList) :
    wp noStop e (round t c) (fun _ s' => ∃ l', Rounds s s' l l') s := by
  cases c with
  | put elem =>
    apply wp_call (wp_ioQueuePutChar hawake)
    rintro done r (⟨rfl, hr⟩ | ⟨rfl, hfull, hr⟩)
    · exact wp_pure.mpr ⟨l, hr.rounds hq hlog⟩
    · have hlt : l.length < ioQueueBufSize := by
        refine lt_of_le_of_ne hq.length_le fun hc => ?_
        rw [hq.isFull.mpr hc] at hfull
        exact absurd hfull (by decide)
      refine wp_modify.mpr ⟨l ++ [elem], ?_, ?_, .inl hr.returned, fun i hi => ?_⟩
      · change r.queue.Holds _
        rw [hr.queue]
        exact hq.store hfull
      · change r.put ++ [elem] = r.returned ++ (l ++ [elem])
        rw [hr.put, hr.returned, hlog, List.append_assoc]
      · change r.queue.buf _ = _
        rw [hr.queue]
        exact if_neg (hq.head_ne hlt hi)
  | get =>
    apply wp_call (wp_ioQueueGetChar hawake)
    rintro res r (⟨rfl, hr⟩ | ⟨rfl, hempty, hr⟩)
    · exact wp_pure.mpr ⟨l, hr.rounds hq hlog⟩
    · obtain ⟨c, rest, rfl⟩ : ∃ c rest, l = c :: rest := by
        refine List.exists_cons_of_ne_nil fun hc => ?_
        rw [hq.isEmpty.mpr hc] at hempty
        exact absurd hempty (by decide)
      obtain ⟨hfirst, hdrop⟩ := hq.drop
      refine wp_modify.mpr ⟨rest, ?_, ?_, .inr ⟨c, rfl, ?_⟩, fun i hi => ?_⟩
      · change r.queue.Holds _
        rw [hr.queue]
        exact hdrop
      · change r.put = r.returned ++ [s.queue.first] ++ rest
        rw [hr.put, hr.returned, hlog, hfirst, List.append_assoc, List.singleton_append]
      · change r.returned ++ [s.queue.first] = _
        rw [hr.returned, hfirst]
      · change r.queue.buf _ = _
        rw [hr.queue]
        rfl

theorem Inv.step (h : Inv s) (hst : Step s s') : Inv s' := by
  cases hst with
  | call _ => exact h
  | round _ hawake hret =>
    obtain ⟨l, hlog, hq⟩ := h
    obtain ⟨l', hr⟩ := hret.of_wp (wp_round hq hlog hawake)
    exact ⟨l', hr.log, hr.holds⟩

theorem Start.inv (h : Start s) : Inv s := by
  obtain ⟨q, hq⟩ := h.queue
  exact ⟨[], by rw [h.put, h.returned]; rfl, hq ▸ IOQueue.holds_init⟩

structure FifoLaw (s : QueueSys) : Prop where
  isPrefix : s.returned <+: s.put
  length_le : s.put.length ≤ s.returned.length + ioQueueBufSize
  isEmpty : s.queue.isEmpty = true ↔ s.put.length = s.returned.length
  isFull : s.queue.isFull = true ↔ s.put.length = s.returned.length + ioQueueBufSize
  /-- The unread characters are in the buffer, one behind the other. -/
  unread : ∀ i (hi : s.returned.length + i < s.put.length),
    s.queue.buf ((s.queue.tail + i) % ioQueueBufSize) = s.put[s.returned.length + i]
  /-- A thread that gets the lock waits or returns, and no `ASSERT` fails. -/
  returns : ∀ t c, t ∉ s.waitingList → ∃ s', Returns () (round t c) s () s'
  /-- No unread character is overwritten. -/
  kept : ∀ t c s', t ∉ s.waitingList → Returns () (round t c) s () s' →
    ∀ i, s.returned.length + i < s.put.length →
      s'.queue.buf ((s.queue.tail + i) % ioQueueBufSize) =
        s.queue.buf ((s.queue.tail + i) % ioQueueBufSize)
  /-- What a call returns is the first character that was not returned yet. -/
  once : ∀ t c s', t ∉ s.waitingList → Returns () (round t c) s () s' →
    s'.returned = s.returned ∨ ∃ hlt : s.returned.length < s.put.length,
      s'.returned = s.returned ++ [s.put[s.returned.length]]

theorem Inv.law (h : Inv s) : FifoLaw s := by
  obtain ⟨l, hlog, hq⟩ := h
  have hlen : s.put.length = s.returned.length + l.length := by rw [hlog, List.length_append]
  have hle := hq.length_le
  refine ⟨⟨l, hlog.symm⟩, by omega, ?_, ?_, ?_, ?_, ?_, ?_⟩
  · rw [hq.isEmpty, ← List.length_eq_zero_iff]
    omega
  · rw [hq.isFull]
    omega
  · intro i hi
    rw [hq.cells i (by omega)]
    simp [hlog]
  · intro t c hawake
    obtain ⟨_, s', hret, -⟩ := wp_noStop_returns (wp_round (e := ()) (c := c) hq hlog hawake)
    exact ⟨s', hret⟩
  · intro t c s' hawake hret i hi
    obtain ⟨l', hr⟩ := hret.of_wp (wp_round hq hlog hawake)
    exact hr.kept i (by omega)
  · intro t c s' hawake hret
    obtain ⟨l', hr⟩ := hret.of_wp (wp_round hq hlog hawake)
    obtain hsame | ⟨c, rfl, hnew⟩ := hr.returned
    · exact .inl hsame
    · refine .inr ⟨by rw [hlen, List.length_cons]; omega, ?_⟩
      rw [hnew]
      simp [hlog]

/-- In every state of a run that starts with an empty queue. -/
theorem fifo_law (h : Run Step s s') (hs : Start s) : FifoLaw s' :=
  (h.invariant (I := Inv) (fun _ _ hI hst => hI.step hst) hs.inv).law

/-- Nothing was put yet. -/
def emptyQueue : QueueSys where
  queue := IOQueue.ioQueueInit ⟨fun _ => 0, 3, 5, true, false⟩
  waitingList := []
  calls := fun _ => none
  put := []
  returned := []

/-- A reader waits. -/
def waitingReader : QueueSys := (round 7 .get () 0 (emptyQueue.setCall 7 (some .get))).state

/-- A character is put, and the reader is awake again. -/
def wokenReader : QueueSys :=
  (round 8 (.put 65) () 0 (waitingReader.setCall 8 (some (.put 65)))).state

/-- It returns the character. -/
theorem fifo_law_sample : Run Step emptyQueue (round 7 .get () 0 wokenReader).state ∧
    FifoLaw (round 7 .get () 0 wokenReader).state := by
  have h₁ : Run Step emptyQueue (emptyQueue.setCall 7 (some .get)) := .single (.call rfl)
  have h₂ := h₁.tail (.round (t := 7) (c := .get) rfl (by decide) (.of_value (by decide)))
  have h₃ := h₂.tail (.call (t := 8) (c := .put 65) rfl)
  have h₄ := h₃.tail (.round (t := 8) (c := .put 65) rfl (by decide) (.of_value (by decide)))
  have h₅ : Run Step emptyQueue (round 7 .get () 0 wokenReader).state :=
    h₄.tail (.round (t := 7) (c := .get) rfl (by decide) (.of_value (by decide)))
  exact ⟨h₅, fifo_law h₅ ⟨⟨_, rfl⟩, rfl, fun _ => rfl, rfl, rfl⟩⟩

end Law

end QueueSys

end Gogoos
