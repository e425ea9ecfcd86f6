import Mathlib.Tactic

/-!
# Programs that may stop the machine

A program transforms a state `σ` and returns a value, unless it stops the machine
(a failed assertion, an access that faults). What the program text does not
determine, such as whether an allocation succeeds, is answered by an oracle `ε`;
the questions of one run are numbered, so two questions may get different answers.

`wp stop e m Q s` is the weakest precondition of `m`: every run from `s` either
returns a value and a state in `Q`, or stops in a state where `stop` holds. With
`stop` always true it is the partial, with `stop` always false the total reading,
and one set of rules serves both.
-/

namespace Gogoos

/-- How a run ends. -/
inductive Outcome (σ α : Type) where
  | returned (a : α) (asked : ℕ) (s : σ)
  | stopped (s : σ)

/-- The value that a run returns, if it does. -/
def Outcome.value {σ α : Type} : Outcome σ α → Option α
  | .returned a _ _ => some a
  | .stopped _ => none

/-- The number of the next question, if the run returns. -/
def Outcome.asked {σ α : Type} : Outcome σ α → Option ℕ
  | .returned _ t _ => some t
  | .stopped _ => none

/-- The state in which a run ends. -/
def Outcome.state {σ α : Type} : Outcome σ α → σ
  | .returned _ _ s => s
  | .stopped s => s

/-- The natural number counts the questions asked so far. -/
def Program (ε σ α : Type) : Type := ε → ℕ → σ → Outcome σ α

namespace Program

variable {ε σ τ α β γ : Type}

instance : Monad (Program ε σ) where
  pure a := fun _ t s => .returned a t s
  bind m f := fun e t s =>
    match m e t s with
    | .returned a t' s' => f a e t' s'
    | .stopped s' => .stopped s'

/-- The machine stops. -/
def halt : Program ε σ α := fun _ _ s => .stopped s

def get : Program ε σ σ := fun _ t s => .returned s t s

def modify (g : σ → σ) : Program ε σ Unit := fun _ t s => .returned () t (g s)

/-- `ASSERT(p)`: the machine stops when `p` fails. -/
def assert (p : Prop) [Decidable p] : Program ε σ Unit :=
  if p then pure () else halt

/-- One question to the oracle. -/
def ask (q : ε → ℕ → α) : Program ε σ α := fun e t s => .returned (q e t) (t + 1) s

/-- Runs a program on one component of a larger state. -/
def zoom (view : τ → σ) (put : σ → τ → τ) (m : Program ε σ α) : Program ε τ α :=
  fun e t s =>
    match m e t (view s) with
    | .returned a t' x => .returned a t' (put x s)
    | .stopped x => .stopped (put x s)

/-- Some run of `m` from `s` returns `a` in state `s'`. -/
def Returns (e : ε) (m : Program ε σ α) (s : σ) (a : α) (s' : σ) : Prop :=
  ∃ t t', m e t s = .returned a t' s'

/-- Some run of `m` from `s` stops the machine in state `s'`. -/
def Stops (e : ε) (m : Program ε σ α) (s s' : σ) : Prop :=
  ∃ t, m e t s = .stopped s'

def wp (stop : σ → Prop) (e : ε) (m : Program ε σ α) (Q : α → σ → Prop) (s : σ) : Prop :=
  ∀ t, match m e t s with
    | .returned a _ s' => Q a s'
    | .stopped s' => stop s'

/-- The partial reading allows every stop. -/
abbrev anyStop : σ → Prop := fun _ => True

/-- The total reading allows none. -/
abbrev noStop : σ → Prop := fun _ => False

variable {stop stop' : σ → Prop} {e : ε} {Q R : α → σ → Prop} {s : σ}

theorem wp_iff {m : Program ε σ α} :
    wp stop e m Q s ↔
      (∀ a s', Returns e m s a s' → Q a s') ∧ (∀ s', Stops e m s s' → stop s') := by
  constructor
  · refine fun h => ⟨?_, ?_⟩
    · rintro a s' ⟨t, t', ht⟩
      simpa [ht] using h t
    · rintro s' ⟨t, ht⟩
      simpa [ht] using h t
  · rintro ⟨hr, hs⟩ t
    cases hm : m e t s with
    | returned a t' s' => exact hr a s' ⟨t, t', hm⟩
    | stopped s' => exact hs s' ⟨t, hm⟩

theorem Returns.of_wp {m : Program ε σ α} {a : α} {s' : σ} (h : Returns e m s a s')
    (hw : wp stop e m Q s) : Q a s' := (wp_iff.mp hw).1 a s' h

/-- A run that has a value returns it in its last state. -/
theorem Returns.of_value {m : Program ε σ α} {a : α} (h : (m e 0 s).value = some a) :
    Returns e m s a (m e 0 s).state := by
  cases hm : m e 0 s with
  | returned b t' s' =>
    obtain rfl : b = a := by simpa [hm, Outcome.value] using h
    exact ⟨0, t', hm⟩
  | stopped s' => simp [hm, Outcome.value] at h

/-- What is known of the runs that return may be added. -/
theorem wp_and {m : Program ε σ α} (h : wp stop e m Q s) (h' : wp anyStop e m R s) :
    wp stop e m (fun a s' => Q a s' ∧ R a s') s := by
  rw [wp_iff] at h h' ⊢
  exact ⟨fun a s' hr => ⟨h.1 a s' hr, h'.1 a s' hr⟩, h.2⟩

/-- The postcondition may speak of the run that led to it. -/
theorem wp_and_returns {m : Program ε σ α} (h : wp stop e m Q s) :
    wp stop e m (fun a s' => Q a s' ∧ Returns e m s a s') s :=
  wp_and h (wp_iff.mpr ⟨fun _ _ hr => hr, fun _ _ => trivial⟩)

theorem wp_noStop_returns {m : Program ε σ α} (h : wp noStop e m Q s) :
    ∃ a s', Returns e m s a s' ∧ Q a s' := by
  have h0 := h 0
  cases hm : m e 0 s with
  | returned a t' s' => exact ⟨a, s', ⟨0, t', hm⟩, by simpa [hm] using h0⟩
  | stopped s' =>
    rw [hm] at h0
    exact False.elim h0

theorem wp_mono {m : Program ε σ α} (h : wp stop e m Q s) (hQ : ∀ a s', Q a s' → R a s') :
    wp stop e m R s := by
  rw [wp_iff] at h ⊢
  exact ⟨fun a s' hr => hQ a s' (h.1 a s' hr), h.2⟩

theorem wp_stop_mono {m : Program ε σ α} (h : wp stop e m Q s)
    (hstop : ∀ s', stop s' → stop' s') : wp stop' e m Q s := by
  rw [wp_iff] at h ⊢
  exact ⟨h.1, fun s' hs => hstop s' (h.2 s' hs)⟩

/-- What holds when stopping is forbidden holds when it is allowed. -/
theorem wp_of_noStop {m : Program ε σ α} (h : wp noStop e m Q s) : wp stop e m Q s :=
  wp_stop_mono h fun _ hs => hs.elim

/-- The partial reading of a run promises nothing. -/
theorem wp_any (m : Program ε σ α) : wp anyStop e m (fun _ _ => True) s := by
  rw [wp_iff]
  exact ⟨fun _ _ _ => trivial, fun _ _ => trivial⟩

@[simp] theorem wp_pure {a : α} : wp stop e (pure a) Q s ↔ Q a s :=
  ⟨fun h => h 0, fun h _ => h⟩

@[simp] theorem wp_halt : wp stop e (halt : Program ε σ α) Q s ↔ stop s :=
  ⟨fun h => h 0, fun h _ => h⟩

/-- The rule of composition: the intermediate postcondition is the weakest
precondition of the rest. -/
theorem wp_bind {m : Program ε σ α} {f : α → Program ε σ β} {Q : β → σ → Prop}
    (h : wp stop e m (fun a s' => wp stop e (f a) Q s') s) : wp stop e (m >>= f) Q s := by
  intro t
  have ht := h t
  change match (match m e t s with
    | .returned a t' s' => f a e t' s'
    | .stopped s' => .stopped s') with
    | .returned a _ s' => Q a s'
    | .stopped s' => stop s'
  cases hm : m e t s with
  | returned a t' s' =>
    rw [hm] at ht
    exact ht t'
  | stopped s' => simpa [hm] using ht

/-- A call followed by the rest, through a specification of the call. -/
theorem wp_call {m : Program ε σ α} {f : α → Program ε σ β} {Q : β → σ → Prop}
    (hm : wp stop e m R s) (hf : ∀ a s', R a s' → wp stop e (f a) Q s') :
    wp stop e (m >>= f) Q s :=
  wp_bind (wp_mono hm hf)

@[simp] theorem wp_pure_bind {a : α} {f : α → Program ε σ β} {Q : β → σ → Prop} :
    wp stop e (pure a >>= f) Q s ↔ wp stop e (f a) Q s := Iff.rfl

theorem bind_bind {m : Program ε σ α} {f : α → Program ε σ β} {g : β → Program ε σ γ} :
    (m >>= f >>= g) = (m >>= fun a => f a >>= g) := by
  funext e t s
  change (match (match m e t s with
    | .returned a t' s' => f a e t' s'
    | .stopped s' => .stopped s') with
    | .returned a t' s' => g a e t' s'
    | .stopped s' => .stopped s') = match m e t s with
    | .returned a t' s' => match f a e t' s' with
      | .returned b t'' s'' => g b e t'' s''
      | .stopped s'' => .stopped s''
    | .stopped s' => .stopped s'
  cases m e t s <;> rfl

/-- A call that returns, followed by the rest. -/
theorem bind_returned {m : Program ε σ α} {f : α → Program ε σ β} {t t' : ℕ} {s s' : σ} {a : α}
    (h : m e t s = .returned a t' s') : (m >>= f) e t s = f a e t' s' := by
  change (match m e t s with
    | .returned a t' s' => f a e t' s'
    | .stopped s' => .stopped s') = _
  rw [h]

/-- A sequence that returns goes through a state in which its first part has returned. -/
theorem bind_eq_returned {m : Program ε σ α} {f : α → Program ε σ β} {t t'' : ℕ} {s s'' : σ} {b : β}
    (h : (m >>= f) e t s = .returned b t'' s'') :
    ∃ a t' s', m e t s = .returned a t' s' ∧ f a e t' s' = .returned b t'' s'' := by
  change (match m e t s with
    | .returned a t' s' => f a e t' s'
    | .stopped s' => .stopped s') = _ at h
  cases hm : m e t s with
  | returned a t' s' =>
    rw [hm] at h
    exact ⟨a, t', s', rfl, h⟩
  | stopped s' =>
    rw [hm] at h
    cases h

/-- Two programs that end alike go on alike. -/
theorem bind_congr_end {m m' : Program ε σ α} {f : α → Program ε σ β} {t : ℕ} {s s' : σ}
    (h : m e t s = m' e t s') : (m >>= f) e t s = (m' >>= f) e t s' := by
  change (match m e t s with
    | .returned a t' s' => f a e t' s'
    | .stopped s' => .stopped s') = match m' e t s' with
    | .returned a t' s' => f a e t' s'
    | .stopped s' => .stopped s'
  rw [h]

theorem bind_pure_unit {m : Program ε σ Unit} : (m >>= fun _ => pure ()) = m := by
  funext e t s
  simp only [bind, pure]
  cases m e t s <;> rfl

@[simp] theorem wp_bind_assoc {m : Program ε σ α} {f : α → Program ε σ β}
    {g : β → Program ε σ γ} {Q : γ → σ → Prop} :
    wp stop e (m >>= f >>= g) Q s ↔ wp stop e (m >>= fun a => f a >>= g) Q s := by
  rw [bind_bind]

@[simp] theorem wp_get {Q : σ → σ → Prop} : wp stop e (get : Program ε σ σ) Q s ↔ Q s s :=
  ⟨fun h => h 0, fun h _ => h⟩

@[simp] theorem wp_get_bind {f : σ → Program ε σ β} {Q : β → σ → Prop} :
    wp stop e (get >>= f) Q s ↔ wp stop e (f s) Q s := Iff.rfl

@[simp] theorem wp_modify {g : σ → σ} {Q : Unit → σ → Prop} :
    wp stop e (modify g : Program ε σ Unit) Q s ↔ Q () (g s) :=
  ⟨fun h => h 0, fun h _ => h⟩

@[simp] theorem wp_modify_bind {g : σ → σ} {f : Unit → Program ε σ β} {Q : β → σ → Prop} :
    wp stop e (modify g >>= f) Q s ↔ wp stop e (f ()) Q (g s) := Iff.rfl

@[simp] theorem wp_halt_bind {f : α → Program ε σ β} {Q : β → σ → Prop} :
    wp stop e (halt >>= f) Q s ↔ stop s :=
  ⟨fun h => h 0, fun h _ => h⟩

theorem wp_assert {p : Prop} [Decidable p] {Q : Unit → σ → Prop} :
    wp stop e (assert p) Q s ↔ (p → Q () s) ∧ (¬p → stop s) := by
  by_cases h : p <;> simp [assert, h]

theorem wp_assert_bind {p : Prop} [Decidable p] {f : Unit → Program ε σ β}
    {Q : β → σ → Prop} :
    wp stop e (assert p >>= f) Q s ↔ (p → wp stop e (f ()) Q s) ∧ (¬p → stop s) := by
  by_cases h : p <;> simp [assert, h]

/-- An assertion that holds is a no-op. -/
theorem wp_assert_pos {p : Prop} [Decidable p] {f : Unit → Program ε σ β}
    {Q : β → σ → Prop} (hp : p) :
    wp stop e (assert p >>= f) Q s ↔ wp stop e (f ()) Q s := by
  simp [wp_assert_bind, hp]

theorem wp_ask {q : ε → ℕ → α} (h : ∀ t, Q (q e t) s) : wp stop e (ask q) Q s :=
  fun t => h t

theorem wp_ask_bind {q : ε → ℕ → α} {f : α → Program ε σ β} {Q : β → σ → Prop}
    (h : ∀ t, wp stop e (f (q e t)) Q s) : wp stop e (ask q >>= f) Q s :=
  fun t => h t (t + 1)

theorem wp_ite {p : Prop} [Decidable p] {m n : Program ε σ α}
    (ht : p → wp stop e m Q s) (hf : ¬p → wp stop e n Q s) :
    wp stop e (if p then m else n) Q s := by
  split_ifs with h
  · exact ht h
  · exact hf h

/-- A program on a component leaves the rest of the state alone. -/
theorem wp_zoom {view : τ → σ} {put : σ → τ → τ} {m : Program ε σ α} {stop : τ → Prop}
    {Q : α → τ → Prop} {s : τ}
    (h : wp (fun x => stop (put x s)) e m (fun a x => Q a (put x s)) (view s)) :
    wp stop e (zoom view put m) Q s := by
  intro t
  have ht := h t
  simp only [zoom]
  cases hm : m e t (view s) with
  | returned a t' x => simpa [hm] using ht
  | stopped x => simpa [hm] using ht

/-- A program that always returns does so after every answer to its first question. -/
theorem returns_of_ask {q : ε → ℕ → α} {f : α → Program ε σ β} {Q : β → σ → Prop}
    (h : wp noStop e (ask q >>= f) Q s) (t : ℕ) :
    ∃ b s', Returns e (f (q e t)) s b s' ∧ Q b s' := by
  have ht := h t
  change (match f (q e t) e (t + 1) s with
    | .returned b _ s' => Q b s'
    | .stopped _ => False) at ht
  cases hf : f (q e t) e (t + 1) s with
  | returned b t' s' =>
    rw [hf] at ht
    exact ⟨b, s', ⟨t + 1, t', hf⟩, ht⟩
  | stopped s' =>
    rw [hf] at ht
    exact ht.elim

/-- A run on a component. -/
theorem zoom_returned {view : τ → σ} {put : σ → τ → τ} {m : Program ε σ α} {t t' : ℕ} {s : τ}
    {x : σ} {a : α} (h : m e t (view s) = .returned a t' x) :
    zoom view put m e t s = .returned a t' (put x s) := by
  simp only [zoom, h]

theorem zoom_eq_returned {view : τ → σ} {put : σ → τ → τ} {m : Program ε σ α} {t t' : ℕ} {s s' : τ}
    {a : α} (h : zoom view put m e t s = .returned a t' s') :
    ∃ x, m e t (view s) = .returned a t' x ∧ s' = put x s := by
  simp only [zoom] at h
  cases hm : m e t (view s) with
  | returned b t₁ x =>
    rw [hm] at h
    cases h
    exact ⟨x, rfl, rfl⟩
  | stopped x =>
    rw [hm] at h
    cases h

theorem Returns.of_zoom {view : τ → σ} {put : σ → τ → τ} {m : Program ε σ α} {s s' : τ} {a : α}
    (h : Returns e (zoom view put m) s a s') :
    ∃ x, Returns e m (view s) a x ∧ s' = put x s := by
  have hw : wp anyStop e (zoom view put m)
      (fun a s' => ∃ x, Returns e m (view s) a x ∧ s' = put x s) s := by
    apply wp_zoom
    exact wp_iff.mpr ⟨fun a x hr => ⟨x, hr, rfl⟩, fun _ _ => trivial⟩
  exact h.of_wp hw

end Program

end Gogoos
