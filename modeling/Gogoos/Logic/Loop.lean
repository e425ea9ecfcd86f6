import Mathlib.Tactic

/-!
# Programs with loops

A program transforms a state `σ` and returns a value, or does not: a loop may have no end, and a
failed assertion or a wait that nothing ends returns as little. `run n` is what comes out of it
with at most `n` rounds for each loop, and more rounds change no result.

`Total m s Q` says that the program returns, with a value and a state in `Q`. For a loop this
needs an invariant and a variant, a number that becomes smaller in each round.
-/

namespace Gogoos

structure Looping (σ α : Type) where
  run : ℕ → σ → Option (α × σ)
  mono : ∀ n s r, run n s = some r → run (n + 1) s = some r

namespace Looping

variable {σ α β : Type}

theorem mono_le (m : Looping σ α) {n k : ℕ} (hle : n ≤ k) {s : σ} {r : α × σ}
    (h : m.run n s = some r) : m.run k s = some r := by
  induction hle with
  | refl => exact h
  | step _ ih => exact m.mono _ _ _ ih

section Programs

protected def pure (a : α) : Looping σ α := ⟨fun _ s => some (a, s), fun _ _ _ h => h⟩

protected def bind (m : Looping σ α) (f : α → Looping σ β) : Looping σ β where
  run n s := (m.run n s).bind fun r => (f r.1).run n r.2
  mono n s r h := by
    obtain ⟨r', hm, hf⟩ := Option.bind_eq_some_iff.mp h
    exact Option.bind_eq_some_iff.mpr ⟨r', m.mono _ _ _ hm, (f r'.1).mono _ _ _ hf⟩

instance : Monad (Looping σ) where
  pure := Looping.pure
  bind := Looping.bind

/-- Never returns. -/
def halt : Looping σ α := ⟨fun _ _ => none, fun _ _ _ h => h⟩

def get : Looping σ σ := ⟨fun _ s => some (s, s), fun _ _ _ h => h⟩

def modify (g : σ → σ) : Looping σ Unit := ⟨fun _ s => some ((), g s), fun _ _ _ h => h⟩

/-- `ASSERT(p)`. -/
def assert (p : Prop) [Decidable p] : Looping σ Unit := if p then pure () else halt

/-- At most `k` rounds of a loop; a round ends the loop with `.inr`. -/
def rounds (body : β → Looping σ (β ⊕ α)) (n : ℕ) : (k : ℕ) → β → σ → Option (α × σ)
  | 0, _, _ => none
  | k + 1, b, s => ((body b).run n s).bind fun r =>
    match r.1 with
    | .inl b' => rounds body n k b' r.2
    | .inr a => some (a, r.2)

theorem rounds_mono {body : β → Looping σ (β ⊕ α)} {n n' : ℕ} (hn : n ≤ n') {k k' : ℕ}
    (hk : k ≤ k') {b : β} {s : σ} {r : α × σ} (h : rounds body n k b s = some r) :
    rounds body n' k' b s = some r := by
  induction k generalizing k' b s with
  | zero => simp [rounds] at h
  | succ k ih =>
    obtain ⟨k', rfl⟩ : ∃ j, k' = j + 1 := ⟨k' - 1, by omega⟩
    obtain ⟨⟨x, s'⟩, hbody, hrest⟩ := Option.bind_eq_some_iff.mp h
    apply Option.bind_eq_some_iff.mpr ⟨(x, s'), (body b).mono_le hn hbody, ?_⟩
    cases x with
    | inl b' => exact ih (by omega) hrest
    | inr a => exact hrest

def loop (body : β → Looping σ (β ⊕ α)) (b : β) : Looping σ α where
  run n s := rounds body n n b s
  mono n _ _ h := rounds_mono (Nat.le_succ n) (Nat.le_succ n) h

end Programs

section Rules

/-- The program returns with a value and a state in `Q`. -/
def Total (m : Looping σ α) (s : σ) (Q : α → σ → Prop) : Prop :=
  ∃ n a s', m.run n s = some (a, s') ∧ Q a s'

variable {m : Looping σ α} {s : σ} {Q R : α → σ → Prop}

/-- There is one result. -/
theorem Total.and (h : Total m s Q) (h' : Total m s R) :
    Total m s fun a s' => Q a s' ∧ R a s' := by
  obtain ⟨n, a, s₁, hrun, hq⟩ := h
  obtain ⟨k, a', s₁', hrun', hr⟩ := h'
  have hmax := m.mono_le (le_max_left n k) hrun
  have hmax' := m.mono_le (le_max_right n k) hrun'
  obtain ⟨rfl, rfl⟩ := Prod.mk.inj (Option.some.inj (hmax.symm.trans hmax'))
  exact ⟨n, a, s₁, hrun, hq, hr⟩

theorem Total.mono (h : Total m s Q) (hQ : ∀ a s', Q a s' → R a s') : Total m s R := by
  obtain ⟨n, a, s', hrun, hq⟩ := h
  exact ⟨n, a, s', hrun, hQ a s' hq⟩

theorem Total.absurd (h : Total m s Q) (h' : Total m s R) (hno : ∀ a s', Q a s' → ¬R a s') :
    False := by
  obtain ⟨_, a, s', _, hq, hr⟩ := h.and h'
  exact hno a s' hq hr

theorem total_pure {a : α} (h : Q a s) : Total (pure a) s Q := ⟨0, a, s, rfl, h⟩

theorem total_get {Q : σ → σ → Prop} (h : Q s s) : Total get s Q := ⟨0, s, s, rfl, h⟩

theorem total_modify {g : σ → σ} {Q : Unit → σ → Prop} (h : Q () (g s)) :
    Total (modify g) s Q := ⟨0, (), g s, rfl, h⟩

theorem total_assert {p : Prop} [Decidable p] {Q : Unit → σ → Prop} (hp : p) (h : Q () s) :
    Total (assert p) s Q := by
  unfold assert
  rw [if_pos hp]
  exact total_pure h

theorem total_bind {f : α → Looping σ β} {Q : β → σ → Prop}
    (h : Total m s fun a s' => Total (f a) s' Q) : Total (m >>= f) s Q := by
  obtain ⟨n, a, s₁, hrun, k, b, s₂, hrun', hq⟩ := h
  have hm := m.mono_le (le_max_left n k) hrun
  have hf := (f a).mono_le (le_max_right n k) hrun'
  exact ⟨max n k, b, s₂, Option.bind_eq_some_iff.mpr ⟨(a, s₁), hm, hf⟩, hq⟩

/-- A call followed by the rest, through a specification of the call. -/
theorem Total.call {f : α → Looping σ β} {Q : β → σ → Prop} (h : Total m s R)
    (hf : ∀ a s', R a s' → Total (f a) s' Q) : Total (m >>= f) s Q :=
  total_bind (h.mono hf)

/-- A first round that goes on, and the loop from there. -/
theorem Total.next {body : β → Looping σ (β ⊕ α)} {b : β}
    (h : Total (body b) s fun x s' =>
      match x with
      | .inl b' => Total (loop body b') s' Q
      | .inr a => Q a s') : Total (loop body b) s Q := by
  obtain ⟨n, x, s₁, hrun, hx⟩ := h
  cases x with
  | inl b' =>
    obtain ⟨k, a, s₂, hloop, hq⟩ := hx
    have hbody := (body b).mono_le (by omega : n ≤ max n k + 1) hrun
    have hrest : rounds body (max n k + 1) (max n k) b' s₁ = some (a, s₂) :=
      rounds_mono (by omega) (by omega) hloop
    exact ⟨max n k + 1, a, s₂, Option.bind_eq_some_iff.mpr ⟨(.inl b', s₁), hbody, hrest⟩, hq⟩
  | inr a =>
    have hbody := (body b).mono_le (Nat.le_succ n) hrun
    exact ⟨n + 1, a, s₁, Option.bind_eq_some_iff.mpr ⟨(.inr a, s₁), hbody, rfl⟩, hx⟩

/-- The rule for loops, by induction on the variant. -/
theorem total_loop {body : β → Looping σ (β ⊕ α)} (inv : β → σ → Prop) (variant : β → ℕ)
    (round : ∀ b s, inv b s → Total (body b) s fun x s' =>
      match x with
      | .inl b' => inv b' s' ∧ variant b' < variant b
      | .inr a => Q a s')
    {b : β} (h : inv b s) : Total (loop body b) s Q := by
  induction hv : variant b using Nat.strong_induction_on generalizing b s with
  | _ v ih =>
    apply Total.next
    apply (round b s h).mono
    intro x s' hx
    cases x with
    | inl b' => exact ih (variant b') (hv ▸ hx.2) hx.1 rfl
    | inr a => exact hx

end Rules

end Looping

end Gogoos
