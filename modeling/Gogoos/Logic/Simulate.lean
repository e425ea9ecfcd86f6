import Gogoos.Logic.Program

/-!
# A program that follows another one

Two programs on states of their own, with oracles of their own, that do the same work. One is
matched by the other when a run of it that returns comes with a run of the other from a related
state, and the ends are related again.
-/

namespace Gogoos.Program

variable {ε ε' σ τ α β γ δ : Type} {e : ε} {e' : ε'} {m : Program ε' τ α} {n : Program ε σ β}
  {R : α → β → τ → σ → ℕ → Prop} {x : τ} {s : σ} {t : ℕ}

/-- Each run of `m` from `x` that returns is matched by the run of `n` from `s` whose next question
is number `t`. The relation is between results, last states and the number of the next question. -/
def Matched (e' : ε') (e : ε) (m : Program ε' τ α) (n : Program ε σ β)
    (R : α → β → τ → σ → ℕ → Prop) (x : τ) (s : σ) (t : ℕ) : Prop :=
  wp anyStop e' m (fun a x' => ∃ b t' s', n e t s = .returned b t' s' ∧ R a b x' s' t') x

theorem matched_pure {a : α} {b : β} (h : R a b x s t) :
    Matched e' e (pure a) (pure b) R x s t :=
  wp_pure.mpr ⟨b, t, s, rfl, h⟩

theorem Matched.bind {f' : α → Program ε' τ γ} {f : β → Program ε σ δ}
    {S : γ → δ → τ → σ → ℕ → Prop} (hm : Matched e' e m n R x s t)
    (hf : ∀ a b x' s' t', R a b x' s' t' → Matched e' e (f' a) (f b) S x' s' t') :
    Matched e' e (m >>= f') (n >>= f) S x s t := by
  apply wp_call hm
  rintro a x' ⟨b, t', s', hret, hr⟩
  apply wp_mono (hf a b x' s' t' hr)
  rintro c x'' ⟨d, t'', s'', hret', hs⟩
  exact ⟨d, t'', s'', (bind_returned hret).trans hret', hs⟩

/-- The second program goes on after a call that the first one ends with. -/
theorem Matched.tail {f : β → Program ε σ δ} {S : α → δ → τ → σ → ℕ → Prop}
    (hm : Matched e' e m n R x s t)
    (hf : ∀ a b x' s' t', R a b x' s' t' → Matched e' e (pure a) (f b) S x' s' t') :
    Matched e' e m (n >>= f) S x s t := by
  apply wp_mono hm
  rintro a x' ⟨b, t', s', hret, hr⟩
  obtain ⟨d, t'', s'', hret', hs⟩ := wp_pure.mp (hf a b x' s' t' hr)
  exact ⟨d, t'', s'', (bind_returned hret).trans hret', hs⟩

/-- A call of the first program that the second does not make. -/
theorem Matched.call {m' : Program ε' τ γ} {f' : γ → Program ε' τ α} {P : γ → τ → Prop}
    (hm : wp anyStop e' m' P x) (hf : ∀ c x', P c x' → Matched e' e (f' c) n R x' s t) :
    Matched e' e (m' >>= f') n R x s t :=
  wp_call hm hf

theorem matched_get_bind {f' : τ → Program ε' τ α} (h : Matched e' e (f' x) n R x s t) :
    Matched e' e (get >>= f') n R x s t := h

theorem matched_modify_bind {g : τ → τ} {f' : Unit → Program ε' τ α}
    (h : Matched e' e (f' ()) n R (g x) s t) : Matched e' e (modify g >>= f') n R x s t := h

/-- The second program need not check what the first one has checked. -/
theorem matched_assert_bind {p : Prop} [Decidable p] {f' : Unit → Program ε' τ α}
    (h : p → Matched e' e (f' ()) n R x s t) : Matched e' e (assert p >>= f') n R x s t :=
  wp_assert_bind.mpr ⟨h, fun _ => trivial⟩

/-- A call of the second program whose end is known. -/
theorem Matched.skip {n' : Program ε σ γ} {f : γ → Program ε σ β} {c : γ} {t' : ℕ} {s' : σ}
    (hn : n' e t s = .returned c t' s') (h : Matched e' e m (f c) R x s' t') :
    Matched e' e m (n' >>= f) R x s t :=
  wp_mono h fun _ _ ⟨b, t'', s'', hret, hr⟩ =>
    ⟨b, t'', s'', (bind_returned hn).trans hret, hr⟩

theorem Matched.assert {p : Prop} [Decidable p] {f : Unit → Program ε σ β} (hp : p)
    (h : Matched e' e m (f ()) R x s t) : Matched e' e m (assert p >>= f) R x s t := by
  have hret : (Program.assert p : Program ε σ Unit) e t s = .returned () t s := by
    rw [Program.assert, if_pos hp]
    rfl
  exact h.skip hret

theorem Matched.ite {p q : Prop} [Decidable p] [Decidable q] {m' : Program ε' τ α}
    {n' : Program ε σ β} (hpq : p ↔ q) (hm : p → Matched e' e m n R x s t)
    (hn : ¬p → Matched e' e m' n' R x s t) :
    Matched e' e (if p then m else m') (if q then n else n') R x s t := by
  by_cases hp : p
  · rw [if_pos hp, if_pos (hpq.mp hp)]
    exact hm hp
  · rw [if_neg hp, if_neg fun hq => hp (hpq.mpr hq)]
    exact hn hp

end Gogoos.Program
