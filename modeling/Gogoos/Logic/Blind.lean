import Gogoos.Logic.Program

/-!
# Programs that do not look at a part of the oracle

A program is blind to a relation between oracles when its runs are the same under related ones.
-/

namespace Gogoos

namespace Program

variable {ε σ α β : Type} {R : ε → ε → Prop}

def Blind (R : ε → ε → Prop) (m : Program ε σ α) : Prop :=
  ∀ e e', R e e' → ∀ t s, m e' t s = m e t s

theorem blind_pure (a : α) : Blind R (pure a : Program ε σ α) := fun _ _ _ _ _ => rfl

theorem blind_halt : Blind R (halt : Program ε σ α) := fun _ _ _ _ _ => rfl

theorem blind_get : Blind R (get : Program ε σ σ) := fun _ _ _ _ _ => rfl

theorem blind_modify (g : σ → σ) : Blind R (modify g : Program ε σ Unit) := fun _ _ _ _ _ => rfl

theorem blind_assert {p : Prop} [Decidable p] : Blind R (assert p : Program ε σ Unit) := by
  intro e e' _ t s
  unfold assert
  split_ifs <;> rfl

/-- A question that related oracles answer alike. -/
theorem blind_ask {q : ε → ℕ → α} (hq : ∀ e e', R e e' → q e' = q e) :
    Blind R (ask q : Program ε σ α) := by
  intro e e' h t s
  unfold ask
  rw [hq e e' h]

theorem Blind.bind {m : Program ε σ α} {f : α → Program ε σ β} (hm : Blind R m)
    (hf : ∀ a, Blind R (f a)) : Blind R (m >>= f) := by
  intro e e' h t s
  simp only [Bind.bind, hm e e' h t s]
  cases m e t s with
  | returned a t' s' => exact hf a e e' h t' s'
  | stopped s' => rfl

theorem Blind.get_bind {f : σ → Program ε σ β} (hf : ∀ s, Blind R (f s)) :
    Blind R (get >>= f) := blind_get.bind hf

theorem Blind.ite {p : Prop} [Decidable p] {m n : Program ε σ α} (hm : Blind R m)
    (hn : Blind R n) : Blind R (if p then m else n) := by
  split_ifs
  · exact hm
  · exact hn

/-- A sequence stops where its first part does. -/
theorem bind_stopped {m : Program ε σ α} {f : α → Program ε σ β} {e : ε} {t : ℕ} {s s' : σ}
    (h : m e t s = .stopped s') : (m >>= f) e t s = .stopped s' := by
  simp only [bind, h]

end Program

end Gogoos
