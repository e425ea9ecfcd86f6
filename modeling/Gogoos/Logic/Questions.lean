import Gogoos.Logic.Erase

/-!
# Runs from a given question on

`wpAt stop e t m Q s` is `wp` for the one run whose first question has the number `t`, and its
postcondition speaks of the number of the next question. It serves where the condition of a
statement is about single answers of the oracle.
-/

namespace Gogoos

namespace Program

variable {ε σ τ α β : Type} {stop : σ → Prop} {e : ε} {t : ℕ} {s : σ}

def wpAt (stop : σ → Prop) (e : ε) (t : ℕ) (m : Program ε σ α) (Q : α → ℕ → σ → Prop) (s : σ) :
    Prop :=
  match m e t s with
  | .returned a t' s' => Q a t' s'
  | .stopped s' => stop s'

section Rules

variable {Q : α → ℕ → σ → Prop}

theorem wp_iff_wpAt {m : Program ε σ α} {Q : α → σ → Prop} :
    wp stop e m Q s ↔ ∀ t, wpAt stop e t m (fun a _ s' => Q a s') s := Iff.rfl

theorem wpAt_of_returned {m : Program ε σ α} {a : α} {t' : ℕ} {s' : σ}
    (h : wpAt stop e t m Q s) (hret : m e t s = .returned a t' s') : Q a t' s' := by
  unfold wpAt at h
  rwa [hret] at h

theorem wpAt_mono {m : Program ε σ α} {R : α → ℕ → σ → Prop} (h : wpAt stop e t m R s)
    (hRQ : ∀ a t' s', R a t' s' → Q a t' s') : wpAt stop e t m Q s := by
  unfold wpAt at *
  cases hm : m e t s with
  | returned a t' s' =>
    rw [hm] at h
    exact hRQ a t' s' h
  | stopped s' =>
    rw [hm] at h
    exact h

theorem wpAt_bind {m : Program ε σ α} {f : α → Program ε σ β} {Q : β → ℕ → σ → Prop}
    (h : wpAt stop e t m (fun a t' s' => wpAt stop e t' (f a) Q s') s) :
    wpAt stop e t (m >>= f) Q s := by
  unfold wpAt at h ⊢
  change match (match m e t s with
    | .returned a t' s' => f a e t' s'
    | .stopped s' => .stopped s') with
    | .returned a t' s' => Q a t' s'
    | .stopped s' => stop s'
  cases hm : m e t s with
  | returned a t' s' =>
    rw [hm] at h
    exact h
  | stopped s' =>
    rw [hm] at h
    exact h

theorem wpAt_call {m : Program ε σ α} {f : α → Program ε σ β} {R : α → ℕ → σ → Prop}
    {Q : β → ℕ → σ → Prop} (hm : wpAt stop e t m R s)
    (hf : ∀ a t' s', R a t' s' → wpAt stop e t' (f a) Q s') : wpAt stop e t (m >>= f) Q s :=
  wpAt_bind (wpAt_mono hm hf)

theorem wpAt_get_bind {f : σ → Program ε σ β} {Q : β → ℕ → σ → Prop} :
    wpAt stop e t (get >>= f) Q s ↔ wpAt stop e t (f s) Q s := Iff.rfl

theorem wpAt_ask_bind {q : ε → ℕ → α} {f : α → Program ε σ β} {Q : β → ℕ → σ → Prop} :
    wpAt stop e t (ask q >>= f) Q s ↔ wpAt stop e (t + 1) (f (q e t)) Q s := Iff.rfl

theorem wpAt_zoom {view : τ → σ} {put : σ → τ → τ} {m : Program ε σ α} {stop : τ → Prop}
    {Q : α → ℕ → τ → Prop} {s : τ}
    (h : wpAt (fun x => stop (put x s)) e t m (fun a t' x => Q a t' (put x s)) (view s)) :
    wpAt stop e t (zoom view put m) Q s := by
  unfold wpAt at *
  simp only [zoom]
  cases hm : m e t (view s) with
  | returned a t' x => simpa [hm] using h
  | stopped x => simpa [hm] using h

theorem wpAt_and {m : Program ε σ α} {R : α → ℕ → σ → Prop} (h : wpAt stop e t m Q s)
    (h' : wpAt anyStop e t m R s) : wpAt stop e t m (fun a t' s' => Q a t' s' ∧ R a t' s') s := by
  unfold wpAt at *
  cases hm : m e t s with
  | returned a t' s' =>
    rw [hm] at h h'
    exact ⟨h, h'⟩
  | stopped s' =>
    rw [hm] at h
    exact h

/-- What holds of a run holds of the same run with notes. -/
theorem ErasesAs.wpAt {view : τ → σ} {g : β → α} {m' : Program ε τ β} {m : Program ε σ α}
    (h : ErasesAs view g m' m) {s : τ} (hm : wpAt stop e t m Q (view s)) :
    Program.wpAt (fun s => stop (view s)) e t m' (fun a t' s' => Q (g a) t' (view s')) s := by
  have hrun := h e t s
  unfold Program.wpAt at *
  rw [← hrun, bind_apply] at hm
  cases hm' : m' e t s with
  | returned a t' s' =>
    rw [hm'] at hm
    exact hm
  | stopped s' =>
    rw [hm'] at hm
    exact hm

theorem ErasesAs.wp {view : τ → σ} {g : β → α} {m' : Program ε τ β} {m : Program ε σ α}
    {Q : α → σ → Prop} (h : ErasesAs view g m' m) {s : τ} (hm : Program.wp stop e m Q (view s)) :
    Program.wp (fun s => stop (view s)) e m' (fun a s => Q (g a) (view s)) s :=
  fun t => h.wpAt (hm t)

end Rules

section Quiet

/-- A program that asks nothing. -/
def Quiet (m : Program ε σ α) : Prop := ∀ e t s, wpAt anyStop e t m (fun _ t' _ => t' = t) s

theorem quiet_pure (a : α) : Quiet (pure a : Program ε σ α) := fun _ _ _ => rfl

theorem quiet_halt : Quiet (halt : Program ε σ α) := fun _ _ _ => trivial

theorem quiet_get : Quiet (get : Program ε σ σ) := fun _ _ _ => rfl

theorem quiet_modify (g : σ → σ) : Quiet (modify g : Program ε σ Unit) := fun _ _ _ => rfl

theorem quiet_assert {p : Prop} [Decidable p] : Quiet (assert p : Program ε σ Unit) := by
  intro e t s
  unfold assert
  split_ifs
  · exact quiet_pure () e t s
  · exact quiet_halt e t s

theorem Quiet.bind {m : Program ε σ α} {f : α → Program ε σ β} (hm : Quiet m)
    (hf : ∀ a, Quiet (f a)) : Quiet (m >>= f) := by
  intro e t s
  apply wpAt_call (hm e t s)
  rintro a t' s' rfl
  exact hf a e t' s'

theorem Quiet.ite {p : Prop} [Decidable p] {m n : Program ε σ α} (hm : Quiet m) (hn : Quiet n) :
    Quiet (if p then m else n) := by
  split_ifs
  · exact hm
  · exact hn

theorem Quiet.zoom {view : τ → σ} {put : σ → τ → τ} {m : Program ε σ α} (hm : Quiet m) :
    Quiet (zoom view put m) := fun e t s => wpAt_zoom (hm e t (view s))

/-- For a program that asks nothing the two readings are one. -/
theorem Quiet.wpAt {m : Program ε σ α} (hm : Quiet m) {Q : α → σ → Prop}
    (h : Program.wp stop e m Q s) : Program.wpAt stop e t m (fun a t' s' => t' = t ∧ Q a s') s := by
  have ht := h t
  have hq := hm e t s
  unfold Program.wpAt at *
  cases hrun : m e t s with
  | returned a t' s' =>
    rw [hrun] at ht hq
    exact ⟨hq, ht⟩
  | stopped s' =>
    rw [hrun] at ht
    exact ht

/-- A call that asks nothing, through its specification. -/
theorem Quiet.call {m : Program ε σ α} {f : α → Program ε σ β} {R : α → σ → Prop}
    {Q : β → ℕ → σ → Prop} (hm : Quiet m) (h : Program.wp stop e m R s)
    (hf : ∀ a s', R a s' → Program.wpAt stop e t (f a) Q s') :
    Program.wpAt stop e t (m >>= f) Q s := by
  apply wpAt_call (hm.wpAt h)
  rintro a t' s' ⟨rfl, hR⟩
  exact hf a s' hR

end Quiet

end Program

end Gogoos
