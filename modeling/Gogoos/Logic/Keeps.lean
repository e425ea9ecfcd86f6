import Gogoos.Logic.Program

/-!
# Programs that keep a relation

A program keeps a relation when every run that returns relates the state before to the state
after. For a preorder the programs that keep it are closed under the constructs of the language,
so a frame condition is read off the text of a program, call by call. A program preserves a
predicate when it holds at the end of every run that starts with it, also of one that stops.
-/

namespace Gogoos

namespace Program

variable {ε σ τ α β : Type} {R : σ → σ → Prop}

def Keeps (R : σ → σ → Prop) (m : Program ε σ α) : Prop :=
  ∀ e s, wp anyStop e m (fun _ s' => R s s') s

theorem Keeps.of_returns {m : Program ε σ α} (h : Keeps R m) {e : ε} {s s' : σ} {a : α}
    (hr : Returns e m s a s') : R s s' := hr.of_wp (h e s)

/-- A program that keeps a relation keeps any weaker one. -/
theorem Keeps.mono {S : σ → σ → Prop} {m : Program ε σ α} (h : Keeps R m)
    (hRS : ∀ s s', R s s' → S s s') : Keeps S m :=
  fun e s => wp_mono (h e s) fun _ s' hs => hRS s s' hs

theorem Keeps.modify {g : σ → σ} (h : ∀ s, R s (g s)) :
    Keeps R (Program.modify g : Program ε σ Unit) := fun _ s => wp_modify.mpr (h s)

/-- A program on a component keeps what its steps on the component cannot break. -/
theorem Keeps.zoom {view : τ → σ} {put : σ → τ → τ} {m : Program ε σ α} {S : τ → τ → Prop}
    (hm : Keeps R m) (h : ∀ t x, R (view t) x → S t (put x t)) : Keeps S (zoom view put m) := by
  intro e t
  apply wp_zoom
  exact wp_mono (hm e (view t)) fun _ x hx => h t x hx

theorem keeps_halt : Keeps R (halt : Program ε σ α) := fun _ _ => wp_halt.mpr trivial

theorem Keeps.ite {p : Prop} [Decidable p] {m n : Program ε σ α} (hm : Keeps R m)
    (hn : Keeps R n) : Keeps R (if p then m else n) := by
  split_ifs
  · exact hm
  · exact hn

theorem Keeps.get_bind {f : σ → Program ε σ β} (h : ∀ s, Keeps R (f s)) :
    Keeps R (get >>= f) := fun e s => wp_get_bind.mpr (h s e s)

theorem Keeps.assert_bind {p : Prop} [Decidable p] {f : Unit → Program ε σ β}
    (h : p → Keeps R (f ())) : Keeps R (assert p >>= f) :=
  fun e s => wp_assert_bind.mpr ⟨fun hp => h hp e s, fun _ => trivial⟩

section Preorder

variable [Std.Refl R]

theorem keeps_pure (a : α) : Keeps R (pure a : Program ε σ α) :=
  fun _ s => wp_pure.mpr (refl_of R s)

theorem keeps_ask {q : ε → ℕ → α} : Keeps R (ask q : Program ε σ α) :=
  fun _ s => wp_ask fun _ => refl_of R s

theorem keeps_assert {p : Prop} [Decidable p] : Keeps R (assert p : Program ε σ Unit) :=
  fun _ s => wp_assert.mpr ⟨fun _ => refl_of R s, fun _ => trivial⟩

end Preorder

theorem Keeps.bind [IsTrans σ R] {m : Program ε σ α} {f : α → Program ε σ β} (hm : Keeps R m)
    (hf : ∀ a, Keeps R (f a)) : Keeps R (m >>= f) := by
  intro e s
  apply wp_call (hm e s)
  intro a s' hs'
  exact wp_mono (hf a e s') fun _ s'' hs'' => trans_of R hs' hs''

section Preserves

variable {P : σ → Prop}

def Preserves (P : σ → Prop) (m : Program ε σ α) : Prop :=
  ∀ e s, P s → wp P e m (fun _ s' => P s') s

theorem preserves_pure (a : α) : Preserves P (pure a : Program ε σ α) :=
  fun _ _ h => wp_pure.mpr h

theorem Preserves.modify {g : σ → σ} (h : ∀ s, P s → P (g s)) :
    Preserves P (Program.modify g : Program ε σ Unit) := fun _ s hs => wp_modify.mpr (h s hs)

theorem preserves_assert {p : Prop} [Decidable p] :
    Preserves P (assert p : Program ε σ Unit) :=
  fun _ _ h => wp_assert.mpr ⟨fun _ => h, fun _ => h⟩

theorem preserves_get : Preserves P (get : Program ε σ σ) := fun _ _ h => wp_get.mpr h

theorem Preserves.ite {p : Prop} [Decidable p] {m n : Program ε σ α} (hm : Preserves P m)
    (hn : Preserves P n) : Preserves P (if p then m else n) := by
  split_ifs
  · exact hm
  · exact hn

theorem Preserves.bind {m : Program ε σ α} {f : α → Program ε σ β} (hm : Preserves P m)
    (hf : ∀ a, Preserves P (f a)) : Preserves P (m >>= f) :=
  fun e s h => wp_call (hm e s h) fun a s' h' => hf a e s' h'

end Preserves

end Program

end Gogoos
