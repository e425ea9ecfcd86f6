import Gogoos.Logic.Program

/-!
# Programs with ghost state

A program on a larger state erases to one on a smaller state when, seen through a view of the
larger state, the two end alike: what else the larger state holds is recorded and has no effect.
The relation is closed under the constructs of the language.
-/

namespace Gogoos

/-- The end of a run with its state seen through `view`. -/
def Outcome.see {σ τ α : Type} (view : τ → σ) : Outcome τ α → Outcome σ α
  | .returned a t s => .returned a t (view s)
  | .stopped s => .stopped (view s)

namespace Program

variable {ε σ τ υ α β γ δ : Type} {view : τ → σ}

theorem bind_apply {m : Program ε σ α} {f : α → Program ε σ β} (e : ε) (t : ℕ) (s : σ) :
    (m >>= f) e t s = match m e t s with
      | .returned a t' s' => f a e t' s'
      | .stopped s' => .stopped s' := rfl

def Erases (view : τ → σ) (m' : Program ε τ α) (m : Program ε σ α) : Prop :=
  ∀ e t s, (m' e t s).see view = m e t (view s)

theorem erases_pure (a : α) : Erases view (pure a : Program ε τ α) (pure a) := fun _ _ _ => rfl

theorem erases_assert {p : Prop} [Decidable p] :
    Erases view (assert p : Program ε τ Unit) (assert p) := by
  intro e t s
  by_cases hp : p <;> simp only [assert, if_pos, hp] <;> rfl

theorem erases_ask {q : ε → ℕ → α} : Erases view (ask q : Program ε τ α) (ask q) :=
  fun _ _ _ => rfl

/-- A program that only works on the part that is seen. -/
theorem erases_zoom {put : σ → τ → τ} (hput : ∀ x s, view (put x s) = x) (m : Program ε σ α) :
    Erases view (zoom view put m) m := by
  intro e t s
  simp only [zoom]
  cases m e t (view s) <;> simp [Outcome.see, hput]

theorem Erases.bind {m' : Program ε τ α} {m : Program ε σ α} {f' : α → Program ε τ β}
    {f : α → Program ε σ β} (hm : Erases view m' m) (hf : ∀ a, Erases view (f' a) (f a)) :
    Erases view (m' >>= f') (m >>= f) := by
  intro e t s
  have h := hm e t s
  change (match m' e t s with
    | .returned a t' s' => f' a e t' s'
    | .stopped s' => .stopped s').see view = match m e t (view s) with
    | .returned a t' s' => f a e t' s'
    | .stopped s' => .stopped s'
  cases hm' : m' e t s with
  | returned a t' s' =>
    rw [hm'] at h
    rw [← h]
    exact hf a e t' s'
  | stopped s' =>
    rw [hm'] at h
    rw [← h]
    rfl

theorem Erases.ite {p : Prop} [Decidable p] {m' n' : Program ε τ α} {m n : Program ε σ α}
    (hm : Erases view m' m) (hn : Erases view n' n) :
    Erases view (if p then m' else n') (if p then m else n) := by
  split_ifs
  · exact hm
  · exact hn

theorem Erases.get_bind {f' : τ → Program ε τ α} {f : σ → Program ε σ α}
    (h : ∀ s, Erases view (f' s) (f (view s))) : Erases view (get >>= f') (get >>= f) :=
  fun e t s => h s e t s

/-- Reading the ghost state is not seen. -/
theorem Erases.ghost_get {f : τ → Program ε τ α} {m : Program ε σ α}
    (h : ∀ s, Erases view (f s) m) : Erases view (get >>= f) m := fun e t s => h s e t s

/-- Neither is writing it. -/
theorem Erases.ghost_modify {g : τ → τ} {f : Unit → Program ε τ α} {m : Program ε σ α}
    (hg : ∀ s, view (g s) = view s) (h : Erases view (f ()) m) :
    Erases view (Program.modify g >>= f) m := by
  intro e t s
  rw [← hg s]
  exact h e t (g s)

/-- A call followed by notes on it. -/
theorem Erases.ghost_after {m' : Program ε τ α} {m : Program ε σ α} {f' : α → Program ε τ α}
    (hm : Erases view m' m) (hf : ∀ a, Erases view (f' a) (pure a)) :
    Erases view (m' >>= f') m := by
  have hpure : (m >>= pure) = m := by
    funext e t s
    change (match m e t s with
      | .returned a t' s' => (Outcome.returned a t' s' : Outcome σ α)
      | .stopped s' => Outcome.stopped s') = _
    cases m e t s <;> rfl
  rw [← hpure]
  exact hm.bind hf

/-- The results may carry notes too, which `g` drops. -/
def ErasesAs (view : τ → σ) (g : γ → α) (m' : Program ε τ γ) (m : Program ε σ α) : Prop :=
  Erases view (m' >>= fun a => pure (g a)) m

theorem erasesAs_pure {g : γ → α} (a : γ) :
    ErasesAs view g (pure a : Program ε τ γ) (pure (g a)) := fun _ _ _ => rfl

theorem erasesAs_halt {g : γ → α} : ErasesAs view g (halt : Program ε τ γ) halt := fun _ _ _ => rfl

theorem Erases.erasesAs {m' : Program ε τ α} {m : Program ε σ α} (h : Erases view m' m) :
    ErasesAs view (fun a => a) m' m := h.ghost_after fun a => erases_pure a

theorem ErasesAs.bind {g : γ → α} {m' : Program ε τ γ} {m : Program ε σ α}
    {f' : γ → Program ε τ β} {f : α → Program ε σ β} (hm : ErasesAs view g m' m)
    (hf : ∀ a, Erases view (f' a) (f (g a))) : Erases view (m' >>= f') (m >>= f) := by
  intro e t s
  have h := hm e t s
  rw [bind_apply] at h ⊢
  rw [bind_apply]
  cases hm' : m' e t s with
  | returned a t' s' =>
    rw [hm'] at h
    rw [← h]
    exact hf a e t' s'
  | stopped s' =>
    rw [hm'] at h
    rw [← h]
    rfl

theorem ErasesAs.bindAs {g : γ → α} {k : δ → β} {m' : Program ε τ γ} {m : Program ε σ α}
    {f' : γ → Program ε τ δ} {f : α → Program ε σ β} (hm : ErasesAs view g m' m)
    (hf : ∀ a, ErasesAs view k (f' a) (f (g a))) : ErasesAs view k (m' >>= f') (m >>= f) := by
  unfold ErasesAs
  rw [bind_bind]
  exact hm.bind hf

theorem ErasesAs.ite {p : Prop} [Decidable p] {g : γ → α} {m' n' : Program ε τ γ}
    {m n : Program ε σ α} (hm : ErasesAs view g m' m) (hn : ErasesAs view g n' n) :
    ErasesAs view g (if p then m' else n') (if p then m else n) := by
  split_ifs
  · exact hm
  · exact hn

theorem ErasesAs.get_bind {g : γ → α} {f' : τ → Program ε τ γ} {f : σ → Program ε σ α}
    (h : ∀ s, ErasesAs view g (f' s) (f (view s))) : ErasesAs view g (get >>= f') (get >>= f) :=
  fun e t s => h s e t s

/-- Working on a component goes through composition. -/
theorem zoom_bind {put : σ → τ → τ} (hview : ∀ x s, view (put x s) = x)
    (hput : ∀ x y s, put x (put y s) = put x s) (m : Program ε σ α) (f : α → Program ε σ β) :
    zoom view put (m >>= f) = (zoom view put m >>= fun a => zoom view put (f a)) := by
  funext e t s
  change (match (match m e t (view s) with
      | .returned a t' s' => f a e t' s'
      | .stopped s' => .stopped s') with
    | .returned a t' x => .returned a t' (put x s)
    | .stopped x => .stopped (put x s)) = match (match m e t (view s) with
      | .returned a t' x => Outcome.returned a t' (put x s)
      | .stopped x => .stopped (put x s)) with
    | .returned a t' s' => zoom view put (f a) e t' s'
    | .stopped s' => .stopped s'
  cases m e t (view s) with
  | stopped x => rfl
  | returned a t' x =>
    change (match f a e t' x with
      | .returned a t' y => Outcome.returned a t' (put y s)
      | .stopped y => .stopped (put y s)) = match f a e t' (view (put x s)) with
      | .returned a t' y => Outcome.returned a t' (put y (put x s))
      | .stopped y => .stopped (put y (put x s))
    rw [hview]
    cases f a e t' x with
    | returned b t'' y => exact congrArg (Outcome.returned b t'') (hput y x s).symm
    | stopped y => exact congrArg Outcome.stopped (hput y x s).symm

/-- A run of the larger program, seen through the view. -/
theorem Erases.returns {e : ε} {m' : Program ε τ α} {m : Program ε σ α} {s s' : τ} {a : α}
    (h : Erases view m' m) (hr : Returns e m' s a s') : Returns e m (view s) a (view s') := by
  obtain ⟨t, t', ht⟩ := hr
  refine ⟨t, t', ?_⟩
  rw [← h e t s, ht]
  rfl

/-- What holds of the smaller program holds of the larger one, seen through the view. -/
theorem Erases.wp {e : ε} {m' : Program ε τ α} {m : Program ε σ α} {stop : σ → Prop}
    {Q : α → σ → Prop} {s : τ} (h : Erases view m' m) (hw : Program.wp stop e m Q (view s)) :
    Program.wp (fun s => stop (view s)) e m' (fun a s => Q a (view s)) s := by
  intro t
  have ht := hw t
  rw [← h e t s] at ht
  cases hm : m' e t s with
  | returned a t' s' => simpa [hm, Outcome.see] using ht
  | stopped s' => simpa [hm, Outcome.see] using ht

section Mirror

/-! A program that asks nothing, beside one on a larger state. -/

variable {e : ε} {m' : Program ε τ α} {m : Program Unit σ α} {s : τ} {R : α → τ → Prop}

/-- What `m'` returns, `m` returns on the part that is seen, and `R` holds then. -/
def Mirrors (view : τ → σ) (e : ε) (m' : Program ε τ α) (m : Program Unit σ α) (s : τ)
    (R : α → τ → Prop) : Prop :=
  wp anyStop e m' (fun a s' => R a s' ∧ ∀ t, m () t (view s) = .returned a t (view s')) s

theorem Mirrors.and {P : α → τ → Prop} (h : Mirrors view e m' m s R) (hP : wp anyStop e m' P s) :
    Mirrors view e m' m s fun a s' => R a s' ∧ P a s' :=
  wp_mono (wp_and h hP) fun _ _ hr => ⟨⟨hr.1.1, hr.2⟩, hr.1.2⟩

theorem Mirrors.congr {n : Program Unit σ α} (h : Mirrors view e m' n s R)
    (heq : ∀ t, m () t (view s) = n () t (view s)) : Mirrors view e m' m s R :=
  wp_mono h fun _ _ hr => ⟨hr.1, fun t => (heq t).trans (hr.2 t)⟩

theorem Mirrors.bind {f' : α → Program ε τ β} {f : α → Program Unit σ β} {S : β → τ → Prop}
    (hm : Mirrors view e m' m s R) (hf : ∀ a s', R a s' → Mirrors view e (f' a) (f a) s' S) :
    Mirrors view e (m' >>= f') (m >>= f) s S := by
  apply wp_call hm
  rintro a s' ⟨hr, hret⟩
  apply wp_mono (hf a s' hr)
  rintro b s'' ⟨hs, hret'⟩
  exact ⟨hs, fun t => (bind_returned (hret t)).trans (hret' t)⟩

theorem mirrors_pure {a : α} (h : R a s) : Mirrors view e (pure a) (pure a) s R :=
  wp_pure.mpr ⟨h, fun _ => rfl⟩

theorem mirrors_halt : Mirrors view e halt m s R := wp_halt.mpr trivial

/-- A call that is not seen. -/
theorem Mirrors.skip {m' : Program ε τ β} {f' : β → Program ε τ α}
    (hm : wp anyStop e m' (fun _ s' => view s' = view s) s)
    (hf : ∀ b s', view s' = view s → Mirrors view e (f' b) m s' R) :
    Mirrors view e (m' >>= f') m s R := by
  apply wp_call hm
  intro b s' hv
  apply wp_mono (hf b s' hv)
  rintro a s'' ⟨hr, hret⟩
  refine ⟨hr, fun t => ?_⟩
  rw [← hv]
  exact hret t

theorem mirrors_get_bind {f' : τ → Program ε τ α} {f : σ → Program Unit σ α}
    (h : Mirrors view e (f' s) (f (view s)) s R) :
    Mirrors view e (get >>= f') (get >>= f) s R :=
  wp_get_bind.mpr h

theorem mirrors_modify {R : Unit → τ → Prop} {g' : τ → τ} {g : σ → σ}
    (hg : view (g' s) = g (view s)) (h : R () (g' s)) :
    Mirrors view e (modify g') (modify g) s R :=
  wp_modify.mpr ⟨h, fun t => by rw [hg]; rfl⟩

theorem mirrors_modify_bind {g' : τ → τ} {g : σ → σ} {f' : Unit → Program ε τ α}
    {f : Unit → Program Unit σ α} (hg : view (g' s) = g (view s))
    (h : Mirrors view e (f' ()) (f ()) (g' s) R) :
    Mirrors view e (modify g' >>= f') (modify g >>= f) s R := by
  apply wp_modify_bind.mpr
  apply wp_mono h
  rintro a s' ⟨hr, hret⟩
  refine ⟨hr, fun t => ?_⟩
  rw [hg] at hret
  exact hret t

theorem mirrors_assert_bind {p q : Prop} [Decidable p] [Decidable q]
    {f' : Unit → Program ε τ α} {f : Unit → Program Unit σ α} (hq : p → q)
    (h : p → Mirrors view e (f' ()) (f ()) s R) :
    Mirrors view e (assert p >>= f') (assert q >>= f) s R := by
  refine wp_assert_bind.mpr ⟨fun hp => ?_, fun _ => trivial⟩
  have hassert : (assert q : Program Unit σ Unit) = pure () := if_pos (hq hp)
  apply wp_mono (h hp)
  rintro a s' ⟨hr, hret⟩
  refine ⟨hr, fun t => ?_⟩
  rw [hassert]
  exact hret t

theorem mirrors_ite {p q : Prop} [Decidable p] [Decidable q] {n' : Program ε τ α}
    {n : Program Unit σ α} (hpq : p ↔ q) (hm : p → Mirrors view e m' m s R)
    (hn : ¬p → Mirrors view e n' n s R) :
    Mirrors view e (if p then m' else n') (if q then m else n) s R := by
  by_cases hp : p
  · rw [if_pos hp, if_pos (hpq.mp hp)]
    exact hm hp
  · rw [if_neg hp, if_neg fun hq => hp (hpq.mpr hq)]
    exact hn hp

end Mirror

end Program

end Gogoos
