import Gogoos.Logic.Program

/-!
# Runs of a step relation

A run is a sequence of steps. What every step preserves holds in every state of a run that
starts in it. Where a step is an event whose program returns, a list of events plays a run.
-/

namespace Gogoos

variable {σ : Type} {step : σ → σ → Prop} {I : σ → Prop} {s t : σ}

abbrev Run (step : σ → σ → Prop) : σ → σ → Prop := Relation.ReflTransGen step

theorem Run.invariant (hstep : ∀ s t, I s → step s t → I t) (h : Run step s t) (hs : I s) :
    I t := by
  induction h with
  | refl => exact hs
  | tail _ hst ih => exact hstep _ _ ih hst

section Plays

open Program

variable {α : Type} (run : σ → α → Program Unit σ Unit) (may : σ → α → Prop)

/-- The state after some events, as long as none stops the machine. -/
def stateAfter (s : σ) : List α → σ
  | [] => s
  | ev :: evs => stateAfter (run s ev () 0 s).state evs

/-- Events that may come one after another, each of which returns. -/
def Plays : σ → List α → Prop
  | _, [] => True
  | s, ev :: evs =>
    may s ev ∧ (run s ev () 0 s).value = some () ∧ Plays (run s ev () 0 s).state evs

variable {run may}

theorem Plays.reaches (hstep : ∀ s ev s', may s ev → Returns () (run s ev) s () s' → step s s') :
    ∀ {s} {evs : List α}, Plays run may s evs → Run step s (stateAfter run s evs)
  | _, [], _ => .refl
  | _, _ :: _, ⟨hmay, hret, h⟩ => .head (hstep _ _ _ hmay (.of_value hret)) (h.reaches hstep)

end Plays

end Gogoos
