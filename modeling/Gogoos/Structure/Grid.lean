import Mathlib.Tactic

/-!
# The contents of a grid of slots

A grid holds at most one item at each place. Its content is the multiset of its items, so
that filling one empty place adds one item and nothing else.
-/

namespace Gogoos

variable {ι α : Type}

/-- The item of one place, as a multiset. -/
def toBag : Option α → Multiset α
  | none => 0
  | some a => {a}

/-- The items at the places of `s`. -/
def bag (s : Finset ι) (f : ι → Option α) : Multiset α := ∑ x ∈ s, toBag (f x)

theorem bag_congr {s : Finset ι} {f g : ι → Option α} (h : ∀ x ∈ s, g x = f x) :
    bag s g = bag s f := Finset.sum_congr rfl fun x hx => by rw [h x hx]

theorem mem_bag {s : Finset ι} {f : ι → Option α} {a : α} :
    a ∈ bag s f ↔ ∃ x ∈ s, f x = some a := by
  unfold bag
  rw [Multiset.mem_sum]
  refine exists_congr fun x => and_congr_right fun _ => ?_
  cases f x <;> simp [toBag, eq_comm]

theorem card_bag_le (s : Finset ι) (f : ι → Option α) : Multiset.card (bag s f) ≤ s.card := by
  unfold bag
  rw [Multiset.card_sum, Finset.card_eq_sum_ones]
  refine Finset.sum_le_sum fun x _ => ?_
  cases f x <;> simp [toBag]

variable [DecidableEq ι]

/-- Where each item occurs once, it has one place. -/
theorem bag_inj {s : Finset ι} {f : ι → Option α} {x y : ι} {a : α} (h : (bag s f).Nodup)
    (hx : x ∈ s) (hy : y ∈ s) (hfx : f x = some a) (hfy : f y = some a) : x = y := by
  by_contra hne
  have hrest : a ∈ bag (s.erase x) f :=
    mem_bag.mpr ⟨y, Finset.mem_erase.mpr ⟨Ne.symm hne, hy⟩, hfy⟩
  unfold bag at h hrest
  rw [← Finset.add_sum_erase s _ hx, hfx, toBag, Multiset.singleton_add, Multiset.nodup_cons] at h
  exact h.1 hrest

/-- Filling an empty place adds its item. -/
theorem bag_insert {s : Finset ι} {f g : ι → Option α} {x : ι} {a : α} (hx : x ∈ s)
    (hf : f x = none) (hg : g x = some a) (h : ∀ y ∈ s, y ≠ x → g y = f y) :
    bag s g = a ::ₘ bag s f := by
  have hrest : ∑ y ∈ s.erase x, toBag (g y) = ∑ y ∈ s.erase x, toBag (f y) :=
    Finset.sum_congr rfl fun y hy => by
      rw [h y (Finset.mem_of_mem_erase hy) (Finset.ne_of_mem_erase hy)]
  unfold bag
  rw [← Finset.add_sum_erase s _ hx, ← Finset.add_sum_erase s (fun y => toBag (f y)) hx,
    hrest, hf, hg]
  simp [toBag, Multiset.singleton_add]

end Gogoos
