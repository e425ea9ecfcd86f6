import Mathlib.Data.List.Chain
import Mathlib.Data.List.Nodup
import Mathlib.Tactic

/-!
# Doubly linked sequences

Over any type of places, with a place before and a place behind each place: the sequences that both
kinds of links agree on, and what becomes of them when a place is linked in or taken out.
-/

namespace Gogoos

variable {α : Type} {next prev next' prev' : α → α} {l l₁ l₂ : List α} {a b x : α}

/-- Neighbours in `l` point to each other. -/
def Linked (next prev : α → α) (l : List α) : Prop :=
  l.IsChain fun a b => next a = b ∧ prev b = a

theorem linked_cons_cons : Linked next prev (a :: b :: l) ↔
    (next a = b ∧ prev b = a) ∧ Linked next prev (b :: l) := List.isChain_cons_cons

theorem linked_split : Linked next prev (l₁ ++ a :: b :: l₂) ↔
    Linked next prev (l₁ ++ [a]) ∧ (next a = b ∧ prev b = a) ∧ Linked next prev (b :: l₂) :=
  List.isChain_append_cons_cons

/-- The forward link of the last place and the backward link of the first one do not matter. -/
theorem Linked.congr (h : Linked next prev l) (hn : ∀ a ∈ l.dropLast, next' a = next a)
    (hp : ∀ b ∈ l.tail, prev' b = prev b) : Linked next' prev' l := by
  induction l with
  | nil => exact .nil
  | cons a l ih =>
    cases l with
    | nil => exact .singleton a
    | cons b l =>
      obtain ⟨⟨h1, h2⟩, hrest⟩ := linked_cons_cons.mp h
      rw [List.dropLast_cons_cons] at hn
      have hna : next' a = next a := hn a List.mem_cons_self
      have hpb : prev' b = prev b := hp b List.mem_cons_self
      refine linked_cons_cons.mpr ⟨⟨hna.trans h1, hpb.trans h2⟩, ih hrest ?_ ?_⟩
      · exact fun c hc => hn c (List.mem_cons_of_mem _ hc)
      · exact fun c hc => hp c (List.mem_cons_of_mem _ hc)

/-- Links between other places do not matter. -/
theorem Linked.frame (h : Linked next prev l) (hn : ∀ a ∈ l, next' a = next a)
    (hp : ∀ a ∈ l, prev' a = prev a) : Linked next' prev' l :=
  h.congr (fun a ha => hn a (List.mem_of_mem_dropLast ha)) fun a ha => hp a (List.mem_of_mem_tail ha)

theorem Linked.next_eq (h : Linked next prev (l₁ ++ a :: b :: l₂)) : next a = b :=
  (linked_split.mp h).2.1.1

theorem Linked.prev_eq (h : Linked next prev (l₁ ++ a :: b :: l₂)) : prev b = a :=
  (linked_split.mp h).2.1.2

/-- The places before `b` and those behind `a` are no others than themselves. -/
theorem nodup_split (hnd : (l₁ ++ a :: b :: l₂).Nodup) :
    a ∉ l₁ ∧ b ∉ l₁ ∧ a ≠ b ∧ a ∉ l₂ ∧ b ∉ l₂ := by
  rw [List.nodup_append, List.nodup_cons, List.nodup_cons] at hnd
  obtain ⟨-, ⟨hab, hb, -⟩, hdis⟩ := hnd
  refine ⟨fun h => hdis a h a List.mem_cons_self rfl, fun h => ?_, fun h => ?_, fun h => ?_, hb⟩
  · exact hdis b h b (List.mem_cons_of_mem _ List.mem_cons_self) rfl
  · exact hab (h ▸ List.mem_cons_self)
  · exact hab (List.mem_cons_of_mem _ h)

/-- `x` is linked in between `a` and `b`. -/
theorem Linked.insert (h : Linked next prev (l₁ ++ a :: b :: l₂))
    (hnd : (l₁ ++ a :: b :: l₂).Nodup) (hx : x ∉ l₁ ++ a :: b :: l₂)
    (hna : next' a = x) (hpx : prev' x = a) (hnx : next' x = b) (hpb : prev' b = x)
    (hn : ∀ y, y ≠ a → y ≠ x → next' y = next y) (hp : ∀ y, y ≠ b → y ≠ x → prev' y = prev y) :
    Linked next' prev' (l₁ ++ a :: x :: b :: l₂) := by
  obtain ⟨hal, hbl, hab, har, hbr⟩ := nodup_split hnd
  obtain ⟨hleft, -, hright⟩ := linked_split.mp h
  rw [List.mem_append, List.mem_cons, List.mem_cons, not_or, not_or, not_or] at hx
  obtain ⟨hxl, hxa, hxb, hxr⟩ := hx
  refine linked_split.mpr ⟨?_, ⟨hna, hpx⟩, linked_cons_cons.mpr ⟨⟨hnx, hpb⟩, ?_⟩⟩
  · apply hleft.congr
    · intro y hy
      rw [List.dropLast_concat] at hy
      exact hn y (fun h => hal (h ▸ hy)) fun h => hxl (h ▸ hy)
    · intro y hy
      rcases List.mem_append.mp (List.mem_of_mem_tail hy) with hy | hy
      · exact hp y (fun h => hbl (h ▸ hy)) fun h => hxl (h ▸ hy)
      · obtain rfl := List.mem_singleton.mp hy
        exact hp y hab fun h => hxa h.symm
  · apply hright.congr
    · intro y hy
      rcases List.mem_cons.mp (List.mem_of_mem_dropLast hy) with rfl | hy
      · exact hn y (fun h => hab h.symm) fun h => hxb h.symm
      · exact hn y (fun h => har (h ▸ hy)) fun h => hxr (h ▸ hy)
    · intro y hy
      exact hp y (fun h => hbr (h ▸ hy)) fun h => hxr (h ▸ hy)

/-- `x` is taken out from between `a` and `b`. -/
theorem Linked.remove (h : Linked next prev (l₁ ++ a :: x :: b :: l₂))
    (hnd : (l₁ ++ a :: b :: l₂).Nodup) (hna : next' a = b) (hpb : prev' b = a)
    (hn : ∀ y, y ≠ a → next' y = next y) (hp : ∀ y, y ≠ b → prev' y = prev y) :
    Linked next' prev' (l₁ ++ a :: b :: l₂) := by
  obtain ⟨hal, hbl, hab, har, hbr⟩ := nodup_split hnd
  obtain ⟨hleft, -, hright⟩ := linked_split.mp h
  have hright' := (linked_cons_cons.mp hright).2
  refine linked_split.mpr ⟨?_, ⟨hna, hpb⟩, ?_⟩
  · apply hleft.congr
    · intro y hy
      rw [List.dropLast_concat] at hy
      exact hn y fun h => hal (h ▸ hy)
    · intro y hy
      rcases List.mem_append.mp (List.mem_of_mem_tail hy) with hy | hy
      · exact hp y fun h => hbl (h ▸ hy)
      · obtain rfl := List.mem_singleton.mp hy
        exact hp y hab
  · apply hright'.congr
    · intro y hy
      rcases List.mem_cons.mp (List.mem_of_mem_dropLast hy) with rfl | hy
      · exact hn y fun h => hab h.symm
      · exact hn y fun h => har (h ▸ hy)
    · exact fun y hy => hp y fun h => hbr (h ▸ hy)

/-- The place before the first one of `b :: l₂`. -/
theorem append_cons_eq {w : List α} (hw : w ≠ []) (b : α) (l₂ : List α) :
    ∃ l₁ a, w = l₁ ++ [a] ∧ w ++ b :: l₂ = l₁ ++ a :: b :: l₂ := by
  refine ⟨w.dropLast, w.getLast hw, (List.dropLast_append_getLast hw).symm, ?_⟩
  conv_lhs => rw [← List.dropLast_append_getLast hw]
  rw [List.append_assoc, List.singleton_append]

end Gogoos
