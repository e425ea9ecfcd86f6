import Gogoos.Fs.Path

/-!
# Components of a path

The names between the slashes of a path, as `pathParse` takes them off one after another.
-/

namespace Gogoos

variable {p q c : List UInt8} {cs : List (List UInt8)}

section Components

/-- The names of a path, split on runs of slashes. -/
def components (p : List UInt8) : List (List UInt8) := (p.splitOn slash).filter (· ≠ [])

@[simp] theorem components_nil : components [] = [] := rfl

@[simp] theorem components_slash : components (slash :: q) = components q := by
  unfold components
  rw [List.splitOn_cons_eq_if_modifyHead]
  simp

theorem components_name (hc : slash ∉ c) (hne : c ≠ []) : components c = [c] := by
  unfold components
  rw [List.splitOn_eq_singleton hc]
  simp [hne]

theorem components_append (hc : slash ∉ c) (hne : c ≠ []) :
    components (c ++ slash :: q) = c :: components q := by
  unfold components
  rw [List.splitOn_append_cons_self, List.splitOn_eq_singleton hc, List.singleton_append,
    List.filter_cons]
  simp [hne]

theorem mem_components : c ∈ components p → c ≠ [] ∧ slash ∉ c ∧ ∀ x ∈ c, x ∈ p := by
  have hsplit : ∀ p : List UInt8, ∀ c ∈ p.splitOn slash, slash ∉ c ∧ ∀ x ∈ c, x ∈ p := by
    intro p
    induction p with
    | nil => simp
    | cons a p ih =>
      intro c hc
      rw [List.splitOn_cons_eq_if_modifyHead] at hc
      split_ifs at hc with ha
      · rcases List.mem_cons.mp hc with rfl | hc
        · simp
        · obtain ⟨h1, h2⟩ := ih c hc
          exact ⟨h1, fun x hx => List.mem_cons_of_mem _ (h2 x hx)⟩
      · obtain ⟨d, ds, hd⟩ := List.exists_cons_of_ne_nil (List.splitOn_ne_nil slash p)
        rw [hd] at hc ih
        rcases List.mem_cons.mp hc with rfl | hc
        · obtain ⟨h1, h2⟩ := ih d (by simp)
          have hne : slash ≠ a := fun hc => ha (by simp [hc])
          refine ⟨by simp [hne, h1], fun x hx => ?_⟩
          rcases List.mem_cons.mp hx with rfl | hx
          · simp
          · exact List.mem_cons_of_mem _ (h2 x hx)
        · obtain ⟨h1, h2⟩ := ih c (by simp [hc])
          exact ⟨h1, fun x hx => List.mem_cons_of_mem _ (h2 x hx)⟩
  intro hc
  obtain ⟨hmem, hne⟩ := List.mem_filter.mp hc
  obtain ⟨h1, h2⟩ := hsplit p c hmem
  exact ⟨by simpa using hne, h1, h2⟩

/-- The length of the names with a slash before each. -/
def pathLength (cs : List (List UInt8)) : ℕ := (cs.map fun c => c.length + 1).sum

/-- The names with a slash before each. -/
def joined (cs : List (List UInt8)) : List UInt8 := cs.flatMap (slash :: ·)

theorem joined_cons : joined (c :: cs) = slash :: (c ++ joined cs) := by simp [joined]

theorem joined_append : joined (cs ++ [c]) = joined cs ++ slash :: c := by simp [joined]

theorem length_joined : (joined cs).length = pathLength cs := by
  unfold joined pathLength
  rw [List.length_flatMap]
  rfl

theorem components_joined (h : ∀ c ∈ cs, c ≠ [] ∧ slash ∉ c) : components (joined cs) = cs := by
  induction cs with
  | nil => rfl
  | cons c cs ih =>
    obtain ⟨hne, hslash⟩ := h c (by simp)
    have hrest := ih fun d hd => h d (List.mem_cons_of_mem _ hd)
    rw [joined_cons, components_slash]
    cases cs with
    | nil =>
      rw [joined, List.flatMap_nil, List.append_nil]
      exact components_name hslash hne
    | cons d ds =>
      rw [joined_cons] at hrest ⊢
      rw [components_append hslash hne, ← components_slash, hrest]

theorem pathLength_append {ds : List (List UInt8)} :
    pathLength (cs ++ ds) = pathLength cs + pathLength ds := by
  simp [pathLength]

theorem length_le_pathLength : cs.length ≤ pathLength cs := by
  unfold pathLength
  induction cs with
  | nil => simp
  | cons c cs ih =>
    simp only [List.length_cons, List.map_cons, List.sum_cons]
    omega

theorem pathLength_components : pathLength (components p) ≤ p.length + 1 := by
  have hsplit : ∀ p : List UInt8, pathLength (p.splitOn slash) = p.length + 1 := by
    intro p
    induction p with
    | nil => rfl
    | cons a p ih =>
      rw [List.splitOn_cons_eq_if_modifyHead]
      split_ifs with ha
      · unfold pathLength at ih ⊢
        simp only [List.map_cons, List.sum_cons, List.length_nil, ih, List.length_cons]
        omega
      · obtain ⟨d, ds, hd⟩ := List.exists_cons_of_ne_nil (List.splitOn_ne_nil slash p)
        rw [hd] at ih ⊢
        unfold pathLength at ih ⊢
        simp only [List.modifyHead_cons, List.map_cons, List.sum_cons, List.length_cons] at ih ⊢
        omega
  rw [← hsplit p]
  unfold pathLength components
  exact (List.filter_sublist.map _).sum_le_sum fun _ _ => Nat.zero_le _

/-- In an absolute path every name has a slash before it. -/
theorem pathLength_absolute (h : p.head? = some slash) : pathLength (components p) ≤ p.length := by
  cases p with
  | nil => simp at h
  | cons a q =>
    obtain rfl : a = slash := by simpa using h
    rw [components_slash]
    exact pathLength_components

end Components

section Parsing

/-- What `pathParse` makes of a path: its first name, and the rest from a slash on. -/
inductive Parsed (p : List UInt8) : List UInt8 × Option (List UInt8) → Prop
  | empty (hnone : components p = []) : Parsed p ([], none)
  | last {c : List UInt8} (hne : c ≠ []) (hslash : slash ∉ c) (hall : components p = [c])
      (hlen : c.length ≤ p.length) : Parsed p (c, none)
  | more {c r : List UInt8} (hne : c ≠ []) (hslash : slash ∉ c) (hr : r.head? = some slash)
      (hall : components p = c :: components r) (hlen : c.length + r.length ≤ p.length) :
      Parsed p (c, some r)

theorem components_dropWhile : components (p.dropWhile (· = slash)) = components p := by
  induction p with
  | nil => rfl
  | cons a p ih =>
    by_cases ha : a = slash
    · subst ha
      rw [List.dropWhile_cons_of_pos (by simp), ih, components_slash]
    · rw [List.dropWhile_cons_of_neg (by simpa using ha)]

theorem pathParse_eq : pathParse p =
    ((p.dropWhile (· = slash)).takeWhile (· ≠ slash),
      if (p.dropWhile (· = slash)).dropWhile (· ≠ slash) = [] then none
      else some ((p.dropWhile (· = slash)).dropWhile (· ≠ slash))) := by
  have hdrop : (if p.head? = some slash then p.dropWhile (· = slash) else p) =
      p.dropWhile (· = slash) := by
    split_ifs with h
    · rfl
    · cases p with
      | nil => rfl
      | cons a p =>
        rw [List.dropWhile_cons_of_neg]
        simpa using h
  unfold pathParse
  rw [hdrop]

theorem pathParse_parsed : Parsed p (pathParse p) := by
  rw [pathParse_eq]
  set q := p.dropWhile (· = slash) with hq
  set c := q.takeWhile (· ≠ slash) with hc
  set r := q.dropWhile (· ≠ slash) with hr
  have hcr : c ++ r = q := List.takeWhile_append_dropWhile
  have hcomp : components p = components q := components_dropWhile.symm
  have hlen : q.length ≤ p.length := (List.dropWhile_sublist _).length_le
  have hslash : slash ∉ c := by
    intro hmem
    have hall := List.all_eq_true.mp List.all_takeWhile slash hmem
    simp at hall
  have hsum : c.length + r.length = q.length := by rw [← hcr, List.length_append]
  have hhead : ∀ a, q.head? = some a → a ≠ slash := by
    intro a ha hs
    have hnot := List.head?_dropWhile_not (· = slash) p
    rw [← hq, ha] at hnot
    simp [hs] at hnot
  by_cases h0 : r = []
  · rw [if_pos h0]
    rw [h0, List.append_nil] at hcr
    by_cases hc0 : c = []
    · rw [hc0]
      refine .empty ?_
      rw [hcomp, ← hcr, hc0]
      rfl
    · refine .last hc0 hslash ?_ (by omega)
      rw [hcomp, ← hcr]
      exact components_name hslash hc0
  · rw [if_neg h0]
    obtain ⟨a, r', hr'⟩ := List.exists_cons_of_ne_nil h0
    obtain rfl : a = slash := by
      have hnot := List.head?_dropWhile_not (· ≠ slash) q
      rw [← hr, hr'] at hnot
      simpa using hnot
    have hc0 : c ≠ [] := by
      intro hc0
      refine hhead slash ?_ rfl
      rw [← hcr, hc0, hr']
      rfl
    refine .more hc0 hslash (by rw [hr']; rfl) ?_ (by omega)
    rw [hcomp, ← hcr, hr', components_append hslash hc0, components_slash]

/-- The names that a pointer into a path still leads to. -/
def restOf (sub : Option (List UInt8)) : List (List UInt8) := sub.elim [] components

theorem pathParse_of_nil (h : components p = []) : pathParse p = ([], none) := by
  have hparsed := pathParse_parsed (p := p)
  cases hpair : pathParse p with
  | mk d r =>
    rw [hpair] at hparsed
    cases hparsed with
    | empty => rfl
    | last hne hslash hall => simp [hall] at h
    | more hne hslash hr hall => simp [hall] at h

theorem pathParse_of_cons (h : components p = c :: cs) :
    ∃ r, pathParse p = (c, r) ∧ restOf r = cs := by
  have hparsed := pathParse_parsed (p := p)
  cases hpair : pathParse p with
  | mk d r =>
    rw [hpair] at hparsed
    cases hparsed with
    | empty hnone => simp [hnone] at h
    | last hne hslash hone =>
      rw [hone] at h
      obtain ⟨rfl, rfl⟩ := List.cons.inj h
      exact ⟨none, rfl, rfl⟩
    | more hne hslash hr hmore =>
      rw [hmore] at h
      obtain ⟨rfl, rfl⟩ := List.cons.inj h
      exact ⟨some _, rfl, rfl⟩

end Parsing

end Gogoos
