import Gogoos.Shell.WashPath

/-!
# The canonical path

What `washPath` writes, against the components that remain of the path.
-/

namespace Gogoos

section Stacks

variable {α : Type*} {name : α → List UInt8} {st l : List α} {as cs : List (List UInt8)} {m : ℕ}

theorem foldl_push_sublist : (l.foldl (push name) st).Sublist (st ++ l) := by
  induction l generalizing st with
  | nil => simp
  | cons x l ih =>
    rw [List.foldl_cons]
    refine ih.trans ?_
    have hpush : (push name st x).Sublist (st ++ [x]) := by
      unfold push
      split_ifs
      · exact (List.dropLast_sublist st).trans (List.sublist_append_left _ _)
      · exact List.sublist_append_left _ _
      · exact List.Sublist.refl _
    simpa using hpush.append_right l

theorem foldl_push_of_ne (h : ∀ x ∈ l, name x ≠ dotDotName ∧ name x ≠ dotName) :
    l.foldl (push name) st = st ++ l := by
  induction l generalizing st with
  | nil => simp
  | cons x l ih =>
    obtain ⟨hdd, hd⟩ := h x (by simp)
    have hpush : push name st x = st ++ [x] := by
      unfold push
      rw [if_neg hdd, if_neg hd]
    rw [List.foldl_cons, hpush, ih fun y hy => h y (List.mem_cons_of_mem _ hy)]
    simp

theorem foldl_push_ne (hst : ∀ x ∈ st, name x ≠ dotDotName ∧ name x ≠ dotName) :
    ∀ x ∈ l.foldl (push name) st, name x ≠ dotDotName ∧ name x ≠ dotName := by
  induction l generalizing st with
  | nil => exact hst
  | cons x l ih =>
    rw [List.foldl_cons]
    apply ih
    intro y hy
    unfold push at hy
    split_ifs at hy with hdd hd
    · exact hst y (List.mem_of_mem_dropLast hy)
    · exact hst y hy
    · rcases List.mem_append.mp hy with hy | hy
      · exact hst y hy
      · rw [List.mem_singleton.mp hy]
        exact ⟨hdd, hd⟩

theorem map_foldl_push :
    (l.foldl (push name) st).map name = (l.map name).foldl (push id) (st.map name) := by
  induction l generalizing st with
  | nil => rfl
  | cons x l ih =>
    rw [List.foldl_cons, ih, List.map_cons, List.foldl_cons]
    congr 1
    unfold push
    simp only [id_eq]
    split_ifs
    · exact List.map_dropLast
    · rfl
    · simp

theorem map_marked : (marked m cs).map Prod.fst = cs := by
  induction cs generalizing m with
  | nil => rfl
  | cons c cs ih => simp [marked, ih]

theorem le_of_mem_marked {y : List UInt8 × ℕ} (hy : y ∈ marked m cs) : m ≤ y.2 := by
  induction cs generalizing m with
  | nil => simp [marked] at hy
  | cons c cs ih =>
    rcases List.mem_cons.mp hy with rfl | hy
    · exact le_rfl
    · exact (le_max_left _ _).trans (ih hy)

theorem marked_pairwise : (marked m cs).Pairwise fun x y => x.1.length ≤ y.2 := by
  induction cs generalizing m with
  | nil => exact List.Pairwise.nil
  | cons c cs ih =>
    refine List.Pairwise.cons ?_ ih
    intro y hy
    exact (le_max_right _ _).trans (le_of_mem_marked hy)

theorem splitOn_render (hne : as ≠ []) (hslash : ∀ a ∈ as, slash ∉ a) :
    (render as).tail.splitOn slash = as := by
  induction as with
  | nil => exact absurd rfl hne
  | cons a as ih =>
    have ha := hslash a (by simp)
    cases as with
    | nil =>
      rw [render_singleton, List.tail_cons]
      exact List.splitOn_eq_singleton ha
    | cons b bs =>
      have hrest := ih (by simp) fun c hc => hslash c (List.mem_cons_of_mem _ hc)
      have htail : (render (a :: b :: bs)).tail = a ++ slash :: (render (b :: bs)).tail := by
        simp [render]
      rw [htail, List.splitOn_append_cons_self, List.splitOn_eq_singleton ha, hrest]
      rfl

theorem components_render (hne : ∀ a ∈ as, a ≠ []) (hslash : ∀ a ∈ as, slash ∉ a) :
    components (render as) = as := by
  by_cases h0 : as = []
  · subst h0
    rfl
  · rw [render, if_neg h0]
    exact components_joined fun a ha => ⟨hne a ha, hslash a ha⟩

end Stacks

section Widths

variable {as names : List (List UInt8)} {st l : List (List UInt8 × ℕ)} {m : ℕ}

theorem shown_eq_iff (h : List.Forall₂ Shown st as) :
    as = st.map Prod.fst ↔ ∀ x ∈ st, width x = x.1.length := by
  induction h with
  | nil => simp
  | cons hx h ih =>
    rw [List.map_cons, List.cons.injEq, hx.eq_iff, ih]
    simp

theorem room_of_width (h : ∀ x ∈ st, width x = x.1.length) :
    room st = pathLength (st.map Prod.fst) := by
  unfold room pathLength
  rw [List.map_map]
  congr 1
  apply List.map_congr_left
  intro x hx
  simp [h x hx]

theorem width_marked (h : ∀ x ∈ st, width x = x.1.length)
    (hpair : st.Pairwise fun x y => x.1.length ≤ y.2) (hm : ∀ x ∈ st, m ≤ x.2) :
    ∀ y ∈ marked m (st.map Prod.fst), width y = y.1.length := by
  induction st generalizing m with
  | nil => simp [marked]
  | cons x st ih =>
    obtain ⟨hfirst, hpair⟩ := List.pairwise_cons.mp hpair
    intro y hy
    rcases List.mem_cons.mp hy with rfl | hy
    · have hx := h x (by simp)
      have hmx := hm x (by simp)
      unfold width at hx ⊢
      simp only
      split_ifs at hx ⊢ <;> omega
    · refine ih (fun z hz => h z (List.mem_cons_of_mem _ hz)) hpair ?_ y hy
      intro z hz
      exact max_le (hm z (List.mem_cons_of_mem _ hz)) (hfirst z hz)

theorem room_foldl_push (hfits : Fits st l) (hst : room st < 512) :
    room (l.foldl (push Prod.fst) st) < 512 := by
  induction l generalizing st with
  | nil => exact hst
  | cons x l ih => exact ih hfits.2 hfits.1

theorem fits_of_room (h : ∀ x ∈ l, x.1 ≠ dotDotName ∧ x.1 ≠ dotName) (hroom : room (st ++ l) < 512) :
    Fits st l := by
  induction l generalizing st with
  | nil => trivial
  | cons x l ih =>
    obtain ⟨hdd, hd⟩ := h x (by simp)
    have hpush : push Prod.fst st x = st ++ [x] := by
      unfold push
      rw [if_neg hdd, if_neg hd]
    have hall : st ++ [x] ++ l = st ++ x :: l := by simp
    constructor
    · rw [hpush]
      refine lt_of_le_of_lt ?_ hroom
      rw [← hall]
      exact ((List.sublist_append_left _ _).map _).sum_le_sum fun _ _ => Nat.zero_le _
    · rw [hpush]
      apply ih fun y hy => h y (List.mem_cons_of_mem _ hy)
      rw [hall]
      exact hroom

end Widths

section Law

variable {p : List UInt8}

theorem map_survivors : (survivors p).map Prod.fst = (components p).foldl (push id) [] := by
  unfold survivors
  rw [map_foldl_push, map_marked]
  rfl

theorem canonical_eq : canonical p = render ((survivors p).map Prod.fst) := by
  rw [map_survivors]
  rfl

theorem fitting_of_mem (hzero : (0 : UInt8) ∉ p) (hlen : p.length < 512) {c : List UInt8}
    (hc : c ∈ components p) : Fitting c := by
  obtain ⟨hne, hslash, hmem⟩ := mem_components hc
  have hle : c.length + 1 ≤ pathLength (components p) :=
    List.single_le_sum (by simp) _ (List.mem_map.mpr ⟨c, hc, rfl⟩)
  have hall := pathLength_components (p := p)
  exact ⟨hne, fun h0 => hzero (hmem 0 h0), hslash, by omega⟩

theorem washPath_run (habs : p.head? = some slash) (hzero : (0 : UInt8) ∉ p)
    (hlen : p.length < 512) :
    (¬Fits [] (marked 0 (components p)) ∧ washPath p = none) ∨
    (Fits [] (marked 0 (components p)) ∧ ∃ as, washPath p = some (render as) ∧
      List.Forall₂ Shown (survivors p) as ∧ ∀ a ∈ as, a ≠ []) := by
  have hfuel : (components p).length < p.length + 2 := by
    have hle : (components p).length ≤ pathLength (components p) := length_le_pathLength
    have hall := pathLength_components (p := p)
    omega
  have hsub : restOf (some p) = components p := rfl
  have hrun := washLoop_run (fun c hc => fitting_of_mem hzero hlen hc) hfuel cleared_zero
    (by norm_num) hsub List.Forall₂.nil (by simp) (by decide)
  have hloop : washPath p = washLoop (p.length + 2) (nextName (fun _ => 0) (some p)).1
      (nextName (fun _ => 0) (some p)).2 (render []) := by
    have hnot : ¬p.head? ≠ some slash := fun h => h habs
    refine (if_neg hnot).trans ?_
    by_cases h0 : (nextName (fun _ => 0) (some p)).1 0 = 0
    · exact (if_pos h0).trans (if_pos h0).symm
    · exact if_neg h0
  rw [hloop]
  exact hrun

/-- What is left of a path has no dots in it. -/
theorem survivors_ne : ∀ x ∈ survivors p, x.1 ≠ dotDotName ∧ x.1 ≠ dotName :=
  foldl_push_ne (by simp)

theorem survivors_sublist : (survivors p).Sublist (marked 0 (components p)) :=
  foldl_push_sublist

theorem mem_components_of_survivors {c : List UInt8} (hc : c ∈ (survivors p).map Prod.fst) :
    c ∈ components p := by
  have hmem := (survivors_sublist.map Prod.fst).subset hc
  rwa [map_marked] at hmem

theorem fitting_of_survivor (hzero : (0 : UInt8) ∉ p) (hlen : p.length < 512) :
    ∀ c ∈ (survivors p).map Prod.fst, Fitting c :=
  fun _ hc => fitting_of_mem hzero hlen (mem_components_of_survivors hc)

theorem components_canonical (hzero : (0 : UInt8) ∉ p) (hlen : p.length < 512) :
    components (canonical p) = (survivors p).map Prod.fst := by
  have hfitting := fitting_of_survivor hzero hlen
  rw [canonical_eq]
  exact components_render (fun a ha => (hfitting a ha).nonempty) fun a ha => (hfitting a ha).noSlash

theorem canonical_canonical (hzero : (0 : UInt8) ∉ p) (hlen : p.length < 512) :
    canonical (canonical p) = canonical p := by
  have hdots : ∀ c ∈ (survivors p).map Prod.fst, id c ≠ dotDotName ∧ id c ≠ dotName := by
    intro c hc
    obtain ⟨x, hx, rfl⟩ := List.mem_map.mp hc
    exact survivors_ne x hx
  calc canonical (canonical p)
      = render (((survivors p).map Prod.fst).foldl (push id) []) := by
        rw [← components_canonical hzero hlen]
        rfl
    _ = render ((survivors p).map Prod.fst) := by rw [foldl_push_of_ne hdots, List.nil_append]
    _ = canonical p := canonical_eq.symm

theorem head_render {as : List (List UInt8)} : (render as).head? = some slash := by
  unfold render
  split_ifs with h
  · rfl
  · obtain ⟨a, as, rfl⟩ := List.exists_cons_of_ne_nil h
    simp

theorem zero_notMem_canonical (hzero : (0 : UInt8) ∉ p) (hlen : p.length < 512) :
    (0 : UInt8) ∉ canonical p := by
  have hfitting := fitting_of_survivor hzero hlen
  intro hmem
  rw [canonical_eq] at hmem
  unfold render at hmem
  split_ifs at hmem with h
  · exact absurd hmem (by decide)
  · obtain ⟨c, hc, hin⟩ := List.mem_flatMap.mp hmem
    rcases List.mem_cons.mp hin with hs | hin
    · exact absurd hs (by decide)
    · exact (hfitting c hc).nonzero hin

theorem length_canonical (h : Readable p) : (canonical p).length < 512 := by
  have hroom : room (survivors p) < 512 := room_foldl_push h.2 (by decide)
  rw [canonical_eq]
  by_cases h0 : (survivors p).map Prod.fst = []
  · rw [h0]
    decide
  · rw [length_render h0, ← room_of_width h.1]
    exact hroom

/-- The canonical path of a readable path is readable. -/
theorem Readable.canonical (h : Readable p) (hzero : (0 : UInt8) ∉ p) (hlen : p.length < 512) :
    Readable (canonical p) := by
  have hcomp := components_canonical hzero hlen
  have hpair := marked_pairwise.sublist (survivors_sublist (p := p))
  have hclean : ∀ y ∈ marked 0 ((survivors p).map Prod.fst), width y = y.1.length :=
    width_marked h.1 hpair fun x _ => Nat.zero_le x.2
  have hdots : ∀ x ∈ marked 0 ((survivors p).map Prod.fst), x.1 ≠ dotDotName ∧ x.1 ≠ dotName := by
    intro x hx
    have hfst : x.1 ∈ (survivors p).map Prod.fst := by
      have hmem := List.mem_map_of_mem (f := Prod.fst) hx
      rwa [map_marked] at hmem
    obtain ⟨y, hy, hyx⟩ := List.mem_map.mp hfst
    rw [← hyx]
    exact survivors_ne y hy
  have hroom : room (marked 0 ((survivors p).map Prod.fst)) < 512 := by
    rw [room_of_width hclean, map_marked, ← room_of_width h.1]
    exact room_foldl_push h.2 (by decide)
  have hself : survivors (Gogoos.canonical p) = marked 0 ((survivors p).map Prod.fst) := by
    rw [survivors, hcomp, foldl_push_of_ne hdots, List.nil_append]
  constructor
  · rw [hself]
    exact hclean
  · rw [hcomp]
    exact fits_of_room hdots hroom

theorem Readable.run (h : Readable p) (habs : p.head? = some slash) (hzero : (0 : UInt8) ∉ p)
    (hlen : p.length < 512) : washPath p = some (Gogoos.canonical p) := by
  rcases washPath_run habs hzero hlen with ⟨hnot, -⟩ | ⟨-, as, hrun, hshown, -⟩
  · exact absurd h.2 hnot
  · rw [hrun, canonical_eq, (shown_eq_iff hshown).mpr h.1]

theorem canonical_clean (hzero : (0 : UInt8) ∉ p) (hlen : p.length < 512) :
    canonical p = [slash] ∨ ∀ c ∈ (canonical p).tail.splitOn slash,
      c ≠ [] ∧ c ≠ dotName ∧ c ≠ dotDotName := by
  have hfitting := fitting_of_survivor hzero hlen
  rw [canonical_eq]
  by_cases h0 : (survivors p).map Prod.fst = []
  · left
    rw [h0]
    rfl
  · right
    rw [splitOn_render h0 fun a ha => (hfitting a ha).noSlash]
    intro c hc
    obtain ⟨x, hx, hxc⟩ := List.mem_map.mp hc
    obtain ⟨hdd, hd⟩ := survivors_ne x hx
    rw [hxc] at hdd hd
    exact ⟨(hfitting c hc).nonempty, hd, hdd⟩

/-- `washPath` writes the canonical path, without dots and empty components and unchanged by
a second pass, exactly when no remaining name is read with the end of a longer one. -/
theorem path_washing_law (habs : p.head? = some slash) (hzero : (0 : UInt8) ∉ p)
    (hlen : p.length < 512) :
    (∃ q, washPath p = some q ∧ q = canonical p ∧
      (q = [slash] ∨ ∀ c ∈ q.tail.splitOn slash, c ≠ [] ∧ c ≠ dotName ∧ c ≠ dotDotName) ∧
      washPath q = some q) ↔ Readable p := by
  constructor
  · rintro ⟨q, hq, hcan, -, -⟩
    rcases washPath_run habs hzero hlen with ⟨hnot, hnone⟩ | ⟨hfits, as, has, hshown, hne⟩
    · rw [hnone] at hq
      exact absurd hq (by simp)
    · rw [hq] at has
      have hsame : render as = render ((survivors p).map Prod.fst) := by
        rw [← canonical_eq, ← hcan]
        exact (Option.some.inj has).symm
      have hnames : as = (survivors p).map Prod.fst := by
        rw [← components_render hne (noSlash_of_shown hshown), hsame]
        rw [← canonical_eq]
        exact components_canonical hzero hlen
      exact ⟨(shown_eq_iff hshown).mp hnames, hfits⟩
  · intro h
    have hread := h.canonical hzero hlen
    have hhead : (canonical p).head? = some slash := by
      rw [canonical_eq]
      exact head_render
    have hagain := hread.run hhead (zero_notMem_canonical hzero hlen) (length_canonical h)
    rw [canonical_canonical hzero hlen] at hagain
    exact ⟨canonical p, h.run habs hzero hlen, rfl, canonical_clean hzero hlen, hagain⟩

/-- The path `"/a//./b/.."`. -/
def samplePath : List UInt8 := [47, 97, 47, 47, 46, 47, 98, 47, 46, 46]

theorem path_washing_law_sample :
    (∃ q, washPath samplePath = some q ∧ q = canonical samplePath ∧
      (q = [slash] ∨ ∀ c ∈ q.tail.splitOn slash, c ≠ [] ∧ c ≠ dotName ∧ c ≠ dotDotName) ∧
      washPath q = some q) ↔ Readable samplePath :=
  path_washing_law (by decide) (by decide) (by decide)

/-- After a name of 20 characters, one of 17 characters comes out with 20. -/
theorem path_washing_law_fails :
    ¬∀ p : List UInt8, p.head? = some slash → (0 : UInt8) ∉ p → p.length < 512 →
      ∃ q, washPath p = some q ∧ q = canonical p ∧
        (q = [slash] ∨ ∀ c ∈ q.tail.splitOn slash, c ≠ [] ∧ c ≠ dotName ∧ c ≠ dotDotName) ∧
        washPath q = some q := by
  intro h
  set p : List UInt8 := slash :: List.replicate 20 97 ++ slash :: List.replicate 17 98 with hp
  obtain ⟨q, hq, hcan, -⟩ := h p (by decide) (by decide) (by decide)
  have hlong : washPath p =
      some (slash :: List.replicate 20 97 ++ slash :: List.replicate 17 98 ++ [97, 97, 97]) := by
    decide +kernel
  have hshort : canonical p = p := by decide +kernel
  rw [hcan, hshort, hlong] at hq
  exact absurd hq (by decide)

end Law

end Gogoos
