import Gogoos.Fs.Components
import Gogoos.Fs.Codec

/-!
# Path normalisation in the shell

`washPath` works a path into a string through one name buffer, of which it clears 16
characters between two names. A name of 16 characters or more comes out with the end of the
longest name before it.
-/

namespace Gogoos

section WashPath

/-- The string that an array of `MAX_PATH_LEN` characters holds. -/
def nameOf (buf : ℕ → UInt8) : List UInt8 := ((List.range 512).map buf).takeWhile (· ≠ 0)

/-- What `pathParse` does to the array it stores a name in: no character is written behind
the name. -/
def storeName (buf : ℕ → UInt8) (name : List UInt8) : ℕ → UInt8 :=
  memcpy buf 0 (fun k => name.getD k 0) name.length

/-- Cuts a path at its last slash, behind the slash when it is the first character. -/
def upDir (newAbsPath : List UInt8) : List UInt8 :=
  let parent := ((newAbsPath.reverse.dropWhile (· ≠ slash)).drop 1).reverse
  if parent = [] then [slash] else parent

/-- What a name does to the path built so far. `none` when the string outgrows the
`MAX_PATH_LEN` characters that every caller hands over. -/
def washName (newAbsPath name : List UInt8) : Option (List UInt8) :=
  if name = dotDotName then some (upDir newAbsPath)
  else if name ≠ dotName then
    let newAbsPath := (if newAbsPath ≠ [slash] then newAbsPath ++ [slash] else newAbsPath) ++ name
    if newAbsPath.length < 512 then some newAbsPath else none
  else some newAbsPath

/-- The next name in the buffer and the rest of the path; a `NULL` pointer leaves both. -/
def nextName (name : ℕ → UInt8) (subPath : Option (List UInt8)) :
    (ℕ → UInt8) × Option (List UInt8) :=
  match subPath with
  | none => (name, none)
  | some p => (storeName name (pathParse p).1, (pathParse p).2)

/-- The loop of `washPath`, `none` when the rounds do not suffice. -/
def washLoop : (fuel : ℕ) → (name : ℕ → UInt8) → (subPath : Option (List UInt8)) →
    (newAbsPath : List UInt8) → Option (List UInt8)
  | 0, _, _, _ => none
  | fuel + 1, name, subPath, newAbsPath =>
    if name 0 = 0 then some newAbsPath
    else
      match washName newAbsPath (nameOf name) with
      | none => none
      | some newAbsPath =>
        let next := nextName (memset name 0 0 16) subPath
        washLoop fuel next.1 next.2 newAbsPath

/-- The path that is written, `none` for a relative path, which is only complained about.
Each round takes a character from the path, so two rounds more than characters are enough. -/
def washPath (oldAbsPath : List UInt8) : Option (List UInt8) :=
  if oldAbsPath.head? ≠ some slash then none
  else
    let first := nextName (fun _ => 0) (some oldAbsPath)
    if first.1 0 = 0 then some [slash]
    else washLoop (oldAbsPath.length + 2) first.1 first.2 [slash]

end WashPath

section Canonical

variable {α β : Type*} {name : α → List UInt8}

/-- One component on the stack of those that remain. -/
def push (name : α → List UInt8) (st : List α) (x : α) : List α :=
  if name x = dotDotName then st.dropLast
  else if name x = dotName then st
  else st ++ [x]

/-- The path with the names of a stack. -/
def render (st : List (List UInt8)) : List UInt8 :=
  if st = [] then [slash] else st.flatMap (slash :: ·)

def canonical (p : List UInt8) : List UInt8 := render ((components p).foldl (push id) [])

/-- Each name beside the length of the longest name before it. -/
def marked : (longest : ℕ) → List (List UInt8) → List (List UInt8 × ℕ)
  | _, [] => []
  | longest, c :: cs => (c, longest) :: marked (max longest c.length) cs

/-- The characters that come out for a name: the buffer behind 16 characters still ends
where the longest name ended. -/
def width (x : List UInt8 × ℕ) : ℕ := if x.1.length < 16 then x.1.length else max x.1.length x.2

def room (st : List (List UInt8 × ℕ)) : ℕ := (st.map fun x => width x + 1).sum

/-- The path stays inside `MAX_PATH_LEN` characters after every name. -/
def Fits : (st rest : List (List UInt8 × ℕ)) → Prop
  | _, [] => True
  | st, x :: rest => room (push Prod.fst st x) < 512 ∧ Fits (push Prod.fst st x) rest

instance decidableFits : (st rest : List (List UInt8 × ℕ)) → Decidable (Fits st rest)
  | _, [] => instDecidableTrue
  | st, x :: rest =>
    have := decidableFits (push Prod.fst st x) rest
    inferInstanceAs (Decidable (_ ∧ _))

/-- The components that remain of a path, each beside the longest name before it. -/
def survivors (p : List UInt8) : List (List UInt8 × ℕ) :=
  (marked 0 (components p)).foldl (push Prod.fst) []

/-- No name that remains in the end comes out with more than its own characters, and the
path never outgrows the array on the way. -/
def Readable (p : List UInt8) : Prop :=
  (∀ x ∈ survivors p, width x = x.1.length) ∧ Fits [] (marked 0 (components p))

instance (p : List UInt8) : Decidable (Readable p) := inferInstanceAs (Decidable (_ ∧ _))

end Canonical

section Names

theorem mem_push {α : Type*} {name : α → List UInt8} {st : List α} {x y : α}
    (h : y ∈ push name st x) : y ∈ st ∨ y = x := by
  unfold push at h
  split_ifs at h
  · exact Or.inl (List.mem_of_mem_dropLast h)
  · exact Or.inl h
  · simpa using h

variable {x : List UInt8 × ℕ} {a d : List UInt8} {as : List (List UInt8)}
  {st rest : List (List UInt8 × ℕ)}

theorem render_append (hne : as ≠ []) : render (as ++ [a]) = render as ++ slash :: a := by
  simp [render, hne]

theorem render_singleton : render [a] = slash :: a := by simp [render]

theorem length_render (hne : as ≠ []) : (render as).length = pathLength as := by
  rw [render, if_neg hne]
  exact length_joined

theorem pathLength_single : pathLength [a] = a.length + 1 := by simp [pathLength]

theorem upDir_render (hslash : ∀ a ∈ as, slash ∉ a) : upDir (render as) = render as.dropLast := by
  rcases List.eq_nil_or_concat as with rfl | ⟨init, a, rfl⟩
  · rfl
  · have ha : ∀ x ∈ a.reverse, decide (x ≠ slash) = true := by
      intro x hx
      have hmem : x ∈ a := List.mem_reverse.mp hx
      have hneq : x ≠ slash := by
        intro hc
        subst hc
        exact hslash a (by simp) hmem
      simpa using hneq
    have hcut : ∀ l : List UInt8,
        (((l ++ slash :: a).reverse.dropWhile (· ≠ slash)).drop 1).reverse = l := by
      intro l
      rw [List.reverse_append, List.reverse_cons, List.append_assoc, List.dropWhile_append_of_pos ha,
        List.singleton_append, List.dropWhile_cons_of_neg (by simp)]
      simp
    rw [List.concat_eq_append] at *
    rw [List.dropLast_concat]
    unfold upDir
    by_cases hinit : init = []
    · subst hinit
      have hnil := hcut []
      rw [List.nil_append] at hnil
      rw [List.nil_append, render_singleton, hnil]
      rfl
    · rw [render_append hinit, hcut]
      have hne : render init ≠ [] := by
        intro hc
        have hlen := length_render hinit
        obtain ⟨b, bs, rfl⟩ := List.exists_cons_of_ne_nil hinit
        rw [hc] at hlen
        simp only [pathLength, List.map_cons, List.sum_cons, List.length_nil] at hlen
        omega
      simp only [hne, if_false]

theorem washName_render (hslash : ∀ a ∈ as, slash ∉ a) (hne : ∀ a ∈ as, a ≠ []) :
    washName (render as) a =
      if a = dotDotName ∨ a = dotName ∨ pathLength as + (a.length + 1) < 512 then
        some (render (push id as a)) else none := by
  unfold washName push
  by_cases hdd : a = dotDotName
  · simp only [hdd, if_true, true_or, id_eq]
    rw [upDir_render hslash]
  by_cases hd : a = dotName
  · simp [hd, dotName, dotDotName]
  simp only [hdd, hd, if_false, ne_eq, not_false_eq_true, if_true, false_or, id_eq]
  rcases List.eq_nil_or_concat as with rfl | ⟨init, b, rfl⟩
  · have hroot : render [] = [slash] := rfl
    have hsum : pathLength [] = 0 := rfl
    have hone : render [a] = slash :: a := render_singleton
    simp only [hroot, not_true_eq_false, if_false, hsum, List.nil_append, hone,
      List.singleton_append, List.length_cons]
    split_ifs with h1 h2 h2 <;> first | rfl | omega
  · rw [List.concat_eq_append] at *
    have hfull : init ++ [b] ≠ [] := by simp
    have hlen := length_render hfull
    have hb := hne b (by simp)
    have hb' : b.length ≠ 0 := by simpa using hb
    have hroot : render (init ++ [b]) ≠ [slash] := by
      intro hc
      rw [hc, pathLength_append, pathLength_single] at hlen
      simp only [List.length_cons, List.length_nil] at hlen
      omega
    have happ : render (init ++ [b]) ++ [slash] ++ a = render (init ++ [b] ++ [a]) := by
      rw [render_append hfull]
      simp
    simp only [hroot, not_false_eq_true, if_true, happ]
    have happend : pathLength (init ++ [b] ++ [a]) = pathLength (init ++ [b]) + pathLength [a] :=
      pathLength_append
    rw [length_render (by simp), happend, pathLength_single]

/-- A name `a` that was read for the component `x`: the component, then the end of a longer
name before it. -/
structure Shown (x : List UInt8 × ℕ) (a : List UInt8) : Prop where
  isPrefix : x.1 <+: a
  length : a.length = width x
  noSlash : slash ∉ a

theorem Shown.eq_iff (h : Shown x a) : a = x.1 ↔ width x = x.1.length := by
  constructor
  · intro ha
    rw [← h.length, ha]
  · intro hw
    exact (h.isPrefix.eq_of_length (by rw [h.length, hw])).symm

theorem Shown.short (h : Shown x a) (hd : d.length < 16) : a = d ↔ x.1 = d := by
  have hlen := h.length
  unfold width at hlen
  constructor
  · rintro rfl
    have hle := h.isPrefix.length_le
    rw [if_pos (by omega)] at hlen
    exact h.isPrefix.eq_of_length hlen.symm
  · rintro rfl
    rw [if_pos hd] at hlen
    exact (h.isPrefix.eq_of_length hlen.symm).symm

theorem Shown.push (hst : List.Forall₂ Shown st as) (h : Shown x a) :
    List.Forall₂ Shown (push Prod.fst st x) (push id as a) := by
  have hdd := h.short (d := dotDotName) (by decide)
  have hd := h.short (d := dotName) (by decide)
  unfold Gogoos.push
  simp only [id_eq, hdd, hd]
  split_ifs
  · rw [List.dropLast_eq_take, List.dropLast_eq_take, hst.length_eq]
    exact List.forall₂_take _ hst
  · exact hst
  · exact List.rel_append hst (List.Forall₂.cons h .nil)

theorem noSlash_of_shown (hst : List.Forall₂ Shown st as) : ∀ a ∈ as, slash ∉ a := by
  induction hst with
  | nil => simp
  | cons h hst ih =>
    intro a ha
    rcases List.mem_cons.mp ha with rfl | ha
    · exact h.noSlash
    · exact ih a ha

theorem room_eq (hst : List.Forall₂ Shown st as) : room st = pathLength as := by
  induction hst with
  | nil => rfl
  | cons h hst ih =>
    unfold room pathLength at ih ⊢
    simp only [List.map_cons, List.sum_cons, ih, h.length]

theorem room_push_le (hx : x.1 = dotDotName ∨ x.1 = dotName) :
    room (push Prod.fst st x) ≤ room st := by
  unfold push room
  split_ifs with hdd hd
  · exact ((List.dropLast_sublist st).map _).sum_le_sum fun _ _ => Nat.zero_le _
  · exact le_rfl
  · exact absurd hx (by simp [hdd, hd])

theorem room_push (hx : ¬(x.1 = dotDotName ∨ x.1 = dotName)) :
    room (push Prod.fst st x) = room st + (width x + 1) := by
  rw [not_or] at hx
  unfold push room
  rw [if_neg hx.1, if_neg hx.2]
  simp

end Names

section Buffer

variable {b : ℕ → UInt8} {c : List UInt8} {m : ℕ}

/-- The name buffer between two names, the longest of which had `m` characters. -/
structure Cleared (b : ℕ → UInt8) (m : ℕ) : Prop where
  low : ∀ k < 16, b k = 0
  high : ∀ k, 16 ≤ k → (b k ≠ 0 ↔ k < m)
  noSlash : ∀ k, b k ≠ slash

/-- A component that fits the buffer. -/
structure Fitting (c : List UInt8) : Prop where
  nonempty : c ≠ []
  nonzero : (0 : UInt8) ∉ c
  noSlash : slash ∉ c
  length_lt : c.length < 512

theorem cleared_zero : Cleared (fun _ => 0) 0 := by
  constructor
  · simp
  · simp
  · simp [slash]

theorem storeName_of_lt (k : ℕ) (hk : k < c.length) : storeName b c k = c.get ⟨k, hk⟩ := by
  simp [storeName, memcpy, hk]

theorem storeName_of_le (k : ℕ) (hk : c.length ≤ k) : storeName b c k = b k := by
  simp [storeName, memcpy, Nat.not_lt.mpr hk]

theorem Cleared.storeName_ne_zero (hb : Cleared b m) (hc : Fitting c) (k : ℕ) :
    storeName b c k ≠ 0 ↔ k < c.length ∨ (16 ≤ k ∧ k < m) := by
  by_cases hk : k < c.length
  · rw [storeName_of_lt k hk]
    have hne : c.get ⟨k, hk⟩ ≠ 0 := fun h0 => hc.nonzero (h0 ▸ List.get_mem c ⟨k, hk⟩)
    simp only [hne, ne_eq, not_false_eq_true, hk, true_or]
  · rw [storeName_of_le k (Nat.le_of_not_lt hk)]
    by_cases h16 : k < 16
    · simp [hb.low k h16, hk, Nat.not_le.mpr h16]
    · simp [hb.high k (Nat.le_of_not_lt h16), hk, Nat.le_of_not_lt h16]

theorem Cleared.storeName_ne_slash (hb : Cleared b m) (hc : Fitting c) (k : ℕ) :
    storeName b c k ≠ slash := by
  by_cases hk : k < c.length
  · rw [storeName_of_lt k hk]
    exact fun hs => hc.noSlash (hs ▸ List.get_mem c ⟨k, hk⟩)
  · rw [storeName_of_le k (Nat.le_of_not_lt hk)]
    exact hb.noSlash k

theorem Cleared.memset (hb : Cleared b m) (hc : Fitting c) :
    Cleared (memset (storeName b c) 0 0 16) (max m c.length) := by
  constructor
  · intro k hk
    simp [Gogoos.memset, hk]
  · intro k hk
    have hout : ¬k < 16 := by omega
    have hval : Gogoos.memset (storeName b c) 0 0 16 k = storeName b c k := by
      simp [Gogoos.memset, hout]
    rw [hval, hb.storeName_ne_zero hc]
    omega
  · intro k
    unfold Gogoos.memset
    split_ifs
    · decide
    · exact hb.storeName_ne_slash hc k

/-- The name that is read after a component was stored. -/
theorem Cleared.shown (hb : Cleared b m) (hm : m < 512) (hc : Fitting c) :
    Shown (c, m) (nameOf (storeName b c)) := by
  obtain ⟨w, hw⟩ : ∃ w, w = width (c, m) := ⟨_, rfl⟩
  have hval : w = if c.length < 16 then c.length else max c.length m := hw
  have hlen := hc.length_lt
  have hle : c.length ≤ w := by split_ifs at hval <;> omega
  have hlt : w < 512 := by split_ifs at hval <;> omega
  have hwidth : ∀ k ≤ w, storeName b c k ≠ 0 ↔ k < w := by
    intro k hk
    rw [hb.storeName_ne_zero hc]
    split_ifs at hval <;> omega
  have hname : nameOf (storeName b c) = (List.range w).map (storeName b c) := by
    unfold nameOf
    rw [takeWhile_range_eq _ _ (by simpa using hlt)]
    · constructor
      · simp
      · have hend := hwidth w le_rfl
        simpa using hend
    · intro hmem
      obtain ⟨k, hk, hzero⟩ := List.mem_map.mp hmem
      have hkw := List.mem_range.mp hk
      exact (hwidth k hkw.le).mpr hkw hzero
  rw [hname]
  constructor
  · rw [List.prefix_iff_eq_take]
    apply List.ext_getElem
    · simpa using hle
    · intro k hk hk'
      simp [storeName_of_lt k hk]
  · simpa using hw
  · intro hmem
    obtain ⟨k, hk, hs⟩ := List.mem_map.mp hmem
    exact hb.storeName_ne_slash hc k hs

end Buffer

section Runs

variable {b : ℕ → UInt8} {sub : Option (List UInt8)} {m : ℕ} {as : List (List UInt8)}
  {st : List (List UInt8 × ℕ)}

theorem nextName_of_nil (hb : Cleared b m) (h : restOf sub = []) : (nextName b sub).1 0 = 0 := by
  cases sub with
  | none => exact hb.low 0 (by norm_num)
  | some p =>
    have hnone : components p = [] := h
    unfold nextName
    simp only [pathParse_of_nil hnone]
    rw [storeName_of_le 0 (by simp)]
    exact hb.low 0 (by norm_num)

theorem nextName_of_cons {c : List UInt8} {cs : List (List UInt8)} (h : restOf sub = c :: cs) :
    ∃ r, nextName b sub = (storeName b c, r) ∧ restOf r = cs := by
  cases sub with
  | none => simp [restOf] at h
  | some p =>
    obtain ⟨r, hr, hrest⟩ := pathParse_of_cons (p := p) h
    refine ⟨r, ?_, hrest⟩
    unfold nextName
    simp only [hr]

theorem washLoop_succ {fuel : ℕ} {name : ℕ → UInt8} {new : List UInt8} (h : name 0 ≠ 0) :
    washLoop (fuel + 1) name sub new = (washName new (nameOf name)).bind fun new =>
      washLoop fuel (nextName (memset name 0 0 16) sub).1 (nextName (memset name 0 0 16) sub).2
        new := by
  refine (if_neg h).trans ?_
  cases washName new (nameOf name) <;> rfl

/-- The loop from a cleared buffer on: it fails when the path outgrows its array, and ends
with names read for the components that remain. -/
theorem washLoop_run {cs : List (List UInt8)} (hcs : ∀ c ∈ cs, Fitting c) {fuel : ℕ}
    (hfuel : cs.length < fuel) (hb : Cleared b m) (hm : m < 512) (hsub : restOf sub = cs)
    (hst : List.Forall₂ Shown st as) (hne : ∀ a ∈ as, a ≠ []) (hroom : room st < 512) :
    (¬Fits st (marked m cs) ∧
      washLoop fuel (nextName b sub).1 (nextName b sub).2 (render as) = none) ∨
    (Fits st (marked m cs) ∧ ∃ as',
      washLoop fuel (nextName b sub).1 (nextName b sub).2 (render as) = some (render as') ∧
      List.Forall₂ Shown ((marked m cs).foldl (push Prod.fst) st) as' ∧ ∀ a ∈ as', a ≠ []) := by
  induction cs generalizing fuel b m sub st as with
  | nil =>
    right
    refine ⟨trivial, as, ?_, hst, hne⟩
    have hfuel0 : fuel ≠ 0 := Nat.ne_of_gt (Nat.zero_lt_of_lt hfuel)
    obtain ⟨fuel, rfl⟩ := Nat.exists_eq_succ_of_ne_zero hfuel0
    exact if_pos (nextName_of_nil hb hsub)
  | cons c cs ih =>
    have hfuel0 : fuel ≠ 0 := Nat.ne_of_gt (Nat.zero_lt_of_lt hfuel)
    obtain ⟨fuel, rfl⟩ := Nat.exists_eq_succ_of_ne_zero hfuel0
    obtain ⟨r, hnext, hrest⟩ := nextName_of_cons (b := b) hsub
    have hc := hcs c (by simp)
    have hcs' : ∀ d ∈ cs, Fitting d := fun d hd => hcs d (List.mem_cons_of_mem _ hd)
    have hpos : 0 < c.length := List.length_pos_iff.mpr hc.nonempty
    have hshown := hb.shown hm hc
    have hfirst : storeName b c 0 ≠ 0 := (hb.storeName_ne_zero hc 0).mpr (Or.inl hpos)
    obtain ⟨a, ha⟩ : ∃ a, a = nameOf (storeName b c) := ⟨_, rfl⟩
    rw [← ha] at hshown
    have hstep := washName_render (a := a) (noSlash_of_shown hst) hne
    have hdots : (a = dotDotName ∨ a = dotName) ↔ ((c, m).1 = dotDotName ∨ (c, m).1 = dotName) :=
      or_congr (hshown.short (by decide)) (hshown.short (by decide))
    have hpush := Shown.push hst hshown
    have hanon : a ≠ [] := by
      intro hnil
      have hle := hshown.isPrefix.length_le
      rw [hnil] at hle
      exact hc.nonempty (List.length_eq_zero_iff.mp (Nat.le_zero.mp hle))
    have hne' : ∀ d ∈ push id as a, d ≠ [] := by
      intro d hd
      rcases mem_push hd with hd | rfl
      · exact hne d hd
      · exact hanon
    have hiff : (a = dotDotName ∨ a = dotName ∨ pathLength as + (a.length + 1) < 512) ↔
        room (push Prod.fst st (c, m)) < 512 := by
      rw [← or_assoc, hdots, ← room_eq hst, hshown.length]
      by_cases hd : (c, m).1 = dotDotName ∨ (c, m).1 = dotName
      · have hle : room (push Prod.fst st (c, m)) ≤ room st := room_push_le hd
        simp only [hd, true_or, true_iff]
        omega
      · rw [room_push hd]
        simp only [hd, false_or]
    rw [hnext]
    rw [washLoop_succ hfirst, ← ha, hstep]
    by_cases hfits : room (push Prod.fst st (c, m)) < 512
    · rw [if_pos (hiff.mpr hfits)]
      have hfuel' : cs.length < fuel := by
        simp only [List.length_cons] at hfuel
        omega
      have hm' : max m c.length < 512 := max_lt hm hc.length_lt
      rcases ih hcs' hfuel' (hb.memset hc) hm' hrest hpush hne' hfits with ⟨hnot, hrun⟩ | ⟨hall, hrun⟩
      · left
        exact ⟨fun h => hnot h.2, hrun⟩
      · right
        exact ⟨⟨hfits, hall⟩, hrun⟩
    · rw [if_neg (fun h => hfits (hiff.mp h))]
      left
      exact ⟨fun h => hfits h.1, rfl⟩

end Runs

end Gogoos
