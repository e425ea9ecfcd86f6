import Gogoos.Fs.Components

/-!
# Paths in memory

`pathParse` and the loops over it on the characters of a path and on the name array, with
pointers into both. The text is what lies before the terminating zero, and the characters behind
it are never looked at. The pointer version does what the list version says.
-/

namespace Gogoos.PathText

variable {text rest c : List UInt8} {cs : List (List UInt8)} {name : ℕ → UInt8} {p fuel : ℕ}

section Programs

/-- `pathName[i]`, the terminating zero behind the last character. -/
def charAt (text : List UInt8) (i : ℕ) : UInt8 := text.getD i 0

/-- `while (*(++pathName) == '/')`. -/
def skipSlashes (text : List UInt8) : (fuel pathName : ℕ) → ℕ
  | 0, pathName => pathName
  | fuel + 1, pathName =>
    if charAt text (pathName + 1) = slash then skipSlashes text fuel (pathName + 1)
    else pathName + 1

/-- The loop that stores a name from `nameStore` on. -/
def copyName (text : List UInt8) : (fuel pathName nameStore : ℕ) → (name : ℕ → UInt8) →
    (ℕ → UInt8) × ℕ
  | 0, pathName, _, name => (name, pathName)
  | fuel + 1, pathName, nameStore, name =>
    if charAt text pathName ≠ slash ∧ charAt text pathName ≠ 0 then
      copyName text fuel (pathName + 1) (nameStore + 1)
        fun k => if k = nameStore then charAt text pathName else name k
    else (name, pathName)

/-- No loop passes the end of the text, so its length bounds the rounds. -/
def pathParse (text : List UInt8) (pathName : ℕ) (name : ℕ → UInt8) : (ℕ → UInt8) × Option ℕ :=
  let pathName :=
    if charAt text pathName = slash then skipSlashes text text.length pathName else pathName
  let (name, pathName) := copyName text (text.length + 1) pathName 0 name
  (name, if charAt text pathName = 0 then none else some pathName)

/-- `memset(name, 0, MAX_FILE_NAME_LEN)`. -/
def clearName (name : ℕ → UInt8) : ℕ → UInt8 := fun k => if k < 16 then 0 else name k

/-- The string in the array. -/
def nameStr (name : ℕ → UInt8) : List UInt8 := ((List.range 16).map name).takeWhile (· ≠ 0)

/-- `if (subPath) subPath = pathParse(subPath, name)`. -/
def parseNext (text : List UInt8) (name : ℕ → UInt8) : Option ℕ → (ℕ → UInt8) × Option ℕ
  | none => (name, none)
  | some pathName => pathParse text pathName name

/-- The loop of `searchFile` and `washPath`: the names that its body sees, `none` when the rounds
do not suffice. -/
def namesLoop (text : List UInt8) : (fuel : ℕ) → (name : ℕ → UInt8) → (subPath : Option ℕ) →
    Option (List (List UInt8))
  | 0, _, _ => none
  | fuel + 1, name, subPath =>
    if name 0 = 0 then some []
    else
      let next := parseNext text (clearName name) subPath
      (namesLoop text fuel next.1 next.2).map (nameStr name :: ·)

/-- The name array is all zero before the first call. -/
def names (text : List UInt8) (fuel : ℕ) : Option (List (List UInt8)) :=
  let first := pathParse text 0 fun _ => 0
  namesLoop text fuel first.1 first.2

/-- The loop of `pathDepthCnt`. -/
def depthLoop (text : List UInt8) : (fuel : ℕ) → (name : ℕ → UInt8) → (p : Option ℕ) →
    (depth : ℕ) → Option ℕ
  | 0, _, _, _ => none
  | fuel + 1, name, p, depth =>
    if name 0 = 0 then some depth
    else
      let next := parseNext text (clearName name) p
      depthLoop text fuel next.1 next.2 ((depth + 1) % 2 ^ 32)

/-- `junk` is what the stack holds where the name array lies. -/
def pathDepthCnt (text : List UInt8) (junk : ℕ → UInt8) (fuel : ℕ) : Option ℕ :=
  let first := pathParse text 0 junk
  depthLoop text fuel first.1 first.2 0

end Programs

section Parse

theorem charAt_drop {a : UInt8} (h : text.drop p = a :: rest) : charAt text p = a := by
  unfold charAt
  rw [List.getD_eq_getElem?_getD, ← Nat.add_zero p, ← List.getElem?_drop, h]
  rfl

theorem charAt_end (h : text.drop p = []) : charAt text p = 0 := by
  unfold charAt
  rw [List.getD_eq_getElem?_getD, ← Nat.add_zero p, ← List.getElem?_drop, h]
  rfl

theorem drop_succ {a : UInt8} (h : text.drop p = a :: rest) : text.drop (p + 1) = rest := by
  rw [← List.drop_drop, h]
  rfl

/-- A slash at `p` is skipped with those that follow it. -/
theorem skip_drop {fuel : ℕ} (hrest : text.drop p = rest)
    (hloop : ∀ l, text.drop (p + 1) = l → l.length < rest.length →
      text.drop (skipSlashes text fuel p) = l.dropWhile (· = slash)) :
    text.drop (if charAt text p = slash then skipSlashes text fuel p else p) =
      rest.dropWhile (· = slash) := by
  cases rest with
  | nil =>
    rw [charAt_end hrest, if_neg (by decide), hrest]
    rfl
  | cons a rest =>
    rw [charAt_drop hrest]
    by_cases ha : a = slash
    · rw [if_pos ha, List.dropWhile_cons_of_pos (by simpa using ha)]
      exact hloop rest (drop_succ hrest) (by simp)
    · rw [if_neg ha, List.dropWhile_cons_of_neg (by simpa using ha), hrest]

theorem skipSlashes_drop : ∀ fuel p rest, text.drop (p + 1) = rest → rest.length < fuel →
    text.drop (skipSlashes text fuel p) = rest.dropWhile (· = slash) := by
  intro fuel
  induction fuel with
  | zero => exact fun _ _ _ hlen => absurd hlen (Nat.not_lt_zero _)
  | succ fuel ih =>
    intro p rest hrest hlen
    exact skip_drop hrest fun l hl hshort => ih (p + 1) l hl (by omega)

/-- The array with the characters of a name, no zero behind them. -/
def stored (name : ℕ → UInt8) (j : ℕ) (c : List UInt8) : ℕ → UInt8 :=
  fun k => if j ≤ k ∧ k < j + c.length then c.getD (k - j) 0 else name k

theorem stored_nil {j : ℕ} : stored name j [] = name := by
  funext k
  exact if_neg fun h => absurd h.2 (not_lt.mpr h.1)

theorem stored_cons {a : UInt8} {j : ℕ} :
    stored (fun k => if k = j then a else name k) (j + 1) c = stored name j (a :: c) := by
  funext k
  have hlen : (a :: c).length = c.length + 1 := rfl
  unfold stored
  dsimp only
  rw [hlen]
  rcases lt_trichotomy k j with hk | rfl | hk
  · rw [if_neg (by omega), if_neg (by omega), if_neg (by omega)]
  · rw [if_neg (by omega), if_pos rfl, if_pos (by omega), Nat.sub_self]
    rfl
  · obtain ⟨d, rfl⟩ : ∃ d, k = j + 1 + d := ⟨k - (j + 1), by omega⟩
    have hd : j + 1 + d - j = d + 1 := by omega
    rw [Nat.add_sub_cancel_left, hd, List.getD_cons_succ]
    by_cases hlt : d < c.length
    · rw [if_pos (by omega), if_pos (by omega)]
    · rw [if_neg (by omega), if_neg (by omega), if_neg (by omega)]

/-- The characters up to the next slash are stored. -/
theorem copyName_stored : ∀ fuel p j name rest, text.drop p = rest → rest.length < fuel →
    (0 : UInt8) ∉ rest →
    (copyName text fuel p j name).1 = stored name j (rest.takeWhile (· ≠ slash)) ∧
      text.drop (copyName text fuel p j name).2 = rest.dropWhile (· ≠ slash) := by
  intro fuel
  induction fuel with
  | zero => exact fun _ _ _ _ _ hlen => absurd hlen (Nat.not_lt_zero _)
  | succ fuel ih =>
    intro p j name rest hrest hlen hzero
    unfold copyName
    cases rest with
    | nil =>
      rw [charAt_end hrest, if_neg (by simp)]
      exact ⟨stored_nil.symm, hrest⟩
    | cons a rest =>
      rw [charAt_drop hrest]
      have ha0 : a ≠ 0 := fun h0 => hzero (by simp [h0])
      by_cases ha : a = slash
      · rw [if_neg (fun h => h.1 ha), List.takeWhile_cons_of_neg (by simpa using ha),
          List.dropWhile_cons_of_neg (by simpa using ha)]
        exact ⟨stored_nil.symm, hrest⟩
      · rw [if_pos ⟨ha, ha0⟩, List.takeWhile_cons_of_pos (by simpa using ha),
          List.dropWhile_cons_of_pos (by simpa using ha), ← stored_cons]
        apply ih _ _ _ _ (drop_succ hrest)
        · simpa using hlen
        · exact fun h0 => hzero (List.mem_cons_of_mem _ h0)

/-- The pointer version of `pathParse` refines the one on lists. -/
theorem pathParse_refines (name : ℕ → UInt8) (hzero : (0 : UInt8) ∉ text)
    (hrest : text.drop p = rest) :
    (pathParse text p name).1 = stored name 0 (Gogoos.pathParse rest).1 ∧
      (pathParse text p name).2.map (text.drop ·) = (Gogoos.pathParse rest).2 := by
  have hsub : ∀ q l, text.drop q = l → (0 : UInt8) ∉ l ∧ l.length < text.length + 1 := by
    rintro q l rfl
    refine ⟨fun h0 => hzero (List.mem_of_mem_drop h0), ?_⟩
    rw [List.length_drop]
    omega
  have hskip : text.drop (if charAt text p = slash then skipSlashes text text.length p else p) =
      rest.dropWhile (· = slash) := by
    have hlen := (hsub p _ hrest).2
    exact skip_drop hrest fun l hl hshort => skipSlashes_drop _ _ _ hl (by omega)
  rw [pathParse_eq]
  unfold pathParse
  dsimp only
  generalize (if charAt text p = slash then skipSlashes text text.length p else p) = q at hskip ⊢
  obtain ⟨hname, hend⟩ := copyName_stored (text.length + 1) q 0 name _ hskip
    (hsub _ _ hskip).2 (hsub _ _ hskip).1
  refine ⟨hname, ?_⟩
  cases hr : (rest.dropWhile (· = slash)).dropWhile (· ≠ slash) with
  | nil =>
    rw [hr] at hend
    rw [charAt_end hend, if_pos rfl, if_pos rfl]
    rfl
  | cons a r =>
    rw [hr] at hend
    have ha : a ≠ 0 := fun h0 => (hsub _ _ hend).1 (by simp [h0])
    rw [charAt_drop hend, if_neg ha, if_neg (by simp), Option.map_some, hend]

end Parse

section Loops

/-- The names that a pointer into the text still leads to. -/
def namesFrom (text : List UInt8) (sub : Option ℕ) : List (List UInt8) :=
  restOf (sub.map (text.drop ·))

theorem clearName_zero {k : ℕ} (hk : k < 16) : clearName name k = 0 := if_pos hk

/-- A name of at most 15 characters is followed by a zero of the array. -/
theorem nameStr_stored (hclear : ∀ k < 16, name k = 0) (hlen : c.length ≤ 15)
    (hzero : (0 : UInt8) ∉ c) : nameStr (stored name 0 c) = c := by
  have hsplit : (List.range 16).map (stored name 0 c) = c ++ List.replicate (16 - c.length) 0 := by
    apply List.ext_getElem
    · simp
      omega
    · intro k hk _
      rw [List.length_map, List.length_range] at hk
      rw [List.getElem_map, List.getElem_range]
      unfold stored
      by_cases hc : k < c.length
      · rw [if_pos (by omega), List.getElem_append_left hc, Nat.sub_zero,
          List.getD_eq_getElem?_getD, List.getElem?_eq_getElem hc]
        rfl
      · rw [if_neg (by omega), List.getElem_append_right (not_lt.mp hc), List.getElem_replicate]
        exact hclear k hk
  have hpos : ∃ n, 16 - c.length = n + 1 := ⟨15 - c.length, by omega⟩
  obtain ⟨n, hn⟩ := hpos
  unfold nameStr
  rw [hsplit, hn, List.replicate_succ, List.takeWhile_append_of_pos]
  · rw [List.takeWhile_cons_of_neg (by simp), List.append_nil]
  · intro a ha
    have hne : a ≠ 0 := fun h0 => hzero (h0 ▸ ha)
    simpa using hne

theorem stored_zero (hne : c ≠ []) (hzero : (0 : UInt8) ∉ c) : stored name 0 c 0 ≠ 0 := by
  cases c with
  | nil => exact absurd rfl hne
  | cons a c =>
    unfold stored
    rw [if_pos (by simp)]
    change a ≠ 0
    exact fun h0 => hzero (by simp [h0])

/-- No name is left: the array stays as it is. -/
theorem parseNext_end (hzero : (0 : UInt8) ∉ text) {sub : Option ℕ}
    (h : namesFrom text sub = []) : (parseNext text name sub).1 = name := by
  cases sub with
  | none => rfl
  | some p =>
    have hnil : Gogoos.pathParse (text.drop p) = ([], none) := pathParse_of_nil h
    have hname := (pathParse_refines name hzero (rfl : text.drop p = _)).1
    rw [hnil, stored_nil] at hname
    exact hname

theorem parseNext_name (name : ℕ → UInt8) (hzero : (0 : UInt8) ∉ text) {sub : Option ℕ}
    (h : namesFrom text sub = c :: cs) : (parseNext text name sub).1 = stored name 0 c ∧
      namesFrom text (parseNext text name sub).2 = cs := by
  cases sub with
  | none => cases h
  | some p =>
    obtain ⟨r, hr, hrest⟩ := pathParse_of_cons (p := text.drop p) h
    obtain ⟨hname, hnext⟩ := pathParse_refines name hzero (rfl : text.drop p = _)
    rw [hr] at hname hnext
    refine ⟨hname, ?_⟩
    change restOf ((pathParse text p name).2.map _) = cs
    rw [hnext]
    exact hrest

/-- By induction on the names that are left: the array holds a name, and the pointer, which may
be `NULL`, leads to the others. -/
theorem namesLoop_names (hzero : (0 : UInt8) ∉ text) : ∀ cs c fuel name sub,
    (∀ d ∈ c :: cs, d ≠ [] ∧ (0 : UInt8) ∉ d ∧ d.length ≤ 15) → (∀ k < 16, name k = 0) →
    namesFrom text sub = cs → cs.length + 2 ≤ fuel →
    namesLoop text fuel (stored name 0 c) sub = some (c :: cs) := by
  intro cs
  induction cs with
  | nil =>
    intro c fuel name sub hall hclear hsub hfuel
    obtain ⟨hne, hc0, hlen⟩ := hall c (by simp)
    obtain ⟨fuel, rfl⟩ : ∃ n, fuel = n + 2 := ⟨fuel - 2, by simp at hfuel; omega⟩
    unfold namesLoop
    rw [if_neg (stored_zero hne hc0), nameStr_stored hclear hlen hc0]
    unfold namesLoop
    dsimp only
    rw [parseNext_end hzero hsub, if_pos (clearName_zero (by norm_num))]
    rfl
  | cons d cs ih =>
    intro c fuel name sub hall hclear hsub hfuel
    obtain ⟨hne, hc0, hlen⟩ := hall c (by simp)
    obtain ⟨fuel, rfl⟩ : ∃ n, fuel = n + 1 := ⟨fuel - 1, by simp at hfuel; omega⟩
    obtain ⟨hname, hrest⟩ := parseNext_name (clearName (stored name 0 c)) hzero hsub
    unfold namesLoop
    rw [if_neg (stored_zero hne hc0), nameStr_stored hclear hlen hc0]
    dsimp only
    rw [hname, ih d fuel _ _ (fun x hx => hall x (List.mem_cons_of_mem _ hx))
      (fun k hk => clearName_zero hk) hrest (by simp at hfuel; omega)]
    rfl

theorem depthLoop_names (hzero : (0 : UInt8) ∉ text) : ∀ cs c fuel name sub depth,
    (∀ d ∈ c :: cs, d ≠ [] ∧ (0 : UInt8) ∉ d) → namesFrom text sub = cs → cs.length + 2 ≤ fuel →
    depth + cs.length + 1 < 2 ^ 32 →
    depthLoop text fuel (stored name 0 c) sub depth = some (depth + cs.length + 1) := by
  intro cs
  induction cs with
  | nil =>
    intro c fuel name sub depth hall hsub hfuel hdepth
    obtain ⟨hne, hc0⟩ := hall c (by simp)
    obtain ⟨fuel, rfl⟩ : ∃ n, fuel = n + 2 := ⟨fuel - 2, by simp at hfuel; omega⟩
    unfold depthLoop
    rw [if_neg (stored_zero hne hc0)]
    unfold depthLoop
    dsimp only
    rw [parseNext_end hzero hsub, if_pos (clearName_zero (by norm_num)),
      Nat.mod_eq_of_lt (by simpa using hdepth)]
    rfl
  | cons d cs ih =>
    intro c fuel name sub depth hall hsub hfuel hdepth
    obtain ⟨hne, hc0⟩ := hall c (by simp)
    obtain ⟨fuel, rfl⟩ : ∃ n, fuel = n + 1 := ⟨fuel - 1, by simp at hfuel; omega⟩
    obtain ⟨hname, hrest⟩ := parseNext_name (clearName (stored name 0 c)) hzero hsub
    have hlen : (d :: cs).length = cs.length + 1 := rfl
    rw [hlen] at hdepth hfuel ⊢
    unfold depthLoop
    rw [if_neg (stored_zero hne hc0)]
    dsimp only
    rw [hname, Nat.mod_eq_of_lt (by omega),
      ih d fuel _ _ (depth + 1) (fun x hx => hall x (List.mem_cons_of_mem _ hx)) hrest
        (by omega) (by omega)]
    congr 1
    omega

end Loops

section Law

theorem length_components_lt (h : text.length + 1 < 2 ^ 32) :
    (components text).length < 2 ^ 31 := by
  have htwo : 2 * (components text).length ≤ pathLength (components text) := by
    unfold pathLength
    have hall : ∀ c ∈ components text, 1 ≤ c.length := fun c hc =>
      List.length_pos_iff.mpr (mem_components hc).1
    generalize components text = cs at hall
    induction cs with
    | nil => simp
    | cons c cs ih =>
      have hc := hall c (by simp)
      have hrest := ih fun d hd => hall d (List.mem_cons_of_mem _ hd)
      simp only [List.length_cons, List.map_cons, List.sum_cons]
      omega
  have hlen := pathLength_components (p := text)
  omega

/-- The loops over a path see its components and stop, and `pathDepthCnt` counts them, whatever
its array held before. -/
theorem component_parsing_law (hzero : (0 : UInt8) ∉ text) (hmem : text.length + 1 < 2 ^ 32)
    (hne : components text ≠ []) (hshort : ∀ c ∈ components text, c.length ≤ 15)
    (junk : ℕ → UInt8) (hfuel : (components text).length < fuel) :
    names text fuel = some (components text) ∧
      pathDepthCnt text junk fuel = some (components text).length ∧
      (components text).length < 2 ^ 31 := by
  obtain ⟨c, cs, hcs⟩ := List.exists_cons_of_ne_nil hne
  have hlt := length_components_lt hmem
  have hfrom : namesFrom text (some 0) = c :: cs := hcs
  have hall : ∀ d ∈ c :: cs, d ≠ [] ∧ (0 : UInt8) ∉ d ∧ d.length ≤ 15 := by
    rw [← hcs]
    intro d hd
    obtain ⟨hd1, -, hsub⟩ := mem_components hd
    exact ⟨hd1, fun h0 => hzero (hsub _ h0), hshort d hd⟩
  have hcount : (c :: cs).length = cs.length + 1 := rfl
  rw [hcs, hcount] at hfuel hlt ⊢
  refine ⟨?_, ?_, hlt⟩
  · obtain ⟨hname, hrest⟩ := parseNext_name (fun _ => 0) hzero hfrom
    change namesLoop text fuel (parseNext text (fun _ => 0) (some 0)).1
      (parseNext text (fun _ => 0) (some 0)).2 = _
    rw [hname]
    exact namesLoop_names hzero cs c fuel _ _ hall (fun _ _ => rfl) hrest hfuel
  · obtain ⟨hname, hrest⟩ := parseNext_name junk hzero hfrom
    change depthLoop text fuel (parseNext text junk (some 0)).1
      (parseNext text junk (some 0)).2 0 = _
    rw [hname, depthLoop_names hzero cs c fuel _ _ 0 (fun d hd => ⟨(hall d hd).1, (hall d hd).2.1⟩)
      hrest hfuel (by omega), Nat.zero_add]

/-- The path `//ab//c/`. -/
theorem component_parsing_law_sample :
    names [47, 47, 97, 98, 47, 47, 99, 47] 3 = some [[97, 98], [99]] ∧
      pathDepthCnt [47, 47, 97, 98, 47, 47, 99, 47] (fun _ => 7) 3 = some 2 := by
  have hc : components [47, 47, 97, 98, 47, 47, 99, 47] = [[97, 98], [99]] := by decide
  have h : names [47, 47, 97, 98, 47, 47, 99, 47] 3 =
        some (components [47, 47, 97, 98, 47, 47, 99, 47]) ∧
      pathDepthCnt [47, 47, 97, 98, 47, 47, 99, 47] (fun _ => 7) 3 =
        some (components [47, 47, 97, 98, 47, 47, 99, 47]).length ∧
      (components [47, 47, 97, 98, 47, 47, 99, 47]).length < 2 ^ 31 :=
    component_parsing_law (by decide) (by norm_num) (by rw [hc]; decide) (by rw [hc]; decide) _
      (by rw [hc]; decide)
  rw [hc] at h
  exact ⟨h.1, h.2.1⟩

end Law

end Gogoos.PathText
