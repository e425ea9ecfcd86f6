import Mathlib.Data.List.Basic
import Mathlib.Data.List.Range
import Mathlib.Tactic

/-!
# Splitting a command line

`cmdParse` of `shell/shell.c` on the characters of the line and on the array `argv`, whose
entries from `MAX_ARG_NUM` on are the memory behind it. Every store to the array is on record.
-/

namespace Gogoos.CmdParse

variable {token : UInt8} {text : List UInt8} {line junk : ℕ → UInt8} {P : UInt8 → Bool}
  {p q fuel : ℕ}

section Programs

/-- `CMD_LEN`. -/
def cmdLen : ℕ := 128

/-- `MAX_ARG_NUM`. -/
def maxArgNum : ℕ := 16

structure State where
  line : ℕ → UInt8
  /-- `none` is `NULL`. -/
  argv : ℕ → Option ℕ
  /-- The indices of `argv` that were stored to, the last one first. -/
  stores : List ℕ

def State.store (s : State) (i : ℕ) (ptr : Option ℕ) : State :=
  { s with argv := fun k => if k = i then ptr else s.argv k, stores := i :: s.stores }

/-- `*next = 0`. -/
def State.cut (s : State) (next : ℕ) : State :=
  { s with line := fun k => if k = next then 0 else s.line k }

/-- The loops that move a pointer over characters of one kind. -/
def skipWhile (P : UInt8 → Bool) (line : ℕ → UInt8) : (fuel next : ℕ) → ℕ
  | 0, next => next
  | fuel + 1, next => if P (line next) then skipWhile P line fuel (next + 1) else next

def isToken (token c : UInt8) : Bool := c = token

def inArg (token c : UInt8) : Bool := c ≠ 0 ∧ c ≠ token

/-- The loop that clears `argv`. -/
def clearArgs : (left argIdx : ℕ) → State → State
  | 0, _, s => s
  | left + 1, argIdx, s => clearArgs left (argIdx + 1) (s.store argIdx none)

/-- The main loop, `none` when the rounds do not suffice. -/
def parseLoop (token : UInt8) : (fuel : ℕ) → State → (next argc : ℕ) → Option (ℤ × State)
  | 0, _, _, _ => none
  | fuel + 1, s, next, argc =>
    if s.line next = 0 then some (argc, s)
    else
      let next := skipWhile (isToken token) s.line cmdLen next
      if s.line next = 0 then some (argc, s)
      else
        let s := s.store argc (some next)
        let next := skipWhile (inArg token) s.line cmdLen next
        let (s, next) := if s.line next ≠ 0 then (s.cut next, next + 1) else (s, next)
        if argc > maxArgNum then some (-1, s) else parseLoop token fuel s next (argc + 1)

def cmdParse (cmdStr : ℕ → UInt8) (argv : ℕ → Option ℕ) (token : UInt8) : Option (ℤ × State) :=
  parseLoop token cmdLen (clearArgs maxArgNum 0 ⟨cmdStr, argv, []⟩) 0 0

end Programs

section Specification

/-- The text with its terminating zero; `junk` is what lies behind it. -/
def lineOf (text : List UInt8) (junk : ℕ → UInt8) : ℕ → UInt8 :=
  fun i => if i ≤ text.length then text.getD i 0 else junk i

/-- A run of other characters than the token begins at `p`. -/
def isStart (token : UInt8) (text : List UInt8) (p : ℕ) : Bool :=
  text.getD p 0 ≠ token ∧ (p = 0 ∨ text.getD (p - 1) 0 = token)

def runAt (token : UInt8) (text : List UInt8) (p : ℕ) : List UInt8 :=
  (text.drop p).takeWhile (· ≠ token)

/-- The maximal runs that begin at `p` or behind, in order, each with its position. -/
def runsFrom (token : UInt8) (text : List UInt8) (p : ℕ) : List (ℕ × List UInt8) :=
  ((List.range' p (text.length - p)).filter (isStart token text)).map
    fun p => (p, runAt token text p)

def runs (token : UInt8) (text : List UInt8) : List (ℕ × List UInt8) := runsFrom token text 0

/-- The string `c` lies at `p`, with its terminating zero. -/
def StrAt (line : ℕ → UInt8) (p : ℕ) (c : List UInt8) : Prop :=
  ∀ k ≤ c.length, line (p + k) = c.getD k 0

/-- The line is split into its runs. -/
structure Split (token : UInt8) (text : List UInt8) (r : ℤ × State) : Prop where
  argc : (runs token text).length ≤ maxArgNum → r.1 = (runs token text).length
  args : (runs token text).length ≤ maxArgNum → ∀ i x, (runs token text)[i]? = some x →
    r.2.argv i = some x.1 ∧ StrAt r.2.line x.1 x.2
  rest : (runs token text).length ≤ maxArgNum → ∀ i < maxArgNum, (runs token text).length ≤ i →
    r.2.argv i = none
  many : maxArgNum < (runs token text).length → r.1 = -1
  inside : ∀ i ∈ r.2.stores, i < maxArgNum

end Specification

section Runs

theorem runsFrom_end (h : text.length ≤ p) : runsFrom token text p = [] := by
  unfold runsFrom
  rw [Nat.sub_eq_zero_of_le h]
  rfl

theorem runsFrom_skip (hpq : p ≤ q) (hq : q ≤ text.length)
    (hnone : ∀ i, p ≤ i → i < q → isStart token text i = false) :
    runsFrom token text p = runsFrom token text q := by
  have hlen : text.length - p = (q - p) + (text.length - q) := by omega
  have hend : p + (q - p) = q := by omega
  have hnil : (List.range' p (q - p)).filter (isStart token text) = [] := by
    rw [List.filter_eq_nil_iff]
    intro i hi
    obtain ⟨h1, h2⟩ := List.mem_range'_1.mp hi
    rw [hnone i h1 (by omega)]
    exact Bool.false_ne_true
  unfold runsFrom
  rw [hlen, ← List.range'_append_1, hend, List.filter_append, hnil, List.nil_append]

theorem runsFrom_start (hp : p < text.length) (hstart : isStart token text p = true) :
    runsFrom token text p = (p, runAt token text p) :: runsFrom token text (p + 1) := by
  have hlen : text.length - p = text.length - (p + 1) + 1 := by omega
  unfold runsFrom
  rw [hlen, List.range'_succ, List.filter_cons_of_pos hstart, List.map_cons]

/-- The characters between `p` and `q` are a run. -/
theorem runAt_eq (hpq : p ≤ q) (hq : q ≤ text.length)
    (hin : ∀ i, p ≤ i → i < q → text.getD i 0 ≠ token)
    (hend : q < text.length → text.getD q 0 = token) :
    (runAt token text p).length = q - p ∧
      ∀ k < q - p, (runAt token text p).getD k 0 = text.getD (p + k) 0 := by
  have hsplit : text.drop p = (text.drop p).take (q - p) ++ text.drop q := by
    have hd : text.drop q = (text.drop p).drop (q - p) := by
      rw [List.drop_drop]
      congr 1
      omega
    rw [hd, List.take_append_drop]
  have hall : ∀ a ∈ (text.drop p).take (q - p), a ≠ token := by
    intro a ha
    obtain ⟨k, hk, rfl⟩ := List.getElem_of_mem ha
    rw [List.length_take, List.length_drop] at hk
    have hne := hin (p + k) (by omega) (by omega)
    rw [List.getD_eq_getElem?_getD, List.getElem?_eq_getElem (by omega)] at hne
    rw [List.getElem_take, List.getElem_drop]
    exact hne
  have hrest : (text.drop q).takeWhile (· ≠ token) = [] := by
    cases hd : text.drop q with
    | nil => rfl
    | cons a l =>
      have hlt : q < text.length := by
        by_contra hge
        rw [List.drop_eq_nil_of_le (not_lt.mp hge)] at hd
        cases hd
      have ha := hend hlt
      rw [List.getD_eq_getElem?_getD, ← Nat.add_zero q, ← List.getElem?_drop, hd] at ha
      rw [List.takeWhile_cons_of_neg]
      simpa using ha
  have hrun : runAt token text p = (text.drop p).take (q - p) := by
    unfold runAt
    rw [hsplit, List.takeWhile_append_of_pos (by simpa using hall), hrest, List.append_nil]
    rw [← hsplit]
  rw [hrun]
  refine ⟨by rw [List.length_take, List.length_drop]; omega, fun k hk => ?_⟩
  rw [List.getD_eq_getElem?_getD, List.getD_eq_getElem?_getD, List.getElem?_take, if_pos hk,
    List.getElem?_drop]

end Runs

section Loops

/-- A loop stops at the terminating zero at the latest. -/
theorem skipWhile_spec (hP : P 0 = false) : ∀ fuel p, p ≤ text.length → text.length < p + fuel →
    (∀ i, p ≤ i → i ≤ text.length → line i = text.getD i 0) →
    p ≤ skipWhile P line fuel p ∧ skipWhile P line fuel p ≤ text.length ∧
      (∀ i, p ≤ i → i < skipWhile P line fuel p → P (text.getD i 0) = true) ∧
      P (text.getD (skipWhile P line fuel p) 0) = false := by
  intro fuel
  induction fuel with
  | zero =>
    intro p hp hlen
    omega
  | succ fuel ih =>
    intro p hp hlen hline
    unfold skipWhile
    rw [hline p le_rfl hp]
    cases hc : P (text.getD p 0) with
    | false =>
      rw [if_neg Bool.false_ne_true]
      exact ⟨le_rfl, hp, fun i h1 h2 => absurd h1 (not_le.mpr h2), hc⟩
    | true =>
      rw [if_pos rfl]
      have hlt : p < text.length := by
        by_contra hge
        have hend : text.getD p 0 = 0 := by
          rw [List.getD_eq_getElem?_getD, List.getElem?_eq_none (not_lt.mp hge)]
          rfl
        rw [hend, hP] at hc
        exact absurd hc (by decide)
      obtain ⟨h1, h2, h3, h4⟩ := ih (p + 1) hlt (by omega) fun i hi => hline i (by omega)
      refine ⟨by omega, h2, fun i hi hi' => ?_, h4⟩
      rcases Nat.eq_or_lt_of_le hi with rfl | hlt'
      · exact hc
      · exact h3 i hlt' hi'

theorem clearArgs_spec : ∀ left argIdx s, (clearArgs left argIdx s).line = s.line ∧
    (∀ i, (clearArgs left argIdx s).argv i =
      if argIdx ≤ i ∧ i < argIdx + left then none else s.argv i) ∧
    ∀ i ∈ (clearArgs left argIdx s).stores, i < argIdx + left ∨ i ∈ s.stores := by
  intro left
  induction left with
  | zero =>
    intro argIdx s
    refine ⟨rfl, fun i => ?_, fun i hi => .inr hi⟩
    rw [if_neg (by omega)]
    rfl
  | succ left ih =>
    intro argIdx s
    obtain ⟨h1, h2, h3⟩ := ih (argIdx + 1) (s.store argIdx none)
    unfold clearArgs
    refine ⟨h1, fun i => ?_, fun i hi => ?_⟩
    · rw [h2]
      by_cases hi : i = argIdx
      · rw [if_neg (by omega), if_pos (by omega)]
        exact if_pos hi
      · have hold : (s.store argIdx none).argv i = s.argv i := if_neg hi
        by_cases hr : argIdx + 1 ≤ i ∧ i < argIdx + 1 + left
        · rw [if_pos hr, if_pos (by omega)]
        · rw [if_neg hr, if_neg (by omega), hold]
    · rcases h3 i hi with hlt | hmem
      · exact .inl (by omega)
      · rcases List.mem_cons.mp hmem with rfl | hmem
        · exact .inl (by omega)
        · exact .inr hmem

end Loops

section Rounds

variable {s : State} {next argc : ℕ} {done : List (ℕ × List UInt8)}

theorem getD_end (h : text.length ≤ p) : text.getD p 0 = 0 := by
  rw [List.getD_eq_getElem?_getD, List.getElem?_eq_none h]
  rfl

theorem getD_ne_zero (hzero : (0 : UInt8) ∉ text) (h : p < text.length) : text.getD p 0 ≠ 0 := by
  rw [List.getD_eq_getElem?_getD, List.getElem?_eq_getElem h]
  exact fun h0 => hzero (h0 ▸ List.getElem_mem h)

/-- The runs in `done` were split off, and the others begin at `next` or behind. -/
structure Inv (token : UInt8) (text : List UInt8) (s : State) (next argc : ℕ)
    (done : List (ℕ × List UInt8)) : Prop where
  all : runs token text = done ++ runsFrom token text next
  count : argc = done.length
  le : next ≤ text.length
  boundary : next < text.length → next = 0 ∨ text.getD (next - 1) 0 = token
  line : ∀ i, next ≤ i → i ≤ text.length → s.line i = text.getD i 0
  args : ∀ i x, done[i]? = some x →
    s.argv i = some x.1 ∧ StrAt s.line x.1 x.2 ∧ x.1 + x.2.length ≤ next
  rest : ∀ i < maxArgNum, argc ≤ i → s.argv i = none
  inside : argc ≤ maxArgNum → ∀ i ∈ s.stores, i < maxArgNum
  beyond : maxArgNum < argc → maxArgNum ∈ s.stores

/-- The run from `q` to `q'` is split off; the line has a zero at `q'` now. -/
theorem Inv.advance {q' next' : ℕ} {line' : ℕ → UInt8} (h : Inv token text s next argc done)
    (hnq : next ≤ q)
    (hrun : runsFrom token text next = (q, runAt token text q) :: runsFrom token text next')
    (hlen : q + (runAt token text q).length = q')
    (hget : ∀ k < q' - q, (runAt token text q).getD k 0 = text.getD (q + k) 0)
    (hpos : q < q') (hline : ∀ i, line' i = if i = q' then 0 else s.line i) (hnext : q' ≤ next')
    (hle : next' ≤ text.length) (hsame : next' = q' → q' = text.length)
    (hb : next' < text.length → text.getD (next' - 1) 0 = token) :
    Inv token text { s.store argc (some q) with line := line' } next' (argc + 1)
      (done ++ [(q, runAt token text q)]) := by
  constructor
  · rw [h.all, hrun]
    simp
  · rw [h.count]
    simp
  · exact hle
  · exact fun hlt => .inr (hb hlt)
  · intro i hi hi'
    change line' i = _
    rw [hline]
    split_ifs with hiq
    · have hend := hsame (by omega)
      exact (getD_end (by omega)).symm
    · exact h.line i (by omega) hi'
  · intro i x hx
    rw [List.getElem?_append] at hx
    split_ifs at hx with hi
    · obtain ⟨h1, h2, h3⟩ := h.args i x hx
      refine ⟨?_, fun k hk => ?_, by omega⟩
      · exact (if_neg (by rw [h.count]; omega)).trans h1
      · change line' _ = _
        rw [hline, if_neg (by omega)]
        exact h2 k hk
    · obtain ⟨hi0, rfl⟩ : i - done.length = 0 ∧ x = (q, runAt token text q) := by
        cases hd : i - done.length with
        | zero =>
          rw [hd] at hx
          exact ⟨rfl, (Option.some.inj hx).symm⟩
        | succ n =>
          rw [hd] at hx
          cases hx
      have hc := h.count
      refine ⟨if_pos (by omega), fun k hk => ?_, by dsimp only; omega⟩
      dsimp only at hk ⊢
      rw [hline]
      split_ifs with hkq
      · exact (getD_end (by omega)).symm
      · rw [hget k (by omega), h.line _ (by omega) (by omega)]
  · intro i hi hi'
    change (if i = argc then some q else s.argv i) = none
    rw [if_neg (by omega)]
    exact h.rest i hi (by omega)
  · intro hle i hi
    rcases List.mem_cons.mp hi with rfl | hi
    · exact hle
    · exact h.inside (by omega) i hi
  · intro hlt
    by_cases hc : argc = maxArgNum
    · rw [← hc]
      exact List.mem_cons_self
    · exact List.mem_cons_of_mem _ (h.beyond (by omega))

/-- Either all runs are split off, or there are too many and one was stored behind the array. -/
def Outcome (token : UInt8) (text : List UInt8) (r : ℤ × State) : Prop :=
  (∃ next done, Inv token text r.2 next done.length done ∧ runs token text = done ∧
    r.1 = done.length) ∨ maxArgNum < (runs token text).length ∧ maxArgNum ∈ r.2.stores

theorem Inv.finish (h : Inv token text s next argc done) (hnone : runsFrom token text next = []) :
    Outcome token text (argc, s) := by
  have hall := h.all
  rw [hnone, List.append_nil] at hall
  have hc := h.count
  subst hc
  exact .inl ⟨next, done, h, hall, rfl⟩

/-- A run that was stored behind the array. -/
theorem Inv.overflow {l : List (ℕ × List UInt8)} {x : ℕ × List UInt8} {r : ℤ} {line' : ℕ → UInt8}
    {idx : ℕ} {v : Option ℕ} (h : Inv token text s next argc done)
    (hrun : runsFrom token text next = x :: l) (hlt : maxArgNum < argc) :
    Outcome token text (r, { s.store idx v with line := line' }) := by
  refine .inr ⟨?_, List.mem_cons_of_mem _ (h.beyond hlt)⟩
  have hc := h.count
  rw [h.all, hrun, List.length_append]
  omega

/-- No run starts among delimiters. -/
theorem runsFrom_tokens (hnq : next ≤ q) (hq : q ≤ text.length)
    (htok : ∀ i, next ≤ i → i < q → isToken token (text.getD i 0) = true) :
    runsFrom token text next = runsFrom token text q := by
  apply runsFrom_skip hnq hq
  intro i h1 h2
  have htoki : text.getD i 0 = token := by simpa [isToken] using htok i h1 h2
  simp only [isStart, decide_eq_false_iff_not]
  exact fun hs => hs.1 htoki

/-- The run at `q` ends at `q'`. -/
structure RunTo (token : UInt8) (text : List UInt8) (q q' : ℕ) : Prop where
  pos : q < q'
  le : q' ≤ text.length
  length : q + (runAt token text q).length = q'
  get : ∀ k < q' - q, (runAt token text q).getD k 0 = text.getD (q + k) 0
  stop : q' < text.length → text.getD q' 0 = token
  runs : runsFrom token text q = (q, runAt token text q) :: runsFrom token text q'

/-- What the loop over the characters of an argument finds. -/
theorem runTo_of_skip {q' : ℕ} (hzero : (0 : UInt8) ∉ text) (hlt : q < text.length)
    (hfirst : isToken token (text.getD q 0) = false)
    (hb : q = 0 ∨ text.getD (q - 1) 0 = token) (hle : q ≤ q') (hle' : q' ≤ text.length)
    (hin : ∀ i, q ≤ i → i < q' → inArg token (text.getD i 0) = true)
    (hend : inArg token (text.getD q' 0) = false) : RunTo token text q q' := by
  have hqtok : text.getD q 0 ≠ token := by simpa [isToken] using hfirst
  simp only [inArg, decide_eq_false_iff_not] at hend
  have hpos : q < q' := by
    rcases Nat.eq_or_lt_of_le hle with rfl | hlt'
    · exact absurd ⟨getD_ne_zero hzero hlt, hqtok⟩ hend
    · exact hlt'
  have hins : ∀ i, q ≤ i → i < q' → text.getD i 0 ≠ token := by
    intro i h1 h2
    have hi := hin i h1 h2
    simp only [inArg, decide_eq_true_eq] at hi
    exact hi.2
  have hstop : q' < text.length → text.getD q' 0 = token := by
    intro hlt'
    by_contra hne
    exact hend ⟨getD_ne_zero hzero hlt', hne⟩
  have hstart : isStart token text q = true := by
    simp only [isStart, decide_eq_true_eq]
    exact ⟨hqtok, hb⟩
  have hinner : runsFrom token text (q + 1) = runsFrom token text q' := by
    apply runsFrom_skip hpos hle'
    intro i h1 h2
    have hprev := hins (i - 1) (by omega) (by omega)
    simp only [isStart, decide_eq_false_iff_not]
    rintro ⟨-, h0 | h0⟩
    · omega
    · exact hprev h0
  obtain ⟨hlen, hget⟩ := runAt_eq hle hle' hins hstop
  refine ⟨hpos, hle', by omega, hget, hstop, ?_⟩
  rw [runsFrom_start hlt hstart, hinner]

/-- The delimiter behind a run starts none. -/
theorem RunTo.skip {q' : ℕ} (h : RunTo token text q q') (hlt : q' < text.length) :
    runsFrom token text q' = runsFrom token text (q' + 1) := by
  apply runsFrom_skip (Nat.le_succ _) hlt
  intro i h1 h2
  obtain rfl : i = q' := by omega
  simp only [isStart, decide_eq_false_iff_not]
  exact fun hs => hs.1 (h.stop hlt)

/-- The main loop. -/
theorem parseLoop_outcome (htoken : token ≠ 0) (hzero : (0 : UInt8) ∉ text)
    (hlen : text.length < cmdLen) : ∀ fuel s next argc done, Inv token text s next argc done →
    text.length < next + fuel →
    ∃ r, parseLoop token fuel s next argc = some r ∧ Outcome token text r := by
  intro fuel
  induction fuel with
  | zero =>
    intro s next argc done h hfuel
    have := h.le
    omega
  | succ fuel ih =>
    intro s next argc done h hfuel
    have hle := h.le
    have htok : isToken token 0 = false := by
      unfold isToken
      simpa using htoken.symm
    obtain ⟨hq1, hq2, hq3, hq4⟩ := skipWhile_spec htok cmdLen next hle (by omega) h.line
    unfold parseLoop
    by_cases hend : next = text.length
    · rw [if_pos (by rw [h.line next le_rfl hle]; exact getD_end (by omega))]
      exact ⟨_, rfl, h.finish (runsFrom_end (by omega))⟩
    rw [if_neg (by rw [h.line next le_rfl hle]; exact getD_ne_zero hzero (by omega))]
    dsimp only
    generalize skipWhile (isToken token) s.line cmdLen next = q at hq1 hq2 hq3 hq4 ⊢
    have hskip := runsFrom_tokens hq1 hq2 hq3
    by_cases hqend : q = text.length
    · rw [if_pos (by rw [h.line q hq1 hq2]; exact getD_end (by omega))]
      exact ⟨_, rfl, h.finish (hskip.trans (runsFrom_end (by omega)))⟩
    rw [if_neg (by rw [h.line q hq1 hq2]; exact getD_ne_zero hzero (by omega))]
    have hb : q = 0 ∨ text.getD (q - 1) 0 = token := by
      rcases Nat.eq_or_lt_of_le hq1 with rfl | hlt
      · exact h.boundary (by omega)
      · right
        simpa [isToken] using hq3 (q - 1) (by omega) (by omega)
    have hline : ∀ i, q ≤ i → i ≤ text.length →
        (s.store argc (some q)).line i = text.getD i 0 := fun i hi => h.line i (by omega)
    have hin0 : inArg token 0 = false := by simp [inArg]
    obtain ⟨ha1, ha2, ha3, ha4⟩ := skipWhile_spec hin0 cmdLen q hq2 (by omega) hline
    generalize skipWhile (inArg token) (s.store argc (some q)).line cmdLen q = q'
      at ha1 ha2 ha3 ha4 ⊢
    have hfound := runTo_of_skip hzero (by omega) hq4 hb ha1 ha2 ha3 ha4
    have hruns := hskip.trans hfound.runs
    have hpos := hfound.pos
    by_cases hq'end : q' = text.length
    · have hz : (s.store argc (some q)).line q' = 0 := by
        rw [hline q' ha1 ha2]
        exact getD_end (by omega)
      rw [if_neg (not_not.mpr hz)]
      dsimp only
      have hline' : ∀ i, s.line i = if i = q' then 0 else s.line i := by
        intro i
        split_ifs with hi
        · exact hi ▸ hz
        · rfl
      have hinv := h.advance hq1 hruns hfound.length hfound.get hpos hline' le_rfl ha2
        (fun _ => hq'end) (fun hlt => absurd hlt (by omega))
      split_ifs with hargc
      · exact ⟨_, rfl, h.overflow hruns hargc⟩
      · exact ih _ _ _ _ hinv (by omega)
    · have hz : (s.store argc (some q)).line q' ≠ 0 := by
        rw [hline q' ha1 ha2]
        exact getD_ne_zero hzero (by omega)
      rw [if_pos hz]
      dsimp only
      have hlt : q' < text.length := by omega
      have hline' : ∀ i, (s.cut q').line i = if i = q' then 0 else s.line i := fun _ => rfl
      have hinv := h.advance hq1 (hruns.trans (by rw [hfound.skip hlt])) hfound.length hfound.get
        hpos hline' (Nat.le_succ _) hlt (fun hc => absurd hc (by omega)) (fun _ => hfound.stop hlt)
      split_ifs with hargc
      · exact ⟨_, rfl, h.overflow hruns hargc⟩
      · exact ih _ _ _ _ hinv (by omega)

theorem inv_start (text : List UInt8) (junk : ℕ → UInt8) (argv : ℕ → Option ℕ) :
    Inv token text (clearArgs maxArgNum 0 ⟨lineOf text junk, argv, []⟩) 0 0 [] := by
  obtain ⟨hline, hargv, hstores⟩ := clearArgs_spec maxArgNum 0 ⟨lineOf text junk, argv, []⟩
  constructor
  · rfl
  · rfl
  · exact Nat.zero_le _
  · exact fun _ => .inl rfl
  · intro i _ hi
    rw [hline]
    exact if_pos hi
  · exact fun i x hx => by cases hx
  · intro i hi _
    rw [hargv, if_pos (by omega)]
  · intro _ i hi
    rcases hstores i hi with hlt | hnil
    · omega
    · cases hnil
  · exact fun hlt => absurd hlt (Nat.not_lt_zero _)

end Rounds

section Law

/-- The line is split as meant exactly when it has `MAX_ARG_NUM` runs at most: the limit is tested
behind the store, and against the count before this store. -/
theorem cmd_parse_law (htoken : token ≠ 0) (hzero : (0 : UInt8) ∉ text)
    (hlen : text.length < cmdLen) (junk : ℕ → UInt8) (argv : ℕ → Option ℕ) :
    (∃ r, cmdParse (lineOf text junk) argv token = some r ∧ Split token text r) ↔
      (runs token text).length ≤ maxArgNum := by
  obtain ⟨r, hr, hout⟩ := parseLoop_outcome htoken hzero hlen cmdLen _ 0 0 []
    (inv_start text junk argv) (by omega)
  constructor
  · rintro ⟨r', hr', hsplit⟩
    obtain rfl : r = r' := Option.some.inj (hr.symm.trans hr')
    by_contra hmany
    rcases hout with ⟨next, done, hinv, hruns, -⟩ | ⟨-, hmem⟩
    · rw [hruns] at hmany
      exact absurd (hsplit.inside _ (hinv.beyond (not_le.mp hmany))) (lt_irrefl _)
    · exact absurd (hsplit.inside _ hmem) (lt_irrefl _)
  · intro hfew
    rcases hout with ⟨next, done, hinv, hruns, hret⟩ | ⟨hmany, -⟩
    · refine ⟨r, hr, ?_⟩
      constructor
      · intro _
        rw [hret, hruns]
      · intro _ i x hx
        rw [hruns] at hx
        obtain ⟨h1, h2, -⟩ := hinv.args i x hx
        exact ⟨h1, h2⟩
      · intro _ i hi hi'
        rw [hruns] at hi'
        exact hinv.rest i hi hi'
      · exact fun hmany => absurd hfew (not_le.mpr hmany)
      · rw [hruns] at hfew
        exact hinv.inside hfew
    · exact absurd hfew (not_le.mpr hmany)

/-- `"ab  c"`. -/
def sampleLine : List UInt8 := [97, 98, 32, 32, 99]

theorem cmd_parse_law_sample :
    (∃ r, cmdParse (lineOf sampleLine fun _ => 7) (fun _ => some 5) 32 = some r ∧
      Split 32 sampleLine r) ↔ (runs 32 sampleLine).length ≤ maxArgNum :=
  cmd_parse_law (by decide) (by decide) (by decide) _ _

example : runs 32 sampleLine = [(0, [97, 98]), (4, [99])] := by decide

/-- Seventeen words. -/
def longLine : List UInt8 := (List.replicate 17 [97, 32]).flatten

theorem cmdParse_overruns : ¬ ∃ r, cmdParse (lineOf longLine fun _ => 0) (fun _ => none) 32 =
    some r ∧ Split 32 longLine r := by
  rintro ⟨r, hr, hsplit⟩
  have hret : (cmdParse (lineOf longLine fun _ => 0) (fun _ => none) 32).map
      (fun r => (r.1, r.2.stores.head?)) = some (17, some 16) := by
    decide +kernel
  rw [hr, Option.map_some, Option.some.injEq, Prod.mk.injEq] at hret
  exact absurd (hsplit.inside 16 (List.mem_of_head? hret.2)) (lt_irrefl _)

end Law

end Gogoos.CmdParse
