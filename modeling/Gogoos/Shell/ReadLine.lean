import Mathlib.Data.List.Basic
import Mathlib.Data.List.GetD
import Mathlib.Tactic

/-!
# Line editing

`readLine` of `shell/shell.c`. The buffer is the memory around `buf`, by the distance from it, and
the input is the list of the characters that `read` will deliver; at its end `read` waits. Every
store is on record.
-/

namespace Gogoos.ReadLine

variable {count : ℤ} {input line : List UInt8} {c : UInt8}

section Programs

/-- What the program writes to the screen. -/
inductive Echo where
  | char (c : UInt8)
  | clear
  | prompt
  | text (line : List UInt8)

structure State where
  buf : ℤ → UInt8
  pos : ℤ
  /-- The last one first. -/
  stores : List ℤ
  screen : List Echo

inductive Ended where
  /-- `buf` is `NULL` or `count` is not positive. -/
  | failed
  | returned
  | outOfLength
  /-- `read` waits for a key. -/
  | waiting
  deriving DecidableEq

def State.store (s : State) (i : ℤ) (c : UInt8) : State :=
  { s with buf := fun k => if k = i then c else s.buf k, stores := i :: s.stores }

def State.echo (s : State) (x : Echo) : State := { s with screen := x :: s.screen }

def State.move (s : State) (pos : ℤ) : State := { s with pos := pos }

/-- The string at `i`, of `fuel` characters at most. -/
def cString (buf : ℤ → UInt8) : (fuel : ℕ) → ℤ → List UInt8
  | 0, _ => []
  | fuel + 1, i => if buf i = 0 then [] else buf i :: cString buf fuel (i + 1)

/-- `'\b'`. -/
def backspace : UInt8 := 8

/-- `'l' - 'a'`. -/
def ctrlL : UInt8 := 11

/-- `'u' - 'a'`. -/
def ctrlU : UInt8 := 20

/-- `'\n'` and `'\r'`. -/
def isEnter (c : UInt8) : Prop := c = 10 ∨ c = 13

instance : Decidable (isEnter c) := inferInstanceAs (Decidable (_ ∨ _))

/-- The loop of Ctrl-U. -/
def eraseLoop : ℕ → State → State
  | 0, s => s
  | fuel + 1, s =>
    if s.pos = 0 then s
    else eraseLoop fuel (((s.echo (.char backspace)).store s.pos 0).move (s.pos - 1))

/-- The cases of the switch that go on reading. -/
def onKey (count : ℤ) (s : State) : State :=
  let c := s.buf s.pos
  if c = backspace then
    if s.buf 0 ≠ backspace then (s.move (s.pos - 1)).echo (.char backspace) else s
  else if c = ctrlL then
    let s := s.store s.pos 0
    ((s.echo .clear).echo .prompt).echo (.text (cString s.buf count.toNat 0))
  else if c = ctrlU then eraseLoop s.pos.toNat s
  else (s.echo (.char c)).move (s.pos + 1)

def readLoop (count : ℤ) : List UInt8 → State → Ended × State
  | [], s => (.waiting, s)
  | c :: input, s =>
    let s := s.store s.pos c
    if s.pos < count then
      if isEnter (s.buf s.pos) then (.returned, (s.store s.pos 0).echo (.char 10))
      else readLoop count input (onKey count s)
    else (.outOfLength, s)

def readLine (buf : ℤ → UInt8) (count : ℤ) (input : List UInt8) : Ended × State :=
  if 0 < count then readLoop count input ⟨buf, 0, [], []⟩ else (.failed, ⟨buf, 0, [], []⟩)

end Programs

section Specification

def isPrintable (c : UInt8) : Prop := 32 ≤ c ∧ c < 127

def isKey (c : UInt8) : Prop := isPrintable c ∨ c = backspace ∨ c = ctrlL ∨ c = ctrlU

/-- Keys, and Enter at the end only. -/
def Typed (input : List UInt8) : Prop :=
  ∀ n c, input[n]? = some c → isKey c ∨ isEnter c ∧ n + 1 = input.length

def editKey (line : List UInt8) (c : UInt8) : List UInt8 :=
  if c = backspace then line.dropLast
  else if c = ctrlU then []
  else if c = ctrlL ∨ isEnter c then line
  else line ++ [c]

/-- The abstract edit. -/
def edit (input : List UInt8) : List UInt8 := input.foldl editKey []

/-- Only the buffer is written to, and it holds the edited line on return. -/
structure Edited (count : ℤ) (input : List UInt8) (r : Ended × State) : Prop where
  inside : ∀ i ∈ r.2.stores, 0 ≤ i ∧ i < count
  text : r.1 ≠ .waiting → ((edit input).length : ℤ) < count ∧
    ∀ k ≤ (edit input).length, r.2.buf k = (edit input).getD k 0

end Specification

section Steps

variable {s : State}

/-- The buffer holds `line` before `pos`. -/
structure Inv (count : ℤ) (line : List UInt8) (s : State) : Prop where
  pos : s.pos = line.length
  text : ∀ k < line.length, s.buf k = line.getD k 0
  plain : backspace ∉ line
  inside : ∀ i ∈ s.stores, 0 ≤ i ∧ i < count

theorem Inv.store (h : Inv count line s) (hroom : (line.length : ℤ) < count) :
    Inv count line (s.store s.pos c) := by
  have hpos := h.pos
  constructor
  · exact hpos
  · intro k hk
    refine Eq.trans (if_neg ?_) (h.text k hk)
    omega
  · exact h.plain
  · intro i hi
    rcases List.mem_cons.mp hi with rfl | hi
    · omega
    · exact h.inside i hi

theorem store_at : (s.store s.pos c).buf s.pos = c := if_pos rfl

theorem eraseLoop_spec : ∀ n : ℕ, ∀ s : State, s.pos = n → (n : ℤ) < count →
    (∀ i ∈ s.stores, 0 ≤ i ∧ i < count) →
    (eraseLoop n s).pos = 0 ∧ ∀ i ∈ (eraseLoop n s).stores, 0 ≤ i ∧ i < count := by
  intro n
  induction n with
  | zero => exact fun s hpos _ hin => ⟨hpos, hin⟩
  | succ n ih =>
    intro s hpos hn hin
    unfold eraseLoop
    rw [if_neg (by omega)]
    apply ih
    · change s.pos - 1 = n
      omega
    · omega
    · intro i hi
      rcases List.mem_cons.mp hi with rfl | hi
      · omega
      · exact hin i hi

/-- One key edits the line. -/
theorem Inv.onKey (h : Inv count line s) (hroom : (line.length : ℤ) < count) (hkey : isKey c) :
    Inv count (editKey line c) (onKey count (s.store s.pos c)) := by
  have hs : Inv count line (s.store s.pos c) := h.store hroom
  have hpos : s.pos = line.length := h.pos
  unfold ReadLine.onKey editKey
  dsimp only
  rw [show (s.store s.pos c).buf (s.store s.pos c).pos = c from store_at]
  by_cases hb : c = backspace
  · rw [if_pos hb, if_pos hb]
    cases hline : line with
    | nil =>
      have h0 : s.pos = 0 := by
        rw [hpos, hline]
        rfl
      have hfirst : (s.store s.pos c).buf 0 = backspace := by
        rw [← hb]
        exact if_pos h0.symm
      rw [if_neg (not_not.mpr hfirst)]
      rw [hline] at hs
      exact hs
    | cons a rest =>
      have hfirst : (s.store s.pos c).buf 0 = a := by
        have htext := hs.text 0 (by rw [hline]; exact Nat.succ_pos _)
        rw [hline] at htext
        exact htext
      have ha : a ≠ backspace := by
        rintro rfl
        exact h.plain (hline ▸ List.mem_cons_self)
      rw [if_pos (by rw [hfirst]; exact ha), ← hline]
      have hlen : line.dropLast.length + 1 = line.length := by
        rw [List.length_dropLast, hline]
        rfl
      constructor
      · change s.pos - 1 = _
        omega
      · intro k hk
        refine (hs.text k (by omega)).trans ?_
        rw [List.getD_eq_getElem?_getD, List.getD_eq_getElem?_getD, List.getElem?_dropLast,
          if_pos (by omega)]
      · exact fun hmem => h.plain (List.mem_of_mem_dropLast hmem)
      · exact hs.inside
  rw [if_neg hb, if_neg hb]
  by_cases hl : c = ctrlL
  · rw [if_pos hl, if_neg (by rw [hl]; decide), if_pos (.inl hl)]
    have hcut : Inv count line ((s.store s.pos c).store (s.store s.pos c).pos 0) := hs.store hroom
    exact ⟨hcut.pos, hcut.text, hcut.plain, hcut.inside⟩
  rw [if_neg hl]
  by_cases hu : c = ctrlU
  · rw [if_pos hu, if_pos hu]
    have hn : (s.store s.pos c).pos = (s.store s.pos c).pos.toNat := by
      change s.pos = s.pos.toNat
      omega
    obtain ⟨h1, h2⟩ := eraseLoop_spec _ _ hn
      (by change ((s.pos.toNat : ℕ) : ℤ) < count; omega) hs.inside
    exact ⟨h1, fun k hk => absurd hk (Nat.not_lt_zero k), List.not_mem_nil, h2⟩
  have hprint : isPrintable c := by
    rcases hkey with hp | hk | hk | hk
    · exact hp
    · exact absurd hk hb
    · exact absurd hk hl
    · exact absurd hk hu
  have henter : ¬ (c = ctrlL ∨ isEnter c) := by
    rintro (hk | rfl | rfl)
    · exact hl hk
    · exact absurd hprint.1 (by decide)
    · exact absurd hprint.1 (by decide)
  rw [if_neg hu, if_neg hu, if_neg henter]
  constructor
  · change s.pos + 1 = _
    rw [List.length_append, hpos]
    rfl
  · intro k hk
    rw [List.length_append, List.length_singleton] at hk
    rcases Nat.lt_succ_iff_lt_or_eq.mp hk with hlt | rfl
    · refine (hs.text k hlt).trans ?_
      rw [List.getD_append _ _ _ _ hlt]
    · rw [List.getD_append_right _ _ _ _ le_rfl, Nat.sub_self]
      exact if_pos hpos.symm
  · intro hmem
    rcases List.mem_append.mp hmem with hmem | hmem
    · exact h.plain hmem
    · exact hb (List.mem_singleton.mp hmem).symm
  · exact hs.inside

end Steps

section Runs

variable {s : State}

theorem Typed.tail (h : Typed (c :: input)) : Typed input := by
  intro n c' hc
  rcases h (n + 1) c' hc with hk | ⟨he, hn⟩
  · exact .inl hk
  · exact .inr ⟨he, by rw [List.length_cons] at hn; omega⟩

/-- The line is at no key as long as the buffer. -/
def Room (count : ℤ) (line input : List UInt8) : Prop :=
  ∀ n < input.length, (((input.take n).foldl editKey line).length : ℤ) < count

theorem room_cons : Room count line (c :: input) ↔
    (line.length : ℤ) < count ∧ Room count (editKey line c) input := by
  constructor
  · exact fun h => ⟨h 0 (Nat.succ_pos _), fun n hn => h (n + 1) (Nat.succ_lt_succ hn)⟩
  · rintro ⟨h0, h⟩ n hn
    cases n with
    | zero => exact h0
    | succ n => exact h n (Nat.lt_of_succ_lt_succ hn)

/-- The main loop, from any line. -/
theorem readLoop_spec : ∀ input line s, Typed input → Inv count line s →
    (Room count line input → (∀ i ∈ (readLoop count input s).2.stores, 0 ≤ i ∧ i < count) ∧
      ((readLoop count input s).1 ≠ .waiting → ((input.foldl editKey line).length : ℤ) < count ∧
        ∀ k ≤ (input.foldl editKey line).length,
          (readLoop count input s).2.buf k = (input.foldl editKey line).getD k 0)) ∧
    (¬ Room count line input →
      ∃ i ∈ (readLoop count input s).2.stores, count ≤ i) := by
  intro input
  induction input with
  | nil =>
    intro line s _ h
    refine ⟨fun _ => ⟨h.inside, fun hw => absurd rfl hw⟩, fun hroom => ?_⟩
    exact absurd (fun n hn => absurd hn (Nat.not_lt_zero n)) hroom
  | cons c input ih =>
    intro line s htyped h
    have hpos : s.pos = line.length := h.pos
    unfold readLoop
    dsimp only
    rw [show (s.store s.pos c).buf (s.store s.pos c).pos = c from store_at, room_cons]
    by_cases hroom : (line.length : ℤ) < count
    · rw [if_pos (show (s.store s.pos c).pos < count from hpos ▸ hroom)]
      rcases htyped 0 c rfl with hkey | ⟨henter, hlast⟩
      · have henter : ¬ isEnter c := by
          rintro (rfl | rfl)
          · rcases hkey with hp | hk | hk | hk
            · exact absurd hp.1 (by decide)
            all_goals exact absurd hk (by decide)
          · rcases hkey with hp | hk | hk | hk
            · exact absurd hp.1 (by decide)
            all_goals exact absurd hk (by decide)
        rw [if_neg henter]
        obtain ⟨h1, h2⟩ := ih _ _ htyped.tail (h.onKey hroom hkey)
        exact ⟨fun hr => h1 hr.2, fun hr => h2 fun hr' => hr ⟨hroom, hr'⟩⟩
      · obtain rfl : input = [] := by
          cases input with
          | nil => rfl
          | cons => simp at hlast
        rw [if_pos henter]
        have hkeep : editKey line c = line := by
          unfold editKey
          rw [if_neg (by rcases henter with rfl | rfl <;> decide),
            if_neg (by rcases henter with rfl | rfl <;> decide), if_pos (.inr henter)]
        have hend : Inv count line ((s.store s.pos c).store s.pos 0) :=
          Inv.store (h.store hroom) hroom
        refine ⟨fun _ => ⟨hend.inside, fun _ => ?_⟩, fun hr => ?_⟩
        · rw [List.foldl_cons, List.foldl_nil, hkeep]
          refine ⟨hroom, fun k hk => ?_⟩
          rcases Nat.eq_or_lt_of_le hk with rfl | hlt
          · rw [List.getD_eq_getElem?_getD, List.getElem?_eq_none le_rfl]
            exact if_pos hpos.symm
          · exact hend.text k hlt
        · exact absurd ⟨hroom, fun n hn => absurd hn (Nat.not_lt_zero n)⟩ hr
    · rw [if_neg (show ¬ (s.store s.pos c).pos < count from hpos ▸ hroom)]
      refine ⟨fun hr => absurd hr.1 hroom, fun _ => ⟨s.pos, List.mem_cons_self, ?_⟩⟩
      omega

end Runs

section Law

variable {buf : ℤ → UInt8}

/-- The line is edited as meant exactly when it is shorter than the buffer before each key. -/
theorem read_line_law (htyped : Typed input) :
    Edited count input (readLine buf count input) ↔
      0 < count ∧ ∀ n < input.length, ((edit (input.take n)).length : ℤ) < count := by
  by_cases hcount : 0 < count
  · have hinv : Inv count [] ⟨buf, 0, [], []⟩ :=
      ⟨rfl, fun k hk => absurd hk (Nat.not_lt_zero k), List.not_mem_nil,
        fun i hi => by cases hi⟩
    obtain ⟨h1, h2⟩ := readLoop_spec input [] _ htyped hinv
    unfold readLine
    rw [if_pos hcount]
    constructor
    · intro hed
      refine ⟨hcount, ?_⟩
      by_contra hroom
      obtain ⟨i, hi, hle⟩ := h2 hroom
      exact absurd (hed.inside i hi).2 (not_lt.mpr hle)
    · rintro ⟨-, hroom⟩
      exact ⟨(h1 hroom).1, (h1 hroom).2⟩
  · unfold readLine
    rw [if_neg hcount]
    constructor
    · intro hed
      have hlt := (hed.text Ended.noConfusion).1
      omega
    · exact fun h => absurd h.1 hcount

/-- `"ab"`, backspace, `"c"`, Enter. -/
def sampleKeys : List UInt8 := [97, 98, 8, 99, 13]

instance : Decidable (isKey c) := by
  unfold isKey isPrintable
  infer_instance

theorem read_line_law_sample :
    Edited 4 sampleKeys (readLine (fun _ => 7) 4 sampleKeys) ↔
      (0 : ℤ) < 4 ∧ ∀ n < sampleKeys.length, ((edit (sampleKeys.take n)).length : ℤ) < 4 := by
  apply read_line_law
  intro n c hc
  have hn : n < 5 := (List.getElem?_eq_some_iff.mp hc).1
  interval_cases n <;> cases hc <;> decide

example : edit sampleKeys = [97, 99] := by decide

/-- As many letters as the shell's buffer has bytes, and Enter. -/
def longKeys : List UInt8 := List.replicate 128 97 ++ [13]

theorem readLine_overruns : ¬ Edited 128 longKeys (readLine (fun _ => 0) 128 longKeys) := by
  intro h
  have hlast : (readLine (fun _ => 0) 128 longKeys).2.stores.head? = some 128 := by
    decide +kernel
  exact absurd (h.inside 128 (List.mem_of_head? hlast)).2 (lt_irrefl _)

end Law

end Gogoos.ReadLine
