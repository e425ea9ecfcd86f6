import Mathlib.Data.Nat.Digits.Defs
import Mathlib.Data.List.GetD
import Mathlib.Tactic

/-!
# Numerals

`itoa` and `itoha` of `lib/user/stdio.c`: the digits are collected in a buffer, the last one first,
and copied in the opposite order.
-/

namespace Gogoos.Stdio

variable {old : ℕ → UInt8} {done : List UInt8} {base val : ℕ}

section Output

/-- The memory from `buf` on, and `bufPtr` as the distance from it. -/
structure Out where
  buf : ℕ → UInt8
  ptr : ℕ

/-- `*(bufPtr++) = c`. -/
def Out.put (o : Out) (c : UInt8) : Out :=
  ⟨fun k => if k = o.ptr then c else o.buf k, o.ptr + 1⟩

/-- `cs` character by character. -/
def Out.puts (o : Out) (cs : List UInt8) : Out := cs.foldl Out.put o

/-- `done` was written to memory that held `old`; a string may have left its terminating zero
behind. -/
structure Wrote (old : ℕ → UInt8) (o : Out) (done : List UInt8) : Prop where
  ptr : o.ptr = done.length
  text : ∀ k < done.length, o.buf k = done.getD k 0
  next : o.buf done.length = old done.length ∨ o.buf done.length = 0
  rest : ∀ k, done.length < k → o.buf k = old k

theorem wrote_start (old : ℕ → UInt8) : Wrote old ⟨old, 0⟩ [] :=
  ⟨rfl, fun k hk => absurd hk (Nat.not_lt_zero k), .inl rfl, fun _ _ => rfl⟩

theorem getD_snoc {c : UInt8} {k : ℕ} (hk : k ≤ done.length) :
    (done ++ [c]).getD k 0 = if k = done.length then c else done.getD k 0 := by
  split_ifs with h
  · rw [h, List.getD_eq_getElem?_getD, List.getElem?_append_right le_rfl, Nat.sub_self]
    rfl
  · rw [List.getD_eq_getElem?_getD, List.getElem?_append_left (by omega),
      List.getD_eq_getElem?_getD]

theorem Wrote.put {o : Out} (h : Wrote old o done) (c : UInt8) :
    Wrote old (o.put c) (done ++ [c]) := by
  have hlen : (done ++ [c]).length = done.length + 1 := List.length_append
  have hptr := h.ptr
  constructor
  · rw [hlen, ← hptr]
    rfl
  · intro k hk
    rw [hlen] at hk
    rw [getD_snoc (by omega), ← hptr]
    unfold Out.put
    dsimp only
    split_ifs with hk'
    · rfl
    · exact h.text k (by omega)
  · left
    rw [hlen]
    exact (if_neg (by omega)).trans (h.rest _ (by omega))
  · intro k hk
    rw [hlen] at hk
    exact (if_neg (by omega)).trans (h.rest k (by omega))

theorem Wrote.puts {o : Out} (h : Wrote old o done) (cs : List UInt8) :
    Wrote old (o.puts cs) (done ++ cs) := by
  induction cs generalizing o done with
  | nil =>
    rw [List.append_nil]
    exact h
  | cons c cs ih =>
    have hrest := ih (h.put c)
    rw [List.append_assoc, List.singleton_append] at hrest
    exact hrest

end Output

section Programs

/-- `buff` with `idx`, and the indices that were stored to. -/
structure Digits where
  buff : ℕ → UInt8
  idx : ℕ
  stores : List ℕ

/-- `buff[idx] = c; idx++`. -/
def Digits.push (d : Digits) (c : UInt8) : Digits :=
  ⟨fun k => if k = d.idx then c else d.buff k, d.idx + 1, d.idx :: d.stores⟩

/-- The loop that collects the digits; a 32-bit value has fewer digits than rounds here. -/
def digitLoop (base : ℕ) : (fuel val : ℕ) → Digits → Digits
  | 0, _, d => d
  | fuel + 1, val, d =>
    if val = 0 then d
    else digitLoop base fuel (val / base) (d.push (UInt8.ofNat (val % base + 48)))

/-- The loop that copies `n` digits, changed by `fix`. -/
def copyLoop (fix : UInt8 → UInt8) (buff : ℕ → UInt8) : ℕ → Out → Out
  | 0, o => o
  | n + 1, o => copyLoop fix buff n (o.put (fix (buff n)))

def itoaDigits (val : ℕ) : Digits := digitLoop 10 32 val ⟨fun _ => 0, 0, []⟩

def itoa (val : ℕ) (o : Out) : Out :=
  if val = 0 then o.put 48
  else copyLoop id (itoaDigits val).buff (itoaDigits val).idx o

def itohaDigits (val : ℕ) : Digits :=
  ((digitLoop 16 32 val ⟨fun _ => 0, 0, []⟩).push 120).push 48

/-- From the characters behind `'9'` to the letters. -/
def hexFix (c : UInt8) : UInt8 := if 57 < c ∧ c ≠ 120 then c + 7 else c

def itoha (val : ℕ) (o : Out) : Out :=
  if val = 0 then ((o.put 48).put 120).put 48
  else copyLoop hexFix (itohaDigits val).buff (itohaDigits val).idx o

end Programs

section Numeral

/-- The character of a digit, with upper-case letters. -/
def digitChar (n : ℕ) : UInt8 := if n < 10 then UInt8.ofNat (n + 48) else UInt8.ofNat (n + 55)

/-- The numeral of a number, without leading zeros. -/
def numeral (base n : ℕ) : List UInt8 :=
  if n = 0 then [48] else ((Nat.digits base n).map digitChar).reverse

end Numeral

section Loops

variable {d : Digits} {l : List UInt8}

/-- The buffer holds `l`, and no place behind it was stored to. -/
structure Filled (d : Digits) (l : List UInt8) : Prop where
  idx : d.idx = l.length
  text : ∀ k < l.length, d.buff k = l.getD k 0
  stores : ∀ i ∈ d.stores, i < l.length

theorem filled_empty : Filled ⟨fun _ => 0, 0, []⟩ [] :=
  ⟨rfl, fun k hk => absurd hk (Nat.not_lt_zero k), fun i hi => by cases hi⟩

theorem Filled.push (h : Filled d l) (c : UInt8) : Filled (d.push c) (l ++ [c]) := by
  have hlen : (l ++ [c]).length = l.length + 1 := List.length_append
  have hidx := h.idx
  constructor
  · rw [hlen, ← hidx]
    rfl
  · intro k hk
    rw [hlen] at hk
    rw [getD_snoc (by omega), ← hidx]
    unfold Digits.push
    dsimp only
    split_ifs with hk'
    · rfl
    · exact h.text k (by omega)
  · intro i hi
    rw [hlen]
    rcases List.mem_cons.mp hi with rfl | hi
    · omega
    · exact Nat.lt_succ_of_lt (h.stores i hi)

/-- The characters that the first loop adds. -/
def rawDigits (base val : ℕ) : List UInt8 :=
  (Nat.digits base val).map fun n => UInt8.ofNat (n + 48)

theorem Filled.digitLoop (hbase : 1 < base) : ∀ fuel val d l, val < base ^ fuel → Filled d l →
    Filled (digitLoop base fuel val d) (l ++ rawDigits base val) := by
  intro fuel
  induction fuel with
  | zero =>
    intro val d l hval h
    obtain rfl : val = 0 := by
      rw [pow_zero] at hval
      omega
    unfold rawDigits
    rw [Nat.digits_zero, List.map_nil, List.append_nil]
    exact h
  | succ fuel ih =>
    intro val d l hval h
    unfold Stdio.digitLoop rawDigits
    by_cases h0 : val = 0
    · rw [if_pos h0, h0, Nat.digits_zero, List.map_nil, List.append_nil]
      exact h
    have hdiv : val / base < base ^ fuel := by
      rw [Nat.div_lt_iff_lt_mul (by omega), ← pow_succ]
      exact hval
    have hrest := ih (val / base) _ _ hdiv (h.push (UInt8.ofNat (val % base + 48)))
    rw [if_neg h0, Nat.digits_def' hbase (by omega), List.map_cons]
    rw [List.append_assoc, List.singleton_append] at hrest
    exact hrest

/-- The copying loop begins at the end of `l`. -/
theorem copyLoop_puts (fix : UInt8 → UInt8) {buff : ℕ → UInt8} (l : List UInt8) (o : Out)
    (hl : ∀ k < l.length, buff k = l.getD k 0) :
    copyLoop fix buff l.length o = o.puts (l.map fix).reverse := by
  induction l using List.reverseRecOn generalizing o with
  | nil => rfl
  | append_singleton l c ih =>
    rw [List.length_append, List.length_singleton] at hl ⊢
    have hc : buff l.length = c := by
      rw [hl l.length (by omega), getD_snoc le_rfl, if_pos rfl]
    have hrest : ∀ k < l.length, buff k = l.getD k 0 := by
      intro k hk
      rw [hl k (by omega), getD_snoc (by omega), if_neg (by omega)]
    unfold Stdio.copyLoop
    rw [hc, ih _ hrest, List.map_append, List.map_singleton, List.reverse_append,
      List.reverse_singleton, List.singleton_append]
    rfl

end Loops

section Rendering

variable {o : Out}

theorem lt_pow_fuel (hbase : 1 < base) (hval : val < 2 ^ 32) : val < base ^ 32 :=
  hval.trans_le (Nat.pow_le_pow_left hbase 32)

theorem filled_itoa (hval : val < 2 ^ 32) : Filled (itoaDigits val) (rawDigits 10 val) :=
  filled_empty.digitLoop (by decide) 32 val _ _ (lt_pow_fuel (by decide) hval)

theorem filled_itoha (hval : val < 2 ^ 32) :
    Filled (itohaDigits val) (rawDigits 16 val ++ [120] ++ [48]) :=
  ((filled_empty.digitLoop (by decide) 32 val _ _ (lt_pow_fuel (by decide) hval)).push 120).push 48

theorem hexFix_digit : ∀ n < 16, hexFix (UInt8.ofNat (n + 48)) = digitChar n := by
  decide

theorem rawDigits_dec : (rawDigits 10 val).map id = (Nat.digits 10 val).map digitChar := by
  unfold rawDigits
  rw [List.map_id]
  apply List.map_congr_left
  intro n hn
  rw [digitChar, if_pos (Nat.digits_lt_base (by decide) hn)]

theorem rawDigits_hex : (rawDigits 16 val).map hexFix = (Nat.digits 16 val).map digitChar := by
  unfold rawDigits
  rw [List.map_map]
  apply List.map_congr_left
  intro n hn
  exact hexFix_digit n (Nat.digits_lt_base (by decide) hn)

theorem itoa_puts (hval : val < 2 ^ 32) (o : Out) : itoa val o = o.puts (numeral 10 val) := by
  have hfill := filled_itoa hval
  unfold Stdio.itoa numeral
  split_ifs with h0
  · rfl
  · rw [← rawDigits_dec, hfill.idx]
    exact copyLoop_puts id _ o hfill.text

theorem itoha_puts (hval : val < 2 ^ 32) (o : Out) :
    itoha val o = o.puts (48 :: 120 :: numeral 16 val) := by
  have hfill := filled_itoha hval
  unfold Stdio.itoha numeral
  split_ifs with h0
  · rfl
  · rw [hfill.idx, copyLoop_puts hexFix _ o hfill.text, List.map_append, List.map_append,
      List.reverse_append, List.reverse_append, rawDigits_hex]
    rfl

theorem Wrote.itoa (h : Wrote old o done) (hval : val < 2 ^ 32) :
    Wrote old (itoa val o) (done ++ numeral 10 val) := by
  rw [itoa_puts hval]
  exact h.puts _

theorem Wrote.itoha (h : Wrote old o done) (hval : val < 2 ^ 32) :
    Wrote old (itoha val o) (done ++ 48 :: 120 :: numeral 16 val) := by
  rw [itoha_puts hval]
  exact h.puts _

end Rendering

end Gogoos.Stdio
