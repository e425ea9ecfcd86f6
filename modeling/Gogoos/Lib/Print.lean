import Gogoos.Lib.Numerals

/-!
# The two printers

`putUint32` and `putUint32Hex` of `lib/kernel/print.c` against `itoa` and `itoha`: the same
characters, one after the other to the screen. Read back, they are the number.
-/

namespace Gogoos.Stdio

variable {base val : ℕ}

section Programs

/-- The loop that sends `n` digits, changed by `fix`, to the screen. -/
def sendLoop (fix : UInt8 → UInt8) (buff : ℕ → UInt8) : ℕ → List UInt8 → List UInt8
  | 0, screen => screen
  | n + 1, screen => sendLoop fix buff n (screen ++ [fix (buff n)])

def putUint32Digits (val : ℕ) : Digits := digitLoop 10 32 val ⟨fun _ => 0, 0, []⟩

def putUint32 (val : ℕ) (screen : List UInt8) : List UInt8 :=
  if val = 0 then screen ++ [48]
  else sendLoop id (putUint32Digits val).buff (putUint32Digits val).idx screen

def putUint32HexDigits (val : ℕ) : Digits := digitLoop 16 32 val ⟨fun _ => 0, 0, []⟩

/-- No `'x'` is in this buffer. -/
def putHexFix (c : UInt8) : UInt8 := if 57 < c then c + 7 else c

def putUint32Hex (val : ℕ) (screen : List UInt8) : List UInt8 :=
  if val = 0 then screen ++ [48] ++ [120] ++ [48]
  else sendLoop putHexFix (putUint32HexDigits val).buff (putUint32HexDigits val).idx
    (screen ++ [48] ++ [120])

end Programs

section Reading

/-- The value of a digit in `base`. -/
def digitVal (base : ℕ) (c : UInt8) : Option ℕ :=
  if 48 ≤ c ∧ c ≤ 57 ∧ c.toNat - 48 < base then some (c.toNat - 48)
  else if 65 ≤ c ∧ c ≤ 90 ∧ c.toNat - 55 < base then some (c.toNat - 55)
  else none

def parseFrom (base : ℕ) : ℕ → List UInt8 → Option ℕ
  | acc, [] => some acc
  | acc, c :: cs => (digitVal base c).bind fun v => parseFrom base (acc * base + v) cs

/-- The number that a string of digits denotes. -/
def parse (base : ℕ) (cs : List UInt8) : Option ℕ :=
  if cs = [] then none else parseFrom base 0 cs

theorem parseFrom_append (cs ds : List UInt8) (acc : ℕ) :
    parseFrom base acc (cs ++ ds) =
      (parseFrom base acc cs).bind fun v => parseFrom base v ds := by
  induction cs generalizing acc with
  | nil => rfl
  | cons c cs ih =>
    rw [List.cons_append, parseFrom, parseFrom, Option.bind_assoc]
    simp only [ih]

theorem digitVal_digitChar (hbase : base ≤ 16) {n : ℕ} (hn : n < base) :
    digitVal base (digitChar n) = some n := by
  interval_cases base <;> interval_cases n <;> rfl

/-- The most significant digit is read first. -/
theorem parseFrom_digits (hbase : base ≤ 16) (acc : ℕ) (l : List ℕ) (hl : ∀ n ∈ l, n < base) :
    parseFrom base acc (l.map digitChar).reverse =
      some (acc * base ^ l.length + Nat.ofDigits base l) := by
  induction l with
  | nil => simp [parseFrom]
  | cons n l ih =>
    have hrest := ih fun m hm => hl m (List.mem_cons_of_mem _ hm)
    have hn := digitVal_digitChar hbase (hl n (List.mem_cons_self ..))
    have hval : (acc * base ^ l.length + Nat.ofDigits base l) * base + n =
        acc * base ^ (n :: l).length + Nat.ofDigits base (n :: l) := by
      rw [List.length_cons, Nat.ofDigits_cons]
      ring
    rw [List.map_cons, List.reverse_cons, parseFrom_append, hrest]
    simp [parseFrom, hn, hval]

theorem numeral_ne_nil : numeral base val ≠ [] := by
  unfold numeral
  split_ifs with h0
  · exact List.cons_ne_nil _ _
  · simpa [Nat.digits_ne_nil_iff_ne_zero] using h0

theorem parse_numeral (hlo : 1 < base) (hhi : base ≤ 16) :
    parse base (numeral base val) = some val := by
  unfold parse
  rw [if_neg numeral_ne_nil]
  unfold numeral
  split_ifs with h0
  · have hzero : digitVal base 48 = some 0 := digitVal_digitChar hhi (by omega : 0 < base)
    simp [parseFrom, hzero, h0]
  · rw [parseFrom_digits hhi 0 _ fun n hn => Nat.digits_lt_base hlo hn, Nat.ofDigits_digits]
    simp

theorem digitChar_ne_zero {n : ℕ} (hn : n < 16) (h0 : n ≠ 0) : digitChar n ≠ 48 := by
  interval_cases n <;> first | exact absurd rfl h0 | decide

/-- No leading zero, but for the number zero. -/
theorem numeral_head (hlo : 1 < base) (hhi : base ≤ 16) (h0 : val ≠ 0) :
    (numeral base val).head? ≠ some 48 := by
  have hne : Nat.digits base val ≠ [] := Nat.digits_ne_nil_iff_ne_zero.mpr h0
  have hlast := Nat.getLast_digit_ne_zero base h0
  have hlt : (Nat.digits base val).getLast hne < 16 :=
    (Nat.digits_lt_base hlo (List.getLast_mem hne)).trans_le hhi
  unfold numeral
  rw [if_neg h0, List.head?_reverse, List.getLast?_map, List.getLast?_eq_some_getLast hne]
  intro h
  exact digitChar_ne_zero hlt hlast (Option.some.inj h)

end Reading

section Screen

variable {screen : List UInt8}

theorem sendLoop_eq (fix : UInt8 → UInt8) {buff : ℕ → UInt8} (l screen : List UInt8)
    (hl : ∀ k < l.length, buff k = l.getD k 0) :
    sendLoop fix buff l.length screen = screen ++ (l.map fix).reverse := by
  induction l using List.reverseRecOn generalizing screen with
  | nil => simp [sendLoop]
  | append_singleton l c ih =>
    rw [List.length_append, List.length_singleton] at hl ⊢
    have hc : buff l.length = c := by
      rw [hl l.length (by omega), getD_snoc le_rfl, if_pos rfl]
    have hrest : ∀ k < l.length, buff k = l.getD k 0 := by
      intro k hk
      rw [hl k (by omega), getD_snoc (by omega), if_neg (by omega)]
    rw [sendLoop, hc, ih _ hrest]
    simp

theorem filled_putUint32 (hval : val < 2 ^ 32) :
    Filled (putUint32Digits val) (rawDigits 10 val) :=
  filled_empty.digitLoop (by decide) 32 val _ _ (lt_pow_fuel (by decide) hval)

theorem filled_putUint32Hex (hval : val < 2 ^ 32) :
    Filled (putUint32HexDigits val) (rawDigits 16 val) :=
  filled_empty.digitLoop (by decide) 32 val _ _ (lt_pow_fuel (by decide) hval)

theorem putHexFix_digit : ∀ n < 16, putHexFix (UInt8.ofNat (n + 48)) = digitChar n := by
  decide

theorem putUint32_eq (hval : val < 2 ^ 32) (screen : List UInt8) :
    putUint32 val screen = screen ++ numeral 10 val := by
  have hfill := filled_putUint32 hval
  unfold putUint32 numeral
  split_ifs with h0
  · rfl
  · rw [hfill.idx, sendLoop_eq id _ _ hfill.text, rawDigits_dec]

theorem putUint32Hex_eq (hval : val < 2 ^ 32) (screen : List UInt8) :
    putUint32Hex val screen = screen ++ 48 :: 120 :: numeral 16 val := by
  have hfill := filled_putUint32Hex hval
  have hmap : (rawDigits 16 val).map putHexFix = (Nat.digits 16 val).map digitChar := by
    unfold rawDigits
    rw [List.map_map]
    apply List.map_congr_left
    intro n hn
    exact putHexFix_digit n (Nat.digits_lt_base (by decide) hn)
  unfold putUint32Hex numeral
  split_ifs with h0
  · simp
  · rw [hfill.idx, sendLoop_eq putHexFix _ _ hfill.text, hmap]
    simp

end Screen

section Law

theorem digits_length (hlo : 1 < base) {n : ℕ} (hval : val < base ^ n) :
    (rawDigits base val).length ≤ n := by
  unfold rawDigits
  rw [List.length_map]
  exact (Nat.digits_length_le_iff hlo val).mpr hval

/-- A digit buffer of `size` bytes is large enough. -/
def Digits.Within (d : Digits) (size : ℕ) : Prop := d.idx ≤ size ∧ ∀ i ∈ d.stores, i < size

theorem Filled.within {d : Digits} {l : List UInt8} (h : Filled d l) {size : ℕ}
    (hlen : l.length ≤ size) : d.Within size :=
  ⟨h.idx.trans_le hlen, fun i hi => (h.stores i hi).trans_le hlen⟩

/-- The digits are read back as the number, in both printers, and all four buffers hold them. -/
theorem number_rendering_law (val : ℕ) (hval : val < 2 ^ 32) : ∃ dec hex : List UInt8,
    (∀ o, itoa val o = o.puts dec) ∧ (∀ o, itoha val o = o.puts (48 :: 120 :: hex)) ∧
    parse 10 dec = some val ∧ parse 16 hex = some val ∧
    (dec.head? = some 48 → dec = [48]) ∧ (hex.head? = some 48 → hex = [48]) ∧
    (∀ screen, putUint32 val screen = screen ++ dec) ∧
    (∀ screen, putUint32Hex val screen = screen ++ 48 :: 120 :: hex) ∧
    (itoaDigits val).Within 10 ∧ (itohaDigits val).Within 12 ∧
    (putUint32Digits val).Within 10 ∧ (putUint32HexDigits val).Within 8 := by
  have hdec : (rawDigits 10 val).length ≤ 10 := digits_length (by decide) (by omega)
  have hhex : (rawDigits 16 val).length ≤ 8 := digits_length (by decide) (by omega)
  have hprefix : (rawDigits 16 val ++ [120] ++ [48]).length ≤ 12 := by
    simp only [List.length_append, List.length_singleton]
    omega
  have hzero : ∀ base, 1 < base → base ≤ 16 → (numeral base val).head? = some 48 →
      numeral base val = [48] := by
    intro base hlo hhi hhead
    by_cases h0 : val = 0
    · exact if_pos h0
    · exact absurd hhead (numeral_head hlo hhi h0)
  exact ⟨numeral 10 val, numeral 16 val, itoa_puts hval, itoha_puts hval,
    parse_numeral (by decide) (by decide), parse_numeral (by decide) (by decide),
    hzero 10 (by decide) (by decide), hzero 16 (by decide) (by decide),
    putUint32_eq hval, putUint32Hex_eq hval, (filled_itoa hval).within hdec,
    (filled_itoha hval).within hprefix, (filled_putUint32 hval).within hdec,
    (filled_putUint32Hex hval).within hhex⟩

theorem number_rendering_law_sample :
    ∃ dec hex : List UInt8, (∀ o, itoa 0xbeef o = o.puts dec) ∧
      (∀ screen, putUint32Hex 0xbeef screen = screen ++ 48 :: 120 :: hex) ∧
      parse 10 dec = some 0xbeef ∧ parse 16 hex = some 0xbeef := by
  obtain ⟨dec, hex, hitoa, -, hdec, hhex, -, -, -, hput, -⟩ :=
    number_rendering_law 0xbeef (by decide)
  exact ⟨dec, hex, hitoa, hput, hdec, hhex⟩

end Law

end Gogoos.Stdio
