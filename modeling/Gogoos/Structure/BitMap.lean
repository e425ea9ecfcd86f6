import Gogoos.Logic.Program

/-!
# Bitmaps

`lib/structure/bitmap.c`. A bitmap is a length in bytes and the memory from its first
byte on; the bytes from `length` on are whatever lies behind it in memory, and the
functions do not keep away from them by themselves. Bit `i` lives in byte `i / 8`.
An index that C returns as `-1` is `none` here.
-/

namespace Gogoos

structure BitMap where
  length : ℕ
  startAddr : ℕ → UInt8

/-- Value of bit `i` in the memory of the bitmap. -/
def BitMap.bit (bm : BitMap) (i : ℕ) : Bool :=
  (bm.startAddr (i / 8)).toNat.testBit (i % 8)

/-- Number of bits of the bitmap. -/
def BitMap.bits (bm : BitMap) : ℕ := 8 * bm.length

def bitMapTest (bm : BitMap) (bitIdx : ℕ) : Bool :=
  if bitIdx ≥ bm.length * 8 % 2 ^ 32 then false
  else ((bm.startAddr (bitIdx / 8)).toNat >>> (bitIdx % 8)) % 2 = 1

/-- First loop of `bitMapScan`: skips full bytes. -/
def skipFullBytes (bm : BitMap) : ℕ → ℕ → ℕ
  | 0, byteIdx => byteIdx
  | fuel + 1, byteIdx =>
    if bm.startAddr byteIdx = 0xff ∧ byteIdx < bm.length then skipFullBytes bm fuel (byteIdx + 1)
    else byteIdx

/-- Second loop of `bitMapScan`: the first clear bit of a byte. -/
def skipSetBits (b : UInt8) : ℕ → ℕ → ℕ
  | 0, bitIdx => bitIdx
  | fuel + 1, bitIdx =>
    if (b.toNat >>> bitIdx) % 2 = 1 then skipSetBits b fuel (bitIdx + 1) else bitIdx

/-- Third loop of `bitMapScan`: looks for `cnt` clear bits in a row. -/
def scanRun (bm : BitMap) (cnt : ℕ) : (leftBit : ℕ) → (nextBit fdCnt : ℕ) → Option ℕ
  | 0, _, _ => none
  | leftBit + 1, nextBit, fdCnt =>
    let fdCnt := if bitMapTest bm nextBit then 0 else fdCnt + 1
    if fdCnt = cnt then some (nextBit + 1 - cnt)
    else scanRun bm cnt leftBit (nextBit + 1) fdCnt

def bitMapScan (bm : BitMap) (cnt : ℕ) : Option ℕ :=
  let byteIdx := skipFullBytes bm bm.length 0
  if byteIdx = bm.length then none
  else
    let bitIdx := skipSetBits (bm.startAddr byteIdx) 8 0
    let bitIdxStart := 8 * byteIdx + bitIdx
    if cnt = 1 then some bitIdxStart
    else scanRun bm cnt (bm.length * 8 - bitIdxStart - 1) (bitIdxStart + 1) 1

def bitMapSet (bm : BitMap) (bitIdx : ℕ) (val : Bool) : BitMap :=
  let mask : UInt8 := 1 <<< (UInt8.ofNat (bitIdx % 8))
  { bm with
    startAddr := fun i =>
      if i = bitIdx / 8 then
        if val then bm.startAddr i ||| mask else bm.startAddr i &&& ~~~mask
      else bm.startAddr i }

/-- The loop of `bitMapScanAndSet`. -/
def bitMapSetRun (bm : BitMap) (val : Bool) : (cnt idx : ℕ) → BitMap
  | 0, _ => bm
  | cnt + 1, idx => bitMapSetRun (bitMapSet bm idx val) val cnt (idx + 1)

def bitMapScanAndSet (bm : BitMap) (cnt : ℕ) (val : Bool) : Option ℕ × BitMap :=
  match bitMapScan bm cnt with
  | none => (none, bm)
  | some bitIdxStart => (some bitIdxStart, bitMapSetRun bm val cnt bitIdxStart)

section Bytes

theorem mask_testBit : ∀ k < 8, ∀ j < 8,
    ((1 : UInt8) <<< UInt8.ofNat k).toNat.testBit j = decide (j = k) := by decide

theorem compl_mask_testBit : ∀ k < 8, ∀ j < 8,
    (~~~((1 : UInt8) <<< UInt8.ofNat k)).toNat.testBit j = !decide (j = k) := by decide

theorem byte_eq_ff_iff (b : UInt8) : b = 0xff ↔ ∀ j < 8, b.toNat.testBit j = true := by
  constructor
  · rintro rfl j hj
    interval_cases j <;> decide
  · intro h
    have hb : b.toNat = 255 := by
      apply Nat.eq_of_testBit_eq
      intro j
      by_cases hj : j < 8
      · rw [h j hj]
        interval_cases j <;> decide
      · have hlt : 255 < 2 ^ j :=
          lt_of_lt_of_le (by norm_num) (Nat.pow_le_pow_right (by norm_num) (not_lt.mp hj))
        rw [Nat.testBit_lt_two_pow hlt, Nat.testBit_lt_two_pow]
        have := b.toNat_lt
        omega
    exact UInt8.toNat_inj.mp hb

end Bytes

@[simp] theorem bitMapSet_length (bm : BitMap) (i : ℕ) (v : Bool) :
    (bitMapSet bm i v).length = bm.length := rfl

@[simp] theorem bitMapSet_bits (bm : BitMap) (i : ℕ) (v : Bool) :
    (bitMapSet bm i v).bits = bm.bits := rfl

/-- Setting one bit writes that bit and no other. -/
theorem bitMapSet_bit (bm : BitMap) (i : ℕ) (v : Bool) (j : ℕ) :
    (bitMapSet bm i v).bit j = if j = i then v else bm.bit j := by
  unfold BitMap.bit bitMapSet
  have hi : i % 8 < 8 := Nat.mod_lt _ (by norm_num)
  have hj : j % 8 < 8 := Nat.mod_lt _ (by norm_num)
  by_cases hb : j / 8 = i / 8
  · have hji : j % 8 = i % 8 ↔ j = i := by omega
    cases v
    · simp only [hb, ↓reduceIte, Bool.false_eq_true]
      rw [UInt8.toNat_and, Nat.testBit_and, compl_mask_testBit _ hi _ hj]
      by_cases h : j = i <;> simp [h, hji]
    · simp only [hb, ↓reduceIte]
      rw [UInt8.toNat_or, Nat.testBit_or, mask_testBit _ hi _ hj]
      by_cases h : j = i <;> simp [h, hji]
  · have hne : j ≠ i := by rintro rfl; exact hb rfl
    simp [hb, hne]

@[simp] theorem bitMapSet_bit_self (bm : BitMap) (i : ℕ) (v : Bool) :
    (bitMapSet bm i v).bit i = v := by simp [bitMapSet_bit]

theorem bitMapSet_bit_ne (bm : BitMap) {i j : ℕ} (v : Bool) (h : j ≠ i) :
    (bitMapSet bm i v).bit j = bm.bit j := by simp [bitMapSet_bit, h]

theorem skipFullBytes_spec (bm : BitMap) : ∀ fuel byteIdx,
    byteIdx + fuel = bm.length → (∀ i < byteIdx, bm.startAddr i = 0xff) →
    let r := skipFullBytes bm fuel byteIdx
    r ≤ bm.length ∧ (∀ i < r, bm.startAddr i = 0xff) ∧
      (r < bm.length → bm.startAddr r ≠ 0xff) := by
  intro fuel
  induction fuel with
  | zero =>
    intro byteIdx hsum hfull
    simp only [skipFullBytes]
    exact ⟨by omega, hfull, fun h => by omega⟩
  | succ fuel ih =>
    intro byteIdx hsum hfull
    simp only [skipFullBytes]
    split_ifs with h
    · apply ih (byteIdx + 1) (by omega)
      intro i hi
      rcases Nat.lt_succ_iff_lt_or_eq.mp hi with hlt | rfl
      · exact hfull i hlt
      · exact h.1
    · refine ⟨by omega, hfull, fun hlt heq => h ⟨heq, hlt⟩⟩

theorem skipSetBits_spec (b : UInt8) : ∀ fuel bitIdx, bitIdx + fuel = 8 →
    (∀ j < bitIdx, b.toNat.testBit j = true) →
    let r := skipSetBits b fuel bitIdx
    r ≤ 8 ∧ (∀ j < r, b.toNat.testBit j = true) ∧ (r < 8 → b.toNat.testBit r = false) := by
  intro fuel
  induction fuel with
  | zero =>
    intro bitIdx hsum hset
    simp only [skipSetBits]
    exact ⟨by omega, hset, fun h => by omega⟩
  | succ fuel ih =>
    intro bitIdx hsum hset
    have hbit : (b.toNat >>> bitIdx) % 2 = 1 ↔ b.toNat.testBit bitIdx = true := by
      rw [Nat.testBit_eq_decide_div_mod_eq, Nat.shiftRight_eq_div_pow, decide_eq_true_iff]
    simp only [skipSetBits]
    split_ifs with h
    · apply ih (bitIdx + 1) (by omega)
      intro j hj
      rcases Nat.lt_succ_iff_lt_or_eq.mp hj with hlt | rfl
      · exact hset j hlt
      · exact hbit.mp h
    · refine ⟨by omega, hset, fun _ => ?_⟩
      rw [hbit] at h
      simpa using h

/-- Scanning for one bit is first fit: it returns the least clear bit. -/
theorem bitMapScan_one_eq_some {bm : BitMap} {i : ℕ} (h : bitMapScan bm 1 = some i) :
    i < bm.bits ∧ bm.bit i = false ∧ ∀ j < i, bm.bit j = true := by
  obtain ⟨hle, hfull, hnot⟩ := skipFullBytes_spec bm bm.length 0 (by omega) (by omega)
  unfold bitMapScan at h
  simp only [↓reduceIte] at h
  split_ifs at h with hend
  set r := skipFullBytes bm bm.length 0
  have hr : r < bm.length := by omega
  obtain ⟨hk8, hset, hclear⟩ := skipSetBits_spec (bm.startAddr r) 8 0 (by omega) (by omega)
  set k := skipSetBits (bm.startAddr r) 8 0
  have hk : k < 8 := by
    rcases Nat.lt_or_ge k 8 with h' | h'
    · exact h'
    · have heq : k = 8 := by omega
      rw [heq] at hset
      exact absurd ((byte_eq_ff_iff _).mpr hset) (hnot hr)
  simp only [Option.some.injEq] at h
  subst h
  have hdiv : (8 * r + k) / 8 = r := by omega
  have hmod : (8 * r + k) % 8 = k := by omega
  refine ⟨by unfold BitMap.bits; omega, by simpa [BitMap.bit, hdiv, hmod] using hclear hk, ?_⟩
  intro j hj
  unfold BitMap.bit
  rcases Nat.lt_or_ge (j / 8) r with hlt | hge
  · exact (byte_eq_ff_iff _).mp (hfull _ hlt) _ (Nat.mod_lt _ (by norm_num))
  · have hjr : j / 8 = r := by omega
    rw [hjr]
    exact hset _ (by omega)

theorem bitMapScan_one_eq_none {bm : BitMap} (h : bitMapScan bm 1 = none) :
    ∀ i < bm.bits, bm.bit i = true := by
  obtain ⟨hle, hfull, -⟩ := skipFullBytes_spec bm bm.length 0 (by omega) (by omega)
  unfold bitMapScan at h
  simp only [↓reduceIte] at h
  split_ifs at h with hend
  intro i hi
  unfold BitMap.bits at hi
  unfold BitMap.bit
  exact (byte_eq_ff_iff _).mp (hfull _ (by omega)) _ (Nat.mod_lt _ (by norm_num))

/-- A clear bit is found whenever there is one. -/
theorem bitMapScan_one_isSome {bm : BitMap} {i : ℕ} (hi : i < bm.bits) (h : bm.bit i = false) :
    ∃ j, bitMapScan bm 1 = some j := by
  cases hs : bitMapScan bm 1 with
  | none => simp [bitMapScan_one_eq_none hs i hi] at h
  | some j => exact ⟨j, rfl⟩

theorem bitMapScanAndSet_one (bm : BitMap) :
    bitMapScanAndSet bm 1 true = match bitMapScan bm 1 with
      | none => (none, bm)
      | some i => (some i, bitMapSet bm i true) := by
  unfold bitMapScanAndSet
  cases bitMapScan bm 1 <;> rfl

section Runs

theorem bitMapSetRun_bit (v : Bool) : ∀ cnt (bm : BitMap) idx j,
    (bitMapSetRun bm v cnt idx).bit j = if idx ≤ j ∧ j < idx + cnt then v else bm.bit j := by
  intro cnt
  induction cnt with
  | zero =>
    intro bm idx j
    rw [if_neg (by omega)]
    rfl
  | succ cnt ih =>
    intro bm idx j
    rw [bitMapSetRun, ih, bitMapSet_bit]
    by_cases hj : j = idx
    · rw [if_neg (by omega), if_pos hj, if_pos (by omega)]
    · by_cases hr : idx + 1 ≤ j ∧ j < idx + 1 + cnt
      · rw [if_pos hr, if_pos (by omega)]
      · rw [if_neg hr, if_neg hj, if_neg (by omega)]

@[simp] theorem bitMapSetRun_length (v : Bool) : ∀ cnt (bm : BitMap) idx,
    (bitMapSetRun bm v cnt idx).length = bm.length
  | 0, _, _ => rfl
  | cnt + 1, bm, idx => bitMapSetRun_length v cnt (bitMapSet bm idx v) (idx + 1)

theorem bitMapTest_eq_bit {bm : BitMap} {i : ℕ} (hi : i < bm.bits) (hlen : bm.bits < 2 ^ 32) :
    bitMapTest bm i = bm.bit i := by
  unfold BitMap.bits at hi hlen
  unfold bitMapTest BitMap.bit
  rw [Nat.mod_eq_of_lt (by omega), if_neg (by omega), Nat.testBit_eq_decide_div_mod_eq,
    Nat.shiftRight_eq_div_pow]

/-- The counter of the scan is the number of clear bits right before the next bit. -/
theorem scanRun_spec {bm : BitMap} {cnt : ℕ} (hlen : bm.bits < 2 ^ 32) :
    ∀ leftBit nextBit fdCnt i, nextBit + leftBit = bm.bits → fdCnt ≤ nextBit →
      (∀ j, nextBit - fdCnt ≤ j → j < nextBit → bm.bit j = false) →
      scanRun bm cnt leftBit nextBit fdCnt = some i → 0 < cnt →
      i + cnt ≤ bm.bits ∧ ∀ j, i ≤ j → j < i + cnt → bm.bit j = false := by
  intro leftBit
  induction leftBit with
  | zero =>
    intro nextBit fdCnt i _ _ _ h _
    simp [scanRun] at h
  | succ leftBit ih =>
    intro nextBit fdCnt i hsum hle hclear h hcnt
    rw [scanRun, bitMapTest_eq_bit (by omega) hlen] at h
    cases hb : bm.bit nextBit with
    | true =>
      simp only [hb, ↓reduceIte] at h
      rw [if_neg (by omega)] at h
      exact ih (nextBit + 1) 0 i (by omega) (by omega) (by omega) h hcnt
    | false =>
      have hclear' : ∀ j, nextBit + 1 - (fdCnt + 1) ≤ j → j < nextBit + 1 → bm.bit j = false := by
        intro j h1 h2
        rcases Nat.lt_succ_iff_lt_or_eq.mp h2 with hlt | rfl
        · exact hclear j (by omega) hlt
        · exact hb
      simp only [hb, Bool.false_eq_true, ↓reduceIte] at h
      split_ifs at h with heq
      · simp only [Option.some.injEq] at h
        subst h
        exact ⟨by omega, fun j h1 h2 => hclear' j (by omega) (by omega)⟩
      · exact ih (nextBit + 1) (fdCnt + 1) i (by omega) (by omega) hclear' h hcnt

/-- A scan for `cnt` bits finds clear bits of the bitmap. -/
theorem bitMapScan_eq_some {bm : BitMap} {cnt i : ℕ} (hlen : bm.bits < 2 ^ 32) (hcnt : 0 < cnt)
    (h : bitMapScan bm cnt = some i) :
    i + cnt ≤ bm.bits ∧ ∀ j, i ≤ j → j < i + cnt → bm.bit j = false := by
  have hone : ∀ k, bitMapScan bm 1 = some k → k < bm.bits ∧ bm.bit k = false := fun k hk =>
    ⟨(bitMapScan_one_eq_some hk).1, (bitMapScan_one_eq_some hk).2.1⟩
  unfold bitMapScan at h hone
  simp only [↓reduceIte] at h hone
  split_ifs at h with hend h1
  · obtain ⟨hlt, hbit⟩ := hone i (by rw [if_neg hend]; exact h)
    refine ⟨by omega, fun j hj hj' => ?_⟩
    obtain rfl : j = i := by omega
    exact hbit
  · obtain ⟨hlt, hbit⟩ := hone _ (if_neg hend)
    apply scanRun_spec hlen _ _ _ i _ (by omega) _ h hcnt
    · unfold BitMap.bits at hlt ⊢
      omega
    · intro j hj hj'
      rwa [show j = 8 * skipFullBytes bm bm.length 0 +
        skipSetBits (bm.startAddr (skipFullBytes bm bm.length 0)) 8 0 by omega]

end Runs

section Counting

/-- Number of clear bits. -/
def BitMap.clearBits (bm : BitMap) : ℕ :=
  ((Finset.range bm.bits).filter fun i => bm.bit i = false).card

theorem exists_scan_of_clearBits (bm : BitMap) (h : 0 < bm.clearBits) :
    ∃ i, bitMapScan bm 1 = some i := by
  obtain ⟨i, hi⟩ := Finset.card_pos.mp h
  obtain ⟨hlt, hbit⟩ := Finset.mem_filter.mp hi
  exact bitMapScan_one_isSome (Finset.mem_range.mp hlt) hbit

theorem clearBits_set {bm : BitMap} {i : ℕ} (hi : i < bm.bits) (hbit : bm.bit i = false) :
    (bitMapSet bm i true).clearBits + 1 = bm.clearBits := by
  have herase : (Finset.range bm.bits).filter (fun j => (bitMapSet bm i true).bit j = false) =
      ((Finset.range bm.bits).filter fun j => bm.bit j = false).erase i := by
    ext j
    by_cases hji : j = i <;> simp [bitMapSet_bit, hji]
  unfold BitMap.clearBits
  rw [bitMapSet_bits, herase]
  exact Finset.card_erase_add_one (Finset.mem_filter.mpr ⟨Finset.mem_range.mpr hi, hbit⟩)

end Counting

section Undo

/-- A bitmap is its bits. -/
theorem bitMap_eq_of_bit {a b : BitMap} (hlen : a.length = b.length)
    (h : ∀ i, a.bit i = b.bit i) : a = b := by
  cases a with | mk n f =>
  cases b with | mk m g =>
  obtain rfl : n = m := hlen
  congr 1
  funext k
  apply UInt8.toNat_inj.mp
  apply Nat.eq_of_testBit_eq
  intro j
  by_cases hj : j < 8
  · have hbit := h (8 * k + j)
    unfold BitMap.bit at hbit
    simpa [show (8 * k + j) / 8 = k by omega, show (8 * k + j) % 8 = j by omega] using hbit
  · have hpow : 2 ^ 8 ≤ 2 ^ j := Nat.pow_le_pow_right (by norm_num) (by omega)
    have hf : (f k).toNat < 2 ^ j := lt_of_lt_of_le (f k).toNat_lt hpow
    have hg : (g k).toNat < 2 ^ j := lt_of_lt_of_le (g k).toNat_lt hpow
    rw [Nat.testBit_lt_two_pow hf, Nat.testBit_lt_two_pow hg]

/-- A bit that was clear is set and cleared again. -/
theorem bitMapSet_undo {bm : BitMap} {i : ℕ} (h : bm.bit i = false) :
    bitMapSet (bitMapSet bm i true) i false = bm := by
  refine bitMap_eq_of_bit rfl fun j => ?_
  rw [bitMapSet_bit, bitMapSet_bit]
  split_ifs with hj
  · rw [hj, h]
  · rfl

theorem scan_undo {bm : BitMap} {i : ℕ} (h : bitMapScan bm 1 = some i) :
    bitMapSet (bitMapSet bm i true) i false = bm :=
  bitMapSet_undo (bitMapScan_one_eq_some h).2.1

end Undo

end Gogoos
