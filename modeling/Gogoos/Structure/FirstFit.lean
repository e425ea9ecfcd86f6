import Gogoos.Structure.BitMap

/-!
# First fit

`bitMapScanAndSet` takes the first run of clear bits that is long enough. The scan keeps a count
of the clear bits right before the next one; no run begins before these bits.
-/

namespace Gogoos

variable {bm : BitMap} {cnt i j : ℕ}

section Runs

/-- The `cnt` bits from `i` on exist and are clear. -/
def ClearRun (bm : BitMap) (cnt i : ℕ) : Prop :=
  i + cnt ≤ bm.bits ∧ ∀ j, i ≤ j → j < i + cnt → bm.bit j = false

/-- The least index of a run, if there is one. -/
def FirstRun (bm : BitMap) (cnt : ℕ) : Option ℕ → Prop
  | none => ∀ i, ¬ClearRun bm cnt i
  | some i => ClearRun bm cnt i ∧ ∀ j < i, ¬ClearRun bm cnt j

theorem ClearRun.bit (h : ClearRun bm cnt i) (hi : i ≤ j) (hj : j < i + cnt) :
    bm.bit j = false := h.2 j hi hj

/-- A set bit ends all runs that would reach over it. -/
theorem no_run_of_set (hset : bm.bit j = true) (hi : i ≤ j) (hj : j < i + cnt) :
    ¬ClearRun bm cnt i := by
  intro h
  rw [h.bit hi hj] at hset
  exact absurd hset (by decide)

/-- The run counter, by induction on the bits that are left. The count stays below `cnt`, and no
run begins before the bits that it counts. -/
theorem scanRun_first (hlen : bm.bits < 2 ^ 32) : ∀ leftBit nextBit fdCnt,
    nextBit + leftBit = bm.bits → fdCnt ≤ nextBit → fdCnt < cnt →
    (∀ j, nextBit - fdCnt ≤ j → j < nextBit → bm.bit j = false) →
    (∀ i < nextBit - fdCnt, ¬ClearRun bm cnt i) →
    FirstRun bm cnt (scanRun bm cnt leftBit nextBit fdCnt) := by
  intro leftBit
  induction leftBit with
  | zero =>
    intro nextBit fdCnt hsum hle hlt _ hnone i hrun
    by_cases hi : i < nextBit - fdCnt
    · exact hnone i hi hrun
    · have hend := hrun.1
      omega
  | succ leftBit ih =>
    intro nextBit fdCnt hsum hle hlt hclear hnone
    rw [scanRun, bitMapTest_eq_bit (by omega) hlen]
    cases hb : bm.bit nextBit with
    | true =>
      simp only [↓reduceIte]
      rw [if_neg (by omega)]
      refine ih (nextBit + 1) 0 (by omega) (by omega) (by omega) (by omega) ?_
      intro i hi
      by_cases hold : i < nextBit - fdCnt
      · exact hnone i hold
      · exact no_run_of_set hb (by omega) (by omega)
    | false =>
      have hclear' : ∀ j, nextBit + 1 - (fdCnt + 1) ≤ j → j < nextBit + 1 → bm.bit j = false := by
        intro j h1 h2
        rcases Nat.lt_succ_iff_lt_or_eq.mp h2 with hlt | rfl
        · exact hclear j (by omega) hlt
        · exact hb
      simp only [Bool.false_eq_true, ↓reduceIte]
      split_ifs with heq
      · refine ⟨⟨by omega, fun j h1 h2 => hclear' j (by omega) (by omega)⟩, ?_⟩
        exact fun j hj => hnone j (by omega)
      · refine ih (nextBit + 1) (fdCnt + 1) (by omega) (by omega) (by omega) hclear' ?_
        exact fun i hi => hnone i (by omega)

end Runs

section Scan

theorem bitMapScan_first (hlen : bm.bits < 2 ^ 32) (hcnt : 0 < cnt) :
    FirstRun bm cnt (bitMapScan bm cnt) := by
  cases hone : bitMapScan bm 1 with
  | none =>
    have hset := bitMapScan_one_eq_none hone
    have hnone : bitMapScan bm cnt = none := by
      unfold bitMapScan at hone ⊢
      simp only [↓reduceIte] at hone
      split_ifs at hone with hend
      exact if_pos hend
    rw [hnone]
    intro i hrun
    have hend := hrun.1
    exact no_run_of_set (hset i (by omega)) le_rfl (by omega) hrun
  | some b =>
    obtain ⟨hb, hclear, hset⟩ := bitMapScan_one_eq_some hone
    have hbefore : ∀ i < b, ¬ClearRun bm cnt i := fun i hi =>
      no_run_of_set (hset i hi) le_rfl (by omega)
    have hscan : bitMapScan bm cnt =
        if cnt = 1 then some b else scanRun bm cnt (bm.length * 8 - b - 1) (b + 1) 1 := by
      unfold bitMapScan at hone ⊢
      simp only [↓reduceIte] at hone ⊢
      split_ifs at hone with hend
      rw [if_neg hend, Option.some.inj hone]
    rw [hscan]
    split_ifs with h1
    · refine ⟨⟨by omega, fun j hj hj' => ?_⟩, hbefore⟩
      obtain rfl : j = b := by omega
      exact hclear
    · apply scanRun_first hlen
      · unfold BitMap.bits at hb ⊢
        omega
      · omega
      · omega
      · intro j hj hj'
        obtain rfl : j = b := by omega
        exact hclear
      · exact fun i hi => hbefore i (by omega)

/-- What is returned and what becomes of the bitmap: the first run is set, bit by bit, or
nothing changes. -/
theorem first_fit_law (bm : BitMap) (cnt : ℕ) (hlen : 8 * bm.length < 2 ^ 32) (hcnt : 1 ≤ cnt) :
    match bitMapScanAndSet bm cnt true with
    | (some i, bm') => ClearRun bm cnt i ∧ (∀ j < i, ¬ClearRun bm cnt j) ∧
        bm'.length = bm.length ∧
        ∀ k, bm'.bit k = if i ≤ k ∧ k < i + cnt then true else bm.bit k
    | (none, bm') => (∀ i, ¬ClearRun bm cnt i) ∧ bm' = bm := by
  have hfirst := bitMapScan_first hlen hcnt
  unfold bitMapScanAndSet
  cases hscan : bitMapScan bm cnt with
  | none =>
    rw [hscan] at hfirst
    exact ⟨hfirst, rfl⟩
  | some i =>
    rw [hscan] at hfirst
    exact ⟨hfirst.1, hfirst.2, bitMapSetRun_length _ _ _ _, bitMapSetRun_bit _ _ _ _⟩

/-- Three bits in a row are first found across the border of the first two bytes. -/
theorem first_fit_law_sample : bitMapScan ⟨2, fun k => if k = 0 then 0x2d else 0xf8⟩ 3 = some 6 ∧
    ∀ j < 6, ¬ClearRun ⟨2, fun k => if k = 0 then 0x2d else 0xf8⟩ 3 j := by
  have h := first_fit_law ⟨2, fun k => if k = 0 then 0x2d else 0xf8⟩ 3 (by norm_num) (by norm_num)
  have hscan : bitMapScan ⟨2, fun k => if k = 0 then 0x2d else 0xf8⟩ 3 = some 6 := by decide
  unfold bitMapScanAndSet at h
  rw [hscan] at h
  exact ⟨hscan, h.2.1⟩

end Scan

end Gogoos
