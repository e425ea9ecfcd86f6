import Mathlib.Tactic

/-!
# Ownership of numbered cells

A pool of `bits` cells, numbered from `base`, with one bit for each cell that tells
whether it is in use, and a family `ref` of references to cells, where zero is the null
reference. `Owns` says that every reference leads to a cell in use, and that no two places
refer to one cell; `Exact` adds that every cell in use is referred to.
-/

namespace Gogoos

variable {ι κ : Type} {base bits : ℕ} {bit bit' : ℕ → Bool} {ref ref' : ι → ℕ}

structure Owns (base bits : ℕ) (bit : ℕ → Bool) (ref : ι → ℕ) : Prop where
  used : ∀ x, ref x ≠ 0 → ∃ n < bits, ref x = base + n ∧ bit n = true
  inj : ∀ x y, ref x = ref y → ref x ≠ 0 → x = y

namespace Owns

/-- A cell that is not in use is referred to from nowhere. -/
theorem ne_fresh (h : Owns base bits bit ref) {n : ℕ} (hn : bit n = false) (hb : 0 < base)
    (x : ι) : ref x ≠ base + n := by
  intro hx
  obtain ⟨m, -, hm, hbit⟩ := h.used x (by omega)
  obtain rfl : m = n := by omega
  simp [hn] at hbit

theorem base_le (h : Owns base bits bit ref) {x : ι} (hx : ref x ≠ 0) : base ≤ ref x := by
  obtain ⟨n, -, hn, -⟩ := h.used x hx
  omega

/-- The bits of cells that are not referred to do not matter. -/
theorem congr_bits (h : Owns base bits bit ref)
    (hbit : ∀ n < bits, (∃ x, ref x = base + n ∧ ref x ≠ 0) → bit' n = bit n) :
    Owns base bits bit' ref := by
  refine ⟨fun x hx => ?_, h.inj⟩
  obtain ⟨n, hn, hr, hb⟩ := h.used x hx
  exact ⟨n, hn, hr, (hbit n hn ⟨x, hr, hx⟩).trans hb⟩

theorem release (h : Owns base bits bit ref) (href : ∀ x, ref' x ≠ 0 → ref' x = ref x)
    (hbit : ∀ n, bit n = true → bit' n = false → ∃ x, ref x = base + n ∧ ref x ≠ 0 ∧ ref' x = 0) :
    Owns base bits bit' ref' := by
  refine ⟨fun x hx => ?_, fun x y hxy hx => ?_⟩
  · have hr := href x hx
    obtain ⟨n, hn, hk, hset⟩ := h.used x (hr ▸ hx)
    refine ⟨n, hn, hr.trans hk, ?_⟩
    by_contra hclear
    obtain ⟨y, hy, hy0, hy'⟩ := hbit n hset (by simpa using hclear)
    obtain rfl : y = x := h.inj y x (hy.trans hk.symm) hy0
    exact hx hy'
  · have hy : ref' y ≠ 0 := by rwa [← hxy]
    rw [href x hx, href y hy] at hxy
    exact h.inj x y hxy (by rwa [← href x hx])

variable [DecidableEq ι]

theorem alloc (h : Owns base bits bit ref) (hb : 0 < base) {n : ℕ} (hn : n < bits)
    (hfree : bit n = false) (hset : bit' n = true) (hbit : ∀ m, m ≠ n → bit' m = bit m)
    (x : ι) : Owns base bits bit' (Function.update ref x (base + n)) := by
  refine ⟨fun y hy => ?_, fun y z hyz hy => ?_⟩
  · by_cases hyx : y = x
    · subst hyx
      exact ⟨n, hn, by simp, hset⟩
    · rw [Function.update_of_ne hyx] at hy ⊢
      obtain ⟨m, hm, hr, hbm⟩ := h.used y hy
      have hmn : m ≠ n := by
        rintro rfl
        simp [hfree] at hbm
      exact ⟨m, hm, hr, (hbit m hmn).trans hbm⟩
  · by_cases hyx : y = x <;> by_cases hzx : z = x
    · rw [hyx, hzx]
    · rw [hyx, Function.update_self, Function.update_of_ne hzx] at hyz
      exact absurd hyz.symm (h.ne_fresh hfree hb z)
    · rw [hzx, Function.update_self, Function.update_of_ne hyx] at hyz
      exact absurd hyz (h.ne_fresh hfree hb y)
    · rw [Function.update_of_ne hyx] at hyz hy
      rw [Function.update_of_ne hzx] at hyz
      exact h.inj y z hyz hy

theorem forget (h : Owns base bits bit ref) (x : ι) :
    Owns base bits bit (Function.update ref x 0) := by
  refine ⟨fun y hy => ?_, fun y z hyz hy => ?_⟩
  · by_cases hyx : y = x
    · simp [hyx] at hy
    · rw [Function.update_of_ne hyx] at hy ⊢
      exact h.used y hy
  · by_cases hyx : y = x <;> by_cases hzx : z = x
    · rw [hyx, hzx]
    · simp [hyx] at hy
    · simp [hyz, hzx] at hy
    · rw [Function.update_of_ne hyx] at hyz hy
      rw [Function.update_of_ne hzx] at hyz
      exact h.inj y z hyz hy

theorem free (h : Owns base bits bit ref) {n : ℕ} {x : ι} (hx : ref x = base + n)
    (hbit : ∀ m, m ≠ n → bit' m = bit m) : Owns base bits bit' (Function.update ref x 0) := by
  apply (h.forget x).congr_bits
  rintro m - ⟨y, hy, hy0⟩
  apply hbit
  rintro rfl
  by_cases hyx : y = x
  · simp [hyx] at hy0
  · rw [Function.update_of_ne hyx] at hy hy0
    exact hyx (h.inj y x (hy.trans hx.symm) hy0)

end Owns

/-- Besides, every cell in use is referred to. -/
structure Exact (base bits : ℕ) (bit : ℕ → Bool) (ref : ι → ℕ) : Prop
    extends Owns base bits bit ref where
  covered : ∀ n < bits, bit n = true → ∃ x, ref x = base + n

namespace Exact

theorem congr (h : Exact base bits bit ref) (hbit : ∀ n < bits, bit' n = bit n)
    (href : ∀ x, ref' x = ref x) : Exact base bits bit' ref' := by
  obtain rfl : ref' = ref := funext href
  refine ⟨h.toOwns.congr_bits fun n hn _ => hbit n hn, fun n hn hb => ?_⟩
  exact h.covered n hn ((hbit n hn) ▸ hb)

variable [DecidableEq ι]

theorem alloc (h : Exact base bits bit ref) (hb : 0 < base) {n : ℕ} (hn : n < bits)
    (hfree : bit n = false) (hset : bit' n = true) (hbit : ∀ m, m ≠ n → bit' m = bit m)
    {x : ι} (hx : ref x = 0) : Exact base bits bit' (Function.update ref x (base + n)) := by
  refine ⟨h.toOwns.alloc hb hn hfree hset hbit x, fun m hm hbm => ?_⟩
  by_cases hmn : m = n
  · exact ⟨x, by simp [hmn]⟩
  · obtain ⟨y, hy⟩ := h.covered m hm ((hbit m hmn) ▸ hbm)
    have hyx : y ≠ x := by
      rintro rfl
      omega
    exact ⟨y, by rwa [Function.update_of_ne hyx]⟩

theorem free (h : Exact base bits bit ref) {n : ℕ} {x : ι} (hx : ref x = base + n)
    (hclear : bit' n = false) (hbit : ∀ m, m ≠ n → bit' m = bit m) :
    Exact base bits bit' (Function.update ref x 0) := by
  refine ⟨h.toOwns.free hx hbit, fun m hm hbm => ?_⟩
  have hmn : m ≠ n := by
    rintro rfl
    simp [hclear] at hbm
  obtain ⟨y, hy⟩ := h.covered m hm ((hbit m hmn) ▸ hbm)
  have hyx : y ≠ x := by
    rintro rfl
    omega
  exact ⟨y, by rwa [Function.update_of_ne hyx]⟩

end Exact

section Picking

variable {bit'' : ℕ → Bool} {g : ℕ → ℕ} {done n : ℕ}

/-- `done` cells that were free, `g j` the `j`th of them, were taken one after another. -/
structure Picked (bits : ℕ) (bit bit' : ℕ → Bool) (g : ℕ → ℕ) (done : ℕ) : Prop where
  taken : ∀ k, bit' k = true ↔ bit k = true ∨ ∃ j < done, g j = k
  frame : ∀ j < done, g j < bits ∧ bit (g j) = false
  inj : ∀ i < done, ∀ j < done, g i = g j → i = j

namespace Picked

theorem start : Picked bits bit bit g 0 where
  taken k := by simp
  frame j hj := absurd hj (Nat.not_lt_zero j)
  inj i hi := absurd hi (Nat.not_lt_zero i)

theorem push (h : Picked bits bit bit' g done) (hn : n < bits) (hclear : bit' n = false)
    (hbit : ∀ k, bit'' k = if k = n then true else bit' k) :
    Picked bits bit bit'' (Function.update g done n) (done + 1) := by
  have hgd : ∀ j, j < done → Function.update g done n j = g j := fun j hj =>
    Function.update_of_ne (by omega) _ _
  have hold : bit n = false ∧ ∀ j < done, g j ≠ n := by
    have := (h.taken n).not.mp (by simp [hclear])
    push Not at this
    exact ⟨by simpa using this.1, this.2⟩
  constructor
  · intro k
    rw [hbit]
    split_ifs with hk
    · exact ⟨fun _ => .inr ⟨done, by omega, by rw [hk, Function.update_self]⟩, fun _ => rfl⟩
    · rw [h.taken]
      constructor
      · rintro (hm | ⟨j, hj, hjk⟩)
        · exact .inl hm
        · exact .inr ⟨j, by omega, by rw [hgd j hj, hjk]⟩
      · rintro (hm | ⟨j, hj, hjk⟩)
        · exact .inl hm
        · by_cases hjd : j = done
          · rw [hjd, Function.update_self] at hjk
            exact absurd hjk.symm hk
          · rw [hgd j (by omega)] at hjk
            exact .inr ⟨j, by omega, hjk⟩
  · intro j hj
    by_cases hjd : j = done
    · rw [hjd, Function.update_self]
      exact ⟨hn, hold.1⟩
    · rw [hgd j (by omega)]
      exact h.frame j (by omega)
  · intro i hi j hj hij
    by_cases hid : i = done
    · by_cases hjd : j = done
      · omega
      · rw [hid, Function.update_self, hgd j (by omega)] at hij
        exact absurd hij.symm (hold.2 j (by omega))
    · rw [hgd i (by omega)] at hij
      by_cases hjd : j = done
      · rw [hjd, Function.update_self] at hij
        exact absurd hij (hold.2 i (by omega))
      · rw [hgd j (by omega)] at hij
        exact h.inj i (by omega) j (by omega) hij

theorem pop (h : Picked bits bit bit' g (done + 1))
    (hbit : ∀ k, bit'' k = if k = g done then false else bit' k) :
    Picked bits bit bit'' g done := by
  refine ⟨fun k => ?_, fun j hj => h.frame j (by omega), fun i hi j hj => h.inj i (by omega) j
    (by omega)⟩
  rw [hbit]
  split_ifs with hk
  · have hclear := (h.frame done (by omega)).2
    constructor
    · exact fun hc => absurd hc (by decide)
    · rintro (hold | ⟨j, hj, hjk⟩)
      · rw [hk, hclear] at hold
        exact absurd hold (by decide)
      · have := h.inj j (by omega) done (by omega) (hjk.trans hk)
        omega
  · rw [h.taken]
    constructor
    · rintro (hold | ⟨j, hj, hjk⟩)
      · exact .inl hold
      · have hne : j ≠ done := fun hc => hk (by rw [← hjk, hc])
        exact .inr ⟨j, by omega, hjk⟩
    · rintro (hold | ⟨j, hj, hjk⟩)
      · exact .inl hold
      · exact .inr ⟨j, by omega, hjk⟩

end Picked

end Picking

end Gogoos
