import Gogoos.Kernel.Tables
import Gogoos.Structure.Ownership

/-!
# What the page allocator keeps

The frames of a pool that are in use are exactly those behind the mapped pages of its kind,
and for the kernel pool those of the page tables of user space. One page is mapped or unmapped
at a time.
-/

namespace Gogoos.Mem

open Program

variable {m m' : Mem} {e : Unit} {kf uf v n : ℕ} {pf q : PoolFlag}
  {P P' : PoolFlag → ℕ → Prop}

section Geometry

/-- The first frame of a pool. -/
def base (kf uf : ℕ) : PoolFlag → ℕ
  | .user => uf
  | .kernel => kf

/-- The first page that a pool of virtual addresses hands out. -/
def vbase : PoolFlag → ℕ
  | .user => 8
  | .kernel => 0xc0100

/-- The pools do not overlap, neither in physical nor in virtual memory, and the kernel has its
page tables. -/
structure Geo (m : Mem) (kf uf : ℕ) : Prop where
  start : ∀ pf, (m.pap pf).startAddr = base kf uf pf * 4096
  vstart : ∀ pf, (m.vpool pf).startAddr = vbase pf * 4096
  low : 0x102 < kf
  gap : kf + m.kernelPap.bitMap.bits ≤ uf
  high : uf + m.userPap.bitMap.bits ≤ 2 ^ 20
  uvEnd : 8 + m.vap.bitMap.bits ≤ 0xc0000
  kvEnd : 0xc0100 + m.kernelVap.bitMap.bits ≤ 0xffc00
  tables : ∀ d, 768 ≤ d → d < 1023 → present (m.pde d) = true

/-- The pages that a pool of virtual addresses is about. -/
def InArea (m : Mem) (pf : PoolFlag) (v : ℕ) : Prop :=
  vbase pf ≤ v ∧ v < vbase pf + (m.vpool pf).bitMap.bits

instance (m : Mem) (pf : PoolFlag) (v : ℕ) : Decidable (InArea m pf v) := by
  unfold InArea
  infer_instance

theorem Geo.area_user (h : Geo m kf uf) (hin : InArea m .user v) : 8 ≤ v ∧ v < 0xc0000 := by
  have hu := h.uvEnd
  have hlo : 8 ≤ v := hin.1
  have hhi : v < 8 + m.vap.bitMap.bits := hin.2
  omega

theorem Geo.area_kernel (h : Geo m kf uf) (hin : InArea m .kernel v) :
    0xc0100 ≤ v ∧ v < 0xffc00 := by
  have hk := h.kvEnd
  have hlo : 0xc0100 ≤ v := hin.1
  have hhi : v < 0xc0100 + m.kernelVap.bitMap.bits := hin.2
  omega

theorem Geo.area_lt (h : Geo m kf uf) (hin : InArea m pf v) : 0 < v ∧ v < 2 ^ 20 := by
  cases pf with
  | user =>
    have := h.area_user hin
    omega
  | kernel =>
    have := h.area_kernel hin
    omega

theorem Geo.area_unique (h : Geo m kf uf) (hp : InArea m pf v) (hq : InArea m q v) : pf = q := by
  cases pf with
  | user =>
    cases q with
    | user => rfl
    | kernel =>
      have := h.area_user hp
      have := h.area_kernel hq
      omega
  | kernel =>
    cases q with
    | user =>
      have := h.area_kernel hp
      have := h.area_user hq
      omega
    | kernel => rfl

theorem Geo.base_pos (h : Geo m kf uf) : 0 < base kf uf pf := by
  have := h.low
  have := h.gap
  cases pf <;> simp only [base] <;> omega

end Geometry

section References

/-- The frame behind a page of a pool, or of a page table of user space, which belongs to the
kernel's pool; 0 when there is none. -/
def ref (m : Mem) (pf : PoolFlag) : ℕ ⊕ ℕ → ℕ
  | .inl v => if InArea m pf v then (m.walk v).getD 0 else 0
  | .inr d =>
    if pf = .kernel ∧ d < 768 ∧ present (m.pde d) = true then entryFrame (m.pde d) else 0

/-- Exactly the pages in `P` are mapped, and a frame is in use exactly when it is behind one of
them or is a page table. -/
structure Maps (m : Mem) (kf uf : ℕ) (P : PoolFlag → ℕ → Prop) : Prop where
  geo : Geo m kf uf
  mapped : ∀ pf v, m.ref pf (.inl v) ≠ 0 ↔ P pf v
  frames : ∀ pf, Exact (base kf uf pf) (m.pap pf).bitMap.bits (m.pap pf).bitMap.bit (m.ref pf)

theorem Maps.congr (h : Maps m kf uf P) (hP : ∀ pf v, P pf v ↔ P' pf v) : Maps m kf uf P' :=
  ⟨h.geo, fun pf v => (h.mapped pf v).trans (hP pf v), h.frames⟩

theorem Maps.inArea (h : Maps m kf uf P) (hp : P pf v) : InArea m pf v := by
  have := (h.mapped pf v).mpr hp
  unfold ref at this
  by_contra hc
  exact this (if_neg hc)

/-- A mapped page has a frame of its pool. -/
theorem Maps.frame (h : Maps m kf uf P) (hp : P pf v) :
    ∃ n < (m.pap pf).bitMap.bits, m.walk v = some (base kf uf pf + n) ∧
      m.ref pf (.inl v) = base kf uf pf + n ∧ (m.pap pf).bitMap.bit n = true := by
  have hne := (h.mapped pf v).mpr hp
  obtain ⟨n, hn, hr, hb⟩ := (h.frames pf).used (.inl v) hne
  refine ⟨n, hn, ?_, hr, hb⟩
  have hin := h.inArea hp
  unfold ref at hr
  dsimp only at hr
  rw [if_pos hin] at hr
  have hpos : 0 < base kf uf pf := h.geo.base_pos
  cases hw : m.walk v with
  | none =>
    rw [hw] at hr
    simp only [Option.getD_none] at hr
    omega
  | some f =>
    rw [hw] at hr
    exact congrArg some hr

/-- The pools of virtual addresses are the same, and so is where the others lie. -/
structure SamePools (m m' : Mem) : Prop where
  start : ∀ pf, (m'.pap pf).startAddr = (m.pap pf).startAddr
  bits : ∀ pf, (m'.pap pf).bitMap.bits = (m.pap pf).bitMap.bits
  vpool : ∀ pf, m'.vpool pf = m.vpool pf
  pde : ∀ d, present (m.pde d) = true → present (m'.pde d) = true

theorem SamePools.refl : SamePools m m := ⟨fun _ => rfl, fun _ => rfl, fun _ => rfl, fun _ h => h⟩

theorem SamePools.trans {m'' : Mem} (h : SamePools m m') (h' : SamePools m' m'') :
    SamePools m m'' :=
  ⟨fun pf => (h'.start pf).trans (h.start pf), fun pf => (h'.bits pf).trans (h.bits pf),
    fun pf => (h'.vpool pf).trans (h.vpool pf), fun d hd => h'.pde d (h.pde d hd)⟩

theorem Geo.same (h : Geo m kf uf) (hs : SamePools m m') : Geo m' kf uf where
  start pf := (hs.start pf).trans (h.start pf)
  vstart pf := (congrArg _ (hs.vpool pf)).trans (h.vstart pf)
  low := h.low
  gap := (hs.bits .kernel).symm ▸ h.gap
  high := (hs.bits .user).symm ▸ h.high
  uvEnd := by
    have : m'.vap = m.vap := hs.vpool .user
    rw [this]
    exact h.uvEnd
  kvEnd := by
    have : m'.kernelVap = m.kernelVap := hs.vpool .kernel
    rw [this]
    exact h.kvEnd
  tables d hd hd' := hs.pde d (h.tables d hd hd')

theorem SamePools.inArea (h : SamePools m m') : InArea m' pf v ↔ InArea m pf v := by
  unfold InArea
  rw [h.vpool]

@[simp] theorem pap_setPapBit_self {i : ℕ} {b : Bool} :
    (m.setPapBit pf i b).pap pf =
      { m.pap pf with bitMap := bitMapSet (m.pap pf).bitMap i b } := by
  cases pf <;> rfl

theorem pap_setPapBit_ne {i : ℕ} {b : Bool} (h : q ≠ pf) : (m.setPapBit pf i b).pap q = m.pap q := by
  cases pf <;> cases q <;> first | rfl | exact absurd rfl h

theorem samePools_setPapBit {i : ℕ} {b : Bool} : SamePools m (m.setPapBit pf i b) where
  start q := by
    by_cases h : q = pf
    · subst h
      simp
    · rw [pap_setPapBit_ne h]
  bits q := by
    by_cases h : q = pf
    · subst h
      simp
    · rw [pap_setPapBit_ne h]
  vpool q := by cases pf <;> cases q <;> rfl
  pde d h := by rwa [setPapBit_pde]

theorem samePools_setPte {w : ℕ} : SamePools m (m.setPte v w) :=
  ⟨fun pf => by cases pf <;> rfl, fun pf => by cases pf <;> rfl, fun pf => by cases pf <;> rfl,
    fun _ h => h⟩

theorem samePools_setTable {d w : ℕ} (hw : present w = true) : SamePools m (m.setTable d w) :=
  ⟨fun pf => by cases pf <;> rfl, fun pf => by cases pf <;> rfl, fun pf => by cases pf <;> rfl,
    fun d' h => by
      by_cases hd : d' = d
      · simp [hd, hw]
      · simpa [hd] using h⟩

@[simp] theorem pap_setPte {w : ℕ} : (m.setPte v w).pap q = m.pap q := by cases q <;> rfl

@[simp] theorem pap_setTable {d w : ℕ} : (m.setTable d w).pap q = m.pap q := by cases q <;> rfl

end References

section OnePage

theorem walk_setPte_self {f : ℕ} (hd : present (m.pde (v / 1024)) = true) :
    (m.setPte v (mkEntry (f * 4096))).walk v = some f := by
  simp [walk, hd]

theorem walk_setPte_ne {w x : ℕ} (hx : x ≠ v) : (m.setPte v w).walk x = m.walk x := by
  simp [walk, hx]

@[simp] theorem walk_setPapBit {i : ℕ} {b : Bool} : (m.setPapBit pf i b).walk v = m.walk v :=
  walk_congr setPapBit_pde setPapBit_pte

/-- Nothing is mapped through a new table. -/
theorem walk_setTable {d w x : ℕ} (habs : present (m.pde d) = false) :
    (m.setTable d w).walk x = m.walk x := by
  by_cases hx : x / 1024 = d
  · have hold : m.walk x = none := walk_eq_none_of_pde (by rwa [hx])
    rw [hold]
    exact walk_eq_none_of_pte (by simp [hx, present])
  · simp [walk, hx]

/-- The references of a state in which one page of `pf` leads elsewhere. -/
theorem ref_page (hs : SamePools m m') (hpde : m'.pde = m.pde) {f : ℕ} (hin : InArea m pf v)
    (hv : (m'.walk v).getD 0 = f) (hother : ∀ x, x ≠ v → m'.walk x = m.walk x) :
    m'.ref pf = Function.update (m.ref pf) (.inl v) f := by
  funext x
  cases x with
  | inl x =>
    by_cases hx : x = v
    · subst hx
      simp [ref, hs.inArea, hin, hv]
    · have hne : (Sum.inl x : ℕ ⊕ ℕ) ≠ .inl v := fun hc => hx (Sum.inl.inj hc)
      rw [Function.update_of_ne hne]
      simp only [ref, hs.inArea, hother x hx]
  | inr d =>
    have hne : (Sum.inr d : ℕ ⊕ ℕ) ≠ .inl v := by simp
    rw [Function.update_of_ne hne]
    simp only [ref, hpde]

theorem ref_other (h : Geo m kf uf) (hs : SamePools m m') (hpde : m'.pde = m.pde)
    (hin : InArea m pf v) (hq : q ≠ pf) (hother : ∀ x, x ≠ v → m'.walk x = m.walk x) :
    m'.ref q = m.ref q := by
  funext x
  cases x with
  | inl x =>
    simp only [ref, hs.inArea]
    by_cases hx : InArea m q x
    · have hxv : x ≠ v := by
        rintro rfl
        exact hq (h.area_unique hx hin)
      rw [hother x hxv]
    · rw [if_neg hx, if_neg hx]
  | inr d => simp only [ref, hpde]

/-- A page gets a free frame. -/
theorem Maps.mapPage (h : Maps m kf uf P) (hin : InArea m pf v) (hP : ¬P pf v)
    (hn : n < (m.pap pf).bitMap.bits) (hfree : (m.pap pf).bitMap.bit n = false)
    (hpde : present (m.pde (v / 1024)) = true) :
    Maps ((m.setPapBit pf n true).setPte v (mkEntry ((base kf uf pf + n) * 4096))) kf uf
      fun q w => P q w ∨ (q = pf ∧ w = v) := by
  set m' := (m.setPapBit pf n true).setPte v (mkEntry ((base kf uf pf + n) * 4096)) with hm'
  have hs : SamePools m m' := samePools_setPapBit.trans samePools_setPte
  have hd : m'.pde = m.pde := setPapBit_pde
  have hv : (m'.walk v).getD 0 = base kf uf pf + n := by
    rw [hm', walk_setPte_self (by rwa [setPapBit_pde])]
    rfl
  have hother : ∀ x, x ≠ v → m'.walk x = m.walk x := fun x hx => by
    rw [hm', walk_setPte_ne hx, walk_setPapBit]
  have hself := ref_page hs hd hin hv hother
  have hzero : m.ref pf (.inl v) = 0 := by
    by_contra hc
    exact hP ((h.mapped pf v).mp hc)
  have hpos : 0 < base kf uf pf := h.geo.base_pos
  refine ⟨h.geo.same hs, ?_, ?_⟩
  · intro q w
    by_cases hq : q = pf
    · subst hq
      rw [hself]
      by_cases hw : w = v
      · subst hw
        simp only [Function.update_self]
        exact ⟨fun _ => .inr (by simp), fun _ => by omega⟩
      · rw [Function.update_of_ne fun hc => hw (Sum.inl.inj hc), h.mapped]
        simp [hw]
    · rw [ref_other h.geo hs hd hin hq hother, h.mapped]
      simp [hq]
  · intro q
    by_cases hq : q = pf
    · subst hq
      rw [hself]
      simp only [hm', pap_setPte, pap_setPapBit_self, bitMapSet_bits]
      exact (h.frames q).alloc hpos hn hfree (bitMapSet_bit_self _ _ _)
        (fun k hk => bitMapSet_bit_ne _ _ hk) hzero
    · rw [ref_other h.geo hs hd hin hq hother, hm', pap_setPte, pap_setPapBit_ne hq]
      exact h.frames q

/-- A page gives its frame back. -/
theorem Maps.unmapPage (h : Maps m kf uf P) (hP : P pf v)
    (hw : m.walk v = some (base kf uf pf + n)) :
    Maps ((m.setPapBit pf n false).setPte v (m.pte v - m.pte v % 2)) kf uf
      fun q w => P q w ∧ ¬(q = pf ∧ w = v) := by
  set m' := (m.setPapBit pf n false).setPte v (m.pte v - m.pte v % 2) with hm'
  have hs : SamePools m m' :=
    samePools_setPapBit.trans samePools_setPte
  have hin := h.inArea hP
  have hd : m'.pde = m.pde := setPapBit_pde
  have hodd : (m.pte v - m.pte v % 2) % 2 ≠ 1 := by omega
  have hv : (m'.walk v).getD 0 = 0 := by
    have : m'.walk v = none := walk_eq_none_of_pte (by simp [hm', present, hodd])
    rw [this]
    rfl
  have hother : ∀ x, x ≠ v → m'.walk x = m.walk x := fun x hx => by
    have : m'.walk x = ((m.setPapBit pf n false).setPte v (m.pte v - m.pte v % 2)).walk x := rfl
    rw [this, walk_setPte_ne hx, walk_setPapBit]
  have hself := ref_page hs hd hin hv hother
  have href : m.ref pf (.inl v) = base kf uf pf + n := by simp [ref, hin, hw]
  refine ⟨h.geo.same hs, ?_, ?_⟩
  · intro q w
    by_cases hq : q = pf
    · subst hq
      rw [hself]
      by_cases hx : w = v
      · subst hx
        simp
      · rw [Function.update_of_ne fun hc => hx (Sum.inl.inj hc), h.mapped]
        simp [hx]
    · rw [ref_other h.geo hs hd hin hq hother, h.mapped]
      simp [hq]
  · intro q
    by_cases hq : q = pf
    · subst hq
      rw [hself]
      simp only [hm', pap_setPte, pap_setPapBit_self, bitMapSet_bits]
      exact (h.frames q).free href (bitMapSet_bit_self _ _ _)
        fun k hk => bitMapSet_bit_ne _ _ hk
    · rw [ref_other h.geo hs hd hin hq hother, hm', pap_setPte, pap_setPapBit_ne hq]
      exact h.frames q

/-- A page table of user space gets a frame of the kernel. -/
theorem Maps.addTable (h : Maps m kf uf P) {d : ℕ} (hd : d < 768)
    (habs : present (m.pde d) = false) (hn : n < m.kernelPap.bitMap.bits)
    (hfree : m.kernelPap.bitMap.bit n = false) :
    Maps ((m.setPapBit .kernel n true).setTable d (mkEntry ((kf + n) * 4096))) kf uf P := by
  set m' := (m.setPapBit .kernel n true).setTable d (mkEntry ((kf + n) * 4096)) with hm'
  have hs : SamePools m m' := samePools_setPapBit.trans (samePools_setTable (present_mkEntry _))
  have hwalk : ∀ x, m'.walk x = m.walk x := fun x => by
    rw [hm', walk_setTable (by rwa [setPapBit_pde]), walk_setPapBit]
  have huser : m'.ref .user = m.ref .user := by
    funext x
    cases x with
    | inl x => simp only [ref, hs.inArea, hwalk]
    | inr x => simp [ref]
  have hkernel : m'.ref .kernel = Function.update (m.ref .kernel) (.inr d) (kf + n) := by
    funext x
    cases x with
    | inl x =>
      rw [Function.update_of_ne (by simp)]
      simp only [ref, hs.inArea, hwalk]
    | inr x =>
      by_cases hx : x = d
      · subst hx
        simp [ref, hm', hd]
      · rw [Function.update_of_ne fun hc => hx (Sum.inr.inj hc)]
        simp [ref, hm', hx]
  have hzero : m.ref .kernel (.inr d) = 0 := by simp [ref, habs]
  refine ⟨h.geo.same hs, ?_, ?_⟩
  · intro q w
    cases q with
    | user => rw [huser, h.mapped]
    | kernel => rw [hkernel, Function.update_of_ne (by simp), h.mapped]
  · intro q
    cases q with
    | user =>
      rw [huser, hm', pap_setTable, pap_setPapBit_ne (by decide)]
      exact h.frames .user
    | kernel =>
      rw [hkernel]
      simp only [hm', pap_setTable, pap_setPapBit_self, bitMapSet_bits]
      exact (h.frames .kernel).alloc h.geo.base_pos hn hfree (bitMapSet_bit_self _ _ _)
        (fun k hk => bitMapSet_bit_ne _ _ hk) hzero

end OnePage

end Gogoos.Mem
