import Gogoos.Kernel.PageMaps

/-!
# Page by page

The loops of `allocPage` and `freePage`: pages are mapped one after another, and taken back one
after another when a frame is missing.
-/

namespace Gogoos.Mem

open Program

variable {m m' : Mem} {e : Unit} {kf uf v n b : ℕ} {pf q : PoolFlag}
  {P P' : PoolFlag → ℕ → Prop} {stop : Mem → Prop}

section Unmapping

theorem Geo.frame_lt (h : Geo m kf uf) (hn : n < (m.pap pf).bitMap.bits) :
    base kf uf pf + n < 2 ^ 20 := by
  have hg := h.gap
  have hh := h.high
  cases pf with
  | user =>
    change n < m.userPap.bitMap.bits at hn
    change uf + n < 2 ^ 20
    omega
  | kernel =>
    change n < m.kernelPap.bitMap.bits at hn
    change kf + n < 2 ^ 20
    omega

theorem wordSub_pages {x y : ℕ} (hxy : x + y < 2 ^ 20) :
    wordSub ((x + y) * 4096) (x * 4096) / 4096 = y := by
  unfold wordSub
  omega

theorem poolOf_frame (h : Geo m kf uf) (hn : n < (m.pap pf).bitMap.bits) :
    m.poolOf ((base kf uf pf + n) * 4096) = pf := by
  have hg := h.gap
  have hs : m.userPap.startAddr = uf * 4096 := h.start .user
  unfold poolOf
  rw [hs]
  cases pf with
  | user => exact if_pos (Nat.mul_le_mul_right _ (Nat.le_add_right _ _))
  | kernel =>
    change n < m.kernelPap.bitMap.bits at hn
    refine if_neg ?_
    change ¬(kf + n) * 4096 ≥ uf * 4096
    omega

theorem wp_addrV2P {f : ℕ} (hw : m.walk v = some f) :
    wp noStop e (addrV2P (v * 4096)) (fun a r => a = f * 4096 ∧ r = m) m := by
  unfold walk at hw
  split_ifs at hw with hpres
  unfold addrV2P readPte
  rw [wp_bind_assoc, wp_get_bind, Nat.mul_div_cancel _ (by norm_num), if_pos hpres.1,
    wp_pure_bind]
  refine wp_pure.mpr ⟨?_, rfl⟩
  rw [Option.some.inj hw, Nat.mul_mod_left, Nat.add_zero]

theorem wp_freePhyAddr (h : Geo m kf uf) (hn : n < (m.pap pf).bitMap.bits) :
    wp noStop e (freePhyAddr ((base kf uf pf + n) * 4096))
      (fun _ r => r = m.setPapBit pf n false) m := by
  unfold freePhyAddr
  rw [wp_get_bind, wp_modify, poolOf_frame h hn]
  rw [h.start, wordSub_pages (h.frame_lt hn)]

theorem wp_unmapPageTable (hpde : present (m.pde (v / 1024)) = true) :
    wp noStop e (unmapPageTable (v * 4096))
      (fun _ r => r = m.setPte v (m.pte v - m.pte v % 2)) m := by
  unfold unmapPageTable readPte
  rw [wp_bind_assoc, wp_get_bind, Nat.mul_div_cancel _ (by norm_num), if_pos hpde, wp_pure_bind,
    wp_modify]

/-- The state in which a page and its frame were given back. -/
def unmapped (m : Mem) (pf : PoolFlag) (v n : ℕ) : Mem :=
  (m.setPapBit pf n false).setPte v (m.pte v - m.pte v % 2)

theorem unmapped_same : SamePools m (m.unmapped pf v n) :=
  samePools_setPapBit.trans samePools_setPte

theorem unmapped_walk {x : ℕ} (hx : x ≠ v) : (m.unmapped pf v n).walk x = m.walk x := by
  have h : (m.unmapped pf v n).walk x =
      ((m.setPapBit pf n false).setPte v (m.pte v - m.pte v % 2)).walk x := rfl
  rw [h, walk_setPte_ne hx, walk_setPapBit]

/-- Giving a page back, in the order of the code. -/
theorem wp_unmap {α : Type} {g : MemM α} {Q : α → Mem → Prop}
    (h : Geo m kf uf) (hw : m.walk v = some (base kf uf pf + n))
    (hn : n < (m.pap pf).bitMap.bits) (hg : wp stop e g Q (m.unmapped pf v n)) :
    wp stop e (do freePhyAddr ((base kf uf pf + n) * 4096); unmapPageTable (v * 4096); g) Q m := by
  apply wp_call (wp_of_noStop (wp_freePhyAddr h hn))
  rintro ⟨⟩ _ rfl
  have hpde : present ((m.setPapBit pf n false).pde (v / 1024)) = true := by
    unfold walk at hw
    split_ifs at hw with hpres
    rw [setPapBit_pde]
    exact hpres.1
  apply wp_call (wp_of_noStop (wp_unmapPageTable hpde))
  rintro ⟨⟩ _ rfl
  simp only [setPapBit_pte]
  exact hg

/-- `P` and `cnt` pages of `pf` from `b` on. -/
def addRange (P : PoolFlag → ℕ → Prop) (pf : PoolFlag) (b cnt : ℕ) : PoolFlag → ℕ → Prop :=
  fun q w => P q w ∨ (q = pf ∧ b ≤ w ∧ w < b + cnt)

theorem wp_unmapBack : ∀ cnt m, Maps m kf uf (addRange P pf b cnt) → 0 < b →
    (∀ i < cnt, ¬P pf (b + i)) →
    wp noStop e (unmapBack cnt ((b + cnt) * 4096 - 4096))
      (fun _ r => SamePools m r ∧ Maps r kf uf P) m := by
  intro cnt
  induction cnt with
  | zero =>
    intro m h _ _
    refine wp_pure.mpr ⟨.refl, h.congr fun q w => ?_⟩
    unfold addRange
    exact ⟨fun hx => hx.resolve_right (by omega), .inl⟩
  | succ cnt ih =>
    intro m h hb hnot
    have hP : addRange P pf b (cnt + 1) pf (b + cnt) := .inr ⟨rfl, by omega, by omega⟩
    obtain ⟨n, hn, hw, -, -⟩ := h.frame hP
    have hv : (b + (cnt + 1)) * 4096 - 4096 = (b + cnt) * 4096 := by omega
    unfold unmapBack
    rw [hv]
    apply wp_call (wp_addrV2P hw)
    rintro paddr r ⟨rfl, hr⟩
    rw [hr]
    apply wp_unmap h.geo hw hn
    have hmaps : Maps (m.unmapped pf (b + cnt) n) kf uf (addRange P pf b cnt) := by
      refine (h.unmapPage hP hw).congr fun q w => ?_
      unfold addRange
      constructor
      · rintro ⟨hp | ⟨rfl, hlo, hhi⟩, hne⟩
        · exact .inl hp
        · refine .inr ⟨rfl, hlo, ?_⟩
          by_contra hc
          exact hne ⟨rfl, by omega⟩
      · rintro (hp | ⟨rfl, hlo, hhi⟩)
        · refine ⟨.inl hp, ?_⟩
          rintro ⟨rfl, rfl⟩
          exact hnot cnt (by omega) hp
        · exact ⟨.inr ⟨rfl, hlo, by omega⟩, by omega⟩
    refine wp_mono (ih _ hmaps hb fun i hi => hnot i (by omega)) ?_
    rintro _ r ⟨hs, hr⟩
    exact ⟨unmapped_same.trans hs, hr⟩

/-- `P` without `cnt` pages of `pf` from `b` on. -/
def cutRange (P : PoolFlag → ℕ → Prop) (pf : PoolFlag) (b cnt : ℕ) : PoolFlag → ℕ → Prop :=
  fun q w => P q w ∧ ¬(q = pf ∧ b ≤ w ∧ w < b + cnt)

/-- The loop of `freePage`, when the first frame of the user pool is not among the pages. -/
theorem wp_freeFrames : ∀ cnt b m, Maps m kf uf P → (∀ i < cnt, P pf (b + i)) →
    (pf = .user → ∀ i < cnt, m.walk (b + i) ≠ some uf) → ∀ {R : PoolFlag → ℕ → Prop},
    (∀ q w, R q w ↔ cutRange P pf b cnt q w) →
    wp noStop e (freeFrames (pf = .user) cnt (b * 4096))
      (fun _ r => SamePools m r ∧ Maps r kf uf R) m := by
  intro cnt
  induction cnt generalizing P with
  | zero =>
    intro b m h _ _ R hR
    refine wp_pure.mpr ⟨.refl, h.congr fun q w => ?_⟩
    rw [hR]
    unfold cutRange
    exact ⟨fun hp => ⟨hp, by omega⟩, And.left⟩
  | succ cnt ih =>
    intro b m h hP hfirst R hR
    have hPb : P pf b := hP 0 (by omega)
    obtain ⟨n, hn, hw, -, -⟩ := h.frame hPb
    have hlt := h.geo.frame_lt hn
    unfold freeFrames
    apply wp_call (wp_addrV2P hw)
    rintro paddr r ⟨rfl, hr⟩
    rw [hr]
    rw [wp_get_bind, wp_assert_pos (Nat.mul_mod_left _ _)]
    apply wp_call (R := fun _ r => r = m)
    · have hus : m.userPap.startAddr = uf * 4096 := h.geo.start .user
      have hks : m.kernelPap.startAddr = kf * 4096 := h.geo.start .kernel
      have hgap := h.geo.gap
      cases pf with
      | user =>
        have hne : n ≠ 0 := by
          rintro rfl
          exact hfirst rfl 0 (by omega) hw
        have hin : m.userPap.startAddr < (base kf uf .user + n) * 4096 := by
          rw [hus]
          unfold base
          dsimp only
          omega
        simp only [decide_true, if_true]
        exact wp_assert.mpr ⟨fun _ => rfl, fun hc => absurd hin hc⟩
      | kernel =>
        have hin : m.kernelPap.startAddr ≤ (base kf uf .kernel + n) * 4096 ∧
            (base kf uf .kernel + n) * 4096 < m.userPap.startAddr := by
          rw [hus, hks]
          simp only [base, pap] at hn ⊢
          omega
        exact wp_assert.mpr ⟨fun _ => rfl, fun hc => absurd hin hc⟩
    rintro ⟨⟩ r hr
    rw [hr]
    apply wp_unmap h.geo hw hn
    have hnext : b * 4096 + 4096 = (b + 1) * 4096 := by omega
    rw [hnext]
    have hmaps := h.unmapPage hPb hw
    refine wp_mono (ih (b + 1) _ hmaps ?_ ?_ (R := R) ?_) ?_
    · intro i hi
      refine ⟨?_, by omega⟩
      have := hP (i + 1) (by omega)
      rwa [show b + (i + 1) = b + 1 + i by omega] at this
    · intro hpf i hi
      have hx : b + 1 + i ≠ b := by omega
      have hwalk : (m.unmapped pf b n).walk (b + 1 + i) = m.walk (b + 1 + i) := unmapped_walk hx
      have := hfirst hpf (i + 1) (by omega)
      rw [show b + (i + 1) = b + 1 + i by omega] at this
      exact fun hc => this (hwalk ▸ hc)
    · intro q w
      rw [hR]
      unfold cutRange
      constructor
      · rintro ⟨hp, hne⟩
        refine ⟨⟨hp, ?_⟩, ?_⟩
        · rintro ⟨hq, hw⟩
          exact hne ⟨hq, by omega, by omega⟩
        · rintro ⟨hq, hlo, hhi⟩
          exact hne ⟨hq, by omega, by omega⟩
      · rintro ⟨⟨hp, hne⟩, hne'⟩
        refine ⟨hp, ?_⟩
        rintro ⟨hq, hlo, hhi⟩
        by_cases hwb : w = b
        · exact hne ⟨hq, hwb⟩
        · exact hne' ⟨hq, by omega, by omega⟩
    · rintro _ r ⟨hs, hr⟩
      exact ⟨unmapped_same.trans hs, hr⟩

end Unmapping

section Mapping

/-- The page tables that the `cnt` pages from `v` on lack in a directory. -/
def lacking (pde : ℕ → ℕ) (v cnt : ℕ) : Finset ℕ :=
  ((Finset.range cnt).image fun i => (v + i) / 1024).filter fun d => present (pde d) = false

theorem mem_lacking {pde : ℕ → ℕ} (habs : present (pde (v / 1024)) = false) :
    v / 1024 ∈ lacking pde v (n + 1) :=
  Finset.mem_filter.mpr ⟨Finset.mem_image.mpr ⟨0, by simp, rfl⟩, habs⟩

theorem lacking_succ {pde pde' : ℕ → ℕ}
    (hpde : ∀ d, present (pde d) = true → present (pde' d) = true) :
    lacking pde' (v + 1) n ⊆ lacking pde v (n + 1) := by
  intro d hd
  obtain ⟨himg, habs⟩ := Finset.mem_filter.mp hd
  obtain ⟨i, hi, rfl⟩ := Finset.mem_image.mp himg
  refine Finset.mem_filter.mpr ⟨Finset.mem_image.mpr ⟨i + 1, ?_, ?_⟩, ?_⟩
  · simpa using hi
  · rw [show v + (i + 1) = v + 1 + i by omega]
  · by_contra hc
    have := hpde _ (by simpa using hc)
    simp [habs] at this

/-- The table of the first page was entered. -/
theorem lacking_table {pde pde' : ℕ → ℕ} (habs : present (pde (v / 1024)) = false)
    (hkept : ∀ d, present (pde d) = true → present (pde' d) = true)
    (hnew : present (pde' (v / 1024)) = true) :
    (lacking pde' (v + 1) n).card < (lacking pde v (n + 1)).card := by
  refine Finset.card_lt_card (Finset.ssubset_iff_subset_ne.mpr ⟨lacking_succ hkept, fun hc => ?_⟩)
  have hmem := mem_lacking (n := n) habs
  rw [← hc] at hmem
  have hlacks := (Finset.mem_filter.mp hmem).2
  rw [hnew] at hlacks
  exact absurd hlacks (by decide)

/-- The page tables that the `cnt` pages from `v` on lack. -/
def missing (m : Mem) (v cnt : ℕ) : Finset ℕ := lacking m.pde v cnt

/-- The kernel pool has a frame for every page table that mapping `left` pages from `v` on may
take, before the frames of the user pool run out. -/
def Reserve (m : Mem) (pf : PoolFlag) (v left : ℕ) : Prop :=
  pf = .user → (m.missing v (min left m.userPap.bitMap.clearBits)).card ≤
    m.kernelPap.bitMap.clearBits

theorem missing_succ (hpde : ∀ d, present (m.pde d) = true → present (m'.pde d) = true) :
    m'.missing (v + 1) n ⊆ m.missing v (n + 1) := lacking_succ hpde

theorem mem_missing (habs : present (m.pde (v / 1024)) = false) :
    v / 1024 ∈ m.missing v (n + 1) := mem_lacking habs

theorem wp_allocPhyAddr (h : Geo m kf uf) :
    wp stop e (allocPhyAddr pf) (fun o r => (o = none ∧ r = m) ∨
      ∃ n < (m.pap pf).bitMap.bits, (m.pap pf).bitMap.bit n = false ∧
        o = some ((base kf uf pf + n) * 4096) ∧ r = m.setPapBit pf n true) m := by
  unfold allocPhyAddr
  rw [wp_get_bind]
  cases hscan : bitMapScan (m.pap pf).bitMap 1 with
  | none => exact wp_pure.mpr (.inl ⟨rfl, rfl⟩)
  | some n =>
    obtain ⟨hn, hfree, -⟩ := bitMapScan_one_eq_some hscan
    refine wp_modify_bind.mpr (wp_pure.mpr (.inr ⟨n, hn, hfree, ?_, rfl⟩))
    rw [h.start, Nat.add_mul, Nat.add_comm]

/-- With a clear bit in the kernel pool the allocation succeeds. -/
theorem wp_allocTable (h : Geo m kf uf) (hpos : 0 < m.kernelPap.bitMap.clearBits) :
    wp stop e (allocPhyAddr .kernel) (fun o r => ∃ n < m.kernelPap.bitMap.bits,
      m.kernelPap.bitMap.bit n = false ∧ o = some ((kf + n) * 4096) ∧
        r = m.setPapBit .kernel n true) m := by
  obtain ⟨i, hi⟩ := exists_scan_of_clearBits _ hpos
  obtain ⟨hn, hfree, -⟩ := bitMapScan_one_eq_some hi
  have hs : m.kernelPap.startAddr = kf * 4096 := h.start .kernel
  have hscan : bitMapScan (m.pap .kernel).bitMap 1 = some i := hi
  unfold allocPhyAddr
  rw [wp_get_bind, hscan]
  refine wp_modify_bind.mpr (wp_pure.mpr ⟨i, hn, hfree, ?_, rfl⟩)
  change some (i * 4096 + m.kernelPap.startAddr) = _
  rw [hs, Nat.add_mul, Nat.add_comm]

/-- The kernel has all its tables. -/
theorem Geo.user_of_absent (h : Geo m kf uf) (hin : InArea m pf v)
    (habs : present (m.pde (v / 1024)) = false) : pf = .user ∧ v / 1024 < 768 := by
  cases pf with
  | user =>
    have := h.area_user hin
    exact ⟨rfl, by omega⟩
  | kernel =>
    have hv := h.area_kernel hin
    have := h.tables (v / 1024) (by omega) (by omega)
    simp [habs] at this

theorem setTable_comm {k d w : ℕ} :
    ((m.setPapBit .user n true).setPapBit .kernel k true).setTable d w =
      ((m.setPapBit .kernel k true).setTable d w).setPapBit .user n true := rfl

/-- A page and its table were added. -/
theorem reserve_table {left k w : ℕ} (hk : k < m.kernelPap.bitMap.bits)
    (hkfree : m.kernelPap.bitMap.bit k = false)
    (hmem : v / 1024 ∈ m.missing v (min left (bitMapSet m.userPap.bitMap n true).clearBits + 1))
    (hle : (m.missing v (min left (bitMapSet m.userPap.bitMap n true).clearBits + 1)).card ≤
      m.kernelPap.bitMap.clearBits) {x : ℕ} :
    Reserve ((((m.setPapBit .kernel k true).setTable (v / 1024) (mkEntry (w * 4096))).setPapBit
      .user n true).setPte v x) .user (v + 1) left := by
  intro _
  set r := (((m.setPapBit .kernel k true).setTable (v / 1024) (mkEntry (w * 4096))).setPapBit
    .user n true).setPte v x with hr
  have huser : r.userPap.bitMap = bitMapSet m.userPap.bitMap n true := rfl
  have hkernel : r.kernelPap.bitMap = bitMapSet m.kernelPap.bitMap k true := rfl
  have hpde : ∀ d, present (r.pde d) = true ↔ d = v / 1024 ∨ present (m.pde d) = true := by
    intro d
    change present (if d = v / 1024 then mkEntry (w * 4096) else m.pde d) = true ↔ _
    by_cases hd : d = v / 1024 <;> simp [hd]
  rw [huser, hkernel]
  have hlt : (r.missing (v + 1) (min left (bitMapSet m.userPap.bitMap n true).clearBits)).card <
      (m.missing v (min left (bitMapSet m.userPap.bitMap n true).clearBits + 1)).card :=
    lacking_table (Finset.mem_filter.mp hmem).2 (fun d hd => (hpde d).mpr (.inr hd))
      ((hpde _).mpr (.inl rfl))
  have := clearBits_set hk hkfree
  omega

/-- One page of `allocPage`, whose frame was just taken. -/
theorem wp_mapPageTable {left : ℕ} (h : Maps m kf uf P) (hin : InArea m pf v) (hP : ¬P pf v)
    (hn : n < (m.pap pf).bitMap.bits) (hfree : (m.pap pf).bitMap.bit n = false)
    (hres : Reserve m pf v (left + 1)) :
    wp anyStop e (mapPageTable (v * 4096) ((base kf uf pf + n) * 4096)) (fun _ r =>
      SamePools m r ∧ Maps r kf uf (fun q w => P q w ∨ (q = pf ∧ w = v)) ∧
        Reserve r pf (v + 1) left) (m.setPapBit pf n true) := by
  have hclear : pf = .user → (bitMapSet m.userPap.bitMap n true).clearBits + 1 =
      m.userPap.bitMap.clearBits := by
    rintro rfl
    exact clearBits_set hn hfree
  have hmin : ∀ c, min (left + 1) (c + 1) = min left c + 1 := fun c => by omega
  unfold mapPageTable
  rw [wp_get_bind, Nat.mul_div_cancel _ (by norm_num), setPapBit_pde, setPapBit_pte]
  apply wp_ite
  · intro hpde
    apply wp_ite
    · intro _
      refine wp_modify.mpr ⟨samePools_setPapBit.trans samePools_setPte,
        h.mapPage hin hP hn hfree hpde, ?_⟩
      rintro rfl
      have hle := hres rfl
      rw [← hclear rfl, hmin] at hle
      exact (Finset.card_le_card (missing_succ fun _ hd => hd)).trans hle
    · exact fun _ => wp_halt.mpr trivial
  intro habs
  have habs : present (m.pde (v / 1024)) = false := by simpa using habs
  obtain ⟨rfl, hd⟩ := h.geo.user_of_absent hin habs
  have hle := hres rfl
  rw [← hclear rfl, hmin] at hle
  have hmem := mem_missing (n := min left (bitMapSet m.userPap.bitMap n true).clearBits) habs
  have hpos : 0 < m.kernelPap.bitMap.clearBits :=
    (Finset.card_pos.mpr ⟨_, hmem⟩).trans_le hle
  have hgeo : Geo (m.setPapBit .user n true) kf uf := h.geo.same samePools_setPapBit
  apply wp_call (wp_allocTable hgeo hpos)
  rintro _ r ⟨k, hk, hkfree, rfl, hr⟩
  rw [hr, wp_modify_bind, wp_modify, Option.getD_some, setTable_comm]
  have hk : k < m.kernelPap.bitMap.bits := hk
  have hkfree : m.kernelPap.bitMap.bit k = false := hkfree
  have htable := h.addTable hd habs hk hkfree
  have hs : SamePools m ((m.setPapBit .kernel k true).setTable (v / 1024)
      (mkEntry ((kf + k) * 4096))) :=
    samePools_setPapBit.trans (samePools_setTable (present_mkEntry _))
  have hpres : present (((m.setPapBit .kernel k true).setTable (v / 1024)
      (mkEntry ((kf + k) * 4096))).pde (v / 1024)) = true := by simp
  refine ⟨(hs.trans samePools_setPapBit).trans samePools_setPte,
    htable.mapPage (hs.inArea.mpr hin) hP hn hfree hpres, ?_⟩
  exact reserve_table hk hkfree hmem hle

/-- The loop of `allocPage`, with `done` pages from `b` on mapped. -/
theorem wp_mapPages : ∀ left done m, Maps m kf uf (addRange P pf b done) → 0 < b →
    (∀ i < done + left, InArea m pf (b + i) ∧ ¬P pf (b + i)) → Reserve m pf (b + done) left →
    wp anyStop e (mapPages pf left done ((b + done) * 4096)) (fun ok r => SamePools m r ∧
      Maps r kf uf (if ok then addRange P pf b (done + left) else P)) m := by
  intro left
  induction left with
  | zero => exact fun done m h _ _ _ => wp_pure.mpr ⟨.refl, h⟩
  | succ left ih =>
    intro done m h hb hnew hres
    unfold mapPages
    apply wp_call (wp_allocPhyAddr h.geo)
    rintro o r (⟨rfl, hr⟩ | ⟨n, hn, hfree, rfl, hr⟩)
    · rw [hr]
      apply wp_call (wp_of_noStop (wp_unmapBack done m h hb fun i hi => (hnew i (by omega)).2))
      rintro ⟨⟩ r' hr'
      exact wp_pure.mpr hr'
    · rw [hr]
      obtain ⟨hin, hnot⟩ := hnew done (by omega)
      have hnot' : ¬addRange P pf b done pf (b + done) := by
        rintro (hp | ⟨-, -, hlt⟩)
        · exact hnot hp
        · omega
      apply wp_call (wp_mapPageTable h hin hnot' hn hfree hres)
      rintro ⟨⟩ r' ⟨hs, hr', hres'⟩
      have hnext : (b + done) * 4096 + 4096 = (b + (done + 1)) * 4096 := by omega
      rw [hnext]
      refine wp_mono (ih (done + 1) r' (hr'.congr fun q w => ?_) hb ?_ hres') ?_
      · unfold addRange
        constructor
        · rintro ((hp | ⟨hq, hlo, hhi⟩) | ⟨hq, hw⟩)
          · exact .inl hp
          · exact .inr ⟨hq, hlo, by omega⟩
          · exact .inr ⟨hq, by omega, by omega⟩
        · rintro (hp | ⟨hq, hlo, hhi⟩)
          · exact .inl (.inl hp)
          · by_cases hw : w = b + done
            · exact .inr ⟨hq, hw⟩
            · exact .inl (.inr ⟨hq, hlo, by omega⟩)
      · intro i hi
        obtain ⟨hi1, hi2⟩ := hnew i (by omega)
        exact ⟨hs.inArea.mpr hi1, hi2⟩
      · rintro ok r'' ⟨hs', hr''⟩
        rw [show done + (left + 1) = done + 1 + left by omega]
        exact ⟨hs.trans hs', hr''⟩

end Mapping

end Gogoos.Mem
