import Gogoos.Kernel.PageSteps
import Gogoos.Logic.Run

/-!
# Accounts of the page allocator

Runs of `allocPage`, and of `freePage` on the ranges that it returned, from the pools of
`memPoolInit`. The bitmaps account for exactly the live ranges and the page tables, as long as
the first frame of the user pool is not freed, which `freePage` takes for a frame outside the
pool, and no page table is needed when the kernel pool has no frame left.
-/

namespace Gogoos.Mem

open Program

/-- What a call of `allocPage` returned. -/
structure PageRange where
  pf : PoolFlag
  virPageAddr : ℕ
  pageCnt : ℕ
  deriving DecidableEq

structure Accounts where
  mem : Mem
  live : List PageRange

inductive PageEvent where
  | alloc (pf : PoolFlag) (pageCnt : ℕ)
  | free (range : PageRange)

variable {m m' : Mem} {e : Unit} {a a' : Accounts} {kf uf v n b cnt : ℕ} {pf q : PoolFlag}
  {P P' : PoolFlag → ℕ → Prop}

section System

def PageRange.Has (r : PageRange) (v : ℕ) : Prop :=
  r.virPageAddr / 4096 ≤ v ∧ v < r.virPageAddr / 4096 + r.pageCnt

/-- A page of a live range of a pool. -/
def Accounts.Live (a : Accounts) (pf : PoolFlag) (v : ℕ) : Prop :=
  ∃ r ∈ a.live, r.pf = pf ∧ r.Has v

inductive AccStep (cond : Mem → PageEvent → Prop) : Accounts → Accounts → Prop where
  | alloc {a : Accounts} {pf pageCnt virPageAddr m'} : cond a.mem (.alloc pf pageCnt) →
      Returns () (allocPage pf pageCnt) a.mem (some virPageAddr) m' →
      AccStep cond a ⟨m', ⟨pf, virPageAddr, pageCnt⟩ :: a.live⟩
  | fail {a : Accounts} {pf pageCnt m'} : cond a.mem (.alloc pf pageCnt) →
      Returns () (allocPage pf pageCnt) a.mem none m' → AccStep cond a ⟨m', a.live⟩
  | free {a : Accounts} {r m'} : r ∈ a.live → cond a.mem (.free r) →
      Returns () (freePage r.pf r.virPageAddr r.pageCnt) a.mem () m' →
      AccStep cond a ⟨m', a.live.erase r⟩

/-- The kernel pool has the frames for the page tables that are missing, and the first frame of
the user pool is not freed. -/
def Sound (m : Mem) : PageEvent → Prop
  | .alloc pf pageCnt => ∀ i, bitMapScan (m.vpool pf).bitMap pageCnt = some i →
      Reserve m pf ((m.vpool pf).startAddr / 4096 + i) pageCnt
  | .free r => ∀ i < r.pageCnt,
      m.walk (r.virPageAddr / 4096 + i) ≠ some (m.userPap.startAddr / 4096)

/-- The accounts with respect to the calls of `freePage` that meet a condition. -/
structure AccLaw (cond : Mem → PageEvent → Prop) (a : Accounts) : Prop where
  free : ∀ r ∈ a.live, cond a.mem (.free r) →
    ∀ m', ¬Stops () (freePage r.pf r.virPageAddr r.pageCnt) a.mem m'
  apart : a.live.Pairwise fun r r' => ∀ v, ¬(r.Has v ∧ r'.Has v)
  frame : ∀ pf v, a.Live pf v → ∃ f, a.mem.walk v = some f ∧
    (a.mem.pap pf).startAddr ≤ f * 4096 ∧
    f * 4096 < (a.mem.pap pf).startAddr + (a.mem.pap pf).bitMap.bits * 4096
  distinct : ∀ pf q v w, a.Live pf v → a.Live q w → a.mem.walk v = a.mem.walk w → v = w
  vap : ∀ pf, ∀ i < (a.mem.vpool pf).bitMap.bits, (a.mem.vpool pf).bitMap.bit i = true ↔
    a.Live pf ((a.mem.vpool pf).startAddr / 4096 + i)
  userPap : ∀ i < a.mem.userPap.bitMap.bits, a.mem.userPap.bitMap.bit i = true ↔
    ∃ v, a.Live .user v ∧ a.mem.walk v = some (a.mem.userPap.startAddr / 4096 + i)
  kernelPap : ∀ i < a.mem.kernelPap.bitMap.bits, a.mem.kernelPap.bitMap.bit i = true ↔
    (∃ v, a.Live .kernel v ∧ a.mem.walk v = some (a.mem.kernelPap.startAddr / 4096 + i)) ∨
    ∃ d < 768, present (a.mem.pde d) = true ∧
      entryFrame (a.mem.pde d) = a.mem.kernelPap.startAddr / 4096 + i

end System

section Virtual

/-- The bits of the virtual pools are those of the pages in `P`. -/
def VBits (m : Mem) (P : PoolFlag → ℕ → Prop) : Prop :=
  ∀ pf, ∀ i < (m.vpool pf).bitMap.bits, (m.vpool pf).bitMap.bit i = true ↔ P pf (vbase pf + i)

theorem VBits.congr (h : VBits m P) (hm : ∀ pf, m'.vpool pf = m.vpool pf)
    (hP : ∀ pf v, P pf v ↔ P' pf v) : VBits m' P' := by
  intro pf i hi
  rw [hm] at hi ⊢
  exact (h pf i hi).trans (hP _ _)

@[simp] theorem vpool_setVap_self {bm : BitMap} :
    (m.setVap pf bm).vpool pf = { m.vpool pf with bitMap := bm } := by cases pf <;> rfl

theorem vpool_setVap_ne {bm : BitMap} (h : q ≠ pf) : (m.setVap pf bm).vpool q = m.vpool q := by
  cases pf <;> cases q <;> first | rfl | exact absurd rfl h

@[simp] theorem pap_setVap {bm : BitMap} : (m.setVap pf bm).pap q = m.pap q := by
  cases pf <;> cases q <;> rfl

theorem startAddr_setVap {bm : BitMap} :
    ((m.setVap pf bm).vpool q).startAddr = (m.vpool q).startAddr := by
  cases pf <;> cases q <;> rfl

theorem bits_setVap {val : Bool} {i : ℕ} :
    ((m.setVap pf (bitMapSetRun (m.vpool pf).bitMap val cnt i)).vpool q).bitMap.bits =
      (m.vpool q).bitMap.bits := by
  by_cases hq : q = pf
  · subst hq
    simp [BitMap.bits]
  · rw [vpool_setVap_ne hq]

/-- The pools of virtual addresses have no part in the layout. -/
theorem Geo.setVap (h : Geo m kf uf) {val : Bool} {i : ℕ} :
    Geo (m.setVap pf (bitMapSetRun (m.vpool pf).bitMap val cnt i)) kf uf := by
  set m' := m.setVap pf (bitMapSetRun (m.vpool pf).bitMap val cnt i) with hm'
  have hbits : ∀ q, (m'.vpool q).bitMap.bits = (m.vpool q).bitMap.bits := fun q => bits_setVap
  have hpap : ∀ q, m'.pap q = m.pap q := fun q => pap_setVap
  have hkernel : m'.kernelPap = m.kernelPap := hpap .kernel
  have huser : m'.userPap = m.userPap := hpap .user
  have huv : m'.vap.bitMap.bits = m.vap.bitMap.bits := hbits .user
  have hkv : m'.kernelVap.bitMap.bits = m.kernelVap.bitMap.bits := hbits .kernel
  constructor
  · intro q
    rw [hpap]
    exact h.start q
  · intro q
    rw [startAddr_setVap]
    exact h.vstart q
  · exact h.low
  · rw [hkernel]
    exact h.gap
  · rw [huser]
    exact h.high
  · rw [huv]
    exact h.uvEnd
  · rw [hkv]
    exact h.kvEnd
  · rw [show m'.pde = m.pde from setVap_pde]
    exact h.tables

theorem Geo.vbits_lt (h : Geo m kf uf) : (m.vpool pf).bitMap.bits < 2 ^ 32 := by
  have hu := h.uvEnd
  have hk := h.kvEnd
  cases pf with
  | user =>
    change m.vap.bitMap.bits < 2 ^ 32
    omega
  | kernel =>
    change m.kernelVap.bitMap.bits < 2 ^ 32
    omega

/-- Nor in the mappings. -/
theorem Maps.setVap (h : Maps m kf uf P) {val : Bool} {i : ℕ} :
    Maps (m.setVap pf (bitMapSetRun (m.vpool pf).bitMap val cnt i)) kf uf P := by
  set m' := m.setVap pf (bitMapSetRun (m.vpool pf).bitMap val cnt i) with hm'
  have hbits : ∀ q, (m'.vpool q).bitMap.bits = (m.vpool q).bitMap.bits := fun q => bits_setVap
  have hpde : m'.pde = m.pde := setVap_pde
  have hwalk : ∀ x, m'.walk x = m.walk x := fun x => walk_congr setVap_pde setVap_pte
  have hin : ∀ q x, InArea m' q x ↔ InArea m q x := fun q x => by
    unfold InArea
    rw [hbits]
  have href : ∀ q, m'.ref q = m.ref q := by
    intro q
    funext x
    cases x with
    | inl x => simp only [ref, hin, hwalk]
    | inr x => simp only [ref, hpde]
  refine ⟨h.geo.setVap, fun q x => ?_, fun q => ?_⟩
  · rw [href]
    exact h.mapped q x
  · rw [href, show m'.pap q = m.pap q from pap_setVap]
    exact h.frames q

theorem VBits.setVap (h : VBits m P) {val : Bool} {i : ℕ}
    (hP : ∀ q w, P' q w ↔ if q = pf ∧ vbase pf + i ≤ w ∧ w < vbase pf + i + cnt then val = true
      else P q w) :
    VBits (m.setVap pf (bitMapSetRun (m.vpool pf).bitMap val cnt i)) P' := by
  intro q j hj
  rw [bits_setVap] at hj
  by_cases hq : q = pf
  · subst hq
    rw [hP, vpool_setVap_self, bitMapSetRun_bit]
    by_cases hr : i ≤ j ∧ j < i + cnt
    · rw [if_pos hr, if_pos ⟨rfl, by omega, by omega⟩]
    · rw [if_neg hr, if_neg (by omega)]
      exact h q j hj
  · rw [hP, vpool_setVap_ne hq, if_neg fun hc => hq hc.1]
    exact h q j hj

theorem wp_freeVirAddr (h : Geo m kf uf) {i : ℕ} (hi : vbase pf + i < 2 ^ 20) :
    wp noStop e (freeVirAddr pf ((vbase pf + i) * 4096) cnt)
      (fun _ r => r = m.setVap pf (bitMapSetRun (m.vpool pf).bitMap false cnt i)) m := by
  unfold freeVirAddr
  rw [wp_get_bind, wp_modify, h.vstart, wordSub_pages hi]

end Virtual

section Calls

/-- The pages that `allocVirAddr` finds were not mapped. -/
theorem scan_fresh (h : Maps m kf uf P) (hv : VBits m P) (hcnt : 0 < cnt) {i : ℕ}
    (hscan : bitMapScan (m.vpool pf).bitMap cnt = some i) :
    ∀ j < cnt, InArea m pf (vbase pf + i + j) ∧ ¬P pf (vbase pf + i + j) := by
  obtain ⟨hend, hclear⟩ := bitMapScan_eq_some h.geo.vbits_lt hcnt hscan
  intro j hj
  refine ⟨⟨by omega, by omega⟩, fun hp => ?_⟩
  have hbit := hclear (i + j) (by omega) (by omega)
  rw [Nat.add_assoc] at hp
  rw [(hv pf (i + j) (by omega)).mpr hp] at hbit
  exact absurd hbit (by decide)

theorem wp_allocPage (h : Maps m kf uf P) (hv : VBits m P) (hc : m.Sound (.alloc pf cnt)) :
    wp anyStop e (allocPage pf cnt) (fun o r =>
      match o with
      | none => Maps r kf uf P ∧ VBits r P
      | some virPageAddr => ∃ b, virPageAddr = b * 4096 ∧ 0 < cnt ∧
          (∀ i < cnt, InArea m pf (b + i) ∧ ¬P pf (b + i)) ∧
          Maps r kf uf (addRange P pf b cnt) ∧ VBits r (addRange P pf b cnt)) m := by
  unfold allocPage
  rw [wp_assert_bind]
  refine ⟨fun ⟨hcnt, _⟩ => ?_, fun _ => trivial⟩
  apply wp_call (R := fun o r => match o with
    | none => r = m
    | some virPageAddr => ∃ i, bitMapScan (m.vpool pf).bitMap cnt = some i ∧
        virPageAddr = (vbase pf + i) * 4096 ∧
        r = m.setVap pf (bitMapSetRun (m.vpool pf).bitMap true cnt i))
  · unfold allocVirAddr bitMapScanAndSet
    rw [wp_get_bind]
    cases hscan : bitMapScan (m.vpool pf).bitMap cnt with
    | none => exact wp_pure.mpr rfl
    | some i =>
      refine wp_modify_bind.mpr (wp_assert_bind.mpr ⟨fun _ => wp_pure.mpr ⟨i, rfl, ?_, rfl⟩,
        fun _ => trivial⟩)
      rw [h.geo.vstart, Nat.add_mul]
  intro o r hr
  cases o with
  | none =>
    obtain rfl : r = m := hr
    exact wp_pure.mpr ⟨h, hv⟩
  | some virPageAddr =>
    obtain ⟨i, hscan, rfl, hr⟩ := hr
    have hfresh := scan_fresh h hv hcnt hscan
    have hres := hc i hscan
    rw [h.geo.vstart, Nat.mul_div_cancel _ (by norm_num)] at hres
    have hmaps : Maps r kf uf (addRange P pf (vbase pf + i) 0) := by
      rw [hr]
      exact h.setVap.congr fun q w => ⟨.inl, fun hp => hp.resolve_right (by omega)⟩
    have hvbits : VBits r (addRange P pf (vbase pf + i) cnt) := by
      rw [hr]
      refine hv.setVap fun q w => ?_
      unfold addRange
      split_ifs with hq
      · simp [hq]
      · simp [hq]
    have harea : ∀ j < 0 + cnt, InArea r pf (vbase pf + i + j) ∧ ¬P pf (vbase pf + i + j) := by
      intro j hj
      obtain ⟨h1, h2⟩ := hfresh j (by omega)
      refine ⟨?_, h2⟩
      unfold InArea
      rw [hr, bits_setVap]
      exact h1
    have hres' : Reserve r pf (vbase pf + i + 0) cnt := by
      intro hpf
      have hpde : r.pde = m.pde := by
        rw [hr]
        exact setVap_pde
      have hu : r.userPap = m.userPap := by
        rw [hr]
        exact pap_setVap (q := .user)
      have hk : r.kernelPap = m.kernelPap := by
        rw [hr]
        exact pap_setVap (q := .kernel)
      unfold missing
      rw [hpde, hu, hk]
      exact hres hpf
    have hpos := (h.geo.area_lt (hfresh 0 hcnt).1).1
    have hlt := (h.geo.area_lt (hfresh 0 hcnt).1).2
    apply wp_call (wp_mapPages cnt 0 r hmaps hpos harea hres')
    rintro ok r' ⟨hs, hr'⟩
    apply wp_ite
    · rintro rfl
      refine wp_pure.mpr ⟨vbase pf + i, rfl, hcnt, hfresh, ?_, ?_⟩
      · simpa using hr'
      · exact hvbits.congr hs.vpool fun _ _ => Iff.rfl
    intro hok
    rw [if_neg hok] at hr'
    apply wp_call (wp_of_noStop (wp_freeVirAddr hr'.geo hlt))
    rintro ⟨⟩ r'' rfl
    rw [wp_assert_bind]
    refine ⟨fun _ => wp_pure.mpr ⟨hr'.setVap, ?_⟩, fun _ => trivial⟩
    refine VBits.setVap (hvbits.congr hs.vpool fun _ _ => Iff.rfl) fun q w => ?_
    unfold addRange
    split_ifs with hq
    · obtain ⟨rfl, hlo, hhi⟩ := hq
      have := (hfresh (w - (vbase q + i)) (by omega)).2
      rw [show vbase q + i + (w - (vbase q + i)) = w by omega] at this
      simp [this]
    · simp [hq]

theorem wp_freePage (h : Maps m kf uf P) (hv : VBits m P) (hcnt : 0 < cnt)
    (hP : ∀ i < cnt, P pf (b + i)) (hfirst : ∀ i < cnt, m.walk (b + i) ≠ some uf) :
    wp noStop e (freePage pf (b * 4096) cnt)
      (fun _ r => Maps r kf uf (cutRange P pf b cnt) ∧ VBits r (cutRange P pf b cnt)) m := by
  obtain ⟨n, hn, hw, -, -⟩ := h.frame (hP 0 hcnt)
  have hin := h.inArea (hP 0 hcnt)
  have hlow := h.geo.low
  have hgap := h.geo.gap
  have hbase : 0x102 < base kf uf pf := by
    cases pf with
    | user =>
      change 0x102 < uf
      omega
    | kernel => exact hlow
  unfold freePage
  rw [wp_assert_pos ⟨hcnt, Nat.mul_mod_left _ _⟩]
  apply wp_call (wp_addrV2P hw)
  rintro paddr r ⟨rfl, hr⟩
  rw [hr, wp_assert_pos ⟨Nat.mul_mod_left _ _, by omega⟩, wp_get_bind, poolOf_frame h.geo hn]
  apply wp_call (wp_freeFrames cnt b m h hP (fun _ => hfirst) fun _ _ => Iff.rfl)
  rintro ⟨⟩ r' ⟨hs, hr'⟩
  obtain ⟨i, rfl⟩ := Nat.exists_eq_add_of_le hin.1
  apply wp_mono (wp_freeVirAddr hr'.geo (h.geo.area_lt hin).2)
  rintro ⟨⟩ r'' rfl
  refine ⟨hr'.setVap, VBits.setVap (hv.congr hs.vpool fun _ _ => Iff.rfl) fun q w => ?_⟩
  unfold cutRange
  split_ifs with hq
  · simp [hq]
  · simp [hq]

end Calls

section Law

variable {r r' : PageRange}

/-- What every step keeps. -/
structure Kept (a : Accounts) (kf uf : ℕ) : Prop where
  maps : Maps a.mem kf uf a.Live
  vbits : VBits a.mem a.Live
  apart : a.live.Pairwise fun r r' => ∀ v, ¬(r.Has v ∧ r'.Has v)
  ranges : ∀ r ∈ a.live, 0 < r.pageCnt ∧ r.virPageAddr % 4096 = 0

theorem Kept.pages (h : Kept a kf uf) (hr : r ∈ a.live) : ∃ b, r.virPageAddr = b * 4096 ∧
    (∀ v, r.Has v ↔ b ≤ v ∧ v < b + r.pageCnt) ∧ ∀ i < r.pageCnt, a.Live r.pf (b + i) := by
  obtain ⟨hcnt, hmod⟩ := h.ranges r hr
  have haddr : r.virPageAddr = r.virPageAddr / 4096 * 4096 := by omega
  exact ⟨r.virPageAddr / 4096, haddr, fun v => Iff.rfl,
    fun i hi => ⟨r, hr, rfl, Nat.le_add_right _ _, by omega⟩⟩

theorem Kept.nodup (h : Kept a kf uf) : a.live.Nodup := by
  refine h.apart.imp_of_mem fun {r r'} hr _ hne heq => ?_
  obtain ⟨hcnt, -⟩ := h.ranges r hr
  have hhas : r.Has (r.virPageAddr / 4096) := ⟨le_rfl, by omega⟩
  exact hne _ ⟨hhas, heq ▸ hhas⟩

theorem Kept.eq_of_has (h : Kept a kf uf) (hr : r ∈ a.live) (hr' : r' ∈ a.live) (hv : r.Has v)
    (hv' : r'.Has v) : r = r' := by
  have : Std.Symm fun r r' : PageRange => ∀ v, ¬(r.Has v ∧ r'.Has v) :=
    ⟨fun _ _ hxy w hw => hxy w hw.symm⟩
  by_contra hne
  exact h.apart.forall hr hr' hne v ⟨hv, hv'⟩

theorem live_cons {l : List PageRange} :
    (Accounts.mk m' (⟨pf, b * 4096, cnt⟩ :: l)).Live q v ↔
      addRange (Accounts.mk m l).Live pf b cnt q v := by
  unfold Accounts.Live addRange PageRange.Has
  simp only [List.mem_cons, exists_eq_or_imp, Nat.mul_div_cancel b (show 0 < 4096 by norm_num)]
  exact ⟨fun h => h.symm.imp_right fun hq => ⟨hq.1.symm, hq.2⟩,
    fun h => h.symm.imp_left fun hq => ⟨hq.1.symm, hq.2⟩⟩

theorem Kept.live_erase (h : Kept a kf uf) (hr : r ∈ a.live) (hb : r.virPageAddr = b * 4096) :
    cutRange a.Live r.pf b r.pageCnt q v ↔ (Accounts.mk m' (a.live.erase r)).Live q v := by
  have hhas : ∀ v, r.Has v ↔ b ≤ v ∧ v < b + r.pageCnt := fun v => by
    unfold PageRange.Has
    rw [hb, Nat.mul_div_cancel b (by norm_num)]
  unfold cutRange
  rw [← hhas]
  constructor
  · rintro ⟨⟨r', hr', rfl, hv⟩, hne⟩
    have hrr : r' ≠ r := by
      rintro rfl
      exact hne ⟨rfl, hv⟩
    exact ⟨r', (List.mem_erase_of_ne hrr).mpr hr', rfl, hv⟩
  · rintro ⟨r', hr', rfl, hv⟩
    obtain ⟨hrr, hmem⟩ := (h.nodup.mem_erase_iff).mp hr'
    exact ⟨⟨r', hmem, rfl, hv⟩, fun hc => hrr (h.eq_of_has hmem hr hv hc.2)⟩

/-- The first frame of the user pool is not among those that are freed. -/
theorem Kept.first (h : Kept a kf uf) (hb : r.virPageAddr = b * 4096)
    (hc : a.mem.Sound (.free r)) : ∀ i < r.pageCnt, a.mem.walk (b + i) ≠ some uf := by
  have hs : a.mem.userPap.startAddr = uf * 4096 := h.maps.geo.start .user
  intro i hi
  have := hc i hi
  rwa [hb, hs, Nat.mul_div_cancel _ (by norm_num), Nat.mul_div_cancel _ (by norm_num)] at this

theorem Kept.step (h : Kept a kf uf) (hst : AccStep Sound a a') : Kept a' kf uf := by
  cases hst with
  | @alloc pf cnt _ m' hc hret =>
    obtain ⟨b, rfl, hcnt, hnew, hm, hv⟩ := hret.of_wp (wp_allocPage h.maps h.vbits hc)
    refine ⟨hm.congr fun q v => live_cons.symm, hv.congr (fun _ => rfl) fun q v => live_cons.symm,
      List.pairwise_cons.mpr ⟨fun r hr v hv => ?_, h.apart⟩, fun r hr => ?_⟩
    · obtain ⟨⟨hlo, hhi⟩, hrv⟩ := hv
      dsimp only at hlo hhi
      obtain ⟨hin, hnot⟩ := hnew (v - b) (by omega)
      rw [show b + (v - b) = v by omega] at hin hnot
      have hlive : a.Live r.pf v := ⟨r, hr, rfl, hrv⟩
      obtain rfl := h.maps.geo.area_unique hin (h.maps.inArea hlive)
      exact hnot hlive
    · rcases List.mem_cons.mp hr with rfl | hr
      · exact ⟨hcnt, Nat.mul_mod_left _ _⟩
      · exact h.ranges r hr
  | fail hc hret =>
    obtain ⟨hm, hv⟩ := hret.of_wp (wp_allocPage h.maps h.vbits hc)
    exact ⟨hm, hv, h.apart, h.ranges⟩
  | @free r m' hr hc hret =>
    obtain ⟨b, hb, -, hP⟩ := h.pages hr
    have hfirst := h.first hb hc
    rw [hb] at hret
    obtain ⟨hm, hv⟩ := hret.of_wp (wp_freePage h.maps h.vbits (h.ranges r hr).1 hP hfirst)
    refine ⟨hm.congr fun q v => h.live_erase hr hb,
      hv.congr (fun _ => rfl) fun q v => h.live_erase hr hb,
      h.apart.sublist List.erase_sublist, fun r' hr' => h.ranges r' (List.mem_of_mem_erase hr')⟩

theorem Geo.pool_unique (h : Geo m kf uf) {k : ℕ} (hn : n < (m.pap pf).bitMap.bits)
    (hk : k < (m.pap q).bitMap.bits) (hnk : base kf uf pf + n = base kf uf q + k) : pf = q := by
  have hp := poolOf_frame h hn
  rw [hnk, poolOf_frame h hk] at hp
  exact hp.symm

/-- A frame is in use exactly when a live page or a page table leads to it. -/
theorem Kept.bit_iff (pf : PoolFlag) (h : Kept a kf uf) (hn : n < (a.mem.pap pf).bitMap.bits) :
    (a.mem.pap pf).bitMap.bit n = true ↔
      (∃ v, a.Live pf v ∧ a.mem.walk v = some (base kf uf pf + n)) ∨
        ∃ d, a.mem.ref pf (.inr d) = base kf uf pf + n := by
  have hpos : 0 < base kf uf pf := h.maps.geo.base_pos
  constructor
  · intro hb
    obtain ⟨x, hx⟩ := (h.maps.frames pf).covered n hn hb
    cases x with
    | inl v =>
      have hlive := (h.maps.mapped pf v).mp (by omega)
      obtain ⟨k, -, hw, hk, -⟩ := h.maps.frame hlive
      exact .inl ⟨v, hlive, by rw [hw, ← hk, hx]⟩
    | inr d => exact .inr ⟨d, hx⟩
  · rintro (⟨v, hlive, hw⟩ | ⟨d, hd⟩)
    · obtain ⟨k, -, hw', -, hb⟩ := h.maps.frame hlive
      obtain rfl : k = n := by
        rw [hw', Option.some.injEq] at hw
        omega
      exact hb
    · obtain ⟨k, -, hk, hb⟩ := (h.maps.frames pf).used (.inr d) (by omega)
      obtain rfl : k = n := by omega
      exact hb

theorem Kept.law (h : Kept a kf uf) : AccLaw Sound a := by
  have hstart : ∀ pf, (a.mem.pap pf).startAddr = base kf uf pf * 4096 := h.maps.geo.start
  refine ⟨fun r hr hc m' hstop => ?_, h.apart, fun pf v hv => ?_, fun pf q v w hv hw heq => ?_,
    fun pf i hi => ?_, fun i hi => ?_, fun i hi => ?_⟩
  · obtain ⟨b, hb, -, hP⟩ := h.pages hr
    have hw := wp_freePage (e := ()) h.maps h.vbits (h.ranges r hr).1 hP (h.first hb hc)
    rw [hb] at hstop
    exact (wp_iff.mp hw).2 m' hstop
  · obtain ⟨n, hn, hw, -, -⟩ := h.maps.frame hv
    rw [hstart]
    exact ⟨_, hw, by omega, by omega⟩
  · obtain ⟨n, hn, hwn, hrn, -⟩ := h.maps.frame hv
    obtain ⟨k, hk, hwk, hrk, -⟩ := h.maps.frame hw
    have hnk : base kf uf pf + n = base kf uf q + k := by
      rw [hwn, hwk] at heq
      exact Option.some.inj heq
    obtain rfl : pf = q := h.maps.geo.pool_unique hn hk hnk
    have hpos : 0 < base kf uf pf := h.maps.geo.base_pos
    have := (h.maps.frames pf).inj (.inl v) (.inl w) (by omega) (by omega)
    exact Sum.inl.inj this
  · rw [h.maps.geo.vstart, Nat.mul_div_cancel _ (by norm_num)]
    exact h.vbits pf i hi
  · have hs : a.mem.userPap.startAddr = uf * 4096 := hstart .user
    rw [hs, Nat.mul_div_cancel _ (by norm_num)]
    have hpos : 0 < base kf uf .user := h.maps.geo.base_pos
    change 0 < uf at hpos
    refine (h.bit_iff .user hi).trans ⟨fun hx => hx.resolve_right ?_, .inl⟩
    rintro ⟨d, hd⟩
    change 0 = uf + i at hd
    omega
  · have hs : a.mem.kernelPap.startAddr = kf * 4096 := hstart .kernel
    rw [hs, Nat.mul_div_cancel _ (by norm_num)]
    have hpos : 0 < base kf uf .kernel := h.maps.geo.base_pos
    change 0 < kf at hpos
    refine (h.bit_iff .kernel hi).trans (or_congr_right ⟨?_, ?_⟩)
    · rintro ⟨d, hd⟩
      unfold ref at hd
      dsimp only at hd
      split_ifs at hd with hc
      · exact ⟨d, hc.2.1, hc.2.2, hd⟩
      · have : 0 = kf + i := hd
        omega
    · rintro ⟨d, hd, hp, hf⟩
      refine ⟨d, ?_⟩
      unfold ref
      dsimp only
      rw [if_pos ⟨rfl, hd, hp⟩]
      exact hf

end Law

section Start

/-- What `memInit` and the first thread of a process find: only the kernel has page tables, and
nothing is mapped in its heap. -/
structure Booted (allMem : ℕ) (m : Mem) : Prop where
  enough : 0x200000 ≤ allMem
  /-- The three bitmaps end below the PCB of the main thread. -/
  bitMaps : 0xc009a000 + 3 * ((allMem - 0x200000) / 4096 / 2 / 8) ≤ 0xc009e000
  tables : ∀ d, 768 ≤ d → d < 1023 → present (m.pde d) = true
  user : ∀ d < 768, present (m.pde d) = false
  heap : ∀ v, 0xc0100 ≤ v → v < 0xffc00 → present (m.pte v) = false

def initAccounts (allMem : ℕ) (m : Mem) : Accounts :=
  ⟨memPoolInit allMem (createUserVAddrBitMap m), []⟩

section Pools

variable {allMem : ℕ}

/-- The number of frames that each pool would have, were its bitmap not made of whole bytes. -/
def freePages (allMem : ℕ) : ℕ := (allMem - 0x200000) / 4096 / 2

theorem initAccounts_bits : ((initAccounts allMem m).mem.pap pf).bitMap.bits =
    8 * (freePages allMem / 8) := by
  cases pf <;> rfl

theorem initAccounts_kernelVap : (initAccounts allMem m).mem.kernelVap.bitMap.bits =
    8 * (freePages allMem / 8) := rfl

theorem initAccounts_vap : (initAccounts allMem m).mem.vap.bitMap.bits = 0xbfff8 := by
  change 8 * ((0xc0000000 - 0x8000) / 4096 / 8) = 0xbfff8
  norm_num

theorem usedMem_eq : 4096 * 256 + 0x00100000 = 0x200000 := by norm_num

theorem memPoolInit_user : (memPoolInit allMem m).userPap.startAddr =
    (0x200 + freePages allMem) * 4096 := by
  unfold memPoolInit freePages
  dsimp only
  rw [usedMem_eq, Nat.add_mul]

theorem memPoolInit_kernel : (memPoolInit allMem m).kernelPap.startAddr = 0x200 * 4096 := by
  unfold memPoolInit
  dsimp only

theorem initAccounts_start : ((initAccounts allMem m).mem.pap pf).startAddr =
    base 0x200 (0x200 + freePages allMem) pf * 4096 := by
  cases pf with
  | user => rw [base, ← memPoolInit_user (m := createUserVAddrBitMap m), initAccounts, pap]
  | kernel =>
    change (memPoolInit allMem (createUserVAddrBitMap m)).kernelPap.startAddr = 0x200 * 4096
    exact memPoolInit_kernel

theorem initAccounts_vstart : ((initAccounts allMem m).mem.vpool pf).startAddr =
    vbase pf * 4096 := by
  cases pf with
  | user =>
    change 0x8000 = 8 * 4096
    norm_num
  | kernel =>
    change 0xc0100000 = 0xc0100 * 4096
    norm_num

theorem initAccounts_clear : ((initAccounts allMem m).mem.pap pf).bitMap.bit n = false := by
  cases pf <;> simp [BitMap.bit, initAccounts, memPoolInit, pap]

theorem initAccounts_vclear : ((initAccounts allMem m).mem.vpool pf).bitMap.bit n = false := by
  cases pf <;> simp [BitMap.bit, initAccounts, memPoolInit, createUserVAddrBitMap, vpool]

theorem Booted.geo (h : Booted allMem m) :
    Geo (initAccounts allMem m).mem 0x200 (0x200 + freePages allMem) := by
  have hb : 0xc009a000 + 3 * (freePages allMem / 8) ≤ 0xc009e000 := h.bitMaps
  have hkernel : ((initAccounts allMem m).mem.pap .kernel).bitMap.bits =
      8 * (freePages allMem / 8) := initAccounts_bits
  have huser : ((initAccounts allMem m).mem.pap .user).bitMap.bits =
      8 * (freePages allMem / 8) := initAccounts_bits
  change (initAccounts allMem m).mem.kernelPap.bitMap.bits = _ at hkernel
  change (initAccounts allMem m).mem.userPap.bitMap.bits = _ at huser
  refine ⟨fun _ => initAccounts_start, fun _ => initAccounts_vstart, by norm_num, ?_, ?_, ?_, ?_,
    h.tables⟩
  · rw [hkernel]
    omega
  · rw [huser]
    omega
  · rw [initAccounts_vap]
  · rw [initAccounts_kernelVap]
    omega

/-- Nothing is mapped at first. -/
theorem Booted.ref (h : Booted allMem m) : ∀ x, (initAccounts allMem m).mem.ref pf x = 0 := by
  have hgeo := h.geo
  have huser : ∀ d < 768, present ((initAccounts allMem m).mem.pde d) = false := h.user
  have hheap : ∀ v, 0xc0100 ≤ v → v < 0xffc00 →
      present ((initAccounts allMem m).mem.pte v) = false := h.heap
  generalize (initAccounts allMem m).mem = r at hgeo huser hheap
  intro x
  cases x with
  | inl v =>
    unfold Mem.ref
    dsimp only
    split_ifs with hin
    · have hnone : r.walk v = none := by
        cases pf with
        | user =>
          have hv := hgeo.area_user hin
          exact walk_eq_none_of_pde (huser _ (by omega))
        | kernel =>
          obtain ⟨hlo, hhi⟩ := hgeo.area_kernel hin
          exact walk_eq_none_of_pte (hheap v hlo hhi)
      rw [hnone]
      rfl
    · rfl
  | inr d =>
    refine if_neg fun hc => ?_
    have := huser d hc.2.1
    rw [this] at hc
    exact absurd hc.2.2 (by decide)

theorem Booted.kept (h : Booted allMem m) :
    Kept (initAccounts allMem m) 0x200 (0x200 + freePages allMem) := by
  have hlive : ∀ pf v, ¬(initAccounts allMem m).Live pf v := by
    rintro pf v ⟨r, hr, -⟩
    exact List.not_mem_nil hr
  refine ⟨⟨h.geo, fun pf v => ?_, fun pf => ⟨⟨fun x hx => ?_, fun x y _ hx => ?_⟩, ?_⟩⟩, ?_,
    List.Pairwise.nil, fun r hr => ?_⟩
  · exact iff_of_false (fun hc => hc (h.ref _)) (hlive pf v)
  · exact absurd (h.ref x) hx
  · exact absurd (h.ref x) hx
  · intro n _ hbit
    rw [initAccounts_clear] at hbit
    exact absurd hbit (by decide)
  · intro pf i _
    rw [initAccounts_vclear]
    exact iff_of_false (by decide) (hlive pf _)
  · exact absurd hr List.not_mem_nil

end Pools

/-- In every state of a run. -/
theorem accounts_law {allMem : ℕ} (h : Booted allMem m)
    (hrun : Run (AccStep Sound) (initAccounts allMem m) a) : AccLaw Sound a :=
  (hrun.invariant (fun _ _ hI hst => Kept.step hI hst) h.kept).law

/-- Two kernel pages. -/
def heapMem : Mem := (allocPage .kernel 2 () 0 initMem).state

/-- Then one page of user space. -/
def bothMem : Mem := (allocPage .user 1 () 0 heapMem).state

theorem booted_initMem : Booted 0x2000000 initMem := by
  refine ⟨by norm_num, by norm_num, fun d hd hd' => ?_, fun d hd => ?_, fun v _ _ => rfl⟩
  · have hpde : initMem.pde d =
        if 768 ≤ d ∧ d < 1023 then mkEntry (0x101000 + (d - 768) * 4096) else 0 := rfl
    rw [hpde, if_pos ⟨hd, hd'⟩, show 0x101000 + (d - 768) * 4096 = (0x101 + (d - 768)) * 4096 by
      omega]
    exact present_mkEntry _
  · have hpde : initMem.pde d =
        if 768 ≤ d ∧ d < 1023 then mkEntry (0x101000 + (d - 768) * 4096) else 0 := rfl
    rw [hpde, if_neg (by omega)]
    rfl

/-- The page of user space takes a frame of each pool, one of them for its page table. -/
theorem accounts_law_sample :
    Run (AccStep Sound) (initAccounts 0x2000000 initMem)
      ⟨bothMem, [⟨.user, 0x8000, 1⟩, ⟨.kernel, 0xc0100000, 2⟩]⟩ ∧
    AccLaw Sound ⟨bothMem, [⟨.user, 0x8000, 1⟩, ⟨.kernel, 0xc0100000, 2⟩]⟩ := by
  have h₁ : AccStep Sound (initAccounts 0x2000000 initMem)
      ⟨heapMem, [⟨.kernel, 0xc0100000, 2⟩]⟩ :=
    .alloc (fun _ _ => nofun) (.of_value (by decide +kernel))
  have hroom : 0 < heapMem.kernelPap.bitMap.clearBits :=
    Finset.card_pos.mpr ⟨5, by decide +kernel⟩
  have h₂ : AccStep Sound ⟨heapMem, [⟨.kernel, 0xc0100000, 2⟩]⟩
      ⟨bothMem, [⟨.user, 0x8000, 1⟩, ⟨.kernel, 0xc0100000, 2⟩]⟩ := by
    refine .alloc (fun i _ _ => ?_) (.of_value (by decide +kernel))
    refine ((Finset.card_filter_le _ _).trans Finset.card_image_le).trans ?_
    rw [Finset.card_range]
    exact (min_le_left _ _).trans hroom
  have h := (Relation.ReflTransGen.single h₁).tail h₂
  exact ⟨h, accounts_law booted_initMem h⟩

/-- One page of user space, which gets the first frame of its pool. -/
def firstMem : Mem := (allocPage .user 1 () 0 initMem).state

/-- `freePage` of the first frame of the user pool fails an assertion. -/
theorem accounts_law_fails :
    Run (AccStep fun _ _ => True) (initAccounts 0x2000000 initMem)
      ⟨firstMem, [⟨.user, 0x8000, 1⟩]⟩ ∧
    firstMem.walk 8 = some (firstMem.userPap.startAddr / 4096) ∧
    (∃ m, Stops () (freePage .user 0x8000 1) firstMem m) ∧
    ¬AccLaw (fun _ _ => True) ⟨firstMem, [⟨.user, 0x8000, 1⟩]⟩ := by
  have h : AccStep (fun _ _ => True) (initAccounts 0x2000000 initMem)
      ⟨firstMem, [⟨.user, 0x8000, 1⟩]⟩ := .alloc trivial (.of_value (by decide +kernel))
  have hstop : ∃ m, Stops () (freePage .user 0x8000 1) firstMem m := by
    have hvalue : (freePage .user 0x8000 1 () 0 firstMem).value = none := by decide +kernel
    cases hrun : freePage .user 0x8000 1 () 0 firstMem with
    | returned x t m => simp [hrun, Outcome.value] at hvalue
    | stopped m => exact ⟨m, 0, hrun⟩
  refine ⟨.single h, by decide +kernel, hstop, fun hlaw => ?_⟩
  obtain ⟨m, hm⟩ := hstop
  exact hlaw.free _ (List.mem_singleton_self _) trivial m hm

end Start

end Gogoos.Mem
