import Gogoos.Kernel.PageRun

/-!
# An allocation and its rollback

`allocPage` from any state in which the bitmaps and the page tables agree as far as the code
relies on it. While it runs, the pages mapped so far and their frames are all that has changed,
and the rollback takes them out in the opposite order, down to the state before.
-/

namespace Gogoos.Mem

open Program

variable {m r : Mem} {e : Unit} {kf uf v n b cnt done : ℕ} {pf : PoolFlag} {g : ℕ → ℕ}
  {stop : Mem → Prop}

section Taken

/-- `done` pages from `b` on were mapped, page `b + j` to frame `g j` of its pool. -/
structure Taken (m : Mem) (kf uf : ℕ) (pf : PoolFlag) (b done : ℕ) (g : ℕ → ℕ) (r : Mem) :
    Prop where
  same : SamePools m r
  walk : ∀ v, r.walk v =
    if b ≤ v ∧ v < b + done then some (base kf uf pf + g (v - b)) else m.walk v
  picked : Picked (m.pap pf).bitMap.bits (m.pap pf).bitMap.bit (r.pap pf).bitMap.bit g done

theorem Taken.start (hs : SamePools m r) (hwalk : ∀ v, r.walk v = m.walk v)
    (hpap : r.pap pf = m.pap pf) : Taken m kf uf pf b 0 g r := by
  constructor
  · exact hs
  · intro v
    rw [if_neg (by omega), hwalk]
  · rw [hpap]
    exact .start

theorem pap_unmapped : (r.unmapped pf v n).pap pf =
    { r.pap pf with bitMap := bitMapSet (r.pap pf).bitMap n false } := by
  unfold unmapped
  rw [pap_setPte, pap_setPapBit_self]

theorem unmapped_walk_self : (r.unmapped pf v n).walk v = none := by
  refine walk_eq_none_of_pte ?_
  unfold unmapped
  have hodd : (r.pte v - r.pte v % 2) % 2 ≠ 1 := by omega
  simp [present, hodd]

/-- The last of the pages is given back. -/
theorem Taken.pop (h : Taken m kf uf pf b (done + 1) g r) (hnone : m.walk (b + done) = none) :
    Taken m kf uf pf b done g (r.unmapped pf (b + done) (g done)) := by
  constructor
  · exact h.same.trans unmapped_same
  · intro v
    by_cases hv : v = b + done
    · rw [hv, unmapped_walk_self, if_neg (by omega), hnone]
    · rw [unmapped_walk hv, h.walk]
      split_ifs with h₁ h₂ h₂
      · rfl
      · omega
      · omega
      · rfl
  · refine h.picked.pop fun k => ?_
    rw [pap_unmapped, bitMapSet_bit]

theorem Taken.push (h : Taken m kf uf pf b done g r) (hn : n < (r.pap pf).bitMap.bits)
    (hclear : (r.pap pf).bitMap.bit n = false) {r' : Mem} (hs : SamePools r r')
    (hself : r'.walk (b + done) = some (base kf uf pf + n))
    (hother : ∀ v, v ≠ b + done → r'.walk v = r.walk v)
    (hbit : ∀ k, (r'.pap pf).bitMap.bit k = if k = n then true else (r.pap pf).bitMap.bit k) :
    Taken m kf uf pf b (done + 1) (Function.update g done n) r' := by
  constructor
  · exact h.same.trans hs
  · intro v
    by_cases hv : v = b + done
    · rw [hv, hself, if_pos (by omega), Nat.add_sub_cancel_left, Function.update_self]
    · rw [hother v hv, h.walk]
      split_ifs with h₁ h₂ h₂
      · rw [Function.update_of_ne (by omega)]
      · omega
      · omega
      · rfl
  · exact h.picked.push (by rwa [h.same.bits pf] at hn) hclear hbit

end Taken

section Loops

theorem Geo.frame_of_taken (h : Geo m kf uf) (ht : Taken m kf uf pf b (done + 1) g r) :
    Geo r kf uf ∧ r.walk (b + done) = some (base kf uf pf + g done) ∧
      g done < (r.pap pf).bitMap.bits := by
  refine ⟨h.same ht.same, ?_, ?_⟩
  · rw [ht.walk, if_pos (by omega), Nat.add_sub_cancel_left]
  · rw [ht.same.bits]
    exact (ht.picked.frame done (by omega)).1

/-- The rollback, by induction on the number of pages that are mapped. -/
theorem wp_unmapBack_taken (h : Geo m kf uf) : ∀ done r,
    Taken m kf uf pf b done g r → (∀ j < done, m.walk (b + j) = none) →
    wp stop e (unmapBack done ((b + done) * 4096 - 4096))
      (fun _ r' => Taken m kf uf pf b 0 g r') r := by
  intro done
  induction done with
  | zero => exact fun r ht _ => wp_pure.mpr ht
  | succ done ih =>
    intro r ht hnone
    obtain ⟨hgeo, hw, hn⟩ := h.frame_of_taken ht
    have hv : (b + (done + 1)) * 4096 - 4096 = (b + done) * 4096 := by omega
    unfold unmapBack
    rw [hv]
    apply wp_call (wp_of_noStop (wp_addrV2P hw))
    rintro paddr r' ⟨rfl, hr'⟩
    rw [hr']
    apply wp_unmap hgeo hw hn
    exact ih _ (ht.pop (hnone done (by omega))) fun j hj => hnone j (by omega)

theorem setPapBit_bit_of {pf : PoolFlag} {n k : ℕ} :
    ((r.setPapBit pf n true).pap pf).bitMap.bit k =
      if k = n then true else (r.pap pf).bitMap.bit k := by
  rw [pap_setPapBit_self, bitMapSet_bit]

/-- One page more, whose frame was just taken from the pool. -/
theorem wp_mapPageTable_taken {left : ℕ} (h : Geo m kf uf) (ht : Taken m kf uf pf b done g r)
    (hin : InArea m pf (b + done)) (hnone : m.walk (b + done) = none)
    (hn : n < (r.pap pf).bitMap.bits) (hclear : (r.pap pf).bitMap.bit n = false)
    (hres : Reserve r pf (b + done) (left + 1)) :
    wp stop e (mapPageTable ((b + done) * 4096) ((base kf uf pf + n) * 4096)) (fun _ r' =>
      Taken m kf uf pf b (done + 1) (Function.update g done n) r' ∧
        Reserve r' pf (b + (done + 1)) left) (r.setPapBit pf n true) := by
  have hgeo := h.same ht.same
  have hrnone : r.walk (b + done) = none := by rw [ht.walk, if_neg (by omega), hnone]
  have hmin : ∀ c, min (left + 1) (c + 1) = min left c + 1 := fun c => by omega
  have hcount : pf = .user → (bitMapSet r.userPap.bitMap n true).clearBits + 1 =
      r.userPap.bitMap.clearBits := by
    rintro rfl
    exact clearBits_set hn hclear
  unfold mapPageTable
  rw [wp_get_bind, Nat.mul_div_cancel _ (by norm_num), setPapBit_pde, setPapBit_pte]
  apply wp_ite
  · intro hpde
    have hpte : present (r.pte (b + done)) = false := by
      by_contra hc
      rw [walk, if_pos ⟨hpde, by simpa using hc⟩] at hrnone
      cases hrnone
    rw [hpte, Bool.not_false, if_pos rfl, wp_modify]
    refine ⟨?_, ?_⟩
    · refine ht.push hn hclear (samePools_setPapBit.trans samePools_setPte) ?_ ?_ ?_
      · exact walk_setPte_self (by rwa [setPapBit_pde])
      · intro v hv
        rw [walk_setPte_ne hv, walk_setPapBit]
      · intro k
        rw [pap_setPte, setPapBit_bit_of]
    · rintro rfl
      have hle := hres rfl
      rw [← hcount rfl, hmin] at hle
      exact (Finset.card_le_card (missing_succ fun _ hd => hd)).trans hle
  intro habs
  have habs : present (r.pde ((b + done) / 1024)) = false := by simpa using habs
  obtain ⟨rfl, hd⟩ := hgeo.user_of_absent (ht.same.inArea.mpr hin) habs
  have hle := hres rfl
  rw [← hcount rfl, hmin] at hle
  have hmem := mem_missing (n := min left (bitMapSet r.userPap.bitMap n true).clearBits) habs
  have hpos : 0 < r.kernelPap.bitMap.clearBits :=
    (Finset.card_pos.mpr ⟨_, hmem⟩).trans_le hle
  have hgeo' : Geo (r.setPapBit .user n true) kf uf := hgeo.same samePools_setPapBit
  apply wp_call (wp_allocTable hgeo' hpos)
  rintro _ r' ⟨k, hk, hkfree, rfl, hr'⟩
  rw [hr', wp_modify_bind, wp_modify, Option.getD_some, setTable_comm]
  have hk : k < r.kernelPap.bitMap.bits := hk
  have hkfree : r.kernelPap.bitMap.bit k = false := hkfree
  set t := (r.setPapBit .kernel k true).setTable ((b + done) / 1024) (mkEntry ((kf + k) * 4096))
    with ht'
  have hst : SamePools r t :=
    samePools_setPapBit.trans (samePools_setTable (present_mkEntry _))
  have htw : ∀ v, t.walk v = r.walk v := fun v => by
    rw [ht', walk_setTable (by rwa [setPapBit_pde]), walk_setPapBit]
  have htp : t.pap .user = r.pap .user := rfl
  refine ⟨?_, reserve_table hk hkfree hmem hle⟩
  refine ht.push hn hclear ((hst.trans samePools_setPapBit).trans samePools_setPte) ?_ ?_ ?_
  · exact walk_setPte_self (by simp [t])
  · intro v hv
    rw [walk_setPte_ne hv, walk_setPapBit, htw]
  · intro k'
    rw [pap_setPte, setPapBit_bit_of, htp]

/-- The loop of `allocPage`. When a frame is missing, everything is as it was. -/
theorem wp_mapPages_taken (h : Geo m kf uf) : ∀ left done g r,
    Taken m kf uf pf b done g r →
    (∀ j < done + left, InArea m pf (b + j) ∧ m.walk (b + j) = none) →
    Reserve r pf (b + done) left →
    wp stop e (mapPages pf left done ((b + done) * 4096)) (fun ok r' =>
      ∃ g, Taken m kf uf pf b (if ok then done + left else 0) g r') r := by
  intro left
  induction left with
  | zero => exact fun done g r ht _ _ => wp_pure.mpr ⟨g, ht⟩
  | succ left ih =>
    intro done g r ht hnew hres
    have hgeo := h.same ht.same
    unfold mapPages
    apply wp_call (wp_allocPhyAddr hgeo)
    rintro o r' (⟨rfl, hr'⟩ | ⟨n, hn, hfree, rfl, hr'⟩)
    · rw [hr']
      apply wp_call (wp_unmapBack_taken h done r ht fun j hj => (hnew j (by omega)).2)
      rintro ⟨⟩ r'' hback
      exact wp_pure.mpr ⟨g, hback⟩
    · rw [hr']
      obtain ⟨hin, hnone⟩ := hnew done (by omega)
      apply wp_call (wp_mapPageTable_taken h ht hin hnone hn hfree hres)
      rintro ⟨⟩ r'' ⟨htaken, hres'⟩
      have hnext : (b + done) * 4096 + 4096 = (b + (done + 1)) * 4096 := by omega
      have hlen : done + (left + 1) = done + 1 + left := by omega
      rw [hnext, hlen]
      exact ih (done + 1) _ r'' htaken (fun j hj => hnew j (by omega)) hres'

end Loops

section Law

/-- A page whose virtual bit is clear is not mapped, the bit of a mapped frame is set, and so is
that of the page of the user stack, the last one below the kernel. -/
structure Consistent (m : Mem) (kf uf : ℕ) : Prop where
  geo : Geo m kf uf
  clear : ∀ pf, ∀ i < (m.vpool pf).bitMap.bits, (m.vpool pf).bitMap.bit i = false →
    m.walk (vbase pf + i) = none
  used : ∀ v pf, ∀ n < (m.pap pf).bitMap.bits, m.walk v = some (base kf uf pf + n) →
    (m.pap pf).bitMap.bit n = true
  stack : m.vap.bitMap.bit (0xbffff - 8) = true

/-- The bitmaps and the mappings are those of `m`. -/
structure RolledBack (m : Mem) (pf : PoolFlag) (cnt : ℕ) (r : Mem) : Prop where
  pap : (r.pap pf).bitMap = (m.pap pf).bitMap
  vap : (r.vpool pf).bitMap = (m.vpool pf).bitMap
  walk : ∀ v, r.walk v = m.walk v
  range : ∀ i, bitMapScan (m.vpool pf).bitMap cnt = some i → ∀ j < cnt,
    r.walk (vbase pf + i + j) = none

/-- The pages `vbase pf + i + j` below `cnt` were free and lead to the free frames `g j`. -/
structure Granted (m : Mem) (kf uf : ℕ) (pf : PoolFlag) (cnt : ℕ) (i : ℕ) (g : ℕ → ℕ) (r : Mem) :
    Prop where
  free : i + cnt ≤ (m.vpool pf).bitMap.bits ∧
    ∀ j < cnt, (m.vpool pf).bitMap.bit (i + j) = false ∧ m.walk (vbase pf + i + j) = none
  marked : ∀ k, (r.vpool pf).bitMap.bit k = true ↔
    (m.vpool pf).bitMap.bit k = true ∨ (i ≤ k ∧ k < i + cnt)
  mapped : ∀ j < cnt, r.walk (vbase pf + i + j) = some (base kf uf pf + g j)
  frame : ∀ j < cnt, g j < (m.pap pf).bitMap.bits ∧ (m.pap pf).bitMap.bit (g j) = false ∧
    ∀ v, m.walk v ≠ some (base kf uf pf + g j)
  distinct : ∀ j < cnt, ∀ j' < cnt, g j = g j' → j = j'
  taken : ∀ k, (r.pap pf).bitMap.bit k = true ↔
    (m.pap pf).bitMap.bit k = true ∨ ∃ j < cnt, g j = k
  others : ∀ v, ¬(vbase pf + i ≤ v ∧ v < vbase pf + i + cnt) → r.walk v = m.walk v

theorem Consistent.scan (h : Consistent m kf uf) (hcnt : 0 < cnt) {i : ℕ}
    (hscan : bitMapScan (m.vpool pf).bitMap cnt = some i) :
    i + cnt ≤ (m.vpool pf).bitMap.bits ∧
      (∀ j < cnt, (m.vpool pf).bitMap.bit (i + j) = false ∧ m.walk (vbase pf + i + j) = none) ∧
      (pf = .user → (8 + i) * 4096 < 0xc0000000 - 4096) := by
  obtain ⟨hend, hclear⟩ := bitMapScan_eq_some h.geo.vbits_lt hcnt hscan
  have hfree : ∀ j < cnt, (m.vpool pf).bitMap.bit (i + j) = false :=
    fun j hj => hclear (i + j) (by omega) (by omega)
  refine ⟨hend, fun j hj => ⟨hfree j hj, ?_⟩, ?_⟩
  · rw [Nat.add_assoc]
    exact h.clear pf (i + j) (by omega) (hfree j hj)
  · rintro rfl
    have hu := h.geo.uvEnd
    change i + cnt ≤ m.vap.bitMap.bits at hend
    by_contra hc
    have hi : i = 0xbffff - 8 := by omega
    have hbit := hfree 0 hcnt
    rw [Nat.add_zero, hi] at hbit
    have hstack : (m.vpool .user).bitMap.bit (0xbffff - 8) = true := h.stack
    rw [hstack] at hbit
    exact absurd hbit (by decide)

/-- `allocVirAddr`, whose assertion the stack page guards. -/
theorem Consistent.wp_allocVirAddr (h : Consistent m kf uf) (hcnt : 0 < cnt) :
    wp noStop e (allocVirAddr pf cnt) (fun o r => match o with
      | none => bitMapScan (m.vpool pf).bitMap cnt = none ∧ r = m
      | some virPageAddr => ∃ i, bitMapScan (m.vpool pf).bitMap cnt = some i ∧
          virPageAddr = (vbase pf + i) * 4096 ∧
          r = m.setVap pf (bitMapSetRun (m.vpool pf).bitMap true cnt i)) m := by
  unfold allocVirAddr bitMapScanAndSet
  rw [wp_get_bind]
  cases hscan : bitMapScan (m.vpool pf).bitMap cnt with
  | none => exact wp_pure.mpr ⟨rfl, rfl⟩
  | some i =>
    rw [wp_modify_bind, h.geo.vstart, ← Nat.add_mul, wp_assert_pos]
    · exact wp_pure.mpr ⟨i, rfl, rfl, rfl⟩
    · rintro rfl
      exact (h.scan hcnt hscan).2.2 rfl

theorem granted_of_taken (h : Consistent m kf uf) (hcnt : 0 < cnt) {i : ℕ}
    (hscan : bitMapScan (m.vpool pf).bitMap cnt = some i)
    {r₀ : Mem} (hr₀ : r₀ = m.setVap pf (bitMapSetRun (m.vpool pf).bitMap true cnt i))
    (ht : Taken r₀ kf uf pf (vbase pf + i) cnt g r) : Granted m kf uf pf cnt i g r := by
  obtain ⟨hend, hfree, -⟩ := h.scan hcnt hscan
  have hpap : r₀.pap pf = m.pap pf := by rw [hr₀, pap_setVap]
  have hwalk : ∀ v, r₀.walk v = m.walk v := fun v => by
    rw [hr₀]
    exact walk_congr setVap_pde setVap_pte
  have hframe := ht.picked.frame
  have hbit := ht.picked.taken
  rw [hpap] at hframe hbit
  constructor
  · exact ⟨hend, hfree⟩
  · intro k
    rw [ht.same.vpool, hr₀, vpool_setVap_self, bitMapSetRun_bit]
    by_cases hk : i ≤ k ∧ k < i + cnt <;> simp [hk]
  · intro j hj
    rw [ht.walk, if_pos (by omega), Nat.add_sub_cancel_left]
  · intro j hj
    obtain ⟨hlt, hclear⟩ := hframe j hj
    refine ⟨hlt, hclear, fun v hv => ?_⟩
    rw [h.used v pf (g j) hlt hv] at hclear
    exact absurd hclear (by decide)
  · exact ht.picked.inj
  · exact hbit
  · intro v hv
    rw [ht.walk, if_neg hv, hwalk]

theorem rolledBack_of_taken (h : Consistent m kf uf) (hcnt : 0 < cnt) {i : ℕ}
    (hscan : bitMapScan (m.vpool pf).bitMap cnt = some i)
    {r₀ : Mem} (hr₀ : r₀ = m.setVap pf (bitMapSetRun (m.vpool pf).bitMap true cnt i))
    (ht : Taken r₀ kf uf pf b 0 g r) :
    RolledBack m pf cnt (r.setVap pf (bitMapSetRun (r.vpool pf).bitMap false cnt i)) := by
  obtain ⟨hend, hfree, -⟩ := h.scan hcnt hscan
  have hpap : r₀.pap pf = m.pap pf := by rw [hr₀, pap_setVap]
  have hwalk : ∀ v, (r.setVap pf (bitMapSetRun (r.vpool pf).bitMap false cnt i)).walk v =
      m.walk v := fun v => by
    rw [walk_congr setVap_pde setVap_pte, ht.walk, if_neg (by omega), hr₀]
    exact walk_congr setVap_pde setVap_pte
  constructor
  · rw [pap_setVap, ← hpap]
    refine bitMap_eq_of_bit ?_ fun k => ?_
    · have := ht.same.bits pf
      unfold BitMap.bits at this
      omega
    · rw [Bool.eq_iff_iff, ht.picked.taken]
      simp
  · rw [vpool_setVap_self, ht.same.vpool, hr₀, vpool_setVap_self]
    refine bitMap_eq_of_bit (by simp) fun k => ?_
    rw [bitMapSetRun_bit, bitMapSetRun_bit]
    split_ifs with hk
    · have := (hfree (k - i) (by omega)).1
      rw [show i + (k - i) = k by omega] at this
      exact this.symm
    · rfl
  · exact hwalk
  · intro i' hi' j hj
    rw [hscan] at hi'
    obtain rfl : i = i' := Option.some.inj hi'
    rw [hwalk]
    exact (hfree j hj).2

/-- A call of `allocPage` ends with its pages mapped or with everything as it was. -/
theorem wp_allocPage_rolledBack (h : Consistent m kf uf) (hcnt : 0 < cnt) (hlt : cnt < 3840)
    (hres : ∀ i, bitMapScan (m.vpool pf).bitMap cnt = some i →
      Reserve m pf (vbase pf + i) cnt) :
    wp noStop e (allocPage pf cnt) (fun o r => match o with
      | none => RolledBack m pf cnt r
      | some virPageAddr =>
          ∃ i g, virPageAddr = (vbase pf + i) * 4096 ∧ Granted m kf uf pf cnt i g r) m := by
  unfold allocPage
  rw [wp_assert_pos ⟨hcnt, hlt⟩]
  apply wp_call (h.wp_allocVirAddr hcnt)
  rintro (_ | virPageAddr) r₀ hr
  · obtain ⟨hnone, rfl⟩ := hr
    refine wp_pure.mpr ⟨rfl, rfl, fun _ => rfl, fun i hi => ?_⟩
    rw [hnone] at hi
    cases hi
  · obtain ⟨i, hscan, rfl, hr₀⟩ := hr
    obtain ⟨hend, hfree, -⟩ := h.scan hcnt hscan
    have hpap : ∀ q, r₀.pap q = m.pap q := fun q => by rw [hr₀, pap_setVap]
    have hpde : r₀.pde = m.pde := by rw [hr₀, setVap_pde]
    have hwalk : ∀ v, r₀.walk v = m.walk v := fun v => by
      rw [hr₀]
      exact walk_congr setVap_pde setVap_pte
    have hgeo : Geo r₀ kf uf := by
      rw [hr₀]
      exact h.geo.setVap
    have hin : ∀ j < cnt, InArea m pf (vbase pf + i + j) := fun j hj =>
      ⟨by omega, by omega⟩
    have harea : ∀ j < 0 + cnt, InArea r₀ pf (vbase pf + i + j) ∧
        r₀.walk (vbase pf + i + j) = none := by
      intro j hj
      refine ⟨?_, by rw [hwalk]; exact (hfree j (by omega)).2⟩
      unfold InArea
      rw [hr₀, bits_setVap]
      exact hin j (by omega)
    have hres' : Reserve r₀ pf (vbase pf + i + 0) cnt := by
      have hu : r₀.userPap = m.userPap := hpap .user
      have hk : r₀.kernelPap = m.kernelPap := hpap .kernel
      unfold Reserve missing
      rw [hpde, hu, hk]
      exact hres i hscan
    have hlow := h.geo.area_lt (hin 0 hcnt)
    have htaken : Taken r₀ kf uf pf (vbase pf + i) 0 (fun _ => 0) r₀ :=
      .start .refl (fun _ => rfl) rfl
    apply wp_call (wp_mapPages_taken hgeo cnt 0 _ r₀ htaken harea hres')
    rintro (_ | _) r ⟨g, ht⟩
    · have hlt' : vbase pf + i < 2 ^ 20 := hlow.2
      rw [if_neg Bool.false_ne_true]
      apply wp_call (wp_freeVirAddr (hgeo.same ht.same) hlt')
      rintro ⟨⟩ r' rfl
      rw [wp_assert_pos]
      · exact wp_pure.mpr (rolledBack_of_taken h hcnt hscan hr₀ ht)
      · unfold wordSub
        omega
    · rw [if_pos rfl] at ht ⊢
      rw [Nat.zero_add] at ht
      exact wp_pure.mpr ⟨i, g, rfl, granted_of_taken h hcnt hscan hr₀ ht⟩

/-- A memory with one frame left for user space and no page mapped. -/
def scarceMem : Mem :=
  { initMem with
    pte := fun _ => 0
    kernelPap := ⟨⟨1, fun _ => 0⟩, 0x200000⟩
    userPap := ⟨⟨1, fun _ => 0xfe⟩, 0x208000⟩
    kernelVap := ⟨⟨1, fun _ => 0⟩, 0, 0xc0100000⟩
    vap := ⟨⟨0x17fff, fun i => if i = 0x17ffe then 0x80 else 0⟩, 0, 0x8000⟩ }

theorem scarceMem_walk : scarceMem.walk v = none := walk_eq_none_of_pte (by rfl)

theorem scarceMem_consistent : Consistent scarceMem 0x200 0x208 where
  geo :=
    { start := fun pf => by cases pf <;> rfl
      vstart := fun pf => by cases pf <;> rfl
      low := by norm_num
      gap := by decide
      high := by decide
      uvEnd := by decide
      kvEnd := by decide
      tables := booted_initMem.tables }
  clear _ _ _ _ := scarceMem_walk
  used v pf n hn hw := by
    rw [scarceMem_walk] at hw
    cases hw
  stack := by decide +kernel

end Law

end Gogoos.Mem
