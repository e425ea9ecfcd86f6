import Gogoos.Kernel.MappedRange

/-!
# An allocation in the tables, and its rollback

`allocPage` from any state in which the bitmaps and the tables in memory agree as far as the code
relies on it. A page shares its entry with every page whose directory entry names the same table;
the loader leaves such pages, and the last 4 MiB show the tables themselves. Apart from these
nothing but the range is mapped.
-/

namespace Gogoos.Machine

open Program
open Mem (base vbase lacking)

variable {m r : Machine} {e : Heap} {kf uf n b cnt p i : ℕ} {v w f : ℕ} {pf q : PoolFlag}
  {g : ℕ → ℕ} {stop : Machine → Prop} {bm : BitMap}

section Virtual

@[simp] theorem phys_setVap : (m.setVap pf bm).phys = m.phys := by cases pf <;> rfl

@[simp] theorem cr3_setVap : (m.setVap pf bm).cr3 = m.cr3 := by cases pf <;> rfl

@[simp] theorem pap_setVap : (m.setVap pf bm).pap q = m.pap q := by cases pf <;> cases q <;> rfl

@[simp] theorem vap_setVap_self :
    (m.setVap pf bm).vap pf = { m.vap pf with bitMap := bm } := by
  cases pf with
  | user => simp [setVap, vap]
  | kernel => rfl

theorem vap_setVap_ne (h : q ≠ pf) : (m.setVap pf bm).vap q = m.vap q := by
  cases pf with
  | user =>
    cases q with
    | user => exact absurd rfl h
    | kernel => rfl
  | kernel =>
    cases q with
    | user => rfl
    | kernel => exact absurd rfl h

@[simp] theorem walk_setVap : (m.setVap pf bm).walk v = m.walk v := by cases pf <;> rfl

theorem alias_setVap : (m.setVap pf bm).Alias v w ↔ m.Alias v w := by cases pf <;> rfl

theorem vapBits_setVap {x : Bool} :
    ((m.setVap pf (bitMapSetRun (m.vap pf).bitMap x cnt i)).vap q).bitMap.bits =
      (m.vap q).bitMap.bits := by
  by_cases hq : q = pf
  · subst hq
    simp [BitMap.bits]
  · rw [vap_setVap_ne hq]

/-- The pools of virtual addresses have no part in the tables. -/
theorem Paged.setVap (h : Paged m kf uf) {x : Bool} :
    Paged (m.setVap pf (bitMapSetRun (m.vap pf).bitMap x cnt i)) kf uf := by
  set r := m.setVap pf (bitMapSetRun (m.vap pf).bitMap x cnt i) with hr
  have hdir : r.phys r.cr3 = m.phys m.cr3 := by rw [hr, phys_setVap, cr3_setVap]
  have hcr3 : r.cr3 = m.cr3 := cr3_setVap
  have hkernel : r.kernelPap = m.kernelPap := pap_setVap (q := .kernel)
  have hself : r.SelfMapped := by
    unfold SelfMapped
    rw [hdir, hcr3]
    exact h.recursive.self
  have honce := h.recursive.once
  rw [← hdir, ← hcr3] at honce
  refine ⟨⟨h.pools.congr fun q => pap_setVap, ⟨hself, honce⟩, ?_, fun q => ?_, ?_, ?_⟩, ?_⟩
  · rw [hdir]
    exact h.tables
  · rw [← h.vstart q]
    by_cases hq : q = pf
    · subst hq
      rw [hr, vap_setVap_self]
    · rw [hr, vap_setVap_ne hq]
  · rw [hr, vapBits_setVap]
    exact h.uvEnd
  · rw [hr, vapBits_setVap]
    exact h.kvEnd
  · intro n hn hclear
    rw [hkernel] at hn hclear
    exact (h.unused n hn hclear).congr fun d _ => by rw [hdir]

theorem Reserve.setVap (h : Reserve m pf v cnt) : Reserve (m.setVap q bm) pf v cnt := by
  have hu : (m.setVap q bm).userPap = m.userPap := pap_setVap (q := .user)
  have hk : (m.setVap q bm).kernelPap = m.kernelPap := pap_setVap (q := .kernel)
  unfold Reserve
  rw [phys_setVap, cr3_setVap, hu, hk]
  exact h

theorem Geo.vbits_lt (h : Geo m kf uf) : (m.vap pf).bitMap.bits < 2 ^ 32 := by
  have hu := h.uvEnd
  have hk := h.kvEnd
  cases pf <;> omega

/-- `allocVirAddr`. The assertion is about the page that it found. -/
theorem Geo.wp_allocVirAddr (h : Geo m kf uf)
    (hstack : pf = .user → ∀ i, bitMapScan (m.vap pf).bitMap cnt = some i →
      (8 + i) * 4096 < 0xc0000000 - 4096 ∨ ∀ s, stop s) :
    wp stop e (allocVirAddr pf cnt) (fun o r => match o with
      | none => bitMapScan (m.vap pf).bitMap cnt = none ∧ r = m
      | some virPageAddr => ∃ i, bitMapScan (m.vap pf).bitMap cnt = some i ∧
          virPageAddr = (vbase pf + i) * 4096 ∧
          r = m.setVap pf (bitMapSetRun (m.vap pf).bitMap true cnt i)) m := by
  unfold allocVirAddr bitMapScanAndSet
  rw [wp_get_bind]
  cases hscan : bitMapScan (m.vap pf).bitMap cnt with
  | none => exact wp_pure.mpr ⟨rfl, rfl⟩
  | some i =>
    rw [wp_modify_bind, h.vstart, ← Nat.add_mul, wp_assert_bind]
    refine ⟨fun _ => wp_pure.mpr ⟨i, rfl, rfl, rfl⟩, fun hc => ?_⟩
    push Not at hc
    obtain ⟨rfl, hc⟩ := hc
    rcases hstack rfl i hscan with hlt | hall
    · exact absurd hc (not_le.mpr hlt)
    · exact hall _

theorem Geo.wp_freeVirAddr (h : Geo m kf uf) (hi : vbase pf + i < 2 ^ 20) :
    wp noStop e (freeVirAddr pf ((vbase pf + i) * 4096) cnt)
      (fun _ r => r = m.setVap pf (bitMapSetRun (m.vap pf).bitMap false cnt i)) m := by
  unfold freeVirAddr
  rw [wp_get_bind, wp_modify, h.vstart, Mem.wordSub_pages hi]

end Virtual

section Window

/-- The last 4 MiB show the tables. -/
theorem SelfMapped.walk_window (h : m.SelfMapped) (hlo : 0xffc00000 ≤ v) (hhi : v < 2 ^ 32) :
    m.walk v = if present (m.phys m.cr3 (pteIdx v)) then
      some (entryFrame (m.phys m.cr3 (pteIdx v))) else none := by
  have hd : pdeIdx v = 1023 := by unfold pdeIdx; omega
  have hpde : m.pde v = mkEntry (m.cr3 * 4096) := by rw [pde, hd, h]
  have hpte : m.pte v = m.phys m.cr3 (pteIdx v) := by rw [pte, hpde, entryFrame_mkEntry]
  rw [walk_eq, hpde, hpte]
  simp

/-- A page of the last 4 MiB leads where it led, unless it shows a table of the range. -/
theorem Taken.window {done : ℕ} (ht : Taken m kf uf pf b cnt done g r) (h : m.SelfMapped)
    (hlo : 0xffc00000 ≤ v) (hhi : v < 2 ^ 32)
    (hout : ∀ j < cnt, v / 4096 ≠ getPtePtr ((b + j) * 4096) / 4096) : r.walk v = m.walk v := by
  rw [ht.paged.recursive.self.walk_window hlo hhi, h.walk_window hlo hhi, ht.dir]
  intro j hj hd
  refine hout j hj ?_
  unfold getPtePtr
  rw [pdeIdx_page, ← hd]
  unfold pteIdx
  omega

end Window

section Law

/-- A page whose virtual bit is clear is not mapped, the bit of a mapped frame is set, and so is
that of the page of the user stack, the last one below the kernel. Neither half of the directory
names a table twice. -/
structure Consistent (m : Machine) (kf uf : ℕ) : Prop extends Geo m kf uf where
  apart : ∀ d < 1023, ∀ d' < 1023, (d < 768 ↔ d' < 768) →
    present (m.phys m.cr3 d) = true → present (m.phys m.cr3 d') = true →
    entryFrame (m.phys m.cr3 d) = entryFrame (m.phys m.cr3 d') → d = d'
  clear : ∀ pf, ∀ i < (m.vap pf).bitMap.bits, (m.vap pf).bitMap.bit i = false →
    m.walk ((vbase pf + i) * 4096) = none
  used : ∀ v < 2 ^ 32, ∀ pf, ∀ n < (m.pap pf).bitMap.bits, m.walk v = some (base kf uf pf + n) →
    (m.pap pf).bitMap.bit n = true
  stack : (m.vap .user).bitMap.bit (0xbffff - 8) = true

/-- A table is a mapped page, so its bit is set. -/
theorem Consistent.paged (h : Consistent m kf uf) : Paged m kf uf := by
  refine ⟨h.toGeo, fun n hn hclear d hd hp hf => ?_⟩
  have hlt : d * 2 ^ 22 < 2 ^ 32 := by omega
  have hidx : pdeIdx (d * 2 ^ 22) = d := by unfold pdeIdx; omega
  have hw := walk_getPtePtr h.recursive.self hlt
  have hpde : m.pde (d * 2 ^ 22) = m.phys m.cr3 d := by rw [pde, hidx]
  rw [hpde, if_pos hp, hf] at hw
  have hptr : getPtePtr (d * 2 ^ 22) < 2 ^ 32 := by
    unfold getPtePtr pteIdx
    rw [hidx]
    omega
  have hset : m.kernelPap.bitMap.bit n = true := h.used _ hptr .kernel n hn hw
  rw [hclear] at hset
  exact absurd hset (by decide)

/-- Two pages of one area with one entry are one page. -/
theorem Consistent.not_alias (h : Consistent m kf uf) {x y : ℕ} (hx : InArea m pf x)
    (hy : InArea m pf y) (hne : x ≠ y) : ¬m.Alias (x * 4096) (y * 4096) := by
  rintro ⟨hpx, hpy, hT, hidx⟩
  have hux := h.uvEnd
  have hkx := h.kvEnd
  unfold pde at hpx hpy hT
  rw [pdeIdx_page] at hpx hpy hT
  rw [pdeIdx_page] at hT
  have hbounds : x / 1024 < 1023 ∧ y / 1024 < 1023 ∧ (x / 1024 < 768 ↔ y / 1024 < 768) := by
    obtain ⟨hx₁, hx₂⟩ := hx
    obtain ⟨hy₁, hy₂⟩ := hy
    cases pf <;> simp only [vbase] at hx₁ hx₂ hy₁ hy₂ <;> omega
  have hd := h.apart _ hbounds.1 _ hbounds.2.1 hbounds.2.2 hpx hpy hT.symm
  unfold pteIdx at hidx
  omega

/-- The bitmaps and the mappings are those of `m`, up to the pages that show the tables of the
range. -/
structure RolledBack (m : Machine) (pf : PoolFlag) (cnt : ℕ) (r : Machine) : Prop where
  pap : (r.pap pf).bitMap = (m.pap pf).bitMap
  vap : (r.vap pf).bitMap = (m.vap pf).bitMap
  range : ∀ i, bitMapScan (m.vap pf).bitMap cnt = some i → ∀ j < cnt,
    r.walk ((vbase pf + i + j) * 4096) = none
  walk : ∀ v < 0xffc00000, r.walk v = m.walk v
  window : ∀ v, 0xffc00000 ≤ v → v < 2 ^ 32 →
    (∀ i, bitMapScan (m.vap pf).bitMap cnt = some i → ∀ j < cnt,
      v / 4096 ≠ getPtePtr ((vbase pf + i + j) * 4096) / 4096) → r.walk v = m.walk v

/-- The pages `vbase pf + i + j` below `cnt` were free and lead to the free frames `g j`. No other
page changed, except those that share an entry with one of them, which lead where it leads, and
those that show a table of the range. -/
structure Granted (m : Machine) (kf uf : ℕ) (pf : PoolFlag) (cnt i : ℕ) (g : ℕ → ℕ) (r : Machine) :
    Prop where
  free : i + cnt ≤ (m.vap pf).bitMap.bits ∧
    ∀ j < cnt, (m.vap pf).bitMap.bit (i + j) = false ∧ m.walk ((vbase pf + i + j) * 4096) = none
  marked : ∀ k, (r.vap pf).bitMap.bit k = true ↔
    (m.vap pf).bitMap.bit k = true ∨ (i ≤ k ∧ k < i + cnt)
  mapped : ∀ j < cnt, r.walk ((vbase pf + i + j) * 4096) = some (base kf uf pf + g j)
  frame : ∀ j < cnt, g j < (m.pap pf).bitMap.bits ∧ (m.pap pf).bitMap.bit (g j) = false ∧
    ∀ v < 2 ^ 32, m.walk v ≠ some (base kf uf pf + g j)
  distinct : ∀ j < cnt, ∀ j' < cnt, g j = g j' → j = j'
  taken : ∀ k, (r.pap pf).bitMap.bit k = true ↔
    (m.pap pf).bitMap.bit k = true ∨ ∃ j < cnt, g j = k
  others : ∀ v < 0xffc00000,
    (∀ j < cnt, v / 4096 ≠ vbase pf + i + j ∧ ¬m.Alias ((vbase pf + i + j) * 4096) v) →
    r.walk v = m.walk v
  shared : ∀ v, ∀ j < cnt, m.Alias ((vbase pf + i + j) * 4096) v →
    r.walk v = some (base kf uf pf + g j)
  window : ∀ v, 0xffc00000 ≤ v → v < 2 ^ 32 →
    (∀ j < cnt, v / 4096 ≠ getPtePtr ((vbase pf + i + j) * 4096) / 4096) → r.walk v = m.walk v

theorem Consistent.scan (h : Consistent m kf uf) (hcnt : 0 < cnt)
    (hscan : bitMapScan (m.vap pf).bitMap cnt = some i) :
    i + cnt ≤ (m.vap pf).bitMap.bits ∧
      (∀ j < cnt, (m.vap pf).bitMap.bit (i + j) = false ∧
        m.walk ((vbase pf + i + j) * 4096) = none) ∧
      (pf = .user → (8 + i) * 4096 < 0xc0000000 - 4096) := by
  obtain ⟨hend, hclear⟩ := bitMapScan_eq_some h.vbits_lt hcnt hscan
  have hfree : ∀ j < cnt, (m.vap pf).bitMap.bit (i + j) = false :=
    fun j hj => hclear (i + j) (by omega) (by omega)
  refine ⟨hend, fun j hj => ⟨hfree j hj, ?_⟩, ?_⟩
  · rw [Nat.add_assoc]
    exact h.clear pf (i + j) (by omega) (hfree j hj)
  · rintro rfl
    have hu := h.uvEnd
    by_contra hc
    have hi : i = 0xbffff - 8 := by omega
    have hbit := hfree 0 hcnt
    rw [Nat.add_zero, hi, h.stack] at hbit
    exact absurd hbit (by decide)

theorem granted_of_taken (h : Consistent m kf uf) (hcnt : 0 < cnt)
    (hscan : bitMapScan (m.vap pf).bitMap cnt = some i)
    {r₀ : Machine} (hr₀ : r₀ = m.setVap pf (bitMapSetRun (m.vap pf).bitMap true cnt i))
    (ht : Taken r₀ kf uf pf (vbase pf + i) cnt cnt g r) : Granted m kf uf pf cnt i g r := by
  obtain ⟨hend, hfree, -⟩ := h.scan hcnt hscan
  have hpap : r₀.pap pf = m.pap pf := by rw [hr₀, pap_setVap]
  have hwalk : ∀ v, r₀.walk v = m.walk v := fun v => by rw [hr₀, walk_setVap]
  have halias : ∀ v w, r₀.Alias v w ↔ m.Alias v w := fun v w => by rw [hr₀, alias_setVap]
  have hpicked := ht.picked
  rw [hpap] at hpicked
  have hself : r₀.SelfMapped := by
    rw [hr₀]
    exact h.paged.setVap.recursive.self
  constructor
  · exact ⟨hend, hfree⟩
  · intro k
    rw [ht.vap, hr₀, vap_setVap_self, bitMapSetRun_bit]
    by_cases hk : i ≤ k ∧ k < i + cnt <;> simp [hk]
  · exact ht.walk
  · intro j hj
    obtain ⟨hlt, hclear⟩ := hpicked.frame j hj
    refine ⟨hlt, hclear, fun v hvlt hv => ?_⟩
    rw [h.used v hvlt pf (g j) hlt hv] at hclear
    exact absurd hclear (by decide)
  · exact hpicked.inj
  · exact hpicked.taken
  · intro v hv hout
    rw [← hwalk]
    exact ht.others v hv fun j hj => ⟨(hout j hj).1, fun ha => (hout j hj).2 ((halias _ _).mp ha)⟩
  · intro v j hj ha
    rw [(ht.entered.alias_of ((halias _ _).mpr ha)).walk, ht.walk j hj]
  · intro v hlo hhi hout
    rw [← hwalk]
    exact ht.window hself hlo hhi hout

theorem rolledBack_of_taken (h : Consistent m kf uf) (hcnt : 0 < cnt)
    (hscan : bitMapScan (m.vap pf).bitMap cnt = some i)
    {r₀ : Machine} (hr₀ : r₀ = m.setVap pf (bitMapSetRun (m.vap pf).bitMap true cnt i))
    (ht : Taken r₀ kf uf pf (vbase pf + i) cnt 0 g r) :
    RolledBack m pf cnt (r.setVap pf (bitMapSetRun (r.vap pf).bitMap false cnt i)) := by
  obtain ⟨hend, hfree, -⟩ := h.scan hcnt hscan
  have hpap : r₀.pap pf = m.pap pf := by rw [hr₀, pap_setVap]
  have hself : r₀.SelfMapped := by
    rw [hr₀]
    exact h.paged.setVap.recursive.self
  have hwalk : ∀ v < 0xffc00000, r.walk v = m.walk v := fun v hv => by
    rw [ht.others v hv fun j hj => absurd hj (Nat.not_lt_zero j), hr₀, walk_setVap]
  constructor
  · rw [pap_setVap, ← hpap]
    refine bitMap_eq_of_bit ?_ fun k => ?_
    · have := ht.bits pf
      unfold BitMap.bits at this
      omega
    · rw [Bool.eq_iff_iff, ht.picked.taken]
      simp
  · rw [vap_setVap_self, ht.vap, hr₀, vap_setVap_self]
    refine bitMap_eq_of_bit (by simp) fun k => ?_
    rw [bitMapSetRun_bit, bitMapSetRun_bit]
    split_ifs with hk
    · have := (hfree (k - i) (by omega)).1
      rw [show i + (k - i) = k by omega] at this
      exact this.symm
    · rfl
  · intro i' hi' j hj
    rw [hscan] at hi'
    obtain rfl : i = i' := Option.some.inj hi'
    have harea : InArea m pf (vbase pf + i + j) := ⟨by omega, by omega⟩
    rw [walk_setVap, hwalk _ (h.paged.page_lt harea)]
    exact (hfree j hj).2
  · intro v hv
    rw [walk_setVap, hwalk v hv]
  · intro v hlo hhi hout
    have hr₀v : r₀.walk v = m.walk v := by rw [hr₀, walk_setVap]
    rw [walk_setVap, ← hr₀v]
    exact ht.window hself hlo hhi (hout i hscan)

/-- A call of `allocPage` ends with its pages mapped or with everything as it was. -/
theorem rollback_law (h : Consistent m kf uf) (hcnt : 0 < cnt) (hlt : cnt < 3840)
    (hres : ∀ i, bitMapScan (m.vap pf).bitMap cnt = some i →
      Reserve m pf (vbase pf + i) cnt) :
    wp noStop e (allocPage pf cnt) (fun o r => match o with
      | none => RolledBack m pf cnt r
      | some virPageAddr =>
          ∃ i g, virPageAddr = (vbase pf + i) * 4096 ∧ Granted m kf uf pf cnt i g r) m := by
  unfold allocPage
  rw [wp_assert_pos ⟨hcnt, hlt⟩]
  apply wp_call (h.wp_allocVirAddr fun hpf i hi => .inl ((h.scan hcnt hi).2.2 hpf))
  rintro (_ | virPageAddr) r₀ hr
  · obtain ⟨hnone, rfl⟩ := hr
    refine wp_pure.mpr ⟨rfl, rfl, fun i hi => ?_, fun _ _ => rfl, fun _ _ _ _ => rfl⟩
    rw [hnone] at hi
    cases hi
  · obtain ⟨i, hscan, rfl, hr₀⟩ := hr
    obtain ⟨hend, hfree, -⟩ := h.scan hcnt hscan
    have hpaged : Paged r₀ kf uf := by
      rw [hr₀]
      exact h.paged.setVap
    have hin : ∀ j < cnt, InArea m pf (vbase pf + i + j) := fun j hj => ⟨by omega, by omega⟩
    have hin₀ : ∀ j < cnt, InArea r₀ pf (vbase pf + i + j) := by
      intro j hj
      unfold InArea
      rw [hr₀, vapBits_setVap]
      exact hin j hj
    have hvacant : Vacant r₀ (vbase pf + i) cnt := by
      intro j hj
      rw [hr₀, walk_setVap]
      refine ⟨(hfree j hj).2, fun i' hi' => ?_⟩
      rw [alias_setVap]
      exact h.not_alias (hin i' (by omega)) (hin j hj) (by omega)
    have hres₀ : Reserve r₀ pf (vbase pf + i + 0) cnt := by
      rw [hr₀]
      exact (hres i hscan).setVap
    have hlow := hpaged.page_lt (hin₀ 0 hcnt)
    apply wp_call (wp_mapPages_taken hpaged hin₀ (.inl hvacant) cnt 0 (fun _ => 0) r₀ (by omega)
      (.start hpaged) hres₀)
    rintro (_ | _) r ⟨g, ht⟩
    · have hpage : vbase pf + i < 2 ^ 20 := by omega
      have hpos : 0 < vbase pf := by cases pf <;> decide
      rw [if_neg Bool.false_ne_true]
      apply wp_call (ht.paged.wp_freeVirAddr hpage)
      rintro ⟨⟩ r' rfl
      rw [wp_assert_pos]
      · exact wp_pure.mpr (rolledBack_of_taken h hcnt hscan hr₀ ht)
      · unfold wordSub
        omega
    · exact wp_pure.mpr ⟨i, g, rfl, granted_of_taken h hcnt hscan hr₀ ht⟩

/-- A directory with the tables of the kernel, and a table under its first entry when `low` is one
of them. Frame 0x101 maps what `entry` says. -/
def barePhys (low : Bool) (entry : ℕ → ℕ) (f i : ℕ) : ℕ :=
  if f = 0x100 then if low ∧ i = 0 then mkEntry (0x101 * 4096) else sampleEntries 0x100 i
  else if f = 0x101 then entry i else 0

/-- A memory with eight frames for the kernel and one left for user space. -/
def bareMachine (phys : ℕ → ℕ → ℕ) (used : ℕ) : Machine :=
  { exitMachine phys with
    cr3 := 0x100
    kernelPap := ⟨⟨1, fun _ => 0⟩, 0x200000⟩
    userPap := ⟨⟨1, fun _ => 0xfe⟩, 0x208000⟩
    kernelVap := ⟨⟨1, fun _ => 0⟩, 0, 0xc0100000⟩
    tasks := fun _ => { sampleTask 5 4 TaskStatus.running 0xc0102000 with
      vap := ⟨⟨0x17fff, fun i => if i < used then 0xff else if i = 0x17ffe then 0x80 else 0⟩, 0,
        0x8000⟩ } }

/-- Nothing is mapped below the last 4 MiB. -/
def scarceMachine : Machine := bareMachine (barePhys false fun _ => 0) 0

/-- The first megabyte is mapped as the loader leaves it, below and above. -/
def loaderMachine : Machine :=
  bareMachine (barePhys true fun i => if i < 256 then mkEntry (i * 4096) else 0) 31

section Bare

variable {low : Bool} {entry : ℕ → ℕ} {used d : ℕ}

theorem barePhys_dir : barePhys low entry 0x100 d =
    if low ∧ d = 0 then mkEntry (0x101 * 4096) else sampleEntries 0x100 d := if_pos rfl

theorem barePhys_frame (hp : present (barePhys low entry 0x100 d) = true) :
    (low ∧ d = 0 ∧ entryFrame (barePhys low entry 0x100 d) = 0x101) ∨
      (768 ≤ d ∧ d < 1023 ∧ entryFrame (barePhys low entry 0x100 d) = 0x101 + (d - 768)) ∨
      (d = 1023 ∧ entryFrame (barePhys low entry 0x100 d) = 0x100) := by
  rw [barePhys_dir] at hp ⊢
  unfold sampleEntries at hp ⊢
  split_ifs at hp ⊢ with h₁ h₂ h₃
  · exact .inl ⟨h₁.1, h₁.2, entryFrame_mkEntry _⟩
  · exact .inr (.inl ⟨h₂.1, h₂.2, entryFrame_mkEntry _⟩)
  · exact .inr (.inr ⟨h₃, entryFrame_mkEntry _⟩)
  · exact absurd hp (by decide)

/-- Only frames below the pools are mapped. -/
theorem bare_walk (hentry : ∀ i, present (entry i) = true → entryFrame (entry i) < 0x200)
    (h : (bareMachine (barePhys low entry) used).walk v = some f) : f < 0x200 := by
  rw [walk_eq] at h
  split_ifs at h with hp
  obtain ⟨hpde, hpte⟩ := hp
  obtain rfl := Option.some.inj h
  have hself : present (barePhys low entry 0x100 (pdeIdx v)) = true := hpde
  have hdir := barePhys_frame hself
  unfold pte at hpte ⊢
  change present (barePhys low entry _ _) = true at hpte
  change entryFrame (barePhys low entry _ _) < 0x200
  set t := entryFrame ((bareMachine (barePhys low entry) used).pde v) with ht
  by_cases hself : t = 0x100
  · rw [hself] at hpte ⊢
    have := barePhys_frame hpte
    omega
  · unfold barePhys at hpte ⊢
    rw [if_neg hself] at hpte ⊢
    split_ifs at hpte ⊢ with htable
    · exact hentry _ hpte
    · exact absurd hpte (by decide)

theorem bare_walk_none (hp : p < 0xffc00)
    (hentry : p / 1024 = 0 ∨ p / 1024 = 768 → present (entry (p % 1024)) = false) :
    (bareMachine (barePhys low entry) used).walk (p * 4096) = none := by
  rw [walk_eq, if_neg]
  rintro ⟨hpde, hpte⟩
  have hself : present (barePhys low entry 0x100 (pdeIdx (p * 4096))) = true := hpde
  have hdir := barePhys_frame hself
  rw [pdeIdx_page] at hdir
  have hpage : pteIdx (p * 4096) = p % 1024 := by unfold pteIdx; omega
  unfold pte at hpte
  change present (barePhys low entry _ _) = true at hpte
  have ht : entryFrame ((bareMachine (barePhys low entry) used).pde (p * 4096)) =
      entryFrame (barePhys low entry 0x100 (p / 1024)) := by
    unfold pde
    rw [pdeIdx_page]
    rfl
  rw [ht, hpage] at hpte
  set t := entryFrame (barePhys low entry 0x100 (p / 1024)) with hframe
  have hne : t ≠ 0x100 := by omega
  unfold barePhys at hpte
  rw [if_neg hne] at hpte
  split_ifs at hpte with htable
  · rw [hentry (by omega)] at hpte
    exact absurd hpte (by decide)
  · exact absurd hpte (by decide)

theorem bareMachine_consistent
    (hentry : ∀ i, present (entry i) = true → entryFrame (entry i) < 0x200)
    (hclear : ∀ pf, ∀ i < ((bareMachine (barePhys low entry) used).vap pf).bitMap.bits,
      ((bareMachine (barePhys low entry) used).vap pf).bitMap.bit i = false →
      (vbase pf + i) / 1024 = 0 ∨ (vbase pf + i) / 1024 = 768 →
      present (entry ((vbase pf + i) % 1024)) = false)
    (hstack : ((bareMachine (barePhys low entry) used).vap .user).bitMap.bit (0xbffff - 8) = true) :
    Consistent (bareMachine (barePhys low entry) used) 0x200 0x208 := by
  set m := bareMachine (barePhys low entry) used with hm
  have hubits : (m.vap .user).bitMap.bits = 0xbfff8 := rfl
  have hkbits : (m.vap .kernel).bitMap.bits = 8 := rfl
  have hpool : ∀ pf, (m.pap pf).bitMap.bits = 8 := fun pf => by cases pf <;> rfl
  have hkpool : m.kernelPap.bitMap.bits = 8 := hpool .kernel
  have hupool : m.userPap.bitMap.bits = 8 := hpool .user
  refine ⟨⟨⟨rfl, rfl, by norm_num, by omega, by omega⟩, ⟨?_, fun d hd hp => ?_⟩, ?_,
    fun pf => by cases pf <;> rfl, by omega, by omega⟩, ?_, fun pf i hi hbit => ?_, ?_, hstack⟩
  · change barePhys low entry 0x100 1023 = _
    rw [barePhys_dir, if_neg (by omega), sampleEntries_self]
    rfl
  · change entryFrame (barePhys low entry 0x100 d) ≠ 0x100
    have hself : present (barePhys low entry 0x100 d) = true := hp
    have := barePhys_frame hself
    omega
  · intro d hd hd'
    change present (barePhys low entry 0x100 d) = true
    rw [barePhys_dir, if_neg (by omega), sampleEntries_table hd hd', present_mkEntry]
  · intro d hd d' hd' hhalf hp hp' hT
    change entryFrame (barePhys low entry 0x100 d) = entryFrame (barePhys low entry 0x100 d') at hT
    have hself : present (barePhys low entry 0x100 d) = true := hp
    have hself' : present (barePhys low entry 0x100 d') = true := hp'
    have h := barePhys_frame hself
    have h' := barePhys_frame hself'
    omega
  · have hpage : vbase pf + i < 0xffc00 := by
      cases pf with
      | user =>
        change 8 + i < 0xffc00
        omega
      | kernel =>
        change 0xc0100 + i < 0xffc00
        omega
    exact bare_walk_none hpage (hclear pf i hi hbit)
  · intro v _ pf n _ hv
    have hlt := bare_walk hentry hv
    cases pf <;> simp only [base] at hlt <;> omega

theorem scarceMachine_consistent : Consistent scarceMachine 0x200 0x208 :=
  bareMachine_consistent (fun _ hp => absurd hp (by decide)) (fun _ _ _ _ _ => by rfl)
    (by decide +kernel)

theorem loaderMachine_consistent : Consistent loaderMachine 0x200 0x208 := by
  have hentry : ∀ i, present (if i < 256 then mkEntry (i * 4096) else 0) = true → i < 256 := by
    intro i hp
    by_contra hc
    rw [if_neg hc] at hp
    exact absurd hp (by decide)
  refine bareMachine_consistent (fun i hp => ?_) (fun pf i hi hbit hd => ?_) (by decide +kernel)
  · have hi := hentry i hp
    rw [if_pos hi, entryFrame_mkEntry]
    omega
  · rw [if_neg]
    · rfl
    cases pf with
    | kernel =>
      have hi : i < 8 := hi
      simp only [vbase] at hd ⊢
      omega
    | user =>
      have hlow : 248 ≤ i := by
        by_contra hc
        have hall : ∀ k < 248, (loaderMachine.vap .user).bitMap.bit k = true := by decide +kernel
        have hbit : (loaderMachine.vap .user).bitMap.bit i = false := hbit
        rw [hall i (by omega)] at hbit
        exact absurd hbit (by decide)
      have hi : i < 0x17fff * 8 := hi
      simp only [vbase] at hd ⊢
      omega

end Bare

theorem scarceMachine_reserve : Reserve scarceMachine .user i 2 := by
  intro _
  have hroom : 2 ≤ scarceMachine.kernelPap.bitMap.clearBits := by decide +kernel
  refine ((Finset.card_filter_le _ _).trans Finset.card_image_le).trans ?_
  rw [Finset.card_range]
  exact (min_le_left _ _).trans hroom

/-- Two pages are asked for, and the second has no frame. -/
theorem rollback_law_sample :
    (allocPage .user 2 sampleHeap 0 scarceMachine).value = some none ∧
    wp noStop sampleHeap (allocPage .user 2) (fun o r => match o with
      | none => RolledBack scarceMachine .user 2 r
      | some virPageAddr => ∃ i g, virPageAddr = (vbase .user + i) * 4096 ∧
          Granted scarceMachine 0x200 0x208 .user 2 i g r) scarceMachine :=
  ⟨by decide +kernel, @rollback_law scarceMachine sampleHeap 0x200 0x208 2 .user
    scarceMachine_consistent (by norm_num) (by norm_num) fun _ _ => scarceMachine_reserve⟩

/-- A page of the kernel heap is mapped, and an address in the first 4 MiB with it. And the table
that a page of user space takes is seen in the last 4 MiB. -/
theorem rollback_law_fails :
    (Consistent loaderMachine 0x200 0x208 ∧ loaderMachine.walk 0x100000 = none ∧
      ∃ r, Returns sampleHeap (allocPage .kernel 1) loaderMachine (some 0xc0100000) r ∧
        r.walk 0x100000 = some 0x200) ∧
    Consistent scarceMachine 0x200 0x208 ∧ scarceMachine.walk 0xffc00000 = none ∧
      ∃ r, Returns sampleHeap (allocPage .user 1) scarceMachine (some 0x8000) r ∧
        r.walk 0xffc00000 = some 0x200 := by
  refine ⟨⟨loaderMachine_consistent, by decide +kernel, ?_⟩, scarceMachine_consistent,
    by decide +kernel, ?_⟩
  · exact ⟨_, .of_value (by decide +kernel), by decide +kernel⟩
  · exact ⟨_, .of_value (by decide +kernel), by decide +kernel⟩

end Law

end Gogoos.Machine
