import Gogoos.Kernel.Paging

/-!
# Frames given back

What `freePhyAddr`, `freePage` and the walk of `releaseProgramResource` do to the bitmaps of the
two pools. Every directory has the same page tables for the kernel, and a page is numbered by its
address over 4096.
-/

namespace Gogoos.Machine

open Program

variable {e : Heap} {m r r' : Machine} {kt : ℕ → ℕ} {kf uf f p q cnt : ℕ} {pf : PoolFlag}
  {S S' : ℕ → Prop}

section Frames

/-- The frame of a bit. -/
def frame (m : Machine) (pf : PoolFlag) (n : ℕ) : ℕ := (m.pap pf).startAddr / 4096 + n

/-- The bits of the frames in `S` were cleared, and no other bit was changed. -/
structure Freed (m r : Machine) (S : ℕ → Prop) : Prop where
  start : ∀ pf, (r.pap pf).startAddr = (m.pap pf).startAddr
  bits : ∀ pf, (r.pap pf).bitMap.bits = (m.pap pf).bitMap.bits
  bit : ∀ pf, ∀ n < (m.pap pf).bitMap.bits, (r.pap pf).bitMap.bit n = true ↔
    (m.pap pf).bitMap.bit n = true ∧ ¬S (m.frame pf n)

theorem Freed.of_pap (h : ∀ pf, r.pap pf = m.pap pf) : Freed m r fun _ => False :=
  ⟨fun pf => by rw [h], fun pf => by rw [h], fun pf n _ => by simp [h]⟩

theorem Freed.trans (h : Freed m r S) (h' : Freed r r' S') :
    Freed m r' fun g => S g ∨ S' g := by
  refine ⟨fun pf => (h'.start pf).trans (h.start pf), fun pf => (h'.bits pf).trans (h.bits pf),
    fun pf n hn => ?_⟩
  have hframe : r.frame pf n = m.frame pf n := by
    unfold frame
    rw [h.start]
  rw [h'.bit pf n ((h.bits pf).symm ▸ hn), h.bit pf n hn, hframe]
  tauto

theorem Freed.congr (h : Freed m r S) (hS : ∀ g, S g ↔ S' g) : Freed m r S' :=
  ⟨h.start, h.bits, fun pf n hn => by rw [h.bit pf n hn, hS]⟩

/-- The pools are apart. -/
structure PoolGeo (m : Machine) (kf uf : ℕ) : Prop where
  kstart : m.kernelPap.startAddr = kf * 4096
  ustart : m.userPap.startAddr = uf * 4096
  low : 0x102 < kf
  gap : kf + m.kernelPap.bitMap.bits ≤ uf
  high : uf + m.userPap.bitMap.bits ≤ 2 ^ 20

theorem PoolGeo.freed (h : PoolGeo m kf uf) (hr : Freed m r S) : PoolGeo r kf uf := by
  refine ⟨(hr.start .kernel).trans h.kstart, (hr.start .user).trans h.ustart, h.low, ?_, ?_⟩
  · have : r.kernelPap.bitMap.bits = m.kernelPap.bitMap.bits := hr.bits .kernel
    rw [this]
    exact h.gap
  · have : r.userPap.bitMap.bits = m.userPap.bitMap.bits := hr.bits .user
    rw [this]
    exact h.high

/-- Only memory was touched. -/
structure Same (m r : Machine) : Prop where
  cr3 : r.cr3 = m.cr3
  tasks : r.tasks = m.tasks
  current : r.current = m.current
  mainThread : r.mainThread = m.mainThread
  all : r.threadAllList = m.threadAllList
  fileTable : r.fileTable = m.fileTable

theorem Same.refl : Same m m := ⟨rfl, rfl, rfl, rfl, rfl, rfl⟩

theorem Same.trans (h : Same m r) (h' : Same r r') : Same m r' :=
  ⟨h'.cr3.trans h.cr3, h'.tasks.trans h.tasks, h'.current.trans h.current,
    h'.mainThread.trans h.mainThread, h'.all.trans h.all, h'.fileTable.trans h.fileTable⟩

theorem same_setPapBit {i : ℕ} {b : Bool} : Same m (m.setPapBit pf i b) := by
  cases pf <;> exact ⟨rfl, rfl, rfl, rfl, rfl, rfl⟩

@[simp] theorem phys_setPapBit {i : ℕ} {b : Bool} : (m.setPapBit pf i b).phys = m.phys := by
  cases pf <;> rfl

theorem pap_setPapBit_self {i : ℕ} {b : Bool} : (m.setPapBit pf i b).pap pf =
    { m.pap pf with bitMap := bitMapSet (m.pap pf).bitMap i b } := by
  cases pf <;> rfl

theorem pap_setPapBit_ne {pf q : PoolFlag} {i : ℕ} {b : Bool} (h : q ≠ pf) :
    (m.setPapBit pf i b).pap q = m.pap q := by
  cases pf <;> cases q <;> first | rfl | exact absurd rfl h

/-- A clear bit of one pool stands for a frame, when no other frame has it. -/
theorem freed_setPapBit {i : ℕ}
    (hpf : ∀ n < (m.pap pf).bitMap.bits, n = i ↔ m.frame pf n = f)
    (hother : ∀ q, q ≠ pf → ∀ n < (m.pap q).bitMap.bits, m.frame q n ≠ f) :
    Freed m (m.setPapBit pf i false) (· = f) := by
  refine ⟨fun q => ?_, fun q => ?_, fun q n hn => ?_⟩
  · by_cases hq : q = pf
    · rw [hq, pap_setPapBit_self]
    · rw [pap_setPapBit_ne hq]
  · by_cases hq : q = pf
    · rw [hq, pap_setPapBit_self, bitMapSet_bits]
    · rw [pap_setPapBit_ne hq]
  · by_cases hq : q = pf
    · subst hq
      rw [pap_setPapBit_self, bitMapSet_bit, ← hpf n hn]
      by_cases hni : n = i <;> simp [hni]
    · rw [pap_setPapBit_ne hq]
      simp [hother q hq n hn]

theorem wp_freeFrame (h : PoolGeo m kf uf) (hf : f < 2 ^ 20) :
    wp noStop e (freePhyAddr (f * 4096))
      (fun _ r => Freed m r (· = f) ∧ Same m r ∧ r.phys = m.phys) m := by
  have hgap := h.gap
  have hhigh := h.high
  have hk : ∀ n, m.frame .kernel n = kf + n := fun n => by
    change m.kernelPap.startAddr / 4096 + n = _
    rw [h.kstart, Nat.mul_div_cancel _ (by norm_num)]
  have hu : ∀ n, m.frame .user n = uf + n := fun n => by
    change m.userPap.startAddr / 4096 + n = _
    rw [h.ustart, Nat.mul_div_cancel _ (by norm_num)]
  unfold freePhyAddr
  rw [wp_get_bind, wp_modify]
  refine ⟨?_, same_setPapBit, phys_setPapBit⟩
  unfold poolOf
  rw [h.ustart]
  by_cases huf : uf ≤ f
  · rw [if_pos (Nat.mul_le_mul_right _ huf)]
    change Freed m (m.setPapBit .user (wordSub (f * 4096) m.userPap.startAddr / 4096) false) _
    have hidx : wordSub (f * 4096) m.userPap.startAddr / 4096 = f - uf := by
      rw [h.ustart]
      unfold wordSub
      omega
    rw [hidx]
    refine freed_setPapBit (fun n _ => ?_) fun q hq n hn => ?_
    · rw [hu]
      omega
    · cases q with
      | user => exact absurd rfl hq
      | kernel =>
        change n < m.kernelPap.bitMap.bits at hn
        rw [hk]
        omega
  · rw [if_neg (by omega)]
    change Freed m (m.setPapBit .kernel (wordSub (f * 4096) m.kernelPap.startAddr / 4096) false) _
    rw [h.kstart]
    refine freed_setPapBit (fun n hn => ?_) fun q hq n hn => ?_
    · change n < m.kernelPap.bitMap.bits at hn
      rw [hk]
      unfold wordSub
      omega
    · cases q with
      | user =>
        rw [hu]
        omega
      | kernel => exact absurd rfl hq

end Frames

section Pages

/-- Entry of the page table for a page of the kernel, `kt` being the frames of its tables. -/
def kpte (kt : ℕ → ℕ) (m : Machine) (p : ℕ) : ℕ := m.phys (kt (p / 1024)) (p % 1024)

/-- The pages that the kernel reaches through its own tables. -/
def KernelPage (p : ℕ) : Prop := 768 ≤ p / 1024 ∧ p / 1024 < 1023

/-- A directory with the tables of the kernel. -/
structure Directory (kt : ℕ → ℕ) (m : Machine) (c : ℕ) : Prop where
  table : ∀ d, 768 ≤ d → d < 1023 →
    present (m.phys c d) = true ∧ entryFrame (m.phys c d) = kt d
  self : m.phys c 1023 = mkEntry (c * 4096)

/-- The tables of the kernel are distinct frames. -/
def Distinct (kt : ℕ → ℕ) : Prop :=
  ∀ d d', 768 ≤ d → d < 1023 → 768 ≤ d' → d' < 1023 → kt d = kt d' → d = d'

/-- A frame that is no table of the kernel. -/
def NoTable (kt : ℕ → ℕ) (c : ℕ) : Prop := ∀ d, 768 ≤ d → d < 1023 → kt d ≠ c

/-- A page of the kernel that is mapped to `f`, a frame of its pool. -/
structure Mapped (kt : ℕ → ℕ) (kf uf : ℕ) (m : Machine) (p f : ℕ) : Prop where
  kernel : KernelPage p
  present : present (kpte kt m p) = true
  frame : entryFrame (kpte kt m p) = f
  pool : kf ≤ f ∧ f < uf

/-- The entries of the pages from `p` on were changed, and no other memory. -/
structure Touched (kt : ℕ → ℕ) (m r : Machine) (p cnt : ℕ) : Prop where
  frames : ∀ c, NoTable kt c → r.phys c = m.phys c
  pages : ∀ q, KernelPage q → ¬(p ≤ q ∧ q < p + cnt) → kpte kt r q = kpte kt m q

theorem Touched.of_phys (h : r.phys = m.phys) : Touched kt m r p 0 :=
  ⟨fun _ _ => by rw [h], fun _ _ _ => by unfold kpte; rw [h]⟩

theorem Touched.trans {b cnt' k : ℕ} (h : Touched kt m r p cnt) (h' : Touched kt r r' b cnt')
    (hin : ∀ q, p ≤ q ∧ q < p + cnt ∨ b ≤ q ∧ q < b + cnt' → f ≤ q ∧ q < f + k) :
    Touched kt m r' f k :=
  ⟨fun c hc => (h'.frames c hc).trans (h.frames c hc), fun q hq hout =>
    (h'.pages q hq fun hc => hout (hin q (.inr hc))).trans
      (h.pages q hq fun hc => hout (hin q (.inl hc)))⟩

theorem Directory.touched {c : ℕ} (h : Directory kt m c) (ht : Touched kt m r p cnt)
    (hc : NoTable kt c) : Directory kt r c := by
  refine ⟨fun d hd hd' => ?_, ?_⟩
  · rw [ht.frames c hc]
    exact h.table d hd hd'
  · rw [ht.frames c hc]
    exact h.self

theorem Mapped.touched (h : Mapped kt kf uf m q f) (ht : Touched kt m r p cnt)
    (hout : ¬(p ≤ q ∧ q < p + cnt)) : Mapped kt kf uf r q f := by
  have heq := ht.pages q h.kernel hout
  exact ⟨h.kernel, heq ▸ h.present, heq ▸ h.frame, h.pool⟩

theorem page_pdeIdx {o : ℕ} (ho : o < 4096) : pdeIdx (p * 4096 + o) = p / 1024 := by
  unfold pdeIdx
  omega

theorem page_pteIdx {o : ℕ} (ho : o < 4096) : pteIdx (p * 4096 + o) = p % 1024 := by
  unfold pteIdx
  omega

theorem Mapped.walk (h : Mapped kt kf uf m p f) (hd : Directory kt m m.cr3) {o : ℕ}
    (ho : o < 4096) : m.walk (p * 4096 + o) = some f := by
  obtain ⟨hpres, htab⟩ := hd.table _ h.kernel.1 h.kernel.2
  have hpde : m.pde (p * 4096 + o) = m.phys m.cr3 (p / 1024) := by
    unfold pde
    rw [page_pdeIdx ho]
  have hpte : m.pte (p * 4096 + o) = kpte kt m p := by
    unfold pte kpte
    rw [hpde, htab, page_pteIdx ho]
  exact walk_eq_some (hpde ▸ hpres) (hpte ▸ h.present) (hpte ▸ h.frame)

theorem Mapped.walk_pte (h : Mapped kt kf uf m p f) (hd : Directory kt m m.cr3) :
    m.walk (getPtePtr (p * 4096)) = some (kt (p / 1024)) := by
  obtain ⟨hpres, htab⟩ := hd.table _ h.kernel.1 h.kernel.2
  have hlt := h.kernel.2
  have hpde : m.pde (p * 4096) = m.phys m.cr3 (p / 1024) := by
    unfold pde
    rw [← Nat.add_zero (p * 4096), page_pdeIdx (by norm_num)]
  rw [walk_getPtePtr hd.self (by omega), hpde, if_pos hpres, htab]

theorem getPtePtr_page : getPtePtr (p * 4096) % 4096 / 4 = p % 1024 := by
  rw [getPtePtr_word, ← Nat.add_zero (p * 4096), page_pteIdx (by norm_num)]

theorem wp_addrV2P (h : Mapped kt kf uf m p f) (hd : Directory kt m m.cr3) :
    wp noStop e (addrV2P (p * 4096)) (fun a r => a = f * 4096 ∧ r = m) m := by
  unfold addrV2P
  rw [wp_load_bind]
  refine ⟨fun g hg => ?_, fun hnone => ?_⟩
  · obtain rfl : kt (p / 1024) = g := Option.some.inj ((h.walk_pte hd).symm.trans hg)
    refine wp_pure.mpr ⟨?_, rfl⟩
    rw [getPtePtr_page, Nat.mul_mod_left, Nat.add_zero]
    exact congrArg (· * 4096) h.frame
  · rw [h.walk_pte hd] at hnone
    exact absurd hnone (by simp)

theorem wp_unmapPageTable (h : Mapped kt kf uf m p f) (hd : Directory kt m m.cr3)
    (hkt : Distinct kt) :
    wp noStop e (unmapPageTable (p * 4096))
      (fun _ r => Touched kt m r p 1 ∧ Same m r ∧ ∀ pf, r.pap pf = m.pap pf) m := by
  unfold unmapPageTable
  rw [wp_load_bind]
  refine ⟨fun g hg => ?_, fun hnone => ?_⟩
  · obtain rfl : kt (p / 1024) = g := Option.some.inj ((h.walk_pte hd).symm.trans hg)
    rw [wp_store]
    refine ⟨fun g hg => ?_, fun hnone => ?_⟩
    · obtain rfl : kt (p / 1024) = g := Option.some.inj ((h.walk_pte hd).symm.trans hg)
      rw [getPtePtr_page]
      refine ⟨⟨fun c hc => ?_, fun q hq hout => ?_⟩, ⟨rfl, rfl, rfl, rfl, rfl, rfl⟩,
        fun pf => by cases pf <;> rfl⟩
      · exact if_neg fun hx => hc _ h.kernel.1 h.kernel.2 hx.symm
      · unfold kpte setWord
        rw [setFrame_phys]
        dsimp only
        by_cases htab : kt (q / 1024) = kt (p / 1024)
        · have hdiv := hkt _ _ hq.1 hq.2 h.kernel.1 h.kernel.2 htab
          rw [if_pos htab, if_neg (by omega), htab]
        · rw [if_neg htab]
    · rw [h.walk_pte hd] at hnone
      exact absurd hnone (by simp)
  · rw [h.walk_pte hd] at hnone
    exact absurd hnone (by simp)

end Pages

section Loops

/-- The frames behind pages of the kernel heap are given back one by one. -/
theorem wp_freeFrames {fr : ℕ → ℕ} (hkt : Distinct kt) : ∀ cnt p m, PoolGeo m kf uf →
    Directory kt m m.cr3 → NoTable kt m.cr3 →
    (∀ q, p ≤ q → q < p + cnt → Mapped kt kf uf m q (fr q)) →
    wp noStop e (freeFrames false cnt (p * 4096)) (fun _ r =>
      Freed m r (fun g => ∃ q, p ≤ q ∧ q < p + cnt ∧ g = fr q) ∧ Same m r ∧
        Touched kt m r p cnt) m := by
  intro cnt
  induction cnt with
  | zero =>
    intro p m _ _ _ _
    refine wp_pure.mpr ⟨(Freed.of_pap fun _ => rfl).congr fun g => ?_, .refl, .of_phys rfl⟩
    exact iff_of_false id fun ⟨q, h1, h2, _⟩ => by omega
  | succ cnt ih =>
    intro p m hgeo hd hc hmap
    have hp := hmap p le_rfl (by omega)
    have hgap := hgeo.gap
    have hhigh := hgeo.high
    have hlow := hp.pool.1
    have hup := hp.pool.2
    unfold freeFrames
    apply wp_call (wp_addrV2P hp hd)
    rintro paddr r₀ ⟨rfl, hr₀⟩
    rw [hr₀, wp_get_bind, wp_assert_pos (Nat.mul_mod_left _ _)]
    simp only [Bool.false_eq_true, ↓reduceIte]
    rw [wp_assert_pos (by rw [hgeo.kstart, hgeo.ustart]; omega)]
    apply wp_call (wp_freeFrame hgeo (by omega))
    rintro ⟨⟩ r₁ ⟨hf₁, hs₁, hp₁⟩
    have ht₁ : Touched kt m r₁ p 0 := .of_phys hp₁
    have hd₁ : Directory kt r₁ r₁.cr3 := hs₁.cr3 ▸ hd.touched ht₁ hc
    apply wp_call (wp_unmapPageTable (hp.touched ht₁ (by omega)) hd₁ hkt)
    rintro ⟨⟩ r₂ ⟨ht₂, hs₂, hpap⟩
    have hc₁ : NoTable kt r₁.cr3 := hs₁.cr3 ▸ hc
    have hd₂ : Directory kt r₂ r₂.cr3 := hs₂.cr3 ▸ hd₁.touched ht₂ hc₁
    have hc₂ : NoTable kt r₂.cr3 := hs₂.cr3 ▸ hc₁
    have hgeo₂ : PoolGeo r₂ kf uf := (hgeo.freed hf₁).freed (Freed.of_pap hpap)
    have hnext : p * 4096 + 4096 = (p + 1) * 4096 := by omega
    rw [hnext]
    refine wp_mono (ih (p + 1) r₂ hgeo₂ hd₂ hc₂ fun q h1 h2 => ?_) ?_
    · exact ((hmap q (by omega) (by omega)).touched ht₁ (by omega)).touched ht₂ (by omega)
    · rintro ⟨⟩ r ⟨hf, hs, ht⟩
      have ht₁₂ : Touched kt m r₂ p 1 := ht₁.trans ht₂ (by omega)
      refine ⟨((hf₁.trans (Freed.of_pap hpap)).trans hf).congr fun g => ?_,
        (hs₁.trans hs₂).trans hs, ht₁₂.trans ht (by omega)⟩
      constructor
      · rintro ((rfl | hx) | ⟨q, h1, h2, rfl⟩)
        · exact ⟨p, le_rfl, by omega, rfl⟩
        · exact hx.elim
        · exact ⟨q, by omega, by omega, rfl⟩
      · rintro ⟨q, h1, h2, rfl⟩
        by_cases hq : q = p
        · exact .inl (.inl (by rw [hq]))
        · exact .inr ⟨q, by omega, by omega, rfl⟩

/-- `freePage` of pages of the kernel heap. -/
theorem wp_freePage {fr : ℕ → ℕ} (hkt : Distinct kt) (hgeo : PoolGeo m kf uf)
    (hd : Directory kt m m.cr3) (hc : NoTable kt m.cr3) (hcnt : 0 < cnt)
    (hmap : ∀ q, p ≤ q → q < p + cnt → Mapped kt kf uf m q (fr q)) :
    wp noStop e (freePage .kernel (p * 4096) cnt) (fun _ r =>
      Freed m r (fun g => ∃ q, p ≤ q ∧ q < p + cnt ∧ g = fr q) ∧ Same m r ∧
        Touched kt m r p cnt) m := by
  have hp := hmap p le_rfl (by omega)
  have hlow := hgeo.low
  have hpool := hp.pool
  unfold freePage
  rw [wp_assert_pos ⟨hcnt, Nat.mul_mod_left _ _⟩]
  apply wp_call (wp_addrV2P hp hd)
  rintro paddr r₀ ⟨rfl, hr₀⟩
  rw [hr₀, wp_assert_pos ⟨Nat.mul_mod_left _ _, by omega⟩, wp_get_bind]
  have hpf : m.poolOf (fr p * 4096) = .kernel := by
    unfold poolOf
    rw [hgeo.ustart]
    exact if_neg (by omega)
  rw [hpf]
  apply wp_call (wp_freeFrames hkt cnt p m hgeo hd hc hmap)
  rintro ⟨⟩ r ⟨hf, hs, ht⟩
  unfold freeVirAddr
  rw [wp_get_bind, wp_modify]
  exact ⟨⟨hf.start, hf.bits, hf.bit⟩, ⟨hs.cr3, hs.tasks, hs.current, hs.mainThread, hs.all,
    hs.fileTable⟩, ⟨ht.frames, ht.pages⟩⟩

/-- The inner loop frees the frame of the table, again and again. -/
theorem wp_releaseTable {c d : ℕ} (hD : Mapped kt kf uf m p c) (hgeo : PoolGeo m kf uf)
    (hd : Directory kt m m.cr3) (hd1 : d < 1024) (hpres : present (m.phys c d) = true)
    (hf : entryFrame (m.phys c d) < 2 ^ 20) : ∀ cnt r, Freed m r S →
    (∀ g, S g → g = entryFrame (m.phys c d)) → Same m r → r.phys = m.phys →
    wp noStop e (releaseTable (p * 4096 + 4 * d) cnt) (fun _ r => ∃ S',
      (∀ g, S' g → g = entryFrame (m.phys c d)) ∧ Freed m r S' ∧ Same m r ∧ r.phys = m.phys) r := by
  intro cnt
  induction cnt generalizing S with
  | zero => exact fun r hr hS hs hp => wp_pure.mpr ⟨S, hS, hr, hs, hp⟩
  | succ cnt ih =>
    intro r hr hS hs hp
    have ht : Touched kt m r p 0 := .of_phys hp
    have hDr : Mapped kt kf uf r p c := hD.touched ht (by omega)
    have hdr : Directory kt r r.cr3 := by
      rw [hs.cr3]
      exact ⟨fun d h1 h2 => by rw [hp]; exact hd.table d h1 h2, by rw [hp]; exact hd.self⟩
    have hwalk := hDr.walk hdr (show 4 * d < 4096 by omega)
    unfold releaseTable
    rw [wp_load_bind]
    refine ⟨fun g hg => ?_, fun hnone => by rw [hwalk] at hnone; exact absurd hnone (by simp)⟩
    obtain rfl : c = g := Option.some.inj (hwalk.symm.trans hg)
    have hword : (p * 4096 + 4 * d) % 4096 / 4 = d := by omega
    rw [hword, hp, if_pos hpres]
    apply wp_call (wp_freeFrame (hgeo.freed hr) hf)
    rintro ⟨⟩ r' ⟨hf', hs', hp'⟩
    refine ih r' (hr.trans hf') (fun g hg => ?_) (hs.trans hs') (hp'.trans hp)
    exact hg.elim (hS g) id

/-- The walk over the directory in frame `c`, mapped at page `p`, frees the frames of its
tables. -/
theorem wp_releaseDirectory {c : ℕ} (hword : ∀ d < 768, m.phys c d < 2 ^ 32)
    (hD : Mapped kt kf uf m p c) (hgeo : PoolGeo m kf uf) (hd : Directory kt m m.cr3) :
    ∀ cnt idx r, idx + cnt ≤ 768 → Freed m r S → Same m r → r.phys = m.phys →
    wp noStop e (releaseDirectory (p * 4096) cnt idx) (fun _ r =>
      Freed m r (fun g => S g ∨ ∃ d, idx ≤ d ∧ d < idx + cnt ∧ present (m.phys c d) = true ∧
        g = entryFrame (m.phys c d)) ∧ Same m r ∧ r.phys = m.phys) r := by
  intro cnt
  induction cnt generalizing S with
  | zero =>
    intro idx r _ hr hs hp
    refine wp_pure.mpr ⟨hr.congr fun g => ⟨.inl, fun hx => hx.resolve_right ?_⟩, hs, hp⟩
    rintro ⟨d, h1, h2, _⟩
    omega
  | succ cnt ih =>
    intro idx r hle hr hs hp
    have ht : Touched kt m r p 0 := .of_phys hp
    have hDr : Mapped kt kf uf r p c := hD.touched ht (by omega)
    have hdr : Directory kt r r.cr3 := by
      rw [hs.cr3]
      exact ⟨fun d h1 h2 => by rw [hp]; exact hd.table d h1 h2, by rw [hp]; exact hd.self⟩
    have hwalk := hDr.walk hdr (show 4 * idx < 4096 by omega)
    have hf : entryFrame (m.phys c idx) < 2 ^ 20 := by
      have := hword idx (by omega)
      unfold entryFrame
      omega
    have hstep : ∀ r' (S' : ℕ → Prop), Freed m r' S' → Same m r' → r'.phys = m.phys →
        (∀ g, S' g ↔ S g ∨ (present (m.phys c idx) = true ∧ g = entryFrame (m.phys c idx))) →
        wp noStop e (releaseDirectory (p * 4096) cnt (idx + 1)) (fun _ r =>
          Freed m r (fun g => S g ∨ ∃ d, idx ≤ d ∧ d < idx + (cnt + 1) ∧
            present (m.phys c d) = true ∧ g = entryFrame (m.phys c d)) ∧ Same m r ∧
            r.phys = m.phys) r' := by
      intro r' S' hr' hs' hp' hS'
      refine wp_mono (ih (idx + 1) r' (by omega) hr' hs' hp') ?_
      rintro ⟨⟩ r'' ⟨hf'', hs'', hp''⟩
      refine ⟨hf''.congr fun g => ?_, hs'', hp''⟩
      rw [hS']
      constructor
      · rintro ((hg | ⟨hpr, hg⟩) | ⟨d, h1, h2, hpr, hg⟩)
        · exact .inl hg
        · exact .inr ⟨idx, le_rfl, by omega, hpr, hg⟩
        · exact .inr ⟨d, by omega, by omega, hpr, hg⟩
      · rintro (hg | ⟨d, h1, h2, hpr, hg⟩)
        · exact .inl (.inl hg)
        · by_cases hdi : d = idx
          · subst hdi
            exact .inl (.inr ⟨hpr, hg⟩)
          · exact .inr ⟨d, by omega, by omega, hpr, hg⟩
    unfold releaseDirectory
    rw [wp_load_bind]
    refine ⟨fun g hg => ?_, fun hnone => by rw [hwalk] at hnone; exact absurd hnone (by simp)⟩
    obtain rfl : c = g := Option.some.inj (hwalk.symm.trans hg)
    have hidx : (p * 4096 + 4 * idx) % 4096 / 4 = idx := by omega
    rw [hidx, hp]
    apply wp_ite
    · intro hpres
      have hgeo' := hgeo.freed hr
      have hrel := wp_releaseTable (e := e) hDr hgeo' hdr (show idx < 1024 by omega)
        (by rw [hp]; exact hpres) (by rw [hp]; exact hf) 1024 r (Freed.of_pap fun _ => rfl)
        (fun _ hx => hx.elim) .refl rfl
      apply wp_call hrel
      rintro ⟨⟩ r₁ ⟨S₁, hS₁, hf₁, hs₁, hp₁⟩
      rw [hp] at hS₁
      apply wp_call (wp_freeFrame (hgeo'.freed hf₁) hf)
      rintro ⟨⟩ r₂ ⟨hf₂, hs₂, hp₂⟩
      refine hstep r₂ _ ((hr.trans hf₁).trans hf₂) ((hs.trans hs₁).trans hs₂)
        (hp₂.trans (hp₁.trans hp)) fun g => ?_
      constructor
      · rintro ((hg | hg) | hg)
        · exact .inl hg
        · exact .inr ⟨hpres, hS₁ g hg⟩
        · exact .inr ⟨hpres, hg⟩
      · rintro (hg | ⟨-, hg⟩)
        · exact .inl (.inl hg)
        · exact .inr hg
    · intro hpres
      exact hstep r S hr hs hp fun g => ⟨.inl, fun hx => hx.resolve_right fun hc => hpres hc.1⟩

end Loops

end Gogoos.Machine
