import Gogoos.Kernel.PageRollback
import Gogoos.Logic.Erase
import Gogoos.Logic.Keeps
import Gogoos.Logic.Run

/-!
# The TLB

Runs of `allocPage`, `freePage` and memory accesses of one thread, without a load of CR3. The TLB
keeps the translation of every page that was accessed until `invlpg` names an address in the page.
It agrees with the tables as long as no page is freed whose translation is cached, or that of a
page with the same entry: `unmapPageTable` does not drop it.
-/

namespace Gogoos

open Program

/-- The machine with its TLB, which is kept by page. -/
structure TlbMachine where
  mem : Machine
  tlb : ℕ → Option ℕ
  /-- The page of the kernel stack, on which parameters lie. -/
  stack : ℕ

abbrev TlbM (α : Type) : Type := Program Heap TlbMachine α

namespace TlbMachine

@[simps] def setMem (s : TlbMachine) (m : Machine) : TlbMachine := { s with mem := m }

@[simps] def setTlb (s : TlbMachine) (page : ℕ) (f : Option ℕ) : TlbMachine :=
  { s with tlb := fun q => if q = page then f else s.tlb q }

/-- What does not use the TLB. -/
def onMem {α : Type} (p : KernelM α) : TlbM α := zoom mem (fun m s => s.setMem m) p

/-- An access to memory: the frame that it reaches, or a fault. -/
def access (vaddr : ℕ) : TlbM (Option ℕ) := do
  let s ← get
  match s.tlb (vaddr / 4096) with
  | some f => return some f
  | none =>
    match s.mem.walk vaddr with
    | none => return none
    | some f =>
      modify fun s => s.setTlb (vaddr / 4096) (some f)
      return some f

/-- The operand of `invlpg` is the parameter `virPageAddr`, which lies on the stack, and not
the address that it holds. -/
def unmapPageTable (virPageAddr : ℕ) : TlbM Unit := do
  onMem (Gogoos.unmapPageTable virPageAddr)
  modify fun s => s.setTlb s.stack none

def unmapBack : (cnt vaddr : ℕ) → TlbM Unit
  | 0, _ => pure ()
  | cnt + 1, vaddr => do
    let paddr ← onMem (addrV2P vaddr)
    onMem (freePhyAddr paddr)
    unmapPageTable vaddr
    unmapBack cnt (vaddr - 4096)

def mapPages (pf : PoolFlag) : (left done vaddr : ℕ) → TlbM Bool
  | 0, _, _ => return true
  | left + 1, done, vaddr => do
    let paddr ← onMem (allocPhyAddr pf)
    match paddr with
    | none =>
      unmapBack done (vaddr - 4096)
      return false
    | some paddr =>
      onMem (mapPageTable vaddr paddr)
      mapPages pf left (done + 1) (vaddr + 4096)

def allocPage (pf : PoolFlag) (pageCnt : ℕ) : TlbM (Option ℕ) := do
  assert (0 < pageCnt ∧ pageCnt < 3840)
  let virPageAddr ← onMem (allocVirAddr pf pageCnt)
  match virPageAddr with
  | none => return none
  | some virPageAddr =>
    let mapped ← mapPages pf pageCnt 0 virPageAddr
    if mapped then return some virPageAddr
    else
      onMem (freeVirAddr pf virPageAddr pageCnt)
      assert (wordSub virPageAddr 4096 < virPageAddr)
      return none

def freeFrames (user : Bool) : (cnt vaddr : ℕ) → TlbM Unit
  | 0, _ => pure ()
  | cnt + 1, vaddr => do
    let paddr ← onMem (addrV2P vaddr)
    let s ← get
    assert (paddr % 4096 = 0)
    if user then assert (s.mem.userPap.startAddr < paddr)
    else assert (s.mem.kernelPap.startAddr ≤ paddr ∧ paddr < s.mem.userPap.startAddr)
    onMem (freePhyAddr paddr)
    unmapPageTable vaddr
    freeFrames user cnt (vaddr + 4096)

def freePage (pf : PoolFlag) (virPageAddr pgCnt : ℕ) : TlbM Unit := do
  assert (0 < pgCnt ∧ virPageAddr % 4096 = 0)
  let paddr ← onMem (addrV2P virPageAddr)
  assert (paddr % 4096 = 0 ∧ 0x102000 < paddr)
  let s ← get
  freeFrames (s.mem.poolOf paddr = .user) pgCnt virPageAddr
  onMem (freeVirAddr pf virPageAddr pgCnt)

section Erasure

variable {pf : PoolFlag} {α : Type}

theorem erases_onMem (p : KernelM α) : Erases mem (onMem p) p := erases_zoom (fun _ _ => rfl) p

/-- The TLB has no effect on the tables. -/
theorem erases_unmapPageTable (vaddr : ℕ) :
    Erases mem (unmapPageTable vaddr) (Gogoos.unmapPageTable vaddr) :=
  (erases_onMem _).ghost_after fun _ _ _ _ => rfl

theorem erases_unmapBack : ∀ cnt vaddr, Erases mem (unmapBack cnt vaddr) (Gogoos.unmapBack cnt vaddr)
  | 0, _ => erases_pure ()
  | cnt + 1, vaddr => (erases_onMem _).bind fun _ => (erases_onMem _).bind fun _ =>
      (erases_unmapPageTable vaddr).bind fun _ => erases_unmapBack cnt (vaddr - 4096)

theorem erases_mapPages : ∀ left done vaddr,
    Erases mem (mapPages pf left done vaddr) (Gogoos.mapPages pf left done vaddr)
  | 0, _, _ => erases_pure true
  | left + 1, done, vaddr => (erases_onMem _).bind fun o => by
    cases o with
    | none => exact (erases_unmapBack done _).bind fun _ => erases_pure false
    | some paddr => exact (erases_onMem _).bind fun _ => erases_mapPages left (done + 1) _

theorem erases_allocPage (pageCnt : ℕ) :
    Erases mem (allocPage pf pageCnt) (Gogoos.allocPage pf pageCnt) := by
  refine erases_assert.bind fun _ => (erases_onMem _).bind fun o => ?_
  cases o with
  | none => exact erases_pure none
  | some virPageAddr =>
    refine (erases_mapPages pageCnt 0 virPageAddr).bind fun mapped => (erases_pure _).ite ?_
    exact (erases_onMem _).bind fun _ => erases_assert.bind fun _ => erases_pure none

theorem erases_freeFrames {user : Bool} : ∀ cnt vaddr,
    Erases mem (freeFrames user cnt vaddr) (Gogoos.freeFrames user cnt vaddr)
  | 0, _ => erases_pure ()
  | cnt + 1, vaddr => by
    have htail : ∀ paddr, Erases mem
        (do onMem (freePhyAddr paddr); unmapPageTable vaddr; freeFrames user cnt (vaddr + 4096))
        (do freePhyAddr paddr; Gogoos.unmapPageTable vaddr
            Gogoos.freeFrames user cnt (vaddr + 4096)) := fun paddr =>
      (erases_onMem _).bind fun _ => (erases_unmapPageTable vaddr).bind fun _ =>
        erases_freeFrames cnt (vaddr + 4096)
    exact (erases_onMem _).bind fun paddr => Erases.get_bind fun _ => erases_assert.bind fun _ =>
      (erases_assert.bind fun _ => htail paddr).ite (erases_assert.bind fun _ => htail paddr)

theorem erases_freePage (vaddr pgCnt : ℕ) :
    Erases mem (freePage pf vaddr pgCnt) (Gogoos.freePage pf vaddr pgCnt) :=
  erases_assert.bind fun _ => (erases_onMem _).bind fun _ => erases_assert.bind fun _ =>
    Erases.get_bind fun _ => (erases_freeFrames pgCnt vaddr).bind fun _ => erases_onMem _

end Erasure

section Drops

variable {pf : PoolFlag} {α : Type}

/-- Cache entries were dropped at most. -/
structure Dropped (s s' : TlbMachine) : Prop where
  tlb : ∀ q f, s'.tlb q = some f → s.tlb q = some f

instance : Std.Refl Dropped := ⟨fun _ => ⟨fun _ _ h => h⟩⟩

instance : IsTrans TlbMachine Dropped :=
  ⟨fun _ _ _ h h' => ⟨fun q f hq => h.tlb q f (h'.tlb q f hq)⟩⟩

theorem keeps_onMem (p : KernelM α) : Keeps Dropped (onMem p) :=
  fun _ _ => wp_zoom (wp_mono (wp_any p) fun _ _ _ => ⟨fun _ _ h => h⟩)

theorem keeps_unmapPageTable (vaddr : ℕ) : Keeps Dropped (unmapPageTable vaddr) := by
  refine (keeps_onMem _).bind fun _ => Keeps.modify fun s => ⟨fun q f hq => ?_⟩
  simp only [setTlb_tlb] at hq
  split_ifs at hq
  exact hq

theorem keeps_unmapBack : ∀ cnt vaddr, Keeps Dropped (unmapBack cnt vaddr)
  | 0, _ => keeps_pure ()
  | cnt + 1, vaddr => (keeps_onMem _).bind fun _ => (keeps_onMem _).bind fun _ =>
      (keeps_unmapPageTable vaddr).bind fun _ => keeps_unmapBack cnt (vaddr - 4096)

theorem keeps_mapPages : ∀ left done vaddr, Keeps Dropped (mapPages pf left done vaddr)
  | 0, _, _ => keeps_pure true
  | left + 1, done, vaddr => (keeps_onMem _).bind fun o => by
    cases o with
    | none => exact (keeps_unmapBack done _).bind fun _ => keeps_pure false
    | some paddr => exact (keeps_onMem _).bind fun _ => keeps_mapPages left (done + 1) _

theorem keeps_allocPage (pageCnt : ℕ) : Keeps Dropped (allocPage pf pageCnt) := by
  refine keeps_assert.bind fun _ => (keeps_onMem _).bind fun o => ?_
  cases o with
  | none => exact keeps_pure none
  | some virPageAddr =>
    refine (keeps_mapPages pageCnt 0 virPageAddr).bind fun mapped => (keeps_pure _).ite ?_
    exact (keeps_onMem _).bind fun _ => keeps_assert.bind fun _ => keeps_pure none

theorem keeps_freeFrames {user : Bool} : ∀ cnt vaddr, Keeps Dropped (freeFrames user cnt vaddr)
  | 0, _ => keeps_pure ()
  | cnt + 1, vaddr => by
    have htail : ∀ paddr, Keeps Dropped (do
        onMem (freePhyAddr paddr)
        unmapPageTable vaddr
        freeFrames user cnt (vaddr + 4096)) := fun paddr =>
      (keeps_onMem _).bind fun _ => (keeps_unmapPageTable vaddr).bind fun _ =>
        keeps_freeFrames cnt (vaddr + 4096)
    exact (keeps_onMem _).bind fun paddr => Keeps.get_bind fun _ => keeps_assert.bind fun _ =>
      (keeps_assert.bind fun _ => htail paddr).ite (keeps_assert.bind fun _ => htail paddr)

theorem keeps_freePage (vaddr pgCnt : ℕ) : Keeps Dropped (freePage pf vaddr pgCnt) :=
  keeps_assert.bind fun _ => (keeps_onMem _).bind fun _ => keeps_assert.bind fun _ =>
    Keeps.get_bind fun _ => (keeps_freeFrames pgCnt vaddr).bind fun _ => keeps_onMem _

end Drops

end TlbMachine

namespace Machine

open Mem (base vbase)

variable {m r s : Machine} {e : Heap} {kf uf b cnt done p f v w x : ℕ} {pf : PoolFlag}
  {g : ℕ → ℕ}

section Granting

/-- What was mapped is mapped after an allocation. -/
theorem Taken.kept (h : Taken m kf uf pf b cnt done g r) (hself : m.SelfMapped) (hv : v < 2 ^ 32)
    (hw : m.walk v = some f) : r.walk v = some f := by
  by_cases hlo : v < 0xffc00000
  · rw [← hw]
    refine h.others v hlo fun j hj => ⟨fun hc => ?_, fun ha => ?_⟩
    · have hpage : m.walk v = m.walk ((b + j) * 4096) := walk_page (by omega)
      rw [hpage, h.unmapped j hj] at hw
      cases hw
    · rw [ha.walk, h.unmapped j hj] at hw
      cases hw
  · rw [hself.walk_window (not_lt.mp hlo) hv] at hw
    split_ifs at hw with hp
    rw [h.paged.recursive.self.walk_window (not_lt.mp hlo) hv, h.entered.kept _ hp, if_pos hp, hw]

/-- The kernel pool has a frame for every page table that the call may take. -/
def Supplies (m : Machine) (pf : PoolFlag) (cnt : ℕ) : Prop :=
  ∀ i, bitMapScan (m.vap pf).bitMap cnt = some i → Reserve m pf (vbase pf + i) cnt

/-- The tables are in order, and translations were added at most. -/
def Kept (m : Machine) (kf uf : ℕ) (r : Machine) : Prop :=
  Paged r kf uf ∧ ∀ v < 2 ^ 32, ∀ f, m.walk v = some f → r.walk v = some f

theorem wp_allocPage_kept (h : Paged m kf uf) (hres : Supplies m pf cnt) :
    wp anyStop e (allocPage pf cnt) (fun _ r => Kept m kf uf r) m := by
  unfold allocPage
  rw [wp_assert_bind]
  refine ⟨fun ⟨hcnt, _⟩ => ?_, fun _ => trivial⟩
  apply wp_call (h.wp_allocVirAddr fun _ _ _ => .inr fun _ => trivial)
  rintro (_ | virPageAddr) r₀ hr
  · obtain ⟨-, rfl⟩ := hr
    exact wp_pure.mpr ⟨h, fun _ _ _ hw => hw⟩
  · obtain ⟨i, hscan, rfl, hr₀⟩ := hr
    obtain ⟨hend, -⟩ := bitMapScan_eq_some h.vbits_lt hcnt hscan
    have hpaged : Paged r₀ kf uf := by
      rw [hr₀]
      exact h.setVap
    have hwalk : ∀ v, r₀.walk v = m.walk v := fun v => by rw [hr₀, walk_setVap]
    have hin : ∀ j < cnt, InArea r₀ pf (vbase pf + i + j) := by
      intro j hj
      unfold InArea
      rw [hr₀, vapBits_setVap]
      exact ⟨by omega, by omega⟩
    have hres₀ : Reserve r₀ pf (vbase pf + i + 0) cnt := by
      rw [hr₀]
      exact (hres i hscan).setVap
    apply wp_call (wp_mapPages_taken hpaged hin (.inr fun _ => trivial) cnt 0 (fun _ => 0) r₀
      (by omega) (.start hpaged) hres₀)
    rintro mapped r ⟨g, ht⟩
    have hkept : Kept m kf uf r := by
      refine ⟨ht.paged, fun v hv f hw => ht.kept hpaged.recursive.self hv ?_⟩
      rwa [hwalk]
    apply wp_ite
    · exact fun _ => wp_pure.mpr hkept
    · intro _
      have hpage : vbase pf + i < 2 ^ 20 := by
        have := hpaged.page_lt (hin 0 hcnt)
        omega
      apply wp_call (wp_of_noStop (ht.paged.wp_freeVirAddr hpage))
      rintro ⟨⟩ r' rfl
      rw [wp_assert_bind]
      refine ⟨fun _ => wp_pure.mpr ⟨ht.paged.setVap, fun v hv f hw => ?_⟩, fun _ => trivial⟩
      rw [walk_setVap]
      exact hkept.2 v hv f hw

end Granting

section Freeing

theorem pte_setWord (hf : entryFrame (m.pde v) ≠ m.cr3) :
    (m.setWord (entryFrame (m.pde v)) (pteIdx v) x).pte w =
      if entryFrame (m.pde w) = entryFrame (m.pde v) ∧ pteIdx w = pteIdx v then x
      else m.pte w := by
  unfold setWord
  by_cases hT : entryFrame (m.pde w) = entryFrame (m.pde v)
  · rw [pte_setFrame_self hf hT]
    by_cases hidx : pteIdx w = pteIdx v
    · rw [if_pos hidx, if_pos ⟨hT, hidx⟩]
    · rw [if_neg hidx, if_neg fun hc => hidx hc.2, ← hT]
      rfl
  · rw [pte_setFrame_ne hf hT, if_neg fun hc => hT hc.1]

/-- The pages of a range may be taken out: they lie below the view of the tables, their entries
are words, and these name no table. -/
def Plain (m : Machine) (b cnt : ℕ) : Prop :=
  ∀ j < cnt, (b + j) * 4096 < 0xffc00000 ∧ m.pte ((b + j) * 4096) < 2 ^ 32 ∧
    m.Unused (entryFrame (m.pte ((b + j) * 4096)))

/-- `done` pages from `b` on were taken out. -/
structure Cut (m : Machine) (kf uf b done : ℕ) (r : Machine) : Prop where
  paged : Paged r kf uf
  dir : ∀ d, r.phys r.cr3 d = m.phys m.cr3 d
  entry : ∀ w, r.pte w = m.pte w ∨ r.pte w = m.pte w - m.pte w % 2
  others : ∀ v < 2 ^ 32, (∀ j < done, v / 4096 ≠ b + j ∧ ¬m.Alias ((b + j) * 4096) v) →
    r.walk v = m.walk v

theorem alias_of_dir (hdir : ∀ d, r.phys r.cr3 d = m.phys m.cr3 d) :
    r.Alias v w ↔ m.Alias v w := by
  unfold Alias pde
  rw [hdir, hdir]

/-- One page more. -/
theorem Cut.step (h : Cut m kf uf b done r) (hs : Paged s kf uf)
    (hphys : s.phys = r.phys) (hcr3 : s.cr3 = r.cr3) (hv : (b + done) * 4096 < 0xffc00000)
    (hp : present (s.pde ((b + done) * 4096)) = true) :
    wp noStop e (unmapPageTable ((b + done) * 4096)) (fun _ r => Cut m kf uf b (done + 1) r) s := by
  apply wp_mono (wp_unmapPageTable_paged hs hv hp)
  rintro _ r' ⟨hpaged, hword, hed⟩
  have hsdir : ∀ d, s.phys s.cr3 d = m.phys m.cr3 d := by
    rw [hphys, hcr3]
    exact h.dir
  have hdir : ∀ d, r'.phys r'.cr3 d = m.phys m.cr3 d := fun d => by
    rw [hed.dir_eq hp, hsdir]
  have hspte : ∀ w, s.pte w = r.pte w := fun w => by
    unfold pte pde
    rw [hphys, hcr3]
  have hswalk : ∀ w, s.walk w = r.walk w := fun w => by
    unfold walk
    rw [hphys, hcr3]
  refine ⟨hpaged, hdir, fun w => ?_, fun v hvlt hout => ?_⟩
  · rw [hword, pte_setWord (hs.recursive.table hv hp)]
    have hold := h.entry w
    rw [← hspte] at hold
    split_ifs with hsame
    · have hpte : s.pte ((b + done) * 4096) = s.pte w := by
        unfold pte
        rw [hsame.1, hsame.2]
      rw [hpte]
      omega
    · exact hold
  · rw [← h.others v hvlt fun j hj => hout j (by omega), ← hswalk]
    obtain ⟨hne, halias⟩ := hout done (by omega)
    by_cases hlo : v < 0xffc00000
    · refine hed.walk_other hlo (by omega) fun ha => halias ?_
      exact (alias_of_dir hsdir).mp ha
    · rw [hpaged.recursive.self.walk_window (not_lt.mp hlo) hvlt,
        hs.recursive.self.walk_window (not_lt.mp hlo) hvlt, hdir, hsdir]

theorem entryFrame_even (x : ℕ) : entryFrame (x - x % 2) = entryFrame x := by
  unfold entryFrame
  omega

/-- The loop of `freePage`. -/
theorem wp_freeFrames_cut (user : Bool) (hplain : Plain m b cnt) : ∀ left done r, done + left = cnt →
    Cut m kf uf b done r → wp anyStop e (freeFrames user left ((b + done) * 4096))
      (fun _ r' => Cut m kf uf b cnt r') r := by
  intro left
  induction left with
  | zero =>
    intro done r hcnt h
    rw [Nat.add_zero] at hcnt
    subst hcnt
    exact wp_pure.mpr h
  | succ left ih =>
    intro done r hcnt h
    obtain ⟨hv, hword, hun⟩ := hplain done (by omega)
    set v := (b + done) * 4096 with hvdef
    set F := entryFrame (m.pte v) with hF
    have hframe : entryFrame (r.pte v) = F := by
      rcases h.entry v with he | he
      · rw [he]
      · rw [he, entryFrame_even]
    have hFlt : F < 2 ^ 20 := by
      rw [hF]
      exact Nat.div_lt_of_lt_mul (hword.trans_eq (by norm_num))
    unfold freeFrames
    apply wp_call (R := fun a r' => present (r.pde v) = true ∧ a = F * 4096 ∧ r' = r)
    · unfold addrV2P
      rw [wp_load_bind, walk_getPtePtr h.paged.recursive.self (by omega)]
      refine ⟨fun t ht => ?_, fun _ => trivial⟩
      split_ifs at ht with hp
      obtain rfl := Option.some.inj ht
      rw [getPtePtr_word]
      refine wp_pure.mpr ⟨hp, ?_, rfl⟩
      change entryFrame (r.pte v) * 4096 + v % 4096 = _
      rw [hframe, hvdef, Nat.mul_mod_left, Nat.add_zero]
    rintro paddr r' ⟨hp, rfl, hr'⟩
    rw [hr', wp_get_bind, wp_assert_bind]
    refine ⟨fun _ => ?_, fun _ => trivial⟩
    have htail : wp anyStop e (do
        freePhyAddr (F * 4096)
        unmapPageTable v
        freeFrames user left (v + 4096)) (fun _ r' => Cut m kf uf b cnt r') r := by
      have hfreed := wp_freeFrame (e := e) h.paged.pools hFlt
      unfold freePhyAddr at hfreed ⊢
      rw [wp_get_bind, wp_modify] at hfreed
      rw [wp_bind_assoc, wp_get_bind, wp_modify_bind]
      set q := r.poolOf (F * 4096) with hq
      set s := r.setPapBit q (wordSub (F * 4096) (r.pap q).startAddr / 4096) false with hs
      have hpaged : Paged s kf uf := by
        refine h.paged.setPapBit fun k hk hclear => ?_
        by_cases hold : r.kernelPap.bitMap.bit k = true
        · have hbit := (hfreed.1.bit .kernel k hk).not.mp (by
            rw [show (s.pap .kernel).bitMap.bit k = false from hclear]
            decide)
          have hkF : r.frame .kernel k = F := by
            by_contra hc
            exact hbit ⟨hold, hc⟩
          have hstart : r.frame .kernel k = kf + k := by
            change r.kernelPap.startAddr / 4096 + k = kf + k
            rw [h.paged.pools.kstart, Nat.mul_div_cancel _ (by norm_num)]
          rw [← hstart, hkF]
          exact hun.congr fun d _ => h.dir d
        · exact h.paged.unused k hk (by simpa using hold)
      have hsp : present (s.pde v) = true := by rwa [hs, pde_setPapBit]
      apply wp_call (wp_of_noStop (h.step hpaged phys_setPapBit cr3_setPapBit hv hsp))
      rintro ⟨⟩ r'' hcut
      have hnext : v + 4096 = (b + (done + 1)) * 4096 := by
        rw [hvdef]
        ring
      rw [hnext]
      exact ih (done + 1) r'' (by omega) hcut
    apply wp_ite
    · exact fun _ => wp_assert_bind.mpr ⟨fun _ => htail, fun _ => trivial⟩
    · exact fun _ => wp_assert_bind.mpr ⟨fun _ => htail, fun _ => trivial⟩

/-- Pages that share no entry with the range lead where they led. -/
theorem wp_freePage_cut (h : Paged m kf uf) (hplain : Plain m (v / 4096) cnt) :
    wp anyStop e (freePage pf v cnt) (fun _ r => Paged r kf uf ∧ ∀ w < 2 ^ 32,
      (∀ j < cnt, w / 4096 ≠ v / 4096 + j ∧ ¬m.Alias ((v / 4096 + j) * 4096) w) →
      r.walk w = m.walk w) m := by
  unfold freePage
  rw [wp_assert_bind]
  refine ⟨fun ⟨_, hpage⟩ => ?_, fun _ => trivial⟩
  have hv : (v / 4096 + 0) * 4096 = v := by omega
  have hcut : Cut m kf uf (v / 4096) 0 m :=
    ⟨h, fun _ => rfl, fun _ => .inl rfl, fun _ _ _ => rfl⟩
  apply wp_call (R := fun _ r => r = m)
  · unfold addrV2P
    rw [wp_load_bind]
    exact ⟨fun _ _ => wp_pure.mpr rfl, fun _ => trivial⟩
  rintro paddr r hr
  rw [hr, wp_assert_bind]
  refine ⟨fun _ => ?_, fun _ => trivial⟩
  rw [wp_get_bind]
  have hloop := wp_freeFrames_cut (e := e) (m.poolOf paddr = .user) hplain cnt 0 m (by omega) hcut
  rw [hv] at hloop
  apply wp_call hloop
  rintro ⟨⟩ r' hr'
  unfold freeVirAddr
  rw [wp_get_bind, wp_modify]
  refine ⟨hr'.paged.setVap, fun w hw hout => ?_⟩
  rw [walk_setVap]
  exact hr'.others w hw hout

end Freeing

end Machine

namespace TlbMachine

open Machine

variable {s s' : TlbMachine} {e : Heap} {kf uf vaddr f : ℕ} {pf : PoolFlag}

section Law

inductive TlbEvent where
  | alloc (pf : PoolFlag) (pageCnt : ℕ)
  | free (pf : PoolFlag) (virPageAddr pgCnt : ℕ)
  | access (vaddr : ℕ)

def TlbEvent.run : TlbEvent → TlbM Unit
  | .alloc pf pageCnt => do let _ ← allocPage pf pageCnt
  | .free pf virPageAddr pgCnt => freePage pf virPageAddr pgCnt
  | .access vaddr => do let _ ← TlbMachine.access vaddr

def TlbStep (cond : TlbMachine → TlbEvent → Prop) (s s' : TlbMachine) : Prop :=
  ∃ e ev, cond s ev ∧ Returns e ev.run s () s'

/-- The TLB has no translation of the page, nor of one that shares its entry. -/
def Clean (s : TlbMachine) (page : ℕ) : Prop :=
  ∀ q, s.tlb q ≠ none → q ≠ page ∧ ¬s.mem.Alias (page * 4096) (q * 4096)

/-- Pages are freed while the TLB has no translation of them. The other conditions keep the
tables in order: there is a frame for a table that is needed, and no table is freed. -/
def Uncached (s : TlbMachine) : TlbEvent → Prop
  | .alloc pf pageCnt => s.mem.Supplies pf pageCnt
  | .free _ virPageAddr pgCnt => s.mem.Plain (virPageAddr / 4096) pgCnt ∧
      ∀ j < pgCnt, s.Clean (virPageAddr / 4096 + j)
  | .access vaddr => vaddr < 2 ^ 32

/-- An access reaches the frame that the tables name, or faults when they name none. -/
def TlbLaw (s : TlbMachine) : Prop :=
  ∀ e vaddr o s', vaddr < 2 ^ 32 → Returns e (access vaddr) s o s' → o = s.mem.walk vaddr

/-- The TLB holds only translations that the tables have. -/
structure Coherent (kf uf : ℕ) (s : TlbMachine) : Prop where
  paged : Paged s.mem kf uf
  tlb : ∀ q f, s.tlb q = some f → q < 2 ^ 20 ∧ s.mem.walk (q * 4096) = some f

theorem Coherent.wp_access (h : Coherent kf uf s) (hv : vaddr < 2 ^ 32) :
    wp noStop e (access vaddr) (fun o r => Coherent kf uf r ∧ o = s.mem.walk vaddr) s := by
  have hpage : s.mem.walk (vaddr / 4096 * 4096) = s.mem.walk vaddr := walk_page (by omega)
  unfold access
  rw [wp_get_bind]
  cases ht : s.tlb (vaddr / 4096) with
  | some f => exact wp_pure.mpr ⟨h, by rw [← hpage, (h.tlb _ _ ht).2]⟩
  | none =>
    dsimp only
    cases hw : s.mem.walk vaddr with
    | none => exact wp_pure.mpr ⟨h, rfl⟩
    | some f =>
      refine wp_modify_bind.mpr (wp_pure.mpr ⟨⟨h.paged, fun q g hq => ?_⟩, rfl⟩)
      simp only [setTlb_tlb] at hq
      split_ifs at hq with hp
      · refine ⟨by omega, ?_⟩
        rw [hp, ← hq]
        exact hpage.trans hw
      · exact h.tlb q g hq

theorem Coherent.wp_alloc {cnt : ℕ} (h : Coherent kf uf s) (hc : s.mem.Supplies pf cnt) :
    wp anyStop e (allocPage pf cnt) (fun _ r => Coherent kf uf r) s := by
  apply wp_mono (wp_and ((erases_allocPage cnt).wp (wp_allocPage_kept h.paged hc))
    (keeps_allocPage cnt e s))
  rintro _ r ⟨⟨hpaged, hkept⟩, hdrop⟩
  refine ⟨hpaged, fun q f hq => ?_⟩
  obtain ⟨hlt, hw⟩ := h.tlb q f (hdrop.tlb q f hq)
  exact ⟨hlt, hkept _ (by omega) f hw⟩

theorem Coherent.wp_free {cnt : ℕ} (h : Coherent kf uf s) (hplain : s.mem.Plain (vaddr / 4096) cnt)
    (hclean : ∀ j < cnt, s.Clean (vaddr / 4096 + j)) :
    wp anyStop e (freePage pf vaddr cnt) (fun _ r => Coherent kf uf r) s := by
  apply wp_mono (wp_and ((erases_freePage vaddr cnt).wp (wp_freePage_cut h.paged hplain))
    (keeps_freePage vaddr cnt e s))
  rintro _ r ⟨⟨hpaged, hothers⟩, hdrop⟩
  refine ⟨hpaged, fun q f hq => ?_⟩
  have hold := hdrop.tlb q f hq
  obtain ⟨hlt, hw⟩ := h.tlb q f hold
  refine ⟨hlt, ?_⟩
  rw [hothers _ (by omega) fun j hj => ?_, hw]
  obtain ⟨hne, halias⟩ := hclean j hj q (by simp [hold])
  exact ⟨by omega, halias⟩

theorem Coherent.step (h : Coherent kf uf s) (hst : TlbStep Uncached s s') : Coherent kf uf s' := by
  obtain ⟨e, ev, hc, hret⟩ := hst
  cases ev with
  | alloc pf cnt =>
    have hw : wp anyStop e (TlbEvent.run (.alloc pf cnt)) (fun _ r => Coherent kf uf r) s :=
      wp_call (h.wp_alloc hc) fun _ _ hr => wp_pure.mpr hr
    exact hret.of_wp hw
  | free pf vaddr cnt => exact hret.of_wp (h.wp_free hc.1 hc.2)
  | access vaddr =>
    have hw : wp noStop e (TlbEvent.run (.access vaddr)) (fun _ r => Coherent kf uf r) s :=
      wp_call (h.wp_access hc) fun _ _ hr => wp_pure.mpr hr.1
    exact hret.of_wp hw

theorem access_of_cached (h : s.tlb (vaddr / 4096) = some f) :
    Returns e (access vaddr) s (some f) s := by
  have hw : wp noStop e (access vaddr) (fun o r => o = some f ∧ r = s) s := by
    unfold access
    rw [wp_get_bind, h]
    exact wp_pure.mpr ⟨rfl, rfl⟩
  obtain ⟨o, r, hret, rfl, rfl⟩ := wp_noStop_returns hw
  exact hret

theorem access_of_walk (h : s.tlb (vaddr / 4096) = none) (hw : s.mem.walk vaddr = some f) :
    Returns e (TlbEvent.run (.access vaddr)) s () (s.setTlb (vaddr / 4096) (some f)) := by
  have hrun : wp noStop e (TlbEvent.run (.access vaddr))
      (fun _ r => r = s.setTlb (vaddr / 4096) (some f)) s := by
    refine wp_call (R := fun _ r => r = s.setTlb (vaddr / 4096) (some f)) ?_ fun _ _ hr =>
      wp_pure.mpr hr
    unfold access
    rw [wp_get_bind, h]
    dsimp only
    rw [hw]
    exact wp_modify_bind.mpr (wp_pure.mpr rfl)
  obtain ⟨o, r, hret, rfl⟩ := wp_noStop_returns hrun
  exact hret

/-- The memory that the loader leaves, and an empty TLB. -/
def loaderTlb : TlbMachine := ⟨loaderMachine, fun _ => none, 0xc009e⟩

/-- The state in which an event ends. -/
def after (s : TlbMachine) (ev : TlbEvent) : TlbMachine := (ev.run sampleHeap 0 s).state

/-- A page of the first megabyte was accessed, and a page of the kernel heap mapped. -/
def mappedTlb : TlbMachine := (loaderTlb.setTlb 8 (some 8)).after (.alloc .kernel 1)

/-- The page is mapped, and some address accessed. -/
def cachedTlb (vaddr : ℕ) : TlbMachine :=
  (loaderTlb.after (.alloc .kernel 1)).setTlb (vaddr / 4096) (some 0x200)

/-- The page is freed. -/
def staleTlb (vaddr : ℕ) : TlbMachine := (cachedTlb vaddr).after (.free .kernel 0xc0100000 1)

/-- After the page is freed, an access to the address still reaches the frame that was given
back. -/
structure GoesStale (vaddr : ℕ) : Prop where
  run : Run (TlbStep fun _ _ => True) loaderTlb (staleTlb vaddr)
  unmapped : (staleTlb vaddr).mem.walk vaddr = none
  reached : ∃ s, Returns sampleHeap (access vaddr) (staleTlb vaddr) (some 0x200) s
  fails : ¬TlbLaw (staleTlb vaddr)

theorem goesStale : ∀ vaddr ∈ [0xc0100000, 0x00100000], GoesStale vaddr := by
  have h₁ : TlbStep (fun _ _ => True) loaderTlb (loaderTlb.after (.alloc .kernel 1)) :=
    ⟨sampleHeap, .alloc .kernel 1, trivial, .of_value (by decide +kernel)⟩
  have hruns : ∀ vaddr ∈ [0xc0100000, 0x00100000],
      (loaderTlb.after (.alloc .kernel 1)).tlb (vaddr / 4096) = none ∧
      (loaderTlb.after (.alloc .kernel 1)).mem.walk vaddr = some 0x200 ∧
      (TlbEvent.run (.free .kernel 0xc0100000 1) sampleHeap 0 (cachedTlb vaddr)).value = some () ∧
      (staleTlb vaddr).mem.walk vaddr = none ∧
      (staleTlb vaddr).tlb (vaddr / 4096) = some 0x200 ∧ vaddr < 2 ^ 32 := by decide +kernel
  intro vaddr hmem
  obtain ⟨hnone, hw, hvalue, hstale, htlb, hlt⟩ := hruns vaddr hmem
  have h₂ : TlbStep (fun _ _ => True) (loaderTlb.after (.alloc .kernel 1)) (cachedTlb vaddr) :=
    ⟨sampleHeap, .access vaddr, trivial, access_of_walk hnone hw⟩
  have h₃ : TlbStep (fun _ _ => True) (cachedTlb vaddr) (staleTlb vaddr) :=
    ⟨sampleHeap, .free .kernel 0xc0100000 1, trivial, .of_value hvalue⟩
  have hret := access_of_cached (e := sampleHeap) htlb
  refine ⟨((Relation.ReflTransGen.single h₁).tail h₂).tail h₃, hstale, ⟨_, hret⟩, fun hlaw => ?_⟩
  have heq := hlaw _ _ _ _ hlt hret
  rw [hstale] at heq
  exact absurd heq (by simp)

end Law

end TlbMachine

end Gogoos
