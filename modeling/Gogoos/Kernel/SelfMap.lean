import Gogoos.Kernel.ExitRun
import Gogoos.Fs.Lookup

/-!
# The directory that maps itself

`mapPageTable` and `unmapPageTable` edit the tables through the directory that they edit. What
they do to the translation of addresses is said here for any directory whose last entry names
the directory: the page in question changes, and so does every other page whose directory entry
names the same table. The loader leaves such a pair, the first 4 MiB of memory and of the
kernel.
-/

namespace Gogoos

open Program

variable {e : Heap} {m m' : Machine} {vaddr paddr v w f d : ℕ} {stop : Machine → Prop}

section Words

theorem and_run (x k n : ℕ) : x &&& (2 ^ n - 1) * 2 ^ k = x / 2 ^ k % 2 ^ n * 2 ^ k := by
  apply Nat.eq_of_testBit_eq
  intro i
  rw [Nat.testBit_and, Nat.testBit_mul_two_pow, Nat.testBit_mul_two_pow, Nat.testBit_two_pow_sub_one,
    Nat.testBit_mod_two_pow, Nat.testBit_div_two_pow]
  by_cases hi : k ≤ i
  · rw [show i - k + k = i by omega]
    simp only [hi, decide_true, Bool.true_and]
    exact Bool.and_comm _ _
  · simp [hi]

/-- `PDE_IDX`. -/
theorem pdeIdx_bits (hv : vaddr < 2 ^ 32) : (vaddr &&& 0xffc00000) >>> 22 = pdeIdx vaddr := by
  have h := and_run vaddr 22 10
  norm_num at h
  rw [h, Nat.shiftRight_eq_div_pow]
  unfold pdeIdx
  omega

/-- `PTE_IDX`. -/
theorem pteIdx_bits : (vaddr &&& 0x003ff000) >>> 12 = pteIdx vaddr := by
  have h := and_run vaddr 12 10
  norm_num at h
  rw [h, Nat.shiftRight_eq_div_pow]
  unfold pteIdx
  omega

theorem getPtePtr_bits (hv : vaddr < 2 ^ 32) :
    0xffc00000 + ((vaddr &&& 0xffc00000) >>> 10) + ((vaddr &&& 0x003ff000) >>> 12) * 4 =
      getPtePtr vaddr := by
  have h := and_run vaddr 22 10
  norm_num at h
  rw [h, pteIdx_bits, Nat.shiftRight_eq_div_pow]
  unfold getPtePtr pdeIdx
  omega

theorem getPdePtr_word (hv : vaddr < 2 ^ 32) : getPdePtr vaddr % 4096 / 4 = pdeIdx vaddr := by
  unfold getPdePtr pdeIdx
  omega

end Words

namespace Machine

/-- The physical address that the tables give. -/
def translate (m : Machine) (vaddr : ℕ) : Option ℕ :=
  (m.walk vaddr).map fun f => f * 4096 + vaddr % 4096

/-- Another address whose entry is the one of `v`. -/
def Alias (m : Machine) (v w : ℕ) : Prop :=
  present (m.pde v) = true ∧ present (m.pde w) = true ∧
    entryFrame (m.pde w) = entryFrame (m.pde v) ∧ pteIdx w = pteIdx v

/-- No entry of the directory names the frame. -/
def Unused (m : Machine) (f : ℕ) : Prop :=
  ∀ d < 1024, present (m.phys m.cr3 d) = true → entryFrame (m.phys m.cr3 d) ≠ f

/-- A directory that maps itself in its last entry and nowhere else. -/
structure Recursive (m : Machine) : Prop where
  self : m.SelfMapped
  once : ∀ d < 1023, present (m.phys m.cr3 d) = true → entryFrame (m.phys m.cr3 d) ≠ m.cr3

/-- The kernel pool has a frame for a new table, one that is not in use as a table. -/
structure FreeTable (m : Machine) : Prop where
  start : m.kernelPap.startAddr % 4096 = 0
  frame : ∃ n, bitMapScan m.kernelPap.bitMap 1 = some n ∧
    m.Unused (n + m.kernelPap.startAddr / 4096)

theorem Recursive.table (h : m.Recursive) (hv : v < 0xffc00000)
    (hp : present (m.pde v) = true) : entryFrame (m.pde v) ≠ m.cr3 :=
  h.once (pdeIdx v) (by unfold pdeIdx; omega) hp

section Frames

variable {words : ℕ → ℕ}

theorem phys_setFrame_ne (hf : w ≠ f) : (m.setFrame f words).phys w = m.phys w := by
  simp [hf]

theorem pde_setFrame (hf : f ≠ m.cr3) : (m.setFrame f words).pde v = m.pde v := by
  unfold pde
  rw [setFrame_cr3, phys_setFrame_ne hf.symm]

theorem pte_setFrame_ne (hf : f ≠ m.cr3) (hv : entryFrame (m.pde v) ≠ f) :
    (m.setFrame f words).pte v = m.pte v := by
  unfold pte
  rw [pde_setFrame hf, phys_setFrame_ne hv]

theorem pte_setFrame_self (hf : f ≠ m.cr3) (hv : entryFrame (m.pde v) = f) :
    (m.setFrame f words).pte v = words (pteIdx v) := by
  unfold pte
  rw [pde_setFrame hf, hv]
  simp

theorem walk_of_entries (hpde : m'.pde v = m.pde v) (hpte : m'.pte v = m.pte v) :
    m'.walk v = m.walk v := by
  rw [walk_eq, walk_eq, hpde, hpte]

theorem Recursive.setFrame (h : m.Recursive) (hf : f ≠ m.cr3) :
    (m.setFrame f words).Recursive := by
  have hcr3 : (m.setFrame f words).phys m.cr3 = m.phys m.cr3 := phys_setFrame_ne hf.symm
  constructor
  · unfold SelfMapped
    rw [setFrame_cr3, hcr3]
    exact h.self
  · rw [setFrame_cr3, hcr3]
    exact h.once

theorem walk_page (h : w / 4096 = v / 4096) : m.walk w = m.walk v := by
  have hd : pdeIdx w = pdeIdx v := by unfold pdeIdx; omega
  have ht : pteIdx w = pteIdx v := by unfold pteIdx; rw [h]
  unfold walk
  rw [hd, ht]

end Frames

/-- The directory kept its tables, and those that were entered are named once. -/
structure Entered (m r : Machine) : Prop where
  cr3 : r.cr3 = m.cr3
  kept : ∀ d, present (m.phys m.cr3 d) = true → r.phys r.cr3 d = m.phys m.cr3 d
  fresh : ∀ d < 1024, present (m.phys m.cr3 d) = false → present (r.phys r.cr3 d) = true →
    ∀ d' < 1024, present (r.phys r.cr3 d') = true →
      entryFrame (r.phys r.cr3 d') = entryFrame (r.phys r.cr3 d) → d' = d

/-- The entry of a page was written, and only the aliases of the page changed with it. -/
structure Edited (m r : Machine) (v entry : ℕ) : Prop where
  recursive : r.Recursive
  entered : Entered m r
  dir : ∀ d, d ≠ pdeIdx v → r.phys r.cr3 d = m.phys m.cr3 d
  pde : present (r.pde v) = true
  pte : r.pte v = entry
  others : ∀ w < 0xffc00000, w / 4096 ≠ v / 4096 → ¬m.Alias v w → r.translate w = m.translate w

/-- The directory itself is the same. -/
theorem Entered.of_dir {r : Machine} (hcr3 : r.cr3 = m.cr3)
    (hdir : r.phys r.cr3 = m.phys m.cr3) : Entered m r := by
  refine ⟨hcr3, fun d _ => by rw [hdir], fun d _ habs hp => ?_⟩
  rw [hdir, habs] at hp
  exact absurd hp (by decide)

theorem Entered.trans {r r' : Machine} (h : Entered m r) (h' : Entered r r') : Entered m r' := by
  refine ⟨h'.cr3.trans h.cr3, fun d hp => ?_, fun d hd habs hp d' hd' hp' hT => ?_⟩
  · have hr := h.kept d hp
    rw [h'.kept d (by rwa [hr]), hr]
  · by_cases hr : present (r.phys r.cr3 d) = true
    · by_cases hr' : present (r.phys r.cr3 d') = true
      · rw [h'.kept d hr, h'.kept d' hr'] at hT
        exact h.fresh d hd habs hr d' hd' hr' hT
      · exact (h'.fresh d' hd' (by simpa using hr') hp' d hd hp hT.symm).symm
    · exact h'.fresh d hd (by simpa using hr) hp d' hd' hp' hT

theorem dir_setFrame {words : ℕ → ℕ} (hf : f ≠ m.cr3) :
    (m.setFrame f words).phys (m.setFrame f words).cr3 = m.phys m.cr3 :=
  phys_setFrame_ne hf.symm

/-- What `store` does through `getPtePtr`. -/
theorem Recursive.edit (h : m.Recursive) (hv : v < 0xffc00000) (hp : present (m.pde v) = true)
    (entry : ℕ) : Edited m (m.setWord (entryFrame (m.pde v)) (pteIdx v) entry) v entry := by
  have hf := h.table hv hp
  constructor
  · exact h.setFrame hf
  · exact .of_dir rfl (dir_setFrame hf)
  · intro d _
    rw [setWord, dir_setFrame hf]
  · rw [setWord, pde_setFrame hf]
    exact hp
  · rw [setWord, pte_setFrame_self hf rfl, if_pos rfl]
  · intro w hw hne halias
    unfold translate
    congr 1
    by_cases hpw : present (m.pde w) = true
    · refine walk_of_entries (pde_setFrame hf) ?_
      by_cases hT : entryFrame (m.pde w) = entryFrame (m.pde v)
      · have hidx : pteIdx w ≠ pteIdx v := fun hc => halias ⟨hp, hpw, hT, hc⟩
        rw [setWord, pte_setFrame_self hf hT, if_neg hidx, ← hT]
        rfl
      · exact pte_setFrame_ne hf hT
    · rw [walk_eq, walk_eq, setWord, pde_setFrame hf, if_neg fun hc => hpw hc.1,
        if_neg fun hc => hpw hc.1]

/-- A new table was entered in the directory. -/
def enter (m : Machine) (v f : ℕ) : Machine := m.setWord m.cr3 (pdeIdx v) (mkEntry (f * 4096))

theorem pde_enter_self : (m.enter v f).pde v = mkEntry (f * 4096) := by
  simp [enter, pde, setWord]

theorem pde_enter_ne (hw : pdeIdx w ≠ pdeIdx v) : (m.enter v f).pde w = m.pde w := by
  simp [enter, pde, setWord, hw]

theorem Recursive.unused_ne (h : m.Recursive) (hf : m.Unused f) : f ≠ m.cr3 := by
  have hne := hf 1023 (by norm_num)
  rw [show m.phys m.cr3 1023 = mkEntry (m.cr3 * 4096) from h.self] at hne
  have := hne (present_mkEntry _)
  rw [entryFrame_mkEntry] at this
  exact this.symm

theorem Recursive.enter (h : m.Recursive) (hv : v < 0xffc00000) (hf : m.Unused f) :
    (m.enter v f).Recursive := by
  have hd : pdeIdx v < 1023 := by unfold pdeIdx; omega
  have hword : ∀ d, (m.enter v f).phys m.cr3 d =
      if d = pdeIdx v then mkEntry (f * 4096) else m.phys m.cr3 d := fun d => by
    simp [Machine.enter, setWord]
  have hcr3 : (m.enter v f).cr3 = m.cr3 := rfl
  constructor
  · unfold SelfMapped
    rw [hcr3, hword, if_neg (by omega)]
    exact h.self
  · intro d hlt
    rw [hcr3, hword]
    split_ifs with hdv
    · intro _
      rw [entryFrame_mkEntry]
      exact h.unused_ne hf
    · exact h.once d hlt

/-- The new table is cleared. Nothing is mapped through it yet. -/
theorem Recursive.newTable (h : m.Recursive)
    (habs : present (m.pde v) = false) (hf : m.Unused f) (hw : w < 0xffc00000) :
    ((m.enter v f).setFrame f fun _ => 0).translate w = m.translate w := by
  have hne : f ≠ (m.enter v f).cr3 := h.unused_ne hf
  unfold translate
  congr 1
  by_cases hd : pdeIdx w = pdeIdx v
  · have hold : m.walk w = none := by
      rw [walk_eq, if_neg]
      rintro ⟨hc, -⟩
      unfold pde at hc habs
      rw [hd, habs] at hc
      exact absurd hc (by decide)
    have hentry : entryFrame ((m.enter v f).pde w) = f := by
      rw [show (m.enter v f).pde w = (m.enter v f).pde v by unfold pde; rw [hd], pde_enter_self,
        entryFrame_mkEntry]
    rw [hold, walk_eq, pte_setFrame_self hne hentry, if_neg]
    rintro ⟨-, hc⟩
    exact absurd hc (by decide)
  · by_cases hp : present (m.pde w) = true
    · have hw' : pdeIdx w < 1023 := by unfold pdeIdx; omega
      have hT : entryFrame ((m.enter v f).pde w) ≠ f := by
        rw [pde_enter_ne hd]
        exact hf (pdeIdx w) (by omega) hp
      refine walk_of_entries ?_ ?_
      · rw [pde_setFrame hne, pde_enter_ne hd]
      · rw [pte_setFrame_ne hne hT]
        unfold pte
        rw [pde_enter_ne hd, Machine.enter, setWord, phys_setFrame_ne (h.table hw hp)]
    · rw [walk_eq, walk_eq, pde_setFrame hne, pde_enter_ne hd, if_neg fun hc => hp hc.1,
        if_neg fun hc => hp hc.1]

theorem Recursive.fill (h : m.Recursive) (hv : v < 0xffc00000)
    (habs : present (m.pde v) = false) (hf : m.Unused f) (entry : ℕ) :
    Edited m (((m.enter v f).setFrame f fun _ => 0).setWord f (pteIdx v) entry) v entry := by
  set r := (m.enter v f).setFrame f fun _ => 0 with hr
  have hne : f ≠ (m.enter v f).cr3 := h.unused_ne hf
  have hrec : r.Recursive := (h.enter hv hf).setFrame hne
  have hpde : r.pde v = mkEntry (f * 4096) := by
    rw [hr, pde_setFrame hne, pde_enter_self]
  have hed := hrec.edit hv (by rw [hpde, present_mkEntry]) entry
  rw [hpde, entryFrame_mkEntry] at hed
  have hdir : ∀ d, r.phys r.cr3 d = if d = pdeIdx v then mkEntry (f * 4096) else m.phys m.cr3 d := by
    intro d
    rw [hr, dir_setFrame hne]
    simp [Machine.enter, setWord]
  have hself : present (m.phys m.cr3 (pdeIdx v)) = false := habs
  have hentered : Entered m r := by
    refine ⟨rfl, fun d hp => ?_, fun d _ hold hp d' hd' hp' hT => ?_⟩
    · rw [hdir, if_neg]
      rintro rfl
      rw [hself] at hp
      exact absurd hp (by decide)
    · have hd : d = pdeIdx v := by
        by_contra hc
        rw [hdir, if_neg hc, hold] at hp
        exact absurd hp (by decide)
      by_contra hc
      rw [hdir, if_neg (hd ▸ hc)] at hp' hT
      rw [hdir, if_pos hd, entryFrame_mkEntry] at hT
      exact hf d' hd' hp' hT
  refine ⟨hed.recursive, hentered.trans hed.entered, fun d hne' => ?_, hed.pde, hed.pte,
    fun w hw hpage _ => ?_⟩
  · rw [hed.dir d hne', hdir, if_neg hne']
  have halias : ¬r.Alias v w := by
    rintro ⟨-, hp, hT, hidx⟩
    by_cases hd : pdeIdx w = pdeIdx v
    · unfold pteIdx at hidx
      unfold pdeIdx at hd
      omega
    · rw [hr, pde_setFrame hne, pde_enter_ne hd] at hp hT
      rw [pde_setFrame hne, pde_enter_self, entryFrame_mkEntry] at hT
      have hw' : pdeIdx w < 1024 := by unfold pdeIdx; omega
      exact hf (pdeIdx w) hw' hp hT
  rw [hed.others w hw hpage halias]
  exact h.newTable habs hf hw

/-- The pools have no part in the translation. -/
theorem Edited.of_setPapBit {pf : PoolFlag} {i entry : ℕ} {b : Bool} {r : Machine}
    (h : Edited (m.setPapBit pf i b) r v entry) : Edited m r v entry := by
  cases pf <;> exact ⟨h.recursive, ⟨h.entered.cr3, h.entered.kept, h.entered.fresh⟩, h.dir, h.pde,
    h.pte, h.others⟩

theorem Recursive.of_setPapBit {pf : PoolFlag} {i : ℕ} {b : Bool} (h : m.Recursive) :
    (m.setPapBit pf i b).Recursive := by
  cases pf <;> exact ⟨h.self, h.once⟩

/-- What holds of the addresses of a page whose entry is known. -/
theorem Edited.translate {r : Machine} {entry off : ℕ} (h : Edited m r v entry)
    (hpage : v % 4096 = 0) (hoff : off < 4096) :
    r.translate (v + off) =
      if present entry then some (entryFrame entry * 4096 + off) else none := by
  have hwalk : r.walk (v + off) = r.walk v := walk_page (by omega)
  unfold Machine.translate
  rw [hwalk, walk_eq, h.pte]
  have hmod : (v + off) % 4096 = off := by omega
  by_cases hp : present entry = true <;> simp [h.pde, hp, hmod]

end Machine

section Calls

open Machine

theorem wp_addrV2P_of_entry {off : ℕ} (h : m.SelfMapped) (hv : v < 0xffc00000)
    (hpage : v % 4096 = 0) (hoff : off < 4096) (hp : present (m.pde v) = true) :
    wp noStop e (addrV2P (v + off))
      (fun a r => a = entryFrame (m.pte v) * 4096 + off ∧ r = m) m := by
  have hptr : getPtePtr (v + off) = getPtePtr v := by
    unfold getPtePtr pdeIdx pteIdx
    omega
  unfold addrV2P
  rw [hptr, wp_load_bind, walk_getPtePtr h (by omega), if_pos hp]
  refine ⟨?_, by simp⟩
  rintro g hg
  obtain rfl : entryFrame (m.pde v) = g := Option.some.inj hg
  rw [getPtePtr_word]
  exact wp_pure.mpr ⟨by rw [pte]; omega, rfl⟩

theorem wp_storePte {entry : ℕ} {Q : Unit → Machine → Prop} (h : m.SelfMapped)
    (hv : v < 0xffc00000) (hp : present (m.pde v) = true)
    (hQ : Q () (m.setWord (entryFrame (m.pde v)) (pteIdx v) entry)) :
    wp noStop e (store (getPtePtr v) entry) Q m := by
  rw [wp_store, walk_getPtePtr h (by omega), if_pos hp]
  refine ⟨?_, by simp⟩
  rintro g hg
  obtain rfl : entryFrame (m.pde v) = g := Option.some.inj hg
  rw [getPtePtr_word]
  exact hQ

theorem wp_storePde {entry : ℕ} (h : m.SelfMapped) (hv : v < 0xffc00000) :
    wp noStop e (store (getPdePtr v) entry)
      (fun _ r => r = m.setWord m.cr3 (pdeIdx v) entry) m := by
  rw [wp_store, walk_getPdePtr h (by omega)]
  refine ⟨?_, by simp⟩
  rintro g hg
  obtain rfl : m.cr3 = g := Option.some.inj hg
  rw [getPdePtr_word (by omega)]

theorem wp_clearTable (h : m.SelfMapped) (hv : v < 0xffc00000)
    (hp : m.pde v = mkEntry (f * 4096)) :
    wp noStop e (clearPage (getPtePtr v)) (fun _ r => r = m.setFrame f fun _ => 0) m := by
  unfold clearPage
  rw [wp_frameOf_bind, walk_getPtePtr h (by omega), hp, if_pos (present_mkEntry f),
    entryFrame_mkEntry]
  refine ⟨?_, by simp⟩
  rintro g hg
  obtain rfl : f = g := Option.some.inj hg
  exact wp_modify.mpr rfl

theorem wp_allocTableFrame {n : ℕ} (hstart : m.kernelPap.startAddr % 4096 = 0)
    (hn : bitMapScan m.kernelPap.bitMap 1 = some n) :
    wp noStop e (allocPhyAddr .kernel) (fun o r =>
      o = some ((n + m.kernelPap.startAddr / 4096) * 4096) ∧
        r = m.setPapBit .kernel n true) m := by
  have hscan : bitMapScan (m.pap .kernel).bitMap 1 = some n := hn
  unfold allocPhyAddr
  rw [wp_get_bind, hscan]
  refine wp_modify_bind.mpr (wp_pure.mpr ⟨congrArg some ?_, rfl⟩)
  change n * 4096 + m.kernelPap.startAddr = _
  omega

theorem present_pte_of_walk (hp : present (m.pde v) = true) (habs : m.walk v = none) :
    present (m.pte v) = false := by
  by_contra hc
  rw [walk_eq, if_pos ⟨hp, by simpa using hc⟩] at habs
  cases habs

/-- Mapping a page whose table is present. A page that is mapped stops the machine. -/
theorem wp_mapPageTable_present (h : m.SelfMapped) (hv : v < 0xffc00000)
    (hp : present (m.pde v) = true) (hmapped : present (m.pte v) = true → stop m) :
    wp stop e (mapPageTable v paddr)
      (fun _ r => present (m.pte v) = false ∧
        r = m.setWord (entryFrame (m.pde v)) (pteIdx v) (mkEntry paddr)) m := by
  unfold mapPageTable
  rw [wp_load_bind, walk_getPdePtr h (by omega)]
  refine ⟨?_, by simp⟩
  rintro g hg
  obtain rfl : m.cr3 = g := Option.some.inj hg
  rw [getPdePtr_word (by omega)]
  change wp stop e (if present (m.pde v) then _ else _) _ m
  rw [if_pos hp, wp_load_bind, walk_getPtePtr h (by omega), if_pos hp]
  refine ⟨?_, by simp⟩
  rintro g hg
  obtain rfl : entryFrame (m.pde v) = g := Option.some.inj hg
  rw [getPtePtr_word]
  change wp stop e (if !present (m.pte v) then _ else _) _ m
  apply wp_ite
  · intro hpte
    exact wp_of_noStop (wp_storePte h hv hp ⟨by simpa using hpte, rfl⟩)
  · intro hpte
    exact wp_halt.mpr (hmapped (by simpa using hpte))

/-- Mapping a page whose table is missing. -/
theorem wp_mapPageTable_absent {n : ℕ} (h : m.Recursive) (hv : v < 0xffc00000)
    (hp : present (m.pde v) = false) (hstart : m.kernelPap.startAddr % 4096 = 0)
    (hn : bitMapScan m.kernelPap.bitMap 1 = some n)
    (hf : f = n + m.kernelPap.startAddr / 4096) (hun : m.Unused f) :
    wp noStop e (mapPageTable v paddr) (fun _ r =>
      r = ((((m.setPapBit .kernel n true).enter v f).setFrame f fun _ => 0).setWord f (pteIdx v)
        (mkEntry paddr))) m := by
  unfold mapPageTable
  rw [wp_load_bind, walk_getPdePtr h.self (by omega)]
  refine ⟨?_, by simp⟩
  rintro g hg
  obtain rfl : m.cr3 = g := Option.some.inj hg
  rw [getPdePtr_word (by omega)]
  change wp noStop e (if present (m.pde v) then _ else _) _ m
  rw [if_neg (by simp [hp])]
  apply wp_call (wp_allocTableFrame hstart hn)
  rintro _ r ⟨rfl, hr⟩
  rw [← hf, ← hr]
  have hrec : r.Recursive := by rw [hr]; exact ⟨h.self, h.once⟩
  have hrun : r.Unused f := by rw [hr]; exact hun
  rw [Option.getD_some]
  apply wp_call (wp_storePde hrec.self hv)
  rintro ⟨⟩ r' hr'
  obtain rfl : r' = r.enter v f := hr'
  have hrec' := hrec.enter hv hrun
  apply wp_call (wp_clearTable hrec'.self hv pde_enter_self)
  rintro ⟨⟩ r'' rfl
  have hne : f ≠ (r.enter v f).cr3 := hrec.unused_ne hrun
  refine wp_storePte (hrec'.setFrame hne).self hv ?_ ?_
  · rw [pde_setFrame hne, pde_enter_self, present_mkEntry]
  · rw [pde_setFrame hne, pde_enter_self, entryFrame_mkEntry]

/-- Mapping an absent page. -/
theorem wp_mapPageTable_edit (h : m.Recursive) (hv : v < 0xffc00000) (habs : m.walk v = none)
    (hfree : present (m.pde v) = false → m.FreeTable) :
    wp noStop e (mapPageTable v paddr) (fun _ r => Edited m r v (mkEntry paddr)) m := by
  cases hp : present (m.pde v) with
  | true =>
    have hpte := present_pte_of_walk hp habs
    apply wp_mono (wp_mapPageTable_present h.self hv hp (by simp [hpte]))
    rintro _ r ⟨-, rfl⟩
    exact h.edit hv hp _
  | false =>
    obtain ⟨hstart, n, hn, hun⟩ := hfree hp
    apply wp_mono (wp_mapPageTable_absent h hv hp hstart hn rfl hun)
    rintro _ r rfl
    have hset : (m.setPapBit .kernel n true).Recursive := h.of_setPapBit
    exact (hset.fill hv hp hun _).of_setPapBit

/-- Taking a page out clears the lowest bit of its entry. -/
theorem wp_unmapPageTable_eq (h : m.SelfMapped) (hv : v < 0xffc00000)
    (hp : present (m.pde v) = true) :
    wp noStop e (unmapPageTable v) (fun _ r =>
      r = m.setWord (entryFrame (m.pde v)) (pteIdx v) (m.pte v - m.pte v % 2)) m := by
  unfold unmapPageTable
  rw [wp_load_bind, walk_getPtePtr h (by omega), if_pos hp]
  refine ⟨?_, by simp⟩
  rintro g hg
  obtain rfl : entryFrame (m.pde v) = g := Option.some.inj hg
  rw [getPtePtr_word]
  exact wp_storePte h hv hp rfl

theorem wp_unmapPageTable_edit (h : m.Recursive) (hv : v < 0xffc00000)
    (hp : present (m.pde v) = true) :
    wp noStop e (unmapPageTable v) (fun _ r => Edited m r v (m.pte v - m.pte v % 2)) m := by
  apply wp_mono (wp_unmapPageTable_eq h.self hv hp)
  rintro _ r rfl
  exact h.edit hv hp _

end Calls

section Law

open Machine

/-- `getPdePtr` and `getPtePtr`, which the code computes with masks and shifts, lead to the
entries that the walk of an address uses. -/
structure EntriesReached (m : Machine) (v : ℕ) : Prop where
  pdePtr : 0xfffff000 + ((v &&& 0xffc00000) >>> 22) * 4 = getPdePtr v
  ptePtr : 0xffc00000 + ((v &&& 0xffc00000) >>> 10) + ((v &&& 0x003ff000) >>> 12) * 4 =
    getPtePtr v
  pde : m.walk (getPdePtr v) = some m.cr3 ∧ getPdePtr v % 4096 / 4 = pdeIdx v
  pte : present (m.pde v) = true →
    m.walk (getPtePtr v) = some (entryFrame (m.pde v)) ∧ getPtePtr v % 4096 / 4 = pteIdx v

/-- The page at `v` leads to the frame at `p`, in the tables and for `addrV2P`, and no page
changed that does not share the entry. -/
structure PageMapped (e : Heap) (m : Machine) (v p : ℕ) (r : Machine) : Prop where
  recursive : r.Recursive
  translate : ∀ off < 4096, r.translate (v + off) = some (p + off)
  addrV2P : ∀ off < 4096, wp noStop e (addrV2P (v + off)) (fun a r' => a = p + off ∧ r' = r) r
  others : ∀ w < 0xffc00000, w / 4096 ≠ v / 4096 → ¬m.Alias v w → r.translate w = m.translate w

structure PageUnmapped (m : Machine) (v : ℕ) (r : Machine) : Prop where
  recursive : r.Recursive
  translate : ∀ off < 4096, r.translate (v + off) = none
  others : ∀ w < 0xffc00000, w / 4096 ≠ v / 4096 → ¬m.Alias v w → r.translate w = m.translate w

theorem entriesReached (h : m.SelfMapped) (hv : v < 2 ^ 32) : EntriesReached m v := by
  constructor
  · rw [pdeIdx_bits hv]
    rfl
  · exact getPtePtr_bits hv
  · exact ⟨walk_getPdePtr h hv, getPdePtr_word hv⟩
  · intro hp
    rw [walk_getPtePtr h hv, if_pos hp]
    exact ⟨rfl, getPtePtr_word v⟩

theorem wp_mapPageTable_mapped (h : m.Recursive) (hv : v < 0xffc00000) (hpage : v % 4096 = 0)
    (hframe : paddr % 4096 = 0) (habs : m.walk v = none)
    (hfree : present (m.pde v) = false → m.FreeTable) :
    wp noStop e (mapPageTable v paddr) (fun _ r => PageMapped e m v paddr r) m := by
  obtain ⟨g, rfl⟩ : ∃ g, paddr = g * 4096 := ⟨paddr / 4096, by omega⟩
  apply wp_mono (wp_mapPageTable_edit h hv habs hfree)
  intro _ r hr
  constructor
  · exact hr.recursive
  · intro off hoff
    rw [hr.translate hpage hoff, if_pos (present_mkEntry g), entryFrame_mkEntry]
  · intro off hoff
    have ha := wp_addrV2P_of_entry (e := e) hr.recursive.self hv hpage hoff hr.pde
    rwa [hr.pte, entryFrame_mkEntry] at ha
  · exact hr.others

theorem wp_unmapPageTable_unmapped (h : m.Recursive) (hv : v < 0xffc00000) (hpage : v % 4096 = 0)
    (hp : present (m.pde v) = true) :
    wp noStop e (unmapPageTable v) (fun _ r => PageUnmapped m v r) m := by
  apply wp_mono (wp_unmapPageTable_edit h hv hp)
  intro _ r hr
  refine ⟨hr.recursive, fun off hoff => ?_, hr.others⟩
  have heven : present (m.pte v - m.pte v % 2) = false := by
    unfold present
    rw [decide_eq_false_iff_not]
    omega
  rw [hr.translate hpage hoff, heven]
  rfl

/-- The tables are edited faithfully, up to the pages that share the entry. -/
theorem self_map_law (h : m.Recursive) (hv : v < 0xffc00000) (hpage : v % 4096 = 0)
    (hframe : paddr % 4096 = 0) :
    EntriesReached m v ∧
    (m.walk v = none → (present (m.pde v) = false → m.FreeTable) →
      wp noStop e (mapPageTable v paddr) (fun _ r => PageMapped e m v paddr r) m) ∧
    (present (m.pde v) = true → wp noStop e (unmapPageTable v) (fun _ r => PageUnmapped m v r) m) :=
  ⟨entriesReached h.self (by omega), wp_mapPageTable_mapped h hv hpage hframe,
    wp_unmapPageTable_unmapped h hv hpage⟩

/-- The memory that the loader leaves, with one table under two entries of the directory. -/
def loadedPhys (f i : ℕ) : ℕ :=
  if f = 0x100 then if i = 0 then mkEntry (0x101 * 4096) else sampleEntries 0x100 i
  else if f = 0x101 ∧ i < 256 then mkEntry (i * 4096) else 0

def loadedMachine : Machine := (exitMachine loadedPhys).setCr3 0x100

/-- The same with a second entry that names the directory. -/
def twicePhys (f i : ℕ) : ℕ :=
  if f = 0x100 ∧ i = 5 then mkEntry (0x100 * 4096) else loadedPhys f i

def twiceMachine : Machine := (exitMachine twicePhys).setCr3 0x100

/-- The first page of user space gets a new table. -/
theorem self_map_law_sample :
    wp noStop sampleHeap (mapPageTable 0x8000 0x1105000)
      (fun _ r => PageMapped sampleHeap (exitMachine samplePhys) 0x8000 0x1105000 r)
      (exitMachine samplePhys) := by
  have hdir : ∀ d, (exitMachine samplePhys).phys 0x202 d = sampleEntries 0x202 d :=
    fun d => samplePhys_dir (.inl rfl)
  have hframe : ∀ d < 1024, present (sampleEntries 0x202 d) = true →
      0x101 ≤ entryFrame (sampleEntries 0x202 d) ∧
        (entryFrame (sampleEntries 0x202 d) < 0x200 ∨ d = 1023) ∧
        entryFrame (sampleEntries 0x202 d) < 0x240 := by
    intro d hd hp
    unfold sampleEntries at hp ⊢
    split_ifs at hp ⊢ with h₁ h₂
    · rw [entryFrame_mkEntry]
      omega
    · rw [entryFrame_mkEntry]
      omega
    · exact absurd hp (by decide)
  have hrec : (exitMachine samplePhys).Recursive := by
    refine ⟨sampleEntries_self, fun d hd hp => ?_⟩
    change entryFrame ((exitMachine samplePhys).phys 0x202 d) ≠ 0x202
    change present ((exitMachine samplePhys).phys 0x202 d) = true at hp
    rw [hdir] at hp ⊢
    have := hframe d (by omega) hp
    omega
  have hfree : (exitMachine samplePhys).FreeTable := by
    refine ⟨by decide, 64, by decide +kernel, fun d hd hp => ?_⟩
    change entryFrame ((exitMachine samplePhys).phys 0x202 d) ≠ 64 + 0x200000 / 4096
    change present ((exitMachine samplePhys).phys 0x202 d) = true at hp
    rw [hdir] at hp ⊢
    have := hframe d hd hp
    omega
  exact (self_map_law hrec (by decide) (by decide) (by decide)).2.1 (by decide +kernel)
    fun _ => hfree

/-- The first page of the kernel heap is mapped, and an address in the first 4 MiB with it.
Through a second entry that names the directory a page maps a whole table. And a page whose table
is missing cannot be taken out. -/
theorem self_map_law_fails :
    (loadedMachine.SelfMapped ∧ loadedMachine.walk 0xc0100000 = none ∧
      loadedMachine.translate 0x100000 = none ∧
      ∃ r, Returns sampleHeap (mapPageTable 0xc0100000 0x240000) loadedMachine () r ∧
        r.translate 0x100000 = some 0x240000) ∧
    (twiceMachine.SelfMapped ∧ twiceMachine.walk 0x1407000 = none ∧
      twiceMachine.translate 0x1c00000 = none ∧
      ∃ r, Returns sampleHeap (mapPageTable 0x1407000 0x101000) twiceMachine () r ∧
        r.translate 0x1c00000 = some 0) ∧
    (exitMachine samplePhys).SelfMapped ∧
      ∃ r, Stops sampleHeap (unmapPageTable 0x8000) (exitMachine samplePhys) r := by
  refine ⟨⟨sampleEntries_self, by decide +kernel, by decide +kernel, ?_⟩,
    ⟨sampleEntries_self, by decide +kernel, by decide +kernel, ?_⟩, sampleEntries_self, ?_⟩
  · exact ⟨_, .of_value (by decide +kernel), by decide +kernel⟩
  · exact ⟨_, .of_value (by decide +kernel), by decide +kernel⟩
  · have hvalue : (unmapPageTable 0x8000 sampleHeap 0 (exitMachine samplePhys)).value = none := by
      decide +kernel
    cases hrun : unmapPageTable 0x8000 sampleHeap 0 (exitMachine samplePhys) with
    | returned x t m => simp [hrun, Outcome.value] at hvalue
    | stopped m => exact ⟨m, 0, hrun⟩

end Law

end Gogoos
