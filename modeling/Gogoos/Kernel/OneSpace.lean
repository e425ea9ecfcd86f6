import Gogoos.Kernel.TlbRun
import Gogoos.Kernel.PageRun
import Gogoos.Logic.Erase

/-!
# One address space

The page allocator on the tables in memory does what the allocator of an address space does, as
long as the directory maps itself and no two of its entries name one table: what the tables say
below the window of the last 4 MiB is a state of the other. So a run of the one is a run of the
other, and its accounts hold of the tables.
-/

namespace Gogoos.Machine

open Program
open Mem (vbase)

variable {m r : Machine} {e : Heap} {kf uf n cnt p v w f paddr : ℕ} {pf : PoolFlag}

section View

/-- What the tables say about the pages below the window. -/
def space (m : Machine) : Mem where
  pde d := if d < 1023 then m.phys m.cr3 d else 0
  pte p :=
    if p < 1023 * 1024 ∧ present (m.phys m.cr3 (p / 1024)) = true then m.pte (p * 4096) else 0
  kernelPap := m.kernelPap
  userPap := m.userPap
  kernelVap := m.kernelVap
  vap := m.vap .user

/-- A directory that names no table twice. -/
structure Single (m : Machine) : Prop extends Recursive m where
  inj : ∀ d < 1023, ∀ d' < 1023, present (m.phys m.cr3 d) = true →
    present (m.phys m.cr3 d') = true →
      entryFrame (m.phys m.cr3 d) = entryFrame (m.phys m.cr3 d') → d = d'

theorem page_div : v / 4096 / 1024 = pdeIdx v := by
  unfold pdeIdx
  omega

theorem pdeIdx_lt (hv : v < 0xffc00000) : pdeIdx v < 1023 := by
  unfold pdeIdx
  omega

theorem pde_page : m.pde (p * 4096) = m.phys m.cr3 (p / 1024) := by rw [pde, pdeIdx_page]

theorem pde_eq (hv : v < 0xffc00000) : m.space.pde (v / 4096 / 1024) = m.pde v := by
  rw [page_div]
  exact if_pos (pdeIdx_lt hv)

theorem pte_eq (hv : v < 0xffc00000) (hp : present (m.pde v) = true) :
    m.space.pte (v / 4096) = m.pte v := by
  have hpde : m.pde (v / 4096 * 4096) = m.pde v := by
    rw [pde_page, page_div]
    rfl
  have hpte : m.pte (v / 4096 * 4096) = m.pte v := by
    unfold pte
    rw [hpde]
    congr 1
    unfold pteIdx
    omega
  rw [← hpte]
  refine if_pos ⟨by omega, ?_⟩
  rw [page_div]
  exact hp

theorem space_pap : m.space.pap pf = m.pap pf := by cases pf <;> rfl

theorem space_vpool : m.space.vpool pf = m.vap pf := by cases pf <;> rfl

theorem space_setPapBit {i : ℕ} {b : Bool} :
    (m.setPapBit pf i b).space = m.space.setPapBit pf i b := by
  cases pf <;> rfl

theorem space_setVap {bm : BitMap} : (m.setVap pf bm).space = m.space.setVap pf bm := by
  cases pf with
  | user => simp [space, setVap, Mem.setVap, vap, pte, pde]
  | kernel => rfl

theorem Single.of_dir (h : Single m) (hrec : r.Recursive)
    (hdir : r.phys r.cr3 = m.phys m.cr3) : Single r where
  toRecursive := hrec
  inj := by
    rw [hdir]
    exact h.inj

theorem Single.setPapBit (h : Single m) {i : ℕ} {b : Bool} : Single (m.setPapBit pf i b) :=
  h.of_dir h.toRecursive.of_setPapBit (by cases pf <;> rfl)

theorem Single.setVap (h : Single m) {bm : BitMap} : Single (m.setVap pf bm) := by
  have hrec : (m.setVap pf bm).Recursive := by
    refine ⟨?_, ?_⟩
    · unfold SelfMapped
      rw [phys_setVap, cr3_setVap]
      exact h.self
    · rw [phys_setVap, cr3_setVap]
      exact h.once
  exact h.of_dir hrec (by rw [phys_setVap, cr3_setVap])

end View

section Tables

theorem eq_of_fields {a b : Mem} (hpde : ∀ d, a.pde d = b.pde d) (hpte : ∀ q, a.pte q = b.pte q)
    (hpap : ∀ pf, a.pap pf = b.pap pf) (hvpool : ∀ pf, a.vpool pf = b.vpool pf) : a = b := by
  obtain ⟨pde, pte, kernelPap, userPap, kernelVap, vap⟩ := a
  obtain ⟨pde', pte', kernelPap', userPap', kernelVap', vap'⟩ := b
  congr
  · exact funext hpde
  · exact funext hpte
  · exact hpap .kernel
  · exact hpap .user
  · exact hvpool .kernel
  · exact hvpool .user

/-- A word of a table is the entry of one page. -/
theorem Single.pte_setWord (h : Single m) (hv : v < 0xffc00000) (hp : present (m.pde v) = true)
    (q : ℕ) : (m.setWord (entryFrame (m.pde v)) (pteIdx v) w).space.pte q =
      if q = v / 4096 then w else m.space.pte q := by
  have hf := h.table hv hp
  have hdir : (m.setWord (entryFrame (m.pde v)) (pteIdx v) w).phys m.cr3 = m.phys m.cr3 :=
    dir_setFrame hf
  change (if q < 1023 * 1024 ∧ present (Machine.phys _ m.cr3 (q / 1024)) = true then _ else 0) =
    if q = v / 4096 then w else
      if q < 1023 * 1024 ∧ present (m.phys m.cr3 (q / 1024)) = true then m.pte (q * 4096) else 0
  rw [hdir]
  by_cases hq : q < 1023 * 1024 ∧ present (m.phys m.cr3 (q / 1024)) = true
  · rw [if_pos hq, if_pos hq]
    by_cases hT : entryFrame (m.pde (q * 4096)) = entryFrame (m.pde v)
    · rw [setWord, pte_setFrame_self hf hT]
      have hd : q / 1024 = pdeIdx v := by
        refine h.inj _ (by omega) _ (pdeIdx_lt hv) hq.2 hp ?_
        rw [← pde_page]
        exact hT
      have hiff : pteIdx (q * 4096) = pteIdx v ↔ q = v / 4096 := by
        unfold pdeIdx at hd
        unfold pteIdx
        omega
      refine if_congr hiff rfl ?_
      rw [pte, hT]
    · rw [setWord, pte_setFrame_ne hf hT, if_neg]
      rintro rfl
      refine hT ?_
      rw [pde_page, page_div]
      rfl
  · rw [if_neg hq, if_neg hq, if_neg]
    rintro rfl
    refine hq ⟨by omega, ?_⟩
    rw [page_div]
    exact hp

theorem Single.space_setWord (h : Single m) (hv : v < 0xffc00000) (hp : present (m.pde v) = true) :
    (m.setWord (entryFrame (m.pde v)) (pteIdx v) w).space = m.space.setPte (v / 4096) w := by
  refine eq_of_fields (fun d => ?_) (h.pte_setWord hv hp) (fun _ => rfl) fun _ => rfl
  have hdir : (m.setWord (entryFrame (m.pde v)) (pteIdx v) w).phys m.cr3 = m.phys m.cr3 :=
    dir_setFrame (h.table hv hp)
  change (if d < 1023 then Machine.phys _ m.cr3 d else 0) = if d < 1023 then m.phys m.cr3 d else 0
  rw [hdir]

/-- The directory with a new table, which is cleared. -/
theorem dir_newTable (hne : f ≠ m.cr3) (d : ℕ) :
    ((m.enter v f).setFrame f fun _ => 0).phys m.cr3 d =
      if d = pdeIdx v then mkEntry (f * 4096) else m.phys m.cr3 d := by
  have hdir : ((m.enter v f).setFrame f fun _ => 0).phys m.cr3 = (m.enter v f).phys m.cr3 :=
    dir_setFrame (m := m.enter v f) hne
  rw [hdir]
  simp [enter, setWord]

theorem Single.newTable (h : Single m) (hv : v < 0xffc00000) (hun : m.Unused f) :
    Single ((m.enter v f).setFrame f fun _ => 0) := by
  have hne : f ≠ m.cr3 := h.unused_ne hun
  have hlt := pdeIdx_lt hv
  refine ⟨(h.enter hv hun).setFrame hne, fun d hd d' hd' hp hp' hT => ?_⟩
  change present (Machine.phys _ m.cr3 d) = true at hp
  change present (Machine.phys _ m.cr3 d') = true at hp'
  change entryFrame (Machine.phys _ m.cr3 d) = entryFrame (Machine.phys _ m.cr3 d') at hT
  rw [dir_newTable hne] at hp hT
  rw [dir_newTable hne] at hp' hT
  split_ifs at hp hp' hT with h1 h2 h2
  · rw [h1, h2]
  · rw [entryFrame_mkEntry] at hT
    exact absurd hT.symm (hun d' (by omega) hp')
  · rw [entryFrame_mkEntry] at hT
    exact absurd hT (hun d (by omega) hp)
  · exact h.inj d hd d' hd' hp hp' hT

theorem Single.pte_newTable (h : Single m) (hun : m.Unused f) (q : ℕ) :
    ((m.enter v f).setFrame f fun _ => 0).space.pte q =
      if q / 1024 = pdeIdx v then 0 else m.space.pte q := by
  have hne : f ≠ (m.enter v f).cr3 := h.unused_ne hun
  set r := (m.enter v f).setFrame f fun _ => 0 with hr
  have hentered : (m.enter v f).pde (q * 4096) = r.pde (q * 4096) := (pde_setFrame hne).symm
  have hdir := dir_newTable (m := m) (v := v) hne (q / 1024)
  change (if q < 1023 * 1024 ∧ present (r.phys m.cr3 (q / 1024)) = true then r.pte (q * 4096)
    else 0) = if q / 1024 = pdeIdx v then 0 else
      if q < 1023 * 1024 ∧ present (m.phys m.cr3 (q / 1024)) = true then m.pte (q * 4096) else 0
  rw [← hr] at hdir
  by_cases hd : q / 1024 = pdeIdx v
  · have hentry : entryFrame ((m.enter v f).pde (q * 4096)) = f := by
      rw [hentered, pde_page]
      change entryFrame (r.phys m.cr3 (q / 1024)) = f
      rw [hdir, if_pos hd, entryFrame_mkEntry]
    rw [if_pos hd]
    split_ifs
    · rw [hr, pte_setFrame_self hne hentry]
    · rfl
  · rw [if_neg hd, hdir, if_neg hd]
    refine if_ctx_congr Iff.rfl (fun hq => ?_) fun _ => rfl
    have hsame : (m.enter v f).pde (q * 4096) = m.pde (q * 4096) :=
      pde_enter_ne (by rw [pdeIdx_page]; exact hd)
    have hT : entryFrame ((m.enter v f).pde (q * 4096)) ≠ f := by
      rw [hsame, pde_page]
      exact hun _ (by omega) hq.2
    have htable : entryFrame (m.pde (q * 4096)) ≠ m.cr3 := by
      rw [pde_page]
      exact h.once _ (by omega) hq.2
    rw [hr, pte_setFrame_ne hne hT]
    unfold pte
    rw [hsame, enter, setWord, phys_setFrame_ne htable]

theorem Single.space_newTable (h : Single m) (hv : v < 0xffc00000) (hun : m.Unused f) :
    ((m.enter v f).setFrame f fun _ => 0).space =
      m.space.setTable (v / 4096 / 1024) (mkEntry (f * 4096)) := by
  rw [page_div]
  refine eq_of_fields (fun d => ?_) (h.pte_newTable hun) (fun _ => rfl) fun _ => rfl
  have hlt := pdeIdx_lt hv
  change (if d < 1023 then Machine.phys _ m.cr3 d else 0) =
    if d = pdeIdx v then mkEntry (f * 4096) else if d < 1023 then m.phys m.cr3 d else 0
  rw [dir_newTable (h.unused_ne hun)]
  by_cases hd : d = pdeIdx v
  · rw [if_pos hd, if_pos hd, if_pos (by omega)]
  · rw [if_neg hd, if_neg hd]

theorem Single.setWord (h : Single m) (hv : v < 0xffc00000) (hp : present (m.pde v) = true) :
    Single (m.setWord (entryFrame (m.pde v)) (pteIdx v) w) :=
  h.of_dir (h.toRecursive.edit hv hp w).recursive (dir_setFrame (h.table hv hp))

end Tables

section Calls

theorem mirrors_readPte_bind {α : Type} {f' : ℕ → KernelM α} {f : ℕ → MemM α}
    {R : α → Machine → Prop} (h : m.SelfMapped) (hv : v < 0xffc00000)
    (hf : present (m.pde v) = true → Mirrors space e (f' (m.pte v)) (f (m.pte v)) m R) :
    Mirrors space e (load (getPtePtr v) >>= f') (Mem.readPte (v / 4096) >>= f) m R := by
  refine wp_load_bind.mpr ⟨fun g hg => ?_, fun _ => trivial⟩
  rw [walk_getPtePtr h (by omega)] at hg
  split_ifs at hg with hp
  obtain rfl := Option.some.inj hg
  rw [getPtePtr_word]
  have hread : ∀ t, Mem.readPte (v / 4096) () t m.space = .returned (m.pte v) t m.space := by
    intro t
    change (if present (m.space.pde (v / 4096 / 1024)) then
      (pure (m.space.pte (v / 4096)) : MemM ℕ) else halt) () t m.space = _
    rw [pde_eq hv, if_pos hp, pte_eq hv hp]
    rfl
  apply wp_mono (hf hp)
  rintro a r ⟨hr, hret⟩
  exact ⟨hr, fun t => (bind_returned (hread t)).trans (hret t)⟩

theorem mirrors_addrV2P (h : m.SelfMapped) (hv : v < 0xffc00000) :
    Mirrors space e (addrV2P v) (Mem.addrV2P v) m (fun _ r => r = m) :=
  mirrors_readPte_bind h hv fun _ => mirrors_pure rfl

theorem mirrors_freePhyAddr (h : Single m) :
    Mirrors space e (freePhyAddr paddr) (Mem.freePhyAddr paddr) m (fun _ r => Single r) := by
  unfold freePhyAddr Mem.freePhyAddr
  apply mirrors_get_bind
  refine mirrors_modify ?_ h.setPapBit
  rw [space_setPapBit, space_pap]
  rfl

theorem mirrors_unmapPageTable (h : Single m) (hv : v < 0xffc00000) :
    Mirrors space e (unmapPageTable v) (Mem.unmapPageTable v) m (fun _ r => Single r) := by
  apply mirrors_readPte_bind h.self hv
  intro hp
  refine wp_of_noStop (wp_storePte h.self hv hp ⟨h.setWord hv hp, fun t => ?_⟩)
  rw [h.space_setWord hv hp]
  rfl

theorem allocPhyAddr_returned {a : Mem} {t : ℕ} (hscan : bitMapScan (a.pap pf).bitMap 1 = some n) :
    Mem.allocPhyAddr pf () t a =
      .returned (some (n * 4096 + (a.pap pf).startAddr)) t (a.setPapBit pf n true) := by
  have hget : (get : MemM Mem) () t a = .returned a t a := rfl
  unfold Mem.allocPhyAddr
  rw [bind_returned hget, hscan]
  rfl

theorem mirrors_allocPhyAddr : Mirrors space e (allocPhyAddr pf) (Mem.allocPhyAddr pf) m
    (fun o r => (o = none ∧ r = m) ∨ ∃ n, bitMapScan (m.pap pf).bitMap 1 = some n ∧
      o = some (n * 4096 + (m.pap pf).startAddr) ∧ r = m.setPapBit pf n true) := by
  unfold allocPhyAddr Mem.allocPhyAddr
  apply mirrors_get_bind
  rw [space_pap]
  cases hscan : bitMapScan (m.pap pf).bitMap 1 with
  | none => exact mirrors_pure (.inl ⟨rfl, rfl⟩)
  | some n =>
    refine Mirrors.bind (R := fun _ r => r = m.setPapBit pf n true)
      (mirrors_modify space_setPapBit rfl) ?_
    rintro _ r rfl
    exact mirrors_pure (.inr ⟨n, rfl, rfl, rfl⟩)

theorem mapPageTable_returned {a : Mem} {t : ℕ} (hp : present (a.pde (v / 4096 / 1024)) = true)
    (hn : present (a.pte (v / 4096)) = false) :
    Mem.mapPageTable v paddr () t a = .returned () t (a.setPte (v / 4096) (mkEntry paddr)) := by
  change (if present (a.pde (v / 4096 / 1024)) then
    (if !present (a.pte (v / 4096)) then modify _ else halt) else _ : MemM Unit) () t a = _
  rw [if_pos hp, hn]
  rfl

theorem mapPageTable_new {a : Mem} {t : ℕ} (hp : present (a.pde (v / 4096 / 1024)) = false)
    (hscan : bitMapScan a.kernelPap.bitMap 1 = some n) :
    Mem.mapPageTable v paddr () t a = .returned () t
      (((a.setPapBit .kernel n true).setTable (v / 4096 / 1024)
        (mkEntry (n * 4096 + a.kernelPap.startAddr))).setPte (v / 4096) (mkEntry paddr)) := by
  have halloc : Mem.allocPhyAddr .kernel () t a = _ := allocPhyAddr_returned hscan
  change (if present (a.pde (v / 4096 / 1024)) then _ else (do
    let phyPageAddr ← Mem.allocPhyAddr .kernel
    modify fun m => m.setTable (v / 4096 / 1024) (mkEntry (phyPageAddr.getD 0))
    modify fun m => m.setPte (v / 4096) (mkEntry paddr)) : MemM Unit) () t a = _
  rw [if_neg (by simp [hp]), bind_returned halloc]
  rfl

theorem mirrors_mapPageTable (h : Single m) (hv : v < 0xffc00000)
    (hfree : present (m.pde v) = false → m.FreeTable) :
    Mirrors space e (mapPageTable v paddr) (Mem.mapPageTable v paddr) m
      (fun _ r => Single r) := by
  cases hp : present (m.pde v) with
  | true =>
    apply wp_mono (wp_mapPageTable_present h.self hv hp fun _ => trivial)
    rintro _ r ⟨hpte, rfl⟩
    refine ⟨h.setWord hv hp, fun t => ?_⟩
    rw [h.space_setWord hv hp]
    apply mapPageTable_returned
    · rw [pde_eq hv, hp]
    · rw [pte_eq hv hp, hpte]
  | false =>
    obtain ⟨hstart, n, hn, hun⟩ := hfree hp
    apply wp_mono (wp_of_noStop (wp_mapPageTable_absent h.toRecursive hv hp hstart hn rfl hun))
    rintro _ r rfl
    set f := n + m.kernelPap.startAddr / 4096 with hf
    set s := m.setPapBit .kernel n true with hs
    have hsingle : Single s := h.setPapBit
    have hne : f ≠ (s.enter v f).cr3 := hsingle.unused_ne hun
    have hentered : Single ((s.enter v f).setFrame f fun _ => 0) := hsingle.newTable hv hun
    have hpde : ((s.enter v f).setFrame f fun _ => 0).pde v = mkEntry (f * 4096) := by
      rw [pde_setFrame hne, pde_enter_self]
    have hpresent : present (((s.enter v f).setFrame f fun _ => 0).pde v) = true := by
      rw [hpde, present_mkEntry]
    have hset := hentered.setWord (w := mkEntry paddr) hv hpresent
    have hword := hentered.space_setWord (w := mkEntry paddr) hv hpresent
    rw [hpde, entryFrame_mkEntry] at hset hword
    refine ⟨hset, fun t => ?_⟩
    have hframe : f * 4096 = n * 4096 + m.space.kernelPap.startAddr := by
      change f * 4096 = n * 4096 + m.kernelPap.startAddr
      omega
    rw [hword, hsingle.space_newTable hv hun, hs, space_setPapBit, hframe]
    apply mapPageTable_new
    · rw [pde_eq hv, hp]
    · exact hn

theorem mirrors_unmapBack : ∀ cnt v m, Single m → v < 0xffc00000 →
    Mirrors space e (unmapBack cnt v) (Mem.unmapBack cnt v) m (fun _ r => Single r) := by
  intro cnt
  induction cnt with
  | zero => exact fun v m h _ => mirrors_pure h
  | succ cnt ih =>
    intro v m h hv
    apply (mirrors_addrV2P h.self hv).bind
    rintro paddr r hr
    rw [hr]
    apply (mirrors_freePhyAddr h).bind
    intro _ r' hr'
    apply (mirrors_unmapPageTable hr' hv).bind
    intro _ r'' hr''
    exact ih (v - 4096) r'' hr'' (by omega)

end Calls

section Pages

/-- There is a frame for the table that a page of the range needs. -/
theorem freeTable_of_reserve {left : ℕ} (h : Paged m kf uf)
    (hp : present (m.pde (p * 4096)) = false) (hn : n < m.userPap.bitMap.bits)
    (hclear : m.userPap.bitMap.bit n = false) (hres : Reserve m .user p (left + 1)) :
    (m.setPapBit .user n true).FreeTable := by
  have habs : present (m.phys m.cr3 (p / 1024)) = false := by rwa [pde_page] at hp
  have hle := hres rfl
  rw [← clearBits_set hn hclear, Nat.add_min_add_right] at hle
  have hpos : 0 < m.kernelPap.bitMap.clearBits :=
    (Finset.card_pos.mpr ⟨_, Mem.mem_lacking habs⟩).trans_le hle
  obtain ⟨k, hscan⟩ := exists_scan_of_clearBits _ hpos
  obtain ⟨hk, hkclear, -⟩ := bitMapScan_one_eq_some hscan
  have hstart := h.pools.kstart
  refine ⟨?_, k, hscan, ?_⟩
  · change m.kernelPap.startAddr % 4096 = 0
    rw [hstart, Nat.mul_mod_left]
  · change m.Unused (k + m.kernelPap.startAddr / 4096)
    rw [hstart, Nat.mul_div_cancel _ (by norm_num), Nat.add_comm]
    exact h.unused k hk hkclear

theorem mirrors_mapPages : ∀ left done p m, Single m → Paged m kf uf → Reserve m pf p left →
    (∀ j < left, InArea m pf (p + j)) →
    Mirrors space e (mapPages pf left done (p * 4096)) (Mem.mapPages pf left done (p * 4096)) m
      (fun _ r => Single r) := by
  intro left
  induction left with
  | zero => exact fun done p m h _ _ _ => mirrors_pure h
  | succ left ih =>
    intro done p m h hpaged hres hin
    have hfirst : InArea m pf p := hin 0 (by omega)
    have hlt := hpaged.page_lt hfirst
    unfold mapPages Mem.mapPages
    apply mirrors_allocPhyAddr.bind
    rintro o r (⟨rfl, hr⟩ | ⟨n, hscan, rfl, hr⟩)
    · rw [hr]
      apply (mirrors_unmapBack done _ m h (by omega)).bind
      exact fun _ r' hr' => mirrors_pure hr'
    · rw [hr]
      obtain ⟨hn, hclear, -⟩ := bitMapScan_one_eq_some hscan
      have hframe : n * 4096 + (m.pap pf).startAddr = (Mem.base kf uf pf + n) * 4096 := by
        rw [hpaged.pools.start]
        omega
      rw [hframe]
      have hfree : present ((m.setPapBit pf n true).pde (p * 4096)) = false →
          (m.setPapBit pf n true).FreeTable := by
        intro hp
        rw [pde_setPapBit] at hp
        obtain rfl := hpaged.user_of_absent hfirst hp
        exact freeTable_of_reserve hpaged hp hn hclear hres
      have hadded : wp anyStop e (mapPageTable (p * 4096) ((Mem.base kf uf pf + n) * 4096))
          (fun _ r => Added m kf uf pf p n r ∧ Reserve r pf (p + 1) left) (m.setPapBit pf n true) :=
        wp_mapPageTable_added hpaged hfirst hn hclear hres (.inr fun _ => trivial)
      apply ((mirrors_mapPageTable h.setPapBit hlt hfree).and hadded).bind
      rintro _ r' ⟨hsingle, hadd, hres'⟩
      rw [← Nat.succ_mul]
      refine ih (done + 1) (p + 1) r' hsingle hadd.paged hres' fun j hj => ?_
      unfold InArea
      rw [hadd.vap, Nat.add_assoc, Nat.add_comm 1]
      exact hin (j + 1) (by omega)

theorem mirrors_allocVirAddr : Mirrors space e (allocVirAddr pf cnt) (Mem.allocVirAddr pf cnt) m
    (fun _ _ => True) := by
  unfold allocVirAddr Mem.allocVirAddr
  apply mirrors_get_bind
  rw [space_vpool]
  rcases bitMapScanAndSet (m.vap pf).bitMap cnt true with ⟨_ | bitIdxStart, bm⟩
  · exact mirrors_pure trivial
  · refine Mirrors.bind (R := fun _ _ => True) (mirrors_modify space_setVap trivial) ?_
    intro _ _ _
    exact mirrors_assert_bind id fun _ => mirrors_pure trivial

theorem mirrors_freeVirAddr (h : Single m) :
    Mirrors space e (freeVirAddr pf v cnt) (Mem.freeVirAddr pf v cnt) m (fun _ r => Single r) := by
  unfold freeVirAddr Mem.freeVirAddr
  apply mirrors_get_bind
  refine mirrors_modify ?_ h.setVap
  rw [space_setVap, space_vpool]

/-- `allocPage`, when the kernel pool has the frames for its tables. -/
theorem mirrors_allocPage (h : Single m) (hpaged : Paged m kf uf) (hres : m.Supplies pf cnt) :
    Mirrors space e (allocPage pf cnt) (Mem.allocPage pf cnt) m (fun _ r => Single r) := by
  unfold allocPage Mem.allocPage
  apply mirrors_assert_bind id
  rintro ⟨hcnt, -⟩
  apply (mirrors_allocVirAddr.and (hpaged.wp_allocVirAddr fun _ _ _ =>
    .inr fun _ => trivial)).bind
  rintro (_ | virPageAddr) r₀ ⟨-, hr⟩
  · obtain ⟨-, rfl⟩ := hr
    exact mirrors_pure h
  · obtain ⟨i, hscan, rfl, hr₀⟩ := hr
    obtain ⟨hend, -⟩ := bitMapScan_eq_some hpaged.vbits_lt hcnt hscan
    have hpaged₀ : Paged r₀ kf uf := by
      rw [hr₀]
      exact hpaged.setVap
    have hsingle₀ : Single r₀ := by
      rw [hr₀]
      exact h.setVap
    have hres₀ : Reserve r₀ pf (vbase pf + i) cnt := by
      rw [hr₀]
      exact (hres i hscan).setVap
    have hin : ∀ j < cnt, InArea r₀ pf (vbase pf + i + j) := by
      intro j hj
      unfold InArea
      rw [hr₀, vapBits_setVap]
      exact ⟨by omega, by omega⟩
    apply (mirrors_mapPages cnt 0 (vbase pf + i) r₀ hsingle₀ hpaged₀ hres₀ hin).bind
    intro mapped r hr
    apply mirrors_ite Iff.rfl
    · exact fun _ => mirrors_pure hr
    · intro _
      apply (mirrors_freeVirAddr hr).bind
      intro _ r' hr'
      exact mirrors_assert_bind id fun _ => mirrors_pure hr'

theorem mirrors_freeFrames {user : Bool} : ∀ cnt v m, Single m → v + cnt * 4096 ≤ 0xffc00000 →
    Mirrors space e (freeFrames user cnt v) (Mem.freeFrames user cnt v) m
      (fun _ r => Single r) := by
  intro cnt
  induction cnt with
  | zero => exact fun v m h _ => mirrors_pure h
  | succ cnt ih =>
    intro v m h hv
    have hlt : v < 0xffc00000 := by omega
    apply (mirrors_addrV2P h.self hlt).bind
    rintro paddr r hr
    rw [hr]
    apply mirrors_get_bind
    apply mirrors_assert_bind id
    intro _
    have hrest : Mirrors space e (do
          freePhyAddr paddr
          unmapPageTable v
          freeFrames user cnt (v + 4096)) (do
          Mem.freePhyAddr paddr
          Mem.unmapPageTable v
          Mem.freeFrames user cnt (v + 4096)) m (fun _ r => Single r) := by
      apply (mirrors_freePhyAddr h).bind
      intro _ r' hr'
      apply (mirrors_unmapPageTable hr' hlt).bind
      intro _ r'' hr''
      exact ih (v + 4096) r'' hr'' (by omega)
    cases user with
    | true => exact mirrors_assert_bind id fun _ => hrest
    | false => exact mirrors_assert_bind id fun _ => hrest

theorem mirrors_freePage (h : Single m) (hplain : m.Plain (v / 4096) cnt) :
    Mirrors space e (freePage pf v cnt) (Mem.freePage pf v cnt) m (fun _ r => Single r) := by
  unfold freePage Mem.freePage
  apply mirrors_assert_bind id
  rintro ⟨hcnt, hpage⟩
  have hv : v + cnt * 4096 ≤ 0xffc00000 := by
    have := (hplain (cnt - 1) (by omega)).1
    omega
  apply (mirrors_addrV2P h.self (by omega)).bind
  rintro paddr r hr
  rw [hr]
  apply mirrors_assert_bind id
  intro _
  apply mirrors_get_bind
  apply (mirrors_freeFrames cnt v m h hv).bind
  exact fun _ r' hr' => mirrors_freeVirAddr hr'

end Pages

section Accounts

open Mem (Accounts AccLaw AccStep Booted PageEvent PageRange Sound initAccounts)

/-- The tables are in order for the call, which does not free the first frame of the user pool. -/
def Ready (m : Machine) : PageEvent → Prop
  | .alloc pf pageCnt => m.Supplies pf pageCnt
  | .free r => m.Plain (r.virPageAddr / 4096) r.pageCnt ∧ ∀ i < r.pageCnt,
      m.walk ((r.virPageAddr / 4096 + i) * 4096) ≠ some (m.userPap.startAddr / 4096)

/-- The calls on the tables, with the ranges that are live. -/
inductive PagesStep : Machine × List PageRange → Machine × List PageRange → Prop where
  | alloc {m live pf pageCnt virPageAddr r} {e : Heap} : Ready m (.alloc pf pageCnt) →
      Returns e (allocPage pf pageCnt) m (some virPageAddr) r →
      PagesStep (m, live) (r, ⟨pf, virPageAddr, pageCnt⟩ :: live)
  | fail {m live pf pageCnt r} {e : Heap} : Ready m (.alloc pf pageCnt) →
      Returns e (allocPage pf pageCnt) m none r → PagesStep (m, live) (r, live)
  | free {m live range r} {e : Heap} : range ∈ live → Ready m (.free range) →
      Returns e (freePage range.pf range.virPageAddr range.pageCnt) m () r →
      PagesStep (m, live) (r, live.erase range)

/-- Both say the same of where a page leads. -/
theorem space_walk (hp : p < 1023 * 1024) : m.space.walk p = m.walk (p * 4096) := by
  have hv : p * 4096 < 0xffc00000 := by omega
  have hpage : p * 4096 / 4096 = p := Nat.mul_div_cancel _ (by norm_num)
  have hpde := pde_eq (m := m) hv
  rw [hpage] at hpde
  unfold Mem.walk
  rw [walk_eq, hpde]
  cases hpres : present (m.pde (p * 4096)) with
  | false => rw [if_neg (by simp), if_neg (by simp)]
  | true =>
    have hpte := pte_eq hv hpres
    rw [hpage] at hpte
    rw [hpte]

theorem lacking_space (hp : ∀ i < cnt, p + i < 1023 * 1024) :
    Mem.lacking m.space.pde p cnt = Mem.lacking (m.phys m.cr3) p cnt := by
  refine Finset.filter_congr fun d hd => ?_
  obtain ⟨i, hi, rfl⟩ := Finset.mem_image.mp hd
  have hlt : (p + i) / 1024 < 1023 := by
    have := hp i (Finset.mem_range.mp hi)
    omega
  rw [show m.space.pde ((p + i) / 1024) = m.phys m.cr3 ((p + i) / 1024) from if_pos hlt]

theorem Ready.sound (h : Paged m kf uf) {ev : PageEvent} (hr : Ready m ev) :
    Sound m.space ev := by
  cases ev with
  | alloc pf cnt =>
    intro i hscan huser
    rw [space_vpool] at hscan
    have hle := hr i hscan huser
    rw [space_vpool, h.vstart, Nat.mul_div_cancel _ (by norm_num)]
    unfold Mem.missing
    rwa [lacking_space fun j hj => ?_]
    have hend := (bitMapScan_eq_some h.vbits_lt (by omega) hscan).1
    have hin : InArea m pf (vbase pf + i + j) := ⟨by omega, by omega⟩
    have := h.page_lt hin
    omega
  | free r =>
    intro i hi
    rw [space_walk]
    · exact hr.2 i hi
    · have := (hr.1 i hi).1
      omega

theorem PagesStep.space {a b : Machine × List PageRange} (hst : PagesStep a b)
    (hs : Single a.1) (hpaged : Paged a.1 kf uf) :
    (Single b.1 ∧ Paged b.1 kf uf) ∧ AccStep Sound ⟨a.1.space, a.2⟩ ⟨b.1.space, b.2⟩ := by
  cases hst with
  | alloc hr hret =>
    obtain ⟨⟨hs', hrun⟩, hkept⟩ :=
      hret.of_wp (wp_and (mirrors_allocPage hs hpaged hr) (wp_allocPage_kept hpaged hr))
    exact ⟨⟨hs', hkept.1⟩, .alloc (hr.sound hpaged) ⟨0, 0, hrun 0⟩⟩
  | fail hr hret =>
    obtain ⟨⟨hs', hrun⟩, hkept⟩ :=
      hret.of_wp (wp_and (mirrors_allocPage hs hpaged hr) (wp_allocPage_kept hpaged hr))
    exact ⟨⟨hs', hkept.1⟩, .fail (hr.sound hpaged) ⟨0, 0, hrun 0⟩⟩
  | free hmem hr hret =>
    obtain ⟨⟨hs', hrun⟩, hcut⟩ :=
      hret.of_wp (wp_and (mirrors_freePage hs hr.1) (wp_freePage_cut hpaged hr.1))
    exact ⟨⟨hs', hcut.1⟩, .free hmem (hr.sound hpaged) ⟨0, 0, hrun 0⟩⟩

/-- A run on the tables is a run of the other allocator. -/
theorem run_space {a b : Machine × List PageRange} (hrun : Run PagesStep a b) (hs : Single a.1)
    (hpaged : Paged a.1 kf uf) :
    (Single b.1 ∧ Paged b.1 kf uf) ∧ Run (AccStep Sound) ⟨a.1.space, a.2⟩ ⟨b.1.space, b.2⟩ := by
  induction hrun with
  | refl => exact ⟨⟨hs, hpaged⟩, .refl⟩
  | tail _ hst ih =>
    obtain ⟨⟨hs', hpaged'⟩, hrun'⟩ := ih
    obtain ⟨hkept, hstep⟩ := hst.space hs' hpaged'
    exact ⟨hkept, hrun'.tail hstep⟩

/-- So the accounts hold of the tables in memory. -/
theorem accounts_of_tables {allMem : ℕ} {a : Mem} {live : List PageRange}
    (hbooted : Booted allMem a) (hm : m.space = (initAccounts allMem a).mem) (hs : Single m)
    (hpaged : Paged m kf uf) (hrun : Run PagesStep (m, []) (r, live)) :
    AccLaw Sound ⟨r.space, live⟩ := by
  have h := (run_space hrun hs hpaged).2
  dsimp only at h
  rw [hm] at h
  exact (h.invariant (fun _ _ hI hst => Mem.Kept.step hI hst) hbooted.kept).law

/-- A directory without the entry that the loader leaves below. -/
theorem scarceMachine_single : Single scarceMachine where
  toRecursive := scarceMachine_consistent.paged.recursive
  inj := by
    intro d hd d' hd' hp hp' hT
    have hself : present (barePhys false (fun _ => 0) 0x100 d) = true := hp
    have hself' : present (barePhys false (fun _ => 0) 0x100 d') = true := hp'
    have h := barePhys_frame hself
    have h' := barePhys_frame hself'
    change entryFrame (barePhys false (fun _ => 0) 0x100 d) =
      entryFrame (barePhys false (fun _ => 0) 0x100 d') at hT
    simp only [Bool.false_eq_true, false_and, false_or] at h h'
    omega

end Accounts

end Gogoos.Machine
