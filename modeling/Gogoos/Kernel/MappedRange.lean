import Gogoos.Kernel.PageSteps
import Gogoos.Kernel.SelfMap

/-!
# A range of pages in the tables

`allocPage` maps its pages one after another, and when a frame is missing it takes them out
again in the opposite order. What the loop has changed at any moment is said here of the tables
in memory: the pages mapped so far, the pages that share their entries, and the tables that were
entered.
-/

namespace Gogoos.Machine

open Program
open Mem (base vbase lacking)

variable {m r r' : Machine} {e : Heap} {kf uf n b cnt done p : ℕ} {v w entry f : ℕ}
  {pf q : PoolFlag} {g : ℕ → ℕ} {stop : Machine → Prop}

section Entries

theorem pdeIdx_page : pdeIdx (p * 4096) = p / 1024 := by unfold pdeIdx; omega

theorem Alias.pte (h : m.Alias v w) : m.pte w = m.pte v := by
  unfold Machine.pte
  rw [h.2.2.1, h.2.2.2]

theorem Alias.walk (h : m.Alias v w) : m.walk w = m.walk v := by
  rw [walk_eq, walk_eq, h.pte, h.1, h.2.1]

theorem Alias.symm (h : m.Alias v w) : m.Alias w v := ⟨h.2.1, h.1, h.2.2.1.symm, h.2.2.2.symm⟩

/-- Two pages with one entry had it before the new tables came. -/
theorem Entered.alias (h : Entered m r) (hv : v < 2 ^ 32) (hw : w < 2 ^ 32)
    (hne : w / 4096 ≠ v / 4096) (ha : r.Alias v w) : m.Alias v w := by
  obtain ⟨hpv, hpw, hT, hidx⟩ := ha
  have hdv : pdeIdx v < 1024 := by unfold pdeIdx; omega
  have hdw : pdeIdx w < 1024 := by unfold pdeIdx; omega
  have hd : pdeIdx w ≠ pdeIdx v := by
    unfold pdeIdx pteIdx at *
    omega
  have hmv : present (m.pde v) = true := by
    by_contra hc
    have habs : present (m.pde v) = false := by simpa using hc
    exact hd (h.fresh _ hdv habs hpv _ hdw hpw hT)
  have hmw : present (m.pde w) = true := by
    by_contra hc
    have habs : present (m.pde w) = false := by simpa using hc
    exact hd (h.fresh _ hdw habs hpw _ hdv hpv hT.symm).symm
  have hkv : r.pde v = m.pde v := h.kept _ hmv
  have hkw : r.pde w = m.pde w := h.kept _ hmw
  exact ⟨hmv, hmw, by rw [← hkv, ← hkw, hT], hidx⟩

theorem Entered.alias_of (h : Entered m r) (ha : m.Alias v w) : r.Alias v w := by
  obtain ⟨hpv, hpw, hT, hidx⟩ := ha
  have hkv : r.pde v = m.pde v := h.kept _ hpv
  have hkw : r.pde w = m.pde w := h.kept _ hpw
  exact ⟨by rwa [hkv], by rwa [hkw], by rw [hkv, hkw, hT], hidx⟩

theorem walk_of_translate (h : r.translate w = m.translate w) : r.walk w = m.walk w := by
  unfold translate at h
  refine Option.map_injective (fun f f' hf => ?_) h
  omega

theorem Edited.walk_self (h : Edited m r v (mkEntry (f * 4096))) : r.walk v = some f :=
  walk_eq_some h.pde (by rw [h.pte, present_mkEntry]) (by rw [h.pte, entryFrame_mkEntry])

theorem Edited.walk_none (h : Edited m r v entry) (heven : present entry = false) :
    r.walk v = none := by
  rw [walk_eq, h.pte, heven]
  simp

theorem Edited.walk_other (h : Edited m r v entry) (hw : w < 0xffc00000)
    (hne : w / 4096 ≠ v / 4096) (ha : ¬m.Alias v w) : r.walk w = m.walk w :=
  walk_of_translate (h.others w hw hne ha)

theorem Unused.congr (h : m.Unused f) (hdir : ∀ d < 1024, r.phys r.cr3 d = m.phys m.cr3 d) :
    r.Unused f := by
  intro d hd hp
  rw [hdir d hd] at hp ⊢
  exact h d hd hp

theorem pde_fill (h : m.Recursive) (hf : m.Unused f) {i : ℕ} :
    (((m.enter v f).setFrame f fun _ => 0).setWord f i entry).pde v = mkEntry (f * 4096) := by
  have hne : f ≠ (m.enter v f).cr3 := h.unused_ne hf
  have hne' : f ≠ ((m.enter v f).setFrame f fun _ => 0).cr3 := hne
  rw [setWord, pde_setFrame hne', pde_setFrame hne, pde_enter_self]

end Entries

section Pools

/-- The pools are apart, and the directory maps itself and has the tables of the kernel. -/
structure Geo (m : Machine) (kf uf : ℕ) : Prop where
  pools : PoolGeo m kf uf
  recursive : m.Recursive
  tables : ∀ d, 768 ≤ d → d < 1023 → present (m.phys m.cr3 d) = true
  vstart : ∀ pf, (m.vap pf).startAddr = vbase pf * 4096
  uvEnd : 8 + (m.vap .user).bitMap.bits ≤ 0xc0000
  kvEnd : 0xc0100 + (m.vap .kernel).bitMap.bits ≤ 0xffc00

/-- Besides, no table lies in a frame whose bit is clear. -/
structure Paged (m : Machine) (kf uf : ℕ) : Prop extends Geo m kf uf where
  unused : ∀ n < m.kernelPap.bitMap.bits, m.kernelPap.bitMap.bit n = false → m.Unused (kf + n)

/-- The pages that a pool of virtual addresses is about. -/
def InArea (m : Machine) (pf : PoolFlag) (v : ℕ) : Prop :=
  vbase pf ≤ v ∧ v < vbase pf + (m.vap pf).bitMap.bits

theorem PoolGeo.start (h : PoolGeo m kf uf) :
    ∀ pf, (m.pap pf).startAddr = base kf uf pf * 4096
  | .user => h.ustart
  | .kernel => h.kstart

theorem PoolGeo.setPapBit (h : PoolGeo m kf uf) {i : ℕ} {x : Bool} :
    PoolGeo (m.setPapBit pf i x) kf uf := by
  cases pf <;> exact ⟨h.kstart, h.ustart, h.low, h.gap, h.high⟩

theorem PoolGeo.congr (h : PoolGeo m kf uf) (hpap : ∀ q, r.pap q = m.pap q) :
    PoolGeo r kf uf := by
  have hk : r.kernelPap = m.kernelPap := hpap .kernel
  have hu : r.userPap = m.userPap := hpap .user
  refine ⟨?_, ?_, h.low, ?_, ?_⟩
  · rw [hk]
    exact h.kstart
  · rw [hu]
    exact h.ustart
  · rw [hk]
    exact h.gap
  · rw [hu]
    exact h.high

theorem vap_setPapBit {i : ℕ} {x : Bool} : (m.setPapBit pf i x).vap q = m.vap q := by
  cases pf <;> cases q <;> rfl

theorem bits_setPapBit {i : ℕ} {x : Bool} :
    ((m.setPapBit pf i x).pap q).bitMap.bits = (m.pap q).bitMap.bits := by
  cases pf <;> cases q <;> rfl

theorem Paged.page_lt (h : Paged m kf uf) (hin : InArea m pf p) : p * 4096 < 0xffc00000 := by
  have hu := h.uvEnd
  have hk := h.kvEnd
  have hhi := hin.2
  cases pf with
  | user =>
    change p < 8 + (m.vap .user).bitMap.bits at hhi
    omega
  | kernel =>
    change p < 0xc0100 + (m.vap .kernel).bitMap.bits at hhi
    omega

/-- The kernel has all its tables. -/
theorem Paged.user_of_absent (h : Paged m kf uf) (hin : InArea m pf p)
    (habs : present (m.pde (p * 4096)) = false) : pf = .user := by
  cases pf with
  | user => rfl
  | kernel =>
    have hk := h.kvEnd
    have hlo : 0xc0100 ≤ p := hin.1
    have hhi : p < 0xc0100 + (m.vap .kernel).bitMap.bits := hin.2
    have hp := h.tables (p / 1024) (by omega) (by omega)
    unfold pde at habs
    rw [pdeIdx_page, hp] at habs
    exact absurd habs (by decide)

theorem Paged.frame_lt (h : Paged m kf uf) (hn : n < (m.pap pf).bitMap.bits) :
    base kf uf pf + n < 2 ^ 20 := by
  have hg := h.pools.gap
  have hh := h.pools.high
  cases pf with
  | user =>
    change n < m.userPap.bitMap.bits at hn
    change uf + n < 2 ^ 20
    omega
  | kernel =>
    change n < m.kernelPap.bitMap.bits at hn
    change kf + n < 2 ^ 20
    omega

theorem poolOf_frame (h : Paged m kf uf) (hn : n < (m.pap pf).bitMap.bits) :
    m.poolOf ((base kf uf pf + n) * 4096) = pf := by
  have hg := h.pools.gap
  unfold poolOf
  rw [h.pools.ustart]
  cases pf with
  | user => exact if_pos (Nat.mul_le_mul_right _ (Nat.le_add_right _ _))
  | kernel =>
    change n < m.kernelPap.bitMap.bits at hn
    refine if_neg ?_
    change ¬(kf + n) * 4096 ≥ uf * 4096
    omega

theorem wp_freePhyAddr (h : Paged m kf uf) (hn : n < (m.pap pf).bitMap.bits) :
    wp noStop e (freePhyAddr ((base kf uf pf + n) * 4096))
      (fun _ r => r = m.setPapBit pf n false) m := by
  unfold freePhyAddr
  rw [wp_get_bind, wp_modify, poolOf_frame h hn, h.pools.start,
    Mem.wordSub_pages (h.frame_lt hn)]

theorem wp_allocPhyAddr (h : Paged m kf uf) :
    wp noStop e (allocPhyAddr pf) (fun o r => (o = none ∧ r = m) ∨
      ∃ n < (m.pap pf).bitMap.bits, (m.pap pf).bitMap.bit n = false ∧
        o = some ((base kf uf pf + n) * 4096) ∧ r = m.setPapBit pf n true) m := by
  unfold allocPhyAddr
  rw [wp_get_bind]
  cases hscan : bitMapScan (m.pap pf).bitMap 1 with
  | none => exact wp_pure.mpr (.inl ⟨rfl, rfl⟩)
  | some n =>
    obtain ⟨hn, hfree, -⟩ := bitMapScan_one_eq_some hscan
    refine wp_modify_bind.mpr (wp_pure.mpr (.inr ⟨n, hn, hfree, ?_, rfl⟩))
    rw [h.pools.start, Nat.add_mul, Nat.add_comm]

end Pools

section Tables

/-- The kernel pool has a frame for every page table that mapping `left` pages from `v` on may
take, before the frames of the user pool run out. -/
def Reserve (m : Machine) (pf : PoolFlag) (v left : ℕ) : Prop :=
  pf = .user → (lacking (m.phys m.cr3) v (min left m.userPap.bitMap.clearBits)).card ≤
    m.kernelPap.bitMap.clearBits

/-- Page `p` was mapped to the frame of bit `n`, which was free. -/
structure Added (m : Machine) (kf uf : ℕ) (pf : PoolFlag) (p n : ℕ) (r : Machine) : Prop where
  unmapped : m.walk (p * 4096) = none
  paged : Paged r kf uf
  edited : Edited m r (p * 4096) (mkEntry ((base kf uf pf + n) * 4096))
  vap : ∀ q, r.vap q = m.vap q
  bits : ∀ q, (r.pap q).bitMap.bits = (m.pap q).bitMap.bits
  bit : ∀ k, (r.pap pf).bitMap.bit k = if k = n then true else (m.pap pf).bitMap.bit k

@[simp] theorem cr3_setPapBit {i : ℕ} {x : Bool} : (m.setPapBit pf i x).cr3 = m.cr3 := by
  cases pf <;> rfl

@[simp] theorem pde_setPapBit {i : ℕ} {x : Bool} : (m.setPapBit pf i x).pde v = m.pde v := by
  cases pf <;> rfl

@[simp] theorem pte_setPapBit {i : ℕ} {x : Bool} : (m.setPapBit pf i x).pte v = m.pte v := by
  cases pf <;> rfl

theorem Paged.edited (h : Paged m kf uf) (hed : Edited m r v entry) (hpools : PoolGeo r kf uf)
    (hvap : ∀ q, r.vap q = m.vap q)
    (hunused : ∀ n < r.kernelPap.bitMap.bits, r.kernelPap.bitMap.bit n = false →
      r.Unused (kf + n)) : Paged r kf uf where
  pools := hpools
  recursive := hed.recursive
  tables d hd hd' := by
    have hp := h.tables d hd hd'
    rwa [hed.entered.kept d hp]
  unused := hunused
  vstart q := by
    rw [hvap]
    exact h.vstart q
  uvEnd := by
    rw [hvap]
    exact h.uvEnd
  kvEnd := by
    rw [hvap]
    exact h.kvEnd

/-- The directory does not change when the table of the page is there. -/
theorem Edited.dir_eq (h : Edited m r v entry) (hp : present (m.pde v) = true) :
    ∀ d, r.phys r.cr3 d = m.phys m.cr3 d := by
  intro d
  by_cases hd : d = pdeIdx v
  · rw [hd]
    exact h.entered.kept _ hp
  · exact h.dir d hd

theorem clear_of_setPapBit {k : ℕ} (h : (m.setPapBit pf n true).kernelPap.bitMap.bit k = false) :
    m.kernelPap.bitMap.bit k = false := by
  cases pf with
  | user => exact h
  | kernel =>
    change (bitMapSet m.kernelPap.bitMap n true).bit k = false at h
    rw [bitMapSet_bit] at h
    split_ifs at h
    exact h

/-- The page's table is there. -/
theorem wp_mapPageTable_inTable {left : ℕ} (h : Paged m kf uf) (hv : p * 4096 < 0xffc00000)
    (hp : present (m.pde (p * 4096)) = true) (hn : n < (m.pap pf).bitMap.bits)
    (hclear : (m.pap pf).bitMap.bit n = false) (hres : Reserve m pf p (left + 1))
    (hnone : m.walk (p * 4096) = none ∨ ∀ s, stop s) :
    wp stop e (mapPageTable (p * 4096) ((base kf uf pf + n) * 4096))
      (fun _ r => Added m kf uf pf p n r ∧ Reserve r pf (p + 1) left) (m.setPapBit pf n true) := by
  set s := m.setPapBit pf n true with hs
  have hsp : present (s.pde (p * 4096)) = true := by rwa [hs, pde_setPapBit]
  have hrec : s.Recursive := h.recursive.of_setPapBit
  have hstop : present (s.pte (p * 4096)) = true → stop s := by
    intro hpte
    rcases hnone with hnone | hall
    · rw [hs, pte_setPapBit, present_pte_of_walk hp hnone] at hpte
      exact absurd hpte (by decide)
    · exact hall s
  apply wp_mono (wp_mapPageTable_present hrec.self hv hsp hstop)
  rintro _ r ⟨hpte, hr⟩
  have hed : Edited m r (p * 4096) (mkEntry ((base kf uf pf + n) * 4096)) := by
    rw [hr]
    exact (hrec.edit hv hsp _).of_setPapBit
  have hpap : ∀ q, r.pap q = s.pap q := fun q => by rw [hr]; cases q <;> rfl
  have hvap : ∀ q, r.vap q = m.vap q := fun q => by
    rw [hr]
    exact vap_setPapBit
  have hdir := hed.dir_eq hp
  have hkernel : r.kernelPap = s.kernelPap := hpap .kernel
  refine ⟨⟨?_, h.edited hed ?_ hvap ?_, hed, hvap, fun q => ?_, fun k => ?_⟩, ?_⟩
  · rw [hs, pte_setPapBit] at hpte
    rw [walk_eq, hpte]
    simp
  · exact h.pools.setPapBit.congr hpap
  · intro k hk hkclear
    rw [hkernel] at hk hkclear
    refine (h.unused k ?_ (clear_of_setPapBit hkclear)).congr fun d _ => hdir d
    rwa [show s.kernelPap.bitMap.bits = m.kernelPap.bitMap.bits from bits_setPapBit (q := .kernel)]
      at hk
  · rw [hpap, hs, bits_setPapBit]
  · rw [hpap, hs, pap_setPapBit_self, bitMapSet_bit]
  · rintro rfl
    have hle := hres rfl
    have huser : r.userPap = { m.userPap with bitMap := bitMapSet m.userPap.bitMap n true } :=
      hpap .user
    have hcount : (bitMapSet m.userPap.bitMap n true).clearBits + 1 = m.userPap.bitMap.clearBits :=
      clearBits_set hn hclear
    rw [← hcount, Nat.add_min_add_right] at hle
    rw [huser, hkernel]
    refine (Finset.card_le_card (Mem.lacking_succ fun d hd => ?_)).trans hle
    rwa [hdir]

/-- The page's table is missing and comes from the kernel pool. -/
theorem wp_mapPageTable_newTable {left : ℕ} (h : Paged m kf uf) (hv : p * 4096 < 0xffc00000)
    (hp : present (m.pde (p * 4096)) = false) (hn : n < m.userPap.bitMap.bits)
    (hclear : m.userPap.bitMap.bit n = false) (hres : Reserve m .user p (left + 1)) :
    wp noStop e (mapPageTable (p * 4096) ((uf + n) * 4096))
      (fun _ r => Added m kf uf .user p n r ∧ Reserve r .user (p + 1) left)
      (m.setPapBit .user n true) := by
  have hidx : pdeIdx (p * 4096) = p / 1024 := pdeIdx_page
  have habs : present (m.phys m.cr3 (p / 1024)) = false := by rwa [← hidx]
  have hle := hres rfl
  rw [← clearBits_set hn hclear, Nat.add_min_add_right] at hle
  have hpos : 0 < m.kernelPap.bitMap.clearBits :=
    (Finset.card_pos.mpr ⟨_, Mem.mem_lacking habs⟩).trans_le hle
  obtain ⟨k, hscan⟩ := exists_scan_of_clearBits _ hpos
  obtain ⟨hk, hkclear, -⟩ := bitMapScan_one_eq_some hscan
  have hun := h.unused k hk hkclear
  have hstart := h.pools.kstart
  have hrec : (m.setPapBit .user n true).Recursive := h.recursive.of_setPapBit
  have hf : kf + k = k + m.kernelPap.startAddr / 4096 := by
    rw [hstart, Nat.mul_div_cancel _ (by norm_num), Nat.add_comm]
  apply wp_mono (wp_mapPageTable_absent hrec hv hp (by rw [show
    (m.setPapBit .user n true).kernelPap = m.kernelPap from rfl, hstart, Nat.mul_mod_left])
    hscan hf hun)
  intro _ r hr
  have hset : ((m.setPapBit .user n true).setPapBit .kernel k true).Recursive := hrec.of_setPapBit
  have hed : Edited m r (p * 4096) (mkEntry ((uf + n) * 4096)) := by
    rw [hr]
    exact (hset.fill hv hp hun _).of_setPapBit.of_setPapBit
  have hpde : r.phys r.cr3 (p / 1024) = mkEntry ((kf + k) * 4096) := by
    rw [← hidx, hr]
    exact pde_fill hset hun
  have hkernel : r.kernelPap = { m.kernelPap with bitMap := bitMapSet m.kernelPap.bitMap k true } := by
    rw [hr]
    rfl
  have huser : r.userPap = { m.userPap with bitMap := bitMapSet m.userPap.bitMap n true } := by
    rw [hr]
    rfl
  have hvap : ∀ q, r.vap q = m.vap q := fun q => by
    rw [hr]
    cases q <;> rfl
  refine ⟨⟨?_, h.edited hed ?_ hvap ?_, hed, hvap, fun q => ?_, fun j => ?_⟩, ?_⟩
  · rw [walk_eq, hp]
    simp
  · have hset : PoolGeo ((m.setPapBit .user n true).setPapBit .kernel k true) kf uf :=
      h.pools.setPapBit.setPapBit
    exact hset.congr fun q => by rw [hr]; cases q <;> rfl
  · intro j hj hjclear
    rw [hkernel] at hj hjclear
    rw [bitMapSet_bit] at hjclear
    split_ifs at hjclear with hjk
    intro d hd hpd
    by_cases hdp : d = p / 1024
    · rw [hdp, hpde, entryFrame_mkEntry]
      omega
    · rw [hed.dir d (by rwa [hidx])] at hpd ⊢
      exact h.unused j hj hjclear d hd hpd
  · cases q with
    | user =>
      change r.userPap.bitMap.bits = m.userPap.bitMap.bits
      rw [huser, bitMapSet_bits]
    | kernel =>
      change r.kernelPap.bitMap.bits = m.kernelPap.bitMap.bits
      rw [hkernel, bitMapSet_bits]
  · change r.userPap.bitMap.bit j = _
    rw [huser, bitMapSet_bit]
    rfl
  · intro _
    rw [huser, hkernel]
    have hnew : present (r.phys r.cr3 (p / 1024)) = true := by rw [hpde, present_mkEntry]
    have hlt := Mem.lacking_table (n := min left (bitMapSet m.userPap.bitMap n true).clearBits) habs
      (fun d hd => by rwa [hed.entered.kept d hd]) hnew
    have hcount := clearBits_set hk hkclear
    have hcount' := clearBits_set hn hclear
    dsimp only
    omega

/-- One page of `allocPage`, whose frame was just taken. -/
theorem wp_mapPageTable_added {left : ℕ} (h : Paged m kf uf) (hin : InArea m pf p)
    (hn : n < (m.pap pf).bitMap.bits) (hclear : (m.pap pf).bitMap.bit n = false)
    (hres : Reserve m pf p (left + 1)) (hnone : m.walk (p * 4096) = none ∨ ∀ s, stop s) :
    wp stop e (mapPageTable (p * 4096) ((base kf uf pf + n) * 4096))
      (fun _ r => Added m kf uf pf p n r ∧ Reserve r pf (p + 1) left) (m.setPapBit pf n true) := by
  cases hp : present (m.pde (p * 4096)) with
  | true => exact wp_mapPageTable_inTable h (h.page_lt hin) hp hn hclear hres hnone
  | false =>
    obtain rfl := h.user_of_absent hin hp
    exact wp_of_noStop (wp_mapPageTable_newTable h (h.page_lt hin) hp hn hclear hres)

/-- Page `p` was taken out, and the frame of bit `n` given back. -/
structure Removed (m : Machine) (kf uf : ℕ) (pf : PoolFlag) (p n : ℕ) (r : Machine) : Prop where
  paged : Paged r kf uf
  edited : Edited m r (p * 4096) (m.pte (p * 4096) - m.pte (p * 4096) % 2)
  vap : ∀ q, r.vap q = m.vap q
  bits : ∀ q, (r.pap q).bitMap.bits = (m.pap q).bitMap.bits
  bit : ∀ k, (r.pap pf).bitMap.bit k = if k = n then false else (m.pap pf).bitMap.bit k

theorem even_entry : present (n - n % 2) = false := by
  unfold present
  rw [decide_eq_false_iff_not]
  omega

theorem Removed.walk_none (h : Removed m kf uf pf p n r) : r.walk (p * 4096) = none :=
  h.edited.walk_none even_entry

theorem wp_addrV2P_walk (h : m.SelfMapped) (hv : p * 4096 < 0xffc00000)
    (hw : m.walk (p * 4096) = some f) :
    wp noStop e (addrV2P (p * 4096)) (fun a r => a = f * 4096 ∧ r = m) m := by
  rw [walk_eq] at hw
  split_ifs at hw with hp
  obtain rfl := Option.some.inj hw
  have haddr : wp noStop e (addrV2P (p * 4096 + 0)) (fun a r =>
      a = entryFrame (m.pte (p * 4096)) * 4096 + 0 ∧ r = m) m :=
    wp_addrV2P_of_entry h hv (Nat.mul_mod_left _ _) (by norm_num) hp.1
  simpa using haddr

theorem Paged.setPapBit (h : Paged m kf uf) {i : ℕ} {x : Bool}
    (hun : ∀ k < m.kernelPap.bitMap.bits, (m.setPapBit pf i x).kernelPap.bitMap.bit k = false →
      m.Unused (kf + k)) : Paged (m.setPapBit pf i x) kf uf := by
  have hdir : (m.setPapBit pf i x).phys (m.setPapBit pf i x).cr3 = m.phys m.cr3 := by
    rw [phys_setPapBit, cr3_setPapBit]
  refine ⟨⟨h.pools.setPapBit, h.recursive.of_setPapBit, ?_, fun q => ?_, ?_, ?_⟩,
    fun k hk hclear => ?_⟩
  · rw [hdir]
    exact h.tables
  · rw [vap_setPapBit]
    exact h.vstart q
  · rw [vap_setPapBit]
    exact h.uvEnd
  · rw [vap_setPapBit]
    exact h.kvEnd
  · rw [show (m.setPapBit pf i x).kernelPap.bitMap.bits = m.kernelPap.bitMap.bits from
      bits_setPapBit (q := .kernel)] at hk
    exact (hun k hk hclear).congr fun d _ => by rw [hdir]

theorem wp_unmapPageTable_paged (h : Paged m kf uf) (hv : p * 4096 < 0xffc00000)
    (hp : present (m.pde (p * 4096)) = true) :
    wp noStop e (unmapPageTable (p * 4096)) (fun _ r => Paged r kf uf ∧
      r = m.setWord (entryFrame (m.pde (p * 4096))) (pteIdx (p * 4096))
        (m.pte (p * 4096) - m.pte (p * 4096) % 2) ∧
      Edited m r (p * 4096) (m.pte (p * 4096) - m.pte (p * 4096) % 2)) m := by
  apply wp_mono (wp_unmapPageTable_eq h.recursive.self hv hp)
  rintro _ r hr
  have hed : Edited m r (p * 4096) (m.pte (p * 4096) - m.pte (p * 4096) % 2) := by
    rw [hr]
    exact h.recursive.edit hv hp _
  have hdir := hed.dir_eq hp
  have hpap : ∀ q, r.pap q = m.pap q := fun q => by rw [hr]; cases q <;> rfl
  have hvap : ∀ q, r.vap q = m.vap q := fun q => by rw [hr]; cases q <;> rfl
  refine ⟨h.edited hed (h.pools.congr hpap) hvap fun i hi hclear => ?_, hr, hed⟩
  rw [show r.kernelPap = m.kernelPap from hpap .kernel] at hi hclear
  exact (h.unused i hi hclear).congr fun d _ => hdir d

/-- Giving a page back, in the order of the code. No table lies in its frame. -/
theorem wp_unmap {α : Type} {k : KernelM α} {Q : α → Machine → Prop} (h : Paged m kf uf)
    (hv : p * 4096 < 0xffc00000) (hp : present (m.pde (p * 4096)) = true)
    (hn : n < (m.pap pf).bitMap.bits) (hun : pf = .kernel → m.Unused (kf + n))
    (hk : ∀ r, Removed m kf uf pf p n r → wp stop e k Q r) :
    wp stop e (do freePhyAddr ((base kf uf pf + n) * 4096); unmapPageTable (p * 4096); k) Q m := by
  apply wp_call (wp_of_noStop (wp_freePhyAddr h hn))
  rintro ⟨⟩ s hs
  have hpaged : Paged s kf uf := by
    rw [hs]
    refine h.setPapBit fun i hi hclear => ?_
    cases pf with
    | user => exact h.unused i hi hclear
    | kernel =>
      change (bitMapSet m.kernelPap.bitMap n false).bit i = false at hclear
      rw [bitMapSet_bit] at hclear
      split_ifs at hclear with hin
      · rw [hin]
        exact hun rfl
      · exact h.unused i hi hclear
  have hsp : present (s.pde (p * 4096)) = true := by rwa [hs, pde_setPapBit]
  apply wp_call (wp_of_noStop (wp_unmapPageTable_paged hpaged hv hsp))
  rintro ⟨⟩ r ⟨hr, hword, hed⟩
  have hpap : ∀ q, r.pap q = s.pap q := fun q => by rw [hword]; cases q <;> rfl
  refine hk r ⟨hr, ?_, fun q => ?_, fun q => ?_, fun i => ?_⟩
  · rw [hs] at hed
    rw [pte_setPapBit] at hed
    exact hed.of_setPapBit
  · rw [hword, hs]
    exact vap_setPapBit
  · rw [hpap, hs, bits_setPapBit]
  · rw [hpap, hs, pap_setPapBit_self, bitMapSet_bit]

end Tables

section Taken

theorem page_lt_of_le {j bound : ℕ} (hj : j ≤ done) (hv : (b + done) * 4096 < bound) :
    (b + j) * 4096 < bound :=
  (Nat.mul_le_mul_right _ (Nat.add_le_add_left hj _)).trans_lt hv

/-- `done` of the `cnt` pages from `b` on were mapped, page `b + j` to the frame of bit `g j`. -/
structure Taken (m : Machine) (kf uf : ℕ) (pf : PoolFlag) (b cnt done : ℕ) (g : ℕ → ℕ)
    (r : Machine) : Prop where
  paged : Paged r kf uf
  entered : Entered m r
  dir : ∀ d, (∀ j < cnt, d ≠ (b + j) / 1024) → r.phys r.cr3 d = m.phys m.cr3 d
  vap : ∀ q, r.vap q = m.vap q
  bits : ∀ q, (r.pap q).bitMap.bits = (m.pap q).bitMap.bits
  unmapped : ∀ j < done, m.walk ((b + j) * 4096) = none
  walk : ∀ j < done, r.walk ((b + j) * 4096) = some (base kf uf pf + g j)
  others : ∀ v < 0xffc00000, (∀ j < done, v / 4096 ≠ b + j ∧ ¬m.Alias ((b + j) * 4096) v) →
    r.walk v = m.walk v
  picked : Picked (m.pap pf).bitMap.bits (m.pap pf).bitMap.bit (r.pap pf).bitMap.bit g done

theorem Taken.start (h : Paged m kf uf) : Taken m kf uf pf b cnt 0 g m where
  paged := h
  entered := .of_dir rfl rfl
  dir _ _ := rfl
  vap _ := rfl
  bits _ := rfl
  unmapped j hj := absurd hj (Nat.not_lt_zero j)
  walk j hj := absurd hj (Nat.not_lt_zero j)
  others _ _ _ := rfl
  picked := .start

/-- A page that is not mapped now was not mapped before. -/
theorem Taken.none_before (h : Taken m kf uf pf b cnt done g r)
    (hv : (b + done) * 4096 < 0xffc00000) (hnone : r.walk ((b + done) * 4096) = none) :
    m.walk ((b + done) * 4096) = none := by
  by_cases hall : ∀ j < done, ¬m.Alias ((b + j) * 4096) ((b + done) * 4096)
  · rw [← h.others _ hv fun j hj => ⟨by omega, hall j hj⟩, hnone]
  · push Not at hall
    obtain ⟨j, hj, ha⟩ := hall
    rw [ha.walk, h.unmapped j hj]

theorem Taken.push (h : Taken m kf uf pf b cnt done g r) (hdone : done < cnt)
    (hv : (b + done) * 4096 < 0xffc00000) (hn : n < (r.pap pf).bitMap.bits)
    (hclear : (r.pap pf).bitMap.bit n = false) (ha : Added r kf uf pf (b + done) n r') :
    Taken m kf uf pf b cnt (done + 1) (Function.update g done n) r' := by
  have hgd : ∀ j, j < done → Function.update g done n j = g j := fun j hj =>
    Function.update_of_ne (by omega) _ _
  have hpage : (b + done) * 4096 / 4096 = b + done := Nat.mul_div_cancel _ (by norm_num)
  constructor
  · exact ha.paged
  · exact h.entered.trans ha.edited.entered
  · intro d hd
    rw [ha.edited.dir d (by rw [pdeIdx_page]; exact hd done hdone), h.dir d hd]
  · exact fun q => (ha.vap q).trans (h.vap q)
  · exact fun q => (ha.bits q).trans (h.bits q)
  · intro j hj
    by_cases hjd : j = done
    · rw [hjd]
      exact h.none_before hv ha.unmapped
    · exact h.unmapped j (by omega)
  · intro j hj
    by_cases hjd : j = done
    · rw [hjd, Function.update_self]
      exact ha.edited.walk_self
    · rw [hgd j (by omega), ← h.walk j (by omega)]
      have hlt : (b + j) * 4096 < 0xffc00000 := page_lt_of_le (by omega) hv
      refine ha.edited.walk_other hlt (by omega) fun halias => ?_
      have hw := h.walk j (by omega)
      rw [halias.walk, ha.unmapped] at hw
      cases hw
  · intro v hvlt hout
    have hlast := hout done (by omega)
    rw [ha.edited.walk_other hvlt (by rw [hpage]; exact hlast.1) fun halias => hlast.2
      (h.entered.alias (by omega) (by omega) (by rw [hpage]; exact hlast.1) halias)]
    exact h.others v hvlt fun j hj => hout j (by omega)
  · exact h.picked.push (by rwa [h.bits] at hn) hclear ha.bit

/-- The last of the pages is given back. -/
theorem Taken.pop (h : Taken m kf uf pf b cnt (done + 1) g r)
    (hv : (b + done) * 4096 < 0xffc00000) (hr : Removed r kf uf pf (b + done) (g done) r') :
    Taken m kf uf pf b cnt done g r' := by
  have hpage : (b + done) * 4096 / 4096 = b + done := Nat.mul_div_cancel _ (by norm_num)
  have hmnone := h.unmapped done (by omega)
  have hpresent : present (r.pde ((b + done) * 4096)) = true := by
    have hw := h.walk done (by omega)
    rw [walk_eq] at hw
    split_ifs at hw with hp
    exact hp.1
  have hdir := hr.edited.dir_eq hpresent
  constructor
  · exact hr.paged
  · exact h.entered.trans hr.edited.entered
  · intro d hd
    rw [hdir, h.dir d hd]
  · exact fun q => (hr.vap q).trans (h.vap q)
  · exact fun q => (hr.bits q).trans (h.bits q)
  · exact fun j hj => h.unmapped j (by omega)
  · intro j hj
    rw [← h.walk j (by omega)]
    have hlt : (b + j) * 4096 < 0xffc00000 := page_lt_of_le (by omega) hv
    refine hr.edited.walk_other hlt (by omega) fun halias => ?_
    have hsame := halias.walk
    rw [h.walk j (by omega), h.walk done (by omega)] at hsame
    have hg : g j = g done := by
      have := Option.some.inj hsame
      omega
    have := h.picked.inj j (by omega) done (by omega) hg
    omega
  · intro v hvlt hout
    by_cases hself : v / 4096 = b + done
    · have hmw : m.walk v = m.walk ((b + done) * 4096) := walk_page (by omega)
      have hrw : r'.walk v = r'.walk ((b + done) * 4096) := walk_page (by omega)
      rw [hmw, hrw, hr.walk_none, hmnone]
    by_cases halias : m.Alias ((b + done) * 4096) v
    · rw [halias.walk, hmnone,
        ((h.entered.trans hr.edited.entered).alias_of halias).walk, hr.walk_none]
    · rw [hr.edited.walk_other hvlt (by rwa [hpage]) fun ha => halias
        (h.entered.alias (by omega) (by omega) (by rwa [hpage]) ha)]
      refine h.others v hvlt fun j hj => ?_
      by_cases hjd : j = done
      · rw [hjd]
        exact ⟨hself, halias⟩
      · exact hout j (by omega)
  · exact h.picked.pop hr.bit

theorem Geo.table_of_kernel (h : Geo m kf uf) (hin : InArea m .kernel p) :
    present (m.phys m.cr3 (p / 1024)) = true := by
  have hk := h.kvEnd
  have hlo : 0xc0100 ≤ p := hin.1
  have hhi : p < 0xc0100 + (m.vap .kernel).bitMap.bits := hin.2
  exact h.tables (p / 1024) (by omega) (by omega)

/-- The frame of a page that is given back holds no table. -/
theorem Taken.unused (h : Paged m kf uf) (ht : Taken m kf uf .kernel b cnt (done + 1) g r)
    (hin : ∀ j < cnt, InArea m .kernel (b + j)) : r.Unused (kf + g done) := by
  obtain ⟨hlt, hclear⟩ := ht.picked.frame done (by omega)
  refine (h.unused (g done) hlt hclear).congr fun d _ => ?_
  by_cases hd : ∀ j < cnt, d ≠ (b + j) / 1024
  · exact ht.dir d hd
  · push Not at hd
    obtain ⟨j, hj, rfl⟩ := hd
    exact ht.entered.kept _ (h.table_of_kernel (hin j hj))

end Taken

section Loops

/-- The rollback, by induction on the number of pages that are mapped. -/
theorem wp_unmapBack_taken (h : Paged m kf uf) (hin : ∀ j < cnt, InArea m pf (b + j)) :
    ∀ done r, done ≤ cnt → Taken m kf uf pf b cnt done g r →
    wp noStop e (unmapBack done ((b + done) * 4096 - 4096))
      (fun _ r' => Taken m kf uf pf b cnt 0 g r') r := by
  intro done
  induction done with
  | zero => exact fun r _ ht => wp_pure.mpr ht
  | succ done ih =>
    intro r hle ht
    have hlt : (b + done) * 4096 < 0xffc00000 := h.page_lt (hin done (by omega))
    have hw := ht.walk done (by omega)
    have hn : g done < (r.pap pf).bitMap.bits := by
      rw [ht.bits]
      exact (ht.picked.frame done (by omega)).1
    have hp : present (r.pde ((b + done) * 4096)) = true := by
      rw [walk_eq] at hw
      split_ifs at hw with hp
      exact hp.1
    have hlast : (b + (done + 1)) * 4096 - 4096 = (b + done) * 4096 := by omega
    unfold unmapBack
    rw [hlast]
    apply wp_call (wp_addrV2P_walk ht.paged.recursive.self hlt hw)
    rintro paddr r' ⟨rfl, hr'⟩
    rw [hr']
    refine wp_unmap ht.paged hlt hp hn ?_ fun r'' hr'' => ih r'' (by omega) (ht.pop hlt hr'')
    rintro rfl
    exact ht.unused h hin

/-- The pages of the range are not mapped, and no two of them share an entry. -/
def Vacant (m : Machine) (b cnt : ℕ) : Prop :=
  ∀ j < cnt, m.walk ((b + j) * 4096) = none ∧ ∀ i < j, ¬m.Alias ((b + i) * 4096) ((b + j) * 4096)

/-- The loop of `allocPage`. When a frame is missing, the pages are as they were. -/
theorem wp_mapPages_taken (h : Paged m kf uf) (hin : ∀ j < cnt, InArea m pf (b + j))
    (hvacant : Vacant m b cnt ∨ ∀ s, stop s) : ∀ left done g r, done + left = cnt →
    Taken m kf uf pf b cnt done g r → Reserve r pf (b + done) left →
    wp stop e (mapPages pf left done ((b + done) * 4096)) (fun ok r' =>
      ∃ g, Taken m kf uf pf b cnt (if ok then cnt else 0) g r') r := by
  intro left
  induction left with
  | zero =>
    intro done g r hcnt ht _
    rw [Nat.add_zero] at hcnt
    subst hcnt
    exact wp_pure.mpr ⟨g, ht⟩
  | succ left ih =>
    intro done g r hcnt ht hres
    have hlt := h.page_lt (hin done (by omega))
    unfold mapPages
    apply wp_call (wp_of_noStop (wp_allocPhyAddr ht.paged))
    rintro o r' (⟨rfl, hr'⟩ | ⟨n, hn, hclear, rfl, hr'⟩)
    · rw [hr']
      apply wp_call (wp_of_noStop (wp_unmapBack_taken h hin done r (by omega) ht))
      rintro ⟨⟩ r'' hback
      exact wp_pure.mpr ⟨g, hback⟩
    · rw [hr']
      have harea : InArea r pf (b + done) := by
        unfold InArea
        rw [ht.vap]
        exact hin done (by omega)
      have hnone : r.walk ((b + done) * 4096) = none ∨ ∀ s, stop s := by
        refine hvacant.imp_left fun hv => ?_
        obtain ⟨hfree, hapart⟩ := hv done (by omega)
        rw [ht.others _ hlt fun j hj => ⟨by omega, hapart j hj⟩, hfree]
      apply wp_call (wp_mapPageTable_added ht.paged harea hn hclear hres hnone)
      rintro ⟨⟩ r'' ⟨hadded, hres'⟩
      have hnext : (b + done) * 4096 + 4096 = (b + (done + 1)) * 4096 := by omega
      rw [hnext]
      exact ih (done + 1) _ r'' (by omega) (ht.push (by omega) hlt hn hclear hadded) hres'

end Loops

end Gogoos.Machine
