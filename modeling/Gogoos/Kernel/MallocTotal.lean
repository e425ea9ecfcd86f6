import Gogoos.Kernel.Exhausted
import Gogoos.Kernel.MallocRun

/-!
# Every size

`sysMalloc` over the memory: the heap of the current thread beside the pools, the page tables and
the locks. The number of pages is computed in 32 bits.
-/

namespace Gogoos

open Program

structure HeapSys where
  sys : PoolSys
  /-- The descriptors of the current thread, and `size` of its pool. -/
  heap : Malloc

abbrev HeapM (α : Type) : Type := Program Unit HeapSys α

namespace HeapSys

variable {s s' : HeapSys} {e : Unit} {live : ℕ → Option ℕ} {kf uf size cnt : ℕ}

section Programs

/-- `PF_KERNEL` for a thread without a directory of its own. -/
def flag (s : HeapSys) : PoolFlag :=
  if (s.sys.threads.tasks s.sys.threads.current).pageDir = 0 then .kernel else .user

def onSys {α : Type} (p : PoolM α) : HeapM α := zoom HeapSys.sys (fun x s => { s with sys := x }) p

def onHeap {α : Type} (p : MallocM α) : HeapM α :=
  zoom HeapSys.heap (fun x s => { s with heap := x }) p

/-- `DIV_ROUND_UP(size + sizeof(Arena), PG_SIZE)` of 32-bit values. -/
def pgCnt (size : ℕ) : ℕ := (size + arenaSize + 4095) % 2 ^ 32 / 4096

/-- The header of a large block in its pages, which begin at `arena`. -/
def largeArena (arena pgCnt : ℕ) : MallocM ℕ := do
  let got ← Malloc.allocPage arena pgCnt
  if got then
    modify fun s => s.clear arena (pgCnt * 4096)
    modify fun s => s.setArena arena ⟨none, pgCnt, true⟩
    return arena + arenaSize
  else return 0

def largeBlock (pf : PoolFlag) (size : ℕ) : HeapM ℕ := do
  let arena ← onSys (PoolSys.onMem (Mem.allocPage pf (pgCnt size)))
  onHeap (largeArena (arena.getD 0) (pgCnt size))

/-- A page is asked for when the free list is empty. -/
def smallBlock (pf : PoolFlag) (size : ℕ) : HeapM ℕ := do
  let s ← get
  if s.heap.freeList (Malloc.findDesc size memBlockDescCnt 0) = [] then
    let arena ← onSys (PoolSys.onMem (Mem.allocPage pf 1))
    onHeap (Malloc.smallBlock (arena.getD 0) size)
  else onHeap (Malloc.smallBlock 0 size)

def anyBlock (pf : PoolFlag) (size : ℕ) : HeapM ℕ :=
  if 1024 < size then largeBlock pf size else smallBlock pf size

def sysMalloc (size : ℕ) : HeapM ℕ := do
  let s ← get
  if ¬(0 < size ∧ size < s.heap.poolSize) then return 0
  else
    onSys (PoolSys.lockLock s.flag)
    let block ← anyBlock s.flag size
    onSys (PoolSys.lockUnlock s.flag)
    return block

end Programs

section Property

/-- The running thread can get the lock, the bitmaps and the page tables agree, and the pages that
the heap holds are mapped. The pool is a number of pages. -/
structure Ready (s : HeapSys) (live : ℕ → Option ℕ) (kf uf : ℕ) : Prop where
  lock : PoolSys.Usable s.sys.threads (s.sys.lock s.flag)
  mem : Mem.Consistent s.sys.mem kf uf
  heap : Malloc.Inv s.heap live none
  mapped : ∀ x ∈ s.heap.held, ∀ j < x.2, s.sys.mem.walk (x.1 / 4096 + j) ≠ none
  pool : s.heap.poolSize % 4096 = 0 ∧ s.heap.poolSize < 2 ^ 32

/-- The number of pages that a request asks for. -/
def asked (size : ℕ) : ℕ := if 1024 < size then pgCnt size else 1

/-- The kernel's pool has a frame for every page table that the pages may take. -/
def TablesFree (s : HeapSys) (cnt : ℕ) : Prop :=
  ∀ i, bitMapScan (s.sys.mem.vpool s.flag).bitMap cnt = some i →
    Mem.Reserve s.sys.mem s.flag (Mem.vbase s.flag + i) cnt

/-- The bitmaps of the pool and the mappings are as before. -/
structure Untouched (pf : PoolFlag) (m r : Mem) : Prop where
  pap : (r.pap pf).bitMap = (m.pap pf).bitMap
  vap : (r.vpool pf).bitMap = (m.vpool pf).bitMap
  walk : ∀ v, r.walk v = m.walk v

/-- `NULL` with nothing changed, or a new block of `size` bytes that are all mapped. -/
def Served (s : HeapSys) (live : ℕ → Option ℕ) (size p : ℕ) (s' : HeapSys) : Prop :=
  (p = 0 ∧ Untouched s.flag s.sys.mem s'.sys.mem) ∨
    (p ≠ 0 ∧ live p = none ∧
      Malloc.Inv s'.heap (fun q => if q = p then some size else live q) none ∧
      ∀ a, p ≤ a → a < p + size → s'.sys.mem.walk (a / 4096) ≠ none)

/-- The request is answered, and no assertion fails. -/
def Total (s : HeapSys) (live : ℕ → Option ℕ) (size : ℕ) : Prop :=
  wp noStop () (sysMalloc size) (fun p s' => Served s live size p s') s

end Property

section Pages

open Mem

/-- What `allocPage` returned: `NULL` with nothing changed, or pages that the heap did not hold. -/
structure Given (s : HeapSys) (cnt : ℕ) (o : Option ℕ) (r : Mem) : Prop where
  offered : Malloc.Offered s.heap (o.getD 0) cnt
  null : o.getD 0 = 0 → Untouched s.flag s.sys.mem r
  mapped : ∀ x, x ∈ s.heap.held ∨ x = (o.getD 0, cnt) ∧ o.getD 0 ≠ 0 →
    ∀ j < x.2, r.walk (x.1 / 4096 + j) ≠ none

theorem Ready.given (h : Ready s live kf uf) (hcnt : 0 < cnt) (hlt : cnt < 3840)
    (hres : TablesFree s cnt) :
    wp noStop e (Mem.allocPage s.flag cnt) (fun o r => Given s cnt o r) s.sys.mem := by
  apply wp_mono (Mem.wp_allocPage_rolledBack h.mem hcnt hlt hres)
  rintro (_ | page) r hr
  · refine ⟨.inl rfl, fun _ => ⟨hr.pap, hr.vap, hr.walk⟩, ?_⟩
    rintro x (hx | ⟨-, hx⟩) j hj
    · rw [hr.walk]
      exact h.mapped x hx j hj
    · exact absurd rfl hx
  · obtain ⟨i, g, rfl, hg⟩ := hr
    have hbase : ∀ pf, 0 < vbase pf := by
      intro pf
      cases pf <;> decide
    have hpos : 0 < (vbase s.flag + i) * 4096 :=
      Nat.mul_pos (Nat.add_pos_left (hbase _) i) (by decide)
    have hdiv : (vbase s.flag + i) * 4096 / 4096 = vbase s.flag + i :=
      Nat.mul_div_cancel _ (by omega)
    have hapart : ∀ x ∈ s.heap.held, ∀ j < x.2, ∀ k < cnt,
        x.1 / 4096 + j ≠ vbase s.flag + i + k := by
      intro x hx j hj k hk heq
      have hmapped := h.mapped x hx j hj
      rw [heq] at hmapped
      exact hmapped (hg.free.2 k hk).2
    refine ⟨.inr ⟨Nat.mul_mod_left _ _, hpos, hcnt, fun x hx => ?_⟩, fun h0 => ?_, ?_⟩
    · obtain ⟨haligned, -, hxpos⟩ := h.heap.aligned x hx
      unfold Malloc.Away
      dsimp only [Option.getD_some]
      by_contra hc
      -- the later of the two first pages is in both ranges
      rcases le_total (x.1 / 4096) (vbase s.flag + i) with hle | hle
      · exact hapart x hx (vbase s.flag + i - x.1 / 4096) (by omega) 0 hcnt (by omega)
      · exact hapart x hx 0 hxpos (x.1 / 4096 - (vbase s.flag + i)) (by omega) (by omega)
    · exact absurd h0 hpos.ne'
    · rintro x (hx | ⟨rfl, -⟩) j hj
      · rw [hg.others]
        · exact h.mapped x hx j hj
        · rintro ⟨hlo, hhi⟩
          exact hapart x hx j hj (x.1 / 4096 + j - (vbase s.flag + i)) (by omega) (by omega)
      · change r.walk ((vbase s.flag + i) * 4096 / 4096 + j) ≠ none
        rw [hdiv, hg.mapped j hj]
        exact Option.some_ne_none _

/-- The bytes of a block lie in pages that the heap holds. -/
theorem mapped_of_backed {heap : Malloc} {m : Mem} {p n a : ℕ} {l : ℕ → Option ℕ}
    (h : Malloc.Inv heap l none) (hm : ∀ x ∈ heap.held, ∀ j < x.2, m.walk (x.1 / 4096 + j) ≠ none)
    (hb : Malloc.Backed heap p n) (ha : p ≤ a) (ha' : a < p + n) : m.walk (a / 4096) ≠ none := by
  rcases hb with ⟨b, c, hl, rfl, hfit⟩ | ⟨b, d, k, hs, hk, rfl, hn, -⟩
  · have haligned := (h.aligned _ hl.held).1
    dsimp only at haligned
    unfold arenaSize at *
    have hin := hm _ hl.held (a / 4096 - b / 4096) (by dsimp only; omega)
    rwa [show b / 4096 + (a / 4096 - b / 4096) = a / 4096 by omega] at hin
  · have haligned := (h.aligned _ hs.held).1
    dsimp only at haligned
    obtain ⟨hlo, hhi⟩ := block_bounds (b := b) hk
    have hin := hm _ hs.held 0 Nat.one_pos
    rwa [show b / 4096 + 0 = a / 4096 by omega] at hin

end Pages

section Answers

variable {o : Option ℕ} {r : Mem} {p : ℕ} {heap : Malloc}

theorem Ready.unasked (h : Ready s live kf uf) (cnt : ℕ) : Given s cnt none s.sys.mem := by
  refine ⟨.inl rfl, fun _ => ⟨rfl, rfl, fun _ => rfl⟩, ?_⟩
  rintro x (hx | ⟨-, hx⟩)
  · exact h.mapped x hx
  · exact absurd rfl hx

/-- What the heap made of the pages. -/
theorem Given.served (hg : Given s cnt o r) (hm : Malloc.Malloced live size p heap)
    (hnull : p = 0 → o.getD 0 = 0) (hnew : Malloc.HoldsNew s.heap (o.getD 0) cnt heap)
    (hmem : s'.sys.mem = r) (hheap : s'.heap = heap) : Served s live size p s' := by
  rcases hm with ⟨h0, -⟩ | ⟨hp, hfree, hinv, -⟩
  · left
    rw [hmem]
    exact ⟨h0, hg.null (hnull h0)⟩
  · right
    rw [hmem, hheap]
    refine ⟨hp, hfree, hinv, fun a ha ha' => ?_⟩
    have hmapped : ∀ x ∈ heap.held, ∀ j < x.2, r.walk (x.1 / 4096 + j) ≠ none :=
      fun x hx => hg.mapped x (hnew x hx)
    have hb := (hinv.sound p size (if_pos rfl)).2
    exact mapped_of_backed hinv hmapped hb ha ha'

theorem Locked.setMem {pf : PoolFlag} {t t' : PoolSys} (h : PoolSys.Locked pf t t') (m : Mem) :
    PoolSys.Locked pf { t with mem := m } { t' with mem := m } := by
  obtain ⟨h1, -, h3, h4, h5, h6⟩ := h
  cases pf <;> exact ⟨h1, rfl, h3, h4, h5, h6⟩

/-- The lock is held, one level deeper, and the request was answered. -/
def Answered (s : HeapSys) (live : ℕ → Option ℕ) (size p : ℕ) (t : HeapSys) : Prop :=
  PoolSys.Locked s.flag { s.sys with mem := t.sys.mem } t.sys ∧ Served s live size p t

theorem wp_pages {f : Option ℕ → HeapM ℕ} {Q : ℕ → HeapSys → Prop} {t : HeapSys}
    (h : Ready s live kf uf) (hcnt : 0 < cnt) (hlt : cnt < 3840) (hres : TablesFree s cnt)
    (hl : PoolSys.Locked s.flag s.sys t.sys)
    (hf : ∀ o r, Given s cnt o r →
      wp noStop e (f o) Q { t with sys := { t.sys with mem := r } }) :
    wp noStop e (onSys (PoolSys.onMem (Mem.allocPage s.flag cnt)) >>= f) Q t := by
  apply wp_bind
  apply wp_zoom
  apply PoolSys.wp_onMem
  rw [hl.mem]
  exact wp_mono (h.given hcnt hlt hres) hf

theorem largeArena_eq (page : ℕ) (h : pgCnt size = Malloc.pageCount size) :
    largeArena page (pgCnt size) = Malloc.largeBlock page size := by
  rw [h]
  rfl

theorem wp_largeBlock {t : HeapSys} (h : Ready s live kf uf) (hsize : 0 < size)
    (hcnt : 0 < pgCnt size) (hlt : pgCnt size < 3840) (hres : TablesFree s (pgCnt size))
    (hwrap : pgCnt size = Malloc.pageCount size) (hl : PoolSys.Locked s.flag s.sys t.sys)
    (hheap : t.heap = s.heap) :
    wp noStop e (largeBlock s.flag size) (fun p r => Answered s live size p r) t := by
  unfold largeBlock
  apply wp_pages h hcnt hlt hres hl
  intro o r hg
  apply wp_zoom
  rw [largeArena_eq _ hwrap]
  have hoff := hg.offered
  rw [hwrap] at hoff hlt
  change wp noStop e _ _ t.heap
  rw [hheap]
  apply wp_mono (Malloc.wp_largeBlock h.heap hsize hlt hoff)
  rintro p heap ⟨hm, hnull, hnew⟩
  rw [← hwrap] at hnew
  exact ⟨Locked.setMem hl r, hg.served hm hnull hnew rfl rfl⟩

theorem wp_smallBlock {t : HeapSys} (h : Ready s live kf uf) (hsize : 0 < size)
    (hsmall : size ≤ 1024) (hres : TablesFree s 1) (hl : PoolSys.Locked s.flag s.sys t.sys)
    (hheap : t.heap = s.heap) :
    wp noStop e (smallBlock s.flag size) (fun p r => Answered s live size p r) t := by
  unfold smallBlock
  rw [wp_get_bind]
  apply wp_ite
  · intro _
    apply wp_pages h (by decide) (by decide) hres hl
    intro o r hg
    apply wp_zoom
    change wp noStop e _ _ t.heap
    rw [hheap]
    apply wp_mono (Malloc.wp_smallBlock h.heap hsize hsmall hg.offered)
    rintro p heap ⟨hm, hnull, hnew⟩
    exact ⟨Locked.setMem hl r, hg.served hm hnull hnew rfl rfl⟩
  · intro _
    have hg := h.unasked 1
    apply wp_zoom
    rw [hheap]
    apply wp_mono (Malloc.wp_smallBlock h.heap hsize hsmall hg.offered)
    rintro p heap ⟨hm, hnull, hnew⟩
    refine ⟨?_, hg.served hm hnull hnew hl.mem rfl⟩
    have hsame := Locked.setMem hl s.sys.mem
    have hmem : ({ t.sys with mem := s.sys.mem } : PoolSys) = t.sys := by
      rw [← hl.mem]
    rw [hmem] at hsame
    change PoolSys.Locked s.flag { s.sys with mem := t.sys.mem } t.sys
    rw [hl.mem]
    exact hsame

end Answers

section Law

theorem Served.congr {p : ℕ} {t : HeapSys} (h : Served s live size p t)
    (hmem : s'.sys.mem = t.sys.mem) (hheap : s'.heap = t.heap) : Served s live size p s' := by
  unfold Served
  rw [hmem, hheap]
  exact h

theorem usable_setMem {pf : PoolFlag} {t : PoolSys} (h : PoolSys.Usable t.threads (t.lock pf))
    (m : Mem) : PoolSys.Usable ({ t with mem := m } : PoolSys).threads
      (({ t with mem := m } : PoolSys).lock pf) := by
  cases pf <;> exact h

/-- A request for more than a page and less than the pool has a count that `allocPage` accepts when
it is below 3840 pages with the header. -/
theorem pgCnt_ok (hpool : s.heap.poolSize % 4096 = 0 ∧ s.heap.poolSize < 2 ^ 32)
    (hlarge : 1024 < size) (hlt : size < s.heap.poolSize) :
    (0 < pgCnt size ∧ pgCnt size < 3840 ↔ size ≤ 15724532) ∧
      (size ≤ 15724532 → pgCnt size = Malloc.pageCount size) := by
  unfold pgCnt Malloc.pageCount arenaSize
  omega

/-- The assertion of `allocPage` fails, with the lock held. -/
theorem sysMalloc_stops (hlarge : 1024 < size) (hlt : size < s.heap.poolSize)
    (hbad : ¬ (0 < pgCnt size ∧ pgCnt size < 3840)) :
    wp anyStop () (sysMalloc size) (fun _ _ => False) s := by
  unfold sysMalloc
  rw [wp_get_bind, if_neg (not_not.mpr ⟨by omega, hlt⟩)]
  apply wp_call (R := fun _ _ => True)
  · exact wp_iff.mpr ⟨fun _ _ _ => trivial, fun _ _ => trivial⟩
  intro _ t _
  unfold anyBlock
  rw [if_pos hlarge]
  unfold largeBlock
  rw [wp_bind_assoc]
  apply wp_bind
  apply wp_zoom
  apply wp_zoom
  unfold Mem.allocPage
  rw [wp_assert_bind]
  exact ⟨fun hok => absurd hok hbad, fun _ => trivial⟩

theorem not_total_of_stops (h : wp anyStop () (sysMalloc size) (fun _ _ => False) s) :
    ¬ Total s live size := by
  intro htotal
  obtain ⟨_, _, hret, -⟩ := wp_noStop_returns htotal
  exact hret.of_wp h

theorem Ready.total (h : Ready s live kf uf) (hres : TablesFree s (asked size))
    (hpos : 0 < size) (hlt : size < s.heap.poolSize) (hle : size ≤ 15724532) :
    Total s live size := by
  unfold Total sysMalloc
  rw [wp_get_bind, if_neg (not_not.mpr ⟨hpos, hlt⟩)]
  apply wp_call (R := fun _ t => PoolSys.Locked s.flag s.sys t.sys ∧ t.heap = s.heap)
  · apply wp_zoom
    exact wp_mono (PoolSys.wp_lockLock h.lock) fun _ _ hl => ⟨hl, rfl⟩
  rintro ⟨⟩ t ⟨hl, hheap⟩
  apply wp_call (R := fun p r => Answered s live size p r)
  · unfold anyBlock
    by_cases hlarge : 1024 < size
    · obtain ⟨hok, hwrap⟩ := pgCnt_ok h.pool hlarge hlt
      obtain ⟨hcnt, hmax⟩ := hok.mpr hle
      unfold asked at hres
      rw [if_pos hlarge] at hres ⊢
      exact wp_largeBlock h hpos hcnt hmax hres (hwrap hle) hl hheap
    · unfold asked at hres
      rw [if_neg hlarge] at hres ⊢
      exact wp_smallBlock h hpos (not_lt.mp hlarge) hres hl hheap
  rintro p u ⟨hlocked, hserved⟩
  apply wp_call (R := fun _ r => Served s live size p r)
  · apply wp_zoom
    apply wp_mono (PoolSys.wp_lockUnlock (usable_setMem h.lock u.sys.mem) hlocked)
    intro _ r hr
    exact hserved.congr hr.mem rfl
  · exact fun _ r hr => wp_pure.mpr hr

/-- Requests are answered exactly when they are refused at once or ask for less than 3840 pages. -/
theorem malloc_total_law (h : Ready s live kf uf) (hres : TablesFree s (asked size)) :
    Total s live size ↔ size = 0 ∨ s.heap.poolSize ≤ size ∨ size ≤ 15724532 := by
  by_cases hrefused : 0 < size ∧ size < s.heap.poolSize
  · obtain ⟨hpos, hlt⟩ := hrefused
    constructor
    · intro htotal
      by_contra hc
      have hlarge : 1024 < size := by omega
      refine not_total_of_stops (sysMalloc_stops hlarge hlt ?_) htotal
      rw [(pgCnt_ok h.pool hlarge hlt).1]
      omega
    · intro hcond
      exact h.total hres hpos hlt (by omega)
  · constructor
    · intro _
      omega
    · intro _
      unfold Total sysMalloc
      rw [wp_get_bind, if_pos hrefused, wp_pure]
      exact .inl ⟨rfl, rfl, rfl, fun _ => rfl⟩

/-- A process with an empty heap, a pool of 128 MB and one frame left. -/
def sampleHeapSys : HeapSys :=
  ⟨PoolSys.scarceSys, { Malloc.emptyHeap.heap with poolSize := 0x8000000 }⟩

theorem sampleHeapSys_ready : Ready sampleHeapSys (fun _ => none) 0x200 0x208 where
  lock := PoolSys.usable_lockInit
  mem := Mem.scarceMem_consistent
  heap := Malloc.Start.inv (f := ⟨sampleHeapSys.heap, fun _ => none⟩)
    ⟨fun _ => rfl, rfl, fun _ => rfl⟩
  mapped x hx := by cases hx
  pool := by decide

theorem sampleHeapSys_tables (cnt : ℕ) : TablesFree sampleHeapSys cnt := by
  intro i _ _
  have hleft : Mem.scarceMem.userPap.bitMap.clearBits ≤
      Mem.scarceMem.kernelPap.bitMap.clearBits := by decide +kernel
  refine ((Finset.card_filter_le _ _).trans Finset.card_image_le).trans ?_
  rw [Finset.card_range]
  exact (min_le_right _ _).trans hleft

theorem malloc_total_law_sample : Total sampleHeapSys (fun _ => none) 5000 ↔
    5000 = 0 ∨ sampleHeapSys.heap.poolSize ≤ 5000 ∨ 5000 ≤ 15724532 :=
  malloc_total_law sampleHeapSys_ready (sampleHeapSys_tables _)

/-- 3840 pages with the header. -/
theorem sysMalloc_asserts : ¬ Total sampleHeapSys (fun _ => none) 15724533 :=
  not_total_of_stops (sysMalloc_stops (by decide) (by decide) (by decide))

end Law

end HeapSys

end Gogoos
