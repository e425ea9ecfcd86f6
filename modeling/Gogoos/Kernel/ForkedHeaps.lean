import Gogoos.Kernel.MallocRun

/-!
# Heaps after a fork

`sysFork` copies the pages of the parent, with the headers of the arenas, and gives the child
descriptors of its own with `memBlockDescInit`. The headers that the child inherits go on pointing
to the descriptors of the process that set them up.
-/

namespace Gogoos.Malloc.Forked

open Program

variable {s r : Malloc} {p n q m page size : ℕ} {e : Unit} {live : ℕ → Option ℕ}

section Model

/-- The heap of a process. `heap.held` are the pages that it got itself; `inherited` are those of
its address space that were there when it was forked. -/
structure Proc where
  heap : Malloc
  live : ℕ → Option ℕ
  inherited : List (ℕ × ℕ)
  /-- The inherited blocks that it has not freed. -/
  legacy : ℕ → Option ℕ
  /-- The process in whose `umbdArr` lies what `desc` of the header in a page points to. -/
  owner : ℕ → ℕ

/-- The processes, by the address of their PCB. -/
abbrev Family := ℕ → Option Proc

def Family.put (F : Family) (i : ℕ) (P : Proc) : Family := Function.update F i (some P)

theorem put_self (F : Family) (i : ℕ) (P : Proc) : F.put i P i = some P := Function.update_self ..

theorem put_other {i j : ℕ} (F : Family) (P : Proc) (h : j ≠ i) : F.put i P j = F j :=
  Function.update_of_ne h ..

namespace Proc

variable (P : Proc)

def header (p : ℕ) : Arena := P.heap.arenas (blockToArena p)

/-- The block at `p` is the process's own. -/
def Has (p n : ℕ) : Prop := P.live p = some n ∨ P.legacy p = some n

def drop (p : ℕ) : Proc :=
  { P with
    live := fun q => if q = p then none else P.live q
    legacy := fun q => if q = p then none else P.legacy q }

/-- After a call of `sysMalloc` by the process `i`. A page that was not taken has no header. -/
def grown (i : ℕ) (r : Malloc) (page p size : ℕ) : Proc :=
  { P with
    heap := r
    live := if p = 0 then P.live else fun q => if q = p then some size else P.live q
    owner := fun a => if a = page then i else P.owner a }

/-- The child, with `copyPcbVaddrBitMapStack0` and `copyBodyStack3`. -/
def forked : Proc where
  heap := { P.heap with freeList := fun _ => [], held := [] }
  live _ := none
  inherited := P.heap.held ++ P.inherited
  legacy p := (P.live p).or (P.legacy p)
  owner := P.owner

/-- What `allocPage` may return: a range that the address space does not have. -/
def Offers (page c : ℕ) : Prop :=
  Offered P.heap page c ∧ (page ≠ 0 → ∀ x ∈ P.inherited, Away (page, c) x)

end Proc

/-- `sysFree` of the process `i`, which goes by the header in the page of the block. -/
inductive Freed (F : Family) (i : ℕ) (P : Proc) (p : ℕ) : Family → Prop
  /-- The header is that of a large block or points to the descriptors of `i`. -/
  | own {r : Malloc} (howner : ∀ d, (P.header p).desc = some d → P.owner (blockToArena p) = i)
      (hret : Returns () (sysFree p) P.heap () r) :
      Freed F i P p (F.put i { P.drop p with heap := r })
  /-- The pages of an inherited large block go back. -/
  | pages (hdesc : (P.header p).desc = none) (hlarge : (P.header p).large = true)
      (hmem : (blockToArena p, (P.header p).cnt) ∈ P.inherited) :
      Freed F i P p (F.put i
        { P.drop p with inherited := P.inherited.erase (blockToArena p, (P.header p).cnt) })
  /-- The block goes on the empty free list of another process. Its links are written in the
  pages of `i`. -/
  | stray {Q : Proc} {j d : ℕ} {bytes : ℕ → UInt8} (hdesc : (P.header p).desc = some d)
      (howner : P.owner (blockToArena p) = j) (hne : j ≠ i) (hQ : F j = some Q)
      (hempty : Q.heap.freeList d = [])
      (hcnt : ((P.header p).cnt + 1) % 2 ^ 32 ≠ blocksPerArena d) :
      Freed F i P p ((F.put j { Q with heap := Q.heap.setFree d [p] }).put i
        { P.drop p with
          heap :=
            { P.heap.setArena (blockToArena p)
                { P.header p with cnt := ((P.header p).cnt + 1) % 2 ^ 32 } with bytes := bytes } })
  /-- The links of a list that is not empty are written in the pages of the wrong process, and
  the loop over the blocks of the arena goes by them. Anything may come out of that. -/
  | wild {d : ℕ} {G : Family} (hdesc : (P.header p).desc = some d)
      (howner : P.owner (blockToArena p) ≠ i) : Freed F i P p G

/-- A call of `sysMalloc` or `sysFree` by the process `i`, which frees its own blocks only.
`c` is a condition on the block to be freed. -/
inductive Call (c : Proc → ℕ → Prop) (i : ℕ) (F : Family) : Family → Prop
  | malloc {P : Proc} {r : Malloc} {page p size : ℕ} (hP : F i = some P)
      (hpage : P.Offers page (pageCount size))
      (hret : Returns () (sysMalloc page size) P.heap p r) :
      Call c i F (F.put i (P.grown i r page p size))
  | free {P : Proc} {p n : ℕ} {G : Family} (hP : F i = some P) (hown : P.Has p n) (hc : c P p)
      (hfreed : Freed F i P p G) : Call c i F G

/-- A call by one of the processes, or a `sysFork` that succeeds. -/
inductive Step (c : Proc → ℕ → Prop) (F : Family) : Family → Prop
  | call {G : Family} (i : ℕ) (h : Call c i F G) : Step c F G
  | fork {i j : ℕ} {P : Proc} (hP : F i = some P) (hj : F j = none) : Step c F (F.put j P.forked)

/-- One process, from whose heap nothing was taken. -/
structure Start (F : Family) : Prop where
  heap : ∀ i P, F i = some P → Malloc.Start ⟨P.heap, P.live⟩
  inherited : ∀ i P, F i = some P → P.inherited = []
  legacy : ∀ i P, F i = some P → ∀ p, P.legacy p = none

/-- An inherited block is freed only when it is large. -/
def Own (P : Proc) (p : ℕ) : Prop := ∀ n, P.legacy p = some n → (P.header p).desc = none

end Model

section Frames

theorem wp_appendBlocks_frame {b d : ℕ} : ∀ left idx s, wp anyStop e (appendBlocks b d left idx)
    (fun _ r => r.arenas = s.arenas) s := by
  intro left
  induction left with
  | zero => exact fun _ _ => wp_pure.mpr rfl
  | succ left ih =>
    intro idx s
    unfold appendBlocks
    rw [wp_get_bind, wp_assert_bind]
    refine ⟨fun _ => ?_, fun _ => trivial⟩
    rw [wp_modify_bind]
    exact ih (idx + 1) _

theorem wp_removeBlocks_frame {b d : ℕ} : ∀ left idx s, wp anyStop e (removeBlocks b d left idx)
    (fun _ r => r.arenas = s.arenas ∧ r.held = s.held) s := by
  intro left
  induction left with
  | zero => exact fun _ _ => wp_pure.mpr ⟨rfl, rfl⟩
  | succ left ih =>
    intro idx s
    unfold removeBlocks
    rw [wp_get_bind, wp_assert_bind]
    refine ⟨fun _ => ?_, fun _ => trivial⟩
    rw [wp_modify_bind]
    exact ih (idx + 1) _

/-- The headers point to the same descriptors. -/
def SameDesc (s r : Malloc) : Prop := ∀ a, (r.arenas a).desc = (s.arenas a).desc

theorem sameDesc_setArena {a : Arena} {b : ℕ} (h : a.desc = (s.arenas b).desc) :
    SameDesc s (s.setArena b a) := by
  intro q
  by_cases hb : q = b
  · subst hb
    rw [setArena_arenas, if_pos rfl, h]
  · rw [setArena_arenas, if_neg hb]

theorem wp_allocPage_frame {c : ℕ} :
    wp anyStop e (allocPage page c) (fun _ r => r.arenas = s.arenas) s := by
  unfold allocPage
  rw [wp_assert_bind]
  refine ⟨fun _ => ?_, fun _ => trivial⟩
  apply wp_ite
  · exact fun _ => wp_pure.mpr rfl
  · intro _
    rw [wp_modify_bind]
    exact wp_pure.mpr rfl

theorem wp_refill_frame {d : ℕ} :
    wp anyStop e (refill page d) (fun _ r => ∀ a, a ≠ page →
      (r.arenas a).desc = (s.arenas a).desc) s := by
  unfold refill
  rw [wp_get_bind]
  apply wp_ite
  · intro _
    apply wp_call wp_allocPage_frame
    intro got x hx
    apply wp_ite
    · intro _
      rw [wp_modify_bind, wp_modify_bind]
      apply wp_call (wp_appendBlocks_frame _ _ _)
      intro _ y hy
      refine wp_pure.mpr fun a ha => ?_
      rw [hy, setArena_arenas, if_neg ha, clear_arenas, hx]
    · exact fun _ => wp_pure.mpr fun a _ => by rw [hx]
  · exact fun _ => wp_pure.mpr fun _ _ => rfl

theorem wp_takeBlock_frame {d : ℕ} :
    wp anyStop e (takeBlock d) (fun _ r => SameDesc s r) s := by
  unfold takeBlock
  rw [wp_get_bind]
  cases s.freeList d with
  | nil => exact wp_halt.mpr trivial
  | cons block rest =>
    dsimp only
    rw [wp_modify_bind, wp_modify_bind, wp_modify_bind]
    exact wp_pure.mpr (sameDesc_setArena rfl)

theorem wp_sysMalloc_frame : wp anyStop e (sysMalloc page size) (fun _ r => ∀ a, a ≠ page →
    (r.arenas a).desc = (s.arenas a).desc) s := by
  unfold sysMalloc
  rw [wp_get_bind]
  apply wp_ite
  · exact fun _ => wp_pure.mpr fun _ _ => rfl
  intro _
  apply wp_ite
  · intro _
    unfold largeBlock
    apply wp_call wp_allocPage_frame
    intro got x hx
    apply wp_ite
    · intro _
      rw [wp_modify_bind, wp_modify_bind]
      refine wp_pure.mpr fun a ha => ?_
      rw [setArena_arenas, if_neg ha, clear_arenas, hx]
    · exact fun _ => wp_pure.mpr fun a _ => by rw [hx]
  · intro _
    unfold smallBlock
    apply wp_call wp_refill_frame
    intro filled x hx
    apply wp_ite
    · intro _
      exact wp_mono wp_takeBlock_frame fun _ r hr a ha => (hr a).trans (hx a ha)
    · exact fun _ => wp_pure.mpr hx

theorem wp_allocPage_huge {c : ℕ} (h : ¬c < 3840) :
    wp anyStop e (allocPage page c) (fun _ _ => False) s := by
  unfold allocPage
  rw [wp_assert_bind]
  exact ⟨fun hcnt => absurd hcnt.2 h, fun _ => trivial⟩

/-- A call for more pages than `allocPage` gives out returns only if it asks for more bytes than
the pool has. -/
theorem wp_sysMalloc_huge (h : ¬pageCount size < 3840) :
    wp anyStop e (sysMalloc page size) (fun p r => p = 0 ∧ r = s) s := by
  unfold sysMalloc
  rw [wp_get_bind]
  apply wp_ite
  · exact fun _ => wp_pure.mpr ⟨rfl, rfl⟩
  intro hsize
  apply wp_ite
  · intro _
    exact wp_call (wp_allocPage_huge h) fun _ _ hfalse => hfalse.elim
  · intro hsmall
    rw [pageCount_small (not_not.mp hsize).1 (not_lt.mp hsmall)] at h
    exact absurd (by norm_num) h

theorem wp_freePage_frame {b c : ℕ} : wp anyStop e (freePage b c) (fun _ r =>
    r.arenas = s.arenas ∧ r.held = s.held.erase (b, c) ∧ (b, c) ∈ s.held) s := by
  unfold freePage
  rw [wp_get_bind, wp_assert_bind]
  refine ⟨fun hmem => ?_, fun _ => trivial⟩
  rw [wp_modify]
  exact ⟨rfl, rfl, hmem⟩

/-- `sysFree` gives pages back and keeps the pointers to descriptors; the pages of a large block
are pages that the heap holds. -/
theorem wp_sysFree_frame : wp anyStop e (sysFree p) (fun _ r => SameDesc s r ∧
    (∀ x ∈ r.held, x ∈ s.held) ∧ ((s.arenas (blockToArena p)).desc = none →
      (blockToArena p, (s.arenas (blockToArena p)).cnt) ∈ s.held)) s := by
  unfold sysFree
  rw [wp_assert_bind]
  refine ⟨fun _ => ?_, fun _ => trivial⟩
  rw [wp_get_bind]
  dsimp only
  cases hdesc : (s.arenas (blockToArena p)).desc with
  | none =>
    dsimp only
    apply wp_ite
    · intro _
      apply wp_mono wp_freePage_frame
      rintro _ r ⟨ha, hheld, hmem⟩
      refine ⟨fun a => by rw [ha], fun x hx => ?_, fun _ => hmem⟩
      rw [hheld] at hx
      exact List.mem_of_mem_erase hx
    · exact fun _ => wp_halt.mpr trivial
  | some d =>
    dsimp only
    unfold freeSmall
    rw [wp_modify_bind, wp_modify_bind, wp_get_bind]
    have hsame : SameDesc s ((s.setFree d (s.freeList d ++ [p])).setArena (blockToArena p)
        { s.arenas (blockToArena p) with
          cnt := ((s.arenas (blockToArena p)).cnt + 1) % 2 ^ 32 }) :=
      fun a => sameDesc_setArena (s := s.setFree d (s.freeList d ++ [p])) (by rfl) a
    apply wp_ite
    · intro _
      apply wp_call (wp_removeBlocks_frame _ _ _)
      rintro _ x ⟨ha, hheld⟩
      apply wp_mono wp_freePage_frame
      rintro _ r ⟨ha', hheld', -⟩
      refine ⟨fun a => ?_, fun y hy => ?_, fun hnone => nomatch hnone⟩
      · rw [ha', ha]
        exact hsame a
      · rw [hheld'] at hy
        have hmem := List.mem_of_mem_erase hy
        rwa [hheld] at hmem
    · exact fun _ => wp_pure.mpr ⟨hsame, fun _ hx => hx, fun hnone => nomatch hnone⟩

end Frames

section Invariant

variable {i j : ℕ} {P : Proc} {F G : Family} {x y : ℕ × ℕ}

/-- The block lies behind the header in the first page of the range, right behind it when the
range is that of a large block. -/
structure Within (s : Malloc) (x : ℕ × ℕ) (p n : ℕ) : Prop where
  arena : blockToArena p = x.1
  pos : 0 < n
  lower : x.1 + arenaSize ≤ p
  upper : p + n ≤ x.1 + x.2 * 4096
  large : (s.arenas x.1).desc = none → p = x.1 + arenaSize

theorem Within.congr (h : Within s x p n) (hdesc : (r.arenas x.1).desc = (s.arenas x.1).desc) :
    Within r x p n := ⟨h.arena, h.pos, h.lower, h.upper, fun hr => h.large (hdesc ▸ hr)⟩

/-- Blocks in ranges that are away from one another do not overlap. -/
theorem Within.disjoint (h : Within s x p n) (h' : Within s y q m) (haway : Away x y) :
    p + n ≤ q ∨ q + m ≤ p := by
  have h1 := h.lower
  have h2 := h.upper
  have h3 := h'.lower
  have h4 := h'.upper
  unfold Away at haway
  omega

theorem inv_within (h : Inv s live none) (hp : live p = some n) : ∃ x ∈ s.held, Within s x p n := by
  obtain ⟨hn, ⟨b, c, hb, rfl, hle⟩ | ⟨b, d, k, hb, hk, rfl, hle, -⟩⟩ := h.sound p n hp
  · have hal := (h.aligned _ hb.held).1
    refine ⟨_, hb.held, ?_, hn, le_rfl, by dsimp only; omega, fun _ => rfl⟩
    unfold blockToArena arenaSize
    dsimp only at hal ⊢
    omega
  · obtain ⟨hlo, hhi⟩ := block_bounds (b := b) hk
    refine ⟨_, hb.held, blockToArena_block (h.aligned _ hb.held).1 hk, hn, hlo,
      by dsimp only; omega, fun hnone => ?_⟩
    rw [hb.desc] at hnone
    cases hnone

/-- The heap of one process: what it got itself is sound, and what it inherited lies elsewhere. -/
structure Sound (i : ℕ) (P : Proc) : Prop where
  inv : Inv P.heap P.live none
  owner : ∀ x ∈ P.heap.held, P.owner x.1 = i
  away : ∀ x ∈ P.heap.held, ∀ y ∈ P.inherited, Away x y
  pos : ∀ x ∈ P.inherited, 0 < x.1 ∧ 0 < x.2
  apart : P.inherited.Pairwise Away
  within : ∀ p n, P.legacy p = some n → ∃ x ∈ P.inherited, Within P.heap x p n
  disjoint : ∀ p n q m, P.legacy p = some n → P.legacy q = some m → p ≠ q →
    p + n ≤ q ∨ q + m ≤ p

theorem base_ne_of_away (h : Away x y) (hx : 0 < x.2) (hy : 0 < y.2) : x.1 ≠ y.1 := by
  intro heq
  unfold Away at h
  omega

theorem Sound.has_disjoint (h : Sound i P) (hp : P.Has p n) (hq : P.Has q m) (hne : p ≠ q) :
    p + n ≤ q ∨ q + m ≤ p := by
  rcases hp with hp | hp <;> rcases hq with hq | hq
  · exact h.inv.disjoint hp hq hne
  · obtain ⟨x, hx, hin⟩ := inv_within h.inv hp
    obtain ⟨y, hy, hin'⟩ := h.within q m hq
    exact hin.disjoint hin' (h.away x hx y hy)
  · obtain ⟨x, hx, hin⟩ := inv_within h.inv hq
    obtain ⟨y, hy, hin'⟩ := h.within p n hp
    exact (hin.disjoint hin' (h.away x hx y hy)).symm
  · exact h.disjoint p n q m hp hq hne

/-- No block is got and inherited. -/
theorem Sound.not_both (h : Sound i P) (hp : P.live p = some n) (hq : P.legacy p = some m) :
    False := by
  obtain ⟨x, hx, hin⟩ := inv_within h.inv hp
  obtain ⟨y, hy, hin'⟩ := h.within p m hq
  have hpos := hin.pos
  have hpos' := hin'.pos
  have := hin.disjoint hin' (h.away x hx y hy)
  omega

end Invariant

section Steps

variable {i j c : ℕ} {P : Proc} {F G : Family}

theorem drop_legacy : (P.drop p).legacy q = some n ↔ q ≠ p ∧ P.legacy q = some n := by
  unfold Proc.drop
  by_cases hq : q = p <;> simp [hq]

theorem Sound.malloc (h : Sound i P) (hpage : P.Offers page (pageCount size))
    (hret : Returns () (sysMalloc page size) P.heap p r) : Sound i (P.grown i r page p size) := by
  obtain ⟨hmalloced, hnew⟩ : Malloced P.live size p r ∧
      HoldsNew P.heap page (pageCount size) r := by
    by_cases hcnt : pageCount size < 3840
    · exact hret.of_wp (wp_sysMalloc_held h.inv hcnt hpage.1)
    · obtain ⟨rfl, rfl⟩ := hret.of_wp (wp_sysMalloc_huge (s := P.heap) hcnt)
      exact ⟨.inl ⟨rfl, h.inv⟩, fun x hx => .inl hx⟩
  have hframe := hret.of_wp wp_sysMalloc_frame
  have hpos : 0 < pageCount size := by
    unfold pageCount arenaSize
    omega
  constructor
  · obtain ⟨rfl, hr⟩ | ⟨hp, -, hr, -⟩ := hmalloced
    · exact hr
    · unfold Proc.grown
      dsimp only
      rwa [if_neg hp]
  · intro x hx
    change (if x.1 = page then i else P.owner x.1) = i
    obtain hold | ⟨rfl, -⟩ := hnew x hx
    · rw [h.owner x hold, ite_self]
    · exact if_pos rfl
  · intro x hx y hy
    obtain hold | ⟨rfl, hne⟩ := hnew x hx
    · exact h.away x hold y hy
    · exact hpage.2 hne y hy
  · exact h.pos
  · exact h.apart
  · intro q m hq
    obtain ⟨x, hx, hin⟩ := h.within q m hq
    refine ⟨x, hx, hin.congr (hframe x.1 ?_)⟩
    by_cases hnull : page = 0
    · rw [hnull]
      exact (h.pos x hx).1.ne'
    · exact (base_ne_of_away (hpage.2 hnull x hx) hpos (h.pos x hx).2).symm
  · exact h.disjoint

theorem Sound.freeOwn (h : Sound i P) (hp : P.live p = some n)
    (hret : Returns () (sysFree p) P.heap () r) : Sound i { P.drop p with heap := r } := by
  obtain ⟨hdesc, hheld, -⟩ := hret.of_wp wp_sysFree_frame
  constructor
  · exact hret.of_wp (wp_sysFree h.inv hp)
  · exact fun x hx => h.owner x (hheld x hx)
  · exact fun x hx => h.away x (hheld x hx)
  · exact h.pos
  · exact h.apart
  · intro q m hq
    obtain ⟨x, hx, hin⟩ := h.within q m (drop_legacy.mp hq).2
    exact ⟨x, hx, hin.congr (hdesc x.1)⟩
  · exact fun q m q' m' hq hq' => h.disjoint q m q' m' (drop_legacy.mp hq).2 (drop_legacy.mp hq').2

/-- The pages of an inherited large block have no other block. -/
theorem Sound.freePages (h : Sound i P) (hp : P.legacy p = some n)
    (hdesc : (P.header p).desc = none) : Sound i
      { P.drop p with inherited := P.inherited.erase (blockToArena p, c) } := by
  obtain ⟨y, -, hin⟩ := h.within p n hp
  constructor
  · have hlive : (P.drop p).live = P.live := by
      funext q
      unfold Proc.drop
      dsimp only
      split_ifs with hq
      · subst hq
        cases hl : P.live q with
        | none => rfl
        | some m => exact (h.not_both hl hp).elim
      · rfl
    rw [hlive]
    exact h.inv
  · exact h.owner
  · exact fun x hx y hy => h.away x hx y (List.mem_of_mem_erase hy)
  · exact fun x hx => h.pos x (List.mem_of_mem_erase hx)
  · exact h.apart.sublist (List.erase_sublist)
  · intro q m hq
    obtain ⟨hne, hq⟩ := drop_legacy.mp hq
    obtain ⟨x, hx, hin'⟩ := h.within q m hq
    refine ⟨x, (List.mem_erase_of_ne ?_).mpr hx, hin'⟩
    rintro rfl
    unfold Proc.header at hdesc
    have hfirst := hin.large (hin.arena ▸ hdesc)
    rw [← hin.arena] at hfirst
    exact hne ((hin'.large hdesc).trans hfirst.symm)
  · exact fun q m q' m' hq hq' => h.disjoint q m q' m' (drop_legacy.mp hq).2 (drop_legacy.mp hq').2

/-- The child begins with nothing of its own. -/
theorem Sound.forked (h : Sound i P) : Sound j P.forked := by
  have hlegacy : ∀ {q m}, P.forked.legacy q = some m → P.Has q m := by
    intro q m hq
    change (P.live q).or (P.legacy q) = some m at hq
    cases hl : P.live q with
    | none =>
      rw [hl] at hq
      exact Or.inr hq
    | some m' =>
      rw [hl] at hq
      exact Or.inl (hl.trans hq)
  constructor
  · exact Malloc.Start.inv (f := ⟨P.forked.heap, P.forked.live⟩) ⟨fun _ => rfl, rfl, fun _ => rfl⟩
  · exact fun x hx => nomatch hx
  · exact fun x hx => nomatch hx
  · intro x hx
    rcases List.mem_append.mp hx with hx | hx
    · exact (h.inv.aligned x hx).2
    · exact h.pos x hx
  · exact List.pairwise_append.mpr
      ⟨h.inv.nodup.pairwise_of_forall_ne fun x hx y hy hne => h.inv.away x hx y hy hne, h.apart,
        h.away⟩
  · intro q m hq
    rcases hlegacy hq with hq | hq
    · obtain ⟨x, hx, hin⟩ := inv_within h.inv hq
      exact ⟨x, List.mem_append_left _ hx, hin.congr rfl⟩
    · obtain ⟨x, hx, hin⟩ := h.within q m hq
      exact ⟨x, List.mem_append_right _ hx, hin.congr rfl⟩
  · exact fun q m q' m' hq hq' => h.has_disjoint (hlegacy hq) (hlegacy hq')

/-- The header of a block that may be freed points to the descriptors of the process. -/
theorem Sound.owner_eq {d : ℕ} (h : Sound i P) (hp : P.Has p n) (hown : Own P p)
    (hdesc : (P.header p).desc = some d) : P.owner (blockToArena p) = i := by
  rcases hp with hp | hp
  · obtain ⟨x, hx, hin⟩ := inv_within h.inv hp
    rw [hin.arena]
    exact h.owner x hx
  · exact nomatch (hown n hp).symm.trans hdesc

/-- Only the process that frees has changed. -/
theorem Sound.freed (h : Sound i P) (hp : P.Has p n) (hown : Own P p) (hfreed : Freed F i P p G) :
    ∃ P', G = F.put i P' ∧ Sound i P' := by
  cases hfreed with
  | own howner hret =>
    refine ⟨_, rfl, ?_⟩
    rcases hp with hp | hp
    · exact h.freeOwn hp hret
    · have hmem := (hret.of_wp wp_sysFree_frame).2.2 (hown n hp)
      obtain ⟨y, hy, hin⟩ := h.within p n hp
      have hne := base_ne_of_away (h.away _ hmem y hy) (h.inv.aligned _ hmem).2.2 (h.pos y hy).2
      exact absurd hin.arena hne
  | pages hdesc hlarge hmem =>
    refine ⟨_, rfl, ?_⟩
    rcases hp with hp | hp
    · obtain ⟨x, hx, hin⟩ := inv_within h.inv hp
      have hne := base_ne_of_away (h.away x hx _ hmem) (h.inv.aligned x hx).2.2 (h.pos _ hmem).2
      exact absurd hin.arena.symm hne
    · exact h.freePages hp hdesc
  | stray hdesc howner hne => exact absurd (howner.symm.trans (h.owner_eq hp hown hdesc)) hne
  | wild hdesc howner => exact absurd (h.owner_eq hp hown hdesc) howner

end Steps

section Law

variable {F G : Family}

/-- Every process has a sound heap. -/
def AllSound (F : Family) : Prop := ∀ i P, F i = some P → Sound i P

theorem AllSound.put {i : ℕ} {P : Proc} (h : AllSound F) (hP : Sound i P) :
    AllSound (F.put i P) := by
  intro k Q hQ
  by_cases hk : k = i
  · subst hk
    obtain rfl : P = Q := Option.some.inj ((put_self F k P).symm.trans hQ)
    exact hP
  · exact h k Q ((put_other F P hk).symm.trans hQ)

/-- What a call does: one process has another sound heap. -/
theorem AllSound.call {i : ℕ} (h : AllSound F) (hcall : Call Own i F G) :
    ∃ P, G = F.put i P ∧ Sound i P := by
  cases hcall with
  | malloc hP hpage hret => exact ⟨_, rfl, (h i _ hP).malloc hpage hret⟩
  | free hP hp hown hfreed => exact (h i _ hP).freed hp hown hfreed

theorem AllSound.step (h : AllSound F) (hst : Step Own F G) : AllSound G := by
  cases hst with
  | call i hcall =>
    obtain ⟨P, rfl, hP⟩ := h.call hcall
    exact h.put hP
  | fork hP hj => exact h.put (h _ _ hP).forked

theorem Start.sound (h : Start F) : AllSound F := by
  intro i P hP
  have hstart := h.heap i P hP
  have hheld : P.heap.held = [] := hstart.held
  have hinherited := h.inherited i P hP
  have hlegacy := h.legacy i P hP
  constructor
  · exact Malloc.Start.inv hstart
  · simp [hheld]
  · simp [hheld]
  · simp [hinherited]
  · simp [hinherited]
  · simp [hlegacy]
  · simp [hlegacy]

/-- The heaps do not interfere, and the blocks of a process do not overlap. -/
structure Apart (F : Family) : Prop where
  /-- The free lists, headers, pages and blocks of the others are as before the next call. -/
  calls : ∀ i G, Call Own i F G → ∀ j, j ≠ i → G j = F j
  blocks : ∀ i P, F i = some P → ∀ p n q m, P.Has p n → P.Has q m → p ≠ q →
    p + n ≤ q ∨ q + m ≤ p
  once : ∀ i P, F i = some P → ∀ p n m, P.live p = some n → P.legacy p ≠ some m

/-- In every state of a run in which no process frees a small block that it inherited. -/
theorem heaps_apart_law (h : Run (Step Own) F G) (hs : Start F) : Apart G := by
  have hsound : AllSound G := h.invariant (fun _ _ hI hst => hI.step hst) hs.sound
  constructor
  · intro i G' hcall j hj
    obtain ⟨P, rfl, -⟩ := hsound.call hcall
    exact put_other G P hj
  · exact fun i P hP p n q m hp hq hne => (hsound i P hP).has_disjoint hp hq hne
  · exact fun i P hP p n m hp hq => (hsound i P hP).not_both hp hq

end Law

section Sample

variable {c : Proc → ℕ → Prop}

def parentPcb : ℕ := 0xc0200000

def childPcb : ℕ := 0xc0201000

/-- A process without blocks. -/
def bareProc : Proc := ⟨emptyHeap.heap, fun _ => none, [], fun _ => none, fun _ => 0⟩

/-- A block of 1000 bytes, with a page at hand or 0. -/
def Proc.withBlock (P : Proc) (i page p : ℕ) : Proc :=
  P.grown i (sysMalloc page 1000 () 0 P.heap).state page p 1000

def oneProc : Proc := bareProc.withBlock parentPcb 0x8050000 0x805000c

def twoProc : Proc := oneProc.withBlock parentPcb 0 0x805040c

/-- All three blocks of an arena are taken. -/
def fullProc : Proc := twoProc.withBlock parentPcb 0 0x805080c

def heirProc : Proc := fullProc.forked.withBlock childPcb 0x8051000 0x805100c

def aloneFamily : Family := fun k => if k = parentPcb then some bareProc else none

def fullFamily : Family :=
  ((aloneFamily.put parentPcb oneProc).put parentPcb twoProc).put parentPcb fullProc

def twoFamily : Family := fullFamily.put childPcb fullProc.forked

theorem aloneFamily_start : Start aloneFamily := by
  have hbare : ∀ i P, aloneFamily i = some P → P = bareProc := by
    intro i P hP
    unfold aloneFamily at hP
    split_ifs at hP
    exact (Option.some.inj hP).symm
  constructor
  · intro i P hP
    rw [hbare i P hP]
    exact ⟨fun _ => rfl, rfl, fun _ => rfl⟩
  · intro i P hP
    rw [hbare i P hP]
    rfl
  · intro i P hP p
    rw [hbare i P hP]
    rfl

theorem fullFamily_parent : fullFamily parentPcb = some fullProc := put_self ..

theorem twoFamily_child : twoFamily childPcb = some fullProc.forked := put_self ..

theorem twoFamily_parent : twoFamily parentPcb = some fullProc :=
  (put_other _ _ (by decide)).trans fullFamily_parent

theorem step_withBlock {F : Family} {i : ℕ} {P : Proc} (page p : ℕ) (hP : F i = some P)
    (hpage : P.Offers page 1) (hret : (sysMalloc page 1000 () 0 P.heap).value = some p) :
    Step c F (F.put i (P.withBlock i page p)) :=
  .call i (.malloc hP hpage (.of_value hret))

theorem twoFamily_run : Run (Step c) aloneFamily twoFamily := by
  have hfirst : bareProc.Offers 0x8050000 1 := by
    refine ⟨.inr ⟨by decide, by decide, by decide, ?_⟩, ?_⟩
    · exact fun x hx => nomatch hx
    · exact fun _ x hx => nomatch hx
  have hnull : ∀ P : Proc, P.Offers 0 1 := fun P => ⟨.inl rfl, fun hne => absurd rfl hne⟩
  have h₁ : Step c aloneFamily (aloneFamily.put parentPcb oneProc) :=
    step_withBlock 0x8050000 0x805000c (if_pos rfl) hfirst (by decide +kernel)
  have h₂ : Step c (aloneFamily.put parentPcb oneProc)
      ((aloneFamily.put parentPcb oneProc).put parentPcb twoProc) :=
    step_withBlock 0 0x805040c (put_self ..) (hnull _) (by decide +kernel)
  have h₃ : Step c ((aloneFamily.put parentPcb oneProc).put parentPcb twoProc) fullFamily :=
    step_withBlock 0 0x805080c (put_self ..) (hnull _) (by decide +kernel)
  have h₄ : Step c fullFamily twoFamily := .fork fullFamily_parent rfl
  exact (((Relation.ReflTransGen.single h₁).tail h₂).tail h₃).tail h₄

/-- The child takes a block of its own. -/
theorem heaps_apart_law_sample : Apart (twoFamily.put childPcb heirProc) := by
  have hoffers : fullProc.forked.Offers 0x8051000 1 := by
    refine ⟨.inr ⟨by decide, by decide, by decide, ?_⟩, ?_⟩
    · exact fun x hx => nomatch hx
    · intro _ x hx
      have hheld : fullProc.forked.inherited = [(0x8050000, 1)] := by decide +kernel
      rw [hheld, List.mem_singleton] at hx
      rw [hx]
      unfold Away
      decide
  have hstep : Step Own twoFamily (twoFamily.put childPcb heirProc) :=
    step_withBlock 0x8051000 0x805100c twoFamily_child hoffers (by decide +kernel)
  exact heaps_apart_law (twoFamily_run.tail hstep) aloneFamily_start

/-- The parent after the child has freed a block that it inherited. -/
def misusedProc : Proc := { fullProc with heap := fullProc.heap.setFree 6 [0x805000c] }

/-- The child then. -/
def misusingProc : Proc :=
  { fullProc.forked.drop 0x805000c with
    heap :=
      { fullProc.forked.heap.setArena (blockToArena 0x805000c)
          { fullProc.forked.header 0x805000c with
            cnt := ((fullProc.forked.header 0x805000c).cnt + 1) % 2 ^ 32 } with
        bytes := fullProc.heap.bytes } }

/-- The child frees a block that it inherited. In the free list of its parent, which was empty,
there is now a block that is live in the parent. -/
theorem heaps_apart_law_fails : Start aloneFamily ∧
    Run (Step fun _ _ => True) aloneFamily twoFamily ∧
      twoFamily parentPcb = some fullProc ∧ fullProc.heap.freeList 6 = [] ∧
        ∃ G, Call (fun _ _ => True) childPcb twoFamily G ∧ G parentPcb = some misusedProc ∧
          misusedProc.heap.freeList 6 = [0x805000c] ∧ misusedProc.live 0x805000c = some 1000 := by
  have hempty : fullProc.heap.freeList 6 = [] := by decide +kernel
  have hlive : fullProc.live 0x805000c = some 1000 := by decide +kernel
  have hlegacy : fullProc.forked.legacy 0x805000c = some 1000 := by decide +kernel
  have hdesc : (fullProc.forked.header 0x805000c).desc = some 6 := by decide +kernel
  have howner : fullProc.forked.owner (blockToArena 0x805000c) = parentPcb := by decide +kernel
  have hcnt : ((fullProc.forked.header 0x805000c).cnt + 1) % 2 ^ 32 ≠ blocksPerArena 6 := by
    decide +kernel
  have hfreed : Freed twoFamily childPcb fullProc.forked 0x805000c
      ((twoFamily.put parentPcb misusedProc).put childPcb misusingProc) :=
    .stray hdesc howner (by decide) twoFamily_parent hempty hcnt
  exact ⟨aloneFamily_start, twoFamily_run, twoFamily_parent, hempty, _,
    .free twoFamily_child (.inr hlegacy) trivial hfreed,
    (put_other _ _ (by decide)).trans (put_self ..), rfl, hlive⟩

end Sample

end Gogoos.Malloc.Forked
