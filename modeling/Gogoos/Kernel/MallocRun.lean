import Gogoos.Kernel.MallocInv
import Gogoos.Logic.Run

/-!
# Runs of the heap

Any sequence of `sysMalloc` and `sysFree` calls on one heap, where a pointer is only freed while
it is live and `allocPage` returns pages that the heap does not hold, or `NULL`.
-/

namespace Gogoos.Malloc

open Program

variable {s r : Malloc} {live : ℕ → Option ℕ} {o : Option ℕ} {e : Unit} {b c d k p n page size : ℕ}

section Specs

theorem setFree_setFree {l l' : List ℕ} : (s.setFree d l).setFree d l' = s.setFree d l' := by
  unfold setFree
  congr 1
  funext q
  by_cases hq : q = d <;> simp [hq]

theorem setFree_self {l : List ℕ} (h : s.freeList d = l) : s.setFree d l = s := by
  obtain ⟨arenas, freeList, bytes, held, poolSize⟩ := s
  have hf : (fun q => if q = d then l else freeList q) = freeList := by
    funext q
    by_cases hq : q = d
    · subst hq
      simpa using h.symm
    · simp [hq]
  simp only [setFree, hf]

theorem wp_appendBlocks : ∀ left idx s,
    s.freeList d = (List.range idx).map (arenaToBlock b d) →
    wp noStop e (appendBlocks b d left idx)
      (fun _ r => r = s.setFree d ((List.range (idx + left)).map (arenaToBlock b d))) s := by
  intro left
  induction left with
  | zero =>
    intro idx s h
    exact wp_pure.mpr (setFree_self h).symm
  | succ left ih =>
    intro idx s h
    have hnot : arenaToBlock b d idx ∉ s.freeList d := by
      rw [h]
      intro hc
      obtain ⟨j, hj, heq⟩ := List.mem_map.mp hc
      obtain rfl := block_inj heq
      simp at hj
    unfold appendBlocks
    rw [wp_get_bind, wp_assert_pos hnot, wp_modify_bind]
    refine wp_mono (ih (idx + 1) _ ?_) ?_
    · simp [h, List.range_succ]
    · rintro _ _ rfl
      rw [setFree_setFree, Nat.add_right_comm, Nat.add_assoc]

theorem wp_removeBlocks : ∀ left idx s, (s.freeList d).Nodup →
    (∀ k, idx ≤ k → k < idx + left → arenaToBlock b d k ∈ s.freeList d) →
    wp noStop e (removeBlocks b d left idx) (fun _ r => ∃ l : List ℕ, r = s.setFree d l ∧ l.Nodup ∧
      ∀ q, q ∈ l ↔ q ∈ s.freeList d ∧ ∀ k, idx ≤ k → k < idx + left → q ≠ arenaToBlock b d k)
      s := by
  intro left
  induction left with
  | zero =>
    intro idx s hnodup _
    exact wp_pure.mpr ⟨s.freeList d, (setFree_self rfl).symm, hnodup,
      fun q => ⟨fun hq => ⟨hq, by omega⟩, And.left⟩⟩
  | succ left ih =>
    intro idx s hnodup hall
    unfold removeBlocks
    rw [wp_get_bind, wp_assert_pos (hall idx le_rfl (by omega)), wp_modify_bind]
    refine wp_mono (ih (idx + 1) _ ?_ ?_) ?_
    · simpa using hnodup.erase _
    · intro k hk hk'
      have hne : arenaToBlock b d k ≠ arenaToBlock b d idx := by
        intro hc
        have := block_inj hc
        omega
      simpa using hnodup.mem_erase_iff.mpr ⟨hne, hall k (by omega) (by omega)⟩
    · rintro _ _ ⟨l, rfl, hl, hmem⟩
      refine ⟨l, setFree_setFree, hl, fun q => ?_⟩
      rw [hmem, setFree_freeList, if_pos rfl, hnodup.mem_erase_iff]
      constructor
      · rintro ⟨⟨hne, hq⟩, hrest⟩
        refine ⟨hq, fun k hk hk' => ?_⟩
        by_cases hki : k = idx
        · rwa [hki]
        · exact hrest k (by omega) (by omega)
      · rintro ⟨hq, hrest⟩
        exact ⟨⟨hrest idx le_rfl (by omega), hq⟩, fun k hk hk' => hrest k (by omega) (by omega)⟩

/-- What `allocPage` may return. -/
def Offered (s : Malloc) (page c : ℕ) : Prop := page = 0 ∨ Fresh s page c

theorem wp_allocPage (hpos : 0 < c) (hcnt : c < 3840) (hpage : Offered s page c) :
    wp noStop e (allocPage page c) (fun got r => (got = false ∧ page = 0 ∧ r = s) ∨
      (got = true ∧ Fresh s page c ∧ r = s.setHeld ((page, c) :: s.held))) s := by
  unfold allocPage
  rw [wp_assert_pos ⟨hpos, hcnt⟩]
  obtain hnull | hf := hpage
  · rw [if_pos hnull]
    exact wp_pure.mpr (.inl ⟨rfl, hnull, rfl⟩)
  · rw [if_neg hf.pos.ne', wp_modify_bind]
    exact wp_pure.mpr (.inr ⟨rfl, hf, rfl⟩)

/-- The pages that the heap holds after a call are those it held before and the new ones. -/
def HoldsNew (s : Malloc) (page c : ℕ) (r : Malloc) : Prop :=
  ∀ x ∈ r.held, x ∈ s.held ∨ x = (page, c) ∧ page ≠ 0

theorem wp_refill (h : Inv s live none) (hd : d < 7) (hpage : Offered s page 1) :
    wp noStop e (refill page d) (fun ok r => (ok = false ∧ page = 0 ∧ r = s) ∨
      (ok = true ∧ HoldsNew s page 1 r ∧ ∃ o p rest, Inv r live o ∧ r.freeList d = p :: rest ∧
        ∀ b, o = some b → blockToArena p = b)) s := by
  unfold refill
  rw [wp_get_bind]
  by_cases hempty : s.freeList d = []
  · rw [if_pos hempty]
    apply wp_call (wp_allocPage (by omega) (by omega) hpage)
    rintro got _ (⟨rfl, hnull, rfl⟩ | ⟨rfl, hf, rfl⟩)
    · exact wp_pure.mpr (.inl ⟨rfl, hnull, rfl⟩)
    · rw [if_pos rfl, wp_modify_bind, wp_modify_bind]
      refine wp_call (wp_appendBlocks _ 0 _ (by simpa using hempty)) ?_
      rintro _ _ rfl
      have hinv := h.newArena (s.clear page 4096).bytes hf hd hempty
      obtain ⟨k, hk⟩ : ∃ k, blocksPerArena d = k + 1 := ⟨_, (Nat.succ_pred
        (blocksPerArena_pos hd).ne').symm⟩
      have hlist : allBlocks page d = arenaToBlock page d 0 ::
          ((List.range k).map Nat.succ).map (arenaToBlock page d) := by
        unfold allBlocks
        rw [hk, List.range_succ_eq_map, List.map_cons]
      refine wp_pure.mpr (.inr ⟨rfl, fun x hx => ?_, some page, arenaToBlock page d 0,
        ((List.range k).map Nat.succ).map (arenaToBlock page d), ?_, ?_, ?_⟩)
      · obtain rfl | hx := List.mem_cons.mp hx
        · exact .inr ⟨rfl, hf.pos.ne'⟩
        · exact .inl hx
      · rw [Nat.zero_add]
        exact hinv
      · rw [Nat.zero_add]
        simpa [allBlocks] using hlist
      · rintro b ⟨⟩
        exact blockToArena_block hf.aligned (by omega)
  · rw [if_neg hempty]
    obtain ⟨p, rest, hlist⟩ := List.exists_cons_of_ne_nil hempty
    exact wp_pure.mpr (.inr ⟨rfl, fun x hx => .inl hx, none, p, rest, h, hlist, by simp⟩)

theorem Inv.not_live_of_free (h : Inv s live o) (hp : p ∈ s.freeList d) : live p = none := by
  cases hl : live p with
  | none => rfl
  | some n =>
    exfalso
    obtain ⟨b, k, hb, hk, rfl⟩ := h.free d p hp
    obtain ⟨-, ⟨b₂, c₂, hb₂, heq, -⟩ | ⟨b₂, d₂, k₂, hb₂, hk₂, heq, -, hnot⟩⟩ := h.sound _ n hl
    · exact h.large_ne_block hb₂ hb hk heq.symm
    · obtain ⟨rfl, rfl, rfl⟩ := h.block_unique hb hb₂ hk hk₂ heq
      exact hnot hp

/-- The result of a call of `sysMalloc`. -/
def Malloced (live : ℕ → Option ℕ) (size p : ℕ) (r : Malloc) : Prop :=
  (p = 0 ∧ Inv r live none) ∨
    (p ≠ 0 ∧ live p = none ∧ Inv r (fun q => if q = p then some size else live q) none ∧
      ∀ a, p ≤ a → a < p + size → r.bytes a = 0)

theorem wp_takeBlock {rest : List ℕ} (h : Inv s live o) (hlist : s.freeList d = p :: rest)
    (ho : ∀ b, o = some b → blockToArena p = b) (hn : 0 < size) (hnd : size ≤ blockSize d) :
    wp noStop e (takeBlock d) (fun q r => q ≠ 0 ∧ r.held = s.held ∧ Malloced live size q r) s := by
  unfold takeBlock
  rw [wp_get_bind, hlist]
  dsimp only
  rw [wp_modify_bind, wp_modify_bind, wp_modify_bind]
  have hpos : p ≠ 0 := by
    obtain ⟨b, k, hb, hk, rfl⟩ := h.free d p (by simp [hlist])
    have := (block_bounds (b := b) hk).1
    have := (h.aligned _ hb.held).2.1
    dsimp only at this
    omega
  refine wp_pure.mpr ⟨hpos, rfl, .inr ⟨hpos, h.not_live_of_free (d := d) (by simp [hlist]),
    h.take hlist ho hn hnd, fun a ha ha' => ?_⟩⟩
  have hin : p ≤ a ∧ a < p + blockSize d := by omega
  simp [hin]

theorem findDesc_spec (size : ℕ) : ∀ left d, size ≤ blockSize (d + left) →
    size ≤ blockSize (findDesc size left d) ∧ findDesc size left d ≤ d + left := by
  intro left
  induction left with
  | zero => exact fun d h => ⟨h, le_rfl⟩
  | succ left ih =>
    intro d h
    unfold findDesc
    split_ifs with hs
    · exact ⟨hs, by omega⟩
    · have := ih (d + 1) (by rwa [Nat.add_right_comm, Nat.add_assoc])
      exact ⟨this.1, by omega⟩

/-- The loop over the descriptors ends before the last one. -/
theorem findDesc_small (h : size ≤ 1024) :
    size ≤ blockSize (findDesc size memBlockDescCnt 0) ∧ findDesc size memBlockDescCnt 0 < 7 := by
  have h6 : blockSize 6 = 1024 := by norm_num [blockSize, memBlockDescInit]
  have hlast : findDesc size 1 6 = 6 := by simp [findDesc, h6, h]
  have hstep : ∀ left d, d + left = 6 → findDesc size (left + 1) d = findDesc size left d := by
    intro left
    induction left with
    | zero =>
      rintro d hd
      obtain rfl : d = 6 := hd
      exact hlast
    | succ left ih =>
      intro d hd
      change (if size ≤ blockSize d then d else findDesc size (left + 1) (d + 1)) =
        if size ≤ blockSize d then d else findDesc size left (d + 1)
      rw [ih (d + 1) (by omega)]
  have hspec := findDesc_spec size 6 0 (by rwa [Nat.zero_add, h6])
  rw [← hstep 6 0 rfl] at hspec
  have h7 : memBlockDescCnt = 6 + 1 := rfl
  rw [h7]
  exact ⟨hspec.1, by omega⟩

theorem pageCount_small (hn : 0 < size) (h : size ≤ 1024) : pageCount size = 1 := by
  unfold pageCount arenaSize
  omega

theorem wp_largeBlock (h : Inv s live none) (hn : 0 < size) (hcnt : pageCount size < 3840)
    (hpage : Offered s page (pageCount size)) :
    wp noStop e (largeBlock page size) (fun p r => Malloced live size p r ∧
      (p = 0 → page = 0) ∧ HoldsNew s page (pageCount size) r) s := by
  have hfit : size + arenaSize ≤ pageCount size * 4096 := by
    unfold pageCount
    omega
  have hcpos : 0 < pageCount size := by
    unfold pageCount arenaSize
    omega
  unfold largeBlock
  apply wp_call (wp_allocPage hcpos hcnt hpage)
  rintro got _ (⟨rfl, hnull, rfl⟩ | ⟨rfl, hf, rfl⟩)
  · exact wp_pure.mpr ⟨.inl ⟨rfl, h⟩, fun _ => hnull, fun x hx => .inl hx⟩
  · rw [if_pos rfl, wp_modify_bind, wp_modify_bind]
    have hnone : live (page + arenaSize) = none := (h.fresh_free hf (by omega) (by omega)).1
    have hpos : page + arenaSize ≠ 0 := by
      have := hf.pos
      omega
    refine wp_pure.mpr ⟨.inr ⟨hpos, hnone, h.newLarge hf hn hfit, fun a ha ha' => ?_⟩,
      fun h0 => absurd h0 hpos, fun x hx => ?_⟩
    · have hin : page ≤ a ∧ a < page + pageCount size * 4096 := by omega
      simp [hin]
    · obtain rfl | hx := List.mem_cons.mp hx
      · exact .inr ⟨rfl, hf.pos.ne'⟩
      · exact .inl hx

theorem wp_smallBlock (h : Inv s live none) (hn : 0 < size) (hsmall : size ≤ 1024)
    (hpage : Offered s page 1) :
    wp noStop e (smallBlock page size) (fun p r => Malloced live size p r ∧
      (p = 0 → page = 0) ∧ HoldsNew s page 1 r) s := by
  obtain ⟨hfits, hlt⟩ := findDesc_small hsmall
  unfold smallBlock
  apply wp_call (wp_refill h hlt hpage)
  rintro ok r (⟨rfl, hnull, rfl⟩ | ⟨rfl, hnew, o, p, rest, hr, hlist, ho⟩)
  · exact wp_pure.mpr ⟨.inl ⟨rfl, h⟩, fun _ => hnull, fun x hx => .inl hx⟩
  · apply wp_mono (wp_takeBlock hr hlist ho hn hfits)
    rintro q r' ⟨hq, hheld, hr'⟩
    refine ⟨hr', fun h0 => absurd h0 hq, fun x hx => hnew x ?_⟩
    rwa [hheld] at hx

/-- A call of `sysMalloc`, with the pages that the heap holds afterwards. -/
theorem wp_sysMalloc_held (h : Inv s live none) (hcnt : pageCount size < 3840)
    (hpage : Offered s page (pageCount size)) :
    wp noStop e (sysMalloc page size)
      (fun p r => Malloced live size p r ∧ HoldsNew s page (pageCount size) r) s := by
  unfold sysMalloc
  rw [wp_get_bind]
  apply wp_ite
  · exact fun _ => wp_pure.mpr ⟨.inl ⟨rfl, h⟩, fun _ hx => .inl hx⟩
  intro hsize
  have hpos : 0 < size := by
    by_contra hc
    exact hsize fun hx => hc hx.1
  apply wp_ite
  · exact fun _ => wp_mono (wp_largeBlock h hpos hcnt hpage) fun _ _ hr => ⟨hr.1, hr.2.2⟩
  · intro hsmall
    have hle : size ≤ 1024 := not_lt.mp hsmall
    rw [pageCount_small hpos hle] at hpage ⊢
    exact wp_mono (wp_smallBlock h hpos hle hpage) fun _ _ hr => ⟨hr.1, hr.2.2⟩

theorem wp_sysMalloc (h : Inv s live none) (hcnt : pageCount size < 3840)
    (hpage : Offered s page (pageCount size)) :
    wp noStop e (sysMalloc page size) (fun p r => Malloced live size p r) s :=
  wp_mono (wp_sysMalloc_held h hcnt hpage) fun _ _ hr => hr.1

/-- An arena of which all blocks are free is given up. -/
theorem Inv.dropArena {l : List ℕ} (h : Inv s live (some b)) (hb : Small s b d)
    (hfull : (s.arenas b).cnt = blocksPerArena d) (hnodup : l.Nodup)
    (hl : ∀ q, q ∈ l ↔ q ∈ s.freeList d ∧ ∀ k < blocksPerArena d, q ≠ arenaToBlock b d k) :
    Inv (s.without b 1 d l) live none := by
  have hall := h.all_free hb hfull
  have hl' : ∀ q, q ∈ l ↔ q ∈ s.freeList d ∧ blockToArena q ≠ b := by
    intro q
    rw [hl]
    refine and_congr_right fun hq => ?_
    obtain ⟨b', k', hb', hk', rfl⟩ := h.free d q hq
    rw [blockToArena_block (h.aligned _ hb'.held).1 hk']
    constructor
    · rintro hne rfl
      exact hne k' hk' rfl
    · exact fun hne k hk heq => hne (h.block_unique hb' hb hk' hk heq).1
  refine h.drop hb.held (fun b' hb' => (Option.some.inj hb').symm) hnodup hl'
    (fun d' hd' => Option.some.inj (hd'.desc.symm.trans hb.desc)) ?_ fun q n hn _ => hn
  intro q n hn
  refine ⟨hn, ?_⟩
  obtain ⟨-, ⟨b', c, hb', heq, hfit⟩ | ⟨b', d', k, hb', hk, rfl, hle, hnot⟩⟩ := h.sound q n hn
  · refine .inl ⟨b', c, (large_without h hb.held).mpr ⟨?_, hb'⟩, heq, hfit⟩
    rintro rfl
    exact Inv.not_both hb' hb
  · refine .inr ⟨b', d', k, (small_without h hb.held).mpr ⟨?_, hb'⟩, hk, rfl, hle, ?_⟩
    · rintro rfl
      obtain rfl : d' = d := Option.some.inj (hb'.desc.symm.trans hb.desc)
      exact hnot (hall k hk)
    · intro hc
      by_cases hdd : d' = d
      · subst hdd
        exact hnot ((hl' _).mp (by simpa [without] using hc)).1
      · exact hnot (by simpa [without, hdd] using hc)

theorem without_self : s.without b c d (s.freeList d) = s.setHeld (s.held.erase (b, c)) := by
  unfold without setHeld
  congr 1
  funext q
  by_cases hq : q = d <;> simp [hq]

/-- A large block is given up. -/
theorem Inv.dropLarge (h : Inv s live none) (hb : Large s b c) :
    Inv (s.setHeld (s.held.erase (b, c)))
      (fun q => if q = b + arenaSize then none else live q) none := by
  rw [← without_self (d := 0)]
  refine h.drop hb.held (by simp) (h.freeNodup 0) ?_ (fun d' hd' => (Inv.not_both hb hd').elim) ?_ ?_
  · refine fun q => ⟨fun hq => ⟨hq, ?_⟩, And.left⟩
    obtain ⟨b', k', hb', hk', rfl⟩ := h.free 0 q hq
    rw [blockToArena_block (h.aligned _ hb'.held).1 hk']
    rintro rfl
    exact Inv.not_both hb hb'
  · intro q n hn
    have hq : q ≠ b + arenaSize := by
      rintro rfl
      simp at hn
    rw [if_neg hq] at hn
    refine ⟨hn, ?_⟩
    obtain ⟨-, ⟨b', c', hb', heq, hfit⟩ | ⟨b', d', k, hb', hk, rfl, hle, hnot⟩⟩ := h.sound q n hn
    · refine .inl ⟨b', c', (large_without h hb.held).mpr ⟨?_, hb'⟩, heq, hfit⟩
      rintro rfl
      exact hq heq
    · refine .inr ⟨b', d', k, (small_without h hb.held).mpr ⟨?_, hb'⟩, hk, rfl, hle, ?_⟩
      · rintro rfl
        exact Inv.not_both hb hb'
      · rw [without_self]
        exact hnot
  · intro q n hn hback
    have hq : q ≠ b + arenaSize := by
      rintro rfl
      obtain ⟨b', c', hb', heq, -⟩ | ⟨b', d', k, hb', hk, heq, -, -⟩ := hback
      · exact ((large_without h hb.held).mp hb').1 (by omega)
      · obtain ⟨hne, hb'⟩ := (small_without h hb.held).mp hb'
        exact h.large_ne_block hb hb' hk heq
    rw [if_neg hq, hn]

theorem wp_freePage (h : (b, c) ∈ s.held) :
    wp noStop e (freePage b c) (fun _ r => r = s.setHeld (s.held.erase (b, c))) s := by
  unfold freePage
  rw [wp_get_bind, wp_assert_pos h, wp_modify]

theorem wp_freeSmall (h : Inv s live none) (hb : Small s b d) (hk : k < blocksPerArena d)
    (hnot : arenaToBlock b d k ∉ s.freeList d) :
    wp noStop e (freeSmall (arenaToBlock b d k) b d)
      (fun _ r => Inv r (fun q => if q = arenaToBlock b d k then none else live q) none) s := by
  unfold freeSmall
  rw [wp_modify_bind, wp_modify_bind, wp_get_bind]
  have hgive := h.give hb hk hnot
  set r := s.withBlock b d (s.freeList d ++ [arenaToBlock b d k])
    (((s.arenas b).cnt + 1) % 2 ^ 32) s.bytes with hr
  have hstate : ((s.setFree d (s.freeList d ++ [arenaToBlock b d k])).setArena b
      { (s.setFree d (s.freeList d ++ [arenaToBlock b d k])).arenas b with
        cnt := (((s.setFree d (s.freeList d ++ [arenaToBlock b d k])).arenas b).cnt + 1) % 2 ^ 32 })
      = r := rfl
  rw [hstate]
  have hbr : Small r b d := small_withBlock.mpr hb
  apply wp_ite
  · intro hfull
    have hall := hgive.all_free hbr hfull
    apply wp_call (wp_removeBlocks (b := b) (d := d) (blocksPerArena d) 0 r (hgive.freeNodup d)
      fun k' _ hk' => hall k' (by omega))
    rintro _ _ ⟨l, rfl, hl, hmem⟩
    refine wp_mono (wp_freePage hbr.held) ?_
    rintro _ _ rfl
    exact hgive.dropArena hbr hfull hl fun q => (hmem q).trans (and_congr_right fun _ =>
      ⟨fun hx k' hk' => hx k' (Nat.zero_le _) (by omega), fun hx k' _ hk' => hx k' (by omega)⟩)
  · intro hne
    refine wp_pure.mpr (hgive.settle hbr (lt_of_le_of_ne ?_ hne))
    rw [hgive.cnt b d hbr]
    have := Finset.card_filter_le (Finset.range (blocksPerArena d))
      fun j => arenaToBlock b d j ∈ r.freeList d
    rwa [Finset.card_range] at this

theorem wp_sysFree (h : Inv s live none) (hp : live p = some n) :
    wp noStop e (sysFree p) (fun _ r => Inv r (fun q => if q = p then none else live q) none) s := by
  obtain ⟨hn, hback⟩ := h.sound p n hp
  obtain ⟨b, c, hb, rfl, hfit⟩ | ⟨b, d, k, hb, hk, rfl, hle, hnot⟩ := hback
  · have hal := h.aligned _ hb.held
    have hba : blockToArena (b + arenaSize) = b := by
      have := hal.1
      unfold blockToArena arenaSize
      dsimp only at this
      omega
    have hpos : b + arenaSize ≠ 0 := by
      unfold arenaSize
      omega
    unfold sysFree
    rw [wp_assert_pos hpos, wp_get_bind]
    dsimp only
    rw [hba, hb.arena]
    refine wp_mono (wp_freePage hb.held) ?_
    rintro _ _ rfl
    exact h.dropLarge hb
  · have hal := h.aligned _ hb.held
    have hba := blockToArena_block hal.1 hk
    have hpos : arenaToBlock b d k ≠ 0 := by
      have := (block_bounds (b := b) hk).1
      have := hal.2.1
      dsimp only at this
      omega
    unfold sysFree
    rw [wp_assert_pos hpos, wp_get_bind]
    dsimp only
    rw [hba, hb.desc]
    exact wp_freeSmall h hb hk hnot

end Specs

section Law

/-- A heap with the pointers that were returned and not freed, and the sizes asked for. -/
structure State where
  heap : Malloc
  live : ℕ → Option ℕ

variable {f g : State}

inductive Step (f : State) : State → Prop
  | malloc {size page p : ℕ} {r : Malloc} (hcnt : pageCount size < 3840)
      (hpage : Offered f.heap page (pageCount size))
      (hret : Returns () (sysMalloc page size) f.heap p r) :
      Step f ⟨r, if p = 0 then f.live else fun q => if q = p then some size else f.live q⟩
  | free {p n : ℕ} {r : Malloc} (hlive : f.live p = some n)
      (hret : Returns () (sysFree p) f.heap () r) :
      Step f ⟨r, fun q => if q = p then none else f.live q⟩

/-- A heap from which nothing was taken. -/
structure Start (f : State) : Prop where
  free : ∀ d, f.heap.freeList d = []
  held : f.heap.held = []
  live : ∀ p, f.live p = none

structure HeapLaw (f : State) : Prop where
  /-- A live block lies in pages that the heap holds. -/
  inside : ∀ p n, f.live p = some n →
    ∃ x ∈ f.heap.held, x.1 ≤ p ∧ p + n ≤ x.1 + x.2 * 4096
  headers : ∀ p n, f.live p = some n → ∀ x ∈ f.heap.held, p + n ≤ x.1 ∨ x.1 + arenaSize ≤ p
  disjoint : ∀ p n q m, f.live p = some n → f.live q = some m → p ≠ q → p + n ≤ q ∨ q + m ≤ p
  arenas : ∀ b d, Small f.heap b d → (f.heap.arenas b).cnt = (f.heap.freeBlocks b d).card ∧
    ∀ k < blocksPerArena d, arenaToBlock b d k ∉ f.heap.freeList d →
      ∃ n, f.live (arenaToBlock b d k) = some n
  /-- Pages are held exactly as long as a block in them is live. -/
  held_live : ∀ x ∈ f.heap.held, ∃ p n, f.live p = some n ∧ x.1 ≤ p ∧ p < x.1 + x.2 * 4096
  /-- No block of a page that went back is on a free list. -/
  free_held : ∀ d, ∀ p ∈ f.heap.freeList d, (blockToArena p, 1) ∈ f.heap.held
  /-- The next call returns, and a block that it returns is new and filled with zeros. -/
  malloc : ∀ size page, pageCount size < 3840 → Offered f.heap page (pageCount size) →
    (∃ p r, Returns () (sysMalloc page size) f.heap p r) ∧
      ∀ p r, Returns () (sysMalloc page size) f.heap p r → p ≠ 0 →
        f.live p = none ∧ ∀ a, p ≤ a → a < p + size → r.bytes a = 0
  free : ∀ p n, f.live p = some n → ∃ r, Returns () (sysFree p) f.heap () r

theorem Inv.step (h : Inv f.heap f.live none) (hst : Step f g) : Inv g.heap g.live none := by
  cases hst with
  | @malloc size page p r hcnt hpage hret =>
    have hw : wp noStop () (sysMalloc page size) (fun p r => Malloced f.live size p r) f.heap :=
      wp_sysMalloc h hcnt hpage
    obtain ⟨rfl, hr⟩ | ⟨hp, -, hr, -⟩ := hret.of_wp hw
    · exact hr
    · dsimp only
      rwa [if_neg hp]
  | @free p n r hlive hret =>
    exact hret.of_wp (wp_sysFree h hlive)

theorem Inv.law (h : Inv f.heap f.live none) : HeapLaw f where
  inside p n hp := by
    obtain ⟨x, hx, hlo, hhi⟩ := h.live_mem hp
    exact ⟨x, hx, by omega, hhi⟩
  headers p n hp x hx := by
    obtain ⟨y, hy, hlo, hhi⟩ := h.live_mem hp
    by_cases hxy : x = y
    · exact .inr (hxy ▸ hlo)
    · have := h.away x hx y hy hxy
      have hpos := (h.aligned x hx).2.2
      unfold Away arenaSize at *
      omega
  disjoint p n q m hp hq hne := h.disjoint hp hq hne
  arenas b d hb := ⟨h.cnt b d hb, fun k hk hnot => (h.full b d hb k hk).resolve_left hnot⟩
  held_live x hx := by
    obtain hl | ⟨hc, d, hd⟩ := h.kind x hx
    · obtain ⟨n, hn⟩ := h.liveLarge _ _ hl
      have hpos := (h.aligned x hx).2.2
      exact ⟨_, n, hn, by omega, by unfold arenaSize; omega⟩
    · -- not all blocks are free
      have hlt := h.used _ d hd (by simp)
      rw [h.cnt _ d hd] at hlt
      obtain ⟨k, hk, hnot⟩ : ∃ k ∈ Finset.range (blocksPerArena d), k ∉ f.heap.freeBlocks x.1 d := by
        by_contra hc
        push Not at hc
        have := Finset.card_le_card hc
        rw [Finset.card_range] at this
        omega
      have hkl := Finset.mem_range.mp hk
      have hfree : arenaToBlock x.1 d k ∉ f.heap.freeList d := fun hm =>
        hnot (Finset.mem_filter.mpr ⟨hk, hm⟩)
      obtain ⟨n, hn⟩ := (h.full _ d hd k hkl).resolve_left hfree
      obtain ⟨hlo, hhi⟩ := block_bounds (b := x.1) hkl
      have hs := blockSize_pos d
      exact ⟨_, n, hn, by omega, by omega⟩
  free_held d p hp := by
    obtain ⟨b, k, hb, hk, rfl⟩ := h.free d p hp
    rw [blockToArena_block (h.aligned _ hb.held).1 hk]
    exact hb.held
  malloc size page hcnt hpage := by
    have hw := wp_sysMalloc (e := ()) h hcnt hpage
    obtain ⟨p, r, hret, -⟩ := wp_noStop_returns hw
    refine ⟨⟨p, r, hret⟩, fun p r hret hp => ?_⟩
    obtain ⟨hz, -⟩ | ⟨-, hnone, -, hzero⟩ := hret.of_wp hw
    · exact absurd hz hp
    · exact ⟨hnone, hzero⟩
  free p n hp := by
    obtain ⟨_, r, hret, -⟩ := wp_noStop_returns (wp_sysFree (e := ()) h hp)
    exact ⟨r, hret⟩

theorem Start.inv (h : Start f) : Inv f.heap f.live none := by
  have hsmall : ∀ b d, ¬Small f.heap b d := fun b d hb => by simpa [h.held] using hb.held
  have hlarge : ∀ b c, ¬Large f.heap b c := fun b c hb => by simpa [h.held] using hb.held
  refine ⟨?_, ?_, ?_, ?_, ?_, ?_, ?_, ?_, ?_, ?_, ?_⟩
  · simp [h.held]
  · simp [h.held]
  · simp [h.held]
  · simp [h.held]
  · exact fun b c hb => (hlarge b c hb).elim
  · exact fun b d hb => (hsmall b d hb).elim
  · exact fun b d hb => (hsmall b d hb).elim
  · simp [h.free]
  · simp [h.free]
  · simp [h.live]
  · exact fun b d hb => (hsmall b d hb).elim

/-- In every state of a run that starts with an empty heap. -/
theorem heap_law (h : Run Step f g) (hs : Start f) : HeapLaw g :=
  (h.invariant (I := fun f => Inv f.heap f.live none) (fun _ _ hI hst => hI.step hst) hs.inv).law

/-- An empty heap in a pool of 1 MB. -/
def emptyHeap : State where
  heap :=
    { arenas := fun _ => ⟨none, 0, false⟩
      freeList := fun _ => []
      bytes := fun _ => 165
      held := []
      poolSize := 0x100000 }
  live _ := none

/-- A small block is allocated. -/
def oneBlock : State :=
  ⟨(sysMalloc 0xc0100000 1000 () 0 emptyHeap.heap).state,
    fun q => if q = 0xc010000c then some 1000 else emptyHeap.live q⟩

/-- A second one of the same size. -/
def twoBlocks : State :=
  ⟨(sysMalloc 0 900 () 0 oneBlock.heap).state,
    fun q => if q = 0xc010040c then some 900 else oneBlock.live q⟩

/-- The first one is freed. -/
def freedBlock : State :=
  ⟨(sysFree 0xc010000c () 0 twoBlocks.heap).state,
    fun q => if q = 0xc010000c then none else twoBlocks.live q⟩

theorem heap_law_sample : Run Step emptyHeap freedBlock ∧ HeapLaw freedBlock := by
  have h₁ : Step emptyHeap oneBlock :=
    .malloc (p := 0xc010000c) (by decide)
      (.inr ⟨by decide, by decide, by decide, fun _ hx => by simp [emptyHeap] at hx⟩)
      (.of_value (by decide +kernel))
  have h₂ : Step oneBlock twoBlocks :=
    .malloc (p := 0xc010040c) (by decide) (.inl rfl) (.of_value (by decide +kernel))
  have h₃ : Step twoBlocks freedBlock :=
    .free (p := 0xc010000c) (n := 1000) (by decide) (.of_value (by decide +kernel))
  have h := ((Relation.ReflTransGen.single h₁).tail h₂).tail h₃
  exact ⟨h, heap_law h ⟨fun _ => rfl, rfl, fun _ => rfl⟩⟩

end Law

end Gogoos.Malloc
