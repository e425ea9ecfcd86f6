import Gogoos.Kernel.Malloc

/-!
# The invariant of the heap

The ranges of pages that the heap holds are arenas of blocks of one size or hold one large
block, and every block of an arena is free or live. One step is an operation on such a state:
a new arena, a block taken or given back, an arena that is given up.
-/

namespace Gogoos

section Blocks

variable {b b' d d' k k' : ℕ}

theorem blockSize_pos (d : ℕ) : 16 ≤ blockSize d := by
  change 16 ≤ 16 * 2 ^ d
  have := Nat.one_le_two_pow (n := d)
  omega

/-- The blocks of an arena lie in its page, behind the header. -/
theorem block_bounds (hk : k < blocksPerArena d) :
    b + arenaSize ≤ arenaToBlock b d k ∧ arenaToBlock b d k + blockSize d ≤ b + 4096 := by
  have hmul : blocksPerArena d * blockSize d ≤ 4096 - arenaSize := Nat.div_mul_le_self _ _
  have hle : (k + 1) * blockSize d ≤ blocksPerArena d * blockSize d := Nat.mul_le_mul_right _ hk
  have hadd : (k + 1) * blockSize d = k * blockSize d + blockSize d := Nat.succ_mul _ _
  unfold arenaToBlock arenaSize at *
  omega

theorem blockToArena_block (hb : b % 4096 = 0) (hk : k < blocksPerArena d) :
    blockToArena (arenaToBlock b d k) = b := by
  obtain ⟨hlo, hhi⟩ := block_bounds (b := b) hk
  have := blockSize_pos d
  unfold blockToArena
  omega

theorem blocks_apart (h : k < k') : arenaToBlock b d k + blockSize d ≤ arenaToBlock b d k' := by
  have hle : (k + 1) * blockSize d ≤ k' * blockSize d := Nat.mul_le_mul_right _ h
  have hadd : (k + 1) * blockSize d = k * blockSize d + blockSize d := Nat.succ_mul _ _
  unfold arenaToBlock
  omega

theorem block_inj (h : arenaToBlock b d k = arenaToBlock b d k') : k = k' := by
  have hs := blockSize_pos d
  rcases lt_trichotomy k k' with hlt | heq | hlt
  · have := blocks_apart (b := b) (d := d) hlt
    omega
  · exact heq
  · have := blocks_apart (b := b) (d := d) hlt
    omega

theorem blocksPerArena_lt (d : ℕ) : blocksPerArena d < 256 := by
  have hdiv : blocksPerArena d = 4084 / blockSize d := rfl
  have hle : 4084 / blockSize d ≤ 4084 / 16 := Nat.div_le_div_left (blockSize_pos d) (by norm_num)
  omega

theorem blocksPerArena_pos (hd : d < 7) : 0 < blocksPerArena d := by
  interval_cases d <;> decide

end Blocks

namespace Malloc

variable {s : Malloc} {live : ℕ → Option ℕ} {o : Option ℕ} {b c d k p n : ℕ}

/-- An arena of blocks of one size. -/
structure Small (s : Malloc) (b d : ℕ) : Prop where
  held : (b, 1) ∈ s.held
  desc : (s.arenas b).desc = some d
  large : (s.arenas b).large = false
  lt : d < 7

/-- Pages for one large block. -/
structure Large (s : Malloc) (b c : ℕ) : Prop where
  held : (b, c) ∈ s.held
  arena : s.arenas b = ⟨none, c, true⟩

/-- The free blocks of an arena. -/
def freeBlocks (s : Malloc) (b d : ℕ) : Finset ℕ :=
  (Finset.range (blocksPerArena d)).filter fun k => arenaToBlock b d k ∈ s.freeList d

/-- Two ranges of pages are disjoint. -/
def Away (x y : ℕ × ℕ) : Prop := x.1 + x.2 * 4096 ≤ y.1 ∨ y.1 + y.2 * 4096 ≤ x.1

/-- The pointer `p` to `n` bytes is that of a large block or of a block that is not free. -/
def Backed (s : Malloc) (p n : ℕ) : Prop :=
  (∃ b c, Large s b c ∧ p = b + arenaSize ∧ n + arenaSize ≤ c * 4096) ∨
    ∃ b d k, Small s b d ∧ k < blocksPerArena d ∧ p = arenaToBlock b d k ∧ n ≤ blockSize d ∧
      p ∉ s.freeList d

/-- `live` has the pointers that were returned and not freed, with the size asked for. Within
an operation all blocks of the arena `o` may be free. -/
structure Inv (s : Malloc) (live : ℕ → Option ℕ) (o : Option ℕ) : Prop where
  aligned : ∀ x ∈ s.held, x.1 % 4096 = 0 ∧ 0 < x.1 ∧ 0 < x.2
  nodup : s.held.Nodup
  away : ∀ x ∈ s.held, ∀ y ∈ s.held, x ≠ y → Away x y
  kind : ∀ x ∈ s.held, Large s x.1 x.2 ∨ x.2 = 1 ∧ ∃ d, Small s x.1 d
  liveLarge : ∀ b c, Large s b c → ∃ n, live (b + arenaSize) = some n
  cnt : ∀ b d, Small s b d → (s.arenas b).cnt = (s.freeBlocks b d).card
  used : ∀ b d, Small s b d → o ≠ some b → (s.arenas b).cnt < blocksPerArena d
  free : ∀ d, ∀ p ∈ s.freeList d, ∃ b k, Small s b d ∧ k < blocksPerArena d ∧ p = arenaToBlock b d k
  freeNodup : ∀ d, (s.freeList d).Nodup
  sound : ∀ p n, live p = some n → 0 < n ∧ Backed s p n
  full : ∀ b d, Small s b d → ∀ k < blocksPerArena d,
    arenaToBlock b d k ∈ s.freeList d ∨ ∃ n, live (arenaToBlock b d k) = some n

section Basics

theorem Inv.base_inj (h : Inv s live o) {x y : ℕ × ℕ} (hx : x ∈ s.held) (hy : y ∈ s.held)
    (heq : x.1 = y.1) : x = y := by
  by_contra hne
  have hxp := (h.aligned x hx).2.2
  have hyp := (h.aligned y hy).2.2
  have := h.away x hx y hy hne
  unfold Away at this
  omega

theorem Inv.not_both (hl : Large s b c) (hs : Small s b d) : False := by
  have := hs.desc
  rw [hl.arena] at this
  exact absurd this (by simp)

/-- A block of an arena does not begin where a large block does. -/
theorem Inv.large_ne_block {b' d' : ℕ} (h : Inv s live o) (hl : Large s b c) (hs : Small s b' d')
    (hk : k < blocksPerArena d') : b + arenaSize ≠ arenaToBlock b' d' k := by
  intro heq
  have hbb : b ≠ b' := by
    rintro rfl
    exact Inv.not_both hl hs
  have haway := h.away _ hl.held _ hs.held fun hx => hbb (congrArg Prod.fst hx)
  obtain ⟨hlo, hhi⟩ := block_bounds (b := b') hk
  have hpos := blockSize_pos d'
  have hm := (h.aligned _ hl.held).2.2
  unfold Away arenaSize at *
  dsimp only at haway hm
  omega

/-- All blocks of a full arena are free. -/
theorem Inv.all_free (h : Inv s live o) (hb : Small s b d)
    (hfull : (s.arenas b).cnt = blocksPerArena d) :
    ∀ k < blocksPerArena d, arenaToBlock b d k ∈ s.freeList d := by
  intro k hk
  have hcard : (s.freeBlocks b d).card = (Finset.range (blocksPerArena d)).card := by
    rw [← h.cnt b d hb, hfull, Finset.card_range]
  have heq : s.freeBlocks b d = Finset.range (blocksPerArena d) :=
    Finset.eq_of_subset_of_card_le (Finset.filter_subset _ _) hcard.ge
  have hmem : k ∈ s.freeBlocks b d := heq ▸ Finset.mem_range.mpr hk
  exact (Finset.mem_filter.mp hmem).2

/-- The blocks of one address are blocks of one arena. -/
theorem Inv.block_unique {b' d' k' : ℕ} (h : Inv s live o) (hs : Small s b d)
    (hs' : Small s b' d') (hk : k < blocksPerArena d) (hk' : k' < blocksPerArena d')
    (heq : arenaToBlock b d k = arenaToBlock b' d' k') : b = b' ∧ d = d' ∧ k = k' := by
  have hb := blockToArena_block (h.aligned _ hs.held).1 hk
  have hb' := blockToArena_block (h.aligned _ hs'.held).1 hk'
  have hbb : b = b' := hb.symm.trans ((congrArg blockToArena heq).trans hb')
  subst hbb
  have hdd : d = d' := Option.some.inj (hs.desc.symm.trans hs'.desc)
  subst hdd
  exact ⟨rfl, rfl, block_inj heq⟩

/-- A range that is not away from a held page holds no live pointer and no free block. -/
theorem Inv.live_mem (h : Inv s live o) (hl : live p = some n) :
    ∃ x ∈ s.held, x.1 + arenaSize ≤ p ∧ p + n ≤ x.1 + x.2 * 4096 := by
  obtain ⟨-, ⟨b, c, hb, rfl, hn⟩ | ⟨b, d, k, hb, hk, rfl, hn, -⟩⟩ := h.sound p n hl
  · exact ⟨_, hb.held, le_rfl, by dsimp only; omega⟩
  · obtain ⟨hlo, hhi⟩ := block_bounds (b := b) hk
    exact ⟨_, hb.held, hlo, by dsimp only; omega⟩

/-- Live blocks do not overlap. -/
theorem Inv.disjoint {q m : ℕ} (h : Inv s live o) (hp : live p = some n) (hq : live q = some m)
    (hne : p ≠ q) : p + n ≤ q ∨ q + m ≤ p := by
  obtain ⟨-, ⟨b, c, hb, rfl, hn⟩ | ⟨b, d, k, hb, hk, rfl, hn, -⟩⟩ := h.sound p n hp <;>
    obtain ⟨-, ⟨b', c', hb', rfl, hn'⟩ | ⟨b', d', k', hb', hk', rfl, hn', -⟩⟩ := h.sound q m hq
  · have hbb : b ≠ b' := by
      rintro rfl
      exact hne rfl
    have := h.away _ hb.held _ hb'.held fun hc => hbb (congrArg Prod.fst hc)
    unfold Away at this
    dsimp only at this
    omega
  · have hbb : b ≠ b' := by
      rintro rfl
      exact Inv.not_both hb hb'
    have := h.away _ hb.held _ hb'.held fun hc => hbb (congrArg Prod.fst hc)
    obtain ⟨hlo, hhi⟩ := block_bounds (b := b') hk'
    unfold Away at this
    dsimp only at this
    omega
  · have hbb : b ≠ b' := by
      rintro rfl
      exact Inv.not_both hb' hb
    have := h.away _ hb.held _ hb'.held fun hc => hbb (congrArg Prod.fst hc)
    obtain ⟨hlo, hhi⟩ := block_bounds (b := b) hk
    unfold Away at this
    dsimp only at this
    omega
  · by_cases hbb : b = b'
    · subst hbb
      obtain rfl : d = d' := Option.some.inj (hb.desc.symm.trans hb'.desc)
      rcases lt_trichotomy k k' with hlt | rfl | hlt
      · have := blocks_apart (b := b) (d := d) hlt
        omega
      · exact absurd rfl hne
      · have := blocks_apart (b := b) (d := d) hlt
        omega
    · have := h.away _ hb.held _ hb'.held fun hc => hbb (congrArg Prod.fst hc)
      obtain ⟨hlo, hhi⟩ := block_bounds (b := b) hk
      obtain ⟨hlo', hhi'⟩ := block_bounds (b := b') hk'
      unfold Away at this
      dsimp only at this
      omega

end Basics

section NewPages

/-- A range of pages that the heap does not hold. -/
structure Fresh (s : Malloc) (page c : ℕ) : Prop where
  aligned : page % 4096 = 0
  pos : 0 < page
  cnt : 0 < c
  away : ∀ x ∈ s.held, Away (page, c) x

variable {page : ℕ} {a : Arena} {bytes : ℕ → UInt8}

/-- The state with a new range of pages. -/
def withPages (s : Malloc) (page c : ℕ) (a : Arena) (bytes : ℕ → UInt8) : Malloc :=
  { s with
    held := (page, c) :: s.held
    arenas := fun p => if p = page then a else s.arenas p
    bytes := bytes }

theorem Fresh.ne (h : Fresh s page c) {x : ℕ × ℕ} (hx : x ∈ s.held) (hpos : 0 < x.2) :
    x.1 ≠ page := by
  rintro rfl
  have hc := h.cnt
  have := h.away x hx
  unfold Away at this
  dsimp only at this
  omega

theorem small_withPages (hb : b ≠ page) : Small (s.withPages page c a bytes) b d ↔ Small s b d := by
  constructor
  · rintro ⟨h, hd, hl, hlt⟩
    exact ⟨by simpa [withPages, hb] using h, by simpa [withPages, hb] using hd,
      by simpa [withPages, hb] using hl, hlt⟩
  · rintro ⟨h, hd, hl, hlt⟩
    exact ⟨by simpa [withPages] using .inr h, by simpa [withPages, hb] using hd,
      by simpa [withPages, hb] using hl, hlt⟩

theorem large_withPages {n : ℕ} (hb : b ≠ page) :
    Large (s.withPages page c a bytes) b n ↔ Large s b n := by
  constructor
  · rintro ⟨h, ha⟩
    exact ⟨by simpa [withPages, hb] using h, by simpa [withPages, hb] using ha⟩
  · rintro ⟨h, ha⟩
    exact ⟨by simpa [withPages] using .inr h, by simpa [withPages, hb] using ha⟩

theorem small_setFree {d' : ℕ} {l : List ℕ} : Small (s.setFree d' l) b d ↔ Small s b d :=
  ⟨fun h => ⟨h.held, h.desc, h.large, h.lt⟩, fun h => ⟨h.held, h.desc, h.large, h.lt⟩⟩

theorem large_setFree {d' : ℕ} {l : List ℕ} : Large (s.setFree d' l) b c ↔ Large s b c :=
  ⟨fun h => ⟨h.held, h.arena⟩, fun h => ⟨h.held, h.arena⟩⟩

theorem Inv.fresh_ne (h : Inv s live o) (hf : Fresh s page c) :
    (∀ b d, Small s b d → b ≠ page) ∧ ∀ b n, Large s b n → b ≠ page :=
  ⟨fun _ _ hb => hf.ne hb.held (h.aligned _ hb.held).2.2,
    fun _ _ hb => hf.ne hb.held (h.aligned _ hb.held).2.2⟩

theorem Inv.backed_withPages (h : Inv s live o) (hf : Fresh s page c) (hb : Backed s p n) :
    Backed (s.withPages page c a bytes) p n := by
  obtain ⟨hsmall, hlarge⟩ := h.fresh_ne hf
  obtain ⟨b, m, hb, heq, hn⟩ | ⟨b, d, k, hb, hk, heq, hn, hnot⟩ := hb
  · exact .inl ⟨b, m, (large_withPages (hlarge b m hb)).mpr hb, heq, hn⟩
  · exact .inr ⟨b, d, k, (small_withPages (hsmall b d hb)).mpr hb, hk, heq, hn, hnot⟩

/-- No live block and no free block lies in a range that is new. -/
theorem Inv.fresh_free (h : Inv s live o) (hf : Fresh s page c) (hp : page ≤ p)
    (hpc : p < page + c * 4096) : live p = none ∧ ∀ d, p ∉ s.freeList d := by
  constructor
  · cases hl : live p with
    | none => rfl
    | some n =>
      obtain ⟨x, hx, hlo, hhi⟩ := h.live_mem hl
      have := hf.away x hx
      have hn := (h.sound p n hl).1
      unfold Away at this
      dsimp only at this
      omega
  · intro d hd
    obtain ⟨b, k, hb, hk, rfl⟩ := h.free d p hd
    have := hf.away _ hb.held
    obtain ⟨hlo, hhi⟩ := block_bounds (b := b) hk
    have hs := blockSize_pos d
    unfold Away at this
    dsimp only at this
    omega

/-- The parts of the invariant about the ranges alone. -/
theorem Inv.held_withPages (h : Inv s live o) (hf : Fresh s page c) :
    (∀ x ∈ (page, c) :: s.held, x.1 % 4096 = 0 ∧ 0 < x.1 ∧ 0 < x.2) ∧
      ((page, c) :: s.held).Nodup ∧
      ∀ x ∈ (page, c) :: s.held, ∀ y ∈ (page, c) :: s.held, x ≠ y → Away x y := by
  refine ⟨?_, ?_, ?_⟩
  · intro x hx
    obtain rfl | hx := List.mem_cons.mp hx
    · exact ⟨hf.aligned, hf.pos, hf.cnt⟩
    · exact h.aligned x hx
  · refine List.nodup_cons.mpr ⟨fun hc => ?_, h.nodup⟩
    exact hf.ne hc hf.cnt rfl
  · intro x hx y hy hne
    obtain rfl | hx := List.mem_cons.mp hx <;> obtain rfl | hy := List.mem_cons.mp hy
    · exact absurd rfl hne
    · exact hf.away y hy
    · exact (hf.away x hx).symm
    · exact h.away x hx y hy hne

/-- A large block. -/
theorem Inv.newLarge (h : Inv s live none) (hf : Fresh s page c) (hn : 0 < n)
    (hfit : n + arenaSize ≤ c * 4096) :
    Inv (s.withPages page c ⟨none, c, true⟩ bytes)
      (fun p => if p = page + arenaSize then some n else live p) none := by
  obtain ⟨hsmall, hlarge⟩ := h.fresh_ne hf
  obtain ⟨haligned, hnodup, haway⟩ := h.held_withPages hf
  have hold : ∀ b d, Small (s.withPages page c ⟨none, c, true⟩ bytes) b d → b ≠ page ∧
      Small s b d := by
    intro b d hb
    have hne : b ≠ page := by
      rintro rfl
      have := hb.desc
      simp [withPages] at this
    exact ⟨hne, (small_withPages hne).mp hb⟩
  have hnone : live (page + arenaSize) = none :=
    (h.fresh_free hf (by omega) (by omega)).1
  refine ⟨haligned, hnodup, haway, ?_, ?_, ?_, ?_, ?_, h.freeNodup, ?_, ?_⟩
  · intro x hx
    obtain rfl | hx := List.mem_cons.mp hx
    · exact .inl ⟨List.mem_cons_self, by simp [withPages]⟩
    · refine (h.kind x hx).imp (fun hl => ?_) fun ⟨hc, d, hd⟩ => ⟨hc, d, ?_⟩
      · exact (large_withPages (hlarge _ _ hl)).mpr hl
      · exact (small_withPages (hsmall _ _ hd)).mpr hd
  · intro b m hb
    by_cases hbp : b = page
    · exact ⟨n, by simp [hbp]⟩
    · obtain ⟨k, hk⟩ := h.liveLarge b m ((large_withPages hbp).mp hb)
      exact ⟨k, by simpa [hbp] using hk⟩
  · intro b d hb
    obtain ⟨hne, hb⟩ := hold b d hb
    change (if b = page then _ else s.arenas b).cnt = (s.freeBlocks b d).card
    rw [if_neg hne]
    exact h.cnt b d hb
  · intro b d hb ho
    obtain ⟨hne, hb⟩ := hold b d hb
    simpa [withPages, hne] using h.used b d hb ho
  · intro d p hp
    obtain ⟨b, k, hb, hk, heq⟩ := h.free d p hp
    exact ⟨b, k, (small_withPages (hsmall b d hb)).mpr hb, hk, heq⟩
  · intro p m hm
    by_cases hp : p = page + arenaSize
    · simp only [hp, if_true, Option.some.injEq] at hm
      subst hm
      exact ⟨hn, .inl ⟨page, c, ⟨List.mem_cons_self, by simp [withPages]⟩, hp, hfit⟩⟩
    · obtain ⟨hm0, hb⟩ := h.sound p m (by simpa [hp] using hm)
      exact ⟨hm0, h.backed_withPages hf hb⟩
  · intro b d hb k hk
    obtain ⟨-, hb⟩ := hold b d hb
    refine (h.full b d hb k hk).imp (fun hfree => hfree) fun ⟨m, hm⟩ => ⟨m, ?_⟩
    have hne : arenaToBlock b d k ≠ page + arenaSize := by
      intro hc
      rw [hc, hnone] at hm
      exact absurd hm (by simp)
    simpa [hne] using hm

/-- The blocks of an arena, in the order in which they are put on the free list. -/
def allBlocks (b d : ℕ) : List ℕ := (List.range (blocksPerArena d)).map (arenaToBlock b d)

theorem mem_allBlocks : p ∈ allBlocks b d ↔ ∃ k < blocksPerArena d, p = arenaToBlock b d k := by
  simp [allBlocks, eq_comm]

theorem allBlocks_nodup : (allBlocks b d).Nodup :=
  (List.nodup_map_iff fun _ _ h => block_inj h).mpr List.nodup_range

/-- A new arena. All its blocks are free. -/
theorem Inv.newArena (bytes : ℕ → UInt8) (h : Inv s live none) (hf : Fresh s page 1) (hd : d < 7)
    (hempty : s.freeList d = []) :
    Inv ((s.withPages page 1 ⟨some d, blocksPerArena d, false⟩ bytes).setFree d (allBlocks page d))
      live (some page) := by
  obtain ⟨hsmall, hlarge⟩ := h.fresh_ne hf
  obtain ⟨haligned, hnodup, haway⟩ := h.held_withPages hf
  set s' := (s.withPages page 1 ⟨some d, blocksPerArena d, false⟩ bytes).setFree d
    (allBlocks page d) with hs'
  have hnew : Small s' page d := ⟨by simp [s', withPages], by simp [s', withPages],
    by simp [s', withPages], hd⟩
  have hold : ∀ b, b ≠ page → ∀ d', Small s' b d' ↔ Small s b d' := fun b hb d' =>
    small_setFree.trans (small_withPages hb)
  have holdL : ∀ b m, Large s' b m ↔ b ≠ page ∧ Large s b m := by
    intro b m
    by_cases hb : b = page
    · constructor
      · intro hx
        have := hx.arena
        simp [s', withPages, hb] at this
      · exact fun hx => absurd hb hx.1
    · have hiff : Large s' b m ↔ Large s b m := large_setFree.trans (large_withPages hb)
      exact ⟨fun hx => ⟨hb, hiff.mp hx⟩, fun hx => hiff.mpr hx.2⟩
  have hdesc : ∀ d', Small s' page d' → d' = d := by
    intro d' hx
    exact Option.some.inj (hx.desc.symm.trans hnew.desc)
  -- the blocks of the other arenas of this size are all live
  have hfree : ∀ b d', Small s b d' → ∀ k < blocksPerArena d',
      (arenaToBlock b d' k ∈ s'.freeList d' ↔ arenaToBlock b d' k ∈ s.freeList d') := by
    intro b d' hb k hk
    by_cases hdd : d' = d
    · subst hdd
      have hnot : arenaToBlock b d' k ∉ allBlocks page d' := by
        intro hc
        obtain ⟨k', hk', heq⟩ := mem_allBlocks.mp hc
        have hbp := blockToArena_block (h.aligned _ hb.held).1 hk
        rw [heq, blockToArena_block hf.aligned hk'] at hbp
        exact hsmall b d' hb hbp.symm
      simp [s', hempty, hnot]
    · simp [s', withPages, hdd]
  refine ⟨haligned, hnodup, haway, ?_, ?_, ?_, ?_, ?_, ?_, ?_, ?_⟩
  · intro x hx
    obtain rfl | hx := List.mem_cons.mp hx
    · exact .inr ⟨rfl, d, hnew⟩
    · refine (h.kind x hx).imp (fun hl => ?_) fun ⟨hc, d', hd'⟩ => ⟨hc, d', ?_⟩
      · exact (holdL _ _).mpr ⟨hlarge _ _ hl, hl⟩
      · exact (hold _ (hsmall _ _ hd') _).mpr hd'
  · exact fun b m hb => h.liveLarge b m ((holdL b m).mp hb).2
  · intro b d' hb
    by_cases hbp : b = page
    · subst hbp
      obtain rfl := hdesc d' hb
      have hall : s'.freeBlocks b d' = Finset.range (blocksPerArena d') := by
        refine Finset.filter_true_of_mem fun k hk => ?_
        have hmem : arenaToBlock b d' k ∈ allBlocks b d' :=
          mem_allBlocks.mpr ⟨k, Finset.mem_range.mp hk, rfl⟩
        simpa [s'] using hmem
      have harena : s'.arenas b = ⟨some d', blocksPerArena d', false⟩ := by simp [s', withPages]
      rw [hall, harena, Finset.card_range]
    · have hb' := (hold b hbp d').mp hb
      have hsame : s'.freeBlocks b d' = s.freeBlocks b d' :=
        Finset.filter_congr fun k hk => hfree b d' hb' k (Finset.mem_range.mp hk)
      rw [hsame]
      simpa [s', withPages, hbp] using h.cnt b d' hb'
  · intro b d' hb ho
    have hbp : b ≠ page := fun hc => ho (by rw [hc])
    simpa [s', withPages, hbp] using h.used b d' ((hold b hbp d').mp hb) (by simp)
  · intro d' p hp
    by_cases hdd : d' = d
    · subst hdd
      obtain ⟨k, hk, rfl⟩ := mem_allBlocks.mp (show p ∈ allBlocks page d' by simpa [s'] using hp)
      exact ⟨page, k, hnew, hk, rfl⟩
    · obtain ⟨b, k, hb, hk, heq⟩ := h.free d' p (by simpa [s', withPages, hdd] using hp)
      exact ⟨b, k, (hold b (hsmall b d' hb) d').mpr hb, hk, heq⟩
  · intro d'
    by_cases hdd : d' = d
    · simpa [s', hdd] using allBlocks_nodup
    · simpa [s', withPages, hdd] using h.freeNodup d'
  · intro p m hm
    obtain ⟨hm0, ⟨b, c, hb, heq, hn⟩ | ⟨b, d', k, hb, hk, rfl, hn, hnot⟩⟩ := h.sound p m hm
    · exact ⟨hm0, .inl ⟨b, c, (holdL b c).mpr ⟨hlarge b c hb, hb⟩, heq, hn⟩⟩
    · exact ⟨hm0, .inr ⟨b, d', k, (hold b (hsmall b d' hb) d').mpr hb, hk, rfl, hn,
        fun hc => hnot ((hfree b d' hb k hk).mp hc)⟩⟩
  · intro b d' hb k hk
    by_cases hbp : b = page
    · subst hbp
      obtain rfl := hdesc d' hb
      exact .inl (by simpa [s'] using mem_allBlocks.mpr ⟨k, hk, rfl⟩)
    · have hb' := (hold b hbp d').mp hb
      exact (h.full b d' hb' k hk).imp_left (hfree b d' hb' k hk).mpr

end NewPages

section OneBlock

variable {l : List ℕ} {cnt : ℕ} {bytes : ℕ → UInt8} {live' : ℕ → Option ℕ} {o' : Option ℕ}

/-- The state in which a block of the arena `b` was taken or given back. -/
def withBlock (s : Malloc) (b d : ℕ) (l : List ℕ) (cnt : ℕ) (bytes : ℕ → UInt8) : Malloc :=
  { s with
    freeList := fun q => if q = d then l else s.freeList q
    arenas := fun q => if q = b then { s.arenas b with cnt := cnt } else s.arenas q
    bytes := bytes }

theorem small_withBlock {b' d' : ℕ} :
    Small (s.withBlock b d l cnt bytes) b' d' ↔ Small s b' d' := by
  have hdesc : ((s.withBlock b d l cnt bytes).arenas b').desc = (s.arenas b').desc := by
    by_cases hb : b' = b <;> simp [withBlock, hb]
  have hlarge : ((s.withBlock b d l cnt bytes).arenas b').large = (s.arenas b').large := by
    by_cases hb : b' = b <;> simp [withBlock, hb]
  constructor
  · rintro ⟨h₁, h₂, h₃, h₄⟩
    exact ⟨h₁, hdesc ▸ h₂, hlarge ▸ h₃, h₄⟩
  · rintro ⟨h₁, h₂, h₃, h₄⟩
    exact ⟨h₁, hdesc ▸ h₂, hlarge ▸ h₃, h₄⟩

theorem large_withBlock {b' m : ℕ} (hb : Small s b d) :
    Large (s.withBlock b d l cnt bytes) b' m ↔ Large s b' m := by
  by_cases hbb : b' = b
  · subst hbb
    constructor
    · rintro ⟨-, ha⟩
      have := hb.desc
      simp [withBlock] at ha
      simp [this] at ha
    · exact fun hl => (Inv.not_both hl hb).elim
  · constructor
    · rintro ⟨h₁, h₂⟩
      exact ⟨h₁, by simpa [withBlock, hbb] using h₂⟩
    · rintro ⟨h₁, h₂⟩
      exact ⟨h₁, by simpa [withBlock, hbb] using h₂⟩

/-- One block changes between free and live; its arena counts again. -/
theorem Inv.change (h : Inv s live o) (hb : Small s b d) (hk : k < blocksPerArena d)
    (hl : ∀ q, q ≠ arenaToBlock b d k → (q ∈ l ↔ q ∈ s.freeList d)) (hnodup : l.Nodup)
    (hlive : ∀ q, q ≠ arenaToBlock b d k → live' q = live q)
    (hcnt : cnt = ((s.withBlock b d l cnt bytes).freeBlocks b d).card)
    (hused : o' ≠ some b → cnt < blocksPerArena d)
    (ho : ∀ b', b' ≠ b → o' ≠ some b' → o ≠ some b')
    (hp : (arenaToBlock b d k ∈ l ∧ live' (arenaToBlock b d k) = none) ∨
      (arenaToBlock b d k ∉ l ∧ ∃ n, live' (arenaToBlock b d k) = some n ∧ 0 < n ∧
        n ≤ blockSize d)) :
    Inv (s.withBlock b d l cnt bytes) live' o' := by
  set s' := s.withBlock b d l cnt bytes with hs'
  have hsmall : ∀ b' d', Small s' b' d' ↔ Small s b' d' := fun _ _ => small_withBlock
  have hlarge : ∀ b' m, Large s' b' m ↔ Large s b' m := fun _ _ => large_withBlock hb
  have hlist : ∀ d' q, q ≠ arenaToBlock b d k → (q ∈ s'.freeList d' ↔ q ∈ s.freeList d') := by
    intro d' q hq
    by_cases hd : d' = d
    · subst hd
      simpa [s', withBlock] using hl q hq
    · simp [s', withBlock, hd]
  have hother : ∀ b' d', Small s b' d' → b' ≠ b → ∀ k' < blocksPerArena d',
      arenaToBlock b' d' k' ≠ arenaToBlock b d k := fun b' d' hb' hne k' hk' heq =>
    hne (h.block_unique hb' hb hk' hk heq).1
  have hpl : arenaToBlock b d k ∈ s'.freeList d ↔ arenaToBlock b d k ∈ l := by
    simp [s', withBlock]
  refine ⟨h.aligned, h.nodup, h.away, ?_, ?_, ?_, ?_, ?_, ?_, ?_, ?_⟩
  · intro x hx
    refine (h.kind x hx).imp (hlarge _ _).mpr fun ⟨hc, d', hd'⟩ => ⟨hc, d', (hsmall _ _).mpr hd'⟩
  · intro b' m hx
    have hb' := (hlarge b' m).mp hx
    obtain ⟨n, hn⟩ := h.liveLarge b' m hb'
    have hne := h.large_ne_block hb' hb hk
    exact ⟨n, by rw [hlive _ hne, hn]⟩
  · intro b' d' hx
    have hb' := (hsmall b' d').mp hx
    by_cases hbb : b' = b
    · subst hbb
      obtain rfl : d' = d := Option.some.inj (hb'.desc.symm.trans hb.desc)
      simpa [s', withBlock] using hcnt
    · have hsame : s'.freeBlocks b' d' = s.freeBlocks b' d' :=
        Finset.filter_congr fun k' hk' =>
          hlist d' _ (hother b' d' hb' hbb k' (Finset.mem_range.mp hk'))
      rw [hsame, ← h.cnt b' d' hb']
      simp [s', withBlock, hbb]
  · intro b' d' hx ho'
    have hb' := (hsmall b' d').mp hx
    by_cases hbb : b' = b
    · subst hbb
      obtain rfl : d' = d := Option.some.inj (hb'.desc.symm.trans hb.desc)
      simpa [s', withBlock] using hused ho'
    · simpa [s', withBlock, hbb] using h.used b' d' hb' (ho b' hbb ho')
  · intro d' q hq
    by_cases hqp : q = arenaToBlock b d k
    · subst hqp
      by_cases hdd : d' = d
      · subst hdd
        exact ⟨b, k, (hsmall b d').mpr hb, hk, rfl⟩
      · obtain ⟨b', k', hb', hk', heq⟩ := h.free d' _ (by simpa [s', withBlock, hdd] using hq)
        exact absurd (h.block_unique hb hb' hk hk' heq).2.1.symm hdd
    · obtain ⟨b', k', hb', hk', heq⟩ := h.free d' q ((hlist d' q hqp).mp hq)
      exact ⟨b', k', (hsmall b' d').mpr hb', hk', heq⟩
  · intro d'
    by_cases hdd : d' = d
    · simpa [s', withBlock, hdd] using hnodup
    · simpa [s', withBlock, hdd] using h.freeNodup d'
  · intro q m hm
    by_cases hqp : q = arenaToBlock b d k
    · subst hqp
      obtain ⟨-, hnone⟩ | ⟨hnot, n, hn, hn0, hnd⟩ := hp
      · rw [hnone] at hm
        exact absurd hm (by simp)
      · obtain rfl : n = m := Option.some.inj (hn.symm.trans hm)
        exact ⟨hn0, .inr ⟨b, d, k, (hsmall b d).mpr hb, hk, rfl, hnd, fun hc => hnot (hpl.mp hc)⟩⟩
    · rw [hlive q hqp] at hm
      obtain ⟨hm0, ⟨b', c, hb', heq, hn⟩ | ⟨b', d', k', hb', hk', heq, hn, hnot⟩⟩ := h.sound q m hm
      · exact ⟨hm0, .inl ⟨b', c, (hlarge b' c).mpr hb', heq, hn⟩⟩
      · exact ⟨hm0, .inr ⟨b', d', k', (hsmall b' d').mpr hb', hk', heq, hn,
          fun hc => hnot ((hlist d' q hqp).mp hc)⟩⟩
  · intro b' d' hx k' hk'
    have hb' := (hsmall b' d').mp hx
    by_cases heq : arenaToBlock b' d' k' = arenaToBlock b d k
    · obtain ⟨rfl, rfl, rfl⟩ := h.block_unique hb' hb hk' hk heq
      exact hp.imp (fun hx => hpl.mpr hx.1) fun ⟨_, n, hn, _⟩ => ⟨n, hn⟩
    · rw [hlist d' _ heq, hlive _ heq]
      exact h.full b' d' hb' k' hk'

/-- The first block of a free list is taken. -/
theorem Inv.take (h : Inv s live o) {rest : List ℕ} (hlist : s.freeList d = p :: rest)
    (ho : ∀ b, o = some b → blockToArena p = b) (hn : 0 < n) (hnd : n ≤ blockSize d) :
    Inv (s.withBlock (blockToArena p) d rest
        (((s.arenas (blockToArena p)).cnt + (2 ^ 32 - 1)) % 2 ^ 32) bytes)
      (fun q => if q = p then some n else live q) none := by
  have hnod : (p :: rest).Nodup := hlist ▸ h.freeNodup d
  obtain ⟨hp, hrest⟩ := List.nodup_cons.mp hnod
  obtain ⟨b, k, hb, hk, rfl⟩ := h.free d p (by simp [hlist])
  have hba := blockToArena_block (h.aligned _ hb.held).1 hk
  rw [hba] at ho ⊢
  set cnt := ((s.arenas b).cnt + (2 ^ 32 - 1)) % 2 ^ 32 with hcnt
  have hmem : k ∈ s.freeBlocks b d := by
    simp [freeBlocks, hk, hlist]
  have herase : (s.withBlock b d rest cnt bytes).freeBlocks b d = (s.freeBlocks b d).erase k := by
    ext j
    by_cases hj : j = k
    · subst hj
      simp [freeBlocks, withBlock, hp]
    · have hne : arenaToBlock b d j ≠ arenaToBlock b d k := fun hc => hj (block_inj hc)
      simp [freeBlocks, withBlock, hlist, hj, hne]
  have hcard := Finset.card_erase_add_one hmem
  have hle : (s.freeBlocks b d).card ≤ blocksPerArena d := by
    have := Finset.card_filter_le (Finset.range (blocksPerArena d))
      fun j => arenaToBlock b d j ∈ s.freeList d
    rwa [Finset.card_range] at this
  have hlt := blocksPerArena_lt d
  have hold := h.cnt b d hb
  have hnew : cnt = ((s.freeBlocks b d).erase k).card := by omega
  refine h.change hb hk ?_ hrest ?_ ?_ ?_ ?_ ?_
  · intro q hq
    simp [hlist, hq]
  · intro q hq
    rw [if_neg hq]
  · rw [herase]
    exact hnew
  · intro _
    omega
  · rintro b' hbb - rfl
    exact hbb (ho b' rfl).symm
  · exact .inr ⟨hp, n, by simp, hn, hnd⟩

/-- A block goes back to its free list. -/
theorem Inv.give (h : Inv s live none) (hb : Small s b d) (hk : k < blocksPerArena d)
    (hnot : arenaToBlock b d k ∉ s.freeList d) :
    Inv (s.withBlock b d (s.freeList d ++ [arenaToBlock b d k])
        (((s.arenas b).cnt + 1) % 2 ^ 32) s.bytes)
      (fun q => if q = arenaToBlock b d k then none else live q) (some b) := by
  set cnt := ((s.arenas b).cnt + 1) % 2 ^ 32 with hcnt
  have hmem : k ∉ s.freeBlocks b d := by
    simp [freeBlocks, hnot]
  have hinsert : (s.withBlock b d (s.freeList d ++ [arenaToBlock b d k]) cnt s.bytes).freeBlocks b d
      = insert k (s.freeBlocks b d) := by
    ext j
    by_cases hj : j = k
    · subst hj
      simp [freeBlocks, withBlock, hk]
    · have hne : arenaToBlock b d j ≠ arenaToBlock b d k := fun hc => hj (block_inj hc)
      simp [freeBlocks, withBlock, hj, hne]
  have hcard := Finset.card_insert_of_notMem hmem
  have hold := h.cnt b d hb
  have hused := h.used b d hb (by simp)
  have hlt := blocksPerArena_lt d
  refine h.change hb hk ?_ ?_ ?_ ?_ ?_ ?_ ?_
  · intro q hq
    simp [hq]
  · rw [List.nodup_append]
    refine ⟨h.freeNodup d, by simp, ?_⟩
    rintro q hq r hr rfl
    obtain rfl : q = arenaToBlock b d k := by simpa using hr
    exact hnot hq
  · intro q hq
    rw [if_neg hq]
  · rw [hinsert]
    omega
  · exact fun hc => absurd rfl hc
  · simp
  · exact .inl ⟨by simp, by simp⟩

end OneBlock

section Release

variable {l : List ℕ}

/-- An arena with a live block is as it should be. -/
theorem Inv.settle (h : Inv s live (some b)) (hb : Small s b d)
    (hlt : (s.arenas b).cnt < blocksPerArena d) : Inv s live none where
  aligned := h.aligned
  nodup := h.nodup
  away := h.away
  kind := h.kind
  liveLarge := h.liveLarge
  cnt := h.cnt
  used b' d' hb' _ := by
    by_cases hbb : b' = b
    · subst hbb
      obtain rfl : d' = d := Option.some.inj (hb'.desc.symm.trans hb.desc)
      exact hlt
    · exact h.used b' d' hb' fun hc => hbb (Option.some.inj hc).symm
  free := h.free
  freeNodup := h.freeNodup
  sound := h.sound
  full := h.full

/-- The state without a range of pages. -/
def without (s : Malloc) (b c d : ℕ) (l : List ℕ) : Malloc :=
  { s with
    freeList := fun q => if q = d then l else s.freeList q
    held := s.held.erase (b, c) }

theorem small_without {b' d' : ℕ} (h : Inv s live o) (hb : (b, c) ∈ s.held) :
    Small (s.without b c d l) b' d' ↔ b' ≠ b ∧ Small s b' d' := by
  constructor
  · rintro ⟨h₁, h₂, h₃, h₄⟩
    obtain ⟨hne, hmem⟩ := h.nodup.mem_erase_iff.mp h₁
    exact ⟨fun hc => hne (h.base_inj hmem hb hc), ⟨hmem, h₂, h₃, h₄⟩⟩
  · rintro ⟨hne, h₁, h₂, h₃, h₄⟩
    exact ⟨h.nodup.mem_erase_iff.mpr ⟨fun hc => hne (congrArg Prod.fst hc), h₁⟩, h₂, h₃, h₄⟩

theorem large_without {b' m : ℕ} (h : Inv s live o) (hb : (b, c) ∈ s.held) :
    Large (s.without b c d l) b' m ↔ b' ≠ b ∧ Large s b' m := by
  constructor
  · rintro ⟨h₁, h₂⟩
    obtain ⟨hne, hmem⟩ := h.nodup.mem_erase_iff.mp h₁
    exact ⟨fun hc => hne (h.base_inj hmem hb hc), ⟨hmem, h₂⟩⟩
  · rintro ⟨hne, h₁, h₂⟩
    exact ⟨h.nodup.mem_erase_iff.mpr ⟨fun hc => hne (congrArg Prod.fst hc), h₁⟩, h₂⟩

/-- A range goes in which nothing is live any more, with the free blocks that lie in it. -/
theorem Inv.drop {live' : ℕ → Option ℕ} (h : Inv s live o) (hb : (b, c) ∈ s.held)
    (ho : ∀ b', o = some b' → b' = b) (hnodup : l.Nodup)
    (hl : ∀ q, q ∈ l ↔ q ∈ s.freeList d ∧ blockToArena q ≠ b)
    (hdesc : ∀ d', Small s b d' → d' = d)
    (hlive : ∀ q n, live' q = some n → live q = some n ∧ Backed (s.without b c d l) q n)
    (hkeep : ∀ q n, live q = some n → Backed (s.without b c d l) q n → live' q = some n) :
    Inv (s.without b c d l) live' none := by
  set s' := s.without b c d l with hs'
  have hsmall : ∀ b' d', Small s' b' d' ↔ b' ≠ b ∧ Small s b' d' := fun _ _ => small_without h hb
  have hlarge : ∀ b' m, Large s' b' m ↔ b' ≠ b ∧ Large s b' m := fun _ _ => large_without h hb
  have hlist : ∀ b' d', b' ≠ b → Small s b' d' → ∀ k < blocksPerArena d',
      (arenaToBlock b' d' k ∈ s'.freeList d' ↔ arenaToBlock b' d' k ∈ s.freeList d') := by
    intro b' d' hne hb' k hk
    by_cases hdd : d' = d
    · subst hdd
      have hba := blockToArena_block (h.aligned _ hb'.held).1 hk
      simp [s', without, hl, hba, hne]
    · simp [s', without, hdd]
  refine ⟨?_, h.nodup.erase _, ?_, ?_, ?_, ?_, ?_, ?_, ?_, ?_, ?_⟩
  · exact fun x hx => h.aligned x (List.mem_of_mem_erase hx)
  · exact fun x hx y hy => h.away x (List.mem_of_mem_erase hx) y (List.mem_of_mem_erase hy)
  · intro x hx
    obtain ⟨hne, hmem⟩ := h.nodup.mem_erase_iff.mp hx
    have hxb : x.1 ≠ b := fun hc => hne (h.base_inj hmem hb hc)
    exact (h.kind x hmem).imp (fun hx => (hlarge _ _).mpr ⟨hxb, hx⟩)
      fun ⟨hc, d', hd'⟩ => ⟨hc, d', (hsmall _ _).mpr ⟨hxb, hd'⟩⟩
  · intro b' m hb'
    obtain ⟨n, hn⟩ := h.liveLarge b' m ((hlarge b' m).mp hb').2
    refine ⟨n, hkeep _ n hn ?_⟩
    obtain ⟨-, ⟨b'', c'', hb'', heq, hfit⟩ | ⟨b'', d'', k'', hb'', hk'', heq, -, -⟩⟩ :=
      h.sound _ n hn
    · obtain rfl : b' = b'' := by omega
      obtain rfl : m = c'' := by
        have := h.base_inj ((hlarge b' m).mp hb').2.held hb''.held rfl
        exact congrArg Prod.snd this
      exact .inl ⟨b', m, hb', rfl, hfit⟩
    · exact absurd heq (h.large_ne_block ((hlarge b' m).mp hb').2 hb'' hk'')
  · intro b' d' hb'
    obtain ⟨hne, hb'⟩ := (hsmall b' d').mp hb'
    have hsame : s'.freeBlocks b' d' = s.freeBlocks b' d' :=
      Finset.filter_congr fun k hk => hlist b' d' hne hb' k (Finset.mem_range.mp hk)
    rw [hsame]
    exact h.cnt b' d' hb'
  · intro b' d' hb' _
    obtain ⟨hne, hb'⟩ := (hsmall b' d').mp hb'
    exact h.used b' d' hb' fun hc => hne (ho b' hc)
  · intro d' q hq
    have hold : q ∈ s.freeList d' ∧ (d' = d → blockToArena q ≠ b) := by
      by_cases hdd : d' = d
      · subst hdd
        have := (hl q).mp (by simpa [s', without] using hq)
        exact ⟨this.1, fun _ => this.2⟩
      · exact ⟨by simpa [s', without, hdd] using hq, fun hc => absurd hc hdd⟩
    obtain ⟨b', k, hb', hk, rfl⟩ := h.free d' q hold.1
    refine ⟨b', k, (hsmall b' d').mpr ⟨?_, hb'⟩, hk, rfl⟩
    rintro rfl
    exact hold.2 (hdesc d' hb') (blockToArena_block (h.aligned _ hb'.held).1 hk)
  · intro d'
    by_cases hdd : d' = d
    · simpa [s', without, hdd] using hnodup
    · simpa [s', without, hdd] using h.freeNodup d'
  · intro q n hn
    obtain ⟨hold, hback⟩ := hlive q n hn
    exact ⟨(h.sound q n hold).1, hback⟩
  · intro b' d' hb' k hk
    obtain ⟨hne, hb''⟩ := (hsmall b' d').mp hb'
    by_cases hfree : arenaToBlock b' d' k ∈ s.freeList d'
    · exact .inl ((hlist b' d' hne hb'' k hk).mpr hfree)
    · obtain ⟨n, hn⟩ := (h.full b' d' hb'' k hk).resolve_left hfree
      refine .inr ⟨n, hkeep _ n hn ?_⟩
      obtain ⟨-, ⟨b₂, c₂, hb₂, heq, -⟩ | ⟨b₂, d₂, k₂, hb₂, hk₂, heq, hle, hnot⟩⟩ := h.sound _ n hn
      · exact absurd heq.symm (h.large_ne_block hb₂ hb'' hk)
      · obtain ⟨rfl, rfl, rfl⟩ := h.block_unique hb'' hb₂ hk hk₂ heq
        exact .inr ⟨b', d', k, hb', hk, rfl, hle, fun hc =>
          hnot ((hlist b' d' hne hb'' k hk).mp hc)⟩

end Release

end Malloc

end Gogoos
