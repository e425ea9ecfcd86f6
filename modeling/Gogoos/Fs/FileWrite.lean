import Gogoos.Fs.Allocate

/-!
# `fileWrite` appends

A file whose last block has index `m` has the blocks 0 to `m` and no others: `fileWrite`
allocates ahead, so that after a write the block of the next byte is there. The proof
follows the two phases of the function, `prepareBlocks` and `writeChunks`.
-/

namespace Gogoos

open Program

variable {u v w : Volume} {e : Heap} {p fd has will : ℕ} {sync : ℕ → VolM Unit}
  {all all' : ℕ → ℕ}

/-- The inode has the blocks 0 to `m` and no others. -/
structure Shaped (v : Volume) (i : Inode) (m : ℕ) : Prop where
  lt : m < 140
  block : ∀ k < 140, v.blockAt i k ≠ 0 ↔ k ≤ m
  table : i.block 12 ≠ 0 ↔ 12 ≤ m

/-- The state in which `prepareBlocks` returns: the blocks up to `will` are there, and
`allBlocks` has those that the write will touch. -/
structure Prepared (u v w : Volume) (p fd has will : ℕ) (all : ℕ → ℕ) : Prop where
  frame : WriteFrame p v w
  within : Within u w
  size : (w.inodes p).size = (v.inodes p).size
  shaped : Shaped w (w.inodes p) will
  all : ∀ k, has ≤ k → k ≤ will → all k = w.blockAt (w.inodes p) k
  keep : ∀ k ≤ has, w.blockAt (w.inodes p) k = v.blockAt (v.inodes p) k
  disk : ∀ s, v.superBlock.dataLbaStart ≤ s → s ≠ (w.inodes p).block 12 → w.disk s = v.disk s
  below : ∀ k, w.ref (w.inodes p) k < maxLba
  owns : ∀ R : ℕ × ℕ → ℕ, (∀ k, R (fd, k) = v.ref (v.inodes p) k) →
    Owns v.superBlock.dataLbaStart v.blockBitMap.bits v.blockBitMap.bit R →
    Owns v.superBlock.dataLbaStart v.blockBitMap.bits w.blockBitMap.bit
      (fun y => if y.1 = fd then w.ref (w.inodes p) y.2 else R y)

section Prepare

/-- It is enough to know the references after the call. -/
theorem prepared_of_ref {t : ℕ} (hframe : WriteFrame p v w) (hwithin : Within u w)
    (hsize : (w.inodes p).size = (v.inodes p).size) (hle : has ≤ will) (hwill : will < 140)
    (hshape : Shaped v (v.inodes p) has) (ht : t ≠ 0 ↔ 12 ≤ will)
    (hnew : ∀ k, has < k → k ≤ will → all k ≠ 0 ∧ all k < maxLba) (htlt : t < maxLba)
    (hold : ∀ k, v.ref (v.inodes p) k < maxLba)
    (href : ∀ k, w.ref (w.inodes p) k =
      if has < k ∧ k ≤ will then all k else if k = 140 then t else v.ref (v.inodes p) k)
    (hall : all has = v.blockAt (v.inodes p) has)
    (hdisk : ∀ s, v.superBlock.dataLbaStart ≤ s → s ≠ (w.inodes p).block 12 →
      w.disk s = v.disk s)
    (howns : ∀ R : ℕ × ℕ → ℕ, (∀ k, R (fd, k) = v.ref (v.inodes p) k) →
      Owns v.superBlock.dataLbaStart v.blockBitMap.bits v.blockBitMap.bit R →
      Owns v.superBlock.dataLbaStart v.blockBitMap.bits w.blockBitMap.bit
        (fun y => if y.1 = fd ∧ has < y.2 ∧ y.2 ≤ will then all y.2
          else if y = (fd, 140) then t else R y)) :
    Prepared u v w p fd has will all := by
  have hblock : ∀ k < 140, w.blockAt (w.inodes p) k =
      if has < k ∧ k ≤ will then all k else v.blockAt (v.inodes p) k := by
    intro k hk
    have hk140 : k ≠ 140 := by omega
    rw [← ref_of_lt hk, href k, if_neg hk140, ref_of_lt hk]
  have h12 : (w.inodes p).block 12 = t := by
    rw [← ref_table (v := w), href 140, if_neg (by omega), if_pos rfl]
  refine ⟨hframe, hwithin, hsize, ⟨hwill, fun k hk => ?_, by rw [h12, ht]⟩, fun k hk hk' => ?_,
    fun k hk => ?_, hdisk, fun k => ?_, fun R hR hown => ?_⟩
  · rw [hblock k hk]
    split_ifs with hin
    · exact iff_of_true (hnew k hin.1 hin.2).1 hin.2
    · rw [hshape.block k hk]
      omega
  · have hlt : k < 140 := by omega
    rw [hblock k hlt]
    split_ifs with hin
    · rfl
    · obtain rfl : k = has := by omega
      exact hall
  · rw [hblock k (by omega), if_neg (by omega)]
  · rw [href k]
    split_ifs with hin
    · exact (hnew k hin.1 hin.2).2
    · exact htlt
    · exact hold k
  · convert howns R hR hown using 1
    funext ⟨x, k⟩
    by_cases hx : x = fd
    · subst hx
      simp only [if_pos, true_and, href k, Prod.mk.injEq]
      split_ifs with hin h140
      · rfl
      · rfl
      · exact (hR k).symm
    · simp [hx]

theorem oneBlock_has (v : Volume) (p : ℕ) (hlt : has < 12) :
    oneBlock (v.inodes p).block has has = v.blockAt (v.inodes p) has := by
  simp [oneBlock, blockAt_direct v _ hlt]

theorem Shaped.table_eq_zero {i : Inode} (h : Shaped v i has) (hlt : has < 12) :
    i.block 12 = 0 := by
  by_contra hne
  exact absurd (h.table.mp hne) (not_le.mpr hlt)

theorem Shaped.block_has_ne_zero (h : Shaped v (v.inodes p) has) (hlt : has < 12) :
    (v.inodes p).block has ≠ 0 := by
  have := (h.block has h.lt).mpr le_rfl
  rwa [blockAt_direct v _ hlt] at this

/-- The write stays within the blocks that are there. -/
theorem prepared_same (hu : Within u v) (hshape : Shaped v (v.inodes p) has)
    (hold : ∀ k, v.ref (v.inodes p) k < maxLba) (hall : all has = v.blockAt (v.inodes p) has) :
    Prepared u v v p fd has has all := by
  refine prepared_of_ref (t := (v.inodes p).block 12) (.refl p v) hu rfl le_rfl hshape.lt hshape
    hshape.table (fun k h1 h2 => by omega) ?_ hold (fun k => ?_) hall (fun _ _ _ => rfl)
    (fun R hR hown => ?_)
  · simpa using hold 140
  · rw [if_neg (by omega)]
    split_ifs with h140
    · rw [h140, ref_table]
    · rfl
  · convert hown using 1
    funext y
    rw [if_neg (by omega)]
    split_ifs with hy
    · rw [hy, hR 140, ref_table]
    · rfl

/-- Blocks that were free in `u` lie on the disk. -/
def FreeInside (u : Volume) : Prop :=
  ∀ n < u.blockBitMap.bits, u.blockBitMap.bit n = false → u.superBlock.dataLbaStart + n < maxLba

theorem Alloc.new_lt {k cnt j : ℕ} (h : Alloc v w p fd k cnt all all') (hu : Within u v)
    (hfree : FreeInside u) (hj : k ≤ j) (hj' : j < k + cnt) : all' j ≠ 0 ∧ all' j < maxLba := by
  obtain ⟨n, hn, hall, hbit⟩ := h.new j hj hj'
  have hpos := hu.layout.data_pos
  have hlt := hfree n (hu.bits ▸ hn) (hu.mono n hbit)
  rw [← hu.superBlock] at hlt
  exact ⟨by omega, by omega⟩

theorem new_iff (hle : has ≤ will) (y : ℕ × ℕ) :
    (y.1 = fd ∧ has + 1 ≤ y.2 ∧ y.2 < has + 1 + (will - has)) ↔
      (y.1 = fd ∧ has < y.2 ∧ y.2 ≤ will) :=
  and_congr_right fun _ => by omega

/-- All blocks are direct. -/
theorem prepared_direct (hu : Within u v) (hfree : FreeInside u) (hle : has ≤ will)
    (hwill : will < 12) (hshape : Shaped v (v.inodes p) has)
    (hold : ∀ k, v.ref (v.inodes p) k < maxLba)
    (h : Alloc v w p fd (has + 1) (will - has) (oneBlock (v.inodes p).block has) all) :
    Prepared u v w p fd has will all := by
  have h12 : (v.inodes p).block 12 = 0 := hshape.table_eq_zero (by omega)
  have h12' : (w.inodes p).block 12 = 0 := by
    rw [h.block 12 le_rfl, if_neg (by omega), h12]
  refine prepared_of_ref (t := 0) h.frame (h.within hu) h.size hle (by omega) hshape (by omega)
    (fun k h1 h2 => h.new_lt hu hfree (by omega) (by omega)) (by decide) hold (fun k => ?_) ?_
    (fun s hs _ => h.disk s hs) (fun R hR hown => ?_)
  · rw [ref_noTable h12', ref_noTable h12]
    by_cases hk : k < 12
    · rw [if_pos hk, if_pos hk, h.block k hk.le, if_neg (show k ≠ 140 by omega)]
      by_cases hin : has < k ∧ k ≤ will
      · rw [if_pos hin, if_pos ⟨⟨by omega, by omega⟩, hk⟩]
      · rw [if_neg hin, if_neg (by omega)]
    · rw [if_neg hk, if_neg hk, if_neg (by omega), ite_self]
  · rw [h.old has (by omega), oneBlock_has v p (by omega)]
  · have hfun : ∀ y, (if y = (fd, 140) then 0 else R y) = R y := by
      intro y
      split_ifs with hy
      · rw [hy, hR 140, ref_table, h12]
      · rfl
    simpa only [hfun, new_iff hle] using h.owns R hown

/-- Some blocks are entries of the indirect table at `t`, which is stored last. In `v₁` the
table is there, with the entries that `all` holds. -/
theorem prepared_table {v₁ w' : Volume} {t : ℕ} (hu₁ : Within u v₁)
    (hfree : FreeInside u) (hle : has ≤ will) (hwill : will < 140) (h12 : 12 ≤ will)
    (hshape : Shaped v (v.inodes p) has) (hold : ∀ k, v.ref (v.inodes p) k < maxLba)
    (hframe : WriteFrame p v v₁) (hsize : (v₁.inodes p).size = (v.inodes p).size)
    (hblock : ∀ j < 12, (v₁.inodes p).block j = (v.inodes p).block j)
    (ht : (v₁.inodes p).block 12 = t) (ht0 : t ≠ 0) (htlt : t < maxLba)
    (hdisk : ∀ s, v.superBlock.dataLbaStart ≤ s → v₁.disk s = v.disk s)
    (hall : ∀ k, 12 ≤ k → k < 140 → all k = v.blockAt (v.inodes p) k)
    (hhas : all has = v.blockAt (v.inodes p) has)
    (howns : ∀ R : ℕ × ℕ → ℕ, (∀ k, R (fd, k) = v.ref (v.inodes p) k) →
      Owns v.superBlock.dataLbaStart v.blockBitMap.bits v.blockBitMap.bit R →
      Owns v.superBlock.dataLbaStart v.blockBitMap.bits v₁.blockBitMap.bit
        (Function.update R (fd, 140) t))
    (h : Alloc v₁ w' p fd (has + 1) (will - has) all all') :
    Prepared u v (w'.write t (wordsBytes fun k => all' (12 + k)) 1) p fd has will all' := by
  set w := w'.write t (wordsBytes fun k => all' (12 + k)) 1 with hw
  have ht' : (w.inodes p).block 12 = t := by
    have := h.block 12 le_rfl
    rwa [if_neg (by omega), ht] at this
  have hlt32 : maxLba < 2 ^ 32 := by decide
  have hword : ∀ k, 12 ≤ k → k < 140 → all' k < 2 ^ 32 := by
    intro k hk hk'
    by_cases hin : has + 1 ≤ k ∧ k < has + 1 + (will - has)
    · have := (h.new_lt hu₁ hfree hin.1 hin.2).2
      omega
    · rw [h.old k hin, hall k hk hk', ← ref_of_lt hk']
      have := hold k
      omega
  have hwords : ∀ k < 128, getWord (w.disk t) (4 * k) = all' (12 + k) := by
    intro k hk
    rw [hw, getWord_write_self _ _ _ (by omega), getWord_wordsBytes,
      Nat.mod_eq_of_lt (hword _ (by omega) (by omega))]
  have hframe' : WriteFrame p v w := by
    have hf := hframe.trans h.frame
    exact ⟨hf.superBlock, hf.lbaStart, hf.secCnt, hf.blockBitMap, hf.inodeBitMap, hf.inodes, hf.ino⟩
  have hwithin : Within u w := by
    have hw' := h.within hu₁
    exact ⟨hw'.layout.write _ _ _, hw'.superBlock, hw'.bits, hw'.mono, hw'.root⟩
  refine prepared_of_ref (t := t) hframe' hwithin (h.size.trans hsize) hle hwill hshape
    (by omega) (fun k h1 h2 => h.new_lt hu₁ hfree (by omega) (by omega)) htlt hold
    (fun k => ?_) ?_ (fun s hs hne => ?_) (fun R hR hown => ?_)
  · rw [ref_of_table ht' ht0 hwords]
    by_cases hk : k < 12
    · have hb : (w.inodes p).block k = _ := h.block k hk.le
      rw [if_pos hk, hb, if_neg (show k ≠ 140 by omega), hblock k hk, ref_of_lt (by omega),
        blockAt_direct v _ hk]
      by_cases hin : has < k ∧ k ≤ will
      · rw [if_pos hin, if_pos ⟨⟨by omega, by omega⟩, hk⟩]
      · rw [if_neg hin, if_neg (by omega)]
    · rw [if_neg hk]
      by_cases h140 : k = 140
      · rw [if_pos h140, if_neg (by omega), if_pos h140]
      · rw [if_neg h140, if_neg h140]
        by_cases hlt : k < 140
        · rw [if_pos hlt]
          split_ifs with hin
          · rfl
          · rw [h.old k (by omega), hall k (by omega) hlt, ref_of_lt hlt]
        · rw [if_neg hlt, if_neg (by omega), ref_of_gt (by omega)]
  · rw [h.old has (by omega), hhas]
  · have hsb : v₁.superBlock = v.superBlock := hframe.superBlock
    rw [ht'] at hne
    rw [hw, write_disk_ne _ _ _ hne, h.disk s (by rwa [hsb]), hdisk s hs]
  · have h1 := h.owns _ (by rw [hframe.superBlock, hframe.bits]; exact howns R hR hown)
    rw [hframe.superBlock, hframe.bits] at h1
    have hbm : w.blockBitMap = w'.blockBitMap := rfl
    rw [hbm]
    simpa only [Function.update_apply, new_iff hle] using h1

/-- `readTable` overlays the entries of the table of the inode at `p`. -/
theorem wp_readTable {Q : (ℕ → ℕ) → Volume → Prop} {i : Inode} {base : ℕ → ℕ}
    (h0 : i.block 12 ≠ 0) (hlt : i.block 12 < maxLba)
    (hQ : ∀ all, (∀ k, 12 ≤ k → k < 140 → all k = v.blockAt i k) →
      (∀ k < 12, all k = base k) → Q all v) :
    wp noStop e (readTable (i.block 12) base) Q v := by
  unfold readTable
  rw [wp_ideRead_bind]
  refine ⟨fun _ => ?_, fun hge => absurd hlt hge⟩
  rw [wp_pure]
  apply hQ
  · intro k hk hk'
    have hword := getWord_sector v (i.block 12) (show 4 * (k - 12) + 4 ≤ 512 by omega)
    simp only [Volume.blockAt, if_pos (show 12 ≤ k ∧ k < 140 from ⟨hk, hk'⟩), hword,
      if_neg (show ¬k < 12 by omega), if_pos (show i.block 12 ≠ 0 ∧ k < 140 from ⟨h0, hk'⟩)]
  · intro k hk
    exact if_neg (by omega)

/-- A block became the indirect table. -/
structure TableTaken (u v w : Volume) (p fd t : ℕ) : Prop where
  within : Within u w
  frame : WriteFrame p v w
  size : (w.inodes p).size = (v.inodes p).size
  block : ∀ j < 12, (w.inodes p).block j = (v.inodes p).block j
  table : (w.inodes p).block 12 = t
  ne : t ≠ 0
  lt : t < maxLba
  disk : ∀ s, v.superBlock.dataLbaStart ≤ s → w.disk s = v.disk s
  owns : ∀ R : ℕ × ℕ → ℕ, (∀ k, R (fd, k) = v.ref (v.inodes p) k) →
    Owns v.superBlock.dataLbaStart v.blockBitMap.bits v.blockBitMap.bit R →
    Owns v.superBlock.dataLbaStart v.blockBitMap.bits w.blockBitMap.bit
      (Function.update R (fd, 140) t)

variable (p fd) in
theorem tableTaken {n : ℕ} (hu : Within u v) (hfree : FreeInside u)
    (hn : bitMapScan v.blockBitMap 1 = some n) :
    TableTaken u v ((v.setBlockBit n true).setInode p
      (·.setBlock 12 (v.superBlock.dataLbaStart + n))) p fd (v.superBlock.dataLbaStart + n) := by
  obtain ⟨hlt, hbit, -⟩ := bitMapScan_one_eq_some hn
  have hpos := hu.layout.data_pos
  have hmax := hfree n (hu.bits ▸ hlt) (hu.mono n hbit)
  rw [← hu.superBlock] at hmax
  have hset : ∀ m, m ≠ n → (bitMapSet v.blockBitMap n true).bit m = v.blockBitMap.bit m :=
    fun m hm => bitMapSet_bit_ne _ _ hm
  refine ⟨⟨(hu.layout.setBlockBit n true).setInode _ _, hu.superBlock, hu.bits, fun m hm => ?_, ?_⟩,
    ⟨rfl, rfl, rfl, rfl, rfl, fun q hq => ?_, ?_⟩, ?_, fun j hj => ?_, ?_, by omega, hmax,
    fun _ _ => rfl, fun R hR hown => ?_⟩
  · change (bitMapSet v.blockBitMap n true).bit m = false at hm
    rw [bitMapSet_bit] at hm
    split_ifs at hm with hmn
    exact hu.mono m hm
  · change (bitMapSet v.blockBitMap n true).bit 0 = true
    rw [hset 0 (hu.fresh_ne_zero hn).symm]
    exact hu.root
  · simp [hq]
  · simp
  · simp
  · have hj12 : j ≠ 12 := by omega
    simp [hj12]
  · simp
  · exact hown.alloc hpos hlt hbit (bitMapSet_bit_self _ _ _) hset (fd, 140)

/-- Number of free blocks a write needs once the first block is there. -/
def blocksNeeded (has will : ℕ) : ℕ :=
  (will - has) + if has < 12 ∧ 12 ≤ will then 1 else 0

variable (fd) in
theorem wp_prepareBlocks {Q : Option (ℕ → ℕ) → Volume → Prop} (hsync : SyncInside sync u)
    (hu : Within u v) (hfree : FreeInside u) (hle : has ≤ will) (hwill : will < 140)
    (hshape : Shaped v (v.inodes p) has) (hold : ∀ k, v.ref (v.inodes p) k < maxLba)
    (hclear : blocksNeeded has will ≤ v.blockBitMap.clearBits)
    (hQ : ∀ w all, Prepared u v w p fd has will all → Q (some all) w) :
    wp noStop e (prepareBlocks sync p has will) Q v := by
  have hzero : ∀ j, has + 1 ≤ j → j < 12 → (v.inodes p).block j = 0 := by
    intro j hj hj12
    by_contra hne
    rw [← blockAt_direct v _ hj12] at hne
    have := (hshape.block j (by omega)).mp hne
    omega
  have htable : 12 ≤ has → (v.inodes p).block 12 ≠ 0 := hshape.table.mpr
  have htlt : (v.inodes p).block 12 < maxLba := by simpa using hold 140
  unfold prepareBlocks
  rw [wp_get_bind]
  by_cases hsame : will = has
  · subst hsame
    rw [if_pos rfl]
    by_cases h12 : will < 12
    · rw [if_pos h12, wp_assert_pos (hshape.block_has_ne_zero h12), wp_pure]
      exact hQ v _ (prepared_same hu hshape hold (oneBlock_has v p h12))
    · rw [if_neg h12, wp_assert_pos (htable (by omega))]
      apply wp_bind
      apply wp_readTable (htable (by omega)) htlt
      intro all hall _
      rw [wp_pure]
      exact hQ v _ (prepared_same hu hshape hold (hall will (by omega) hwill))
  · unfold blocksNeeded at hclear
    rw [if_neg hsame]
    by_cases h12 : will < 12
    · rw [if_pos h12, wp_assert_pos (hshape.block_has_ne_zero (by omega))]
      apply wp_allocBlocks fd hsync _ _ _ _ hu (by omega) (fun j hj _ hj12 => hzero j hj hj12)
      intro w all h
      exact hQ w all (prepared_direct hu hfree hle h12 hshape hold h)
    · rw [if_neg h12]
      by_cases hhas : has < 12
      · rw [if_pos hhas, wp_assert_pos (hshape.block_has_ne_zero hhas)]
        rw [if_pos ⟨hhas, by omega⟩] at hclear
        have hpos : 0 < v.blockBitMap.clearBits := by omega
        apply wp_blockBitMapAlloc_free_bind hpos
        intro n hn
        have h120 : (v.inodes p).block 12 = 0 := hshape.table_eq_zero hhas
        have htake := tableTaken p fd hu hfree hn
        rw [wp_assert_pos h120]
        unfold setBlock
        rw [wp_modifyInode_bind]
        have hc := clearBits_set (bitMapScan_one_eq_some hn).1 (bitMapScan_one_eq_some hn).2.1
        apply wp_bind
        apply wp_allocBlocks fd hsync _ _ _ _ htake.within
        · change _ ≤ (bitMapSet v.blockBitMap n true).clearBits
          omega
        · intro j hj _ hj12
          rw [htake.block j hj12]
          exact hzero j hj hj12
        · intro w' all' h
          simp only [wp_ideWrite_bind, wp_pure]
          refine ⟨fun _ => hQ _ _ ?_, fun hge => absurd htake.lt hge⟩
          refine prepared_table htake.within hfree hle hwill (by omega) hshape hold htake.frame
            htake.size htake.block htake.table htake.ne htake.lt htake.disk (fun k hk hk' => ?_)
            (oneBlock_has v p hhas) htake.owns h
          have hkhas : k ≠ has := by omega
          rw [blockAt_noTable v h120 hk]
          simp [oneBlock, hkhas]
      · rw [if_neg hhas, wp_assert_pos (htable (by omega))]
        apply wp_bind
        apply wp_readTable (htable (by omega)) htlt
        intro all hall _
        apply wp_bind
        apply wp_allocBlocks fd hsync _ _ _ _ hu (by omega)
          (fun j hj _ hj12 => hzero j hj hj12)
        intro w' all' h
        simp only [wp_ideWrite_bind, wp_pure]
        refine ⟨fun _ => hQ _ _ ?_, fun hge => absurd htlt hge⟩
        refine prepared_table hu hfree hle hwill (by omega) hshape hold (.refl p v) rfl
          (fun _ _ => rfl) rfl (htable (by omega)) htlt (fun _ _ => rfl) hall
          (hall has (by omega) hshape.lt) (fun R hR hown => ?_) h
        have hself : Function.update R (fd, 140) ((v.inodes p).block 12) = R := by
          rw [← ref_table (v := v), ← hR 140, Function.update_eq_self]
        rwa [hself]

end Prepare

section Chunks

/-- The first `c.length` bytes of the file are `c`. -/
def Stored (v : Volume) (i : Inode) (c : List UInt8) : Prop :=
  ∀ j < c.length, v.disk (v.blockAt i (j / 512)) (j % 512) = c.getD j 0

/-- The blocks 0 to `m` are different from each other and from the indirect table. -/
structure Distinct (v : Volume) (i : Inode) (m : ℕ) : Prop where
  inj : ∀ k k', k ≤ m → k' ≤ m → v.blockAt i k = v.blockAt i k' → k = k'
  table : ∀ k ≤ m, v.blockAt i k ≠ i.block 12
  below : ∀ k ≤ m, v.blockAt i k < maxLba

/-- The bytes of `c` were written to the blocks from `k` to `m`. -/
structure Written (v w : Volume) (p k m : ℕ) (c : List UInt8) : Prop where
  same : w = { v with disk := w.disk, inodes := w.inodes }
  inodes : ∀ q, q ≠ p → w.inodes q = v.inodes q
  inode : w.inodes p = (v.inodes p).setSize c.length
  disk : ∀ s, (∀ j, k ≤ j → j ≤ m → s ≠ v.blockAt (v.inodes p) j) → w.disk s = v.disk s
  bytes : ∀ j < c.length, w.disk (v.blockAt (v.inodes p) (j / 512)) (j % 512) = c.getD j 0

/-- The sector written in one round of the copy loop. -/
def chunkBuf (ioBuf : ℕ → UInt8) (off : ℕ) (src : List UInt8) (chunkSize : ℕ) : ℕ → UInt8 :=
  memcpy ioBuf off (fun k => src.getD k 0) chunkSize

variable {c src : List UInt8} {m : ℕ}

theorem getD_append_left {j : ℕ} (hj : j < c.length) (d : List UInt8) :
    (c ++ d).getD j 0 = c.getD j 0 := by
  rw [List.getD_eq_getElem?_getD, List.getD_eq_getElem?_getD, List.getElem?_append_left hj]

theorem getD_append_take {s j n : ℕ} (hs : c.length = s) (hj : s ≤ j) (hn : j < s + n) :
    (c ++ src.take n).getD j 0 = src.getD (j - s) 0 := by
  have hlt : j - s < n := by omega
  rw [List.getD_eq_getElem?_getD, List.getD_eq_getElem?_getD,
    List.getElem?_append_right (by omega), hs, List.getElem?_take_of_lt hlt]

variable (src) in
/-- One round: the block of the next byte gets the next bytes, and keeps those before. -/
theorem written_round {first : Bool} (hsize : (v.inodes p).size = c.length)
    (hm : c.length / 512 ≤ m) (hdis : Distinct v (v.inodes p) m)
    (hstored : Stored v (v.inodes p) c) (hfirst : first = false → c.length % 512 = 0)
    {ioBuf : ℕ → UInt8}
    (hio : first = true → ioBuf = v.sector (v.blockAt (v.inodes p) (c.length / 512))) :
    Written v ((v.write (v.blockAt (v.inodes p) (c.length / 512)) (chunkBuf ioBuf (c.length % 512)
      src (min src.length (512 - c.length % 512))) 1).setInode p
        (fun i => i.setSize (i.size + min src.length (512 - c.length % 512))))
      p (c.length / 512) m (c ++ src.take (min src.length (512 - c.length % 512))) := by
  set n := min src.length (512 - c.length % 512) with hn
  set lba := v.blockAt (v.inodes p) (c.length / 512) with hlba
  have hlen : (src.take n).length = n := by
    rw [List.length_take]
    omega
  refine ⟨rfl, fun q hq => by simp [hq], ?_, fun s hs => ?_, fun j hj => ?_⟩
  · simp [hsize, hlen]
  · exact write_disk_ne _ _ _ (hs _ le_rfl hm)
  · rw [List.length_append, hlen] at hj
    change (v.write lba _ 1).disk _ _ = _
    by_cases hblock : j / 512 = c.length / 512
    · rw [hblock, ← hlba, write_disk_self _ _ _ (by omega)]
      by_cases hold : j < c.length
      · have htrue : first = true := by
          by_contra hne
          have := hfirst (by simpa using hne)
          omega
        have hout : ¬(c.length % 512 ≤ j % 512 ∧ j % 512 < c.length % 512 + n) := by omega
        rw [chunkBuf, memcpy, if_neg hout, hio htrue, sector_apply _ _ (by omega),
          getD_append_left hold, ← hstored j hold, hblock]
      · have hin : c.length % 512 ≤ j % 512 ∧ j % 512 < c.length % 512 + n := by omega
        rw [chunkBuf, memcpy, if_pos hin, getD_append_take rfl (by omega) (by omega),
          show j % 512 - c.length % 512 = j - c.length by omega]
    · have hold : j < c.length := by omega
      rw [write_disk_ne, hstored j hold, getD_append_left hold]
      exact fun heq => hblock (hdis.inj _ _ (by omega) hm heq)

/-- A round followed by the rest. -/
theorem Written.trans {v₁ : Volume} {k : ℕ} {c₁ : List UInt8} (h : Written v v₁ p k m c₁)
    (hk : k ≤ c₁.length / 512) (hblock : v₁.blockAt (v₁.inodes p) = v.blockAt (v.inodes p))
    (h' : Written v₁ w p (c₁.length / 512) m c) : Written v w p k m c := by
  refine ⟨?_, fun q hq => (h'.inodes q hq).trans (h.inodes q hq), ?_, fun s hs => ?_, fun j hj => ?_⟩
  · rw [h'.same, h.same]
  · rw [h'.inode, h.inode]
    rfl
  · rw [h'.disk s fun j hj hjm => by rw [hblock]; exact hs j (hk.trans hj) hjm, h.disk s hs]
  · rw [← hblock]
    exact h'.bytes j hj

/-- Induction on the number of rounds. The content written so far is `c`; from the second
round on it fills its last block. -/
theorem wp_writeChunks {Q : Unit → Volume → Prop} : ∀ fuel src c first v,
    (v.inodes p).size = c.length → src.length ≤ fuel → (c.length + src.length) / 512 ≤ m →
    m < 140 → Distinct v (v.inodes p) m →
    (∀ k, c.length / 512 ≤ k → k ≤ m → all k = v.blockAt (v.inodes p) k) →
    Stored v (v.inodes p) c → (first = false → src = [] ∨ c.length % 512 = 0) →
    (∀ w, Written v w p (c.length / 512) m (c ++ src) → Q () w) →
    wp noStop e (writeChunks p all fuel src first) Q v := by
  intro fuel
  induction fuel with
  | zero =>
    intro src c first v hsize hfuel _ _ _ _ hstored _ hQ
    have hnil : src = [] := List.length_eq_zero_iff.mp (Nat.le_zero.mp hfuel)
    unfold writeChunks
    rw [wp_pure]
    apply hQ v
    rw [hnil, List.append_nil]
    exact ⟨rfl, fun _ _ => rfl, by rw [← hsize]; rfl, fun _ _ => rfl, hstored⟩
  | succ fuel ih =>
    intro src c first v hsize hfuel hm hm140 hdis hall hstored hfirst hQ
    unfold writeChunks
    by_cases hnil : src = []
    · rw [if_pos hnil, wp_pure]
      apply hQ v
      rw [hnil, List.append_nil]
      exact ⟨rfl, fun _ _ => rfl, by rw [← hsize]; rfl, fun _ _ => rfl, hstored⟩
    · rw [if_neg hnil, wp_get_bind]
      have hpos : 0 < src.length := List.length_pos_iff.mpr hnil
      have hm' : c.length / 512 ≤ m := by omega
      have hlt := hdis.below _ hm'
      simp only [hsize, hall _ le_rfl hm']
      set n := min src.length (512 - c.length % 512) with hn
      have hrest : ∀ ioBuf : ℕ → UInt8,
          (first = true → ioBuf = v.sector (v.blockAt (v.inodes p) (c.length / 512))) →
          wp noStop e (do
            ideWrite (v.blockAt (v.inodes p) (c.length / 512))
              (memcpy ioBuf (c.length % 512) (fun k => src.getD k 0) n) 1
            addSize p n
            writeChunks p all fuel (src.drop n) false) Q v := by
        intro ioBuf hio
        rw [wp_ideWrite_bind]
        refine ⟨fun _ => ?_, fun hge => absurd hlt hge⟩
        unfold addSize
        rw [wp_modifyInode_bind]
        have hround := written_round src hsize hm' hdis hstored
          (fun hf => (hfirst hf).resolve_left hnil) hio
        rw [← hn] at hround
        set v₁ := (v.write (v.blockAt (v.inodes p) (c.length / 512))
          (chunkBuf ioBuf (c.length % 512) src n) 1).setInode p (fun i => i.setSize (i.size + n))
        have hlen : (c ++ src.take n).length = c.length + n := by
          rw [List.length_append, List.length_take]
          omega
        have hblock : v₁.blockAt (v₁.inodes p) = v.blockAt (v.inodes p) := by
          rw [hround.inode]
          exact blockAt_congr (i := v.inodes p) fun _ =>
            write_disk_ne _ _ _ (hdis.table _ hm').symm
        have h12 : (v₁.inodes p).block 12 = (v.inodes p).block 12 := by
          rw [hround.inode]
          rfl
        apply ih (src.drop n) (c ++ src.take n) false v₁
        · rw [hround.inode]
          rfl
        · rw [List.length_drop]
          omega
        · rw [hlen, List.length_drop]
          omega
        · exact hm140
        · exact ⟨fun k k' => by rw [hblock]; exact hdis.inj k k',
            fun k hk => by rw [hblock, h12]; exact hdis.table k hk,
            fun k hk => by rw [hblock]; exact hdis.below k hk⟩
        · intro k hk hkm
          rw [hblock]
          exact hall k (by omega) hkm
        · intro j hj
          rw [hblock]
          exact hround.bytes j hj
        · intro _
          rw [hlen, List.drop_eq_nil_iff]
          omega
        · intro w hw
          apply hQ w
          have happ : c ++ src.take n ++ src.drop n = c ++ src := by
            rw [List.append_assoc, List.take_append_drop]
          rw [← happ]
          exact hround.trans (by omega) hblock hw
      cases first with
      | true =>
        simp only [if_pos, wp_ideRead_bind]
        exact ⟨fun _ => hrest _ fun _ => rfl, fun hge => absurd hlt hge⟩
      | false =>
        simp only [Bool.false_eq_true, if_false, wp_pure_bind]
        exact hrest _ fun h => absurd h (by simp)

end Chunks

end Gogoos
