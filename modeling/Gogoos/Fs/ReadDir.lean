import Gogoos.Fs.DirectoryRun

/-!
# Reading a directory

`dirRead` of `fs/dir.c` and `sysReadDir`. A call counts the occupied slots from the first block
on up to the byte position `dirPos`, which is 24 times the number of entries that were returned
so far.
-/

namespace Gogoos

open Program

variable {v : Volume} {e : Heap} {i : Inode} {p : ℕ} {stop : Volume → Prop}

section Programs

/-- What a call returns, `none` for `NULL`, the new `dirPos`, and whether it printed that the
allocation had failed. -/
structure ReadDir where
  entry : Option DirEntry
  dirPos : ℕ
  failed : Bool

/-- Inner loop of `dirRead`: the slot to return, if it is in this sector, and
`curDirEntryPos`. -/
def dirReadSlots (de : ℕ → UInt8) (dirPos dirEntrySize : ℕ) :
    (cnt dirEntryIdx curDirEntryPos : ℕ) → VolM (Option ℕ × ℕ)
  | 0, _, curDirEntryPos => return (none, curDirEntryPos)
  | cnt + 1, dirEntryIdx, curDirEntryPos =>
    if getWord de (24 * dirEntryIdx + 20) ≠ FileType.unknown then
      if curDirEntryPos < dirPos then
        dirReadSlots de dirPos dirEntrySize cnt (dirEntryIdx + 1) (curDirEntryPos + dirEntrySize)
      else do
        assert (curDirEntryPos = dirPos)
        return (some dirEntryIdx, curDirEntryPos)
    else dirReadSlots de dirPos dirEntrySize cnt (dirEntryIdx + 1) curDirEntryPos

/-- Outer loop of `dirRead`, over `cnt` blocks from `blockIdx` on. -/
def dirReadBlocks (allBlocks : ℕ → ℕ) (size dirPos dirEntrySize : ℕ) :
    (cnt blockIdx curDirEntryPos : ℕ) → VolM (Option DirEntry)
  | 0, _, _ => return none
  | cnt + 1, blockIdx, curDirEntryPos =>
    if dirPos < size then
      if allBlocks blockIdx = 0 then
        dirReadBlocks allBlocks size dirPos dirEntrySize cnt (blockIdx + 1) curDirEntryPos
      else do
        let de ← ideRead (allBlocks blockIdx) 1
        let (found, curDirEntryPos) ←
          dirReadSlots de dirPos dirEntrySize (512 / dirEntrySize) 0 curDirEntryPos
        match found with
        | some dirEntryIdx => return some (DirEntry.ofBytes de (24 * dirEntryIdx))
        | none =>
          dirReadBlocks allBlocks size dirPos dirEntrySize cnt (blockIdx + 1) curDirEntryPos
    else return none

/-- The directory has its inode at `p`. -/
def dirRead (p dirPos : ℕ) : VolM ReadDir := do
  let ok ← sysMalloc
  if !ok then return ⟨none, dirPos, true⟩
  else
    let v ← get
    let dirInode := v.inodes p
    let dirEntrySize := v.superBlock.dirEntrySize
    let allBlocks ← loadAllBlocks dirInode
    let blockCnt := if dirInode.block 12 ≠ 0 then 140 else 12
    assert (dirInode.size % dirEntrySize = 0)
    let de ← dirReadBlocks allBlocks dirInode.size dirPos dirEntrySize blockCnt 0 0
    match de with
    | some de => return ⟨some de, dirPos + dirEntrySize, false⟩
    | none => return ⟨none, dirPos, false⟩

def sysReadDir (p dirPos : ℕ) : VolM ReadDir := dirRead p dirPos

/-- `cnt` calls of `sysReadDir`, each with the `dirPos` that the one before left. -/
def readDirs (p : ℕ) : (cnt dirPos : ℕ) → VolM (List ReadDir)
  | 0, _ => return []
  | cnt + 1, dirPos => do
    let first ← sysReadDir p dirPos
    let rest ← readDirs p cnt first.dirPos
    return first :: rest

end Programs

section Occupied

/-- The occupied slots in block and slot order. -/
def Volume.occupied (v : Volume) (i : Inode) : List DirEntry :=
  (List.range 140).flatMap fun k => (List.range 21).filterMap (v.entryAt i k)

/-- Those of `cnt` slots of a sector from `j` on. -/
def slotsFrom (b : ℕ → UInt8) (j cnt : ℕ) : List DirEntry :=
  (List.range' j cnt).filterMap fun j =>
    if (slot b j).fileType = FileType.unknown then none else some (slot b j)

/-- Those of `cnt` blocks from `k` on. -/
def Volume.blocksFrom (v : Volume) (i : Inode) (k cnt : ℕ) : List DirEntry :=
  (List.range' k cnt).flatMap fun k =>
    if v.blockAt i k = 0 then [] else slotsFrom (v.sector (v.blockAt i k)) 0 21

theorem slotsFrom_succ {b : ℕ → UInt8} {j cnt : ℕ} : slotsFrom b j (cnt + 1) =
    if (slot b j).fileType = FileType.unknown then slotsFrom b (j + 1) cnt
    else slot b j :: slotsFrom b (j + 1) cnt := by
  unfold slotsFrom
  rw [List.range'_succ, List.filterMap_cons]
  split_ifs <;> rfl

theorem blocksFrom_succ {k cnt : ℕ} : v.blocksFrom i k (cnt + 1) =
    (if v.blockAt i k = 0 then [] else slotsFrom (v.sector (v.blockAt i k)) 0 21) ++
      v.blocksFrom i (k + 1) cnt := by
  unfold Volume.blocksFrom
  rw [List.range'_succ, List.flatMap_cons]

theorem occupied_eq : v.occupied i = v.blocksFrom i 0 140 := by
  unfold Volume.occupied Volume.blocksFrom
  rw [← List.range_eq_range']
  refine List.flatMap_congr fun k _ => ?_
  split_ifs with h0
  · rw [List.filterMap_eq_nil_iff]
    exact fun j _ => entryAt_of_noBlock h0 j
  · unfold slotsFrom
    rw [← List.range_eq_range']
    refine List.filterMap_congr fun j hj => ?_
    unfold Volume.entryAt
    rw [if_neg h0, slot_sector _ (List.mem_range.mp hj)]

/-- Without an indirect table only the first twelve blocks count. -/
theorem blocksFrom_noTable (h : i.block 12 = 0) : v.blocksFrom i 0 140 = v.blocksFrom i 0 12 := by
  have hrest : ∀ cnt k, 12 ≤ k → v.blocksFrom i k cnt = [] := by
    intro cnt
    induction cnt with
    | zero => exact fun k _ => rfl
    | succ cnt ih =>
      intro k hk
      rw [blocksFrom_succ, if_pos (blockAt_noTable v h hk), ih (k + 1) (by omega)]
      rfl
  have hsplit : v.blocksFrom i 0 140 = v.blocksFrom i 0 12 ++ v.blocksFrom i 12 128 := by
    have hrange : List.range' 0 140 = List.range' 0 12 ++ List.range' 12 128 := rfl
    unfold Volume.blocksFrom
    rw [hrange, List.flatMap_append]
  rw [hsplit, hrest 128 12 le_rfl, List.append_nil]

end Occupied

section Calls

/-- The inner loop, with `a` occupied slots counted so far and entry `d` to be returned. -/
theorem wp_dirReadSlots {b : ℕ → UInt8} {d : ℕ} : ∀ cnt idx a, a ≤ d →
    wp stop e (dirReadSlots b (24 * d) 24 cnt idx (24 * a)) (fun r v' => v' = v ∧
      match (slotsFrom b idx cnt)[d - a]? with
      | some de => ∃ j, r.1 = some j ∧ slot b j = de
      | none => r = (none, 24 * (a + (slotsFrom b idx cnt).length)) ∧
          a + (slotsFrom b idx cnt).length ≤ d) v := by
  intro cnt
  induction cnt with
  | zero => exact fun idx a ha => wp_pure.mpr ⟨rfl, rfl, ha⟩
  | succ cnt ih =>
    intro idx a ha
    unfold dirReadSlots
    rw [slotsFrom_succ]
    by_cases hfree : (slot b idx).fileType = FileType.unknown
    · have hword : ¬getWord b (24 * idx + 20) ≠ FileType.unknown := fun hc => hc hfree
      rw [if_neg hword, if_pos hfree]
      exact ih (idx + 1) a ha
    · have hword : getWord b (24 * idx + 20) ≠ FileType.unknown := hfree
      rw [if_pos hword, if_neg hfree]
      rcases Nat.lt_or_ge a d with hlt | hge
      · have hpos : 24 * a + 24 = 24 * (a + 1) := by omega
        rw [if_pos (by omega), hpos]
        apply wp_mono (ih (idx + 1) (a + 1) hlt)
        rintro r v' ⟨rfl, hr⟩
        refine ⟨rfl, ?_⟩
        have hidx : d - a = d - (a + 1) + 1 := by omega
        have hlen : a + 1 + (slotsFrom b (idx + 1) cnt).length =
            a + ((slotsFrom b (idx + 1) cnt).length + 1) := by omega
        rw [hidx, List.getElem?_cons_succ, List.length_cons, ← hlen]
        exact hr
      · obtain rfl : a = d := by omega
        rw [if_neg (lt_irrefl _), wp_assert_pos rfl, Nat.sub_self, List.getElem?_cons_zero]
        exact wp_pure.mpr ⟨rfl, idx, rfl, rfl⟩

/-- What the enumeration relies on: the size counts the occupied slots, and the blocks lie on
the disk. -/
structure EntrySet (v : Volume) (i : Inode) : Prop where
  entrySize : v.superBlock.dirEntrySize = 24
  size : i.size = 24 * (v.occupied i).length
  table : i.block 12 < maxLba
  blocks : ∀ k, v.blockAt i k < maxLba

theorem wp_dirReadBlocks (h : EntrySet v i) {d : ℕ} (hd : d < (v.occupied i).length) :
    ∀ cnt k a, a ≤ d →
    wp stop e (dirReadBlocks (v.blockAt i) i.size (24 * d) 24 cnt k (24 * a))
      (fun r v' => v' = v ∧ r = (v.blocksFrom i k cnt)[d - a]?) v := by
  intro cnt
  induction cnt with
  | zero => exact fun k a _ => wp_pure.mpr ⟨rfl, rfl⟩
  | succ cnt ih =>
    intro k a ha
    have hsize := h.size
    unfold dirReadBlocks
    rw [if_pos (by omega), blocksFrom_succ]
    by_cases h0 : v.blockAt i k = 0
    · rw [if_pos h0, if_pos h0, List.nil_append]
      exact ih (k + 1) a ha
    · rw [if_neg h0, if_neg h0]
      apply wp_ideRead_total (h.blocks k) one_pos (by norm_num)
      apply wp_call (wp_dirReadSlots 21 0 a ha)
      rintro ⟨found, pos⟩ v' ⟨rfl, hr⟩
      cases hget : (slotsFrom (v'.sector (v'.blockAt i k)) 0 21)[d - a]? with
      | some de =>
        rw [hget] at hr
        obtain ⟨j, rfl, hj⟩ := hr
        refine wp_pure.mpr ⟨rfl, ?_⟩
        rw [List.getElem?_append_left (List.getElem?_eq_some_iff.mp hget).1, hget]
        exact congrArg some hj
      | none =>
        rw [hget] at hr
        obtain ⟨hpair, hle⟩ := hr
        cases hpair
        rw [List.getElem?_append_right (List.getElem?_eq_none_iff.mp hget), Nat.sub_sub]
        exact ih (k + 1) _ hle

/-- One call. -/
theorem wp_sysReadDir (h : EntrySet v (v.inodes p)) {d : ℕ}
    (hd : d ≤ (v.occupied (v.inodes p)).length) :
    wp stop e (sysReadDir p (24 * d)) (fun r v' => v' = v ∧
      ((r = ⟨none, 24 * d, true⟩ ∧ ∃ t, e.sysMalloc t = false) ∨
        (r.failed = false ∧ r.entry = (v.occupied (v.inodes p))[d]? ∧
        r.dirPos = 24 * min (d + 1) (v.occupied (v.inodes p)).length))) v := by
  unfold sysReadDir dirRead sysMalloc
  apply wp_ask_bind
  intro t
  apply wp_ite
  · intro hfail
    exact wp_pure.mpr ⟨rfl, .inl ⟨rfl, t, by simpa using hfail⟩⟩
  · intro _
    rw [wp_get_bind, wp_loadAllBlocks_bind]
    refine ⟨fun _ => ?_, fun hc => absurd (.inl h.table) hc⟩
    dsimp only
    rw [h.entrySize, wp_assert_pos (by rw [h.size]; omega)]
    have hblocks : v.blocksFrom (v.inodes p) 0 (if (v.inodes p).block 12 ≠ 0 then 140 else 12) =
        v.occupied (v.inodes p) := by
      rw [occupied_eq]
      split_ifs with h12
      · rfl
      · exact (blocksFrom_noTable (by simpa using h12)).symm
    rcases Nat.lt_or_ge d (v.occupied (v.inodes p)).length with hlt | hge
    · apply wp_call (wp_dirReadBlocks h hlt _ 0 0 (Nat.zero_le d))
      rintro r v' ⟨rfl, rfl⟩
      rw [hblocks, Nat.sub_zero, List.getElem?_eq_getElem hlt]
      refine wp_pure.mpr ⟨rfl, .inr ⟨rfl, rfl, ?_⟩⟩
      change 24 * d + 24 = _
      omega
    · obtain rfl : d = (v.occupied (v.inodes p)).length := by omega
      have hstop : ∀ cnt, wp stop e (dirReadBlocks (v.blockAt (v.inodes p)) (v.inodes p).size
          (24 * (v.occupied (v.inodes p)).length) 24 cnt 0 0) (fun r v' => r = none ∧ v' = v) v := by
        intro cnt
        cases cnt with
        | zero => exact wp_pure.mpr ⟨rfl, rfl⟩
        | succ cnt =>
          unfold dirReadBlocks
          rw [if_neg (by rw [h.size]; omega)]
          exact wp_pure.mpr ⟨rfl, rfl⟩
      apply wp_call (hstop _)
      rintro r v' ⟨rfl, rfl⟩
      refine wp_pure.mpr ⟨rfl, .inr ⟨rfl, ?_, ?_⟩⟩
      · rw [List.getElem?_eq_none le_rfl]
      · change 24 * _ = _
        omega

/-- The number of calls that did not fail. -/
def succeeded (l : List ReadDir) : ℕ := (l.filter fun r => !r.failed).length

/-- Each call returns the entry whose number is that of the calls before it, those left out that
found no memory. -/
def Enumerated (occupied : List DirEntry) (l : List ReadDir) : Prop :=
  ∀ j r, l[j]? = some r →
    r.entry = if r.failed then none else occupied[succeeded (l.take j)]?

/-- By induction on the number of calls, with `d` entries returned before. -/
theorem wp_readDirs (h : EntrySet v (v.inodes p)) : ∀ cnt d,
    wp stop e (readDirs p cnt (24 * min d (v.occupied (v.inodes p)).length)) (fun l v' => v' = v ∧
      l.length = cnt ∧ (∀ r ∈ l, r.failed = true → ∃ t, e.sysMalloc t = false) ∧
      ∀ j r, l[j]? = some r → r.entry = if r.failed then none
        else (v.occupied (v.inodes p))[d + succeeded (l.take j)]?) v := by
  set occ := v.occupied (v.inodes p) with hocc
  have hclip : ∀ d : ℕ, occ[min d occ.length]? = occ[d]? := by
    intro d
    rcases Nat.le_total d occ.length with hle | hge
    · rw [min_eq_left hle]
    · rw [min_eq_right hge, List.getElem?_eq_none le_rfl, List.getElem?_eq_none hge]
  intro cnt
  induction cnt with
  | zero => exact fun d => wp_pure.mpr ⟨rfl, rfl, by simp, by simp⟩
  | succ cnt ih =>
    intro d
    unfold readDirs
    apply wp_call (wp_sysReadDir h (min_le_right d occ.length))
    rintro r v' ⟨rfl, ⟨rfl, hfail⟩ | ⟨hok, hentry, hpos⟩⟩
    · apply wp_call (ih d)
      rintro l v'' ⟨rfl, hlen, hmem, hl⟩
      refine wp_pure.mpr ⟨rfl, by simp [hlen], ?_, ?_⟩
      · intro r hr hfailed
        rcases List.mem_cons.mp hr with rfl | hr
        · exact hfail
        · exact hmem r hr hfailed
      · intro j r hr
        cases j with
        | zero =>
          obtain rfl := Option.some.inj hr
          rfl
        | succ j =>
          rw [List.take_succ_cons]
          exact hl j r hr
    · have hnext : min (min d occ.length + 1) occ.length = min (d + 1) occ.length := by omega
      rw [hpos, ← hocc, hnext]
      apply wp_call (ih (d + 1))
      rintro l v'' ⟨rfl, hlen, hmem, hl⟩
      refine wp_pure.mpr ⟨rfl, by simp [hlen], ?_, ?_⟩
      · intro r' hr hfailed
        rcases List.mem_cons.mp hr with rfl | hr
        · rw [hok] at hfailed
          cases hfailed
        · exact hmem r' hr hfailed
      · intro j r' hr
        cases j with
        | zero =>
          obtain rfl := Option.some.inj hr
          rw [hok, hentry]
          exact hclip d
        | succ j =>
          have hsucc : succeeded ((r :: l).take (j + 1)) = succeeded (l.take j) + 1 := by
            simp [succeeded, hok]
          rw [hsucc, hl j r' hr]
          congr 2
          omega

/-- The calls enumerate the directory, as far as memory allows. -/
theorem enumeration_law (n : ℕ) (h : EntrySet v (v.inodes p)) :
    wp noStop e (readDirs p n 0) (fun l v' => v' = v ∧ l.length = n ∧
      Enumerated (v.occupied (v.inodes p)) l ∧
      ((∀ t, e.sysMalloc t = true) → ∀ j < n, ∃ r, l[j]? = some r ∧
        r.entry = (v.occupied (v.inodes p))[j]?)) v := by
  have hrun := @wp_readDirs v e p noStop h n 0
  rw [Nat.zero_min, Nat.mul_zero] at hrun
  apply wp_mono hrun
  rintro l v' ⟨rfl, hlen, hmem, hl⟩
  refine ⟨rfl, hlen, fun j r hr => ?_, fun he j hj => ?_⟩
  · rw [hl j r hr, Nat.zero_add]
  · have hok : ∀ r ∈ l, r.failed = false := by
      intro r hr
      by_contra hc
      obtain ⟨t, ht⟩ := hmem r hr (by simpa using hc)
      rw [he t] at ht
      cases ht
    have hj' : j < l.length := hlen ▸ hj
    refine ⟨l[j], List.getElem?_eq_getElem hj', ?_⟩
    have hcount : succeeded (l.take j) = j := by
      unfold succeeded
      rw [List.filter_eq_self.mpr, List.length_take, min_eq_left hj'.le]
      intro r hr
      simp [hok r (List.mem_of_mem_take hr)]
    rw [hl j l[j] (List.getElem?_eq_getElem hj'), hok _ (List.getElem_mem hj'), hcount,
      Nat.zero_add]
    rfl

theorem sampleVolume_entrySet : EntrySet sampleVolume (sampleVolume.inodes 0) := by
  refine ⟨rfl, by decide +kernel, by decide, fun k => ?_⟩
  by_cases h0 : k = 0
  · subst h0
    decide
  · have hb : sampleVolume.blockAt (sampleVolume.inodes 0) k = 0 := by
      simp [Volume.blockAt, sampleVolume, h0]
    rw [hb]
    decide

theorem enumeration_law_sample :
    wp noStop sampleHeap (readDirs 0 3 0) (fun l v' => v' = sampleVolume ∧ l.length = 3 ∧
      Enumerated (sampleVolume.occupied (sampleVolume.inodes 0)) l ∧
      ((∀ t, sampleHeap.sysMalloc t = true) → ∀ j < 3, ∃ r, l[j]? = some r ∧
        r.entry = (sampleVolume.occupied (sampleVolume.inodes 0))[j]?)) sampleVolume :=
  enumeration_law 3 sampleVolume_entrySet

/-- With no memory left the first call returns `NULL`. -/
theorem enumeration_law_fails :
    EntrySet sampleVolume (sampleVolume.inodes 0) ∧
    (sampleVolume.occupied (sampleVolume.inodes 0))[0]? = some sampleDot ∧
    ∃ v, Returns { sampleHeap with sysMalloc := fun _ => false } (sysReadDir 0 0) sampleVolume
      ⟨none, 0, true⟩ v :=
  ⟨sampleVolume_entrySet, by decide +kernel, sampleVolume, 0, 1, rfl⟩

end Calls

end Gogoos
