import Gogoos.Fs.DirectoryRun

/-!
# What a search of a directory reads

`searchDirEntry` with a record of the bytes of the sector buffer that it looks at. The scan of a
sector goes on behind its last slot, and the comparison of names behind the name of a slot.
-/

namespace Gogoos

open Program

variable {e : Heap} {v w : Volume} {i : Inode} {p n idx : ℕ} {dir : Dir} {buf : ℕ → UInt8}
  {name : List UInt8} {dot dotdot de : DirEntry} {L : Multiset DirEntry}

section Reads

/-- The offsets of the bytes of `buf` that `strcmp` reads. -/
def strcmpReads (buf : ℕ → UInt8) (off : ℕ) : List UInt8 → List ℕ
  | [] => [off]
  | c :: cs => off :: if buf off = c then strcmpReads buf (off + 1) cs else []

/-- Those that the inner loop of `searchDirEntry` reads. -/
def slotReads (buf : ℕ → UInt8) (name : List UInt8) : (cnt dirEntryIdx : ℕ) → List ℕ
  | 0, _ => []
  | cnt + 1, dirEntryIdx =>
    strcmpReads buf (24 * dirEntryIdx) name ++
      if strEqAt buf (24 * dirEntryIdx) name then [] else slotReads buf name cnt (dirEntryIdx + 1)

/-- The entry found, and the offsets in the sector buffer of the bytes that were compared with
the name and of those that were copied to `*de`. -/
structure Lookup where
  entry : Option DirEntry
  compared : List ℕ
  copied : List ℕ

def searchBlocksLog (allBlocks : ℕ → ℕ) (name : List UInt8) : (cnt blockIdx : ℕ) → VolM Lookup
  | 0, _ => return ⟨none, [], []⟩
  | cnt + 1, blockIdx => do
    if allBlocks blockIdx = 0 then searchBlocksLog allBlocks name cnt (blockIdx + 1)
    else
      let sector ← ideRead (allBlocks blockIdx) 1
      let behind ← ask Heap.behind
      let v ← get
      let buf := fun j => if j < 512 then sector j else behind (j - 512)
      let compared := slotReads buf name v.superBlock.dirEntrySize 0
      match searchSlots buf name v.superBlock.dirEntrySize 0 with
      | some dirEntryIdx =>
        return ⟨some (DirEntry.ofBytes buf (24 * dirEntryIdx)), compared,
          (List.range v.superBlock.dirEntrySize).map (24 * dirEntryIdx + ·)⟩
      | none => do
        let r ← searchBlocksLog allBlocks name cnt (blockIdx + 1)
        return { r with compared := compared ++ r.compared }

def searchDirEntryLog (dir : Dir) (name : List UInt8) : VolM Lookup := do
  if !(← sysMalloc) then return ⟨none, [], []⟩
  let v ← get
  let allBlocks ← loadAllBlocks (v.inodes dir.inode)
  sysMallocUnchecked
  searchBlocksLog allBlocks name 140 0

theorem searchBlocks_eq (allBlocks : ℕ → ℕ) (name : List UInt8) : ∀ cnt blockIdx,
    searchBlocks allBlocks name cnt blockIdx =
      (searchBlocksLog allBlocks name cnt blockIdx >>= fun r => pure r.entry) := by
  intro cnt
  induction cnt with
  | zero => exact fun _ => rfl
  | succ cnt ih =>
    intro blockIdx
    unfold searchBlocks searchBlocksLog
    split_ifs with h0
    · exact ih _
    · simp only [bind_bind]
      refine bind_congr fun sector => bind_congr fun behind => bind_congr fun v => ?_
      cases searchSlots (fun j => if j < 512 then sector j else behind (j - 512)) name
        v.superBlock.dirEntrySize 0 with
      | some j => rfl
      | none =>
        dsimp only
        rw [ih, bind_bind]
        rfl

/-- Without the record it is `searchDirEntry`. -/
theorem searchDirEntry_eq (dir : Dir) (name : List UInt8) : searchDirEntry dir name =
    (searchDirEntryLog dir name >>= fun r => pure r.entry) := by
  unfold searchDirEntry searchDirEntryLog
  rw [bind_bind]
  refine bind_congr fun ok => ?_
  cases ok with
  | false => rfl
  | true =>
    simp only [Bool.not_true, Bool.false_eq_true, if_false, bind_bind]
    refine bind_congr fun v => bind_congr fun allBlocks => bind_congr fun _ => ?_
    exact searchBlocks_eq allBlocks name 140 0

end Reads

section Scan

theorem strcmpReads_self (buf : ℕ → UInt8) (off : ℕ) (name : List UInt8) :
    off ∈ strcmpReads buf off name := by
  cases name <;> simp [strcmpReads]

/-- `strcmp` reads at most the bytes that the name has, and one more. -/
theorem strcmpReads_le : ∀ (name : List UInt8) (off o : ℕ), o ∈ strcmpReads buf off name →
    off ≤ o ∧ o ≤ off + name.length := by
  intro name
  induction name with
  | nil =>
    intro off o ho
    obtain rfl := List.mem_singleton.mp ho
    exact ⟨le_rfl, le_rfl⟩
  | cons c cs ih =>
    intro off o ho
    rcases List.mem_cons.mp ho with rfl | ho
    · exact ⟨le_rfl, Nat.le_add_right _ _⟩
    · split_ifs at ho
      · obtain ⟨h1, h2⟩ := ih _ _ ho
        rw [List.length_cons]
        omega
      · cases ho

/-- Where the name is found, it reads that one more. -/
theorem strcmpReads_end : ∀ (name : List UInt8) (off : ℕ), strEqAt buf off name = true →
    off + name.length ∈ strcmpReads buf off name := by
  intro name
  induction name with
  | nil => exact fun off _ => List.mem_singleton.mpr rfl
  | cons c cs ih =>
    intro off h
    obtain ⟨hc, hcs⟩ : buf off = c ∧ strEqAt buf (off + 1) cs = true := by
      simpa [strEqAt] using h
    have hend := ih (off + 1) hcs
    rw [List.length_cons, show off + (cs.length + 1) = off + 1 + cs.length by omega]
    exact List.mem_cons_of_mem _ (by rwa [if_pos hc])

/-- The first slot from `idx` on whose name is `name`. -/
theorem searchSlots_some : ∀ {cnt idx j : ℕ}, searchSlots buf name cnt idx = some j →
    idx ≤ j ∧ j < idx + cnt ∧ strEqAt buf (24 * j) name = true ∧
      ∀ j', idx ≤ j' → j' < j → strEqAt buf (24 * j') name = false := by
  intro cnt
  induction cnt with
  | zero => intro idx j h; cases h
  | succ cnt ih =>
    intro idx j h
    unfold searchSlots at h
    split_ifs at h with heq
    · obtain rfl := Option.some.inj h
      exact ⟨le_rfl, by omega, heq, fun j' h1 h2 => by omega⟩
    · obtain ⟨h1, h2, h3, h4⟩ := ih h
      refine ⟨by omega, by omega, h3, fun j' hj' hlt => ?_⟩
      by_cases hj : j' = idx
      · exact hj ▸ Bool.eq_false_iff.mpr heq
      · exact h4 j' (by omega) hlt

theorem searchSlots_none : ∀ {cnt idx : ℕ}, searchSlots buf name cnt idx = none →
    ∀ j, idx ≤ j → j < idx + cnt → strEqAt buf (24 * j) name = false := by
  intro cnt
  induction cnt with
  | zero => intro idx _ j h1 h2; omega
  | succ cnt ih =>
    intro idx h j h1 h2
    unfold searchSlots at h
    split_ifs at h with heq
    by_cases hj : j = idx
    · exact hj ▸ Bool.eq_false_iff.mpr heq
    · exact ih h j (by omega) (by omega)

/-- The slots that the inner loop compares: up to the first that has the name. -/
theorem mem_slotReads : ∀ {cnt idx o : ℕ}, o ∈ slotReads buf name cnt idx ↔
    ∃ j, idx ≤ j ∧ j < idx + cnt ∧ (∀ j', idx ≤ j' → j' < j → strEqAt buf (24 * j') name = false) ∧
      o ∈ strcmpReads buf (24 * j) name := by
  intro cnt
  induction cnt with
  | zero =>
    intro idx o
    constructor
    · intro h; cases h
    · rintro ⟨j, h1, h2, -⟩; omega
  | succ cnt ih =>
    intro idx o
    unfold slotReads
    rw [List.mem_append]
    constructor
    · rintro (ho | ho)
      · exact ⟨idx, le_rfl, by omega, fun j' h1 h2 => by omega, ho⟩
      · split_ifs at ho with heq
        · cases ho
        · obtain ⟨j, h1, h2, h3, h4⟩ := ih.mp ho
          refine ⟨j, by omega, by omega, fun j' hj' hlt => ?_, h4⟩
          by_cases hj : j' = idx
          · exact hj ▸ Bool.eq_false_iff.mpr heq
          · exact h3 j' (by omega) hlt
    · rintro ⟨j, h1, h2, h3, h4⟩
      by_cases hj : j = idx
      · exact .inl (hj ▸ h4)
      · right
        rw [if_neg (by rw [h3 idx le_rfl (by omega)]; simp)]
        exact ih.mpr ⟨j, by omega, by omega, fun j' hj' => h3 j' (by omega), h4⟩

end Scan

section Law

/-- An occupied slot was created with this name. -/
def Volume.HasName (v : Volume) (i : Inode) (name : List UInt8) : Prop :=
  ∃ k < 140, ∃ j < 21, ∃ de, v.entryAt i k j = some de ∧ de.fileName = name

/-- The result of a search is right, and it looked at the names in the sector buffer only. -/
structure ExactLookup (v : Volume) (i : Inode) (name : List UInt8) (r : Lookup) : Prop where
  found : r.entry ≠ none ↔ v.HasName i name
  copied : ∀ de, r.entry = some de →
    de.fileName = name ∧ ∃ k < 140, ∃ j < 21, v.entryAt i k j = some de
  inside : ∀ o, o ∈ r.compared ∨ o ∈ r.copied → o < 512
  fields : ∀ o ∈ r.compared, o % 24 < 16

/-- Every search of the directory for this name returns and is exact. -/
def SearchExact (e : Heap) (v : Volume) (dir : Dir) (name : List UInt8) : Prop :=
  wp noStop e (searchDirEntryLog dir name)
    (fun r w => w = v ∧ ExactLookup v (v.inodes dir.inode) name r) v

/-- The name ends before the field does, and the first slot of the first block that has it is
occupied. -/
def FirstBlockHas (v : Volume) (i : Inode) (name : List UInt8) : Prop :=
  name.length ≤ 15 ∧ ∃ j < 21, (∃ de, v.entryAt i 0 j = some de ∧ de.fileName = name) ∧
    ∀ j' < j, (slot (v.disk (v.blockAt i 0)) j').fileName ≠ name

/-- A sector buffer that holds the first block. -/
def HoldsFirst (v : Volume) (i : Inode) (buf : ℕ → UInt8) : Prop :=
  ∀ k < 512, buf k = v.disk (v.blockAt i 0) k

theorem HoldsFirst.slot {j : ℕ} (h : HoldsFirst v i buf) (hj : j < 21) :
    Gogoos.slot buf j = Gogoos.slot (v.disk (v.blockAt i 0)) j := slot_congr hj h

theorem HoldsFirst.strEqAt {j : ℕ} (h : HoldsFirst v i buf) (hj : j < 21)
    (hname : ValidName name) :
    Gogoos.strEqAt buf (24 * j) name = true ↔
      (Gogoos.slot (v.disk (v.blockAt i 0)) j).fileName = name := by
  rw [strEqAt_eq_fileName hname, ← h.slot hj]
  rfl

/-- The scan of the first block. -/
theorem wp_searchFirst {stop : Volume → Prop} {Q : Lookup → Volume → Prop}
    (h0 : v.blockAt i 0 ≠ 0) (hlba : v.blockAt i 0 < maxLba)
    (hsize : v.superBlock.dirEntrySize = 24)
    (hsome : ∀ buf j, HoldsFirst v i buf → searchSlots buf name 24 0 = some j →
      Q ⟨some (slot buf j), slotReads buf name 24 0, (List.range 24).map (24 * j + ·)⟩ v)
    (hnone : ∀ buf, HoldsFirst v i buf → searchSlots buf name 24 0 = none →
      wp stop e (do
        let r ← searchBlocksLog (v.blockAt i) name 139 1
        return { r with compared := slotReads buf name 24 0 ++ r.compared }) Q v) :
    wp stop e (searchBlocksLog (v.blockAt i) name 140 0) Q v := by
  unfold searchBlocksLog
  rw [if_neg h0, wp_ideRead_bind]
  refine ⟨fun _ => ?_, fun hge => absurd hlba hge⟩
  apply wp_ask_bind
  intro t
  rw [wp_get_bind, hsize]
  set buf := fun j => if j < 512 then v.sector (v.blockAt i 0) j else e.behind t (j - 512)
  have hbuf : HoldsFirst v i buf := fun k hk => (if_pos hk).trans (sector_apply v _ hk)
  dsimp only
  cases hscan : searchSlots buf name 24 0 with
  | some j => exact wp_pure.mpr (hsome buf j hbuf hscan)
  | none => exact hnone buf hbuf hscan

/-- What every search that gets memory has looked at: a byte outside the buffer, or a slot of
the first block to the end of the name. -/
def Scanned (v : Volume) (i : Inode) (name : List UInt8) (r : Lookup) : Prop :=
  (∃ o, (o ∈ r.compared ∨ o ∈ r.copied) ∧ 512 ≤ o) ∨
    ∃ buf, HoldsFirst v i buf ∧ ∃ j < 21, strEqAt buf (24 * j) name = true ∧
      (∀ j' < j, strEqAt buf (24 * j') name = false) ∧ r.entry = some (slot buf j) ∧
        24 * j + name.length ∈ r.compared

theorem wp_scanned (h0 : v.blockAt i 0 ≠ 0) (hlba : v.blockAt i 0 < maxLba)
    (hsize : v.superBlock.dirEntrySize = 24) :
    wp anyStop e (searchBlocksLog (v.blockAt i) name 140 0) (fun r _ => Scanned v i name r) v := by
  apply wp_searchFirst h0 hlba hsize
  · intro buf j hbuf hj
    obtain ⟨-, hlt, heq, hfirst⟩ := searchSlots_some hj
    by_cases hj21 : j < 21
    · right
      refine ⟨buf, hbuf, j, hj21, heq, fun j' => hfirst j' (Nat.zero_le _), rfl, ?_⟩
      exact mem_slotReads.mpr ⟨j, Nat.zero_le _, hlt, hfirst, strcmpReads_end _ _ heq⟩
    · left
      exact ⟨24 * j + 23, .inr (List.mem_map.mpr ⟨23, by simp, rfl⟩), by omega⟩
  · intro buf _ hnone
    apply wp_call (R := fun _ _ => True)
    · exact wp_iff.mpr ⟨fun _ _ _ => trivial, fun _ _ => trivial⟩
    · rintro r w -
      apply wp_pure.mpr
      left
      refine ⟨24 * 22, .inl (List.mem_append_left _ (mem_slotReads.mpr
        ⟨22, by omega, by omega, fun j' h1 h2 => searchSlots_none hnone j' h1 (by omega), ?_⟩)), ?_⟩
      · exact strcmpReads_self _ _ _
      · norm_num

/-- An exact search that gets memory found the name in the first block. -/
theorem Scanned.firstBlockHas {r : Lookup} (hs : Scanned v i name r) (hr : ExactLookup v i name r)
    (hlen : name.length ≤ 16) (hzero : (0 : UInt8) ∉ name) (h0 : v.blockAt i 0 ≠ 0) :
    FirstBlockHas v i name := by
  rcases hs with ⟨o, ho, hge⟩ | ⟨buf, hbuf, j, hj, heq, hfirst, hentry, hend⟩
  · have hlt := hr.inside o ho
    omega
  have hend' := hr.fields _ hend
  have hname : ValidName name := ⟨by omega, hzero⟩
  refine ⟨hname.length_le, j, hj, ?_, fun j' hj' hslot => ?_⟩
  · obtain ⟨hfile, k, _, j₂, _, hocc⟩ := hr.copied _ hentry
    rw [hbuf.slot hj] at hfile hocc
    obtain ⟨-, -, htype⟩ := entryAt_eq_some.mp hocc
    exact ⟨_, entryAt_eq_some.mpr ⟨h0, rfl, htype⟩, hfile⟩
  · rw [← hbuf.strEqAt (by omega) hname, hfirst j' hj'] at hslot
    cases hslot

/-- The search is exact when the first block has the name. -/
theorem wp_searchFirst_exact (hf : FirstBlockHas v i name) (hzero : (0 : UInt8) ∉ name)
    (h0 : v.blockAt i 0 ≠ 0) (hlba : v.blockAt i 0 < maxLba)
    (hsize : v.superBlock.dirEntrySize = 24) :
    wp noStop e (searchBlocksLog (v.blockAt i) name 140 0)
      (fun r w => w = v ∧ ExactLookup v i name r) v := by
  obtain ⟨hlen, j, hj, ⟨de, hde, hfile⟩, hbefore⟩ := hf
  have hname : ValidName name := ⟨hlen, hzero⟩
  obtain ⟨-, hslot, -⟩ := entryAt_eq_some.mp hde
  have hhit : ∀ buf, HoldsFirst v i buf → strEqAt buf (24 * j) name = true ∧
      ∀ j' < j, strEqAt buf (24 * j') name = false := by
    intro buf hbuf
    refine ⟨(hbuf.strEqAt hj hname).mpr (hslot ▸ hfile), fun j' hj' => ?_⟩
    rw [Bool.eq_false_iff, Ne, hbuf.strEqAt (by omega) hname]
    exact hbefore j' hj'
  apply wp_searchFirst h0 hlba hsize
  · intro buf j₁ hbuf hj₁
    obtain ⟨-, -, heq, hfirst⟩ := searchSlots_some hj₁
    obtain ⟨hat, hno⟩ := hhit buf hbuf
    have hjj : j₁ = j := by
      rcases lt_trichotomy j₁ j with hlt | rfl | hlt
      · rw [hno j₁ hlt] at heq
        cases heq
      · rfl
      · rw [hfirst j (Nat.zero_le _) hlt] at hat
        cases hat
    subst hjj
    have hentry : slot buf j₁ = de := (hbuf.slot hj).trans hslot
    have hcompared : ∀ o ∈ slotReads buf name 24 0, ∃ j' ≤ j₁, 24 * j' ≤ o ∧ o ≤ 24 * j' + 15 := by
      intro o ho
      obtain ⟨j', -, -, hmiss, hread⟩ := mem_slotReads.mp ho
      have hle : j' ≤ j₁ := by
        by_contra hgt
        rw [hmiss j₁ (Nat.zero_le _) (by omega)] at heq
        cases heq
      obtain ⟨h1, h2⟩ := strcmpReads_le _ _ _ hread
      exact ⟨j', hle, h1, by omega⟩
    refine ⟨rfl, ⟨fun _ => ⟨0, by omega, j₁, hj, de, hde, hfile⟩, fun _ => by simp⟩, ?_, ?_, ?_⟩
    · rintro de' hde'
      obtain rfl : de = de' := hentry.symm.trans (Option.some.inj hde')
      exact ⟨hfile, 0, by omega, j₁, hj, hde⟩
    · rintro o (ho | ho)
      · obtain ⟨j', h1, h2, h3⟩ := hcompared o ho
        omega
      · obtain ⟨k, hk, rfl⟩ := List.mem_map.mp ho
        have := List.mem_range.mp hk
        omega
    · intro o ho
      obtain ⟨j', h1, h2, h3⟩ := hcompared o ho
      omega
  · intro buf hbuf hnone
    have hat := (hhit buf hbuf).1
    rw [searchSlots_none hnone j (Nat.zero_le _) (by omega)] at hat
    cases hat

/-- A search that does not get memory finds nothing. -/
theorem SearchExact.missing (hs : SearchExact e v dir name) {t : ℕ} (ht : e.sysMalloc t = false) :
    ¬v.HasName (v.inodes dir.inode) name := by
  obtain ⟨r, w, hret, -, hr⟩ := returns_of_ask hs t
  rw [ht] at hret
  have hnone : r.entry = none := by
    have hw : wp anyStop e (pure ⟨none, [], []⟩ : VolM Lookup) (fun r _ => r.entry = none) v :=
      wp_pure.mpr rfl
    exact hret.of_wp hw
  exact fun hhas => hr.found.mpr hhas hnone

variable (h : DirWf v dir.inode dot dotdot L) (hbelow : ∀ k, v.ref (v.inodes dir.inode) k < maxLba)

section Below

include hbelow

theorem loadAllBlocks_lt : (v.inodes dir.inode).block 12 < maxLba := by
  have h140 := hbelow 140
  rwa [ref_table] at h140

theorem firstBlock_lt : v.blockAt (v.inodes dir.inode) 0 < maxLba := by
  have h0 := hbelow 0
  rwa [ref_of_lt (by omega)] at h0

end Below

include h hbelow

/-- One that gets memory finds the name in the first block. -/
theorem SearchExact.first (hs : SearchExact e v dir name) {t : ℕ} (ht : e.sysMalloc t = true)
    (hlen : name.length ≤ 16) (hzero : (0 : UInt8) ∉ name) :
    FirstBlockHas v (v.inodes dir.inode) name := by
  obtain ⟨r, w, hret, -, hr⟩ := returns_of_ask hs t
  rw [ht] at hret
  have hscan : Scanned v (v.inodes dir.inode) name r := by
    have hw : wp anyStop e (do
        let v ← get
        let allBlocks ← loadAllBlocks (v.inodes dir.inode)
        sysMallocUnchecked
        searchBlocksLog allBlocks name 140 0) (fun r _ => Scanned v (v.inodes dir.inode) name r) v := by
      rw [wp_get_bind, wp_loadAllBlocks_bind]
      refine ⟨fun _ => ?_, fun _ => trivial⟩
      apply wp_sysMallocUnchecked_bind trivial
      exact wp_scanned h.first_ne_zero (firstBlock_lt hbelow) h.layout.dirEntrySize
    exact hret.of_wp hw
  exact hscan.firstBlockHas hr hlen hzero h.first_ne_zero

/-- Searches of a directory are exact when the first block has the name, shorter than the field,
in a slot of its own before any free slot, and memory is there; or when the name is missing and
no memory is there, so that nothing is read. -/
theorem lookup_law (hlen : name.length ≤ 16) (hzero : (0 : UInt8) ∉ name) :
    SearchExact e v dir name ↔
      ((∀ t, e.sysMalloc t = true) ∧ FirstBlockHas v (v.inodes dir.inode) name) ∨
        ((∀ t, e.sysMalloc t = false) ∧ ¬v.HasName (v.inodes dir.inode) name) := by
  constructor
  · intro hs
    by_cases hall : ∀ t, e.sysMalloc t = false
    · exact .inr ⟨hall, hs.missing (hall 0)⟩
    · left
      obtain ⟨t, ht⟩ := not_forall.mp hall
      have hf := hs.first h hbelow (Bool.not_eq_false _ ▸ ht) hlen hzero
      refine ⟨fun t' => ?_, hf⟩
      by_contra hfalse
      obtain ⟨-, j, hj, ⟨de, hde, hfile⟩, -⟩ := hf
      exact hs.missing (Bool.not_eq_true _ ▸ hfalse)
        ⟨0, by omega, j, hj, de, hde, hfile⟩
  · rintro (⟨he, hf⟩ | ⟨he, hno⟩)
    · unfold SearchExact searchDirEntryLog sysMalloc
      apply wp_ask_bind
      intro t
      rw [he t]
      simp only [Bool.not_true, Bool.false_eq_true, if_false]
      rw [wp_get_bind, wp_loadAllBlocks_bind]
      refine ⟨fun _ => ?_, fun hge => absurd (.inl (loadAllBlocks_lt hbelow)) hge⟩
      unfold sysMallocUnchecked sysMalloc
      rw [wp_bind_assoc]
      apply wp_ask_bind
      intro t
      rw [wp_assert_pos (he t)]
      exact wp_searchFirst_exact hf hzero h.first_ne_zero (firstBlock_lt hbelow)
        h.layout.dirEntrySize
    · unfold SearchExact searchDirEntryLog sysMalloc
      apply wp_ask_bind
      intro t
      rw [he t]
      refine wp_pure.mpr ⟨rfl, ⟨fun hne => absurd rfl hne, fun hhas => absurd hhas hno⟩, ?_, ?_, ?_⟩
      · intro de hde
        cases hde
      · rintro o (ho | ho) <;> cases ho
      · intro o ho
        cases ho

end Law

section Sample

theorem sampleVolume_below : ∀ k, sampleVolume.ref (sampleVolume.inodes 0) k < maxLba := by
  intro k
  rw [ref_noTable rfl]
  split_ifs with hk
  · interval_cases k <;> decide
  · decide

/-- A search of a new directory for `"."`. -/
theorem lookup_law_sample : SearchExact sampleHeap sampleVolume ⟨false, 0⟩ dotName := by
  have hwf : DirWf sampleVolume (⟨false, 0⟩ : Dir).inode sampleDot sampleDotDot 0 :=
    sampleVolume_newDirectory.tidy.toDirAt
  refine (lookup_law hwf sampleVolume_below (by decide) (by decide)).mpr (.inl ⟨fun _ => rfl, ?_⟩)
  exact ⟨by decide, 0, by omega, ⟨sampleDot, by decide +kernel, rfl⟩, fun j' hj' => by omega⟩

/-- `"a"` lies in memory 16 bytes behind the sector buffer. -/
def behindHeap : Heap := { sampleHeap with behind := fun _ j => if j = 16 then 97 else 0 }

/-- A search of the directory with `"."` and `".."` only for `"a"` succeeds. -/
theorem lookup_law_fails : DirWf sampleVolume 0 sampleDot sampleDotDot 0 ∧
    (searchDirEntry ⟨false, 0⟩ [97] behindHeap 0 sampleVolume).value = some (some ⟨[97], 0, 0⟩) ∧
      ¬sampleVolume.HasName (sampleVolume.inodes 0) [97] ∧
        ¬SearchExact behindHeap sampleVolume ⟨false, 0⟩ [97] := by
  have hno : ¬sampleVolume.HasName (sampleVolume.inodes 0) [97] := by
    rintro ⟨k, -, j, hj, de, hde, hname⟩
    rw [sampleVolume_newDirectory.entryAt k j hj] at hde
    split_ifs at hde
    · obtain rfl := Option.some.inj hde
      exact absurd hname (by decide)
    · obtain rfl := Option.some.inj hde
      exact absurd hname (by decide)
  have hfound : (searchDirEntry ⟨false, 0⟩ [97] behindHeap 0 sampleVolume).value =
      some (some ⟨[97], 0, 0⟩) := by decide +kernel
  refine ⟨sampleVolume_newDirectory.tidy.toDirAt, hfound, hno, fun hs => ?_⟩
  have hnone : wp noStop behindHeap (searchDirEntry ⟨false, 0⟩ [97]) (fun r _ => r = none)
      sampleVolume := by
    rw [searchDirEntry_eq]
    apply wp_call hs
    rintro r w ⟨-, hr⟩
    apply wp_pure.mpr
    by_contra hne
    exact hno (hr.found.mp hne)
  cases (Returns.of_value hfound).of_wp hnone

end Sample

end Gogoos
