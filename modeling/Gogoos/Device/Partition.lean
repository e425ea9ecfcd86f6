import Gogoos.Fs.Volume

/-!
# Partition discovery

`partitionScan` of `device/ide.c`: the recursion over the partition tables of a disk. A sector is
read as its bytes; the buffer that `sysMalloc` returns for it is taken as given. `fuel` bounds the
depth of the recursion, and no result means that it was too small.
-/

namespace Gogoos.Ide

section Programs

structure PartitionTableEntry where
  fsType : UInt8
  startLba : ℕ
  secCnt : ℕ
  deriving DecidableEq

/-- Entry `i` of the table at offset 446 of a boot sector. -/
def entryAt (bs : ℕ → UInt8) (i : ℕ) : PartitionTableEntry where
  fsType := bs (446 + 16 * i + 4)
  startLba := getWord bs (446 + 16 * i + 8)
  secCnt := getWord bs (446 + 16 * i + 12)

def partitionTable (bs : ℕ → UInt8) : List PartitionTableEntry :=
  (List.range 4).map (entryAt bs)

structure Disk where
  name : String
  sectors : ℕ → ℕ → UInt8

/-- An element of one of the two arrays of a disk. -/
inductive Slot where
  | primParts (i : ℕ)
  | logicParts (i : ℕ)
  deriving DecidableEq

/-- What `partitionScan` stores in an element of the arrays. -/
structure Partition where
  slot : Slot
  lbaStart : ℕ
  secCnt : ℕ
  name : String
  deriving DecidableEq

structure Scan where
  extLbaBase : ℕ
  pno : ℕ
  lno : ℕ
  partitionList : List Partition
  deriving DecidableEq

inductive Ended where
  | returned
  | asserted
  deriving DecidableEq

def primPart (hd : Disk) (pno : ℕ) (p : PartitionTableEntry) : Partition where
  slot := .primParts pno
  lbaStart := p.startLba
  secCnt := p.secCnt
  name := hd.name ++ toString (pno + 1)

def logicPart (hd : Disk) (lno lbaStart secCnt : ℕ) : Partition where
  slot := .logicParts lno
  lbaStart := lbaStart
  secCnt := secCnt
  name := hd.name ++ toString (lno + 5)

def Scan.addPrim (s : Scan) (hd : Disk) (p : PartitionTableEntry) : Scan :=
  { s with
    partitionList := s.partitionList ++ [primPart hd s.pno p]
    pno := (s.pno + 1) % 256 }

def Scan.addLogic (s : Scan) (hd : Disk) (extLba : ℕ) (p : PartitionTableEntry) : Scan :=
  { s with
    partitionList := s.partitionList ++
      [logicPart hd s.lno ((extLba + p.startLba) % 2 ^ 32) p.secCnt]
    lno := (s.lno + 1) % 256 }

/-- The sector an extended entry leads to. The first one sets the base. -/
def Scan.follow (s : Scan) (p : PartitionTableEntry) : ℕ × Scan :=
  if s.extLbaBase ≠ 0 then ((p.startLba + s.extLbaBase) % 2 ^ 32, s)
  else (p.startLba, { s with extLbaBase := p.startLba })

/-- The loop over the entries of the sector at `extLba`, with `scan` for the recursive call. -/
def entriesLoop (scan : ℕ → Scan → Option (Ended × Scan)) (hd : Disk) (extLba : ℕ) :
    List PartitionTableEntry → Scan → Option (Ended × Scan)
  | [], s => some (.returned, s)
  | p :: ps, s =>
    if p.fsType = 5 then
      match scan (s.follow p).1 (s.follow p).2 with
      | some (.returned, s') => entriesLoop scan hd extLba ps s'
      | r => r
    else if p.fsType ≠ 0 then
      if extLba = 0 then
        if (s.addPrim hd p).pno < 4 then entriesLoop scan hd extLba ps (s.addPrim hd p)
        else some (.asserted, s.addPrim hd p)
      else if 8 ≤ (s.addLogic hd extLba p).lno then some (.returned, s.addLogic hd extLba p)
      else entriesLoop scan hd extLba ps (s.addLogic hd extLba p)
    else entriesLoop scan hd extLba ps s

def partitionScan (hd : Disk) : (fuel : ℕ) → ℕ → Scan → Option (Ended × Scan)
  | 0, _, _ => none
  | fuel + 1, extLba, s =>
    -- The assertion of `ideRead`.
    if extLba < maxLba then
      entriesLoop (partitionScan hd fuel) hd extLba (partitionTable (hd.sectors extLba)) s
    else some (.asserted, s)

/-- The entries of a table that are in use. -/
def used (ps : List PartitionTableEntry) : List PartitionTableEntry :=
  ps.filter fun p => p.fsType ≠ 0

end Programs

section Recursion

variable {hd : Disk} {scan scan' : ℕ → Scan → Option (Ended × Scan)} {extLba fuel fuel' : ℕ}
  {s : Scan} {r : Ended × Scan} {p : PartitionTableEntry} {ps : List PartitionTableEntry}

theorem entriesLoop_mono (h : ∀ lba s r, scan lba s = some r → scan' lba s = some r)
    (hr : entriesLoop scan hd extLba ps s = some r) :
    entriesLoop scan' hd extLba ps s = some r := by
  induction ps generalizing s with
  | nil => exact hr
  | cons p ps ih =>
    unfold entriesLoop at hr ⊢
    split
    · rename_i h5
      simp only [h5, if_true] at hr
      rcases hscan : scan (s.follow p).1 (s.follow p).2 with _ | ⟨e, s'⟩
      · simp [hscan] at hr
      · rw [hscan] at hr
        rw [h _ _ _ hscan]
        cases e with
        | returned => exact ih hr
        | asserted => exact hr
    · rename_i h5
      simp only [h5, if_false] at hr
      split_ifs at hr ⊢ <;> first | exact ih hr | exact hr

theorem partitionScan_mono (hle : fuel ≤ fuel') {lba : ℕ}
    (hr : partitionScan hd fuel lba s = some r) : partitionScan hd fuel' lba s = some r := by
  induction fuel generalizing fuel' lba s r with
  | zero => simp [partitionScan] at hr
  | succ fuel ih =>
    obtain ⟨n, rfl⟩ : ∃ n, fuel' = n + 1 := ⟨fuel' - 1, by omega⟩
    unfold partitionScan at hr ⊢
    split
    · rename_i hlt
      simp only [hlt, if_true] at hr
      exact entriesLoop_mono (fun _ _ _ h => ih (by omega) h) hr
    · rename_i hlt
      simpa only [hlt, if_false] using hr

theorem partitionScan_det {lba : ℕ} {r' : Ended × Scan}
    (hr : partitionScan hd fuel lba s = some r) (hr' : partitionScan hd fuel' lba s = some r') :
    r = r' := by
  have h := partitionScan_mono (le_max_left fuel fuel') hr
  have h' := partitionScan_mono (le_max_right fuel fuel') hr'
  exact Option.some.inj (h.symm.trans h')

theorem entriesLoop_returned (h5 : p.fsType = 5) {s' : Scan}
    (h : scan (s.follow p).1 (s.follow p).2 = some (.returned, s')) :
    entriesLoop scan hd extLba (p :: ps) s = entriesLoop scan hd extLba ps s' := by
  simp [entriesLoop, h5, h]

theorem entriesLoop_asserted (h5 : p.fsType = 5) {s' : Scan}
    (h : scan (s.follow p).1 (s.follow p).2 = some (.asserted, s')) :
    entriesLoop scan hd extLba (p :: ps) s = some (.asserted, s') := by
  simp [entriesLoop, h5, h]

theorem entriesLoop_used :
    entriesLoop scan hd extLba ps s = entriesLoop scan hd extLba (used ps) s := by
  induction ps generalizing s with
  | nil => rfl
  | cons p ps ih =>
    by_cases h0 : p.fsType = 0
    · have hu : used (p :: ps) = used ps := by simp [used, h0]
      rw [hu, ← ih]
      simp [entriesLoop, h0]
    · have hu : used (p :: ps) = p :: used ps := by simp [used, h0]
      rw [hu]
      unfold entriesLoop
      split
      · rcases scan (s.follow p).1 (s.follow p).2 with _ | ⟨_ | _, s'⟩
        · rfl
        · exact ih
        · rfl
      · split_ifs <;> first | exact ih | rfl

theorem partitionScan_succ {lba : ℕ} (h : lba < maxLba) :
    partitionScan hd (fuel + 1) lba s =
      entriesLoop (partitionScan hd fuel) hd lba (used (partitionTable (hd.sectors lba))) s := by
  rw [← entriesLoop_used]
  simp [partitionScan, h]

theorem partitionScan_assert {lba : ℕ} (h : maxLba ≤ lba) :
    partitionScan hd (fuel + 1) lba s = some (.asserted, s) := by
  simp [partitionScan, Nat.not_lt.mpr h]

/-- With a link and the loop after it, each with fuel enough, also the loop from the link. -/
theorem entriesLoop_link {fuel₁ fuel₂ : ℕ} {s₁ : Scan} (h5 : p.fsType = 5)
    (hscan : partitionScan hd fuel₁ (s.follow p).1 (s.follow p).2 = some (.returned, s₁))
    (hr : entriesLoop (partitionScan hd fuel₂) hd extLba ps s₁ = some r) :
    entriesLoop (partitionScan hd (max fuel₁ fuel₂)) hd extLba (p :: ps) s = some r := by
  have hscan' := partitionScan_mono (le_max_left fuel₁ fuel₂) hscan
  have hr' := entriesLoop_mono
    (fun _ _ _ h => partitionScan_mono (le_max_right fuel₁ fuel₂) h) hr
  exact (entriesLoop_returned h5 hscan').trans hr'

theorem fsType_ne_zero (h : p ∈ used ps) : p.fsType ≠ 0 := by
  simpa using (List.mem_filter.mp h).2

end Recursion

end Gogoos.Ide
