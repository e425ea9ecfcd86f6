import Gogoos.Device.PartitionEnds

/-!
# The partitions that a scan discovers

The tables of a well-formed disk describe primary partitions and a chain of records with the
logical ones. What `partitionScan` stores and appends against what they describe.
-/

namespace Gogoos.Ide

section Tables

/-- Start and length of the logical partition of the record at `lba`. -/
def extents (lba : ℕ) (l : Option PartitionTableEntry) : List (ℕ × ℕ) :=
  l.toList.map fun p => (lba + p.startLba, p.secCnt)

/-- The chain of extended boot records from sector `lba` of the extended partition at `ext`: the
start and length of each logical partition, and the sectors of the records. A record has at most
one logical partition, and a link leads to more of them. -/
inductive Chain (hd : Disk) (ext : ℕ) : ℕ → List (ℕ × ℕ) → List ℕ → Prop
  | last {lba : ℕ} {l : Option PartitionTableEntry}
      (table : used (partitionTable (hd.sectors lba)) = l.toList)
      (logical : ∀ p ∈ l, p.fsType ≠ 5 ∧ lba + p.startLba < 2 ^ 32) :
      Chain hd ext lba (extents lba l) [lba]
  | link {lba : ℕ} {l : Option PartitionTableEntry} {x : PartitionTableEntry}
      {parts : List (ℕ × ℕ)} {ebrs : List ℕ}
      (table : used (partitionTable (hd.sectors lba)) = l.toList ++ [x])
      (logical : ∀ p ∈ l, p.fsType ≠ 5 ∧ lba + p.startLba < 2 ^ 32)
      (extended : x.fsType = 5) (inRange : x.startLba + ext < 2 ^ 32)
      (rest : Chain hd ext (x.startLba + ext) parts ebrs) (more : parts ≠ []) :
      Chain hd ext lba (extents lba l ++ parts) (lba :: ebrs)

/-- What the tables of a disk describe: the primary entries around the extended one, the logical
partitions in it by start and length, and the sectors of its boot records. -/
structure Layout where
  before : List PartitionTableEntry
  ext : Option PartitionTableEntry
  after : List PartitionTableEntry
  logicals : List (ℕ × ℕ)
  ebrs : List ℕ

structure Layout.Describes (t : Layout) (hd : Disk) : Prop where
  table : used (partitionTable (hd.sectors 0)) = t.before ++ t.ext.toList ++ t.after
  primary : ∀ p ∈ t.before ++ t.after, p.fsType ≠ 5
  atMostEight : t.logicals.length ≤ 8
  noChain : t.ext = none → t.logicals = [] ∧ t.ebrs = []
  chain : ∀ x, t.ext = some x → x.fsType = 5 ∧ 0 < x.startLba ∧
    Chain hd x.startLba x.startLba t.logicals t.ebrs

def primParts (hd : Disk) : ℕ → List PartitionTableEntry → List Partition
  | _, [] => []
  | pno, p :: ps => primPart hd pno p :: primParts hd (pno + 1) ps

def logicParts (hd : Disk) : ℕ → List (ℕ × ℕ) → List Partition
  | _, [] => []
  | lno, l :: ls => logicPart hd lno l.1 l.2 :: logicParts hd (lno + 1) ls

/-- The partitions described, in table order. -/
def Layout.partitions (t : Layout) (hd : Disk) : List Partition :=
  primParts hd 0 t.before ++ logicParts hd 0 t.logicals ++ primParts hd t.before.length t.after

def Slot.InBounds : Slot → Prop
  | .primParts i => i < 4
  | .logicParts i => i < 8

/-- There is room for the primary partitions, and `ideRead` accepts the sectors of the records. -/
def Layout.Fits (t : Layout) : Prop :=
  (t.before ++ t.after).length < 4 ∧ ∀ e ∈ t.ebrs, e < maxLba

/-- The scan from the boot record returns, and has stored the partitions described and no other,
in elements of the two arrays, and appended them. -/
def Discovers (hd : Disk) (s : Scan) (t : Layout) : Prop :=
  ∃ fuel s', partitionScan hd fuel 0 s = some (.returned, s') ∧
    s'.partitionList = s.partitionList ++ t.partitions hd ∧
    ∀ p ∈ t.partitions hd, p.slot.InBounds

end Tables

section Discovery

variable {hd : Disk} {scan : ℕ → Scan → Option (Ended × Scan)} {s : Scan} {ext lba : ℕ}
  {l : Option PartitionTableEntry} {parts parts' : List (ℕ × ℕ)} {ebrs : List ℕ}
  {p x : PartitionTableEntry} {ps qs : List PartitionTableEntry} {t : Layout}

/-- With the primary partitions of `ps` added. -/
def Scan.addPrims (s : Scan) (hd : Disk) (ps : List PartitionTableEntry) : Scan :=
  { s with
    pno := s.pno + ps.length
    partitionList := s.partitionList ++ primParts hd s.pno ps }

/-- With the logical partitions `parts` added. -/
def Scan.addLogics (s : Scan) (hd : Disk) (parts : List (ℕ × ℕ)) : Scan :=
  { s with
    lno := s.lno + parts.length
    partitionList := s.partitionList ++ logicParts hd s.lno parts }

theorem logicParts_append (n : ℕ) :
    logicParts hd n (parts ++ parts') =
      logicParts hd n parts ++ logicParts hd (n + parts.length) parts' := by
  induction parts generalizing n with
  | nil => rfl
  | cons l ls ih =>
    have hn : n + (ls.length + 1) = n + 1 + ls.length := by omega
    simp [logicParts, ih, hn]

theorem addLogics_append :
    (s.addLogics hd parts).addLogics hd parts' = s.addLogics hd (parts ++ parts') := by
  simp [Scan.addLogics, logicParts_append, Nat.add_assoc]

@[simp]
theorem addLogics_nil : s.addLogics hd [] = s := by
  simp [Scan.addLogics, logicParts]

theorem addPrims_cons : (s.addPrims hd [p]).addPrims hd ps = s.addPrims hd (p :: ps) := by
  have hn : s.pno + 1 + ps.length = s.pno + (ps.length + 1) := by omega
  simp [Scan.addPrims, primParts, hn]

@[simp]
theorem addPrims_nil : s.addPrims hd [] = s := by
  simp [Scan.addPrims, primParts]

theorem addLogic_eq (hd : Disk) (hlno : s.lno < 8) (h : lba + p.startLba < 2 ^ 32) :
    s.addLogic hd lba p = s.addLogics hd [(lba + p.startLba, p.secCnt)] := by
  have hn : (s.lno + 1) % 256 = s.lno + 1 := Nat.mod_eq_of_lt (by omega)
  simp only [Scan.addLogic, Scan.addLogics, logicParts, hn, Nat.mod_eq_of_lt h]
  rfl

theorem addPrim_eq (hd : Disk) (p : PartitionTableEntry) (hpno : s.pno < 4) :
    s.addPrim hd p = s.addPrims hd [p] := by
  have hn : (s.pno + 1) % 256 = s.pno + 1 := Nat.mod_eq_of_lt (by omega)
  simp [Scan.addPrim, Scan.addPrims, primParts, hn]

theorem extents_length : (extents lba l).length = l.toList.length := by
  simp [extents]

theorem addLogics_extents_lno :
    (s.addLogics hd (extents lba l)).lno = s.lno + l.toList.length := by
  simp [Scan.addLogics, extents_length]

/-- The logical partition of a record, with room for one more after it. -/
theorem entriesLoop_logical (hlba : lba ≠ 0)
    (hl : ∀ p ∈ l, p.fsType ≠ 0 ∧ p.fsType ≠ 5 ∧ lba + p.startLba < 2 ^ 32)
    (hlno : s.lno + l.toList.length < 8) :
    entriesLoop scan hd lba (l.toList ++ qs) s =
      entriesLoop scan hd lba qs (s.addLogics hd (extents lba l)) := by
  cases l with
  | none => simp [extents]
  | some p =>
    obtain ⟨h0, h5, hp⟩ := hl p rfl
    have hlno' : s.lno + 1 < 8 := hlno
    have hadd := addLogic_eq (s := s) hd (by omega) hp
    have hfree : ¬ 8 ≤ (s.addLogic hd lba p).lno := by
      rw [hadd]
      exact Nat.not_le.mpr hlno'
    simp only [Option.toList_some, List.singleton_append, entriesLoop, h5, h0, hlba, hfree,
      if_false, if_true, ne_eq, not_false_eq_true]
    rw [hadd]
    rfl

/-- The logical partition of the last record: with it the array may be full. -/
theorem entriesLoop_last (hlba : lba ≠ 0)
    (hl : ∀ p ∈ l, p.fsType ≠ 0 ∧ p.fsType ≠ 5 ∧ lba + p.startLba < 2 ^ 32)
    (hlno : s.lno + l.toList.length ≤ 8) :
    entriesLoop scan hd lba l.toList s =
      some (.returned, s.addLogics hd (extents lba l)) := by
  cases l with
  | none => simp [extents, entriesLoop]
  | some p =>
    obtain ⟨h0, h5, hp⟩ := hl p rfl
    have hlno' : s.lno + 1 ≤ 8 := hlno
    have hadd := addLogic_eq (s := s) hd (by omega) hp
    simp only [Option.toList_some, entriesLoop, h5, h0, hlba, if_false, if_true, ne_eq,
      not_false_eq_true, ite_self]
    rw [hadd]
    rfl

theorem logical_in_use (table : used (partitionTable (hd.sectors lba)) = l.toList ++ qs)
    (logical : ∀ p ∈ l, p.fsType ≠ 5 ∧ lba + p.startLba < 2 ^ 32) :
    ∀ p ∈ l, p.fsType ≠ 0 ∧ p.fsType ≠ 5 ∧ lba + p.startLba < 2 ^ 32 := by
  intro p hp
  have hmem : p ∈ used (partitionTable (hd.sectors lba)) := by
    rw [table]
    exact List.mem_append_left _ (Option.mem_toList.mpr hp)
  exact ⟨fsType_ne_zero hmem, logical p hp⟩

theorem partitionScan_link (hlt : lba < maxLba) (hlba : lba ≠ 0) (hext : ext ≠ 0)
    (hbase : s.extLbaBase = ext)
    (table : used (partitionTable (hd.sectors lba)) = l.toList ++ [x])
    (logical : ∀ p ∈ l, p.fsType ≠ 5 ∧ lba + p.startLba < 2 ^ 32) (extended : x.fsType = 5)
    (inRange : x.startLba + ext < 2 ^ 32) (hlno : s.lno + l.toList.length < 8) (fuel : ℕ) :
    partitionScan hd (fuel + 1) lba s =
      partitionScan hd fuel (x.startLba + ext) (s.addLogics hd (extents lba l)) := by
  have hl := logical_in_use table logical
  have hfollow : (s.addLogics hd (extents lba l)).follow x =
      (x.startLba + ext, s.addLogics hd (extents lba l)) := by
    have hbase' : (s.addLogics hd (extents lba l)).extLbaBase = ext := hbase
    rw [follow_base hbase' hext, Nat.mod_eq_of_lt inRange]
  rw [partitionScan_succ hlt, table, entriesLoop_logical hlba hl hlno]
  simp only [entriesLoop, extended, if_true, hfollow]
  rcases partitionScan hd fuel (x.startLba + ext) (s.addLogics hd (extents lba l)) with
    _ | ⟨_ | _, s'⟩ <;> rfl

theorem partitionScan_last (hlt : lba < maxLba) (hlba : lba ≠ 0)
    (table : used (partitionTable (hd.sectors lba)) = l.toList)
    (logical : ∀ p ∈ l, p.fsType ≠ 5 ∧ lba + p.startLba < 2 ^ 32)
    (hlno : s.lno + l.toList.length ≤ 8) :
    partitionScan hd 1 lba s = some (.returned, s.addLogics hd (extents lba l)) := by
  have hl := logical_in_use (table.trans (List.append_nil _).symm) logical
  rw [partitionScan_succ hlt, table, entriesLoop_last hlba hl hlno]

/-- Along a chain whose records can be read every logical partition is found. -/
theorem Chain.returned (h : Chain hd ext lba parts ebrs) (hext : ext ≠ 0) (hlba : lba ≠ 0)
    (hbase : s.extLbaBase = ext) (hlno : s.lno + parts.length ≤ 8)
    (hin : ∀ e ∈ ebrs, e < maxLba) :
    ∃ fuel, partitionScan hd fuel lba s = some (.returned, s.addLogics hd parts) := by
  induction h generalizing s with
  | last table logical =>
    rw [extents_length] at hlno
    exact ⟨1, partitionScan_last (hin _ (List.mem_singleton_self _)) hlba table logical hlno⟩
  | @link lba l x parts ebrs table logical extended inRange rest more ih =>
    rw [List.length_append, extents_length] at hlno
    have hmore := List.length_pos_of_ne_nil more
    have hlno' : (s.addLogics hd (extents lba l)).lno + parts.length ≤ 8 := by
      rw [addLogics_extents_lno]
      omega
    obtain ⟨fuel, hscan⟩ := ih (s := s.addLogics hd (extents lba l)) (by omega) hbase hlno'
      fun e he => hin e (List.mem_cons_of_mem _ he)
    refine ⟨fuel + 1, ?_⟩
    rw [partitionScan_link (hin lba (List.mem_cons_self ..)) hlba hext hbase table logical
      extended inRange (by omega), hscan, addLogics_append]

/-- The first record that `ideRead` does not accept stops the scan. -/
theorem Chain.asserted (h : Chain hd ext lba parts ebrs) (hext : ext ≠ 0) (hlba : lba ≠ 0)
    (hbase : s.extLbaBase = ext) (hlno : s.lno + parts.length ≤ 8)
    (hout : ∃ e ∈ ebrs, maxLba ≤ e) :
    ∃ fuel s', partitionScan hd fuel lba s = some (.asserted, s') := by
  induction h generalizing s with
  | last table logical =>
    obtain ⟨e, he, hle⟩ := hout
    rw [List.mem_singleton.mp he] at hle
    exact ⟨1, s, partitionScan_assert hle⟩
  | @link lba l x parts ebrs table logical extended inRange rest more ih =>
    rcases Nat.lt_or_ge lba maxLba with hlt | hge
    · rw [List.length_append, extents_length] at hlno
      have hmore := List.length_pos_of_ne_nil more
      have hlno' : (s.addLogics hd (extents lba l)).lno + parts.length ≤ 8 := by
        rw [addLogics_extents_lno]
        omega
      have hrest : ∃ e ∈ ebrs, maxLba ≤ e := by
        obtain ⟨e, he, hle⟩ := hout
        rcases List.mem_cons.mp he with rfl | he
        · omega
        · exact ⟨e, he, hle⟩
      obtain ⟨fuel, s', hscan⟩ :=
        ih (s := s.addLogics hd (extents lba l)) (by omega) hbase hlno' hrest
      refine ⟨fuel + 1, s', ?_⟩
      rw [partitionScan_link hlt hlba hext hbase table logical extended inRange (by omega), hscan]
    · exact ⟨1, s, partitionScan_assert hge⟩

theorem entriesLoop_prims (hps : ∀ p ∈ ps, p.fsType ≠ 0 ∧ p.fsType ≠ 5)
    (hpno : s.pno + ps.length < 4) :
    entriesLoop scan hd 0 (ps ++ qs) s = entriesLoop scan hd 0 qs (s.addPrims hd ps) := by
  induction ps generalizing s with
  | nil => simp
  | cons p ps ih =>
    obtain ⟨h0, h5⟩ := hps p (List.mem_cons_self ..)
    rw [List.length_cons] at hpno
    have hadd := addPrim_eq (s := s) hd p (by omega)
    have hfree : (s.addPrims hd [p]).pno < 4 := by
      simp only [Scan.addPrims, List.length_singleton]
      omega
    have hlen : (s.addPrims hd [p]).pno + ps.length < 4 := by
      simp only [Scan.addPrims, List.length_singleton]
      omega
    have hrest := ih (fun q hq => hps q (List.mem_cons_of_mem _ hq)) hlen
    simp only [List.cons_append, entriesLoop, h5, h0, if_false, if_true, ne_eq,
      not_false_eq_true, hadd, hfree]
    rw [hrest, addPrims_cons]

/-- The fourth primary partition fails the assertion after it. -/
theorem entriesLoop_prims_assert (hps : ∀ p ∈ ps, p.fsType ≠ 0 ∧ p.fsType ≠ 5)
    (hpno : s.pno < 4) (hfull : 4 ≤ s.pno + ps.length) :
    ∃ s', entriesLoop scan hd 0 (ps ++ qs) s = some (.asserted, s') := by
  induction ps generalizing s with
  | nil =>
    rw [List.length_nil] at hfull
    omega
  | cons p ps ih =>
    obtain ⟨h0, h5⟩ := hps p (List.mem_cons_self ..)
    rw [List.length_cons] at hfull
    have hadd := addPrim_eq hd p hpno
    have hnext : (s.addPrims hd [p]).pno = s.pno + 1 := rfl
    simp only [List.cons_append, entriesLoop, h5, h0, if_false, if_true, ne_eq,
      not_false_eq_true, hadd]
    split_ifs with hfree
    · exact ih (fun q hq => hps q (List.mem_cons_of_mem _ hq)) hfree (by omega)
    · exact ⟨_, rfl⟩

theorem primParts_inBounds (n : ℕ) (hn : n + ps.length ≤ 4) :
    ∀ q ∈ primParts hd n ps, q.slot.InBounds := by
  induction ps generalizing n with
  | nil => simp [primParts]
  | cons p ps ih =>
    rw [List.length_cons] at hn
    intro q hq
    rcases List.mem_cons.mp hq with rfl | hq
    · show n < 4
      omega
    · exact ih (n + 1) (by omega) q hq

theorem logicParts_inBounds (n : ℕ) (hn : n + parts.length ≤ 8) :
    ∀ q ∈ logicParts hd n parts, q.slot.InBounds := by
  induction parts generalizing n with
  | nil => simp [logicParts]
  | cons l ls ih =>
    rw [List.length_cons] at hn
    intro q hq
    rcases List.mem_cons.mp hq with rfl | hq
    · show n < 8
      omega
    · exact ih (n + 1) (by omega) q hq

theorem Layout.Describes.inBounds (ht : t.Describes hd) (hfits : t.Fits) :
    ∀ q ∈ t.partitions hd, q.slot.InBounds := by
  have hlen := hfits.1
  rw [List.length_append] at hlen
  intro q hq
  rcases List.mem_append.mp hq with hq | hq
  · rcases List.mem_append.mp hq with hq | hq
    · exact primParts_inBounds 0 (by omega) q hq
    · exact logicParts_inBounds 0 (by have := ht.atMostEight; omega) q hq
  · exact primParts_inBounds _ (by omega) q hq

theorem Layout.Describes.prims (ht : t.Describes hd) :
    ∀ p ∈ t.before ++ t.after, p.fsType ≠ 0 ∧ p.fsType ≠ 5 := by
  intro p hp
  have hmem : p ∈ used (partitionTable (hd.sectors 0)) := by
    rw [ht.table]
    simp only [List.mem_append] at hp ⊢
    rcases hp with hp | hp
    · exact Or.inl (Or.inl hp)
    · exact Or.inr hp
  exact ⟨fsType_ne_zero hmem, ht.primary p hp⟩

/-- The extended entry of the boot record, while the base is 0. -/
theorem Layout.Describes.loop_ext (ht : t.Describes hd)
    (hbase : s.extLbaBase = 0 ∨ t.ext = none) (hlno : s.lno = 0)
    (hin : ∀ e ∈ t.ebrs, e < maxLba) :
    ∃ fuel b, ∀ qs, entriesLoop (partitionScan hd fuel) hd 0 (t.ext.toList ++ qs) s =
      entriesLoop (partitionScan hd fuel) hd 0 qs
        ({ s with extLbaBase := b }.addLogics hd t.logicals) := by
  cases hx : t.ext with
  | none =>
    obtain ⟨hl, -⟩ := ht.noChain hx
    exact ⟨0, s.extLbaBase, fun qs => by simp [hl]⟩
  | some x =>
    obtain ⟨h5, hpos, hchain⟩ := ht.chain x hx
    have hb : s.extLbaBase = 0 := by simpa [hx] using hbase
    have hroom := ht.atMostEight
    obtain ⟨fuel, hscan⟩ := hchain.returned (s := { s with extLbaBase := x.startLba })
      (by omega) (by omega) rfl (by simp only [hlno]; omega) hin
    exact ⟨fuel, x.startLba, fun qs =>
      entriesLoop_returned h5 (by rw [follow_fresh hb]; exact hscan)⟩

theorem Layout.Describes.loop_ext_assert (ht : t.Describes hd)
    (hbase : s.extLbaBase = 0 ∨ t.ext = none) (hlno : s.lno = 0)
    (hout : ∃ e ∈ t.ebrs, maxLba ≤ e) :
    ∃ fuel s', ∀ qs, entriesLoop (partitionScan hd fuel) hd 0 (t.ext.toList ++ qs) s =
      some (.asserted, s') := by
  cases hx : t.ext with
  | none =>
    obtain ⟨-, he⟩ := ht.noChain hx
    simp [he] at hout
  | some x =>
    obtain ⟨h5, hpos, hchain⟩ := ht.chain x hx
    have hb : s.extLbaBase = 0 := by simpa [hx] using hbase
    have hroom := ht.atMostEight
    obtain ⟨fuel, s', hscan⟩ := hchain.asserted (s := { s with extLbaBase := x.startLba })
      (by omega) (by omega) rfl (by simp only [hlno]; omega) hout
    exact ⟨fuel, s', fun qs =>
      entriesLoop_asserted h5 (by rw [follow_fresh hb]; exact hscan)⟩

theorem maxLba_pos : 0 < maxLba := by decide

/-- The loop over the boot record, behind the first primary partitions. -/
theorem Layout.Describes.scan_before (ht : t.Describes hd)
    (hlt : s.pno + t.before.length < 4) (fuel : ℕ) :
    partitionScan hd (fuel + 1) 0 s = entriesLoop (partitionScan hd fuel) hd 0
      (t.ext.toList ++ t.after) (s.addPrims hd t.before) := by
  have hprims := fun p hp => ht.prims p (List.mem_append_left _ hp)
  rw [partitionScan_succ maxLba_pos, ht.table, List.append_assoc, entriesLoop_prims hprims hlt]

theorem Layout.Describes.scan_returned (ht : t.Describes hd) (hpno : s.pno = 0)
    (hlno : s.lno = 0) (hbase : s.extLbaBase = 0 ∨ t.ext = none) (hfits : t.Fits) :
    ∃ fuel s', partitionScan hd fuel 0 s = some (.returned, s') ∧
      s'.partitionList = s.partitionList ++ t.partitions hd := by
  obtain ⟨hlen, hin⟩ := hfits
  rw [List.length_append] at hlen
  have hprims := fun p hp => ht.prims p (List.mem_append_right _ hp)
  obtain ⟨fuel, b, hext⟩ := ht.loop_ext (s := s.addPrims hd t.before) hbase hlno hin
  refine ⟨fuel + 1,
    ({ s.addPrims hd t.before with extLbaBase := b }.addLogics hd t.logicals).addPrims hd t.after,
    ?_, ?_⟩
  · rw [ht.scan_before (by omega), hext, ← List.append_nil t.after, entriesLoop_prims hprims ?_]
    · simp [entriesLoop]
    · simp only [Scan.addLogics, Scan.addPrims]
      omega
  · simp [Scan.addLogics, Scan.addPrims, Layout.partitions, hpno, hlno]

theorem Layout.Describes.before_full (ht : t.Describes hd) (hpno : s.pno = 0)
    (hge : 4 ≤ t.before.length) :
    ∃ fuel s', partitionScan hd fuel 0 s = some (.asserted, s') := by
  have hprims := fun p hp => ht.prims p (List.mem_append_left _ hp)
  obtain ⟨s', hs'⟩ : ∃ s', entriesLoop (partitionScan hd 0) hd 0
      (t.before ++ (t.ext.toList ++ t.after)) s = some (.asserted, s') :=
    entriesLoop_prims_assert hprims (by omega) (by omega)
  refine ⟨1, s', ?_⟩
  rw [partitionScan_succ maxLba_pos, ht.table, List.append_assoc, hs']

theorem Layout.Describes.after_full (ht : t.Describes hd) (hpno : s.pno = 0)
    (hlno : s.lno = 0) (hbase : s.extLbaBase = 0 ∨ t.ext = none)
    (hin : ∀ e ∈ t.ebrs, e < maxLba) (hlt : t.before.length < 4)
    (hfull : 4 ≤ (t.before ++ t.after).length) :
    ∃ fuel s', partitionScan hd fuel 0 s = some (.asserted, s') := by
  rw [List.length_append] at hfull
  have hprims := fun p hp => ht.prims p (List.mem_append_right _ hp)
  obtain ⟨fuel, b, hext⟩ := ht.loop_ext (s := s.addPrims hd t.before) hbase hlno hin
  obtain ⟨s', hs'⟩ : ∃ s', entriesLoop (partitionScan hd fuel) hd 0 (t.after ++ [])
      ({ s.addPrims hd t.before with extLbaBase := b }.addLogics hd t.logicals) =
        some (.asserted, s') := by
    apply entriesLoop_prims_assert hprims
    · simp only [Scan.addLogics, Scan.addPrims]
      omega
    · simp only [Scan.addLogics, Scan.addPrims]
      omega
  refine ⟨fuel + 1, s', ?_⟩
  rw [ht.scan_before (by omega), hext, ← List.append_nil t.after, hs']

theorem Layout.Describes.scan_asserted (ht : t.Describes hd) (hpno : s.pno = 0)
    (hlno : s.lno = 0) (hbase : s.extLbaBase = 0 ∨ t.ext = none) (hfits : ¬ t.Fits) :
    ∃ fuel s', partitionScan hd fuel 0 s = some (.asserted, s') := by
  rcases Nat.lt_or_ge t.before.length 4 with hlt | hge
  · by_cases hin : ∀ e ∈ t.ebrs, e < maxLba
    · have hfull : 4 ≤ (t.before ++ t.after).length := by
        by_contra hfew
        exact hfits ⟨by omega, hin⟩
      exact ht.after_full hpno hlno hbase hin hlt hfull
    · have hout : ∃ e ∈ t.ebrs, maxLba ≤ e := by
        push Not at hin
        exact hin
      obtain ⟨fuel, s', hext⟩ := ht.loop_ext_assert (s := s.addPrims hd t.before) hbase hlno hout
      exact ⟨fuel + 1, s', (ht.scan_before (by omega) fuel).trans (hext t.after)⟩
  · exact ht.before_full hpno hge

theorem not_discovers_of_asserted {fuel : ℕ} {s' : Scan}
    (hassert : partitionScan hd fuel 0 s = some (.asserted, s')) : ¬ Discovers hd s t := by
  rintro ⟨fuel', s'', hscan, -⟩
  have h := partitionScan_det hassert hscan
  exact Ended.noConfusion (Prod.mk.inj h).1

theorem Layout.Describes.discovers_iff (ht : t.Describes hd) (hpno : s.pno = 0)
    (hlno : s.lno = 0) (hbase : s.extLbaBase = 0 ∨ t.ext = none) :
    Discovers hd s t ↔ t.Fits := by
  constructor
  · intro hfound
    by_contra hfits
    obtain ⟨fuel, s', hscan⟩ := ht.scan_asserted hpno hlno hbase hfits
    exact not_discovers_of_asserted hscan hfound
  · intro hfits
    obtain ⟨fuel, s', hscan, hlist⟩ := ht.scan_returned hpno hlno hbase hfits
    exact ⟨fuel, s', hscan, hlist, ht.inBounds hfits⟩

theorem Chain.head_mem (h : Chain hd ext lba parts ebrs) : lba ∈ ebrs := by
  cases h with
  | last => exact List.mem_singleton_self _
  | link => exact List.mem_cons_self ..

/-- With a base that sends the extended entry behind the last sector the scan fails. -/
theorem Layout.Describes.stale (ht : t.Describes hd) (hfits : t.Fits) (hpno : s.pno = 0)
    (hx : t.ext = some x) :
    ¬ Discovers hd { s with extLbaBase := maxLba - x.startLba } t := by
  obtain ⟨h5, hpos, hchain⟩ := ht.chain x hx
  have hlt := hfits.2 _ hchain.head_mem
  have hlen := hfits.1
  rw [List.length_append] at hlen
  have hsum : (x.startLba + (maxLba - x.startLba)) % 2 ^ 32 = maxLba := by
    rw [Nat.add_sub_cancel' hlt.le]
    decide
  set s₀ : Scan := { s with extLbaBase := maxLba - x.startLba }
  have hfollow : (s₀.addPrims hd t.before).follow x = (maxLba, s₀.addPrims hd t.before) := by
    have hbase : (s₀.addPrims hd t.before).extLbaBase = maxLba - x.startLba := rfl
    rw [follow_base hbase (by omega), hsum]
  have hloop : entriesLoop (partitionScan hd 1) hd 0 (x :: t.after) (s₀.addPrims hd t.before) =
      some (.asserted, s₀.addPrims hd t.before) :=
    entriesLoop_asserted h5 (by rw [hfollow]; exact partitionScan_assert le_rfl)
  have hpno₀ : s₀.pno = 0 := hpno
  have hscan : partitionScan hd 2 0 s₀ = some (.asserted, s₀.addPrims hd t.before) := by
    rw [ht.scan_before (by omega), hx]
    exact hloop
  exact not_discovers_of_asserted hscan

/-- A disk is scanned with both counters at 0, as `ideInit` sets them. While the base is 0 or no
extended partition is described, and the links end, discovery is right exactly when at most three
primary partitions and no record behind the last sector are described. A disk with an extended
partition is not discovered with every base that an earlier disk may leave. And the links do end
where a scan returns that found fewer than eight partitions. -/
theorem partition_scan_law (hd : Disk) (s : Scan) (hpno : s.pno = 0) (hlno : s.lno = 0) :
    ((s.extLbaBase = 0 ∨ ∀ t : Layout, t.Describes hd → t.ext = none) →
      LinksEnd hd s.extLbaBase (partitionTable (hd.sectors 0)) →
      ((Stops hd s ∧ ∀ t : Layout, t.Describes hd → Discovers hd s t) ↔
        ∀ t : Layout, t.Describes hd → t.Fits)) ∧
    (∀ t : Layout, t.Describes hd → t.Fits → t.ext ≠ none →
      ∃ base, 0 < base ∧ base < maxLba ∧ ¬ Discovers hd { s with extLbaBase := base } t) ∧
    ∀ fuel s', partitionScan hd fuel 0 s = some (.returned, s') →
      s'.partitionList.length < s.partitionList.length + 8 →
      LinksEnd hd s.extLbaBase (partitionTable (hd.sectors 0)) := by
  constructor
  · intro hbase hlinks
    have hiff : ∀ t : Layout, t.Describes hd → (Discovers hd s t ↔ t.Fits) := fun t ht =>
      ht.discovers_iff hpno hlno (hbase.imp_right fun h => h t ht)
    constructor
    · intro h t ht
      exact (hiff t ht).mp (h.2 t ht)
    · intro h
      exact ⟨hlinks.stops, fun t ht => (hiff t ht).mpr (h t ht)⟩
  constructor
  · intro t ht hfits hext
    obtain ⟨x, hx⟩ := Option.ne_none_iff_exists'.mp hext
    obtain ⟨-, hpos, hchain⟩ := ht.chain x hx
    have hlt := hfits.2 _ hchain.head_mem
    exact ⟨maxLba - x.startLba, by omega, by omega, ht.stale hfits hpno hx⟩
  · intro fuel s' hr hlen
    have hfew : Few s s' := by
      unfold Few
      omega
    exact LinksEnd.of_returned hr hfew

/-- The bytes of a boot sector with the table `ps`. -/
def sectorBytes (ps : List PartitionTableEntry) (off : ℕ) : UInt8 :=
  let p := ps.getD ((off - 446) / 16) ⟨0, 0, 0⟩
  let k := (off - 446) % 16
  if k = 4 then p.fsType
  else if k < 8 then 0
  else if k < 12 then wordByte p.startLba (k - 8)
  else wordByte p.secCnt (k - 12)

/-- A disk with one extended partition, one logical partition in it. -/
def extDisk : Disk where
  name := "sdb"
  sectors lba :=
    if lba = 0 then sectorBytes [⟨5, 16, 16⟩]
    else if lba = 16 then sectorBytes [⟨0x83, 1, 8⟩]
    else sectorBytes []

def extLayout : Layout where
  before := []
  ext := some ⟨5, 16, 16⟩
  after := []
  logicals := [(17, 8)]
  ebrs := [16]

theorem extLayout_describes : extLayout.Describes extDisk where
  table := by decide
  primary := by simp [extLayout]
  atMostEight := by decide
  noChain h := by simp [extLayout] at h
  chain x hx := by
    obtain rfl : ⟨5, 16, 16⟩ = x := Option.some.inj hx
    exact ⟨rfl, by decide, .last (l := some ⟨0x83, 1, 8⟩) (by decide) (by simp)⟩

theorem extDisk_linksEnd : LinksEnd extDisk 0 (partitionTable (extDisk.sectors 0)) := by
  have hblank : ∀ p ∈ partitionTable (extDisk.sectors 16), p.fsType ≠ 5 := by decide
  have hends : Ends extDisk 16 16 := ⟨fun _ p hp h5 => absurd h5 (hblank p hp)⟩
  have htable : partitionTable (extDisk.sectors 0) =
      [⟨5, 16, 16⟩, ⟨0, 0, 0⟩, ⟨0, 0, 0⟩, ⟨0, 0, 0⟩] := by decide
  rw [htable]
  simpa [LinksEnd] using hends

theorem partition_scan_law_sample :
    (Stops extDisk ⟨0, 0, 0, []⟩ ∧
      ∀ t : Layout, t.Describes extDisk → Discovers extDisk ⟨0, 0, 0, []⟩ t) ↔
      ∀ t : Layout, t.Describes extDisk → t.Fits :=
  (partition_scan_law extDisk ⟨0, 0, 0, []⟩ rfl rfl).1 (Or.inl rfl) extDisk_linksEnd

/-- A disk with four primary partitions. -/
def fullDisk : Disk where
  name := "sdb"
  sectors lba :=
    if lba = 0 then sectorBytes [⟨0x83, 8, 8⟩, ⟨0x83, 16, 8⟩, ⟨0x83, 24, 8⟩, ⟨0x83, 32, 8⟩]
    else sectorBytes []

def fullLayout : Layout where
  before := [⟨0x83, 8, 8⟩, ⟨0x83, 16, 8⟩, ⟨0x83, 24, 8⟩, ⟨0x83, 32, 8⟩]
  ext := none
  after := []
  logicals := []
  ebrs := []

theorem fullLayout_describes : fullLayout.Describes fullDisk where
  table := by decide
  primary := by decide
  atMostEight := by decide
  noChain _ := ⟨rfl, rfl⟩
  chain x hx := by simp [fullLayout] at hx

/-- A disk whose first extended boot record is linked to itself. -/
def loopDisk : Disk where
  name := "sdb"
  sectors lba :=
    if lba = 0 then sectorBytes [⟨5, 16, 16⟩]
    else if lba = 16 then sectorBytes [⟨5, 0, 16⟩]
    else sectorBytes []

theorem loopDisk_scan (fuel : ℕ) (hs : s.extLbaBase = 16) :
    partitionScan loopDisk fuel 16 s = none := by
  induction fuel with
  | zero => rfl
  | succ fuel ih =>
    have htable : used (partitionTable (loopDisk.sectors 16)) = [⟨5, 0, 16⟩] := by decide
    have hfollow : s.follow ⟨5, 0, 16⟩ = (16, s) := by simp [Scan.follow, hs]
    rw [partitionScan_succ (by decide), htable]
    simp [entriesLoop, hfollow, ih]

/-- Four primary partitions fail the assertion; the second of two disks is read with the base of
the first; and a loop of links has no end. -/
theorem partitionScan_fails :
    (fullLayout.Describes fullDisk ∧ ¬ Discovers fullDisk ⟨0, 0, 0, []⟩ fullLayout) ∧
    (∃ s, partitionScan extDisk 2 0 ⟨0, 0, 0, []⟩ = some (.returned, s) ∧
      extLayout.Describes extDisk ∧
      ¬ Discovers extDisk { s with pno := 0, lno := 0 } extLayout) ∧
    ¬ Stops loopDisk ⟨0, 0, 0, []⟩ := by
  have hfull : ¬ fullLayout.Fits := fun h => absurd h.1 (by decide)
  constructor
  · rw [fullLayout_describes.discovers_iff rfl rfl (Or.inl rfl)]
    exact ⟨fullLayout_describes, hfull⟩
  constructor
  · refine ⟨⟨16, 0, 1, [logicPart extDisk 0 17 8]⟩, rfl, extLayout_describes, ?_⟩
    rintro ⟨fuel, s', hscan, hlist, -⟩
    -- The second time the record is looked for at 32, where the table is empty.
    have hstale : partitionScan extDisk 2 0 ⟨16, 0, 0, [logicPart extDisk 0 17 8]⟩ =
        some (.returned, ⟨16, 0, 0, [logicPart extDisk 0 17 8]⟩) := rfl
    have h := partitionScan_det hstale hscan
    obtain rfl := (Prod.mk.inj h).2
    have hlen := congrArg List.length hlist
    simp [Layout.partitions, extLayout, primParts, logicParts] at hlen
  · rintro ⟨fuel, r, hr⟩
    cases fuel with
    | zero => simp [partitionScan] at hr
    | succ fuel =>
      have htable : used (partitionTable (loopDisk.sectors 0)) = [⟨5, 16, 16⟩] := by decide
      rw [partitionScan_succ maxLba_pos, htable] at hr
      simp [entriesLoop, follow_fresh, loopDisk_scan] at hr

end Discovery

end Gogoos.Ide
