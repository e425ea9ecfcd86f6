import Gogoos.Device.Partition

/-!
# When a partition scan ends

The links between the extended boot records of a disk may lead in a circle, and the scan follows
them without an end. It stops on every disk whose chains of links end, and where it returns before
the array of logical partitions is full they do.
-/

namespace Gogoos.Ide

section Links

def Stops (hd : Disk) (s : Scan) : Prop := ∃ fuel r, partitionScan hd fuel 0 s = some r

/-- Every chain of links from the sector at `lba`, with base `b`, ends. -/
inductive Ends (hd : Disk) (b : ℕ) : ℕ → Prop
  | intro {lba : ℕ} (links : lba < maxLba → ∀ p ∈ partitionTable (hd.sectors lba), p.fsType = 5 →
      Ends hd b ((p.startLba + b) % 2 ^ 32)) : Ends hd b lba

/-- Every chain of links from the entries of the boot record ends; the first one sets the base
where it is still 0. -/
def LinksEnd (hd : Disk) : ℕ → List PartitionTableEntry → Prop
  | _, [] => True
  | b, p :: ps =>
    if p.fsType = 5 then
      if b ≠ 0 then Ends hd b ((p.startLba + b) % 2 ^ 32) ∧ LinksEnd hd b ps
      else p.startLba ≠ 0 ∧ Ends hd p.startLba p.startLba ∧ LinksEnd hd p.startLba ps
    else LinksEnd hd b ps

end Links

section Termination

variable {hd : Disk} {b : ℕ} {s : Scan} {ps : List PartitionTableEntry}

theorem follow_base (hs : s.extLbaBase = b) (hb : b ≠ 0) (p : PartitionTableEntry) :
    s.follow p = ((p.startLba + b) % 2 ^ 32, s) := by
  simp [Scan.follow, hs, hb]

theorem follow_fresh (hs : s.extLbaBase = 0) (p : PartitionTableEntry) :
    s.follow p = (p.startLba, { s with extLbaBase := p.startLba }) := by
  simp [Scan.follow, hs]

/-- A loop stops and leaves the base where each of its links does. -/
theorem entriesLoop_stops (extLba : ℕ) (hb : b ≠ 0)
    (hlinks : ∀ p ∈ ps, p.fsType = 5 → ∀ s : Scan, s.extLbaBase = b →
      ∃ fuel r, partitionScan hd fuel ((p.startLba + b) % 2 ^ 32) s = some r ∧
        r.2.extLbaBase = b) (hs : s.extLbaBase = b) :
    ∃ fuel r, entriesLoop (partitionScan hd fuel) hd extLba ps s = some r ∧
      r.2.extLbaBase = b := by
  induction ps generalizing s with
  | nil => exact ⟨0, _, rfl, hs⟩
  | cons p ps ih =>
    have hrest := fun {s} => ih (s := s) fun q hq => hlinks q (List.mem_cons_of_mem _ hq)
    by_cases h5 : p.fsType = 5
    · obtain ⟨fuel₁, ⟨e, s₁⟩, hscan, hs₁⟩ := hlinks p (List.mem_cons_self ..) h5 s hs
      have hfollow := follow_base hs hb p
      cases e with
      | asserted =>
        exact ⟨fuel₁, _, entriesLoop_asserted h5 (by rw [hfollow]; exact hscan), hs₁⟩
      | returned =>
        obtain ⟨fuel₂, r, hr, hbase⟩ := hrest hs₁
        exact ⟨max fuel₁ fuel₂, r, entriesLoop_link h5 (by rw [hfollow]; exact hscan) hr, hbase⟩
    · have hprim := hrest (s := s.addPrim hd p) hs
      have hlogic := hrest (s := s.addLogic hd extLba p) hs
      have hskip := hrest hs
      simp only [entriesLoop, h5, if_false]
      split_ifs
      · exact hprim
      · exact ⟨0, _, rfl, hs⟩
      · exact ⟨0, _, rfl, hs⟩
      · exact hlogic
      · exact hskip

theorem Ends.stops {lba : ℕ} (h : Ends hd b lba) (hb : b ≠ 0) :
    ∀ s : Scan, s.extLbaBase = b →
      ∃ fuel r, partitionScan hd fuel lba s = some r ∧ r.2.extLbaBase = b := by
  induction h with
  | @intro lba _ ih =>
    intro s hs
    by_cases hlt : lba < maxLba
    · obtain ⟨fuel, r, hr, hbase⟩ := entriesLoop_stops lba hb (ih hlt) hs
      exact ⟨fuel + 1, r, by simpa [partitionScan, hlt] using hr, hbase⟩
    · exact ⟨1, _, partitionScan_assert (Nat.not_lt.mp hlt), hs⟩

/-- The loop over the boot record: what a link leaves of the base is what it was read with. -/
theorem LinksEnd.stops_loop (h : LinksEnd hd s.extLbaBase ps) :
    ∃ fuel r, entriesLoop (partitionScan hd fuel) hd 0 ps s = some r := by
  induction ps generalizing s with
  | nil => exact ⟨0, _, rfl⟩
  | cons p ps ih =>
    by_cases h5 : p.fsType = 5
    · -- The base with which the entry is followed, and the rest of the loop read.
      obtain ⟨lba, s₀, hfollow, hbase, hends, hrest⟩ : ∃ lba s₀, s.follow p = (lba, s₀) ∧
          s₀.extLbaBase ≠ 0 ∧ Ends hd s₀.extLbaBase lba ∧ LinksEnd hd s₀.extLbaBase ps := by
        by_cases hb : s.extLbaBase = 0
        · simp only [LinksEnd, h5, hb, if_true, ne_eq, not_true_eq_false, if_false] at h
          exact ⟨_, _, follow_fresh hb p, h.1, h.2.1, h.2.2⟩
        · simp only [LinksEnd, h5, hb, if_true, ne_eq, not_false_eq_true] at h
          exact ⟨_, _, follow_base rfl hb p, hb, h.1, h.2⟩
      obtain ⟨fuel₁, ⟨e, s₁⟩, hscan, hs₁⟩ := hends.stops hbase s₀ rfl
      cases e with
      | asserted => exact ⟨fuel₁, _, entriesLoop_asserted h5 (by rw [hfollow]; exact hscan)⟩
      | returned =>
        obtain ⟨fuel₂, r, hr⟩ := ih (s := s₁) (by rw [hs₁]; exact hrest)
        exact ⟨max fuel₁ fuel₂, r, entriesLoop_link h5 (by rw [hfollow]; exact hscan) hr⟩
    · have hrest : LinksEnd hd s.extLbaBase ps := by simpa [LinksEnd, h5] using h
      have hprim := ih (s := s.addPrim hd p) hrest
      have hskip := ih hrest
      simp only [entriesLoop, h5, if_false, if_true]
      split_ifs
      · exact hprim
      · exact ⟨0, _, rfl⟩
      · exact hskip

theorem LinksEnd.stops (h : LinksEnd hd s.extLbaBase (partitionTable (hd.sectors 0))) :
    Stops hd s := by
  obtain ⟨fuel, r, hr⟩ := h.stops_loop
  exact ⟨fuel + 1, r, by simpa [partitionScan, maxLba] using hr⟩

end Termination

section Endless

variable {hd : Disk} {scan : ℕ → Scan → Option (Ended × Scan)} {b extLba fuel : ℕ}
  {s s₁ s' : Scan} {r : Ended × Scan} {pre ps : List PartitionTableEntry}

/-- What any scan leaves: a longer list, no more logical partitions counted than are new on it, and
the base once it is set. -/
structure Grows (s s' : Scan) : Prop where
  found : s.partitionList.length ≤ s'.partitionList.length
  lno : s'.lno + s.partitionList.length ≤ s.lno + s'.partitionList.length
  base : s.extLbaBase ≠ 0 → s'.extLbaBase = s.extLbaBase

/-- Too few partitions are new to fill the array of the logical ones. -/
def Few (s s' : Scan) : Prop :=
  s.lno + s'.partitionList.length < 8 + s.partitionList.length

theorem Grows.refl (s : Scan) : Grows s s := ⟨le_rfl, le_rfl, fun _ => rfl⟩

theorem Grows.trans (h : Grows s s₁) (h' : Grows s₁ s') : Grows s s' := by
  have hlno := h.lno
  have hlno' := h'.lno
  constructor
  · exact h.found.trans h'.found
  · omega
  · intro hb
    have hb₁ := h.base hb
    exact (h'.base (by rw [hb₁]; exact hb)).trans hb₁

theorem Few.first (h : Few s s') (hg : Grows s₁ s') : Few s s₁ := by
  have hfound := hg.found
  unfold Few at h ⊢
  omega

theorem Few.rest (h : Few s s') (hg : Grows s s₁) : Few s₁ s' := by
  have hlno := hg.lno
  unfold Few at h ⊢
  omega

theorem addPrim_grows (hd : Disk) (p : PartitionTableEntry) : Grows s (s.addPrim hd p) := by
  constructor
  · simp [Scan.addPrim]
  · simp [Scan.addPrim]
  · exact fun _ => rfl

theorem addLogic_grows (hd : Disk) (extLba : ℕ) (p : PartitionTableEntry) :
    Grows s (s.addLogic hd extLba p) := by
  have hmod := Nat.mod_le (s.lno + 1) 256
  constructor
  · simp [Scan.addLogic]
  · simp only [Scan.addLogic, List.length_append, List.length_singleton]
    omega
  · exact fun _ => rfl

theorem follow_grows (p : PartitionTableEntry) : Grows s (s.follow p).2 := by
  by_cases hb : s.extLbaBase = 0
  · rw [follow_fresh hb]
    exact ⟨le_rfl, le_rfl, fun h => absurd hb h⟩
  · rw [follow_base rfl hb]
    exact Grows.refl s

theorem entriesLoop_grows (h : ∀ lba s r, scan lba s = some r → Grows s r.2)
    (hr : entriesLoop scan hd extLba ps s = some r) : Grows s r.2 := by
  induction ps generalizing s with
  | nil =>
    obtain rfl := Option.some.inj hr
    exact Grows.refl s
  | cons p ps ih =>
    unfold entriesLoop at hr
    split at hr
    · rcases hscan : scan (s.follow p).1 (s.follow p).2 with _ | ⟨e, s₁⟩
      · simp [hscan] at hr
      · have hg := (follow_grows p).trans (h _ _ _ hscan)
        rw [hscan] at hr
        cases e with
        | returned => exact hg.trans (ih hr)
        | asserted =>
          obtain rfl := Option.some.inj hr
          exact hg
    · split_ifs at hr
      · exact (addPrim_grows hd p).trans (ih hr)
      · obtain rfl := Option.some.inj hr
        exact addPrim_grows hd p
      · obtain rfl := Option.some.inj hr
        exact addLogic_grows hd extLba p
      · exact (addLogic_grows hd extLba p).trans (ih hr)
      · exact ih hr

theorem partitionScan_grows {lba : ℕ} (hr : partitionScan hd fuel lba s = some r) :
    Grows s r.2 := by
  induction fuel generalizing lba s r with
  | zero => simp [partitionScan] at hr
  | succ fuel ih =>
    unfold partitionScan at hr
    split at hr
    · exact entriesLoop_grows (fun _ _ _ h => ih h) hr
    · obtain rfl := Option.some.inj hr
      exact Grows.refl s

/-- An extended entry of a loop that returned: its own scan did, and the rest of the loop. -/
theorem entriesLoop_split {p : PartitionTableEntry} (h5 : p.fsType = 5)
    (hr : entriesLoop scan hd extLba (p :: ps) s = some (.returned, s')) :
    ∃ s₁, scan (s.follow p).1 (s.follow p).2 = some (.returned, s₁) ∧
      entriesLoop scan hd extLba ps s₁ = some (.returned, s') := by
  rcases hscan : scan (s.follow p).1 (s.follow p).2 with _ | ⟨_ | _, s₁⟩
  · simp [entriesLoop, h5, hscan] at hr
  · rw [entriesLoop_returned h5 hscan] at hr
    exact ⟨s₁, rfl, hr⟩
  · rw [entriesLoop_asserted h5 hscan] at hr
    simp at hr

/-- Any other entry: the loop went on with the next one, as there was room. -/
theorem entriesLoop_next {p : PartitionTableEntry} (h5 : p.fsType ≠ 5) (hfew : Few s s')
    (hr : entriesLoop scan hd extLba (p :: ps) s = some (.returned, s')) :
    ∃ s₁, Grows s s₁ ∧ s₁.extLbaBase = s.extLbaBase ∧
      entriesLoop scan hd extLba ps s₁ = some (.returned, s') := by
  simp only [entriesLoop, h5, if_false] at hr
  split_ifs at hr with h0 hlba hpno hlno
  · exact ⟨_, addPrim_grows hd p, rfl, hr⟩
  · simp at hr
  · obtain rfl := (Prod.mk.inj (Option.some.inj hr)).2
    have hmod := Nat.mod_le (s.lno + 1) 256
    simp only [Few, Scan.addLogic, List.length_append, List.length_singleton] at hfew hlno
    omega
  · exact ⟨_, addLogic_grows hd extLba p, rfl, hr⟩
  · exact ⟨s, Grows.refl s, rfl, hr⟩

theorem entriesLoop_ends (hb : b ≠ 0)
    (hscan : ∀ lba s s', s.extLbaBase = b → partitionScan hd fuel lba s = some (.returned, s') →
      Few s s' → Ends hd b lba)
    (hs : s.extLbaBase = b)
    (hr : entriesLoop (partitionScan hd fuel) hd extLba ps s = some (.returned, s'))
    (hfew : Few s s') :
    ∀ p ∈ ps, p.fsType = 5 → Ends hd b ((p.startLba + b) % 2 ^ 32) := by
  induction ps generalizing s with
  | nil => simp
  | cons p ps ih =>
    intro q hq hq5
    by_cases h5 : p.fsType = 5
    · obtain ⟨s₁, hp, hrest⟩ := entriesLoop_split h5 hr
      rw [follow_base hs hb] at hp
      have hg : Grows s s₁ := partitionScan_grows hp
      have hg' : Grows s₁ s' := entriesLoop_grows (fun _ _ _ h => partitionScan_grows h) hrest
      rcases List.mem_cons.mp hq with rfl | hq
      · exact hscan _ _ _ hs hp (hfew.first hg')
      · have hs₁ : s₁.extLbaBase = b := (hg.base (by rw [hs]; exact hb)).trans hs
        exact ih hs₁ hrest (hfew.rest hg) q hq hq5
    · obtain ⟨s₁, hg, hbase, hrest⟩ := entriesLoop_next h5 hfew hr
      rcases List.mem_cons.mp hq with rfl | hq
      · exact absurd hq5 h5
      · exact ih (hbase.trans hs) hrest (hfew.rest hg) q hq hq5

theorem Ends.of_returned (hb : b ≠ 0) {lba : ℕ} (hs : s.extLbaBase = b)
    (hr : partitionScan hd fuel lba s = some (.returned, s')) (hfew : Few s s') :
    Ends hd b lba := by
  induction fuel generalizing lba s s' with
  | zero => simp [partitionScan] at hr
  | succ fuel ih =>
    unfold partitionScan at hr
    split at hr
    · exact ⟨fun _ => entriesLoop_ends hb (fun _ _ _ h h' h'' => ih h h' h'') hs hr hfew⟩
    · simp at hr

theorem LinksEnd.skip (hpre : ∀ p ∈ pre, p.fsType ≠ 5) (h : LinksEnd hd b (pre ++ ps)) :
    LinksEnd hd b ps := by
  induction pre with
  | nil => exact h
  | cons p pre ih =>
    have h5 := hpre p (List.mem_cons_self ..)
    have hrest : LinksEnd hd b (pre ++ ps) := by simpa [LinksEnd, h5] using h
    exact ih (fun q hq => hpre q (List.mem_cons_of_mem _ hq)) hrest

/-- The loop over the boot record. An entry that leaves the base at 0 leads back to this record:
`hscan` is about the scan of it inside the loop. -/
theorem LinksEnd.of_loop
    (hscan : ∀ s s', s.extLbaBase = 0 → partitionScan hd fuel 0 s = some (.returned, s') →
      Few s s' → LinksEnd hd 0 (partitionTable (hd.sectors 0)))
    (htable : partitionTable (hd.sectors 0) = pre ++ ps)
    (hpre : s.extLbaBase = 0 → ∀ p ∈ pre, p.fsType ≠ 5)
    (hr : entriesLoop (partitionScan hd fuel) hd 0 ps s = some (.returned, s'))
    (hfew : Few s s') : LinksEnd hd s.extLbaBase ps := by
  induction ps generalizing pre s with
  | nil => trivial
  | cons p ps ih =>
    have htable' : partitionTable (hd.sectors 0) = (pre ++ [p]) ++ ps := by
      rw [htable]
      simp
    by_cases h5 : p.fsType = 5
    · obtain ⟨s₁, hp, hrest⟩ := entriesLoop_split h5 hr
      have hg := partitionScan_grows hp
      have hg' : Grows s₁ s' := entriesLoop_grows (fun _ _ _ h => partitionScan_grows h) hrest
      have hlinks := fun h => ih htable' h hrest (hfew.rest ((follow_grows p).trans hg))
      by_cases hb : s.extLbaBase = 0
      · rw [follow_fresh hb] at hp hg
        have hfew₁ : Few { s with extLbaBase := p.startLba } s₁ := hfew.first hg'
        by_cases hstart : p.startLba = 0
        · rw [hstart] at hp hfew₁
          have hzero := hscan _ _ rfl hp hfew₁
          rw [htable] at hzero
          rw [hb]
          exact hzero.skip (hpre hb)
        · have hs₁ : s₁.extLbaBase = p.startLba := hg.base hstart
          have hends := Ends.of_returned hstart rfl hp hfew₁
          have htail := hlinks fun h => absurd (hs₁.symm.trans h) hstart
          rw [hs₁] at htail
          simpa [LinksEnd, h5, hb] using ⟨hstart, hends, htail⟩
      · rw [follow_base rfl hb] at hp hg
        have hs₁ : s₁.extLbaBase = s.extLbaBase := hg.base hb
        have hends := Ends.of_returned hb rfl hp (hfew.first hg')
        have htail := hlinks fun h => absurd (hs₁.symm.trans h) hb
        rw [hs₁] at htail
        simp only [LinksEnd, h5, if_true, hb, ne_eq, not_false_eq_true]
        exact ⟨hends, htail⟩
    · obtain ⟨s₁, hg, hbase, hrest⟩ := entriesLoop_next h5 hfew hr
      have hpre' : s₁.extLbaBase = 0 → ∀ q ∈ pre ++ [p], q.fsType ≠ 5 := by
        intro h q hq
        rcases List.mem_append.mp hq with hq | hq
        · exact hpre (hbase.symm.trans h) q hq
        · rw [List.mem_singleton.mp hq]
          exact h5
      have htail := ih htable' hpre' hrest (hfew.rest hg)
      rw [hbase] at htail
      simpa [LinksEnd, h5] using htail

/-- Where a scan returns with room left for logical partitions, the links end. -/
theorem LinksEnd.of_returned (hr : partitionScan hd fuel 0 s = some (.returned, s'))
    (hfew : Few s s') : LinksEnd hd s.extLbaBase (partitionTable (hd.sectors 0)) := by
  induction fuel generalizing s s' with
  | zero => simp [partitionScan] at hr
  | succ fuel ih =>
    unfold partitionScan at hr
    split at hr
    · exact LinksEnd.of_loop (fun s s' hs h h' => hs ▸ ih h h') (List.nil_append _).symm
        (by simp) hr hfew
    · simp at hr

end Endless

end Gogoos.Ide
