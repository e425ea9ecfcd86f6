import Gogoos.Kernel.SafeCalls
import Gogoos.Logic.Blind

/-!
# Calls on any descriptor

`sysClose`, `sysWrite`, `sysRead` and `sysLseek` on a descriptor that need not be open. Each
looks the descriptor up in `fdTable`, and nothing but the sign and the standard streams is
checked before that.
-/

namespace Gogoos

open Program

variable {α : Type} {fs : Fs} {fd : ℤ} {slot : ℕ} {minusOne : α} {stream : Option α}
  {onFile rest : ℕ → FsM α}

section Calls

/-- `fdLocalToGlobal` on a machine that stops when the index is not in `fdTable`. -/
def fdInside (localFd : ℕ) : FsM ℕ := do
  assert (localFd < 7)
  fdLocalToGlobal localFd

/-- What closing does to the slot of the descriptor. -/
def closeSlot (fd : ℤ) (globalFd : ℕ) : FsM ℤ := do
  let ret ← fileClose globalFd
  modify fun fs => { fs with fdTable := fun i => if i = fd.toNat then -1 else fs.fdTable i }
  return ret

def writeSlot (buf : List UInt8) (globalFd : ℕ) : FsM ℤ := do
  let fs ← get
  if writes (fs.fileTable globalFd).fdFlag then fileWrite globalFd buf
  else return -1

def seekSlot (offset : ℤ) (seekFlag globalFd : ℕ) : FsM ℤ := do
  let p ← slotInode globalFd
  let fs ← get
  let file := fs.fileTable globalFd
  let fileSize := toInt32 (fs.vol.inodes p).size
  let newPos :=
    if seekFlag = SeekFlag.set then toInt32 offset
    else if seekFlag = SeekFlag.cur then toInt32 (toInt32 file.fdPos + offset)
    else if seekFlag = SeekFlag.fromEnd then toInt32 (fileSize + offset)
    else 0
  if newPos < 0 ∨ newPos > toInt32 (fileSize - 1) then return -1
  setFile globalFd { file with fdPos := newPos.toNat }
  return newPos

/-- `sysClose` over the routine that looks the descriptor up. -/
def sysCloseWith (toGlobal : ℕ → FsM ℕ) (fd : ℤ) : FsM ℤ :=
  if 2 < fd then toGlobal fd.toNat >>= closeSlot fd else return -1

def sysWriteWith (toGlobal : ℕ → FsM ℕ) (fd : ℤ) (buf : List UInt8) : FsM ℤ := do
  if fd < 0 then return -1
  if fd = 1 ∨ fd = 2 then
    assert (buf.length ≤ 1024)
    return buf.length
  toGlobal fd.toNat >>= writeSlot buf

def sysReadWith (toGlobal : ℕ → FsM ℕ) (keys : ℕ → UInt8) (fd : ℤ) (count : ℕ) :
    FsM (Option (List UInt8)) :=
  if fd < 0 ∨ fd = 1 ∨ fd = 2 then return none
  else if fd = 0 then return if count = 0 then none else some ((List.range count).map keys)
  else toGlobal fd.toNat >>= fun globalFd => fileRead globalFd count

def sysLseekWith (toGlobal : ℕ → FsM ℕ) (fd offset : ℤ) (seekFlag : ℕ) : FsM ℤ := do
  if fd < 0 then return -1
  assert (0 < seekFlag ∧ seekFlag < 4)
  toGlobal fd.toNat >>= seekSlot offset seekFlag

theorem sysClose_eq (fd : ℤ) : sysClose fd = sysCloseWith fdLocalToGlobal fd := rfl

theorem sysWrite_eq (fd : ℤ) (buf : List UInt8) :
    sysWrite fd buf = sysWriteWith fdLocalToGlobal fd buf := rfl

theorem sysRead_eq (keys : ℕ → UInt8) (fd : ℤ) (count : ℕ) :
    sysRead keys fd count = sysReadWith fdLocalToGlobal keys fd count := rfl

theorem sysLseek_eq (fd offset : ℤ) (seekFlag : ℕ) :
    sysLseek fd offset seekFlag = sysLseekWith fdLocalToGlobal fd offset seekFlag := rfl

end Calls

section Served

/-- Every run answers `a` and leaves the state. -/
def Answers (m : FsM α) (a : α) (fs : Fs) : Prop := ∀ e t, m e t fs = .returned a t fs

/-- The entry of the descriptor is in the table and holds a slot. -/
structure HoldsSlot (fs : Fs) (fd : ℤ) (slot : ℕ) : Prop where
  inside : 0 ≤ fd ∧ fd < 7
  entry : fs.fdTable fd.toNat = slot
  slot_lt : slot < 32

/-- A file is open under the descriptor. -/
def OpenUnder (fs : Fs) (fd : ℤ) (slot : ℕ) : Prop :=
  HoldsSlot fs fd slot ∧ (fs.fileTable slot).fdInode ≠ none

/-- A call stays in `fdTable`, which makes its runs those of `checked`. It answers -1 with the
state unchanged, or acts on the stream of the descriptor or on the file open under it. -/
def Served (call checked : FsM α) (minusOne : α) (stream : Option α) (onFile : ℕ → FsM α)
    (fd : ℤ) (fs : Fs) : Prop :=
  SameRuns call checked fs ∧ (Answers call minusOne fs ∨ (∃ a ∈ stream, Answers call a fs) ∨
    ∃ slot, OpenUnder fs fd slot ∧ SameRuns call (onFile slot) fs)

/-- The call is served, and no run of it stops, on whatever file it acts. -/
structure Graceful (call checked : FsM α) (minusOne : α) (stream : Option α)
    (onFile : ℕ → FsM α) (fd : ℤ) (fs : Fs) : Prop where
  served : Served call checked minusOne stream onFile fd fs
  never : NeverStops call fs

theorem Answers.neverStops {m : FsM α} {a : α} (h : Answers m a fs) : NeverStops m fs := by
  intro e t
  rw [h e t]
  trivial

theorem Served.graceful {call checked : FsM α}
    (h : Served call checked minusOne stream onFile fd fs)
    (hfile : ∀ slot, OpenUnder fs fd slot → SameRuns call (onFile slot) fs →
      NeverStops (onFile slot) fs) : Graceful call checked minusOne stream onFile fd fs := by
  refine ⟨h, ?_⟩
  rcases h.2 with h | ⟨_, -, h⟩ | ⟨slot, hopen, h⟩
  · exact h.neverStops
  · exact h.neverStops
  · exact (hfile slot hopen h).congr h

theorem Served.of_answers {call : FsM α} (h : Answers call minusOne fs) :
    Served call call minusOne stream onFile fd fs :=
  ⟨fun _ _ => rfl, Or.inl h⟩

theorem not_answers {m : FsM α} {a : α} (h : m sampleHeap 0 fs = .stopped fs) :
    ¬Answers m a fs := by
  intro hm
  have hrun := hm sampleHeap 0
  rw [h] at hrun
  cases hrun

theorem HoldsSlot.lookup (rest : ℕ → FsM α) (h : HoldsSlot fs fd slot) :
    SameRuns (fdLocalToGlobal fd.toNat >>= rest) (rest slot) fs ∧
      SameRuns (fdInside fd.toNat >>= rest) (rest slot) fs := by
  have hassert : (0 : ℤ) ≤ fs.fdTable fd.toNat ∧ fs.fdTable fd.toNat < 32 := by
    rw [h.entry]
    have hlt := h.slot_lt
    omega
  have hfd : fd.toNat < 7 := by
    have hin := h.inside
    omega
  have hfound : ∀ e t, fdLocalToGlobal fd.toNat e t fs = .returned slot t fs := by
    intro e t
    have hrun : fdLocalToGlobal fd.toNat e t fs =
        .returned (fs.fdTable fd.toNat).toNat t fs := by
      change ((assert _ >>= fun _ => pure _ : FsM ℕ)) e t fs = _
      rw [assert, if_pos hassert]
      rfl
    rw [hrun, h.entry, Int.toNat_natCast]
  constructor
  · intro e t
    exact bind_returned (hfound e t)
  · intro e t
    refine bind_returned ?_
    unfold fdInside
    rw [assert, if_pos hfd]
    exact hfound e t

/-- An index outside the array and an entry without a slot stop the machine. -/
theorem lookup_stops (h0 : 0 ≤ fd) (h : ¬∃ slot, HoldsSlot fs fd slot) (e : Heap) (t : ℕ) :
    (fdInside fd.toNat >>= rest) e t fs = .stopped fs := by
  unfold fdInside
  by_cases hfd : fd.toNat < 7
  · have hassert : ¬((0 : ℤ) ≤ fs.fdTable fd.toNat ∧ fs.fdTable fd.toNat < 32) := by
      intro hin
      refine h ⟨(fs.fdTable fd.toNat).toNat, ⟨h0, by omega⟩, ?_, by omega⟩
      exact (Int.toNat_of_nonneg hin.1).symm
    rw [assert, if_pos hfd]
    change ((assert _ >>= fun _ => pure _ : FsM ℕ) >>= rest) e t fs = _
    rw [assert, if_neg hassert]
    rfl
  · rw [assert, if_neg hfd]
    rfl

/-- A call that looks its descriptor up is served when the entry holds a slot and the rest of
the call is. -/
theorem served_lookup (h0 : 0 ≤ fd) :
    Served (fdLocalToGlobal fd.toNat >>= rest) (fdInside fd.toNat >>= rest) minusOne stream onFile
        fd fs ↔
      ∃ slot, HoldsSlot fs fd slot ∧ (Answers (rest slot) minusOne fs ∨
        (∃ a ∈ stream, Answers (rest slot) a fs) ∨
        (fs.fileTable slot).fdInode ≠ none ∧ SameRuns (rest slot) (onFile slot) fs) := by
  constructor
  · rintro ⟨hsame, hserved⟩
    have hslot : ∃ slot, HoldsSlot fs fd slot := by
      by_contra hnone
      have hstop := (hsame sampleHeap 0).trans (lookup_stops h0 hnone sampleHeap 0)
      rcases hserved with h | ⟨a, -, h⟩ | ⟨slot, hopen, -⟩
      · exact not_answers hstop h
      · exact not_answers hstop h
      · exact hnone ⟨slot, hopen.1⟩
    obtain ⟨slot, hslot⟩ := hslot
    have hrest := (hslot.lookup rest).1
    refine ⟨slot, hslot, ?_⟩
    rcases hserved with h | ⟨a, ha, h⟩ | ⟨slot', hopen, h⟩
    · exact Or.inl fun e t => (hrest e t).symm.trans (h e t)
    · exact Or.inr (Or.inl ⟨a, ha, fun e t => (hrest e t).symm.trans (h e t)⟩)
    · obtain rfl : slot' = slot := by
        have heq := hopen.1.entry.symm.trans hslot.entry
        exact_mod_cast heq
      exact Or.inr (Or.inr ⟨hopen.2, fun e t => (hrest e t).symm.trans (h e t)⟩)
  · rintro ⟨slot, hslot, hserved⟩
    obtain ⟨hrest, hchecked⟩ := hslot.lookup rest
    refine ⟨fun e t => (hrest e t).trans (hchecked e t).symm, ?_⟩
    rcases hserved with h | ⟨a, ha, h⟩ | ⟨hinode, h⟩
    · exact Or.inl fun e t => (hrest e t).trans (h e t)
    · exact Or.inr (Or.inl ⟨a, ha, fun e t => (hrest e t).trans (h e t)⟩)
    · exact Or.inr (Or.inr ⟨slot, ⟨hslot, hinode⟩, fun e t => (hrest e t).trans (h e t)⟩)

/-- The same for a call that does nothing but act on the file. -/
theorem served_file (h0 : 0 ≤ fd)
    (hstop : ∀ slot, (fs.fileTable slot).fdInode = none → ∀ e t, onFile slot e t fs = .stopped fs) :
    Served (fdLocalToGlobal fd.toNat >>= onFile) (fdInside fd.toNat >>= onFile) minusOne stream
      onFile fd fs ↔ ∃ slot, OpenUnder fs fd slot := by
  rw [served_lookup h0]
  constructor
  · rintro ⟨slot, hslot, h⟩
    refine ⟨slot, hslot, fun hnull => ?_⟩
    have hrun := hstop slot hnull sampleHeap 0
    rcases h with h | ⟨a, -, h⟩ | ⟨hinode, -⟩
    · exact not_answers hrun h
    · exact not_answers hrun h
    · exact hinode hnull
  · rintro ⟨slot, hslot, hinode⟩
    exact ⟨slot, hslot, Or.inr (Or.inr ⟨hinode, fun _ _ => rfl⟩)⟩

end Served

section Law

theorem slotInode_stops (h : (fs.fileTable slot).fdInode = none) {f : ℕ → FsM α} (e : Heap)
    (t : ℕ) : (slotInode slot >>= f) e t fs = .stopped fs := by
  apply bind_stopped
  unfold slotInode
  rw [bind_returned (rfl : get e t fs = .returned fs t fs), h]
  rfl

theorem wp_seekSlot {offset : ℤ} {seekFlag : ℕ} {e : Heap} (h : (fs.fileTable slot).fdInode ≠ none) :
    wp noStop e (seekSlot offset seekFlag slot) (fun _ _ => True) fs := by
  obtain ⟨p, hp⟩ := Option.ne_none_iff_exists'.mp h
  unfold seekSlot
  apply wp_slotInode_bind hp
  rw [wp_get_bind]
  apply wp_ite
  · exact fun _ => wp_pure.mpr trivial
  · exact fun _ => wp_setFile_bind.mpr (wp_pure.mpr trivial)

/-- A heap that is used up. -/
def noMemory : Heap := { sampleHeap with sysMalloc := fun _ => false }

theorem wp_fileWrite_noMemory {buf : List UInt8} (h : (fs.fileTable slot).fdInode ≠ none) :
    wp noStop noMemory (fileWrite slot buf) (fun _ _ => True) fs := by
  obtain ⟨p, hp⟩ := Option.ne_none_iff_exists'.mp h
  unfold fileWrite fileWriteWith
  apply wp_slotInode_bind hp
  rw [wp_get_bind]
  apply wp_ite
  · exact fun _ => wp_pure.mpr trivial
  · intro _
    apply wp_onVol_bind
    apply wp_ask
    intro t
    exact wp_pure.mpr trivial

/-- The descriptors under which `sysWrite` serves. A slot that is not open for writing is not
looked at any further. -/
def Writable (fs : Fs) (fd : ℤ) (count : ℕ) : Prop :=
  fd < 0 ∨ ((fd = 1 ∨ fd = 2) ∧ count ≤ 1024) ∨
    (¬(fd = 1 ∨ fd = 2) ∧ ∃ slot, HoldsSlot fs fd slot ∧
      (writes (fs.fileTable slot).fdFlag = true → (fs.fileTable slot).fdInode ≠ none))

theorem sysClose_served : Served (sysClose fd) (sysCloseWith fdInside fd) (-1) none (closeSlot fd)
    fd fs ↔ fd ≤ 2 ∨ ∃ slot, OpenUnder fs fd slot := by
  rw [sysClose_eq]
  unfold sysCloseWith
  by_cases hfd : 2 < fd
  · rw [if_pos hfd, if_pos hfd, served_file (by omega)]
    · have hnot : ¬fd ≤ 2 := by omega
      simp only [hnot, false_or]
    · intro slot hnull e t
      exact bind_stopped (slotInode_stops hnull e t)
  · rw [if_neg hfd, if_neg hfd]
    have hle : fd ≤ 2 := by omega
    simp only [hle, true_or, iff_true]
    exact .of_answers fun _ _ => rfl

theorem sysRead_served {keys : ℕ → UInt8} {count : ℕ} :
    Served (sysRead keys fd count) (sysReadWith fdInside keys fd count) none
      (if fd = 0 then some (some ((List.range count).map keys)) else none)
      (fun slot => fileRead slot count) fd fs ↔ fd ≤ 2 ∨ ∃ slot, OpenUnder fs fd slot := by
  rw [sysRead_eq]
  unfold sysReadWith
  by_cases hbad : fd < 0 ∨ fd = 1 ∨ fd = 2
  · rw [if_pos hbad, if_pos hbad]
    have hle : fd ≤ 2 := by omega
    simp only [hle, true_or, iff_true]
    exact .of_answers fun _ _ => rfl
  rw [if_neg hbad, if_neg hbad]
  by_cases h0 : fd = 0
  · rw [if_pos h0, if_pos h0, if_pos h0]
    have hle : fd ≤ 2 := by omega
    simp only [hle, true_or, iff_true]
    by_cases hcount : count = 0
    · rw [if_pos hcount]
      exact .of_answers fun _ _ => rfl
    · rw [if_neg hcount]
      exact ⟨fun _ _ => rfl, Or.inr (Or.inl ⟨_, rfl, fun _ _ => rfl⟩)⟩
  · rw [if_neg h0, if_neg h0, if_neg h0, served_file (by omega)]
    · have hnot : ¬fd ≤ 2 := by omega
      simp only [hnot, false_or]
    · intro slot hnull e t
      exact slotInode_stops hnull e t

theorem sysLseek_served {offset : ℤ} {seekFlag : ℕ} :
    Served (sysLseek fd offset seekFlag) (sysLseekWith fdInside fd offset seekFlag) (-1) none
      (seekSlot offset seekFlag) fd fs ↔
    fd < 0 ∨ ((0 < seekFlag ∧ seekFlag < 4) ∧ ∃ slot, OpenUnder fs fd slot) := by
  rw [sysLseek_eq]
  unfold sysLseekWith
  by_cases hneg : fd < 0
  · rw [if_pos hneg, if_pos hneg]
    simp only [hneg, true_or, iff_true]
    exact .of_answers fun _ _ => rfl
  rw [if_neg hneg, if_neg hneg]
  simp only [hneg, false_or]
  by_cases hflag : 0 < seekFlag ∧ seekFlag < 4
  · simp only [assert, hflag, and_self, if_true, true_and]
    apply served_file (by omega)
    intro slot hnull e t
    exact slotInode_stops hnull e t
  · simp only [hflag, false_and, iff_false]
    have hrun : ∀ (rest : FsM ℤ) (t : ℕ),
        (assert (0 < seekFlag ∧ seekFlag < 4) >>= fun _ => rest) sampleHeap t fs = .stopped fs := by
      intro rest t
      rw [assert, if_neg hflag]
      rfl
    rintro ⟨-, h | ⟨a, ha, -⟩ | ⟨slot, hopen, h⟩⟩
    · exact not_answers (hrun _ 0) h
    · cases ha
    · obtain ⟨a, fs', ⟨t, t', hseek⟩, -⟩ := wp_noStop_returns (wp_seekSlot hopen.2)
      have hsame := (hrun _ t).symm.trans (h sampleHeap t)
      rw [hseek] at hsame
      cases hsame

theorem sysWrite_served {buf : List UInt8} :
    Served (sysWrite fd buf) (sysWriteWith fdInside fd buf) (-1)
      (if fd = 1 ∨ fd = 2 then some (buf.length : ℤ) else none) (fun slot => fileWrite slot buf)
      fd fs ↔ Writable fs fd buf.length := by
  rw [sysWrite_eq]
  unfold sysWriteWith Writable
  by_cases hneg : fd < 0
  · rw [if_pos hneg, if_pos hneg]
    simp only [hneg, true_or, iff_true]
    exact .of_answers fun _ _ => rfl
  rw [if_neg hneg, if_neg hneg]
  simp only [hneg, false_or]
  by_cases hstd : fd = 1 ∨ fd = 2
  · rw [if_pos hstd, if_pos hstd, if_pos hstd]
    simp only [hstd, true_and, not_true_eq_false, false_and, or_false]
    by_cases hcount : buf.length ≤ 1024
    · simp only [hcount, iff_true]
      refine ⟨fun _ _ => rfl, Or.inr (Or.inl ⟨_, rfl, fun e t => ?_⟩)⟩
      rw [assert, if_pos hcount]
      rfl
    · simp only [hcount, iff_false]
      have hrun : ∀ e t, (assert (buf.length ≤ 1024) >>= fun _ => pure (buf.length : ℤ) : FsM ℤ) e t
          fs = .stopped fs := by
        intro e t
        rw [assert, if_neg hcount]
        rfl
      rintro ⟨-, h | ⟨a, -, h⟩ | ⟨slot, hopen, h⟩⟩
      · exact not_answers (hrun _ _) h
      · exact not_answers (hrun _ _) h
      · have hwp : wp noStop noMemory (fileWrite slot buf) (fun _ _ => True) fs :=
          wp_fileWrite_noMemory hopen.2
        obtain ⟨a, fs', ⟨t, t', hwrite⟩, -⟩ := wp_noStop_returns hwp
        exact absurd ((hrun noMemory t).symm.trans ((h noMemory t).trans hwrite)) (by simp)
  · rw [if_neg hstd, if_neg hstd, if_neg hstd, served_lookup (by omega)]
    simp only [hstd, false_and, not_false_eq_true, true_and, false_or]
    refine exists_congr fun slot => and_congr_right fun hslot => ?_
    by_cases hw : writes (fs.fileTable slot).fdFlag = true
    · have hact : SameRuns (writeSlot buf slot) (fileWrite slot buf) fs := by
        intro e t
        change (if writes (fs.fileTable slot).fdFlag = true then fileWrite slot buf else pure (-1))
          e t fs = _
        rw [if_pos hw]
      constructor
      · intro h _ hnull
        have hstop := (hact sampleHeap 0).trans (slotInode_stops hnull sampleHeap 0)
        rcases h with h | ⟨a, -, h⟩ | ⟨hinode, -⟩
        · exact not_answers hstop h
        · exact not_answers hstop h
        · exact hinode hnull
      · intro h
        exact Or.inr (Or.inr ⟨h hw, hact⟩)
    · simp only [hw, Bool.false_eq_true, false_imp_iff, iff_true]
      left
      intro e t
      change (if writes (fs.fileTable slot).fdFlag = true then fileWrite slot buf else pure (-1))
        e t fs = _
      rw [if_neg hw]
      rfl

/-- The call reaches `fileWrite` on the slot. -/
def ReachesFile (fs : Fs) (fd : ℤ) (slot : ℕ) : Prop :=
  ¬(fd = 1 ∨ fd = 2) ∧ HoldsSlot fs fd slot ∧ writes (fs.fileTable slot).fdFlag = true

theorem ReachesFile.runs {buf : List UInt8} (h : ReachesFile fs fd slot) :
    SameRuns (sysWrite fd buf) (fileWrite slot buf) fs := by
  have hneg : ¬fd < 0 := not_lt.mpr h.2.1.inside.1
  intro e t
  rw [sysWrite_eq, sysWriteWith, if_neg hneg, if_neg h.1, (h.2.1.lookup _).1 e t]
  change (if writes (fs.fileTable slot).fdFlag = true then fileWrite slot buf else pure (-1))
    e t fs = _
  rw [if_pos h.2.2]

theorem neverStops_closeSlot (h : (fs.fileTable slot).fdInode ≠ none) :
    NeverStops (closeSlot fd slot) fs := by
  intro e
  unfold closeSlot
  apply wp_call (neverStops_fileClose h e)
  intro _ fs' _
  rw [wp_modify_bind, wp_pure]
  trivial

theorem sysClose_graceful : Graceful (sysClose fd) (sysCloseWith fdInside fd) (-1) none
    (closeSlot fd) fd fs ↔ fd ≤ 2 ∨ ∃ slot, OpenUnder fs fd slot := by
  rw [← sysClose_served]
  constructor
  · exact fun h => h.served
  · exact fun h => h.graceful fun _ hopen _ => neverStops_closeSlot hopen.2

theorem sysLseek_graceful {offset : ℤ} {seekFlag : ℕ} :
    Graceful (sysLseek fd offset seekFlag) (sysLseekWith fdInside fd offset seekFlag) (-1) none
      (seekSlot offset seekFlag) fd fs ↔
    fd < 0 ∨ ((0 < seekFlag ∧ seekFlag < 4) ∧ ∃ slot, OpenUnder fs fd slot) := by
  rw [← sysLseek_served]
  constructor
  · exact fun h => h.served
  · exact fun h => h.graceful fun _ hopen _ _ => wp_seekSlot hopen.2

/-- What does not reach `fileWrite` is answered. -/
theorem sysWrite_answers {buf : List UInt8} (h : Writable fs fd buf.length)
    (hto : ¬∃ slot, ReachesFile fs fd slot) : ∃ a, Answers (sysWrite fd buf) a fs := by
  rw [sysWrite_eq]
  unfold sysWriteWith
  by_cases hneg : fd < 0
  · exact ⟨-1, fun e t => by rw [if_pos hneg]; rfl⟩
  simp only [if_neg hneg]
  rcases h.resolve_left hneg with ⟨hstd, hcount⟩ | ⟨hstd, slot, hslot, -⟩
  · refine ⟨buf.length, fun e t => ?_⟩
    rw [if_pos hstd, assert, if_pos hcount]
    rfl
  · have hw : ¬writes (fs.fileTable slot).fdFlag = true := fun hw => hto ⟨slot, hstd, hslot, hw⟩
    refine ⟨-1, fun e t => ?_⟩
    rw [if_neg hstd, (hslot.lookup _).1 e t]
    change (if writes (fs.fileTable slot).fdFlag = true then fileWrite slot buf else pure (-1))
      e t fs = _
    rw [if_neg hw]
    rfl

theorem sysRead_answers (keys : ℕ → UInt8) (count : ℕ) (hfd : fd ≤ 2) :
    ∃ a, Answers (sysRead keys fd count) a fs := by
  unfold sysRead
  by_cases hbad : fd < 0 ∨ fd = 1 ∨ fd = 2
  · exact ⟨none, fun e t => by rw [if_pos hbad]; rfl⟩
  · rw [if_neg hbad, if_pos (by omega)]
    exact ⟨_, fun _ _ => rfl⟩

/-- A write to a file that is as `fileWrite` leaves it, of fewer bytes than make the sum wrap. -/
theorem sysWrite_graceful {buf : List UInt8}
    (hfile : ∀ slot, ReachesFile fs fd slot → (fs.fileTable slot).fdInode ≠ none →
      WrittenFile slot fs ∧ (fs.vol.inodes (fs.inodeAt slot)).size + buf.length < 2 ^ 32) :
    Graceful (sysWrite fd buf) (sysWriteWith fdInside fd buf) (-1)
      (if fd = 1 ∨ fd = 2 then some (buf.length : ℤ) else none) (fun slot => fileWrite slot buf)
      fd fs ↔
    Writable fs fd buf.length ∧ ∀ slot, ReachesFile fs fd slot → WriteRuns fs slot buf.length := by
  rw [← sysWrite_served]
  have hnull : Writable fs fd buf.length → ∀ slot, ReachesFile fs fd slot →
      (fs.fileTable slot).fdInode ≠ none := by
    rintro (hneg | ⟨hstd, -⟩ | ⟨-, slot', hslot', hinode⟩) slot hto
    · exact absurd hto.2.1.inside.1 (not_le.mpr hneg)
    · exact absurd hstd hto.1
    · obtain rfl : slot' = slot := by
        have heq := hslot'.entry.symm.trans hto.2.1.entry
        exact_mod_cast heq
      exact hinode hto.2.2
  constructor
  · rintro ⟨hserved, hnever⟩
    refine ⟨hserved, fun slot hto => ?_⟩
    obtain ⟨hwritten, hsum⟩ := hfile slot hto (hnull (sysWrite_served.mp hserved) slot hto)
    exact (neverStops_fileWrite hwritten hsum).mp (hnever.congr hto.runs.symm)
  · rintro ⟨hserved, hruns⟩
    refine ⟨hserved, ?_⟩
    by_cases hto : ∃ slot, ReachesFile fs fd slot
    · obtain ⟨slot, hto⟩ := hto
      obtain ⟨hwritten, hsum⟩ := hfile slot hto (hnull (sysWrite_served.mp hserved) slot hto)
      exact ((neverStops_fileWrite hwritten hsum).mpr (hruns slot hto)).congr hto.runs
    · obtain ⟨a, h⟩ := sysWrite_answers (sysWrite_served.mp hserved) hto
      exact h.neverStops

/-- A read of a file that is as `fileWrite` leaves it, from a position inside it. -/
theorem sysRead_graceful {keys : ℕ → UInt8} {count : ℕ}
    (hfile : ∀ slot, 2 < fd → OpenUnder fs fd slot → WrittenFile slot fs ∧
      (fs.fileTable slot).fdPos ≤ (fs.vol.inodes (fs.inodeAt slot)).size ∧
      (fs.fileTable slot).fdPos + count < 2 ^ 32) :
    Graceful (sysRead keys fd count) (sysReadWith fdInside keys fd count) none
      (if fd = 0 then some (some ((List.range count).map keys)) else none)
      (fun slot => fileRead slot count) fd fs ↔
    fd ≤ 2 ∨ ∃ slot, OpenUnder fs fd slot ∧ ReadRuns fs slot count := by
  have hruns : ∀ slot, 2 < fd → OpenUnder fs fd slot →
      SameRuns (sysRead keys fd count) (fileRead slot count) fs := by
    intro slot hfd hopen e t
    rw [sysRead_eq, sysReadWith, if_neg (by omega), if_neg (by omega), (hopen.1.lookup _).1 e t]
  constructor
  · rintro ⟨hserved, hnever⟩
    rcases sysRead_served.mp hserved with hfd | ⟨slot, hopen⟩
    · exact Or.inl hfd
    · by_cases hfd : 2 < fd
      · obtain ⟨hwritten, hpos, hsum⟩ := hfile slot hfd hopen
        exact Or.inr ⟨slot, hopen, (neverStops_fileRead hwritten hpos hsum).mp
          (hnever.congr (hruns slot hfd hopen).symm)⟩
      · exact Or.inl (not_lt.mp hfd)
  · rintro (hfd | ⟨slot, hopen, hread⟩)
    · obtain ⟨a, h⟩ : ∃ a, Answers (sysRead keys fd count) a fs := sysRead_answers keys count hfd
      exact ⟨sysRead_served.mpr (Or.inl hfd), h.neverStops⟩
    · refine ⟨sysRead_served.mpr (Or.inr ⟨slot, hopen⟩), ?_⟩
      by_cases hfd : 2 < fd
      · obtain ⟨hwritten, hpos, hsum⟩ := hfile slot hfd hopen
        exact ((neverStops_fileRead hwritten hpos hsum).mpr hread).congr (hruns slot hfd hopen)
      · obtain ⟨a, h⟩ : ∃ a, Answers (sysRead keys fd count) a fs :=
          sysRead_answers keys count (not_lt.mp hfd)
        exact h.neverStops

/-- Each call keeps to `fdTable`, answers or acts, and never stops exactly when its descriptor lets
it: the descriptors up to 2 are treated apart by some of the calls, every other one has to be
open. For `sysWrite` and `sysRead` the file under the descriptor decides as well. -/
theorem descriptor_calls_law (fs : Fs) (fd : ℤ) :
    (Graceful (sysClose fd) (sysCloseWith fdInside fd) (-1) none (closeSlot fd) fd fs ↔
      fd ≤ 2 ∨ ∃ slot, OpenUnder fs fd slot) ∧
    (∀ offset seekFlag, Graceful (sysLseek fd offset seekFlag)
      (sysLseekWith fdInside fd offset seekFlag) (-1) none (seekSlot offset seekFlag) fd fs ↔
      fd < 0 ∨ ((0 < seekFlag ∧ seekFlag < 4) ∧ ∃ slot, OpenUnder fs fd slot)) ∧
    (∀ buf,
      (Served (sysWrite fd buf) (sysWriteWith fdInside fd buf) (-1)
        (if fd = 1 ∨ fd = 2 then some (buf.length : ℤ) else none) (fun slot => fileWrite slot buf)
        fd fs ↔ Writable fs fd buf.length) ∧
      ((∀ slot, ReachesFile fs fd slot → (fs.fileTable slot).fdInode ≠ none →
          WrittenFile slot fs ∧ (fs.vol.inodes (fs.inodeAt slot)).size + buf.length < 2 ^ 32) →
        (Graceful (sysWrite fd buf) (sysWriteWith fdInside fd buf) (-1)
          (if fd = 1 ∨ fd = 2 then some (buf.length : ℤ) else none)
          (fun slot => fileWrite slot buf) fd fs ↔
        Writable fs fd buf.length ∧
          ∀ slot, ReachesFile fs fd slot → WriteRuns fs slot buf.length))) ∧
    ∀ keys count,
      (Served (sysRead keys fd count) (sysReadWith fdInside keys fd count) none
        (if fd = 0 then some (some ((List.range count).map keys)) else none)
        (fun slot => fileRead slot count) fd fs ↔ fd ≤ 2 ∨ ∃ slot, OpenUnder fs fd slot) ∧
      ((∀ slot, 2 < fd → OpenUnder fs fd slot → WrittenFile slot fs ∧
          (fs.fileTable slot).fdPos ≤ (fs.vol.inodes (fs.inodeAt slot)).size ∧
          (fs.fileTable slot).fdPos + count < 2 ^ 32) →
        (Graceful (sysRead keys fd count) (sysReadWith fdInside keys fd count) none
          (if fd = 0 then some (some ((List.range count).map keys)) else none)
          (fun slot => fileRead slot count) fd fs ↔
        fd ≤ 2 ∨ ∃ slot, OpenUnder fs fd slot ∧ ReadRuns fs slot count)) :=
  ⟨sysClose_graceful, fun _ _ => sysLseek_graceful,
    fun _ => ⟨sysWrite_served, sysWrite_graceful⟩, fun _ _ => ⟨sysRead_served, sysRead_graceful⟩⟩

/-- The empty file of slot 3 is open under descriptor 3. -/
def fdThreeFs : Fs := { sampleFs with fdTable := fun fd => if fd = 3 then 3 else -1 }

theorem fdThreeFs_written : WrittenFile 3 fdThreeFs :=
  (NewFile.mk sampleFs_mounted (by decide) (by decide) rfl fun _ _ => rfl : NewFile 3 fdThreeFs).written

/-- Three bytes are written to the file of descriptor 3, and 71680 bytes are not. -/
theorem descriptor_calls_law_sample :
    Graceful (sysWrite 3 [7, 8, 9]) (sysWriteWith fdInside 3 [7, 8, 9]) (-1) none
      (fun slot => fileWrite slot [7, 8, 9]) 3 fdThreeFs ∧
    ∃ buf : List UInt8, buf.length = 71680 ∧ ¬Graceful (sysWrite 3 buf)
      (sysWriteWith fdInside 3 buf) (-1) none (fun slot => fileWrite slot buf) 3 fdThreeFs := by
  have hslot : HoldsSlot fdThreeFs 3 3 := ⟨by decide, by decide, by decide⟩
  have hto : ReachesFile fdThreeFs 3 3 := ⟨by decide, hslot, by decide⟩
  have honly : ∀ slot, ReachesFile fdThreeFs 3 slot → slot = 3 := by
    intro slot hslot'
    have heq := hslot'.2.1.entry.symm.trans hslot.entry
    exact_mod_cast heq
  have hsize : (fdThreeFs.vol.inodes (fdThreeFs.inodeAt 3)).size = 0 := rfl
  refine ⟨?_, List.replicate 71680 0, List.length_replicate, fun h => ?_⟩
  · refine (((descriptor_calls_law fdThreeFs 3).2.2.1 [7, 8, 9]).2 fun slot hslot' _ => ?_).mpr
      ⟨Or.inr (Or.inr ⟨by decide, 3, hslot, fun _ => by decide⟩), fun slot hslot' => ?_⟩
    · obtain rfl := honly slot hslot'
      exact ⟨fdThreeFs_written, by rw [hsize]; decide⟩
    · obtain rfl := honly slot hslot'
      exact Or.inr (Or.inr ⟨by decide, fun _ => by decide⟩)
  · have hruns := ((((descriptor_calls_law fdThreeFs 3).2.2.1 _).2 fun slot hslot' _ => by
      obtain rfl := honly slot hslot'
      exact ⟨fdThreeFs_written, by rw [hsize, List.length_replicate]; norm_num⟩).mp h).2 3 hto
    rw [List.length_replicate] at hruns
    rcases hruns with hgt | hshort | ⟨hfit, -⟩
    · exact absurd hgt (by rw [hsize]; norm_num)
    · exact hshort ⟨fun _ => (by decide : 1 ≤ 142).trans sampleFs_clear,
        fun hlt => absurd hlt (by rw [hsize]; norm_num)⟩
    · exact absurd hfit (by rw [hsize]; norm_num)

/-- A process with no file open closes descriptor 3. -/
theorem descriptor_calls_law_fails : ¬∀ (fs : Fs) (fd : ℤ),
    Graceful (sysClose fd) (sysCloseWith fdInside fd) (-1) none (closeSlot fd) fd fs := by
  intro h
  have hopen := sysClose_graceful.mp (h sampleFs 3)
  rcases hopen with hle | ⟨slot, hslot, -⟩
  · exact absurd hle (by decide)
  · have hentry : (-1 : ℤ) = slot := hslot.entry
    omega

end Law

end Gogoos
