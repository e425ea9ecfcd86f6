import Gogoos.Fs.Steps
import Gogoos.Logic.Keeps

/-!
# Slots of the table of open files

What opening and closing do to the table of open files and to the descriptors of the caller,
whatever happens to the volume.
-/

namespace Gogoos

open Program

variable {e : Heap} {α β : Type} {fs fs' fs₁ fs₂ : Fs} {slot p : ℕ}

/-- The slot is in use. -/
def Fs.used (fs : Fs) (i : ℕ) : Prop := (fs.fileTable i).fdInode ≠ none

/-- Descriptors and slots in use stay bound as they are. -/
structure SlotsKept (fs fs' : Fs) : Prop where
  fdTable : fs'.fdTable = fs.fdTable
  slots : ∀ i, fs.used i → (fs'.fileTable i).fdInode = (fs.fileTable i).fdInode

theorem SlotsKept.refl (fs : Fs) : SlotsKept fs fs := ⟨rfl, fun _ _ => rfl⟩

theorem SlotsKept.used (h : SlotsKept fs fs') {i : ℕ} (hi : fs.used i) : fs'.used i := by
  unfold Fs.used at hi ⊢
  rwa [h.slots i hi]

theorem SlotsKept.trans (h : SlotsKept fs fs₁) (h' : SlotsKept fs₁ fs₂) : SlotsKept fs fs₂ :=
  ⟨h'.fdTable.trans h.fdTable, fun i hi => (h'.slots i (h.used hi)).trans (h.slots i hi)⟩

/-- A call on the volume leaves the table alone. -/
theorem wp_onVol_any_bind {m : VolM β} {f : β → FsM α} {Q : α → Fs → Prop}
    (h : ∀ a v, wp anyStop e (f a) Q (fs.setVol v)) : wp anyStop e (onVol m >>= f) Q fs := by
  apply wp_onVol_bind
  exact wp_iff.mpr ⟨fun a v _ => h a v, fun _ _ => trivial⟩

section Scans

theorem freeSlotFrom_some {fileTable : ℕ → File} : ∀ {cnt i s : ℕ},
    freeSlotFrom fileTable cnt i = some s →
      i ≤ s ∧ s < i + cnt ∧ (fileTable s).fdInode = none := by
  intro cnt
  induction cnt with
  | zero => intro i s h; simp [freeSlotFrom] at h
  | succ cnt ih =>
    intro i s h
    unfold freeSlotFrom at h
    split_ifs at h with hfree
    · obtain rfl : i = s := Option.some.inj h
      exact ⟨le_rfl, by omega, hfree⟩
    · obtain ⟨h1, h2, h3⟩ := ih h
      exact ⟨by omega, by omega, h3⟩

theorem freeFdFrom_some {fdTable : ℕ → ℤ} : ∀ {cnt i k : ℕ},
    freeFdFrom fdTable cnt i = some k → i ≤ k ∧ k < i + cnt ∧ fdTable k = -1 := by
  intro cnt
  induction cnt with
  | zero => intro i k h; simp [freeFdFrom] at h
  | succ cnt ih =>
    intro i k h
    unfold freeFdFrom at h
    split_ifs at h with hfree
    · obtain rfl : i = k := Option.some.inj h
      exact ⟨le_rfl, by omega, hfree⟩
    · obtain ⟨h1, h2, h3⟩ := ih h
      exact ⟨by omega, by omega, h3⟩

end Scans

section Open

/-- A free slot was given to an inode. -/
structure Placed (fs : Fs) (slot p : ℕ) (fs' : Fs) : Prop where
  lt : 3 ≤ slot ∧ slot < 32
  free : ¬fs.used slot
  fdTable : fs'.fdTable = fs.fdTable
  inode : (fs'.fileTable slot).fdInode = some p
  slots : ∀ i, fs.used i → (fs'.fileTable i).fdInode = (fs.fileTable i).fdInode

/-- The descriptor `k` was bound to a slot that was free. -/
structure Bound (fs : Fs) (k slot p : ℕ) (fs' : Fs) : Prop where
  fd : 3 ≤ k ∧ k < 7 ∧ fs.fdTable k = -1
  lt : 3 ≤ slot ∧ slot < 32
  free : ¬fs.used slot
  fdTable : fs'.fdTable = fun i => if i = k then (slot : ℤ) else fs.fdTable i
  inode : (fs'.fileTable slot).fdInode = some p
  slots : ∀ i, fs.used i → (fs'.fileTable i).fdInode = (fs.fileTable i).fdInode

/-- What `sysOpen` returns: -1 and no descriptor is bound, or the descriptor it bound. -/
def OpenResult (fs : Fs) (fd : ℤ) (fs' : Fs) : Prop :=
  (fd = -1 ∧ SlotsKept fs fs') ∨ ∃ k slot p : ℕ, fd = k ∧ Bound fs k slot p fs'

theorem OpenResult.trans {fd : ℤ} (h : SlotsKept fs fs₁) (h' : OpenResult fs₁ fd fs₂) :
    OpenResult fs fd fs₂ := by
  rcases h' with ⟨hfd, hk⟩ | ⟨k, slot, p, hfd, hb⟩
  · exact .inl ⟨hfd, h.trans hk⟩
  · refine .inr ⟨k, slot, p, hfd, ?_, hb.lt, fun hu => hb.free (h.used hu), ?_, hb.inode, ?_⟩
    · exact h.fdTable ▸ hb.fd
    · rw [hb.fdTable, h.fdTable]
    · exact fun i hi => (hb.slots i (h.used hi)).trans (h.slots i hi)

theorem Placed.setVol (h : Placed fs slot p fs') (v : Volume) : Placed fs slot p (fs'.setVol v) :=
  ⟨h.lt, h.free, h.fdTable, h.inode, h.slots⟩

theorem Placed.place (fs : Fs) (hlt : 3 ≤ slot ∧ slot < 32) (hfree : ¬fs.used slot) (v : Volume)
    (flag p : ℕ) : Placed fs slot p ((fs.setVol v).setFile slot ⟨0, flag, some p⟩) := by
  refine ⟨hlt, hfree, rfl, by simp, fun i hi => ?_⟩
  have hne : i ≠ slot := by
    rintro rfl
    exact hfree hi
  simp [hne]

/-- The slot is emptied again. -/
theorem Placed.undo {f : File} (h : Placed fs slot p fs') : SlotsKept fs (fs'.setFile slot f) := by
  refine ⟨h.fdTable, fun i hi => ?_⟩
  have hne : i ≠ slot := by
    rintro rfl
    exact h.free hi
  simpa [hne] using h.slots i hi

/-- A full descriptor table leaves the slot in use. -/
theorem wp_pcbFdInstall (h : Placed fs slot p fs') :
    wp anyStop e (pcbFdInstall slot) (OpenResult fs) fs' := by
  unfold pcbFdInstall
  rw [wp_get_bind]
  cases hscan : freeFdFrom fs'.fdTable 4 3 with
  | none => exact wp_pure.mpr (.inl ⟨rfl, h.fdTable, h.slots⟩)
  | some k =>
    obtain ⟨h1, h2, h3⟩ := freeFdFrom_some hscan
    simp only [wp_modify_bind, wp_pure]
    refine .inr ⟨k, slot, p, rfl, ⟨h1, by omega, h.fdTable ▸ h3⟩, h.lt, h.free, ?_, h.inode,
      h.slots⟩
    rw [h.fdTable]

theorem wp_getFreeSlotInGlobal_bind {f : Option ℕ → FsM α} {Q : α → Fs → Prop}
    (hnone : wp anyStop e (f none) Q fs)
    (hsome : ∀ s, 3 ≤ s ∧ s < 32 → ¬fs.used s → wp anyStop e (f (some s)) Q fs) :
    wp anyStop e (getFreeSlotInGlobal >>= f) Q fs := by
  unfold getFreeSlotInGlobal
  rw [wp_bind_assoc, wp_get_bind, wp_pure_bind]
  cases hscan : freeSlotFrom fs.fileTable 29 3 with
  | none => exact hnone
  | some s =>
    obtain ⟨h1, h2, h3⟩ := freeSlotFrom_some hscan
    exact hsome s ⟨h1, by omega⟩ fun hu => hu h3

theorem wp_fileOpen (ino flag : ℕ) : wp anyStop e (fileOpen ino flag) (OpenResult fs) fs := by
  unfold fileOpen
  apply wp_getFreeSlotInGlobal_bind
  · exact wp_pure.mpr (.inl ⟨rfl, .refl fs⟩)
  · intro slot hlt hfree
    apply wp_onVol_any_bind
    intro p v
    rw [wp_setFile_bind]
    have hp := Placed.place fs hlt hfree v flag p
    split_ifs with hw
    · rw [wp_get_bind]
      split_ifs with hd
      · apply wp_onVol_any_bind
        intro _ v'
        exact wp_pcbFdInstall (hp.setVol v')
      · apply wp_onVol_any_bind
        intro _ v'
        rw [wp_setFile_bind, wp_pure]
        exact .inl ⟨rfl, (hp.setVol v').undo⟩
    · exact wp_pcbFdInstall hp

theorem wp_fileCreate (dir : Dir) (name : List UInt8) (flag : ℕ) :
    wp anyStop e (fileCreate dir name flag) (OpenResult fs) fs := by
  have hfail : ∀ v, OpenResult fs (-1) (fs.setVol v) := fun v => .inl ⟨rfl, rfl, fun _ _ => rfl⟩
  unfold fileCreate
  apply wp_onVol_any_bind
  rintro (_ | _) v₁
  · exact wp_pure.mpr (hfail _)
  simp only [Bool.not_true, Bool.false_eq_true, ↓reduceIte]
  apply wp_onVol_any_bind
  rintro (_ | ino) v₂
  · exact wp_pure.mpr (hfail _)
  apply wp_onVol_any_bind
  rintro (_ | _) v₃
  · simp only [Bool.not_false, ↓reduceIte]
    apply wp_onVol_any_bind
    exact fun _ v => wp_pure.mpr (hfail v)
  simp only [Bool.not_true, Bool.false_eq_true, ↓reduceIte]
  apply wp_onVol_any_bind
  intro p v₄
  apply wp_getFreeSlotInGlobal_bind
  · apply wp_onVol_any_bind
    exact fun _ v => wp_pure.mpr (hfail v)
  intro slot hlt hfree
  rw [wp_setFile_bind]
  have hp := Placed.place fs hlt hfree v₄ flag p
  apply wp_onVol_any_bind
  intro _ v₅
  apply wp_onVol_any_bind
  intro de v₆
  apply wp_onVol_any_bind
  rintro (_ | _) v₇
  · simp only [Bool.not_false, ↓reduceIte, wp_setFile_bind]
    apply wp_onVol_any_bind
    intro _ v₈
    exact wp_pure.mpr (.inl ⟨rfl, ((hp.setVol v₇).undo).trans ⟨rfl, fun _ _ => rfl⟩⟩)
  simp only [Bool.not_true, Bool.false_eq_true, ↓reduceIte, wp_get_bind]
  apply wp_onVol_any_bind
  intro _ _
  apply wp_onVol_any_bind
  intro _ _
  apply wp_onVol_any_bind
  intro _ _
  apply wp_onVol_any_bind
  intro _ _
  apply wp_onVol_any_bind
  intro _ v
  exact wp_pcbFdInstall (hp.setVol v)

/-- Closing the handle on the parent directory changes nothing here. -/
theorem wp_openResult_dirClose {m : FsM ℤ} {dir : Dir}
    (h : wp anyStop e m (OpenResult fs) fs₁) :
    wp anyStop e (do
      let fd ← m
      onVol (dirClose dir)
      return fd) (OpenResult fs) fs₁ := by
  apply wp_call h
  intro fd fs₂ hfd
  apply wp_onVol_any_bind
  intro _ v
  rw [wp_pure]
  rcases hfd with ⟨hfd, hk⟩ | ⟨k, slot, p, hfd, hb⟩
  · exact .inl ⟨hfd, hk.trans ⟨rfl, fun _ _ => rfl⟩⟩
  · exact .inr ⟨k, slot, p, hfd, hb.fd, hb.lt, hb.free, hb.fdTable, hb.inode, hb.slots⟩

theorem wp_sysOpen (path : List UInt8) (flags : ℕ) :
    wp anyStop e (sysOpen path flags) (OpenResult fs) fs := by
  have hfail : ∀ v, OpenResult fs (-1) (fs.setVol v) := fun v => .inl ⟨rfl, rfl, fun _ _ => rfl⟩
  have hclose : ∀ v (dir : Dir), wp anyStop e (do
      onVol (dirClose dir)
      return (-1 : ℤ)) (OpenResult fs) (fs.setVol v) := by
    intro v dir
    apply wp_onVol_any_bind
    exact fun _ v' => wp_pure.mpr (hfail v')
  have hvol : ∀ v, SlotsKept fs (fs.setVol v) := fun v => ⟨rfl, fun _ _ => rfl⟩
  unfold sysOpen
  apply wp_ite
  · exact fun _ => wp_pure.mpr (.inl ⟨rfl, .refl fs⟩)
  intro _
  rw [wp_assert_bind]
  refine ⟨fun _ => ?_, fun _ => trivial⟩
  apply wp_onVol_any_bind
  intro depth v₁
  apply wp_onVol_any_bind
  rintro ⟨ino, record⟩ v₂
  apply wp_ite
  · exact fun _ => hclose v₂ _
  intro _
  apply wp_onVol_any_bind
  intro depth' v₃
  apply wp_ite
  · exact fun _ => hclose v₃ _
  intro _
  apply wp_onVol_any_bind
  intro fileName v₄
  cases ino with
  | none =>
    apply wp_ite
    · exact fun _ => hclose v₄ _
    · intro _
      apply wp_openResult_dirClose
      exact wp_mono (wp_fileCreate _ _ _) fun fd fs' h => h.trans (hvol v₄)
  | some ino =>
    apply wp_ite
    · exact fun _ => hclose v₄ _
    · intro _
      apply wp_openResult_dirClose
      exact wp_mono (wp_fileOpen _ _) fun fd fs' h => h.trans (hvol v₄)

end Open

section Close

/-- The descriptor `k` was closed: its slot is emptied, and the other slots stay bound. -/
structure Closed (fs : Fs) (k slot : ℕ) (fs' : Fs) : Prop where
  lt : slot < 32
  bound : fs.fdTable k = slot
  fdTable : ∀ i, fs'.fdTable i = if i = k then -1 else fs.fdTable i
  slots : ∀ i, i ≠ slot → (fs'.fileTable i).fdInode = (fs.fileTable i).fdInode

theorem wp_sysClose {fd : ℤ} {Q : ℤ → Fs → Prop} (hlow : fd ≤ 2 → Q (-1) fs)
    (hclosed : ∀ (k slot : ℕ) r fs', fd = k → 2 < k → Closed fs k slot fs' → Q r fs') :
    wp anyStop e (sysClose fd) Q fs := by
  unfold sysClose
  split_ifs with hfd
  · unfold fdLocalToGlobal
    simp only [wp_bind_assoc, wp_get_bind, wp_assert_bind, wp_pure_bind]
    refine ⟨fun hglobal => ?_, fun _ => trivial⟩
    obtain ⟨slot, hslot⟩ := Int.eq_ofNat_of_zero_le hglobal.1
    unfold fileClose slotInode
    simp only [wp_bind_assoc, wp_get_bind]
    rw [hslot, Int.toNat_natCast]
    cases hp : (fs.fileTable slot).fdInode with
    | none => exact wp_halt_bind.mpr trivial
    | some p =>
      rw [wp_pure_bind, wp_bind_assoc]
      apply wp_onVol_any_bind
      intro _ v₁
      rw [wp_bind_assoc]
      apply wp_onVol_any_bind
      intro _ v₂
      simp only [wp_bind_assoc, wp_get_bind, wp_setFile_bind, wp_pure_bind, wp_modify_bind,
        wp_pure]
      apply hclosed fd.toNat slot _ _ (by omega) (by omega)
      exact ⟨by omega, hslot, fun _ => rfl, fun i hi => by simp [hi]⟩
  · exact wp_pure.mpr (hlow (by omega))

/-- The descriptors from 3 to `n - 1` are closed. -/
structure ClosedUpTo (fs : Fs) (n : ℕ) (fs' : Fs) : Prop where
  fdTable : ∀ k, fs'.fdTable k = if 3 ≤ k ∧ k < n then -1 else fs.fdTable k
  slots : ∀ i : ℕ, (∀ k, 3 ≤ k → k < n → fs.fdTable k ≠ i) →
    (fs'.fileTable i).fdInode = (fs.fileTable i).fdInode

theorem ClosedUpTo.start (fs : Fs) : ClosedUpTo fs 3 fs := by
  refine ⟨fun k => ?_, fun _ _ => rfl⟩
  rw [if_neg (by omega)]

end Close

end Gogoos
