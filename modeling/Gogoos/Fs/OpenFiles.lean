import Gogoos.Fs.OpenInodes

/-!
# Opening and closing, counted

The calls that bind and free descriptors, with the handle that they add to the count of an inode
or take from it.
-/

namespace Gogoos

open Program

variable {e : Heap} {α β : Type} {n : ℕ → ℕ} {p : ℕ}

section Files

variable {root ino flag slot : ℕ} {fs fs' : Fs}

theorem wp_onVol_call {m : VolM β} {f : β → FsM α} {Q : α → Fs → Prop} {P : β → Volume → Prop}
    (hm : wp anyStop e m P fs.vol)
    (hf : ∀ b w, P b w → wp anyStop e (f b) Q (fs.setVol w)) :
    wp anyStop e (onVol m >>= f) Q fs := wp_onVol_bind (wp_mono hm hf)

theorem wp_onVol_tallied_bind {m : VolM β} {f : β → FsM α} {Q : α → Fs → Prop}
    (h : Tallied root fs.vol n) (hm : Keeps SameOpen m)
    (hf : ∀ b w, Tallied root w n → wp anyStop e (f b) Q (fs.setVol w)) :
    wp anyStop e (onVol m >>= f) Q fs := wp_onVol_call (wp_tallied h hm) hf

/-- The count after an attempt to open: one handle more on the inode of the descriptor's slot, or
none when -1 is returned. -/
def OpenTallied (root : ℕ) (n : ℕ → ℕ) (fd : ℤ) (fs : Fs) : Prop :=
  (fd = -1 ∧ Tallied root fs.vol n) ∨ ∃ k slot p : ℕ, fd = k ∧ fs.fdTable k = slot ∧
    (fs.fileTable slot).fdInode = some p ∧ Tallied root fs.vol (n + Pi.single p 1)

theorem wp_pcbFdInstall_tallied (hfree : freeFdFrom fs.fdTable 4 3 ≠ none)
    (hslot : (fs.fileTable slot).fdInode = some p)
    (h : Tallied root fs.vol (n + Pi.single p 1)) :
    wp anyStop e (pcbFdInstall slot) (OpenTallied root n) fs := by
  unfold pcbFdInstall
  rw [wp_get_bind]
  cases hscan : freeFdFrom fs.fdTable 4 3 with
  | none => exact absurd hscan hfree
  | some k =>
    simp only [wp_modify_bind, wp_pure]
    exact .inr ⟨k, slot, p, rfl, if_pos rfl, hslot, h⟩

theorem wp_fileOpen_tallied (h : Tallied root fs.vol n)
    (hfree : freeSlotFrom fs.fileTable 29 3 ≠ none → freeFdFrom fs.fdTable 4 3 ≠ none) :
    wp anyStop e (fileOpen ino flag) (OpenTallied root n) fs := by
  unfold fileOpen getFreeSlotInGlobal
  simp only [wp_bind_assoc, wp_get_bind, wp_pure_bind]
  cases hscan : freeSlotFrom fs.fileTable 29 3 with
  | none => exact wp_pure.mpr (.inl ⟨rfl, h⟩)
  | some slot =>
    have hfd := hfree (by simp [hscan])
    apply wp_onVol_call (wp_inodeOpen h)
    intro p w hw
    rw [wp_setFile_bind]
    apply wp_ite
    · intro _
      rw [wp_get_bind]
      apply wp_ite
      · intro _
        refine wp_onVol_tallied_bind (n := n + Pi.single p 1) hw (keeps_setWriteDeny _) ?_
        exact fun _ w' hw' => wp_pcbFdInstall_tallied hfd (by simp) hw'
      · intro _
        apply wp_onVol_call (wp_inodeClose hw)
        exact fun _ w' hw' => wp_setFile_bind.mpr (wp_pure.mpr (.inl ⟨rfl, hw'⟩))
    · exact fun _ => wp_pcbFdInstall_tallied hfd (by simp) hw

theorem wp_onVol_spare_bind {m : VolM β} {f : β → FsM α} {Q : α → Fs → Prop}
    (h : Spare root fs.vol n p) (hm : Keeps SameOpen m)
    (hf : ∀ b w, Spare root w n p → wp anyStop e (f b) Q (fs.setVol w)) :
    wp anyStop e (onVol m >>= f) Q fs :=
  wp_onVol_call (wp_mono (hm e fs.vol) fun _ _ hs => h.same hs) hf

/-- Everything that may fail has been done when the new inode is linked, apart from
`pcbFdInstall`. -/
theorem wp_fileCreate_tallied {dir : Dir} {name : List UInt8} (h : Tallied root fs.vol n)
    (hfree : freeSlotFrom fs.fileTable 29 3 ≠ none → freeFdFrom fs.fdTable 4 3 ≠ none) :
    wp anyStop e (fileCreate dir name flag) (OpenTallied root n) fs := by
  have hfail : ∀ ino (f : Fs), Tallied root f.vol n →
      wp anyStop e (do
        onVol (setInodeBit ino false)
        return (-1 : ℤ)) (OpenTallied root n) f := by
    intro ino f hw
    refine wp_onVol_tallied_bind (n := n) hw (keeps_setInodeBit _ _) ?_
    exact fun _ w' hw' => wp_pure.mpr (.inl ⟨rfl, hw'⟩)
  unfold fileCreate
  apply wp_onVol_tallied_bind h keeps_sysMalloc
  intro ok w h
  apply wp_ite
  · exact fun _ => wp_pure.mpr (.inl ⟨rfl, h⟩)
  intro _
  refine wp_onVol_tallied_bind (n := n) h keeps_inodeBitMapAlloc ?_
  rintro (_ | ino) w h
  · exact wp_pure.mpr (.inl ⟨rfl, h⟩)
  refine wp_onVol_tallied_bind (n := n) h keeps_sysMalloc ?_
  intro ok w h
  apply wp_ite
  · exact fun _ => hfail ino _ h
  intro _
  apply wp_onVol_call (P := fun p w => Spare root w n p)
  · unfold newInode
    simp only [wp_get_bind, wp_modify_bind, wp_pure]
    exact h.spare _
  intro p w hp
  unfold getFreeSlotInGlobal
  simp only [wp_bind_assoc, wp_get_bind, wp_pure_bind, Fs.setVol_fileTable]
  cases hscan : freeSlotFrom fs.fileTable 29 3 with
  | none => exact hfail ino _ hp.tallied
  | some slot =>
    have hfd := hfree (by simp [hscan])
    dsimp only
    rw [wp_setFile_bind]
    refine wp_onVol_spare_bind (n := n) (p := p) hp (keeps_setWriteDeny _) ?_
    intro _ w hp
    refine wp_onVol_spare_bind (n := n) (p := p) hp (keeps_createDirEntry _ _ _) ?_
    intro de w hp
    refine wp_onVol_spare_bind (n := n) (p := p) hp (keeps_syncDirEntry _ _) ?_
    intro ok w hp
    apply wp_ite
    · exact fun _ => wp_setFile_bind.mpr (hfail ino _ hp.tallied)
    intro _
    rw [wp_get_bind]
    refine wp_onVol_spare_bind (n := n) (p := p) hp (keeps_inodeSync _) ?_
    intro _ w hp
    refine wp_onVol_spare_bind (n := n) (p := p) hp (keeps_inodeSync _) ?_
    intro _ w hp
    refine wp_onVol_spare_bind (n := n) (p := p) hp (keeps_bitMapSync _ _) ?_
    intro _ w hp
    apply wp_onVol_bind
    rw [wp_modify]
    apply wp_onVol_bind
    rw [wp_modifyInode]
    refine wp_pcbFdInstall_tallied (p := p) hfd ?_ ?_
    · simp
    · exact hp.tallied.link hp.unlinked hp.lt rfl rfl rfl (by simp) fun q hq => by simp [hq]

/-- What stops `sysOpen` before it asks for a descriptor. -/
def TurnedDown (e : Heap) (path : List UInt8) (flags : ℕ) (fs : Fs) : Prop :=
  path.getLast? = some slash ∨ freeSlotFrom fs.fileTable 29 3 = none ∨
    ∀ r w, Returns e (searchFile path) fs.vol r w →
      r.2.fileType = FileType.directory ∨ (r.1 = none ↔ flags &&& OFlags.creat = 0)

theorem wp_openTallied_dirClose {m : FsM ℤ} {dir : Dir}
    (h : wp anyStop e m (OpenTallied root (n + dir.handles)) fs) :
    wp anyStop e (do
      let fd ← m
      onVol (dirClose dir)
      return fd) (OpenTallied root n) fs := by
  apply wp_call h
  rintro fd fs' (⟨rfl, hv⟩ | ⟨k, slot, p, rfl, hk, hslot, hv⟩)
  · exact wp_onVol_call (wp_dirClose hv) fun _ w hw => wp_pure.mpr (.inl ⟨rfl, hw⟩)
  · rw [add_right_comm] at hv
    exact wp_onVol_call (wp_dirClose hv) fun _ w hw =>
      wp_pure.mpr (.inr ⟨k, slot, p, rfl, hk, hslot, hw⟩)

theorem wp_sysOpen_tallied {path : List UInt8} {flags : ℕ} (h : Tallied root fs.vol n)
    (hc : freeFdFrom fs.fdTable 4 3 ≠ none ∨ TurnedDown e path flags fs) :
    wp anyStop e (sysOpen path flags) (OpenTallied root n) fs := by
  have hclose : ∀ (dir : Dir) (f : Fs), Tallied root f.vol (n + dir.handles) → wp anyStop e (do
      onVol (dirClose dir)
      return (-1 : ℤ)) (OpenTallied root n) f := fun dir f hf =>
    wp_onVol_call (wp_dirClose hf) fun _ w hw => wp_pure.mpr (.inl ⟨rfl, hw⟩)
  unfold sysOpen
  apply wp_ite
  · exact fun _ => wp_pure.mpr (.inl ⟨rfl, h⟩)
  intro hlast
  rw [wp_assert_bind]
  refine ⟨fun _ => ?_, fun _ => trivial⟩
  apply wp_onVol_call (wp_and_returns (keeps_pathDepthCnt (R := Eq) path e fs.vol))
  rintro depth w ⟨rfl, -⟩
  apply wp_onVol_call (wp_and_returns (wp_searchFile h))
  rintro ⟨ino, record⟩ w ⟨hw, hret⟩
  dsimp only
  apply wp_ite
  · exact fun _ => hclose _ _ hw
  intro hdir
  refine wp_onVol_tallied_bind (n := n + record.parentDir.handles) hw (keeps_pathDepthCnt _) ?_
  intro depth' w hw
  apply wp_ite
  · exact fun _ => hclose _ _ hw
  intro _
  refine wp_onVol_tallied_bind (n := n + record.parentDir.handles) hw (keeps_lastName _) ?_
  intro fileName w₁ h₁
  -- here the call goes on only with a free descriptor, whichever branch it takes
  have hfree : ¬(ino = none ↔ flags &&& OFlags.creat = 0) →
      freeSlotFrom fs.fileTable 29 3 ≠ none → freeFdFrom fs.fdTable 4 3 ≠ none := by
    intro hino hslot
    rcases hc with hc | hc | hc | hc
    · exact hc
    · exact absurd hc hlast
    · exact absurd hc hslot
    · exact absurd ((hc _ _ hret).resolve_left hdir) hino
  cases ino with
  | none =>
    apply wp_ite
    · exact fun _ => hclose _ _ h₁
    · intro hcreat
      apply wp_openTallied_dirClose
      exact wp_fileCreate_tallied h₁ (hfree (by simpa using hcreat))
  | some ino =>
    apply wp_ite
    · exact fun _ => hclose _ _ h₁
    · intro hcreat
      apply wp_openTallied_dirClose
      exact wp_fileOpen_tallied h₁ (hfree (by simpa using hcreat))

theorem wp_sysUnlink_tallied {path : List UInt8} (h : Tallied root fs.vol n) :
    wp anyStop e (sysUnlink path) (fun _ fs' => ∃ w, fs' = fs.setVol w ∧ Tallied root w n) fs := by
  have hclose : ∀ (dir : Dir) (r : ℤ) w, Tallied root w (n + dir.handles) → wp anyStop e (do
      onVol (dirClose dir)
      return r) (fun _ fs' => ∃ w, fs' = fs.setVol w ∧ Tallied root w n) (fs.setVol w) :=
    fun dir r w hw => wp_onVol_call (wp_dirClose hw) fun _ w' hw' => wp_pure.mpr ⟨w', rfl, hw'⟩
  unfold sysUnlink
  rw [wp_assert_bind]
  refine ⟨fun _ => ?_, fun _ => trivial⟩
  apply wp_onVol_call (wp_searchFile h)
  rintro ⟨_ | ino, record⟩ w hw
  · exact hclose _ _ _ hw
  rw [wp_assert_bind]
  refine ⟨fun _ => ?_, fun _ => trivial⟩
  apply wp_ite
  · exact fun _ => hclose _ _ _ hw
  intro _
  rw [wp_get_bind]
  apply wp_ite
  · exact fun _ => hclose _ _ _ hw
  intro _
  refine wp_onVol_tallied_bind (n := n + record.parentDir.handles) hw keeps_sysMalloc ?_
  intro ok w hw
  apply wp_ite
  · exact fun _ => hclose _ _ _ hw
  intro _
  refine wp_onVol_tallied_bind (n := n + record.parentDir.handles) hw (keeps_deleteDirEntry _ _) ?_
  intro _ w hw
  apply wp_onVol_call (wp_inodeRelease hw)
  exact fun _ w hw => hclose _ _ _ hw

/-- Closing takes one handle off the inode of the descriptor's slot. -/
theorem wp_sysClose_tallied {fd : ℤ} {n' : ℕ → ℕ} (h : Tallied root fs.vol n)
    (hn : ∀ slot p : ℕ, 2 < fd → fs.fdTable fd.toNat = slot →
      (fs.fileTable slot).fdInode = some p → n = n' + Pi.single p 1) :
    wp anyStop e (sysClose fd)
      (fun _ fs' => (fd ≤ 2 ∧ fs' = fs) ∨ (2 < fd ∧ Tallied root fs'.vol n')) fs := by
  unfold sysClose
  apply wp_ite
  · intro hfd
    unfold fdLocalToGlobal
    simp only [wp_bind_assoc, wp_get_bind, wp_assert_bind, wp_pure_bind]
    refine ⟨fun hglobal => ?_, fun _ => trivial⟩
    obtain ⟨slot, hslot⟩ := Int.eq_ofNat_of_zero_le hglobal.1
    unfold fileClose slotInode
    simp only [wp_bind_assoc, wp_get_bind]
    rw [hslot, Int.toNat_natCast]
    cases hp : (fs.fileTable slot).fdInode with
    | none => exact wp_halt_bind.mpr trivial
    | some p =>
      obtain rfl := hn slot p hfd hslot hp
      rw [wp_pure_bind, wp_bind_assoc]
      refine wp_onVol_tallied_bind (n := n' + Pi.single p 1) h (keeps_setWriteDeny _) ?_
      intro _ w hw
      rw [wp_bind_assoc]
      apply wp_onVol_call (wp_inodeClose hw)
      intro _ w' hw'
      simp only [wp_bind_assoc, wp_get_bind, wp_setFile_bind, wp_pure_bind, wp_modify_bind,
        wp_pure]
      exact .inr ⟨hfd, hw'⟩
  · intro hfd
    exact wp_pure.mpr (.inl ⟨not_lt.mp hfd, rfl⟩)

end Files

end Gogoos
