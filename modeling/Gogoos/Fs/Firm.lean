import Gogoos.Fs.Traces

/-!
# The inodes in memory through any run

Whatever handles a run forgets, the list of open inodes has no inode twice, every inode on it has a
positive open count, and new inodes get new addresses.
-/

namespace Gogoos

open Program

variable {e : Heap} {α β : Type} {v w : Volume} {fs fs' : Fs} {p ino flags : ℕ} {dir : Dir}

section Volume

/-- The call keeps the inodes in memory in order. -/
def Firm (v w : Volume) : Prop := Steady v → Steady w

instance : Std.Refl Firm := ⟨fun _ h => h⟩

instance : IsTrans Volume Firm := ⟨fun _ _ _ h h' hu => h' (h hu)⟩

theorem firm_of_sameOpen (h : SameOpen v w) : Firm v w := by
  intro hv
  refine ⟨?_, fun p hp => ?_, fun p hp => ?_, ?_⟩
  · rw [h.openInodes]
    exact hv.nodup
  · rw [h.openInodes] at hp
    rw [h.openCnt]
    exact hv.openCnt p hp
  · rw [h.openInodes] at hp
    rw [h.nextInode]
    exact hv.fresh p hp
  · rw [h.rootInode, h.nextInode]
    exact hv.root

theorem Keeps.firm {m : VolM α} (h : Keeps SameOpen m) : Keeps Firm m :=
  Program.Keeps.mono h fun _ _ => firm_of_sameOpen

theorem Steady.addInode (hv : Steady v) (i : Inode) : Steady (v.addInode i) := by
  refine ⟨hv.nodup, fun p hp => ?_, fun p hp => Nat.lt_succ_of_lt (hv.fresh p hp),
    Nat.lt_succ_of_lt hv.root⟩
  have hne : p ≠ v.nextInode := (hv.fresh p hp).ne
  simpa [hne] using hv.openCnt p hp

/-- An inode with a positive open count is linked. -/
theorem Steady.link (hv : Steady v) (hp : p ∉ v.openInodes) (hlt : p < v.nextInode)
    (hroot : w.rootInode = v.rootInode) (hnext : w.nextInode = v.nextInode)
    (hopen : w.openInodes = p :: v.openInodes) (hcnt : 0 < (w.inodes p).openCnt)
    (hne : ∀ q, q ≠ p → (w.inodes q).openCnt = (v.inodes q).openCnt) : Steady w := by
  refine ⟨?_, fun q hq => ?_, fun q hq => ?_, ?_⟩
  · rw [hopen]
    exact List.nodup_cons.mpr ⟨hp, hv.nodup⟩
  · rw [hopen] at hq
    by_cases hqp : q = p
    · rw [hqp]
      exact hcnt
    · rw [hne q hqp]
      exact hv.openCnt q ((List.mem_cons.mp hq).resolve_left hqp)
  · rw [hopen] at hq
    rw [hnext]
    rcases List.mem_cons.mp hq with hqp | hq
    · rw [hqp]
      exact hlt
    · exact hv.fresh q hq
  · rw [hroot, hnext]
    exact hv.root

theorem Steady.closeInode (hv : Steady v) (p : ℕ) : Steady (v.closeInode p) := by
  have hnext : (v.closeInode p).nextInode = v.nextInode := by rw [closeInode_rest]
  have hroot : (v.closeInode p).rootInode = v.rootInode := by rw [closeInode_rest]
  have hmem : ∀ q ∈ (v.closeInode p).openInodes, q ∈ v.openInodes ∧
      (q = p → (v.inodes p).closed.openCnt ≠ 0) := by
    intro q hq
    rw [closeInode_openInodes] at hq
    split_ifs at hq with hzero
    · have hq' := (hv.nodup.mem_erase_iff).mp hq
      exact ⟨hq'.2, fun h => absurd h hq'.1⟩
    · exact ⟨hq, fun _ => hzero⟩
  refine ⟨?_, fun q hq => ?_, fun q hq => ?_, ?_⟩
  · rw [closeInode_openInodes]
    split_ifs
    · exact hv.nodup.erase _
    · exact hv.nodup
  · obtain ⟨hq', hcnt⟩ := hmem q hq
    rw [closeInode_inodes]
    split_ifs with hqp
    · exact Nat.pos_of_ne_zero (hcnt hqp)
    · exact hv.openCnt q hq'
  · rw [hnext]
    exact hv.fresh q (hmem q hq).1
  · rw [hroot, hnext]
    exact hv.root

theorem firm_openedAgain (p : ℕ) (w : Volume) :
    Firm w (w.setInode p fun i => { i with openCnt := i.openCnt + 1 }) := by
  intro hw
  refine ⟨hw.nodup, fun q hq => ?_, hw.fresh, hw.root⟩
  have hpos := hw.openCnt q hq
  by_cases hqp : q = p
  · rw [hqp]
    simp
  · simpa [hqp] using hpos

theorem firm_inodeOpen (ino : ℕ) : Keeps Firm (inodeOpen ino) := by
  apply Keeps.get_bind
  intro u
  cases hfind : u.findOpen ino with
  | some p => exact (Keeps.modify (firm_openedAgain p)).bind fun _ => keeps_pure _
  | none =>
    refine (keeps_inodeLocate ino).bind fun ip => keeps_sysMallocUnchecked.bind fun _ =>
      keeps_sysMallocUnchecked.bind fun _ => (keeps_ideRead _ _).bind fun inodeBuf => ?_
    intro e v
    unfold newInode
    simp only [wp_bind_assoc, wp_get_bind, wp_modify_bind, wp_pure_bind, wp_pure]
    intro hv
    have hnew : v.nextInode ∉ v.openInodes := fun h => lt_irrefl _ (hv.fresh _ h)
    refine (hv.addInode _).link hnew (Nat.lt_succ_self _) rfl rfl rfl ?_ fun q _ => rfl
    simp

theorem firm_inodeClose (p : ℕ) : Keeps Firm (inodeClose p) := by
  intro e v
  apply wp_inodeClose_eq
  exact fun hv => hv.closeInode p

theorem firm_dirOpen (ino : ℕ) : Keeps Firm (dirOpen ino) :=
  keeps_sysMallocUnchecked.bind fun _ => (firm_inodeOpen ino).bind fun _ => keeps_pure _

theorem firm_dirClose (dir : Dir) : Keeps Firm (dirClose dir) := by
  apply Keeps.ite
  · exact keeps_pure ()
  · exact firm_inodeClose _

theorem firm_searchLoop : ∀ fuel name subPath record parentIno deIno,
    Keeps Firm (searchLoop fuel name subPath record parentIno deIno) := by
  intro fuel
  induction fuel with
  | zero =>
    intro name subPath record parentIno deIno
    exact keeps_halt
  | succ fuel ih =>
    intro name subPath record parentIno deIno
    apply Keeps.ite
    · exact (firm_dirClose _).bind fun _ => (firm_dirOpen _).bind fun _ => keeps_pure _
    · apply keeps_assert.bind
      intro _
      apply (keeps_searchDirEntry _ _).bind
      intro found
      cases found with
      | none => exact keeps_pure _
      | some de =>
        apply Keeps.ite
        · exact .get_bind fun _ => (firm_dirClose _).bind fun _ => (firm_dirOpen _).bind fun _ =>
            ih _ _ _ _ _
        · exact Keeps.ite (keeps_pure _) (ih _ _ _ _ _)

theorem firm_searchFile (path : List UInt8) : Keeps Firm (searchFile path) := by
  apply Keeps.get_bind
  intro v
  apply Keeps.ite
  · exact keeps_pure _
  · exact keeps_assert.bind fun _ => keeps_ask.bind fun _ => firm_searchLoop _ _ _ _ _ _

theorem firm_inodeRelease (ino : ℕ) : Keeps Firm (inodeRelease ino) := by
  have hend : ∀ (allBlocks : ℕ → ℕ) p, Keeps Firm (do
      releaseBlocks allBlocks 12 0
      setInodeBit ino false
      bitMapSync ino .inodeBitmap
      inodeClose p) := fun allBlocks p =>
    (Keeps.firm (keeps_releaseBlocks _ _ _)).bind fun _ =>
      (Keeps.firm (keeps_setInodeBit _ _)).bind fun _ =>
        (Keeps.firm (keeps_bitMapSync _ _)).bind fun _ => firm_inodeClose p
  apply (firm_inodeOpen ino).bind
  intro p
  apply Keeps.get_bind
  intro v
  refine keeps_assert.bind fun _ => keeps_sysMallocUnchecked.bind fun _ =>
    (keeps_loadAllBlocks _).bind fun allBlocks => ?_
  apply Keeps.ite
  · exact (keeps_blockLbaToBitMapIdx _).bind fun _ => keeps_assert.bind fun _ =>
      (Keeps.firm (keeps_setBlockBit _ _)).bind fun _ =>
        (Keeps.firm (keeps_bitMapSync _ _)).bind fun _ => hend allBlocks p
  · exact hend allBlocks p

theorem firm_closeAndReturn (a : α) : Keeps Firm (do
    dirClose dir
    return a) := (firm_dirClose _).bind fun _ => keeps_pure a

theorem firm_dirRemove (parentDir childDir : Dir) : Keeps Firm (dirRemove parentDir childDir) := by
  apply Keeps.get_bind
  intro v
  refine keeps_assert.bind fun _ => keeps_sysMalloc.bind fun ok => ?_
  apply Keeps.ite
  · exact keeps_pure _
  · exact (Keeps.firm (keeps_deleteDirEntry _ _)).bind fun _ => (firm_inodeRelease _).bind fun _ =>
      keeps_pure _

theorem firm_sysRmdir (path : List UInt8) : Keeps Firm (sysRmdir path) := by
  apply (firm_searchFile path).bind
  intro found
  rcases found with ⟨_ | ino, record⟩
  · exact firm_closeAndReturn _
  · apply Keeps.ite
    · exact firm_closeAndReturn _
    · apply (firm_dirOpen ino).bind
      intro dir
      have hend : ∀ ret : ℤ, Keeps Firm (do
          dirClose dir
          dirClose record.parentDir
          return ret) := fun ret => (firm_dirClose _).bind fun _ => firm_closeAndReturn ret
      apply (keeps_dirIsEmpty dir).bind
      intro empty
      apply Keeps.ite
      · exact hend _
      · apply (firm_dirRemove _ _).bind
        intro ok
        exact Keeps.ite (hend _) (hend _)

theorem firm_sysStat (path : List UInt8) : Keeps Firm (sysStat path) := by
  apply Keeps.ite
  · exact .get_bind fun _ => keeps_pure _
  · apply (firm_searchFile path).bind
    intro found
    rcases found with ⟨_ | ino, record⟩
    · exact firm_closeAndReturn _
    · exact (firm_inodeOpen ino).bind fun p => .get_bind fun _ => (firm_inodeClose p).bind fun _ =>
        firm_closeAndReturn _

theorem firm_sysChDir (path : List UInt8) : Keeps Firm (sysChDir path) := by
  apply (firm_searchFile path).bind
  intro found
  apply (firm_dirClose _).bind
  intro _
  exact Keeps.ite (keeps_pure _) (keeps_pure _)

theorem firm_finishDir (record : PathSearchRecord) (ino : ℕ) (r : Option ℕ) :
    Keeps Firm (finishDir record ino r) := by
  cases r with
  | none => exact (Keeps.firm (keeps_setInodeBit _ _)).bind fun _ => keeps_pure _
  | some blockLba =>
    exact .get_bind fun _ => (Keeps.firm (keeps_inodeSync _)).bind fun _ =>
      (Keeps.firm (keeps_inodeSync _)).bind fun _ => (Keeps.firm (keeps_bitMapSync _ _)).bind
        fun _ => firm_closeAndReturn _

theorem firm_makeDir (record : PathSearchRecord) : Keeps Firm (makeDir record) := by
  rw [makeDir_eq]
  apply (keeps_lastName _).bind
  intro dirName
  apply (Keeps.firm keeps_inodeBitMapAlloc).bind
  intro ino
  cases ino with
  | none => exact firm_closeAndReturn _
  | some ino => exact (Keeps.firm (keeps_enterDir _ _)).bind fun r => firm_finishDir _ _ r

theorem firm_sysMkdir (path : List UInt8) : Keeps Firm (sysMkdir path) := by
  apply keeps_sysMalloc.bind
  intro ok
  apply Keeps.ite
  · exact keeps_pure _
  · apply (firm_searchFile path).bind
    intro found
    rcases found with ⟨_ | ino, record⟩
    · refine (keeps_pathDepthCnt _).bind fun _ => (keeps_pathDepthCnt _).bind fun _ => ?_
      exact Keeps.ite (firm_closeAndReturn _) (firm_makeDir record)
    · exact keeps_assert.bind fun _ => firm_closeAndReturn _

theorem firm_sysOpenDir (path : List UInt8) : Keeps Firm (sysOpenDir path) := by
  apply keeps_assert.bind
  intro _
  apply Keeps.ite
  · exact .get_bind fun _ => keeps_pure _
  · apply (firm_searchFile path).bind
    intro found
    rcases found with ⟨_ | ino, record⟩
    · exact keeps_pure _
    · exact Keeps.ite ((firm_dirOpen ino).bind fun _ => keeps_pure _) (keeps_pure _)

theorem firm_sysCloseDir (dir : Option Dir) : Keeps Firm (sysCloseDir dir) := by
  cases dir with
  | none => exact keeps_pure _
  | some dir => exact firm_closeAndReturn _

end Volume

section Files

def FirmFs (fs fs' : Fs) : Prop := Firm fs.vol fs'.vol

instance : Std.Refl FirmFs := ⟨fun _ h => h⟩

instance : IsTrans Fs FirmFs := ⟨fun _ _ _ h h' hu => h' (h hu)⟩

theorem firm_onVol {m : VolM α} (h : Keeps Firm m) : Keeps FirmFs (onVol m) :=
  h.zoom fun _ _ hw => hw

theorem firm_onVol_same {m : VolM α} (h : Keeps SameOpen m) : Keeps FirmFs (onVol m) :=
  firm_onVol (Keeps.firm h)

theorem firm_table {m : FsM α} (h : ∀ e fs, wp anyStop e m (fun _ fs' => fs'.vol = fs.vol) fs) :
    Keeps FirmFs m := fun e fs => wp_mono (h e fs) fun _ _ hvol hv => hvol ▸ hv

theorem firm_setFile (slot : ℕ) (x : File) : Keeps FirmFs (setFile slot x) :=
  firm_table fun _ _ => wp_setFile.mpr rfl

theorem firm_getFreeSlotInGlobal : Keeps FirmFs getFreeSlotInGlobal :=
  .get_bind fun _ => keeps_pure _

theorem firm_pcbFdInstall (slot : ℕ) : Keeps FirmFs (pcbFdInstall slot) := by
  apply Keeps.get_bind
  intro fs
  cases freeFdFrom fs.fdTable 4 3 with
  | none => exact keeps_pure _
  | some k =>
    apply Keeps.bind
    · exact firm_table fun _ _ => wp_modify.mpr rfl
    · exact fun _ => keeps_pure _

/-- The inode `p` is in memory and not linked. -/
structure Unlinked (v : Volume) (p : ℕ) : Prop where
  steady : Steady v
  unlinked : p ∉ v.openInodes
  lt : p < v.nextInode

theorem wp_onVol_unlinked_bind {m : VolM β} {f : β → FsM α} {Q : α → Fs → Prop}
    (h : Unlinked fs.vol p) (hm : Keeps SameOpen m)
    (hf : ∀ b w, Unlinked w p → wp anyStop e (f b) Q (fs.setVol w)) :
    wp anyStop e (onVol m >>= f) Q fs := by
  apply wp_onVol_call (hm e fs.vol)
  intro b w hs
  exact hf b w ⟨firm_of_sameOpen hs h.steady, hs.openInodes ▸ h.unlinked, hs.nextInode ▸ h.lt⟩

/-- `fileCreate` after the allocation of the new inode. -/
def createIn (parentDir : Dir) (fileName : List UInt8) (flag ino newFileInode : ℕ) : FsM ℤ := do
  match ← getFreeSlotInGlobal with
  | none =>
    onVol (setInodeBit ino false)
    return -1
  | some fdIdx =>
    setFile fdIdx ⟨0, flag, some newFileInode⟩
    onVol (modifyInode newFileInode fun i => { i with writeDeny := false })
    let newDirEntry ← onVol (createDirEntry fileName ino FileType.regular)
    if !(← onVol (syncDirEntry parentDir newDirEntry)) then
      setFile fdIdx ⟨0, 0, none⟩
      onVol (setInodeBit ino false)
      return -1
    let fs ← get
    onVol (inodeSync (fs.vol.inodes parentDir.inode))
    onVol (inodeSync (fs.vol.inodes newFileInode))
    onVol (bitMapSync ino .inodeBitmap)
    onVol (modify fun v => v.setOpenInodes (newFileInode :: v.openInodes))
    onVol (modifyInode newFileInode fun i => { i with openCnt := 1 })
    pcbFdInstall fdIdx

theorem wp_createIn {name : List UInt8} (h : Unlinked fs.vol p) :
    wp anyStop e (createIn dir name flags ino p) (fun _ fs' => Steady fs'.vol) fs := by
  have hfail : ∀ fs : Fs, Unlinked fs.vol p → wp anyStop e (do
      onVol (setInodeBit ino false)
      return (-1 : ℤ)) (fun _ fs' => Steady fs'.vol) fs := fun fs h =>
    wp_onVol_unlinked_bind h (keeps_setInodeBit _ _) fun _ _ hw => wp_pure.mpr hw.steady
  unfold createIn getFreeSlotInGlobal
  simp only [wp_bind_assoc, wp_get_bind, wp_pure_bind]
  cases freeSlotFrom fs.fileTable 29 3 with
  | none => exact hfail fs h
  | some slot =>
    dsimp only
    rw [wp_setFile_bind]
    refine wp_onVol_unlinked_bind (p := p) h (keeps_setWriteDeny _) ?_
    intro _ w h
    refine wp_onVol_unlinked_bind (p := p) h (keeps_createDirEntry _ _ _) ?_
    intro de w h
    refine wp_onVol_unlinked_bind (p := p) h (keeps_syncDirEntry _ _) ?_
    intro ok w h
    apply wp_ite
    · exact fun _ => wp_setFile_bind.mpr (hfail _ h)
    intro _
    rw [wp_get_bind]
    refine wp_onVol_unlinked_bind (p := p) h (keeps_inodeSync _) ?_
    intro _ w h
    refine wp_onVol_unlinked_bind (p := p) h (keeps_inodeSync _) ?_
    intro _ w h
    refine wp_onVol_unlinked_bind (p := p) h (keeps_bitMapSync _ _) ?_
    intro _ w h
    apply wp_onVol_bind
    rw [wp_modify]
    apply wp_onVol_bind
    rw [wp_modifyInode]
    have hlinked : Steady ((w.setOpenInodes (p :: w.openInodes)).setInode p
        fun i => { i with openCnt := 1 }) := by
      refine h.steady.link h.unlinked h.lt rfl rfl rfl ?_ fun q hq => ?_
      · simp
      · simp [hq]
    exact wp_mono (firm_pcbFdInstall slot e _) fun _ fs' hfirm => hfirm hlinked

theorem firm_fileCreate (dir : Dir) (name : List UInt8) (flag : ℕ) :
    Keeps FirmFs (fileCreate dir name flag) := by
  have hfail : ∀ ino, Keeps FirmFs (do
      onVol (setInodeBit ino false)
      return (-1 : ℤ)) := fun ino =>
    (firm_onVol_same (keeps_setInodeBit _ _)).bind fun _ => keeps_pure _
  apply (firm_onVol keeps_sysMalloc).bind
  intro ok
  apply Keeps.ite
  · exact keeps_pure _
  apply (firm_onVol_same keeps_inodeBitMapAlloc).bind
  intro ino
  cases ino with
  | none => exact keeps_pure _
  | some ino =>
    apply (firm_onVol keeps_sysMalloc).bind
    intro ok
    apply Keeps.ite
    · exact hfail ino
    intro e fs
    by_cases hv : Steady fs.vol
    · have hnew : fs.vol.nextInode ∉ fs.vol.openInodes := fun h => lt_irrefl _ (hv.fresh _ h)
      have hu : Unlinked (fs.vol.addInode (inodeInit ino)) fs.vol.nextInode :=
        ⟨hv.addInode _, hnew, Nat.lt_succ_self _⟩
      apply wp_onVol_bind
      unfold newInode
      simp only [wp_get_bind, wp_modify_bind, wp_pure]
      have hcreate : Unlinked (fs.setVol (fs.vol.addInode (inodeInit ino))).vol fs.vol.nextInode := hu
      exact wp_mono (wp_createIn hcreate) fun _ _ h _ => h
    · exact wp_iff.mpr ⟨fun _ _ _ h => absurd h hv, fun _ _ => trivial⟩

theorem firm_fileOpen (ino flag : ℕ) : Keeps FirmFs (fileOpen ino flag) := by
  apply firm_getFreeSlotInGlobal.bind
  intro slot
  cases slot with
  | none => exact keeps_pure _
  | some slot =>
    apply (firm_onVol (firm_inodeOpen ino)).bind
    intro p
    apply (firm_setFile _ _).bind
    intro _
    apply Keeps.ite
    · apply Keeps.get_bind
      intro fs
      apply Keeps.ite
      · exact (firm_onVol_same (keeps_setWriteDeny _)).bind fun _ => firm_pcbFdInstall _
      · exact (firm_onVol (firm_inodeClose p)).bind fun _ => (firm_setFile _ _).bind fun _ =>
          keeps_pure _
    · exact firm_pcbFdInstall _

theorem firm_closeThen (dir : Dir) (r : ℤ) : Keeps FirmFs (do
    onVol (dirClose dir)
    return r) := (firm_onVol (firm_dirClose dir)).bind fun _ => keeps_pure r

theorem firm_sysOpen (path : List UInt8) (flags : ℕ) : Keeps FirmFs (sysOpen path flags) := by
  apply Keeps.ite
  · exact keeps_pure _
  refine keeps_assert.bind fun _ => (firm_onVol (keeps_pathDepthCnt path)).bind fun depth => ?_
  apply (firm_onVol (firm_searchFile path)).bind
  intro found
  rcases found with ⟨ino, record⟩
  apply Keeps.ite
  · exact firm_closeThen _ _
  apply (firm_onVol (keeps_pathDepthCnt _)).bind
  intro depth'
  apply Keeps.ite
  · exact firm_closeThen _ _
  apply (firm_onVol (keeps_lastName _)).bind
  intro fileName
  cases ino with
  | none =>
    apply Keeps.ite
    · exact firm_closeThen _ _
    · exact (firm_fileCreate _ _ _).bind fun fd => firm_closeThen _ fd
  | some ino =>
    apply Keeps.ite
    · exact firm_closeThen _ _
    · exact (firm_fileOpen _ _).bind fun fd => firm_closeThen _ fd

theorem firm_sysUnlink (path : List UInt8) : Keeps FirmFs (sysUnlink path) := by
  apply keeps_assert.bind
  intro _
  apply (firm_onVol (firm_searchFile path)).bind
  intro found
  rcases found with ⟨_ | ino, record⟩
  · exact firm_closeThen _ _
  apply keeps_assert.bind
  intro _
  apply Keeps.ite
  · exact firm_closeThen _ _
  apply Keeps.get_bind
  intro fs
  apply Keeps.ite
  · exact firm_closeThen _ _
  apply (firm_onVol keeps_sysMalloc).bind
  intro ok
  apply Keeps.ite
  · exact firm_closeThen _ _
  · exact (firm_onVol_same (keeps_deleteDirEntry _ _)).bind fun _ =>
      (firm_onVol (firm_inodeRelease _)).bind fun _ => firm_closeThen _ _

theorem firm_slotInode (slot : ℕ) : Keeps FirmFs (slotInode slot) := by
  apply Keeps.get_bind
  intro fs
  cases (fs.fileTable slot).fdInode with
  | none => exact keeps_halt
  | some p => exact keeps_pure _

theorem firm_sysClose (fd : ℤ) : Keeps FirmFs (sysClose fd) := by
  apply Keeps.ite
  · have hglobal : Keeps FirmFs (fdLocalToGlobal fd.toNat) :=
      .get_bind fun _ => keeps_assert.bind fun _ => keeps_pure _
    apply hglobal.bind
    intro slot
    have hclose : Keeps FirmFs (fileClose slot) := by
      apply (firm_slotInode slot).bind
      intro p
      exact (firm_onVol_same (keeps_setWriteDeny _)).bind fun _ =>
        (firm_onVol (firm_inodeClose p)).bind fun _ => .get_bind fun _ =>
          (firm_setFile _ _).bind fun _ => keeps_pure _
    apply hclose.bind
    intro ret
    apply Keeps.bind
    · exact firm_table fun _ _ => wp_modify.mpr rfl
    · exact fun _ => keeps_pure _
  · exact keeps_pure _

end Files

end Gogoos
