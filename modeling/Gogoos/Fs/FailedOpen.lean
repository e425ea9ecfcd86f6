import Gogoos.Fs.Insertion
import Gogoos.Fs.Firm
import Gogoos.Logic.Erase

/-!
# Opening that fails

`sysOpen` up to the point where it creates or opens a file, and what is left behind when one of
the two fails.
-/

namespace Gogoos

open Program

variable {e : Heap} {α β : Type} {v w : Volume} {fs fs' : Fs} {dir : Dir} {path name : List UInt8}
  {flags t : ℕ}

section Prefix

/-- `sysOpen` up to the point where it creates or opens, `none` when it has given up. Otherwise the
number of the file, if there is one, the directory left open and the last name of the path. -/
def openSearch (pathName : List UInt8) (flags : ℕ) :
    VolM (Option (Option ℕ × Dir × List UInt8)) := do
  if pathName.getLast? = some slash then return none
  assert (flags ≤ 7)
  let pathNameDepth ← pathDepthCnt pathName
  let (ino, record) ← searchFile pathName
  if record.fileType = FileType.directory then
    dirClose record.parentDir
    return none
  let pathSearchedDepth ← pathDepthCnt record.searchPath
  if pathNameDepth ≠ pathSearchedDepth then
    dirClose record.parentDir
    return none
  let fileName ← lastName record.searchPath
  if ino = none ↔ flags &&& OFlags.creat = 0 then
    dirClose record.parentDir
    return none
  return some (ino, record.parentDir, fileName)

/-- The rest of `sysOpen`. -/
def createOrOpen (ino : Option ℕ) (parentDir : Dir) (fileName : List UInt8) (flags : ℕ) :
    FsM ℤ := do
  let fd ← match ino with
    | none => fileCreate parentDir fileName flags
    | some ino => fileOpen ino flags
  onVol (dirClose parentDir)
  return fd

theorem onVol_bind (m : VolM α) (f : α → VolM β) :
    onVol (m >>= f) = (onVol m >>= fun a => onVol (f a)) := by
  apply zoom_bind
  · exact fun _ _ => rfl
  · exact fun _ _ _ => rfl

theorem onVol_pure (a : α) : onVol (pure a) = pure a := rfl

theorem onVol_ite {p : Prop} [Decidable p] (m n : VolM α) :
    onVol (if p then m else n) = if p then onVol m else onVol n := by
  split_ifs <;> rfl

theorem onVol_assert {p : Prop} [Decidable p] : onVol (assert p) = assert p := by
  unfold assert
  split_ifs <;> rfl

theorem pure_bind_eq {ε σ : Type} {a : α} {f : α → Program ε σ β} : (pure a >>= f) = f a := rfl

theorem ite_bind_eq {ε σ : Type} {p : Prop} [Decidable p] {m n : Program ε σ α}
    {f : α → Program ε σ β} : ((if p then m else n) >>= f) = if p then m >>= f else n >>= f := by
  split_ifs <;> rfl

theorem sysOpen_eq (path : List UInt8) (flags : ℕ) : sysOpen path flags = (do
    match ← onVol (openSearch path flags) with
    | none => return -1
    | some (ino, dir, name) => createOrOpen ino dir name flags) := by
  unfold sysOpen openSearch
  simp only [onVol_ite, ite_bind_eq, onVol_bind, onVol_pure, pure_bind_eq, bind_bind, onVol_assert]
  congr 1
  refine bind_congr fun _ => bind_congr fun _ => bind_congr fun found => ?_
  rcases found with ⟨ino, record⟩
  congr 1
  refine bind_congr fun _ => ?_
  congr 1
  refine bind_congr fun _ => ?_
  cases ino with
  | none =>
    by_cases hcreat : flags &&& OFlags.creat = 0
    · simp [hcreat]
    · simp [hcreat, createOrOpen]
  | some ino =>
    by_cases hcreat : flags &&& OFlags.creat = 0
    · simp [hcreat, createOrOpen]
    · simp [hcreat]

/-- The search has closed everything when it gives up. -/
def Searched (v : Volume) : Option (Option ℕ × Dir × List UInt8) → Volume → Prop
  | none, w => SameVolume v w
  | some (_, dir, _), w => Holding v w dir

theorem wp_close_searched (h : Holding v w dir) : wp anyStop e (do
    dirClose dir
    return none) (Searched v) w := by
  apply wp_bind
  apply wp_dirClose_eq
  exact wp_pure.mpr h.same

theorem wp_openSearch (hv : Steady v) :
    wp anyStop e (openSearch path flags) (Searched v) v := by
  unfold openSearch
  apply wp_ite
  · exact fun _ => wp_pure.mpr (.refl v)
  intro _
  rw [wp_assert_bind]
  refine ⟨fun _ => ?_, fun _ => trivial⟩
  apply wp_call (keeps_pathDepthCnt (R := Eq) path e v)
  rintro depth _ rfl
  apply wp_call (wp_searchFile_holding hv)
  rintro ⟨ino, record⟩ w hw
  apply wp_ite
  · exact fun _ => wp_close_searched hw
  intro _
  apply wp_call (keeps_pathDepthCnt (R := Eq) _ e w)
  rintro depth' _ rfl
  apply wp_ite
  · exact fun _ => wp_close_searched hw
  intro _
  apply wp_call (keeps_lastName (R := Eq) _ e w)
  rintro fileName _ rfl
  apply wp_ite
  · exact fun _ => wp_close_searched hw
  · exact fun _ => wp_pure.mpr hw

end Prefix

section Conditions

/-- What a failed call must leave: the table of open files, the descriptors and the volume. -/
structure Undone (fs fs' : Fs) : Prop where
  fileTable : fs'.fileTable = fs.fileTable
  fdTable : fs'.fdTable = fs.fdTable
  vol : SameVolume fs.vol fs'.vol

theorem Undone.refl (fs : Fs) : Undone fs fs := ⟨rfl, rfl, .refl _⟩

/-- The inode that `inodeOpen` returns, apart from its open count. -/
def Volume.opened (v : Volume) (ino : ℕ) : Inode :=
  match v.findOpen ino with
  | some p => v.inodes p
  | none => Inode.ofBytes fun k =>
    v.sector (v.superBlock.inodeTableLbaStart + ino * 76 / 512) (ino * 76 % 512 + k)

/-- If a file is denied for writing, the free slot already looks as this leaves it; otherwise
there is a free descriptor. -/
def ExistingOk (fs : Fs) (ino flags : ℕ) : Prop :=
  ∀ slot, freeSlotFrom fs.fileTable 29 3 = some slot →
    if writes flags = true ∧ (fs.vol.opened ino).writeDeny = true
    then fs.fileTable slot = ⟨0, flags, none⟩
    else freeFdFrom fs.fdTable 4 3 ≠ none

/-- If the entry gets a place there is a free descriptor, and if not the free slot is all zero and
nothing is left of an indirect table. -/
def CreateOk (e : Heap) (t : ℕ) (fs : Fs) (dir : Dir) : Prop :=
  ∀ slot, e.sysMalloc t = true → bitMapScan fs.vol.inodeBitMap 1 ≠ none →
    e.sysMalloc (t + 1) = true → freeSlotFrom fs.fileTable 29 3 = some slot →
      match roomAt e (t + 2) fs.vol dir with
      | .free => freeFdFrom fs.fdTable 4 3 ≠ none
      | .full => fs.fileTable slot = ⟨0, 0, none⟩
      | .noEntry => fs.fileTable slot = ⟨0, 0, none⟩ ∧
        TableUndone fs.vol (fs.vol.inodes dir.inode)

/-- The condition on a call of `sysOpen` whose first question is `t`. -/
def OpenOk (e : Heap) (t : ℕ) (path : List UInt8) (flags : ℕ) (fs : Fs) : Prop :=
  ∀ found dir name t₁ w,
    openSearch path flags e t fs.vol = .returned (some (found, dir, name)) t₁ w →
      match found with
      | none => CreateOk e t₁ (fs.setVol w) dir
      | some ino => ExistingOk (fs.setVol w) ino flags

end Conditions

section Existing

theorem setFile_eq {slot : ℕ} {x : File} (h : fs.fileTable slot = x) : fs.setFile slot x = fs := by
  rw [← h]
  exact setFile_self fs slot

theorem setFile_setFile (fs : Fs) (slot : ℕ) (x y : File) :
    (fs.setFile slot x).setFile slot y = fs.setFile slot y := by
  unfold Fs.setFile
  congr 1
  funext i
  dsimp only
  split_ifs <;> rfl

theorem wp_inodeOpen_opened (hv : Steady v) {ino : ℕ} : wp anyStop e (inodeOpen ino) (fun p w =>
    SameVolume v (w.closeInode p) ∧ (w.inodes p).writeDeny = (v.opened ino).writeDeny) v := by
  have hdeny : wp anyStop e (inodeOpen ino)
      (fun p w => (w.inodes p).writeDeny = (v.opened ino).writeDeny) v := by
    unfold inodeOpen Volume.opened
    rw [wp_get_bind]
    cases v.findOpen ino with
    | some p =>
      simp only [wp_modifyInode_bind, wp_pure]
      simp
    | none =>
      unfold inodeLocate newInode
      simp only [wp_bind_assoc, wp_assert_bind, wp_get_bind, wp_pure_bind]
      refine ⟨fun _ => ?_, fun _ => trivial⟩
      apply wp_sysMallocUnchecked_bind trivial
      apply wp_sysMallocUnchecked_bind trivial
      apply wp_ideRead_of trivial
      simp only [wp_bind_assoc, wp_get_bind, wp_modify_bind, wp_pure_bind, wp_pure]
      simp
  exact wp_mono (wp_and (wp_inodeOpen_holding hv) hdeny) fun _ _ h => ⟨h.1.1, h.2⟩

/-- `pcbFdInstall` with a free descriptor. -/
theorem wp_pcbFdInstall_free {slot : ℕ} (hfree : freeFdFrom fs.fdTable 4 3 ≠ none) :
    wp anyStop e (pcbFdInstall slot) (fun r _ => r ≠ -1) fs := by
  unfold pcbFdInstall
  rw [wp_get_bind]
  cases hscan : freeFdFrom fs.fdTable 4 3 with
  | none => exact absurd hscan hfree
  | some k =>
    simp only [wp_modify_bind, wp_pure]
    omega

theorem wp_fileOpen_failed (hv : Steady fs.vol) {ino : ℕ} (hok : ExistingOk fs ino flags) :
    wp anyStop e (fileOpen ino flags) (fun r fs' => r = -1 → Undone fs fs') fs := by
  unfold fileOpen getFreeSlotInGlobal
  simp only [wp_bind_assoc, wp_get_bind, wp_pure_bind]
  cases hscan : freeSlotFrom fs.fileTable 29 3 with
  | none => exact wp_pure.mpr fun _ => .refl fs
  | some slot =>
    have hslot := hok slot hscan
    have hfree : ¬(writes flags = true ∧ (fs.vol.opened ino).writeDeny = true) → ∀ f : Fs,
        f.fdTable = fs.fdTable →
          wp anyStop e (pcbFdInstall slot) (fun r fs' => r = -1 → Undone fs fs') f := by
      intro hdeny f hf
      rw [if_neg hdeny, ← hf] at hslot
      exact wp_mono (wp_pcbFdInstall_free hslot) fun r _ hr hfail => absurd hfail hr
    apply wp_onVol_call (wp_inodeOpen_opened hv)
    rintro p w ⟨hsame, hdeny⟩
    rw [wp_setFile_bind]
    apply wp_ite
    · intro hwrites
      rw [wp_get_bind]
      change wp anyStop e (if (!(w.inodes p).writeDeny) = true then _ else _) _ _
      apply wp_ite
      · intro hnot
        apply wp_onVol_call (P := fun _ _ => True) (wp_modify.mpr trivial)
        intro _ w' _
        apply hfree
        · rintro ⟨-, hdenied⟩
          rw [hdeny, hdenied] at hnot
          cases hnot
        · rfl
      · intro hdenied
        have hw : (fs.vol.opened ino).writeDeny = true := by
          rw [← hdeny]
          simpa using hdenied
        rw [if_pos ⟨hwrites, hw⟩] at hslot
        apply wp_onVol_bind
        apply wp_inodeClose_eq
        rw [wp_setFile_bind, wp_pure]
        intro _
        have hfile : ((fs.setVol w).setFile slot ⟨0, flags, some p⟩).setFile slot ⟨0, flags, none⟩ =
            fs.setVol w := by
          rw [setFile_setFile]
          exact setFile_eq hslot
        refine ⟨?_, rfl, hsame⟩
        have htable := congrArg Fs.fileTable hfile
        exact htable
    · intro hreads
      apply hfree
      · exact fun h => hreads h.1
      · rfl

end Existing

section Creation

variable {ino : ℕ} {f : Option ℕ → FsM α} {Q : α → ℕ → Fs → Prop}

theorem wpAt_onVol_sysMalloc {f : Bool → FsM α} :
    wpAt anyStop e t (onVol sysMalloc >>= f) Q fs ↔
      wpAt anyStop e (t + 1) (f (e.sysMalloc t)) Q fs := Iff.rfl

theorem wpAt_onVol_inodeBitMapAlloc
    (hnone : bitMapScan fs.vol.inodeBitMap 1 = none → wpAt anyStop e t (f none) Q fs)
    (hsome : ∀ i, bitMapScan fs.vol.inodeBitMap 1 = some i →
      wpAt anyStop e t (f (some i)) Q (fs.setVol (fs.vol.setInodeBit i true))) :
    wpAt anyStop e t (onVol inodeBitMapAlloc >>= f) Q fs := by
  apply wpAt_bind
  apply wpAt_zoom
  exact wpAt_inodeBitMapAlloc hnone hsome

/-- The volume of `fileCreate` before it inserts the entry. -/
def Volume.created (v : Volume) (ino : ℕ) : Volume :=
  ((v.setInodeBit ino true).addInode (inodeInit ino)).setInode v.nextInode
    fun i => { i with writeDeny := false }

theorem roomFor_congr {allBlocks : ℕ → ℕ} (hdisk : w.disk = v.disk)
    (hbits : w.blockBitMap = v.blockBitMap) (hsuper : w.superBlock = v.superBlock) :
    ∀ cnt k, roomFor w allBlocks cnt k = roomFor v allBlocks cnt k := by
  have hsector : w.sector = v.sector := by
    unfold Volume.sector
    rw [hdisk]
  intro cnt
  induction cnt with
  | zero => exact fun _ => rfl
  | succ cnt ih =>
    intro k
    unfold roomFor
    rw [hbits, hsuper, hsector, ih]

/-- Nothing of this matters for the insertion. -/
theorem roomAt_created (hlt : dir.inode < v.nextInode) :
    roomAt e t (v.created ino) dir = roomAt e t v dir := by
  have hinode : (v.created ino).inodes dir.inode = v.inodes dir.inode := by
    unfold Volume.created
    simp [hlt.ne]
  have hblocks : (v.created ino).blockAt (v.inodes dir.inode) = v.blockAt (v.inodes dir.inode) := rfl
  unfold roomAt Volume.room
  rw [hinode, hblocks]
  exact if_congr Iff.rfl (roomFor_congr (w := v.created ino) rfl rfl rfl 140 0) rfl

theorem tableUndone_created (hlt : dir.inode < v.nextInode)
    (h : TableUndone v (v.inodes dir.inode)) :
    TableUndone (v.created ino) ((v.created ino).inodes dir.inode) := by
  have hinode : (v.created ino).inodes dir.inode = v.inodes dir.inode := by
    unfold Volume.created
    simp [hlt.ne]
  rw [hinode]
  exact h

/-- The inode number is given back. -/
theorem sameVolume_uncreated {x : Volume} (hscan : bitMapScan v.inodeBitMap 1 = some ino)
    (hx : SameVolume (v.created ino) x) : SameVolume v (x.setInodeBit ino false) := by
  have hbits : bitMapSet x.inodeBitMap ino false = v.inodeBitMap := by
    have hin : x.inodeBitMap = bitMapSet v.inodeBitMap ino true := by rw [hx.rest]; rfl
    rw [hin]
    exact scan_undo hscan
  have hnext : v.nextInode + 1 ≤ x.nextInode := hx.next
  have hrest := hx.rest
  refine .of_fields ?_ ?_ ?_ ?_ ?_ hbits ?_ ?_ (fun p hp => ?_) (by
    change v.nextInode ≤ x.nextInode
    omega)
  · change x.disk = v.disk
    rw [hrest]
    rfl
  · change x.lbaStart = v.lbaStart
    rw [hrest]
    rfl
  · change x.secCnt = v.secCnt
    rw [hrest]
    rfl
  · change x.superBlock = v.superBlock
    rw [hrest]
    rfl
  · change x.blockBitMap = v.blockBitMap
    rw [hrest]
    rfl
  · change x.openInodes = v.openInodes
    rw [hrest]
    rfl
  · change x.rootInode = v.rootInode
    rw [hrest]
    rfl
  · change x.inodes p = v.inodes p
    have hp' : p < (v.created ino).nextInode := Nat.lt_succ_of_lt hp
    rw [hx.inodes p hp']
    unfold Volume.created
    simp [hp.ne]

/-- The inode's number goes back when there is no memory for the inode, -/
theorem undone_noMemory (hscan : bitMapScan fs.vol.inodeBitMap 1 = some ino) :
    Undone fs (fs.setVol ((fs.vol.setInodeBit ino true).setInodeBit ino false)) := by
  refine ⟨rfl, rfl, ?_⟩
  have hbits : bitMapSet (bitMapSet fs.vol.inodeBitMap ino true) ino false = fs.vol.inodeBitMap :=
    scan_undo hscan
  exact .of_fields rfl rfl rfl rfl rfl hbits rfl rfl (fun _ _ => rfl) le_rfl

/-- when there is no slot for the file, -/
theorem undone_noSlot (hscan : bitMapScan fs.vol.inodeBitMap 1 = some ino) :
    Undone fs (fs.setVol (((fs.vol.setInodeBit ino true).addInode (inodeInit ino)).setInodeBit ino
      false)) := by
  refine ⟨rfl, rfl, ?_⟩
  have hsame : SameVolume (fs.vol.created ino)
      ((fs.vol.setInodeBit ino true).addInode (inodeInit ino)) := by
    refine .of_fields rfl rfl rfl rfl rfl rfl rfl rfl (fun p hp => ?_) le_rfl
    unfold Volume.created
    by_cases hp' : p = fs.vol.nextInode <;> simp [hp', inodeInit]
  exact sameVolume_uncreated hscan hsame

/-- and, with the slot, when there is no place for the entry. -/
theorem undone_noPlace {slot : ℕ} {x : Volume} {file : File}
    (hscan : bitMapScan fs.vol.inodeBitMap 1 = some ino) (hsame : SameVolume (fs.vol.created ino) x)
    (hzero : fs.fileTable slot = ⟨0, 0, none⟩) :
    Undone fs ((((fs.setVol x).setFile slot file).setFile slot ⟨0, 0, none⟩).setVol
      (x.setInodeBit ino false)) := by
  refine ⟨?_, rfl, sameVolume_uncreated hscan hsame⟩
  have hslot : ((fs.setVol x).setFile slot file).setFile slot ⟨0, 0, none⟩ = fs.setVol x := by
    rw [setFile_setFile]
    exact setFile_eq hzero
  have htable := congrArg Fs.fileTable hslot
  exact htable

/-- The steps of `fileCreate` behind a successful insertion. -/
theorem wp_finishCreate {slot : ℕ} {m₁ m₂ m₃ m₄ m₅ : VolM Unit} {fs₀ : Fs}
    (hfree : freeFdFrom fs₀.fdTable 4 3 ≠ none) (hfd : fs.fdTable = fs₀.fdTable) :
    wp anyStop e (do
      onVol m₁
      onVol m₂
      onVol m₃
      onVol m₄
      onVol m₅
      pcbFdInstall slot) (fun r fs' => r = -1 → Undone fs₀ fs') fs := by
  apply wp_onVol_any_bind
  intro _ _
  apply wp_onVol_any_bind
  intro _ _
  apply wp_onVol_any_bind
  intro _ _
  apply wp_onVol_any_bind
  intro _ _
  apply wp_onVol_any_bind
  intro _ _
  have hfree' : freeFdFrom fs.fdTable 4 3 ≠ none := hfd ▸ hfree
  exact wp_mono (wp_pcbFdInstall_free hfree') fun r _ hr hfail => absurd hfail hr

theorem wpAt_fileCreate_failed (hlt : dir.inode < fs.vol.nextInode) (hok : CreateOk e t fs dir) :
    wpAt anyStop e t (fileCreate dir name flags) (fun r _ fs' => r = -1 → Undone fs fs') fs := by
  unfold fileCreate
  rw [wpAt_onVol_sysMalloc]
  cases h₀ : e.sysMalloc t with
  | false => exact fun _ => .refl fs
  | true =>
  simp only [Bool.not_true, Bool.false_eq_true, if_false]
  apply wpAt_onVol_inodeBitMapAlloc
  · exact fun _ _ => .refl fs
  intro ino hscan
  rw [wpAt_onVol_sysMalloc]
  cases h₁ : e.sysMalloc (t + 1) with
  | false => exact fun _ => undone_noMemory hscan
  | true =>
  simp only [Bool.not_true, Bool.false_eq_true, if_false]
  change wpAt anyStop e (t + 1 + 1) (match freeSlotFrom fs.fileTable 29 3 with
    | none => _
    | some _ => _) _ (fs.setVol ((fs.vol.setInodeBit ino true).addInode (inodeInit ino)))
  cases hslot : freeSlotFrom fs.fileTable 29 3 with
  | none => exact fun _ => undone_noSlot hscan
  | some slot =>
  have hplace := hok slot h₀ (by simp [hscan]) h₁ hslot
  set fs₁ := (fs.setVol (fs.vol.created ino)).setFile slot ⟨0, flags, some fs.vol.nextInode⟩ with hfs₁
  change wpAt anyStop e (t + 2) (do
    let newDirEntry ← onVol (createDirEntry name ino FileType.regular)
    if !(← onVol (syncDirEntry dir newDirEntry)) then
      setFile slot ⟨0, 0, none⟩
      onVol (setInodeBit ino false)
      return -1
    let fs ← get
    onVol (inodeSync (fs.vol.inodes dir.inode))
    onVol (inodeSync (fs.vol.inodes _))
    onVol (bitMapSync ino .inodeBitmap)
    onVol (modify fun v => v.setOpenInodes (_ :: v.openInodes))
    onVol (modifyInode _ fun i => { i with openCnt := 1 })
    pcbFdInstall slot) _ fs₁
  apply (quiet_createDirEntry name ino FileType.regular).zoom.call (R := fun _ fs' => fs' = fs₁)
  · apply wp_onVol
    unfold createDirEntry
    rw [wp_assert_bind]
    exact ⟨fun _ => wp_pure.mpr rfl, fun _ => trivial⟩
  rintro de _ rfl
  apply wpAt_bind
  apply wpAt_zoom
  apply wpAt_mono wpAt_syncDirEntry_room
  intro ok t' x hx
  change InsertsAs (fs.vol.created ino) dir.inode (roomAt e (t + 2) (fs.vol.created ino) dir) ok x
    at hx
  rw [roomAt_created hlt] at hx
  unfold InsertsAs at hx
  cases hroom : roomAt e (t + 2) fs.vol dir with
  | free =>
    rw [hroom] at hx hplace
    obtain rfl : ok = true := hx
    apply wp_iff_wpAt.mp
    simp only [Bool.not_true, Bool.false_eq_true, if_false]
    rw [wp_get_bind]
    exact wp_finishCreate hplace rfl
  | full =>
    rw [hroom] at hx hplace
    obtain ⟨rfl, rfl⟩ := hx
    exact fun _ => undone_noPlace hscan (.refl _) hplace
  | noEntry =>
    rw [hroom] at hx hplace
    obtain ⟨rfl, hundone⟩ := hx
    exact fun _ => undone_noPlace hscan (hundone (tableUndone_created hlt hplace.2)) hplace.1

end Creation

section Open

theorem firm_openSearch (path : List UInt8) (flags : ℕ) : Keeps Firm (openSearch path flags) := by
  apply Keeps.ite
  · exact keeps_pure _
  refine keeps_assert.bind fun _ => (keeps_pathDepthCnt path).bind fun depth => ?_
  apply (firm_searchFile path).bind
  intro found
  rcases found with ⟨ino, record⟩
  apply Keeps.ite
  · exact firm_closeAndReturn _
  apply (keeps_pathDepthCnt _).bind
  intro depth'
  apply Keeps.ite
  · exact firm_closeAndReturn _
  apply (keeps_lastName _).bind
  intro fileName
  apply Keeps.ite
  · exact firm_closeAndReturn _
  · exact keeps_pure _

/-- Closing the directory of the search completes what was undone. -/
theorem Undone.close (h : Holding fs.vol w dir) (hu : Undone (fs.setVol w) fs') :
    Undone fs (fs'.setVol (fs'.vol.closeDir dir)) :=
  ⟨hu.fileTable, hu.fdTable, (h.congr hu.vol).same⟩

theorem wpAt_createOrOpen_failed (hw : Steady w) (h : Holding fs.vol w dir) (found : Option ℕ)
    (hok : match found with
      | none => CreateOk e t (fs.setVol w) dir
      | some ino => ExistingOk (fs.setVol w) ino flags) :
    wpAt anyStop e t (createOrOpen found dir name flags) (fun r _ fs' => r = -1 → Undone fs fs')
      (fs.setVol w) := by
  have hrest : ∀ m : FsM ℤ,
      wpAt anyStop e t m (fun r _ fs' => r = -1 → Undone (fs.setVol w) fs') (fs.setVol w) →
        wpAt anyStop e t (do
          let fd ← m
          onVol (dirClose dir)
          return fd) (fun r _ fs' => r = -1 → Undone fs fs') (fs.setVol w) := by
    intro m hm
    apply wpAt_call hm
    intro fd t' fs' hfd
    apply wp_iff_wpAt.mp
    apply wp_onVol_bind
    apply wp_dirClose_eq
    rw [wp_pure]
    exact fun hfail => .close h (hfd hfail)
  cases found with
  | none => exact hrest _ (wpAt_fileCreate_failed h.lt hok)
  | some ino => exact hrest _ (wp_iff_wpAt.mp (wp_fileOpen_failed hw hok) t)

/-- Opening that fails leaves no trace. -/
theorem wpAt_sysOpen_failed (hv : Steady fs.vol) (hok : OpenOk e t path flags fs) :
    wpAt anyStop e t (sysOpen path flags) (fun r _ fs' => r = -1 → Undone fs fs') fs := by
  rw [sysOpen_eq]
  apply wpAt_bind
  apply wpAt_zoom
  have hclosed : wp anyStop e (openSearch path flags) (Searched fs.vol) fs.vol := wp_openSearch hv
  have hsearch := wp_and hclosed (firm_openSearch path flags e fs.vol) t
  unfold wpAt
  cases hrun : openSearch path flags e t fs.vol with
  | stopped w => trivial
  | returned found t₁ w =>
    rw [hrun] at hsearch
    obtain ⟨hs, hfirm⟩ := hsearch
    rcases found with _ | ⟨found, dir, name⟩
    · exact fun _ => ⟨rfl, rfl, hs⟩
    · exact wpAt_createOrOpen_failed (hfirm hv) hs found (hok found dir name t₁ w hrun)

end Open

end Gogoos
