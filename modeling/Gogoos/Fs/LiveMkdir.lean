import Gogoos.Fs.Balanced
import Gogoos.Fs.FailedMkdir

/-!
# Making a directory with the heap

`sysMkdir` with the blocks it takes from the heap, and the blocks that are in use after it has
failed.
-/

namespace Gogoos

open Program

namespace Alive

variable {e : Heap} {s s' : Alive} {record : Search} {B : Finset ℕ} {path name : List UInt8}
  {ino t : ℕ}

section Programs

def mkdirSearch (pathName : List UInt8) : AliveM (Option Search) := do
  let (ino, record) ← searchFile pathName
  match ino with
  | some ino =>
    assert (ino ≠ 0)
    dirClose record.parentDir
    return none
  | none =>
    let pathNameDepth ← onVol (pathDepthCnt pathName)
    let pathSearchedDepth ← onVol (pathDepthCnt record.searchPath)
    if pathNameDepth ≠ pathSearchedDepth then
      dirClose record.parentDir
      return none
    return some record

def enterDir (record : Search) (dirName : List UInt8) (ino : ℕ) : AliveM (Option ℕ) := do
  match ← onVol blockBitMapAlloc with
  | none => return none
  | some blockLba =>
    let blockBitMapIdx ← onVol (blockLbaToBitMapIdx blockLba)
    assert (blockBitMapIdx ≠ 0)
    onVol (bitMapSync blockBitMapIdx .blockBitmap)
    let s ← get
    let parentIno := (s.fs.vol.inodes record.parentDir.dir.inode).ino
    onVol (ideWrite blockLba (newDirSector ino parentIno) 1)
    let newDirEntry ← onVol (createDirEntry dirName ino FileType.directory)
    if !(← syncDirEntry record.parentDir.dir newDirEntry) then return none
    return some blockLba

/-- The second rollback step closes nothing. -/
def finishDir (record : Search) (ino : ℕ) : Option ℕ → AliveM ℤ
  | none => do
    onVol (setInodeBit ino false)
    return -1
  | some blockLba => do
    let s ← get
    onVol (inodeSync (s.fs.vol.inodes record.parentDir.dir.inode))
    onVol (inodeSync
      { inodeInit ino with
        block := fun k => if k = 0 then blockLba else 0
        size := 2 * s.fs.vol.superBlock.dirEntrySize })
    onVol (bitMapSync ino .inodeBitmap)
    dirClose record.parentDir
    return 0

def makeDir (record : Search) : AliveM ℤ := do
  let dirName ← onVol (lastName record.searchPath)
  match ← onVol inodeBitMapAlloc with
  | none =>
    dirClose record.parentDir
    return -1
  | some ino =>
    let r ← enterDir record dirName ino
    finishDir record ino r

/-- `sysMkdir` with its buffer. -/
def searchAndMake (pathName : List UInt8) : AliveM ℤ := do
  match ← mkdirSearch pathName with
  | none => return -1
  | some record => makeDir record

/-- `ioBuf` is freed on every way out. -/
def sysMkdir (pathName : List UInt8) : AliveM ℤ := do
  match ← sysMalloc with
  | none => return -1
  | some ioBuf =>
    let r ← searchAndMake pathName
    sysFree ioBuf
    return r

end Programs

section Erasure

theorem vol_closeAndReturn {γ : Type} (dir : DirPtr) (r : γ) : ErasesToVol (do
    dirClose dir
    return r) (do
    Gogoos.dirClose dir.dir
    return r) := (vol_dirClose dir).bind fun _ => erases_pure r

theorem vol_mkdirSearch (path : List UInt8) :
    ErasesVol (Option.map Search.record) (mkdirSearch path) (Gogoos.mkdirSearch path) := by
  apply (vol_searchFile path).bindAs
  intro found
  rcases found with ⟨_ | ino, record⟩
  · apply (vol_onVol _).erasesAs.bindAs
    intro depth
    apply (vol_onVol _).erasesAs.bindAs
    intro depth'
    apply ErasesAs.ite
    · exact (vol_dirClose _).erasesAs.bindAs fun _ => erasesAs_pure none
    · exact erasesAs_pure (some record)
  · apply erases_assert.erasesAs.bindAs
    intro _
    exact (vol_dirClose _).erasesAs.bindAs fun _ => erasesAs_pure none

theorem vol_enterDir (record : Search) (name : List UInt8) (ino : ℕ) :
    ErasesToVol (enterDir record name ino) (Gogoos.enterDir record.record name ino) := by
  apply (vol_onVol _).bind
  intro blockLba
  cases blockLba with
  | none => exact erases_pure none
  | some blockLba =>
    apply (vol_onVol _).bind
    intro idx
    apply erases_assert.bind
    intro _
    apply (vol_onVol _).bind
    intro _
    apply Erases.get_bind
    intro s
    apply (vol_onVol _).bind
    intro _
    apply (vol_onVol _).bind
    intro de
    apply (vol_syncDirEntry _ _).bind
    intro ok
    exact Erases.ite (erases_pure none) (erases_pure _)

theorem vol_finishDir (record : Search) (ino : ℕ) (r : Option ℕ) :
    ErasesToVol (finishDir record ino r) (Gogoos.finishDir record.record ino r) := by
  cases r with
  | none => exact (vol_onVol _).bind fun _ => erases_pure (-1)
  | some blockLba =>
    apply Erases.get_bind
    intro s
    apply (vol_onVol _).bind
    intro _
    apply (vol_onVol _).bind
    intro _
    apply (vol_onVol _).bind
    intro _
    exact vol_closeAndReturn _ _

theorem vol_makeDir (record : Search) :
    ErasesToVol (makeDir record) (Gogoos.makeDir record.record) := by
  rw [makeDir_eq]
  apply (vol_onVol _).bind
  intro dirName
  apply (vol_onVol _).bind
  intro ino
  cases ino with
  | none => exact vol_closeAndReturn _ _
  | some ino => exact (vol_enterDir _ _ _).bind fun r => vol_finishDir _ _ r

/-- On the volume it is `sysMkdir`. -/
theorem vol_sysMkdir (path : List UInt8) :
    ErasesToVol (sysMkdir path) (Gogoos.sysMkdir path) := by
  rw [sysMkdir_eq]
  apply vol_sysMalloc_bind
  · exact erases_pure (-1)
  · intro ioBuf
    apply vol_thenFree
    apply (vol_mkdirSearch path).bind
    intro found
    cases found with
    | none => exact erases_pure (-1)
    | some record => exact vol_makeDir record

end Erasure

section Heap

theorem wp_closeAndReturn_holds {γ : Type} (h : Holds B record.parentDir s) (r : γ) :
    wp anyStop e (do
      dirClose record.parentDir
      return r) (fun _ s' => s'.bufs = B ∧ Tracked s') s := by
  apply wp_call (wp_dirClose_holds h)
  intro _ s' hs'
  exact wp_pure.mpr hs'

/-- What is held when the search is over. -/
def Searched (B : Finset ℕ) (found : Option Search) (s : Alive) : Prop :=
  match found with
  | none => s.bufs = B ∧ Tracked s
  | some record => Holds B record.parentDir s

theorem wp_mkdirSearch_holds (hs : Tracked s) :
    wp anyStop e (mkdirSearch path) (Searched s.bufs) s := by
  have hclose : ∀ (record : Search) s', Holds s.bufs record.parentDir s' → wp anyStop e (do
      dirClose record.parentDir
      return none) (Searched s.bufs) s' := by
    intro record s' h
    apply wp_call (wp_dirClose_holds h)
    intro _ s'' hs''
    exact wp_pure.mpr hs''
  unfold mkdirSearch
  apply wp_call (wp_searchFile_holds hs)
  intro found s' h
  rcases found with ⟨_ | ino, record⟩
  · apply wp_call (balanced_onVol (keeps_pathDepthCnt path) e s')
    intro depth s₁ h₁
    apply wp_call (balanced_onVol (keeps_pathDepthCnt record.searchPath) e s₁)
    intro depth' s₂ h₂
    have h' := (h.balanced h₁).balanced h₂
    apply wp_ite
    · exact fun _ => hclose record s₂ h'
    · exact fun _ => wp_pure.mpr h'
  · rw [wp_assert_bind]
    exact ⟨fun _ => hclose record s' h, fun _ => trivial⟩

theorem balanced_enterDir (record : Search) (name : List UInt8) (ino : ℕ) :
    Keeps Balanced (enterDir record name ino) := by
  apply (balanced_onVol keeps_blockBitMapAlloc).bind
  intro blockLba
  cases blockLba with
  | none => exact keeps_pure none
  | some blockLba =>
    apply (balanced_onVol (keeps_blockLbaToBitMapIdx _)).bind
    intro idx
    apply keeps_assert.bind
    intro _
    apply (balanced_onVol (keeps_bitMapSync _ _)).bind
    intro _
    apply Keeps.get_bind
    intro s
    apply (balanced_onVol (keeps_ideWrite _ _ _)).bind
    intro _
    apply (balanced_onVol (keeps_createDirEntry _ _ _)).bind
    intro de
    apply (balanced_syncDirEntry _ _).bind
    intro ok
    exact Keeps.ite (keeps_pure none) (keeps_pure _)

theorem keeps_onVol_eq {α : Type} {m : VolM α} (hm : Keeps Eq m) : Keeps Eq (onVol m) := by
  have hfs : Keeps Eq (Gogoos.onVol m) := by
    apply hm.zoom
    rintro f v rfl
    rfl
  apply hfs.zoom
  rintro s f rfl
  rfl

theorem wpAt_enterDir_root (hok : EnterOk e t record.parentDir.dir ino s.fs.vol) :
    wpAt anyStop e t (enterDir record name ino)
      (fun r _ _ => r = none → record.parentDir.dir.isRoot = true) s := by
  have hplain : wpAt anyStop e t (Gogoos.enterDir record.record name ino)
      (fun r _ x => r = none → record.parentDir.dir.isRoot = true ∧ x = s.fs.vol) s.fs.vol :=
    wpAt_enterDir_failed hok
  have h := (vol_enterDir record name ino).erasesAs.wpAt hplain
  exact wpAt_mono h fun _ _ _ hr hn => (hr hn).1

/-- A directory that cannot be made leaves the parent open only if it is `rootDir`. -/
theorem wpAt_makeDir_holds (h : Holds B record.parentDir s)
    (hok : ∀ ino, bitMapScan s.fs.vol.inodeBitMap 1 = some ino →
      EnterOk e t record.parentDir.dir ino (s.fs.vol.setInodeBit ino true)) :
    wpAt anyStop e t (makeDir record) (fun r _ s' => r = -1 → s'.bufs = B ∧ Tracked s') s := by
  have hquiet : Quiet (onVol (lastName record.searchPath)) := (quiet_lastName _).zoom.zoom
  unfold makeDir
  apply hquiet.call (keeps_onVol_eq (keeps_lastName record.searchPath) e s)
  rintro dirName s rfl
  apply wpAt_bind
  apply wpAt_zoom
  apply wpAt_zoom
  apply wpAt_inodeBitMapAlloc
  · intro _
    have hclose : wp anyStop e (do
        dirClose record.parentDir
        return (-1 : ℤ)) (fun _ s' => s'.bufs = B ∧ Tracked s') s := wp_closeAndReturn_holds h (-1)
    exact wpAt_mono (wp_iff_wpAt.mp hclose t) fun _ _ _ hs' _ => hs'
  · intro ino hscan
    set s₁ := s.setFs (s.fs.setVol (s.fs.vol.setInodeBit ino true)) with hs₁
    have h₁ : Holds B record.parentDir s₁ := ⟨h.bufs, h.fresh, h.tracked.congr rfl rfl rfl⟩
    have henter : wpAt anyStop e t (enterDir record dirName ino)
        (fun r _ _ => r = none → record.parentDir.dir.isRoot = true) s₁ :=
      wpAt_enterDir_root (hok ino hscan)
    apply wpAt_call (wpAt_and henter (balanced_enterDir record dirName ino e s₁ t))
    rintro r t' s₂ ⟨hroot, hs₂⟩
    have h₂ := h₁.balanced hs₂
    cases r with
    | none =>
      have hbufs := h₂.bufs
      rw [if_pos (hroot rfl)] at hbufs
      exact fun _ => ⟨hbufs, h₂.tracked.congr rfl rfl rfl⟩
    | some blockLba =>
      have hmade : wp anyStop e (Gogoos.finishDir record.record ino (some blockLba))
          (fun r _ => r = 0) s₂.fs.vol := wp_finishDir_made
      have hzero := (vol_finishDir record ino (some blockLba)).wp hmade t'
      apply wpAt_mono hzero
      intro r _ _ hr hfail
      rw [hr] at hfail
      cases hfail

/-- What a call of `sysMkdir` that fails must leave. -/
structure NoTrace (s s' : Alive) : Prop where
  vol : SameVolume s.fs.vol s'.fs.vol
  bufs : s'.bufs = s.bufs
  inodeBufs : s'.inodeBufs = s.inodeBufs

theorem wpAt_searchAndMake (hs : Tracked s)
    (hok : ∀ record t₁ w ino,
      Gogoos.mkdirSearch path e t s.fs.vol = .returned (some record) t₁ w →
        bitMapScan w.inodeBitMap 1 = some ino →
          EnterOk e t₁ record.parentDir ino (w.setInodeBit ino true)) :
    wpAt anyStop e t (searchAndMake path)
      (fun r _ s' => r = -1 → s'.bufs = s.bufs ∧ Tracked s') s := by
  unfold searchAndMake
  apply wpAt_bind
  have hholds : wp anyStop e (mkdirSearch path) (Searched s.bufs) s := wp_mkdirSearch_holds hs
  have hsearch := hholds t
  have hplain := vol_mkdirSearch path e t s
  rw [bind_apply] at hplain
  unfold wpAt
  cases hrun : mkdirSearch path e t s with
  | stopped s' => trivial
  | returned found t₁ s₁ =>
    rw [hrun] at hsearch hplain
    cases found with
    | none => exact fun _ => hsearch
    | some record =>
      exact wpAt_makeDir_holds hsearch fun ino => hok record.record t₁ s₁.fs.vol ino hplain.symm

/-- The volume through `sysMkdir` without the heap, the heap by the lemmas above. -/
theorem wpAt_sysMkdir_noTrace (hv : Steady s.fs.vol)
    (hinodes : s.inodeBufs = s.fs.vol.openInodes.toFinset) (hok : MkdirOk e t path s.fs.vol) :
    wpAt anyStop e t (sysMkdir path) (fun r _ s' => r = -1 → NoTrace s s') s := by
  have hs : Tracked s := ⟨hinodes, hv.nodup, hv.fresh⟩
  have hvol : wpAt anyStop e t (sysMkdir path)
      (fun r _ s' => r = -1 → SameVolume s.fs.vol s'.fs.vol) s :=
    (vol_sysMkdir path).erasesAs.wpAt (wpAt_sysMkdir_failed hv hok)
  have hheap : wpAt anyStop e t (sysMkdir path)
      (fun r _ s' => r = -1 → s'.bufs = s.bufs ∧ Tracked s') s := by
    unfold sysMkdir
    apply wpAt_bind
    unfold wpAt
    rw [sysMalloc_run]
    cases hmem : e.sysMalloc t with
    | false => exact fun _ => ⟨rfl, hs⟩
    | true =>
      have htake : Tracked (s.take s.fresh) := hs.congr rfl rfl rfl
      apply wpAt_call (wpAt_searchAndMake htake (hok hmem))
      intro r t' s' hs' hfail
      obtain ⟨hbufs, htracked⟩ := hs' hfail
      constructor
      · change s'.bufs.erase s.fresh = s.bufs
        rw [hbufs]
        exact Finset.erase_insert s.fresh_notMem
      · exact htracked.congr rfl rfl rfl
  apply wpAt_mono (wpAt_and hvol hheap)
  rintro r t' s' ⟨hsame, hrest⟩ hfail
  obtain ⟨hbufs, htracked⟩ := hrest hfail
  refine ⟨hsame hfail, hbufs, ?_⟩
  rw [htracked.inodeBufs, (hsame hfail).openInodes, hinodes]

end Heap

end Alive

end Gogoos
