import Gogoos.Fs.FailedOpen

/-!
# Making a directory that fails

`sysMkdir` up to the point where it makes the directory, and what is left behind when that fails.
-/

namespace Gogoos

open Program

variable {e : Heap} {u v w : Volume} {dir : Dir} {record : PathSearchRecord}
  {path name : List UInt8} {ino t : ℕ}

section Search

/-- `sysMkdir` up to `makeDir`, `none` when it has given up. -/
def mkdirSearch (pathName : List UInt8) : VolM (Option PathSearchRecord) := do
  let (ino, record) ← searchFile pathName
  match ino with
  | some ino =>
    assert (ino ≠ 0)
    dirClose record.parentDir
    return none
  | none =>
    let pathNameDepth ← pathDepthCnt pathName
    let pathSearchedDepth ← pathDepthCnt record.searchPath
    if pathNameDepth ≠ pathSearchedDepth then
      dirClose record.parentDir
      return none
    return some record

theorem sysMkdir_eq (path : List UInt8) : sysMkdir path = (do
    if !(← sysMalloc) then return -1
    match ← mkdirSearch path with
    | none => return -1
    | some record => makeDir record) := by
  unfold sysMkdir mkdirSearch
  congr 1
  funext ok
  congr 1
  rw [bind_bind]
  congr 1
  funext found
  rcases found with ⟨_ | ino, record⟩
  · simp only [bind_bind, ite_bind_eq, pure_bind_eq]
  · simp only [bind_bind, pure_bind_eq]

/-- The search has closed everything when it gives up. -/
def MkdirSearched (v : Volume) : Option PathSearchRecord → Volume → Prop
  | none, w => SameVolume v w
  | some record, w => Holding v w record.parentDir

theorem wp_mkdirSearch (hv : Steady v) :
    wp anyStop e (mkdirSearch path) (MkdirSearched v) v := by
  unfold mkdirSearch
  apply wp_call (wp_searchFile_holding hv)
  intro found w hw
  rcases found with ⟨_ | ino, record⟩
  · apply wp_call (keeps_pathDepthCnt (R := Eq) path e w)
    rintro depth _ rfl
    apply wp_call (keeps_pathDepthCnt (R := Eq) _ e w)
    rintro depth' _ rfl
    apply wp_ite
    · intro _
      apply wp_bind
      apply wp_dirClose_eq
      exact wp_pure.mpr hw.same
    · exact fun _ => wp_pure.mpr hw
  · rw [wp_assert_bind]
    constructor
    · intro _
      apply wp_bind
      apply wp_dirClose_eq
      exact wp_pure.mpr hw.same
    · exact fun _ => trivial

end Search

section Making

/-- The volume after `makeDir` has taken block `n` for the directory `ino` and written it. -/
def Volume.newDir (v : Volume) (dir : Dir) (ino n : ℕ) : Volume :=
  let blockLba := v.superBlock.dataLbaStart + n
  ((v.setBlockBit n true).sync (v.superBlock.lbaToBitMapIdx blockLba) .blockBitmap).write blockLba
    (newDirSector ino (v.inodes dir.inode).ino) 1

/-- Without a free block the parent has to be `rootDir`. With one, its entry gets a place. -/
def EnterOk (e : Heap) (t : ℕ) (dir : Dir) (ino : ℕ) (v : Volume) : Prop :=
  match bitMapScan v.blockBitMap 1 with
  | none => dir.isRoot = true
  | some n => roomAt e t (v.newDir dir ino n) dir = .free

/-- The condition on a call of `sysMkdir` whose first question is `t`. -/
def MkdirOk (e : Heap) (t : ℕ) (path : List UInt8) (v : Volume) : Prop :=
  e.sysMalloc t = true → ∀ record t₁ w ino,
    mkdirSearch path e (t + 1) v = .returned (some record) t₁ w →
      bitMapScan w.inodeBitMap 1 = some ino →
        EnterOk e t₁ record.parentDir ino (w.setInodeBit ino true)

theorem wpAt_enterDir_failed (hok : EnterOk e t record.parentDir ino v) :
    wpAt anyStop e t (enterDir record name ino)
      (fun r _ x => r = none → record.parentDir.isRoot = true ∧ x = v) v := by
  unfold EnterOk at hok
  unfold enterDir
  apply wpAt_bind
  apply wpAt_blockBitMapAlloc
  · intro hscan
    rw [hscan] at hok
    exact fun _ => ⟨hok, rfl⟩
  · intro n hscan
    rw [hscan] at hok
    -- nothing is asked before the insertion
    have hquiet : Quiet (do
        let blockBitMapIdx ← blockLbaToBitMapIdx (v.superBlock.dataLbaStart + n)
        assert (blockBitMapIdx ≠ 0)
        bitMapSync blockBitMapIdx .blockBitmap
        let w ← get
        let parentIno := (w.inodes record.parentDir.inode).ino
        ideWrite (v.superBlock.dataLbaStart + n) (newDirSector ino parentIno) 1
        createDirEntry name ino FileType.directory) := by
      apply (quiet_blockLbaToBitMapIdx _).bind
      intro i
      apply quiet_assert.bind
      intro _
      apply (quiet_bitMapSync _ _).bind
      intro _
      apply quiet_get.bind
      intro w
      exact (quiet_ideWrite _ _ _).bind fun _ => quiet_createDirEntry _ _ _
    have hstate : wp anyStop e (do
        let blockBitMapIdx ← blockLbaToBitMapIdx (v.superBlock.dataLbaStart + n)
        assert (blockBitMapIdx ≠ 0)
        bitMapSync blockBitMapIdx .blockBitmap
        let w ← get
        let parentIno := (w.inodes record.parentDir.inode).ino
        ideWrite (v.superBlock.dataLbaStart + n) (newDirSector ino parentIno) 1
        createDirEntry name ino FileType.directory)
        (fun _ x => x = v.newDir record.parentDir ino n) (v.setBlockBit n true) := by
      unfold createDirEntry
      simp only [wp_blockLbaToBitMapIdx_bind, wp_assert_bind, wp_bitMapSync_bind, wp_get_bind,
        wp_ideWrite_bind, wp_pure]
      exact ⟨fun _ => ⟨fun _ => ⟨fun _ => ⟨fun _ => rfl, fun _ => trivial⟩, fun _ => trivial⟩,
        fun _ => trivial⟩, fun _ => trivial⟩
    have hrest := hquiet.call (t := t) hstate (f := fun newDirEntry => do
        if !(← syncDirEntry record.parentDir newDirEntry) then return none
        return some (v.superBlock.dataLbaStart + n))
      (Q := fun r _ x => r = none → record.parentDir.isRoot = true ∧ x = v)
    simp only [bind_bind] at hrest
    apply hrest
    rintro de _ rfl
    apply wpAt_call wpAt_syncDirEntry_room
    intro ok t' x hx
    rw [hok] at hx
    obtain rfl : ok = true := hx
    intro h
    cases h

/-- Nothing fails after the insertion. -/
theorem wp_finishDir_made {blockLba : ℕ} :
    wp anyStop e (finishDir record ino (some blockLba)) (fun r _ => r = 0) v := by
  unfold finishDir
  rw [wp_get_bind]
  apply wp_through
  intro _ w
  apply wp_through
  intro _ w
  apply wp_through
  intro _ w
  apply wp_through
  intro _ w
  exact wp_pure.mpr rfl

/-- The parent is closed, or it is `rootDir` and stays as it is. -/
theorem wpAt_makeDir_failed (h : Holding u v record.parentDir)
    (hok : ∀ ino, bitMapScan v.inodeBitMap 1 = some ino →
      EnterOk e t record.parentDir ino (v.setInodeBit ino true)) :
    wpAt anyStop e t (makeDir record) (fun r _ x => r = -1 → SameVolume u x) v := by
  rw [makeDir_eq]
  apply (quiet_lastName _).call (keeps_lastName (R := Eq) record.searchPath e v)
  rintro dirName v rfl
  apply wpAt_bind
  apply wpAt_inodeBitMapAlloc
  · intro _
    have hclose : wp anyStop e (do
        dirClose record.parentDir
        return (-1 : ℤ)) (fun r x => r = -1 → SameVolume u x) v := by
      apply wp_bind
      apply wp_dirClose_eq
      exact wp_pure.mpr fun _ => h.same
    exact wp_iff_wpAt.mp hclose t
  · intro ino hscan
    apply wpAt_call (wpAt_enterDir_failed (hok ino hscan))
    intro r t' x hx
    cases r with
    | none =>
      obtain ⟨hroot, rfl⟩ := hx rfl
      intro _
      have hsame := h.same
      unfold Volume.closeDir at hsame
      rw [if_pos hroot] at hsame
      have hbits : bitMapSet (bitMapSet v.inodeBitMap ino true) ino false = v.inodeBitMap :=
        scan_undo hscan
      have hback : SameVolume v ((v.setInodeBit ino true).setInodeBit ino false) :=
        .of_fields rfl rfl rfl rfl rfl hbits rfl rfl (fun _ _ => rfl) le_rfl
      exact hsame.trans hback
    | some blockLba =>
      apply wpAt_mono (wp_finishDir_made t')
      intro r _ x hr hfail
      rw [hr] at hfail
      cases hfail

/-- A directory that cannot be made leaves no trace on the volume. -/
theorem wpAt_sysMkdir_failed (hv : Steady v) (hok : MkdirOk e t path v) :
    wpAt anyStop e t (sysMkdir path) (fun r _ x => r = -1 → SameVolume v x) v := by
  rw [sysMkdir_eq]
  unfold sysMalloc
  rw [wpAt_ask_bind]
  cases hmem : e.sysMalloc t with
  | false => exact fun _ => .refl v
  | true =>
    have hclosed : wp anyStop e (mkdirSearch path) (MkdirSearched v) v := wp_mkdirSearch hv
    have hsearch := hclosed (t + 1)
    simp only [Bool.not_true, Bool.false_eq_true, if_false]
    apply wpAt_bind
    unfold wpAt
    cases hrun : mkdirSearch path e (t + 1) v with
    | stopped w => trivial
    | returned found t₁ w =>
      rw [hrun] at hsearch
      cases found with
      | none => exact fun _ => hsearch
      | some record => exact wpAt_makeDir_failed hsearch fun ino => hok hmem record t₁ w ino hrun

end Making

end Gogoos
