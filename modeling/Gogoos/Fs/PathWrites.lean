import Gogoos.Fs.Components
import Gogoos.Logic.Erase

/-!
# What the calls on paths write

The calls that take a path, with a record of the names that `pathParse` stores, of
`record->searchPath` after each name appended, and of the messages that hold the path. Without
the record they are the calls.
-/

namespace Gogoos

open Program

variable {σ α β : Type}

section Notes

/-- A string that is written to an array. -/
inductive Note where
  /-- The name array of `MAX_FILE_NAME_LEN` bytes. -/
  | name (s : List UInt8)
  | searchPath (s : List UInt8)
  /-- The array of `printk`. -/
  | message (s : List UInt8)

/-- The string and its terminating zero fit the array. -/
def Note.Fits : Note → Prop
  | .name s => s.length < 16
  | .searchPath s => s.length < 512
  | .message s => s.length < 512

structure Noted (σ : Type) where
  st : σ
  log : List Note

abbrev NotedM (σ α : Type) : Type := Program Heap (Noted σ) α

/-- A program that writes none of these strings. -/
def quietly (m : Program Heap σ α) : NotedM σ α := zoom Noted.st (fun x s => { s with st := x }) m

def note (n : Note) : NotedM σ Unit := modify fun s => { s with log := n :: s.log }

def onNotedVol (m : NotedM Volume α) : NotedM Fs α :=
  zoom (fun s => ⟨s.st.vol, s.log⟩) (fun x s => ⟨s.st.setVol x.st, x.log⟩) m

end Notes

section Messages

def ascii (s : String) : List UInt8 := s.toList.map fun c => c.toNat.toUInt8

def cantOpen (pathName : List UInt8) : List UInt8 :=
  ascii "can't open directory " ++ pathName ++ ascii " with open(), use openDir() instead\n"

def cannotAccess (pathName searchPath : List UInt8) : List UInt8 :=
  ascii "cannot access " ++ pathName ++ ascii ": Not a directory, subpath " ++ searchPath ++
    ascii " isn't exist\n"

def notInPath (pathName fileName : List UInt8) : List UInt8 :=
  ascii "in path:" ++ pathName ++ ascii ", file " ++ fileName ++ ascii " isn't exist"

def alreadyExist (pathName : List UInt8) : List UInt8 := pathName ++ ascii " already exist!\n"

def notFound (pathName : List UInt8) : List UInt8 :=
  ascii "file " ++ pathName ++ ascii " not found!\n"

def isInUse (pathName : List UInt8) : List UInt8 :=
  ascii "file " ++ pathName ++ ascii " is in use, not allowed to delete\n"

def mkdirExist (pathName : List UInt8) : List UInt8 :=
  ascii "sysMkdir: file or directory " ++ pathName ++ ascii " already exist!\n"

def cantMake (pathName searchPath : List UInt8) : List UInt8 :=
  ascii "sysMkdir: can't make " ++ pathName ++ ascii ", subpath " ++ searchPath ++
    ascii " isn't exist!\n"

def notExisting (pathName : List UInt8) : List UInt8 :=
  ascii "sysRmdir: directory " ++ pathName ++ ascii " isn't existing\n"

def notEmpty (pathName : List UInt8) : List UInt8 :=
  ascii "sysRmdir: can't remove directory, " ++ pathName ++ ascii " isn't empty\n"

end Messages

namespace Noted

section Search

def pathParse (pathName : List UInt8) : NotedM σ (List UInt8 × Option (List UInt8)) := do
  note (.name (Gogoos.pathParse pathName).1)
  return Gogoos.pathParse pathName

def pathNext (subPath : Option (List UInt8)) : NotedM σ (List UInt8 × Option (List UInt8)) :=
  match subPath with
  | none => return ([], none)
  | some p => pathParse p

def depthLoop : (fuel : ℕ) → (subPath : Option (List UInt8)) → NotedM Volume ℕ
  | 0, _ => return 1
  | fuel + 1, subPath => do
    let next ← pathNext subPath
    if next.1 = [] then return 1
    else
      let depth ← depthLoop fuel next.2
      return depth + 1

def pathDepthCnt (pathName : List UInt8) : NotedM Volume ℕ := do
  let first ← pathParse pathName
  if first.1 = [] then
    let word ← ask Heap.junk
    return if word = 0 then 0 else 1
  else
    depthLoop pathName.length first.2

def searchLoop : (fuel : ℕ) → (name : List UInt8) → (subPath : Option (List UInt8)) →
    (record : PathSearchRecord) → (parentIno deIno : ℕ) →
      NotedM Volume (Option ℕ × PathSearchRecord)
  | 0, _, _, _, _, _ => halt
  | fuel + 1, name, subPath, record, parentIno, deIno => do
    if name = [] then
      quietly (dirClose record.parentDir)
      let parentDir ← quietly (dirOpen parentIno)
      return (toIno deIno, { record with parentDir, fileType := FileType.directory })
    else
      assert (record.searchPath.length < 512)
      let record := { record with searchPath := record.searchPath ++ slash :: name }
      note (.searchPath record.searchPath)
      match ← quietly (searchDirEntry record.parentDir name) with
      | none => return (none, record)
      | some de =>
        let next ← pathNext subPath
        if de.fileType = FileType.directory then
          let s ← get
          let parentIno := (s.st.inodes record.parentDir.inode).ino
          quietly (dirClose record.parentDir)
          let parentDir ← quietly (dirOpen de.ino)
          searchLoop fuel next.1 next.2 { record with parentDir } parentIno de.ino
        else if de.fileType = FileType.regular then
          return (toIno de.ino, { record with fileType := FileType.regular })
        else
          searchLoop fuel next.1 next.2 record parentIno de.ino

def searchFile (pathName : List UInt8) : NotedM Volume (Option ℕ × PathSearchRecord) := do
  let s ← get
  if isRootPath pathName then
    return (some 0, ⟨[], s.st.rootDir, FileType.directory⟩)
  else
    assert (pathName.head? = some slash ∧ pathName.length < 512)
    let word ← ask Heap.junk
    let first ← pathParse pathName
    searchLoop (pathName.length + 1) first.1 first.2 ⟨[], s.st.rootDir, FileType.unknown⟩ 0 word

end Search

section Calls

def sysOpen (pathName : List UInt8) (flags : ℕ) : NotedM Fs ℤ := do
  if pathName.getLast? = some slash then
    note (.message (cantOpen pathName))
    return -1
  assert (flags ≤ 7)
  let pathNameDepth ← onNotedVol (pathDepthCnt pathName)
  let (ino, record) ← onNotedVol (searchFile pathName)
  if record.fileType = FileType.directory then
    note (.message (cantOpen pathName))
    quietly (onVol (dirClose record.parentDir))
    return -1
  let pathSearchedDepth ← onNotedVol (pathDepthCnt record.searchPath)
  if pathNameDepth ≠ pathSearchedDepth then
    note (.message (cannotAccess pathName record.searchPath))
    quietly (onVol (dirClose record.parentDir))
    return -1
  let fileName ← quietly (onVol (lastName record.searchPath))
  let create := flags &&& OFlags.creat ≠ 0
  match ino with
  | none =>
    if ¬create then
      note (.message (notInPath pathName fileName))
      quietly (onVol (dirClose record.parentDir))
      return -1
    let fd ← quietly (fileCreate record.parentDir fileName flags)
    quietly (onVol (dirClose record.parentDir))
    return fd
  | some ino =>
    if create then
      note (.message (alreadyExist pathName))
      quietly (onVol (dirClose record.parentDir))
      return -1
    let fd ← quietly (fileOpen ino flags)
    quietly (onVol (dirClose record.parentDir))
    return fd

def sysUnlink (pathName : List UInt8) : NotedM Fs ℤ := do
  assert (pathName.length < 512)
  let (ino, record) ← onNotedVol (searchFile pathName)
  match ino with
  | none =>
    note (.message (notFound pathName))
    quietly (onVol (dirClose record.parentDir))
    return -1
  | some ino =>
    assert (ino ≠ 0)
    if record.fileType = FileType.directory then
      quietly (onVol (dirClose record.parentDir))
      return -1
    let s ← get
    if inUse s.st.fileTable s.st.vol.inodes ino then
      note (.message (isInUse pathName))
      quietly (onVol (dirClose record.parentDir))
      return -1
    if !(← quietly (onVol sysMalloc)) then
      quietly (onVol (dirClose record.parentDir))
      return -1
    let _ ← quietly (onVol (deleteDirEntry record.parentDir ino))
    quietly (onVol (inodeRelease ino))
    quietly (onVol (dirClose record.parentDir))
    return 0

def sysMkdir (pathName : List UInt8) : NotedM Volume ℤ := do
  if !(← quietly sysMalloc) then return -1
  let (ino, record) ← searchFile pathName
  match ino with
  | some ino =>
    assert (ino ≠ 0)
    note (.message (mkdirExist pathName))
    quietly (dirClose record.parentDir)
    return -1
  | none =>
    let pathNameDepth ← pathDepthCnt pathName
    let pathSearchedDepth ← pathDepthCnt record.searchPath
    if pathNameDepth ≠ pathSearchedDepth then
      note (.message (cantMake pathName record.searchPath))
      quietly (dirClose record.parentDir)
      return -1
    quietly (makeDir record)

def sysRmdir (pathName : List UInt8) : NotedM Volume ℤ := do
  let (ino, record) ← searchFile pathName
  match ino with
  | none =>
    note (.message (notExisting pathName))
    quietly (dirClose record.parentDir)
    return -1
  | some ino =>
    if ino = 0 then
      quietly (dirClose record.parentDir)
      return -1
    else
      let dir ← quietly (dirOpen ino)
      let ret ← do
        if !(← quietly (dirIsEmpty dir)) then do
          note (.message (notEmpty pathName))
          pure (-1)
        else if ← quietly (dirRemove record.parentDir dir) then pure 0
        else pure (-1)
      quietly (dirClose dir)
      quietly (dirClose record.parentDir)
      return ret

def sysOpenDir (pathName : List UInt8) : NotedM Volume (Option Dir) := do
  assert (pathName.length ≤ 512)
  if pathName = [slash] ∨ slash :: dotName <+: pathName then
    let s ← get
    return some s.st.rootDir
  else
    let (ino, record) ← searchFile pathName
    match ino with
    | none => return none
    | some ino =>
      if record.fileType = FileType.directory then
        let dir ← quietly (dirOpen ino)
        return some dir
      else return none

/-- The message about a file has a place for the path and no argument for it. -/
def sysChDir (pathName : List UInt8) : NotedM Volume (Option ℕ) := do
  let (ino, record) ← searchFile pathName
  quietly (dirClose record.parentDir)
  if record.fileType = FileType.directory then return ino
  else return none

def sysStat (path : List UInt8) : NotedM Volume (Option Stat) := do
  if isRootPath path then
    let s ← get
    return some ⟨FileType.directory, 0, (s.st.inodes s.st.rootInode).size⟩
  else
    let (ino, record) ← searchFile path
    match ino with
    | none =>
      quietly (dirClose record.parentDir)
      return none
    | some ino =>
      let p ← quietly (inodeOpen ino)
      let s ← get
      quietly (inodeClose p)
      quietly (dirClose record.parentDir)
      return some ⟨record.fileType, ino, (s.st.inodes p).size⟩

end Calls

section Erasure

abbrev ErasesTo (m' : NotedM σ α) (m : Program Heap σ α) : Prop := Erases Noted.st m' m

theorem erases_quietly (m : Program Heap σ α) : ErasesTo (quietly m) m :=
  erases_zoom (fun _ _ => rfl) m

theorem erases_note {n : Note} {f : Unit → NotedM σ α} {m : Program Heap σ α}
    (h : ErasesTo (f ()) m) : ErasesTo (note n >>= f) m := Erases.ghost_modify (fun _ => rfl) h

theorem erases_onNotedVol {m' : NotedM Volume α} {m : VolM α} (h : ErasesTo m' m) :
    ErasesTo (onNotedVol m') (onVol m) := by
  intro e t s
  have hrun := h e t ⟨s.st.vol, s.log⟩
  unfold onNotedVol onVol
  simp only [zoom]
  rw [← hrun]
  cases m' e t ⟨s.st.vol, s.log⟩ <;> rfl

theorem erases_pathParse {p : List UInt8}
    {f' : List UInt8 × Option (List UInt8) → NotedM σ α} {m : Program Heap σ α}
    (h : ErasesTo (f' (Gogoos.pathParse p)) m) : ErasesTo (pathParse p >>= f') m := by
  unfold pathParse
  rw [bind_bind]
  exact erases_note h

theorem erases_pathNext {sub : Option (List UInt8)}
    {f' : List UInt8 × Option (List UInt8) → NotedM σ α} {m : Program Heap σ α}
    (h : ErasesTo (f' (Gogoos.pathNext sub)) m) : ErasesTo (pathNext sub >>= f') m := by
  cases sub with
  | none => exact h
  | some p => exact erases_pathParse h

theorem erases_depthLoop : ∀ fuel sub,
    ErasesTo (depthLoop fuel sub) (pure (Gogoos.depthLoop fuel sub)) := by
  intro fuel
  induction fuel with
  | zero => exact fun _ => erases_pure _
  | succ fuel ih =>
    intro sub
    unfold depthLoop Gogoos.depthLoop
    apply erases_pathNext
    dsimp only
    split_ifs
    · exact erases_pure _
    · exact (ih _).bind fun _ => erases_pure _

theorem erases_pathDepthCnt (p : List UInt8) :
    ErasesTo (pathDepthCnt p) (Gogoos.pathDepthCnt p) := by
  unfold pathDepthCnt Gogoos.pathDepthCnt
  apply erases_pathParse
  apply Erases.ite
  · exact erases_ask.bind fun _ => erases_pure _
  · exact erases_depthLoop _ _

theorem erases_searchLoop : ∀ fuel name sub record parentIno deIno,
    ErasesTo (searchLoop fuel name sub record parentIno deIno)
      (Gogoos.searchLoop fuel name sub record parentIno deIno) := by
  intro fuel
  induction fuel with
  | zero => exact fun _ _ _ _ _ _ _ _ => rfl
  | succ fuel ih =>
    intro name sub record parentIno deIno
    apply Erases.ite
    · exact (erases_quietly _).bind fun _ => (erases_quietly _).bind fun _ => erases_pure _
    · apply erases_assert.bind
      intro _
      apply erases_note
      apply (erases_quietly _).bind
      intro found
      cases found with
      | none => exact erases_pure _
      | some de =>
        apply erases_pathNext
        apply Erases.ite
        · exact .get_bind fun _ => (erases_quietly _).bind fun _ => (erases_quietly _).bind
            fun _ => ih _ _ _ _ _
        · exact .ite (erases_pure _) (ih _ _ _ _ _)

theorem erases_searchFile (p : List UInt8) : ErasesTo (searchFile p) (Gogoos.searchFile p) := by
  apply Erases.get_bind
  intro s
  apply Erases.ite
  · exact erases_pure _
  · apply erases_assert.bind
    intro _
    apply erases_ask.bind
    intro word
    apply erases_pathParse
    exact erases_searchLoop _ _ _ _ _ _

theorem erases_closeAndReturn (dir : Dir) (r : α) :
    ErasesTo (do
      quietly (dirClose dir)
      return r) (do
      dirClose dir
      return r) := (erases_quietly _).bind fun _ => erases_pure _

theorem erases_onVol_close (dir : Dir) (r : α) :
    ErasesTo (do
      quietly (onVol (dirClose dir))
      return r) (do
      onVol (dirClose dir)
      return r) := (erases_quietly _).bind fun _ => erases_pure _

/-- Without the record the calls are those of the kernel. -/
theorem erases_sysOpen (p : List UInt8) (flags : ℕ) :
    ErasesTo (sysOpen p flags) (Gogoos.sysOpen p flags) := by
  apply Erases.ite
  · exact erases_note (erases_pure _)
  apply erases_assert.bind
  intro _
  apply (erases_onNotedVol (erases_pathDepthCnt p)).bind
  intro depth
  apply (erases_onNotedVol (erases_searchFile p)).bind
  rintro ⟨ino, record⟩
  apply Erases.ite
  · exact erases_note (erases_onVol_close _ _)
  apply (erases_onNotedVol (erases_pathDepthCnt _)).bind
  intro searched
  apply Erases.ite
  · exact erases_note (erases_onVol_close _ _)
  apply (erases_quietly _).bind
  intro fileName
  cases ino with
  | none =>
    apply Erases.ite
    · exact erases_note (erases_onVol_close _ _)
    · exact (erases_quietly _).bind fun _ => erases_onVol_close _ _
  | some ino =>
    apply Erases.ite
    · exact erases_note (erases_onVol_close _ _)
    · exact (erases_quietly _).bind fun _ => erases_onVol_close _ _

theorem erases_sysUnlink (p : List UInt8) : ErasesTo (sysUnlink p) (Gogoos.sysUnlink p) := by
  apply erases_assert.bind
  intro _
  apply (erases_onNotedVol (erases_searchFile p)).bind
  rintro ⟨ino, record⟩
  cases ino with
  | none => exact erases_note (erases_onVol_close _ _)
  | some ino =>
    apply erases_assert.bind
    intro _
    apply Erases.ite
    · exact erases_onVol_close _ _
    apply Erases.get_bind
    intro s
    apply Erases.ite
    · exact erases_note (erases_onVol_close _ _)
    apply (erases_quietly _).bind
    intro ok
    apply Erases.ite
    · exact erases_onVol_close _ _
    · exact (erases_quietly _).bind fun _ => (erases_quietly _).bind fun _ =>
        erases_onVol_close _ _

theorem erases_sysMkdir (p : List UInt8) : ErasesTo (sysMkdir p) (Gogoos.sysMkdir p) := by
  apply (erases_quietly _).bind
  intro ok
  apply Erases.ite
  · exact erases_pure _
  apply (erases_searchFile p).bind
  rintro ⟨ino, record⟩
  cases ino with
  | some ino => exact erases_assert.bind fun _ => erases_note (erases_closeAndReturn _ _)
  | none =>
    apply (erases_pathDepthCnt p).bind
    intro depth
    apply (erases_pathDepthCnt _).bind
    intro searched
    apply Erases.ite
    · exact erases_note (erases_closeAndReturn _ _)
    · exact erases_quietly _

theorem erases_sysRmdir (p : List UInt8) : ErasesTo (sysRmdir p) (Gogoos.sysRmdir p) := by
  apply (erases_searchFile p).bind
  rintro ⟨ino, record⟩
  cases ino with
  | none => exact erases_note (erases_closeAndReturn _ _)
  | some ino =>
    apply Erases.ite
    · exact erases_closeAndReturn _ _
    apply (erases_quietly _).bind
    intro dir
    have hclose : ∀ ret : ℤ, ErasesTo (do
        quietly (dirClose dir)
        quietly (dirClose record.parentDir)
        return ret) (do
        dirClose dir
        dirClose record.parentDir
        return ret) := fun ret => (erases_quietly _).bind fun _ => erases_closeAndReturn _ _
    apply (erases_quietly _).bind
    intro empty
    apply Erases.ite
    · exact erases_note (hclose _)
    · exact (erases_quietly _).bind fun _ => .ite (hclose _) (hclose _)

theorem erases_sysOpenDir (p : List UInt8) : ErasesTo (sysOpenDir p) (Gogoos.sysOpenDir p) := by
  apply erases_assert.bind
  intro _
  apply Erases.ite
  · exact .get_bind fun _ => erases_pure _
  apply (erases_searchFile p).bind
  rintro ⟨ino, record⟩
  cases ino with
  | none => exact erases_pure _
  | some ino => exact .ite ((erases_quietly _).bind fun _ => erases_pure _) (erases_pure _)

theorem erases_sysChDir (p : List UInt8) : ErasesTo (sysChDir p) (Gogoos.sysChDir p) := by
  apply (erases_searchFile p).bind
  rintro ⟨ino, record⟩
  exact (erases_quietly _).bind fun _ => .ite (erases_pure _) (erases_pure _)

theorem erases_sysStat (p : List UInt8) : ErasesTo (sysStat p) (Gogoos.sysStat p) := by
  apply Erases.ite
  · exact .get_bind fun _ => erases_pure _
  apply (erases_searchFile p).bind
  rintro ⟨ino, record⟩
  cases ino with
  | none => exact erases_closeAndReturn _ _
  | some ino =>
    exact (erases_quietly _).bind fun _ => .get_bind fun _ => (erases_quietly _).bind fun _ =>
      erases_closeAndReturn _ _

end Erasure

end Noted

end Gogoos
