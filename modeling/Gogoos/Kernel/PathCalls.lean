import Gogoos.Fs.Components
import Gogoos.Fs.Firm
import Gogoos.Fs.InodeTable
import Gogoos.Kernel.Descriptors
import Gogoos.Logic.Blind

/-!
# The calls that look up a directory

`sysOpenDir`, `sysChDir` and `sysStat` on one path, from one state. They share `searchFile`,
whose inode number is an uninitialised word for a path without a component, and `sysOpenDir`
alone takes every path that begins with `"/."` for the root.
-/

namespace Gogoos

open Program

variable {v w : Volume} {e e' e₁ e₂ e₃ : Heap} {p : List UInt8} {t d : ℕ}

section Machines

/-- Two machines that give memory alike, with the same bytes behind the buffers. Their stacks
hold what they will. -/
structure Alike (e e' : Heap) : Prop where
  sysMalloc : e'.sysMalloc = e.sysMalloc
  behind : e'.behind = e.behind

theorem blind_sysMalloc : Blind Alike sysMalloc := blind_ask fun _ _ h => h.sysMalloc

theorem blind_sysMallocUnchecked : Blind Alike sysMallocUnchecked :=
  blind_sysMalloc.bind fun _ => blind_assert

theorem blind_ideRead (lba secCnt : ℕ) : Blind Alike (ideRead lba secCnt) :=
  blind_assert.bind fun _ => blind_assert.bind fun _ => .get_bind fun _ => blind_pure _

theorem blind_modifyInode (q : ℕ) (g : Inode → Inode) : Blind Alike (modifyInode q g) :=
  blind_modify _

theorem blind_loadAllBlocks (i : Inode) : Blind Alike (loadAllBlocks i) :=
  .ite ((blind_ideRead _ _).bind fun _ => blind_pure _) (blind_pure _)

theorem blind_searchBlocks (allBlocks : ℕ → ℕ) (name : List UInt8) : ∀ cnt blockIdx,
    Blind Alike (searchBlocks allBlocks name cnt blockIdx) := by
  intro cnt
  induction cnt with
  | zero => exact fun _ => blind_pure _
  | succ cnt ih =>
    intro blockIdx
    unfold searchBlocks
    apply Blind.ite
    · exact ih _
    · apply (blind_ideRead _ _).bind
      intro sector
      apply (blind_ask fun _ _ h => h.behind).bind
      intro behind
      apply Blind.get_bind
      intro v
      dsimp only
      split
      · exact blind_pure _
      · exact ih _

theorem blind_searchDirEntry (dir : Dir) (name : List UInt8) :
    Blind Alike (searchDirEntry dir name) := by
  apply blind_sysMalloc.bind
  intro ok
  apply Blind.ite
  · exact blind_pure _
  · apply Blind.get_bind
    intro v
    apply (blind_loadAllBlocks _).bind
    intro allBlocks
    exact blind_sysMallocUnchecked.bind fun _ => blind_searchBlocks _ _ _ _

theorem blind_inodeOpen (ino : ℕ) : Blind Alike (inodeOpen ino) := by
  apply Blind.get_bind
  intro v
  split
  · exact (blind_modifyInode _ _).bind fun _ => blind_pure _
  · have hlocate : Blind Alike (inodeLocate ino) :=
      blind_assert.bind fun _ => .get_bind fun _ => blind_pure _
    apply hlocate.bind
    intro ip
    apply blind_sysMallocUnchecked.bind
    intro _
    apply blind_sysMallocUnchecked.bind
    intro _
    apply (blind_ideRead _ _).bind
    intro buf
    have hnew : ∀ i, Blind Alike (newInode i) :=
      fun i => .get_bind fun _ => (blind_modify _).bind fun _ => blind_pure _
    exact (hnew _).bind fun q => (blind_modify _).bind fun _ => blind_pure _

theorem blind_dirOpen (ino : ℕ) : Blind Alike (dirOpen ino) :=
  blind_sysMallocUnchecked.bind fun _ => (blind_inodeOpen ino).bind fun _ => blind_pure _

theorem blind_dirClose (dir : Dir) : Blind Alike (dirClose dir) := by
  apply Blind.ite
  · exact blind_pure _
  · exact (blind_modifyInode _ _).bind fun _ => .get_bind fun _ =>
      .ite (blind_modify _) (blind_pure _)

theorem blind_searchLoop : ∀ fuel name subPath record parentIno deIno,
    Blind Alike (searchLoop fuel name subPath record parentIno deIno) := by
  intro fuel
  induction fuel with
  | zero => exact fun _ _ _ _ _ => blind_halt
  | succ fuel ih =>
    intro name subPath record parentIno deIno
    unfold searchLoop
    apply Blind.ite
    · exact (blind_dirClose _).bind fun _ => (blind_dirOpen _).bind fun _ => blind_pure _
    · apply blind_assert.bind
      intro _
      apply (blind_searchDirEntry _ _).bind
      intro found
      cases found with
      | none => exact blind_pure _
      | some de =>
        dsimp only
        apply Blind.ite
        · exact .get_bind fun _ => (blind_dirClose _).bind fun _ => (blind_dirOpen _).bind
            fun _ => ih _ _ _ _ _
        · exact .ite (blind_pure _) (ih _ _ _ _ _)

end Machines

section Search

theorem pathParse_ne_nil (h : components p ≠ []) : (pathParse p).1 ≠ [] := by
  obtain ⟨c, cs, hc⟩ := List.exists_cons_of_ne_nil h
  obtain ⟨r, hr, -⟩ := pathParse_of_cons hc
  have hmem : c ∈ components p := by simp [hc]
  rw [hr]
  exact (mem_components hmem).1

/-- A path that begins with `"/."` has a component. -/
theorem components_of_dot (h : slash :: dotName <+: p) : components p ≠ [] := by
  obtain ⟨q, rfl⟩ := h
  have hfirst : (pathParse (slash :: dotName ++ q)).1 ≠ [] := by
    rw [pathParse_eq]
    simp [slash, dotName]
  intro hnil
  rw [pathParse_of_nil hnil] at hfirst
  exact hfirst rfl

/-- `de.ino` is stored before it is used when there is a name to look up. -/
theorem searchLoop_first {name : List UInt8} (hne : name ≠ []) (fuel : ℕ)
    (subPath : Option (List UInt8)) (record : PathSearchRecord) (parentIno deIno : ℕ) :
    searchLoop (fuel + 1) name subPath record parentIno deIno =
      searchLoop (fuel + 1) name subPath record parentIno 0 := by
  unfold searchLoop
  rw [if_neg hne, if_neg hne]

theorem searchFile_run (hroot : isRootPath p = false) (habs : p.head? = some slash)
    (hlen : p.length < 512) (e : Heap) (t : ℕ) (v : Volume) :
    searchFile p e t v = searchLoop (p.length + 1) (pathParse p).1 (pathParse p).2
      ⟨[], v.rootDir, FileType.unknown⟩ 0 (e.junk t) e (t + 1) v := by
  have hnot : ¬isRootPath p = true := by rw [hroot]; exact Bool.false_ne_true
  unfold searchFile
  rw [bind_returned (m := get) rfl, if_neg hnot, assert, if_pos ⟨habs, hlen⟩]
  rfl

/-- Alike machines search a path with a component alike. -/
theorem searchFile_alike (hroot : isRootPath p = false) (habs : p.head? = some slash)
    (hlen : p.length < 512) (hne : components p ≠ []) (h : Alike e e') (t : ℕ) (v : Volume) :
    searchFile p e' t v = searchFile p e t v := by
  rw [searchFile_run hroot habs hlen, searchFile_run hroot habs hlen,
    searchLoop_first (pathParse_ne_nil hne) _ _ _ _ (e.junk t),
    searchLoop_first (pathParse_ne_nil hne) _ _ _ _ (e'.junk t)]
  exact blind_searchLoop _ _ _ _ _ _ e e' h (t + 1) v

end Search

section Found

/-- What the calls do with the result of the search. -/
def openFound (r : Option ℕ × PathSearchRecord) : VolM (Option Dir) :=
  match r.1 with
  | none => return none
  | some ino =>
    if r.2.fileType = FileType.directory then do
      let dir ← dirOpen ino
      return some dir
    else return none

def enterFound (r : Option ℕ × PathSearchRecord) : VolM (Option ℕ) := do
  dirClose r.2.parentDir
  if r.2.fileType = FileType.directory then return r.1
  else return none

def statFound (r : Option ℕ × PathSearchRecord) : VolM (Option Stat) :=
  match r.1 with
  | none => do
    dirClose r.2.parentDir
    return none
  | some ino => do
    let q ← inodeOpen ino
    let v ← get
    inodeClose q
    dirClose r.2.parentDir
    return some ⟨r.2.fileType, ino, (v.inodes q).size⟩

theorem sysOpenDir_eq (hlen : p.length ≤ 512) (hone : p ≠ [slash])
    (hdot : ¬slash :: dotName <+: p) : sysOpenDir p = searchFile p >>= openFound := by
  have hnot : ¬(p = [slash] ∨ slash :: dotName <+: p) := not_or.mpr ⟨hone, hdot⟩
  unfold sysOpenDir
  rw [assert, if_pos hlen, if_neg hnot]
  rfl

theorem sysChDir_eq : sysChDir p = searchFile p >>= enterFound := rfl

theorem sysStat_eq (hroot : isRootPath p = false) : sysStat p = searchFile p >>= statFound := by
  have hnot : ¬isRootPath p = true := by rw [hroot]; exact Bool.false_ne_true
  unfold sysStat
  rw [if_neg hnot]
  rfl

end Found

section Handles

variable {dir : Dir} {r : Option ℕ × PathSearchRecord}

/-- The volumes have the same disk and layout. -/
structure SameDisk (v w : Volume) : Prop where
  disk : w.disk = v.disk
  superBlock : w.superBlock = v.superBlock
  layout : Layout v → Layout w

theorem Holding.sameDisk (h : Holding v w dir) : SameDisk v w := by
  have hclose : w.closeDir dir =
      { w with inodes := (w.closeDir dir).inodes, openInodes := (w.closeDir dir).openInodes } := by
    unfold Volume.closeDir
    split_ifs
    · rfl
    · exact closeInode_rest w dir.inode
  have hrest := h.same.rest
  rw [hclose] at hrest
  obtain ⟨hdisk, hlba, hcnt, hsb, hblocks, hbits, -⟩ := Volume.mk.inj hrest
  exact ⟨hdisk, hsb, fun hl => hl.congr hsb hlba hcnt (by rw [hblocks]) (by rw [hbits])⟩

theorem SameDisk.record (h : SameDisk v w) (d : ℕ) : w.record d = v.record d := by
  unfold Volume.record Volume.tableByte
  rw [h.disk, h.superBlock]

/-- The handle's inode has the number, or is what the inode table holds under it. -/
def HandleOn (v w : Volume) (d : ℕ) (dir : Dir) : Prop :=
  (w.inodes dir.inode).ino = d ∨ w.inodes dir.inode = { v.record d with openCnt := 1 }

theorem findOpen_ino {q : ℕ} (h : v.findOpen d = some q) : (v.inodes q).ino = d := by
  have hfound := List.find?_some h
  simpa using hfound

theorem wp_inodeOpen_on (hs : SameDisk v w) (hl : Layout v) :
    wp anyStop e (inodeOpen d) (fun q w' => (w'.inodes q).ino = d ∨
      w'.inodes q = { v.record d with openCnt := 1 }) w := by
  cases hq : w.findOpen d with
  | some q =>
    apply wp_mono (wp_inodeOpen_found hq)
    intro q' w' h
    left
    rw [h.2, h.1] at *
    exact findOpen_ino hq
  | none =>
    by_cases hd : d < 4096
    · apply wp_mono (wp_inodeOpen_record (hs.layout hl) hd hq (Or.inl trivial))
      intro q w' h
      right
      rw [h, hs.record]
    · unfold inodeOpen
      rw [wp_get_bind, hq]
      unfold inodeLocate
      rw [wp_bind_assoc, wp_assert_bind]
      exact ⟨fun hlt => absurd hlt hd, fun _ => trivial⟩

theorem wp_inodeOpen_granted (hs : SameDisk v w) (hl : Layout v) (he : ∀ t, e.sysMalloc t = true)
    (hd : d < 4096) : wp noStop e (inodeOpen d) (fun _ _ => True) w := by
  cases hq : w.findOpen d with
  | some q => exact wp_mono (wp_inodeOpen_found hq) fun _ _ _ => trivial
  | none =>
    exact wp_mono (wp_inodeOpen_record (hs.layout hl) hd hq (Or.inr he)) fun _ _ _ => trivial

theorem wp_dirOpen_on (hs : SameDisk v w) (hl : Layout v) :
    wp anyStop e (dirOpen d) (fun dir w' => HandleOn v w' d dir) w := by
  unfold dirOpen
  apply wp_sysMallocUnchecked_bind trivial
  exact wp_call (wp_inodeOpen_on hs hl) fun q w' h => wp_pure.mpr h

theorem wp_dirOpen_granted (hs : SameDisk v w) (hl : Layout v) (he : ∀ t, e.sysMalloc t = true)
    (hd : d < 4096) : wp noStop e (dirOpen d) (fun _ _ => True) w := by
  unfold dirOpen sysMallocUnchecked sysMalloc
  rw [wp_bind_assoc]
  apply wp_ask_bind
  intro t
  rw [he t, wp_assert_pos rfl]
  exact wp_call (wp_inodeOpen_granted hs hl he hd) fun q w' _ => wp_pure.mpr trivial

theorem wp_dirClose_any (dir : Dir) : wp noStop e (dirClose dir) (fun _ _ => True) w := by
  unfold dirClose
  apply wp_ite
  · exact fun _ => wp_pure.mpr trivial
  · intro _
    unfold inodeClose modifyInode
    rw [wp_modify_bind, wp_get_bind]
    apply wp_ite
    · exact fun _ => wp_modify.mpr trivial
    · exact fun _ => wp_pure.mpr trivial

/-- The number of a directory that was found. -/
def foundDir (r : Option ℕ × PathSearchRecord) : Option ℕ :=
  if r.2.fileType = FileType.directory then r.1 else none

theorem wp_openFound (hs : SameDisk v w) (hl : Layout v) :
    wp anyStop e (openFound r) (fun o w' => match foundDir r with
      | none => o = none
      | some d => ∃ dir, o = some dir ∧ HandleOn v w' d dir) w := by
  unfold openFound foundDir
  cases hr : r.1 with
  | none =>
    simp only [ite_self]
    exact wp_pure.mpr rfl
  | some d =>
    dsimp only
    apply wp_ite
    · intro hdir
      rw [if_pos hdir]
      exact wp_call (wp_dirOpen_on hs hl) fun dir w' h => wp_pure.mpr ⟨dir, rfl, h⟩
    · intro hdir
      rw [if_neg hdir]
      exact wp_pure.mpr rfl

theorem wp_openFound_granted (hs : SameDisk v w) (hl : Layout v)
    (he : ∀ t, e.sysMalloc t = true) (hd : ∀ d ∈ r.1, d < 4096) :
    wp noStop e (openFound r) (fun _ _ => True) w := by
  unfold openFound
  cases hr : r.1 with
  | none => exact wp_pure.mpr trivial
  | some d =>
    dsimp only
    apply wp_ite
    · intro _
      exact wp_call (wp_dirOpen_granted hs hl he (hd d hr)) fun _ _ _ => wp_pure.mpr trivial
    · exact fun _ => wp_pure.mpr trivial

theorem wp_enterFound : wp noStop e (enterFound r) (fun c _ => c = foundDir r) w := by
  unfold enterFound foundDir
  apply wp_call (wp_dirClose_any _)
  intro _ w' _
  split_ifs
  · exact wp_pure.mpr rfl
  · exact wp_pure.mpr rfl

/-- What `sysStat` reports of the search. -/
def Reports (r : Option ℕ × PathSearchRecord) (s : Option Stat) : Prop :=
  match r.1 with
  | none => s = none
  | some d => ∃ size, s = some ⟨r.2.fileType, d, size⟩

theorem wp_statFound : wp anyStop e (statFound r) (fun s _ => Reports r s) w := by
  unfold statFound Reports
  cases hr : r.1 with
  | none => exact wp_call (wp_of_noStop (wp_dirClose_any _)) fun _ _ _ => wp_pure.mpr rfl
  | some d =>
    apply wp_call (wp_any (inodeOpen d))
    intro q w' _
    rw [wp_get_bind]
    apply wp_call (R := fun _ _ => True)
    · exact wp_iff.mpr ⟨fun _ _ _ => trivial, fun _ _ => trivial⟩
    · intro _ w'' _
      exact wp_call (wp_of_noStop (wp_dirClose_any _)) fun _ _ _ => wp_pure.mpr ⟨_, rfl⟩

theorem wp_statFound_granted (hs : SameDisk v w) (hl : Layout v)
    (he : ∀ t, e.sysMalloc t = true) (hd : ∀ d ∈ r.1, d < 4096) :
    wp noStop e (statFound r) (fun _ _ => True) w := by
  unfold statFound
  cases hr : r.1 with
  | none => exact wp_call (wp_dirClose_any _) fun _ _ _ => wp_pure.mpr trivial
  | some d =>
    apply wp_call (wp_inodeOpen_granted hs hl he (hd d hr))
    intro q w' _
    rw [wp_get_bind]
    have hclose : wp noStop e (inodeClose q) (fun _ _ => True) w' := wp_dirClose_any ⟨false, q⟩
    apply wp_call hclose
    intro _ w'' _
    exact wp_call (wp_dirClose_any _) fun _ _ _ => wp_pure.mpr trivial

end Handles

section Law

/-- An absolute path of the length and with the names that the calls have room for. -/
structure ProperPath (p : List UInt8) : Prop where
  absolute : p.head? = some slash
  length_lt : p.length < 512
  short : ∀ c ∈ components p, c.length ≤ 15

/-- A volume that is mounted. -/
structure Tree (v : Volume) : Prop where
  layout : Layout v
  steady : Steady v
  root : (v.inodes v.rootInode).ino = 0

/-- What the three calls return is the same directory, or no directory. -/
def SameDirectory (v w : Volume) (o : Option Dir) (c : Option ℕ) (s : Option Stat) : Prop :=
  (∃ d dir st, o = some dir ∧ HandleOn v w d dir ∧ c = some d ∧ s = some st ∧
    st.fileType = FileType.directory ∧ st.ino = d) ∨
  (o = none ∧ c = none ∧ ∀ st, s = some st → st.fileType ≠ FileType.directory)

theorem ends_of_wp {α : Type} {m : VolM α} {Q : α → Volume → Prop} (h : wp noStop e m Q w) (t : ℕ) :
    ∃ a t' w', m e t w = .returned a t' w' ∧ Q a w' := by
  have ht := h t
  cases hm : m e t w with
  | returned a t' w' =>
    rw [hm] at ht
    exact ⟨a, t', w', rfl, ht⟩
  | stopped w' =>
    rw [hm] at ht
    exact ht.elim

theorem isRootPath_iff : isRootPath p = true ↔
    p = [slash] ∨ p = slash :: dotName ∨ p = slash :: dotDotName := by
  simp [isRootPath, or_assoc]

theorem sameDirectory_of_found {r : Option ℕ × PathSearchRecord} {o : Option Dir} {c : Option ℕ}
    {s : Option Stat} (ho : match foundDir r with
      | none => o = none
      | some d => ∃ dir, o = some dir ∧ HandleOn v w d dir)
    (hc : c = foundDir r) (hs : Reports r s) : SameDirectory v w o c s := by
  subst hc
  unfold foundDir at ho ⊢
  unfold Reports at hs
  cases hr : r.1 with
  | none =>
    rw [hr] at hs ho
    simp only [ite_self] at ho ⊢
    right
    refine ⟨ho, rfl, fun st hst => ?_⟩
    rw [hs] at hst
    cases hst
  | some d =>
    rw [hr] at hs ho
    obtain ⟨size, hs⟩ := hs
    by_cases hdir : r.2.fileType = FileType.directory
    · rw [if_pos hdir] at ho ⊢
      obtain ⟨dir, ho, hon⟩ := ho
      left
      exact ⟨d, dir, _, ho, hon, rfl, hs, hdir, rfl⟩
    · rw [if_neg hdir] at ho ⊢
      right
      refine ⟨ho, rfl, fun st hst => ?_⟩
      rw [hs] at hst
      cases hst
      exact hdir

/-- Without a component the search returns what the stack holds. -/
theorem wp_searchFile_bare {word : ℕ} (hv : Tree v) (hroot : isRootPath p = false)
    (habs : p.head? = some slash) (hlen : p.length < 512) (hnil : components p = [])
    (he : ∀ t, e.sysMalloc t = true) (hword : ∀ t, e.junk t = word) :
    wp noStop e (searchFile p) (fun r w => (r.1 = toIno word ∧
      r.2.fileType = FileType.directory) ∧ SameDisk v w) v := by
  have hnot : ¬isRootPath p = true := by rw [hroot]; exact Bool.false_ne_true
  have hsearch : wp noStop e (searchFile p) (fun r _ => r.1 = toIno word ∧
      r.2.fileType = FileType.directory) v := by
    unfold searchFile
    rw [wp_get_bind, if_neg hnot, wp_assert_pos ⟨habs, hlen⟩]
    apply wp_ask_bind
    intro t
    rw [pathParse_of_nil hnil, hword t]
    unfold searchLoop
    have hclose : dirClose v.rootDir = pure () := rfl
    rw [if_pos rfl, hclose, wp_pure_bind]
    have hself : SameDisk v v := ⟨rfl, rfl, id⟩
    have hopen : wp noStop e (dirOpen 0) (fun _ _ => True) v :=
      wp_dirOpen_granted hself hv.layout he (by norm_num)
    exact wp_call hopen fun dir w _ => wp_pure.mpr ⟨rfl, rfl⟩
  apply wp_mono (wp_and hsearch (wp_searchFile_holding hv.steady))
  exact fun r w h => ⟨h.1, h.2.sameDisk⟩

/-- A machine with memory whose stack is full of this word. -/
def wordHeap (word : ℕ) : Heap := { sampleHeap with junk := fun _ => word }

end Law

end Gogoos
