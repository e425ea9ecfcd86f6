import Gogoos.Fs.OpenFiles
import Gogoos.Kernel.CwdLaw

/-!
# What a path names

`searchFile` beside the walk through the tree that looks up the names one after another. The
search follows the walk as long as each name stands in the first block of its directory; what
lies behind the sector buffers may answer for any other name.
-/

namespace Gogoos

open Program

variable {e : Heap} {stop : Volume → Prop} {v w x : Volume} {d d' last : ℕ} {c p : List UInt8}
  {cs rest pre : List (List UInt8)} {dirs : Set ℕ} {parent rank : ℕ → ℕ} {de : DirEntry}
  {o : Option DirEntry} {r : Option ℕ × PathSearchRecord}

section Walks

/-- A tree of directories and regular files. -/
structure FileTree (v : Volume) (dirs : Set ℕ) (parent rank : ℕ → ℕ) : Prop
    extends DirTree v dirs parent rank where
  kind : ∀ d ∈ dirs, ∀ de, v.HasEntry d de →
    de.fileType = FileType.directory ∨ de.fileType = FileType.regular
  bound : ∀ d ∈ dirs, ∀ de, v.HasEntry d de → de.ino < 4096

/-- Looks up the names one after another from the directory `d`, the last time in `last`. There is
no entry at the end when a name is missing, or one before the last is a regular file. -/
inductive Walk (v : Volume) : ℕ → List (List UInt8) → Option DirEntry → ℕ → Prop
  | missing {d : ℕ} {c : List UInt8} {cs : List (List UInt8)}
      (h : ∀ de, v.HasEntry d de → de.fileName ≠ c) : Walk v d (c :: cs) none d
  | found {d : ℕ} {de : DirEntry} (h : v.HasEntry d de) : Walk v d [de.fileName] (some de) d
  | blocked {d : ℕ} {de : DirEntry} {c : List UInt8} {cs : List (List UInt8)}
      (h : v.HasEntry d de) (hfile : de.fileType = FileType.regular) :
      Walk v d (de.fileName :: c :: cs) none d
  | down {d d' last : ℕ} {c c' : List UInt8} {cs : List (List UInt8)} {o : Option DirEntry}
      (h : v.HasDir d c d') (hrest : Walk v d' (c' :: cs) o last) :
      Walk v d (c :: c' :: cs) o last

theorem directory_ne_regular : FileType.directory ≠ FileType.regular := by decide

theorem DirTree.hasDir_unique {d'' : ℕ} (hv : DirTree v dirs parent rank) (hd : d ∈ dirs)
    (h : v.HasDir d c d') (h' : v.HasDir d c d'') : d' = d'' := by
  obtain ⟨de, hde, hname, -, hnum⟩ := hasDir_iff.mp h
  obtain ⟨de', hde', hname', -, hnum'⟩ := hasDir_iff.mp h'
  rw [← hnum, ← hnum', hv.entry_unique hd hde hde' (hname.trans hname'.symm)]

/-- A walk in the tree stays there. -/
theorem Walk.mem (hv : DirTree v dirs parent rank) (h : Walk v d cs o last) (hd : d ∈ dirs) :
    last ∈ dirs ∧ ∀ de ∈ o, v.HasEntry last de := by
  induction h with
  | missing => exact ⟨hd, fun de hde => nomatch hde⟩
  | found hde =>
    refine ⟨hd, fun de' hde' => ?_⟩
    obtain rfl := Option.some.inj hde'
    exact hde
  | blocked => exact ⟨hd, fun de hde => nomatch hde⟩
  | down hdir _ ih => exact ih (hv.hasDir_mem hd hdir)

/-- The walk goes through the directories that the first names lead to. -/
theorem Walk.of_descends (h : Descends v pre d) : ∀ {rest}, rest ≠ [] → Walk v d rest o last →
    Walk v 0 (pre ++ rest) o last := by
  induction h with
  | root => exact fun _ hwalk => hwalk
  | @down cs c d d' _ hdir ih =>
    intro rest hne hwalk
    obtain ⟨c', cs', rfl⟩ := List.exists_cons_of_ne_nil hne
    rw [List.append_assoc]
    exact ih (List.cons_ne_nil _ _) (.down hdir hwalk)

/-- From a name that is not the last, a walk goes on in its directory. -/
theorem Walk.into (hv : DirTree v dirs parent rank) (hd : d ∈ dirs) (hdir : v.HasDir d c d')
    (hne : cs ≠ []) (h : Walk v d (c :: cs) o last) : Walk v d' cs o last := by
  cases h with
  | missing hmiss =>
    obtain ⟨de, hde, hname, -⟩ := hasDir_iff.mp hdir
    exact absurd hname (hmiss de hde)
  | found => exact absurd rfl hne
  | @blocked _ de' _ _ hde' hfile =>
    obtain ⟨de, hde, hname, htype, -⟩ := hasDir_iff.mp hdir
    rw [hv.entry_unique hd hde hde' hname] at htype
    exact absurd (htype.symm.trans hfile) directory_ne_regular
  | down hdir' hrest => exact hv.hasDir_unique hd hdir hdir' ▸ hrest

theorem Walk.after (hv : DirTree v dirs parent rank) (h : Descends v pre d) :
    ∀ {rest}, rest ≠ [] → Walk v 0 (pre ++ rest) o last → Walk v d rest o last := by
  induction h with
  | root => exact fun _ hwalk => hwalk
  | @down cs c d d' h hdir ih =>
    intro rest hne hwalk
    rw [List.append_assoc] at hwalk
    exact (ih (List.cons_ne_nil _ _) hwalk).into hv (h.mem hv) hdir hne

/-- Behind a regular file nothing is found. -/
theorem Walk.eq_none (hv : DirTree v dirs parent rank) (hd : d ∈ dirs) (hde : v.HasEntry d de)
    (hfile : de.fileType = FileType.regular) (hne : cs ≠ [])
    (h : Walk v d (de.fileName :: cs) o last) : o = none := by
  generalize hname : de.fileName = c at h
  cases h with
  | missing => rfl
  | found => exact absurd rfl hne
  | blocked => rfl
  | down hdir =>
    obtain ⟨de', hde', hname', htype, -⟩ := hasDir_iff.mp hdir
    rw [← hv.entry_unique hd hde hde' (hname.trans hname'.symm)] at htype
    exact absurd (htype.symm.trans hfile) directory_ne_regular

end Walks

section Answers

/-- The handle is one on the directory `d`. -/
structure OnDirectory (v w : Volume) (d : ℕ) (dir : Dir) : Prop where
  ino : (w.inodes dir.inode).ino = d
  block : (w.inodes dir.inode).block = (v.inodeNo d).block

/-- The search has found what the walk along the names of the path finds, with the number, the
type and the directory of the last look-up. A path without a name is the root. -/
structure Resolved (v : Volume) (p : List UInt8) (r : Option ℕ × PathSearchRecord)
    (w : Volume) : Prop where
  root : components p = [] → r.1 = some 0 ∧ r.2.fileType = FileType.directory
  walk : components p ≠ [] → ∃ o last, Walk v 0 (components p) o last ∧
    r.1 = o.map DirEntry.ino ∧ (∀ de ∈ o, r.2.fileType = de.fileType) ∧
      OnDirectory v w last r.2.parentDir

/-- The number and the type of what the path names. -/
def Names (v : Volume) (p : List UInt8) (q : Option (ℕ × ℕ)) : Prop :=
  (components p = [] → q = some (0, FileType.directory)) ∧
    (components p ≠ [] → ∃ o last, Walk v 0 (components p) o last ∧
      q = o.map fun de => (de.ino, de.fileType))

theorem Resolved.names (h : Resolved v p r w) : Names v p (r.1.map fun n => (n, r.2.fileType)) := by
  refine ⟨fun hnil => ?_, fun hne => ?_⟩
  · obtain ⟨hino, htype⟩ := h.root hnil
    rw [hino, htype]
    rfl
  · obtain ⟨o, last, hwalk, hino, htype, -⟩ := h.walk hne
    refine ⟨o, last, hwalk, ?_⟩
    rw [hino]
    cases o with
    | none => rfl
    | some de => exact congrArg some (congrArg (de.ino, ·) (htype de rfl))

/-- What `unlink` has done when it returns: nothing, or it has deleted the regular file that the
path names from the directory that has it. -/
def UnlinkedOnly (e : Heap) (v : Volume) (p : List UInt8) (fs : Fs) (r : ℤ) (fs' : Fs) : Prop :=
  (r = -1 ∧ ∃ w, fs' = fs.setVol w ∧ SameVolume v w) ∨
    ∃ de last dir w w₁ w₂ w₃ b, Walk v 0 (components p) (some de) last ∧
      de.fileType = FileType.regular ∧ OnDirectory v w last dir ∧
      SameVolume v (w.closeDir dir) ∧ Returns e (deleteDirEntry dir de.ino) w b w₁ ∧
      Returns e (inodeRelease de.ino) w₁ () w₂ ∧ Returns e (dirClose dir) w₂ () w₃ ∧
      fs' = fs.setVol w₃

/-- On every machine with memory, whatever lies in it, the path is resolved name by name, and
`stat` and `unlink` act on what it names. -/
structure Resolves (v : Volume) (p : List UInt8) : Prop where
  search : ∀ e : Heap, (∀ t, e.sysMalloc t = true) → wp noStop e (searchFile p) (Resolved v p) v
  stat : ∀ e : Heap, (∀ t, e.sysMalloc t = true) → wp noStop e (sysStat p)
    (fun s _ => Names v p (s.map fun st => (st.ino, st.fileType))) v
  unlink : ∀ e : Heap, (∀ t, e.sysMalloc t = true) → ∀ fs : Fs, fs.vol = v →
    wp anyStop e (sysUnlink p) (UnlinkedOnly e v p fs) fs

/-- One of the three spellings of the root, or every name but the last leads to a directory and
every name stands in the first block of its directory. -/
def Straight (v : Volume) (p : List UInt8) : Prop :=
  isRootPath p = true ∨ components p ≠ [] ∧ FirstBlocks v (components p) ∧
    ∃ d, Descends v (components p).dropLast d

end Answers

section Search

variable {next : List UInt8 × Option (List UInt8)} {record : PathSearchRecord}
  {fuel parentIno deIno : ℕ}

theorem supplied (he : ∀ t, e.sysMalloc t = true) : Supplied stop e := .inr he

/-- A handle on the directory `d`. It has the inode that was open already, if there was one. -/
structure Handle (v w : Volume) (d : ℕ) (dir : Dir) : Prop extends OnDirectory v w d dir where
  size : (w.inodes dir.inode).size = (v.inodeNo d).size
  reuse : ∀ p, v.findOpen d = some p → dir.inode = p

theorem SearchAt.handle (h : SearchAt v w d next pre cs record) :
    Handle v w d record.parentDir := ⟨⟨h.ino, h.block⟩, h.size, h.reuse⟩

/-- A regular file ends the search, wherever it stands in the path. -/
theorem wp_searchLoop_file (hv : FileTree v dirs parent rank) (he : ∀ t, e.sysMalloc t = true)
    (hd : d ∈ dirs) (hde : v.HasEntry d de) (hfile : de.fileType = FileType.regular)
    (hfirst : FirstBlockHas v (v.inodeNo d) de.fileName) (hne : de.fileName ≠ [])
    (hzero : (0 : UInt8) ∉ de.fileName) (hlen : pathLength pre < 512)
    (h : SearchAt v w d next pre (de.fileName :: cs) record) :
    wp noStop e (searchLoop (fuel + 1) next.1 next.2 record parentIno deIno)
      (fun r x => r.1 = some de.ino ∧ r.2.fileType = de.fileType ∧
        Handle v x d r.2.parentDir) w := by
  have hname : next.1 = de.fileName := h.ahead.name
  have hbound := hv.bound d hd de hde
  unfold searchLoop
  rw [hname, if_neg hne, wp_assert_pos (by rw [h.path, length_joined]; exact hlen)]
  apply wp_call (wp_searchDirEntry_first hv.toDirTree hd hde hfirst hzero (supplied he) h)
  rintro r x ⟨rfl, ⟨⟨t, ht⟩, -⟩ | rfl⟩
  · exact absurd ((he t).symm.trans ht) (by decide)
  dsimp only
  rw [if_neg (by rw [hfile]; exact directory_ne_regular.symm), if_pos hfile]
  apply wp_pure.mpr
  exact ⟨if_neg (by omega), hfile.symm, h.handle⟩

/-- The last name, of an entry in the first block. -/
theorem wp_searchLoop_last (hv : FileTree v dirs parent rank) (he : ∀ t, e.sysMalloc t = true)
    (hd : d ∈ dirs) (hde : v.HasEntry d de)
    (hfirst : FirstBlockHas v (v.inodeNo d) de.fileName) (hne : de.fileName ≠ [])
    (hzero : (0 : UInt8) ∉ de.fileName) (hlen : pathLength pre < 512)
    (h : SearchAt v w d next pre [de.fileName] record) :
    wp noStop e (searchLoop (fuel + 2) next.1 next.2 record parentIno deIno)
      (fun r x => r.1 = some de.ino ∧ r.2.fileType = de.fileType ∧
        Handle v x d r.2.parentDir) w := by
  rcases hv.kind d hd de hde with hdir | hfile
  · have hhas : v.HasDir d de.fileName de.ino := hasDir_iff.mpr ⟨de, hde, rfl, hdir, rfl⟩
    apply wp_searchLoop_down hv.toDirTree hd hhas hne hzero hfirst (supplied he) hlen h
    · rintro ⟨t, ht⟩
      exact absurd ((he t).symm.trans ht) (by decide)
    · intro next' record' x hx
      apply wp_mono (wp_searchLoop_end hv.toDirTree (supplied he) hd (hv.bound d hd de hde) hx)
      rintro r z ⟨hino, htype, hopened⟩
      exact ⟨hino, htype.trans hdir.symm,
        ⟨hopened.ino.trans (hv.number d hd).2, hopened.block⟩, hopened.size, hopened.reuse⟩
  · exact wp_searchLoop_file hv he hd hde hfile hfirst hne hzero hlen h

end Search

section Straight

theorem inodeNo_root (hv : DirTree v dirs parent rank) : v.inodeNo 0 = v.inodes v.rootInode := by
  unfold Volume.inodeNo
  rw [hv.rootOpen]

theorem onDirectory_root (hv : DirTree v dirs parent rank) : OnDirectory v v 0 v.rootDir := by
  constructor
  · change (v.inodes v.rootInode).ino = 0
    rw [← inodeNo_root hv]
    exact (hv.number 0 hv.root.1).2
  · exact congrArg Inode.block (inodeNo_root hv).symm

/-- The answer that the search has for the root is the right one. -/
theorem resolved_root (hv : DirTree v dirs parent rank) (hroot : isRootPath p = true) :
    Resolved v p (some 0, ⟨[], v.rootDir, FileType.directory⟩) v := by
  refine ⟨fun _ => ⟨rfl, rfl⟩, fun hne => ?_⟩
  have hon := onDirectory_root hv
  have htype : ∀ name ino, ∀ de ∈ some (⟨name, ino, FileType.directory⟩ : DirEntry),
      FileType.directory = de.fileType := by
    intro name ino de hde
    obtain rfl := Option.some.inj hde
    rfl
  rcases isRootPath_iff.mp hroot with rfl | rfl | rfl
  · exact absurd rfl hne
  · exact ⟨some _, 0, .found ⟨0, by norm_num, 0, by norm_num, hv.entry_dot hv.root.1⟩, rfl,
      htype _ _, hon⟩
  · have hentry := hv.entry_dotDot hv.root.1
    rw [hv.root.2] at hentry
    exact ⟨some _, 0, .found ⟨0, by norm_num, 1, by norm_num, hentry⟩, rfl, htype _ _, hon⟩

/-- The search for a path whose last name is that of an entry. -/
theorem wp_searchFile_entry (hv : FileTree v dirs parent rank) (hp : ProperPath p)
    (hzero : (0 : UInt8) ∉ p) (hroot : isRootPath p = false)
    (hsplit : components p = cs ++ [de.fileName]) (hd : Descends v cs d)
    (hentry : v.HasEntry d de) (hfirst : FirstBlocks v (components p))
    (he : ∀ t, e.sysMalloc t = true) :
    wp noStop e (searchFile p) (fun r x => r.1 = some de.ino ∧ r.2.fileType = de.fileType ∧
      Handle v x d r.2.parentDir) v := by
  have hmem := hd.mem hv.toDirTree
  obtain ⟨hc, -, hsub⟩ := mem_components (show de.fileName ∈ components p by simp [hsplit])
  have hlen := pathLength_absolute hp.absolute
  have hlt := hp.length_lt
  have hcs : cs.length ≤ pathLength cs := length_le_pathLength
  have hone : pathLength [de.fileName] = de.fileName.length + 1 := by simp [pathLength]
  rw [hsplit, pathLength_append] at hlen
  apply wp_searchFile_descends hv.toDirTree (supplied he) ⟨hp.absolute, hroot⟩ hlt hzero hsplit hd
  · intro pre b post d₀ hpre hd₀
    exact hfirst pre b (post ++ [de.fileName]) d₀ (by rw [hsplit, hpre]; simp) hd₀
  · rintro ⟨t, ht⟩
    exact absurd ((he t).symm.trans ht) (by decide)
  · intro next record parentIno deIno x _ _ hx
    have hfuel : p.length - cs.length + 1 = p.length - cs.length - 1 + 2 := by omega
    rw [hfuel]
    exact wp_searchLoop_last hv he hmem hentry (hfirst cs _ [] d hsplit hd) hc
      (fun h0 => hzero (hsub _ h0)) (by omega) hx

/-- The search of a straight path. -/
theorem wp_searchFile_straight (hv : FileTree v dirs parent rank) (hp : ProperPath p)
    (hzero : (0 : UInt8) ∉ p) (h : Straight v p) (he : ∀ t, e.sysMalloc t = true) :
    wp noStop e (searchFile p) (Resolved v p) v := by
  by_cases hroot : isRootPath p = true
  · unfold searchFile
    rw [wp_get_bind, if_pos hroot, wp_pure]
    exact resolved_root hv.toDirTree hroot
  obtain ⟨hne, hfirst, d, hd⟩ := h.resolve_left hroot
  have hsplit : components p = (components p).dropLast ++ [(components p).getLast hne] :=
    (List.dropLast_append_getLast hne).symm
  generalize (components p).dropLast = cs at hd hsplit
  generalize (components p).getLast hne = c at hsplit
  obtain ⟨-, j, hj, ⟨de, hde, rfl⟩, -⟩ := hfirst cs c [] d hsplit hd
  have hentry : v.HasEntry d de := ⟨0, by norm_num, j, hj, hde⟩
  apply wp_mono (wp_searchFile_entry hv hp hzero (by simpa using hroot) hsplit hd hentry hfirst he)
  rintro r x ⟨hino, htype, hon⟩
  refine ⟨fun hnil => absurd hnil hne, fun _ => ⟨some de, d, ?_, hino, ?_, hon.toOnDirectory⟩⟩
  · rw [hsplit]
    exact Walk.of_descends hd (List.cons_ne_nil _ _) (.found hentry)
  · intro de' hde'
    obtain rfl := Option.some.inj hde'
    exact htype

end Straight

section Calls

/-- The numbers that come out of the tree are numbers of inodes. -/
theorem Resolved.lt (hv : FileTree v dirs parent rank) (h : Resolved v p r w) :
    ∀ n ∈ r.1, n < 4096 := by
  intro n hn
  by_cases hnil : components p = []
  · obtain rfl := Option.some.inj ((h.root hnil).1.symm.trans hn)
    norm_num
  · obtain ⟨o, last, hwalk, hino, -⟩ := h.walk hnil
    obtain ⟨hmem, hentry⟩ := hwalk.mem hv.toDirTree hv.root.1
    rw [hino] at hn
    obtain ⟨de, hde, rfl⟩ := Option.map_eq_some_iff.mp hn
    exact hv.bound last hmem de (hentry de hde)

theorem Resolved.reports {s : Option Stat} (h : Resolved v p r w) (hs : Reports r s) :
    Names v p (s.map fun st => (st.ino, st.fileType)) := by
  have hnames := h.names
  unfold Reports at hs
  cases hr : r.1 with
  | none =>
    rw [hr] at hs hnames
    obtain rfl : s = none := hs
    exact hnames
  | some n =>
    rw [hr] at hs hnames
    obtain ⟨size, rfl⟩ := hs
    exact hnames

theorem wp_sysStat_names (hv : FileTree v dirs parent rank) (he : ∀ t, e.sysMalloc t = true)
    (h : wp noStop e (searchFile p) (Resolved v p) v) : wp noStop e (sysStat p)
      (fun s _ => Names v p (s.map fun st => (st.ino, st.fileType))) v := by
  by_cases hroot : isRootPath p = true
  · unfold sysStat
    rw [if_pos hroot, wp_get_bind, wp_pure]
    exact (resolved_root hv.toDirTree hroot).names
  · rw [sysStat_eq (by simpa using hroot)]
    apply wp_call (wp_and h (wp_searchFile_holding hv.steady))
    rintro r w ⟨hr, hheld⟩
    have hgranted := wp_statFound_granted hheld.sameDisk hv.layout he (hr.lt hv)
    apply wp_mono (wp_and hgranted wp_statFound)
    exact fun s _ hs => hr.reports hs.2

/-- What is known of a call is that it is one. -/
theorem wp_returns {σ α : Type} {m : Program Heap σ α} {s : σ} :
    wp anyStop e m (fun a s' => Returns e m s a s') s :=
  wp_iff.mpr ⟨fun _ _ h => h, fun _ _ => trivial⟩

theorem wp_sysUnlink_only {fs : Fs} (hv : FileTree v dirs parent rank) (hfs : fs.vol = v)
    (h : wp noStop e (searchFile p) (Resolved v p) v) :
    wp anyStop e (sysUnlink p) (UnlinkedOnly e v p fs) fs := by
  subst hfs
  have hnothing : ∀ dir w, Holding fs.vol w dir → wp anyStop e (do
      onVol (dirClose dir)
      return -1) (UnlinkedOnly e fs.vol p fs) (fs.setVol w) := by
    intro dir w hheld
    apply wp_onVol_call (P := fun _ x => SameVolume fs.vol x) (wp_dirClose_eq hheld.same)
    intro _ x hx
    exact wp_pure.mpr (Or.inl ⟨rfl, x, rfl, hx⟩)
  unfold sysUnlink
  rw [wp_assert_bind]
  refine ⟨fun _ => ?_, fun _ => trivial⟩
  apply wp_onVol_call (wp_and (wp_stop_mono h fun _ hx => False.elim hx)
    (wp_searchFile_holding hv.steady))
  rintro ⟨ino, record⟩ w ⟨hr, hheld⟩
  cases ino with
  | none => exact hnothing record.parentDir w hheld
  | some n =>
    dsimp only
    rw [wp_assert_bind]
    refine ⟨fun _ => ?_, fun _ => trivial⟩
    apply wp_ite
    · exact fun _ => hnothing record.parentDir w hheld
    intro htype
    rw [wp_get_bind]
    apply wp_ite
    · exact fun _ => hnothing record.parentDir w hheld
    intro _
    apply wp_onVol_call (P := fun _ x => x = w) (wp_ask fun t => rfl)
    rintro ok x rfl
    apply wp_ite
    · exact fun _ => hnothing record.parentDir x hheld
    intro _
    have hne : components p ≠ [] := fun hnil => htype (hr.root hnil).2
    obtain ⟨o, last, hwalk, hino, hkind, hon⟩ := hr.walk hne
    obtain ⟨hmem, hentry⟩ := hwalk.mem hv.toDirTree hv.root.1
    obtain ⟨de, rfl, rfl⟩ := Option.map_eq_some_iff.mp hino.symm
    have hfile : de.fileType = FileType.regular :=
      (hv.kind last hmem de (hentry de rfl)).resolve_left fun hdir =>
        htype ((hkind de rfl).trans hdir)
    apply wp_onVol_call wp_returns
    intro b w₁ hdelete
    apply wp_onVol_call wp_returns
    intro _ w₂ hrelease
    apply wp_onVol_call wp_returns
    intro _ w₃ hclose
    exact wp_pure.mpr (Or.inr ⟨de, last, record.parentDir, x, w₁, w₂, w₃, b, hwalk, hfile, hon,
      hheld.same, hdelete, hrelease, hclose, rfl⟩)

theorem resolves_of_straight (hv : FileTree v dirs parent rank) (hp : ProperPath p)
    (hzero : (0 : UInt8) ∉ p) (h : Straight v p) : Resolves v p := by
  have hsearch : ∀ e : Heap, (∀ t, e.sysMalloc t = true) →
      wp noStop e (searchFile p) (Resolved v p) v :=
    fun e he => wp_searchFile_straight hv hp hzero h he
  constructor
  · exact hsearch
  · exact fun e he => wp_sysStat_names hv he (hsearch e he)
  · exact fun e he fs hfs => wp_sysUnlink_only hv hfs (hsearch e he)

end Calls

section Decoys

/-- A machine with memory on which copies of this entry lie behind the sector buffers. -/
def decoy (de : DirEntry) : Heap where
  sysMalloc _ := true
  behind _ := fun j => de.bytes ((j + 8) % 24)
  junk _ := 0

theorem decoy_behind (t j : ℕ) : (decoy de).behind t j = de.bytes ((j + 8) % 24) := rfl

theorem misleads_decoy (hde : de.Fits) : Misleads (decoy de) de := by
  have hround : DirEntry.ofBytes de.bytes 0 = de := DirEntry.ofBytes_bytes hde
  have hbyte : ∀ t sector j, 512 ≤ j →
      searchBuf (decoy de) t sector j = de.bytes ((j - 504) % 24) := by
    intro t sector j hj
    have hoff : j - 512 + 8 = j - 504 := by omega
    unfold searchBuf
    rw [if_neg (by omega)]
    rw [decoy_behind, hoff]
  have hword : ∀ t sector off, 8 ≤ off → off ≤ 20 →
      getWord (searchBuf (decoy de) t sector) (504 + off) = getWord de.bytes off := by
    intro t sector off hle hge
    apply getWord_congr
    intro k hk
    have hoff : (504 + off + k - 504) % 24 = off + k := by omega
    rw [hbyte t sector _ (by omega), hoff]
  constructor
  · exact fun _ => rfl
  · intro t sector
    constructor
    · exact (hword t sector 16 (by norm_num) (by norm_num)).trans (congrArg DirEntry.ino hround)
    · exact (hword t sector 20 (by norm_num) (by norm_num)).trans
        (congrArg DirEntry.fileType hround)
  · intro t sector
    have hbytes : ∀ k < 24, searchBuf (decoy de) t sector (24 * 22 + k) = de.bytes (0 + k) := by
      intro k hk
      have hoff : (24 * 22 + k - 504) % 24 = 0 + k := by omega
      rw [hbyte t sector _ (by omega), hoff]
    unfold slot
    rw [DirEntry.ofBytes_congr hbytes, hround]

end Decoys

section Law

variable {post : List (List UInt8)}

theorem Resolved.of_wp {P : Option ℕ × PathSearchRecord → Volume → Prop} (h : Resolves v p)
    (he : ∀ t, e.sysMalloc t = true) (hw : wp noStop e (searchFile p) P v) :
    ∃ r x, Resolved v p r x ∧ P r x := by
  obtain ⟨r, x, -, hr⟩ := wp_noStop_returns (wp_and (h.search e he) (wp_of_noStop hw))
  exact ⟨r, x, hr⟩

/-- Without a name the search returns what the stack holds. -/
theorem components_of_resolves (hv : FileTree v dirs parent rank) (hp : ProperPath p)
    (hroot : isRootPath p = false) (h : Resolves v p) : components p ≠ [] := by
  intro hnil
  have htree : Tree v := by
    refine ⟨hv.layout, hv.steady, ?_⟩
    rw [← inodeNo_root hv.toDirTree]
    exact (hv.number 0 hv.root.1).2
  obtain ⟨r, x, hr, ⟨hino, -⟩, -⟩ := Resolved.of_wp h (e := wordHeap 5) (fun _ => rfl)
    (wp_searchFile_bare htree hroot hp.absolute hp.length_lt hnil (fun _ => rfl) fun _ => rfl)
  rw [(hr.root hnil).1] at hino
  exact absurd hino (by decide)

/-- Behind the buffers may lie an entry with a number that no inode has, for a name that is not in
the first block of its directory. -/
theorem wp_searchFile_decoy (hv : FileTree v dirs parent rank) (hp : ProperPath p)
    (hzero : (0 : UInt8) ∉ p) (hroot : isRootPath p = false)
    (hsplit : components p = pre ++ c :: post) (hpre : Descends v pre d)
    (hfirst : FirstBlocks v pre) (hdeep : ¬FirstBlockHas v (v.inodeNo d) c) :
    wp noStop (decoy ⟨c, 4096, FileType.regular⟩) (searchFile p) (fun r x => r.1 = some 4096 ∧
      Holding v x r.2.parentDir ∧ Handle v x d r.2.parentDir) v := by
  have hmem : c ∈ components p := by simp [hsplit]
  obtain ⟨hc, -, hsub⟩ := mem_components hmem
  have hvalid : ValidName c := ⟨hp.short c hmem, fun h0 => hzero (hsub _ h0)⟩
  have hd := hpre.mem hv.toDirTree
  have hmis : Misleads (decoy ⟨c, 4096, FileType.regular⟩) ⟨c, 4096, FileType.regular⟩ :=
    misleads_decoy ⟨hvalid, by norm_num, (by decide : FileType.regular < 2 ^ 32)⟩
  have hlen := pathLength_absolute hp.absolute
  have hlt := hp.length_lt
  rw [hsplit, pathLength_append] at hlen
  apply wp_searchFile_descends hv.toDirTree (supplied hmis.memory) ⟨hp.absolute, hroot⟩ hlt
    hzero hsplit hpre hfirst
  · rintro ⟨t, ht⟩
    cases ht
  · intro next record parentIno deIno x _ _ hx
    have hname : next.1 = c := hx.ahead.name
    have hcs : pathLength pre < 512 := by omega
    unfold searchLoop
    rw [hname, if_neg hc, wp_assert_pos (by rw [hx.path, length_joined]; exact hcs)]
    apply wp_call (wp_searchDirEntry_misled hmis hv.toDirTree hd hvalid hc hdeep hx)
    rintro r y ⟨rfl, de, rfl, htype, hino⟩
    dsimp only
    rw [if_neg (by rw [htype]; exact directory_ne_regular.symm), if_pos htype]
    apply wp_pure.mpr
    rw [hino]
    exact ⟨rfl, hx.held, hx.handle⟩

theorem firstBlocks_of_resolves (hv : FileTree v dirs parent rank) (hp : ProperPath p)
    (hzero : (0 : UInt8) ∉ p) (hroot : isRootPath p = false) (h : Resolves v p) :
    FirstBlocks v (components p) := by
  by_contra hnot
  obtain ⟨pre, c, post, d, hsplit, hpre, hfirst, hdeep⟩ := exists_deep hnot
  have hfound := wp_searchFile_decoy hv hp hzero hroot hsplit hpre hfirst hdeep
  obtain ⟨r, x, hr, hino, -⟩ := Resolved.of_wp h (fun _ => rfl) hfound
  exact absurd (hr.lt hv 4096 hino) (by norm_num)

/-- Names in first blocks lead on, until one of them is a regular file. -/
theorem descends_or_file (hv : FileTree v dirs parent rank) (hfirst : FirstBlocks v cs) :
    ∀ {rest}, cs = pre ++ rest → rest ≠ [] → (∃ d, Descends v pre d) ∨
      ∃ pre' de post d, cs = pre' ++ de.fileName :: post ∧ post ≠ [] ∧ Descends v pre' d ∧
        v.HasEntry d de ∧ de.fileType = FileType.regular := by
  induction pre using List.reverseRecOn with
  | nil => exact fun _ _ => Or.inl ⟨0, .root⟩
  | append_singleton pre c ih =>
    intro rest hsplit hne
    have hcut : cs = pre ++ c :: rest := by rw [hsplit]; simp
    rcases ih hcut (List.cons_ne_nil _ _) with ⟨d, hd⟩ | hfile
    · obtain ⟨-, j, hj, ⟨de, hde, rfl⟩, -⟩ := hfirst pre c rest d hcut hd
      have hentry : v.HasEntry d de := ⟨0, by norm_num, j, hj, hde⟩
      rcases hv.kind d (hd.mem hv.toDirTree) de hentry with hdir | hfile
      · exact Or.inl ⟨de.ino, hd.down (hasDir_iff.mpr ⟨de, hentry, rfl, hdir, rfl⟩)⟩
      · exact Or.inr ⟨pre, de, rest, d, hcut, hne, hd, hentry, hfile⟩
    · exact Or.inr hfile

/-- The search returns the number of a regular file that the path goes through. -/
theorem descends_of_resolves (hv : FileTree v dirs parent rank) (hp : ProperPath p)
    (hzero : (0 : UInt8) ∉ p) (hroot : isRootPath p = false) (h : Resolves v p)
    (hne : components p ≠ []) (hfirst : FirstBlocks v (components p)) :
    ∃ d, Descends v (components p).dropLast d := by
  rcases descends_or_file hv hfirst (List.dropLast_append_getLast hne).symm (List.cons_ne_nil _ _)
    with hd | ⟨pre, de, post, d, hsplit, hpost, hd, hentry, hfile⟩
  · exact hd
  exfalso
  have hmem := hd.mem hv.toDirTree
  have he : ∀ t, (wordHeap 0).sysMalloc t = true := fun _ => rfl
  obtain ⟨hc, -, hsub⟩ := mem_components (show de.fileName ∈ components p by simp [hsplit])
  have hlen := pathLength_absolute hp.absolute
  have hlt := hp.length_lt
  rw [hsplit, pathLength_append] at hlen
  have hfound : wp noStop (wordHeap 0) (searchFile p) (fun r _ => r.1 = some de.ino) v := by
    apply wp_searchFile_descends hv.toDirTree (supplied he) ⟨hp.absolute, hroot⟩ hlt hzero hsplit hd
    · intro pre' b post' d₀ hpre hd₀
      exact hfirst pre' b (post' ++ de.fileName :: post) d₀ (by rw [hsplit, hpre]; simp) hd₀
    · rintro ⟨t, ht⟩
      cases ht
    · intro next record parentIno deIno x _ _ hx
      apply wp_mono (wp_searchLoop_file hv he hmem hentry hfile (hfirst pre _ post d hsplit hd) hc
        (fun h0 => hzero (hsub _ h0)) (by omega) hx)
      exact fun _ _ hr => hr.1
  obtain ⟨r, x, hr, hino⟩ := Resolved.of_wp h he hfound
  obtain ⟨o, last, hwalk, hino', -⟩ := hr.walk hne
  rw [hsplit] at hwalk
  have hnone := (hwalk.after hv.toDirTree hd (List.cons_ne_nil _ _)).eq_none hv.toDirTree hmem
    hentry hfile hpost
  rw [hino', hnone] at hino
  cases hino

/-- Whatever lies in memory, a path is resolved name by name exactly when it is straight. -/
theorem resolution_law (hv : FileTree v dirs parent rank) (hp : ProperPath p)
    (hzero : (0 : UInt8) ∉ p) : Resolves v p ↔ Straight v p := by
  refine ⟨fun h => ?_, resolves_of_straight hv hp hzero⟩
  by_cases hroot : isRootPath p = true
  · exact Or.inl hroot
  have hfalse : isRootPath p = false := by simpa using hroot
  have hne := components_of_resolves hv hp hfalse h
  have hfirst := firstBlocks_of_resolves hv hp hzero hfalse h
  exact Or.inr ⟨hne, hfirst, descends_of_resolves hv hp hzero hfalse h hne hfirst⟩

end Law

section Sample

theorem treeVolume_files : FileTree treeVolume {d | d ≤ 2} (fun _ => 0)
    (fun d => if d = 0 then 0 else 1) := by
  have hall : ∀ d ≤ 2, ∀ de ∈ treeEntries d,
      de.fileType = FileType.directory ∧ de.ino < 4096 := by decide
  refine ⟨treeVolume_tree, ?_, ?_⟩
  · rintro d hd de ⟨k, -, j, -, hde⟩
    exact Or.inl (hall d hd de (treeVolume_entry hd hde).2).1
  · rintro d hd de ⟨k, -, j, -, hde⟩
    exact (hall d hd de (treeVolume_entry hd hde).2).2

/-- The path `"//b/"` is resolved on every machine. -/
theorem resolution_law_sample : Resolves treeVolume [47, 47, 98, 47] := by
  have hentry : treeVolume.entryAt (treeVolume.inodeNo 0) 0 2 =
      some ⟨[98], 1, FileType.directory⟩ := by
    rw [entryAt_eq_some, slot_treeVolume, treeVolume_blockAt (by norm_num)]
    exact ⟨by decide, rfl, (by decide : FileType.directory ≠ FileType.unknown)⟩
  have hslots : ∀ j < 2, ((treeBlock 675).getD j DirEntry.empty).fileName ≠ [98] := by decide
  have hhas : FirstBlockHas treeVolume (treeVolume.inodeNo 0) [98] := by
    refine ⟨by decide, 2, by norm_num, ⟨_, hentry, rfl⟩, fun j hj => ?_⟩
    rw [slot_treeVolume, treeVolume_blockAt (by norm_num)]
    exact hslots j hj
  refine (resolution_law treeVolume_files ⟨rfl, by decide, by decide⟩ (by decide)).mpr
    (Or.inr ⟨by decide, ?_, 0, .root⟩)
  intro pre c post d hsplit hd
  have hone : components [47, 47, 98, 47] = [[98]] := by decide
  rw [hone] at hsplit
  cases pre with
  | nil =>
    obtain ⟨rfl, -⟩ := List.cons.inj hsplit
    rw [hd.eq_zero]
    exact hhas
  | cons b pre => simp at hsplit

/-- The path `"//"` has no name. The search returns the word that lies on the stack. -/
theorem resolution_law_fails : FileTree treeVolume {d | d ≤ 2} (fun _ => 0)
      (fun d => if d = 0 then 0 else 1) ∧ ProperPath [47, 47] ∧
    (searchFile [47, 47] (wordHeap 5) 0 treeVolume).value.map Prod.fst = some (some 5) ∧
      ¬Resolves treeVolume [47, 47] := by
  have hp : ProperPath [47, 47] := ⟨rfl, by decide, by decide⟩
  refine ⟨treeVolume_files, hp, by decide +kernel, fun h => ?_⟩
  exact components_of_resolves treeVolume_files hp (by decide) h (by decide)

end Sample

end Gogoos
