import Gogoos.Fs.Cwd
import Gogoos.Fs.Lookup
import Gogoos.Fs.PathGuide
import Gogoos.Kernel.PathCalls

/-!
# The way back to the root

What `sysGetCwd` finds on its way up from a directory of the tree, and where a search for a path
ends up.
-/

namespace Gogoos

open Program

variable {e : Heap} {α : Type} {u v w : Volume} {i i' : Inode} {d d' ino : ℕ} {dir : Dir}
  {name c p path : List UInt8} {cs : List (List UInt8)} {dirs : Set ℕ} {parent rank : ℕ → ℕ}
  {de : DirEntry}

section Views

theorem SameVolume.sameDisk (h : SameVolume v w) : SameDisk v w := by
  refine ⟨by rw [h.rest], by rw [h.rest], fun hl => ?_⟩
  exact hl.congr (by rw [h.rest]) (by rw [h.rest]) (by rw [h.rest]) (by rw [h.rest])
    (by rw [h.rest])

theorem SameVolume.findOpen (h : SameVolume v w) (hv : Steady v) :
    w.findOpen ino = v.findOpen ino := by
  unfold Volume.findOpen
  rw [h.openInodes]
  apply List.find?_congr
  intro p hp
  rw [h.inodes p (hv.fresh p hp)]

theorem findOpen_mem {p : ℕ} (h : v.findOpen ino = some p) : p ∈ v.openInodes :=
  List.mem_of_find?_eq_some h

theorem blockAt_of_disk (hdisk : w.disk = v.disk) (hblock : i'.block = i.block) :
    w.blockAt i' = v.blockAt i := by
  unfold Volume.blockAt
  rw [hdisk, hblock]

theorem entryAt_of_disk (hdisk : w.disk = v.disk) (hblock : i'.block = i.block) :
    w.entryAt i' = v.entryAt i := by
  unfold Volume.entryAt
  rw [blockAt_of_disk hdisk hblock, hdisk]

theorem closeInode_disk (q : ℕ) : (w.closeInode q).disk = w.disk := by rw [closeInode_rest]

theorem closeInode_superBlock (q : ℕ) : (w.closeInode q).superBlock = w.superBlock := by
  rw [closeInode_rest]

/-- `inodeOpen` has made the inode of this number available at `q`. -/
structure Opened (v w : Volume) (d q : ℕ) : Prop where
  close : SameVolume v (w.closeInode q)
  lt : q < w.nextInode
  block : (w.inodes q).block = (v.inodeNo d).block
  ino : (w.inodes q).ino = (v.inodeNo d).ino
  size : (w.inodes q).size = (v.inodeNo d).size
  reuse : ∀ p, v.findOpen d = some p → q = p
  found : (w.inodes q).ino = d → w.findOpen d = some q

theorem Opened.disk {q : ℕ} (h : Opened v w d q) : w.disk = v.disk := by
  rw [← closeInode_disk q, h.close.rest]

theorem Opened.superBlock {q : ℕ} (h : Opened v w d q) : w.superBlock = v.superBlock := by
  rw [← closeInode_superBlock q, h.close.rest]

/-- The inode that `inodeOpen` returns is the first of its number. -/
theorem wp_inodeOpen_first : wp anyStop e (inodeOpen d)
    (fun q w => (w.inodes q).ino = d → w.findOpen d = some q) v := by
  unfold inodeOpen
  rw [wp_get_bind]
  cases hopen : v.findOpen d with
  | some q =>
    refine wp_modifyInode_bind.mpr (wp_pure.mpr fun _ => ?_)
    have hno : ∀ p, ((v.setInode q fun i => { i with openCnt := i.openCnt + 1 }).inodes p).ino =
        (v.inodes p).ino := by
      intro p
      by_cases hp : p = q
      · simp [hp]
      · simp [hp]
    rw [← hopen]
    unfold Volume.findOpen
    simp only [hno]
    rfl
  | none =>
    unfold inodeLocate
    simp only [wp_bind_assoc, wp_assert_bind, wp_get_bind, wp_pure_bind]
    refine ⟨fun _ => ?_, fun _ => trivial⟩
    apply wp_sysMallocUnchecked_bind trivial
    apply wp_sysMallocUnchecked_bind trivial
    apply wp_ideRead_of trivial
    unfold newInode
    simp only [wp_bind_assoc, wp_get_bind, wp_modify_bind, wp_pure_bind, wp_pure]
    intro hino
    exact List.find?_cons_of_pos (decide_eq_true hino)

theorem wp_inodeOpen_tree (hl : Layout v) (hv : Steady v) (hd : d < 4096) (hs : SameVolume v u) :
    wp anyStop e (inodeOpen d) (fun q w => Opened v w d q) u := by
  have hfind : u.findOpen d = v.findOpen d := hs.findOpen hv
  have hview : wp anyStop e (inodeOpen d)
      (fun q w => (w.inodes q).block = (v.inodeNo d).block ∧
        (w.inodes q).ino = (v.inodeNo d).ino ∧ (w.inodes q).size = (v.inodeNo d).size ∧
          ∀ p, v.findOpen d = some p → q = p) u := by
    cases hopen : v.findOpen d with
    | some q =>
      have hno : v.inodeNo d = v.inodes q := by
        unfold Volume.inodeNo
        rw [hopen]
      have hat : u.inodes q = v.inodes q := hs.inodes q (hv.fresh q (findOpen_mem hopen))
      apply wp_mono (wp_inodeOpen_found (hfind.trans hopen))
      rintro q' w ⟨rfl, hw⟩
      rw [hw, hno, hat]
      exact ⟨rfl, rfl, rfl, fun p hp => Option.some.inj hp⟩
    | none =>
      have hno : v.inodeNo d = v.record d := by
        unfold Volume.inodeNo
        rw [hopen]
      apply wp_mono (wp_inodeOpen_record (hs.sameDisk.layout hl) hd (hfind.trans hopen)
        (.inl trivial))
      intro q w hw
      rw [hw, hno, hs.sameDisk.record]
      exact ⟨rfl, rfl, rfl, fun p hp => nomatch hp⟩
  apply wp_mono (wp_and (wp_and (wp_inodeOpen_holding (hs.steady hv)) hview) wp_inodeOpen_first)
  rintro q w ⟨⟨⟨hclose, hlt⟩, hblock, hino, hsize, hreuse⟩, hfirst⟩
  exact ⟨hs.trans hclose, hlt, hblock, hino, hsize, hreuse, hfirst⟩

/-- With memory at hand it returns. -/
theorem wp_inodeOpen_tree_granted (hl : Layout v) (hv : Steady v) (hd : d < 4096)
    (hs : SameVolume v u) (he : ∀ t, e.sysMalloc t = true) :
    wp noStop e (inodeOpen d) (fun q w => Opened v w d q) u := by
  apply wp_mono (wp_and (wp_inodeOpen_granted hs.sameDisk hl he hd)
    (wp_inodeOpen_tree hl hv hd hs))
  exact fun q w h => h.2

theorem wp_inodeClose_opened {q : ℕ} (h : Opened v w d q) :
    wp noStop e (inodeClose q) (fun _ x => SameVolume v x) w := by
  apply wp_mono (wp_and (wp_dirClose_any ⟨false, q⟩)
    (wp_inodeClose_eq (Q := fun _ x => SameVolume v x) h.close))
  exact fun _ x hx => hx.2

end Views

section Entries

variable {k j : ℕ}

/-- The directory `d` has this entry. -/
def Volume.HasEntry (v : Volume) (d : ℕ) (de : DirEntry) : Prop :=
  ∃ k < 140, ∃ j < 21, v.entryAt (v.inodeNo d) k j = some de

theorem hasDir_iff : v.HasDir d c d' ↔ ∃ de, v.HasEntry d de ∧ de.fileName = c ∧
    de.fileType = FileType.directory ∧ de.ino = d' := by
  constructor
  · rintro ⟨k, hk, j, hj, de, hde, hdir⟩
    exact ⟨de, ⟨k, hk, j, hj, hde⟩, hdir⟩
  · rintro ⟨de, ⟨k, hk, j, hj, hde⟩, hdir⟩
    exact ⟨k, hk, j, hj, de, hde, hdir⟩

/-- An entry is known by its name. -/
theorem DirTree.entry_unique {de' : DirEntry} (hv : DirTree v dirs parent rank) (hd : d ∈ dirs)
    (h : v.HasEntry d de) (h' : v.HasEntry d de') (hname : de.fileName = de'.fileName) :
    de = de' := by
  obtain ⟨k, hk, j, hj, hde⟩ := h
  obtain ⟨k', hk', j', hj', hde'⟩ := h'
  exact hv.name d hd k hk j hj k' hk' j' hj' de de' hde hde' hname

theorem DirTree.blockAt_zero (hv : DirTree v dirs parent rank) (hd : d ∈ dirs) :
    v.blockAt (v.inodeNo d) 0 ≠ 0 := by
  have hdata := hv.layout.data_start
  have hfirst := hv.first d hd
  rw [blockAt_direct v _ (by norm_num)]
  omega

theorem DirTree.blockAt_lt (hv : DirTree v dirs parent rank) (hd : d ∈ dirs) (hk : k < 140) :
    v.blockAt (v.inodeNo d) k < maxLba := by
  have hbelow := hv.below d hd k
  rwa [ref_of_lt hk] at hbelow

theorem DirTree.entry_dot (hv : DirTree v dirs parent rank) (hd : d ∈ dirs) :
    v.entryAt (v.inodeNo d) 0 0 = some ⟨dotName, d, FileType.directory⟩ := by
  rw [entryAt_eq_some]
  refine ⟨hv.blockAt_zero hd, ?_, (by decide : FileType.directory ≠ FileType.unknown)⟩
  rw [blockAt_direct v _ (by norm_num)]
  exact hv.dot d hd

theorem DirTree.entry_dotDot (hv : DirTree v dirs parent rank) (hd : d ∈ dirs) :
    v.entryAt (v.inodeNo d) 0 1 = some ⟨dotDotName, parent d, FileType.directory⟩ := by
  rw [entryAt_eq_some]
  refine ⟨hv.blockAt_zero hd, ?_, (by decide : FileType.directory ≠ FileType.unknown)⟩
  rw [blockAt_direct v _ (by norm_num)]
  exact hv.dotDot d hd

/-- What a directory names as a directory is one of the tree. -/
theorem DirTree.hasDir_mem (hv : DirTree v dirs parent rank) (hd : d ∈ dirs)
    (hdir : v.HasDir d c d') : d' ∈ dirs := by
  obtain ⟨de, hde, hname, -, hnum⟩ := hasDir_iff.mp hdir
  by_cases hdot : c = dotName
  · have hsame := hv.entry_unique hd hde ⟨0, by norm_num, 0, by norm_num, hv.entry_dot hd⟩
      (hname.trans hdot)
    rw [← hnum, hsame]
    exact hd
  by_cases hdotDot : c = dotDotName
  · have hsame := hv.entry_unique hd hde ⟨0, by norm_num, 1, by norm_num, hv.entry_dotDot hd⟩
      (hname.trans hdotDot)
    rw [← hnum, hsame]
    exact hv.parent_mem d hd
  · exact (hv.child d hd c d' ⟨hdot, hdotDot⟩ hdir).1

/-- Every slot with the number of a child has the child's name. -/
theorem DirTree.slot_child (hv : DirTree v dirs parent rank) (hd : d ∈ dirs) (hc : Ordinary c)
    (hdir : v.HasDir d c d') (hk : k < 140) (hj : j < 21) (h0 : v.blockAt (v.inodeNo d) k ≠ 0)
    (hino : (slot (v.disk (v.blockAt (v.inodeNo d) k)) j).ino = d') :
    (slot (v.disk (v.blockAt (v.inodeNo d) k)) j).fileName = c := by
  obtain ⟨hmem, hne, hparent⟩ := hv.child d hd c d' hc hdir
  obtain ⟨k', hk', j', hj', de, hde, hname, htype, hnum⟩ := hdir
  have hrank := hv.rank d' hmem hne
  rw [hparent] at hrank
  by_cases hfree : (slot (v.disk (v.blockAt (v.inodeNo d) k)) j).fileType = FileType.unknown
  · rw [hv.free d hd k hk j hj h0 hfree] at hino
    exact absurd hino.symm hne
  have hentry : v.entryAt (v.inodeNo d) k j =
      some (slot (v.disk (v.blockAt (v.inodeNo d) k)) j) := entryAt_eq_some.mpr ⟨h0, rfl, hfree⟩
  set s := slot (v.disk (v.blockAt (v.inodeNo d) k)) j
  have hdot : s.fileName ≠ dotName := by
    intro hs
    have hsame := hv.name d hd k hk j hj 0 (by norm_num) 0 (by norm_num) s _ hentry
      (hv.entry_dot hd) hs
    rw [hsame] at hino
    have hself : d = d' := hino
    rw [hself] at hrank
    omega
  have hdotDot : s.fileName ≠ dotDotName := by
    intro hs
    have hsame := hv.name d hd k hk j hj 0 (by norm_num) 1 (by norm_num) s _ hentry
      (hv.entry_dotDot hd) hs
    rw [hsame] at hino
    have hup : parent d = d' := hino
    by_cases hzero : d = 0
    · rw [hzero, hv.root.2] at hup
      exact hne hup.symm
    · have hrank' := hv.rank d hd hzero
      rw [hup] at hrank'
      omega
  have hord : Ordinary de.fileName := by
    rw [hname]
    exact hc
  have hsame := hv.ino d hd k hk j hj k' hk' j' hj' s de hentry hde ⟨hdot, hdotDot⟩ hord
    (hino.trans hnum.symm)
  rw [hsame, hname]

theorem Descends.mem (hv : DirTree v dirs parent rank) (h : Descends v cs d) : d ∈ dirs := by
  induction h with
  | root => exact hv.root.1
  | down h hc ih => exact hv.hasDir_mem ih hc

end Entries

section Up

theorem childSlots_some {b : ℕ → UInt8} : ∀ {cnt idx j}, childSlots b d cnt idx = some j →
    idx ≤ j ∧ j < idx + cnt ∧ (slot b j).ino = d := by
  intro cnt
  induction cnt with
  | zero =>
    intro idx j h
    cases h
  | succ cnt ih =>
    intro idx j h
    unfold childSlots at h
    split_ifs at h with hino
    · cases h
      exact ⟨le_rfl, by omega, hino⟩
    · obtain ⟨h1, h2, h3⟩ := ih h
      exact ⟨by omega, by omega, h3⟩

theorem childSlots_none {b : ℕ → UInt8} : ∀ {cnt idx}, childSlots b d cnt idx = none →
    ∀ j, idx ≤ j → j < idx + cnt → (slot b j).ino ≠ d := by
  intro cnt
  induction cnt with
  | zero =>
    intro idx _ j h1 h2
    omega
  | succ cnt ih =>
    intro idx h j h1 h2
    unfold childSlots at h
    split_ifs at h with hino
    by_cases hj : j = idx
    · subst hj
      exact hino
    · exact ih h j (by omega) (by omega)

/-- The scan of the blocks finds the name of a child. -/
theorem wp_childBlocks (hv : DirTree v dirs parent rank) (hd : d ∈ dirs) (hc : Ordinary c)
    (hdir : v.HasDir d c d') (hdisk : u.disk = v.disk) : ∀ cnt blockIdx, blockIdx + cnt ≤ 140 →
      (∃ k j, blockIdx ≤ k ∧ k < blockIdx + cnt ∧ j < 21 ∧ v.blockAt (v.inodeNo d) k ≠ 0 ∧
        (slot (v.disk (v.blockAt (v.inodeNo d) k)) j).ino = d') →
      wp noStop e (childBlocks (v.blockAt (v.inodeNo d)) 24 d' path cnt blockIdx)
        (fun r w => r = some (path ++ slash :: c) ∧ w = u) u := by
  intro cnt
  induction cnt with
  | zero =>
    rintro blockIdx _ ⟨k, j, h1, h2, -⟩
    omega
  | succ cnt ih =>
    rintro blockIdx hle ⟨k, j, h1, h2, hj, h0, hino⟩
    unfold childBlocks
    by_cases hblock : v.blockAt (v.inodeNo d) blockIdx = 0
    · rw [if_pos hblock]
      have hne : k ≠ blockIdx := by
        rintro rfl
        exact h0 hblock
      exact ih _ (by omega) ⟨k, j, by omega, by omega, hj, h0, hino⟩
    · rw [if_neg hblock]
      apply wp_ideRead_total (hv.blockAt_lt hd (by omega)) (by norm_num) (by norm_num)
      have hslot : ∀ j < 21, slot (u.sector (v.blockAt (v.inodeNo d) blockIdx)) j =
          slot (v.disk (v.blockAt (v.inodeNo d) blockIdx)) j := by
        intro j hj
        rw [← hdisk]
        exact slot_congr hj fun i hi => sector_apply u _ hi
      cases hscan : childSlots (u.sector (v.blockAt (v.inodeNo d) blockIdx)) d' (512 / 24) 0 with
      | some j' =>
        obtain ⟨-, hlt, hat⟩ := childSlots_some hscan
        have hj' : j' < 21 := by omega
        rw [hslot j' hj'] at hat
        have hname := hv.slot_child hd hc hdir (by omega) hj' hblock hat
        rw [← hslot j' hj'] at hname
        apply wp_pure.mpr
        exact ⟨congrArg (fun n => some (path ++ slash :: n)) hname, rfl⟩
      | none =>
        have hne : k ≠ blockIdx := by
          rintro rfl
          have hmiss := childSlots_none hscan j (Nat.zero_le _) (by omega)
          rw [hslot j hj] at hmiss
          exact hmiss hino
        exact ih _ (by omega) ⟨k, j, by omega, by omega, hj, h0, hino⟩

theorem wp_getParentDirIno (hv : DirTree v dirs parent rank) (hd : d ∈ dirs)
    (hs : SameVolume v u) (he : ∀ t, e.sysMalloc t = true) :
    wp noStop e (getParentDirIno d) (fun q w => q = parent d ∧ SameVolume v w) u := by
  have hlt := (hv.number d hd).1
  have hfirst := hv.first d hd
  unfold getParentDirIno
  apply wp_call (wp_inodeOpen_tree_granted hv.layout hv.steady hlt hs he)
  intro q w hw
  rw [wp_get_bind]
  have hblock : (w.inodes q).block 0 = (v.inodeNo d).block 0 := by rw [hw.block]
  rw [hblock, hw.superBlock, wp_assert_pos hfirst]
  apply wp_call (wp_inodeClose_opened hw)
  intro _ x hx
  have hbelow := hv.blockAt_lt hd (show 0 < 140 by norm_num)
  rw [blockAt_direct v _ (by norm_num)] at hbelow
  apply wp_ideRead_total hbelow (by norm_num) (by norm_num)
  have hslot : DirEntry.ofBytes (x.sector ((v.inodeNo d).block 0)) 24 =
      ⟨dotDotName, parent d, FileType.directory⟩ := by
    rw [← hv.dotDot d hd, ← hx.sameDisk.disk]
    exact slot_congr (show 1 < 21 by norm_num) fun i hi => sector_apply x _ hi
  rw [hslot]
  have hparent := (hv.number _ (hv.parent_mem d hd)).1
  rw [wp_assert_pos ⟨hparent, rfl⟩]
  exact wp_pure.mpr ⟨rfl, hx⟩

theorem wp_getChildDirName (hv : DirTree v dirs parent rank) (hd : d ∈ dirs) (hc : Ordinary c)
    (hdir : v.HasDir d c d') (hs : SameVolume v u) (he : ∀ t, e.sysMalloc t = true) :
    wp noStop e (getChildDirName d d' path)
      (fun r w => r = some (path ++ slash :: c) ∧ SameVolume v w) u := by
  have hlt := (hv.number d hd).1
  unfold getChildDirName sysMalloc
  apply wp_call (wp_inodeOpen_tree_granted hv.layout hv.steady hlt hs he)
  intro q w hw
  apply wp_ask_bind
  intro t
  rw [he t, if_neg (by decide), wp_get_bind, wp_loadAllBlocks_bind]
  have htable : (v.inodeNo d).block 12 < maxLba := by
    have hbelow := hv.below d hd 140
    rwa [ref_table] at hbelow
  have h12 : (w.inodes q).block 12 = (v.inodeNo d).block 12 := by rw [hw.block]
  rw [h12]
  refine ⟨fun _ => ?_, fun hnot => absurd (.inl htable) hnot⟩
  rw [blockAt_of_disk hw.disk hw.block, hw.superBlock, hv.layout.dirEntrySize]
  apply wp_call (wp_inodeClose_opened hw)
  intro _ x hx
  have hchild := hdir
  obtain ⟨k, hk, j, hj, de, hde, -, -, hnum⟩ := hchild
  obtain ⟨h0, hslot, -⟩ := entryAt_eq_some.mp hde
  have hino : (slot (v.disk (v.blockAt (v.inodeNo d) k)) j).ino = d' := by rw [hslot, hnum]
  apply wp_mono (wp_childBlocks hv hd hc hdir hx.sameDisk.disk _ 0 ?_ ?_)
  · rintro r y ⟨hr, rfl⟩
    exact ⟨hr, hx⟩
  · split_ifs <;> omega
  · refine ⟨k, j, Nat.zero_le _, ?_, hj, h0, hino⟩
    split_ifs with hnone
    · omega
    · by_contra hge
      exact h0 (blockAt_noTable v (not_not.mp hnone) (by omega))

/-- The loop goes up the path, name by name. -/
theorem wp_cwdLoop (hv : DirTree v dirs parent rank) (he : ∀ t, e.sysMalloc t = true)
    (h : Descends v cs d) : ∀ fuel path u, (∀ c ∈ cs, Ordinary c) → SameVolume v u →
      cs.length < fuel → wp noStop e (cwdLoop fuel d path)
        (fun r _ => r = some (path ++ joined cs.reverse)) u := by
  induction h with
  | root =>
    intro fuel path u _ _ hlen
    obtain ⟨fuel, rfl⟩ := Nat.exists_eq_succ_of_ne_zero (show fuel ≠ 0 by omega)
    unfold cwdLoop
    rw [if_pos rfl, wp_pure]
    simp [joined]
  | @down cs c d d' h hc ih =>
    intro fuel path u hord hs hlen
    rw [List.length_append, List.length_singleton] at hlen
    obtain ⟨fuel, rfl⟩ := Nat.exists_eq_succ_of_ne_zero (show fuel ≠ 0 by omega)
    have hcs : ∀ b ∈ cs, Ordinary b := fun b hb => hord b (by simp [hb])
    have hd := h.mem hv
    obtain ⟨hmem, hne, hparent⟩ := hv.child d hd c d' (hord c (by simp)) hc
    unfold cwdLoop
    rw [if_neg hne]
    apply wp_call (wp_getParentDirIno hv hmem hs he)
    rintro q w ⟨rfl, hw⟩
    rw [hparent]
    apply wp_call (wp_getChildDirName hv hd (hord c (by simp)) hc hw he)
    rintro r x ⟨rfl, hx⟩
    apply wp_mono (ih fuel (path ++ slash :: c) x hcs hx (by omega))
    rintro r y rfl
    rw [List.append_assoc, List.reverse_append, List.reverse_singleton, List.singleton_append,
      joined_cons]
    rfl

end Up

section Down

variable {stop : Volume → Prop} {next : List UInt8 × Option (List UInt8)}
  {record : PathSearchRecord} {pre : List (List UInt8)}

/-- The program may stop, or the machine has memory. -/
def Supplied (stop : Volume → Prop) (e : Heap) : Prop := (∀ x, stop x) ∨ ∀ t, e.sysMalloc t = true

theorem wp_sysMallocUnchecked_supplied {f : Unit → VolM α} {Q : α → Volume → Prop}
    (he : Supplied stop e) (h : wp stop e (f ()) Q v) :
    wp stop e (sysMallocUnchecked >>= f) Q v := by
  rcases he with hstop | hmem
  · exact wp_sysMallocUnchecked_bind (hstop v) h
  · unfold sysMallocUnchecked sysMalloc
    rw [wp_bind_assoc]
    apply wp_ask_bind
    intro t
    rw [wp_assert_pos (hmem t)]
    exact h

theorem wp_inodeOpen_supplied (hl : Layout v) (hv : Steady v) (hd : d < 4096) (hs : SameVolume v u)
    (he : Supplied stop e) : wp stop e (inodeOpen d) (fun q w => Opened v w d q) u := by
  rcases he with hstop | hmem
  · exact wp_stop_mono (wp_inodeOpen_tree hl hv hd hs) fun x _ => hstop x
  · exact wp_stop_mono (wp_inodeOpen_tree_granted hl hv hd hs hmem) fun _ hx => False.elim hx

theorem wp_dirClose_total {Q : Unit → Volume → Prop} (h : Q () (w.closeDir dir)) :
    wp stop e (dirClose dir) Q w := by
  apply wp_stop_mono (wp_mono (wp_and (wp_dirClose_any dir) (wp_dirClose_eq h)) ?_)
  · exact fun _ hx => False.elim hx
  · exact fun _ _ hx => hx.2

theorem firstBlockHas_of_disk (hdisk : w.disk = v.disk) (hblock : i'.block = i.block)
    (h : FirstBlockHas v i c) : FirstBlockHas w i' c := by
  unfold FirstBlockHas
  rw [entryAt_of_disk hdisk hblock, blockAt_of_disk hdisk hblock, hdisk]
  exact h

/-- A search in the directory `d`, with these names before it and those behind it. -/
structure SearchAt (v w : Volume) (d : ℕ) (next : List UInt8 × Option (List UInt8))
    (pre cs : List (List UInt8)) (record : PathSearchRecord) : Prop where
  ahead : Ahead next cs
  held : Holding v w record.parentDir
  block : (w.inodes record.parentDir.inode).block = (v.inodeNo d).block
  ino : (w.inodes record.parentDir.inode).ino = d
  size : (w.inodes record.parentDir.inode).size = (v.inodeNo d).size
  reuse : ∀ p, v.findOpen d = some p → record.parentDir.inode = p
  path : record.searchPath = joined pre

/-- The search of a directory that has the name in its first block. -/
theorem wp_searchDirEntry_first (hv : DirTree v dirs parent rank) (hd : d ∈ dirs)
    (hde : v.HasEntry d de) (hfirst : FirstBlockHas v (v.inodeNo d) de.fileName)
    (hzero : (0 : UInt8) ∉ de.fileName) (he : Supplied stop e)
    (h : SearchAt v w d next pre cs record) :
    wp stop e (searchDirEntry record.parentDir de.fileName) (fun r x => x = w ∧
      ((∃ t, e.sysMalloc t = false) ∧ r = none ∨ r = some de)) w := by
  have hdisk := h.held.sameDisk.disk
  have hzero0 := hv.blockAt_zero hd
  have hlt0 := hv.blockAt_lt hd (show 0 < 140 by norm_num)
  have htable := hv.below d hd 140
  rw [← blockAt_of_disk hdisk h.block] at hzero0 hlt0
  rw [ref_table, ← h.block] at htable
  have hexact := wp_searchFirst_exact (e := e) (firstBlockHas_of_disk hdisk h.block hfirst) hzero
    hzero0 hlt0 (by rw [h.held.sameDisk.superBlock]; exact hv.layout.dirEntrySize)
  rw [searchDirEntry_eq]
  unfold searchDirEntryLog sysMalloc
  rw [wp_bind_assoc]
  apply wp_ask_bind
  intro t
  cases ht : e.sysMalloc t with
  | false => exact wp_pure.mpr ⟨rfl, Or.inl ⟨⟨t, ht⟩, rfl⟩⟩
  | true =>
    rw [if_neg (by decide), wp_bind_assoc, wp_get_bind, wp_bind_assoc, wp_loadAllBlocks_bind]
    refine ⟨fun _ => ?_, fun hnot => absurd (.inl htable) hnot⟩
    rw [wp_bind_assoc]
    apply wp_sysMallocUnchecked_supplied he
    apply wp_call (wp_stop_mono hexact fun _ hx => False.elim hx)
    rintro r x ⟨rfl, hr⟩
    apply wp_pure.mpr
    refine ⟨rfl, Or.inr ?_⟩
    have hhas : x.HasName (x.inodes record.parentDir.inode) de.fileName := by
      obtain ⟨k, hk, j, hj, hat⟩ := hde
      refine ⟨k, hk, j, hj, de, ?_, rfl⟩
      rw [entryAt_of_disk hdisk h.block]
      exact hat
    obtain ⟨de', hentry⟩ := Option.ne_none_iff_exists'.mp (hr.found.mpr hhas)
    obtain ⟨hname', k', hk', j', hj', hde'⟩ := hr.copied de' hentry
    rw [entryAt_of_disk hdisk h.block] at hde'
    rw [hv.entry_unique hd hde ⟨k', hk', j', hj', hde'⟩ hname'.symm]
    exact hentry

theorem ahead_pathNext (sub : Option (List UInt8)) : Ahead (pathNext sub) (restOf sub) := by
  cases sub with
  | none => exact ⟨rfl, rfl⟩
  | some p => exact ahead_pathParse

/-- The search goes on into a directory that was found. -/
theorem wp_enter {β : Type} {f : Dir → VolM β} {Q : β → Volume → Prop}
    (hv : DirTree v dirs parent rank) (hd : d ∈ dirs) (he : Supplied stop e)
    (hheld : Holding v w dir)
    (h : ∀ q x, Opened v x d q → wp stop e (f ⟨false, q⟩) Q x) :
    wp stop e (do
      dirClose dir
      let parentDir ← dirOpen d
      f parentDir) Q w := by
  apply wp_bind
  apply wp_dirClose_total
  unfold dirOpen
  rw [wp_bind_assoc]
  apply wp_sysMallocUnchecked_supplied he
  rw [wp_bind_assoc]
  apply wp_call (wp_inodeOpen_supplied hv.layout hv.steady (hv.number d hd).1 hheld.same he)
  intro q x hx
  exact h q x hx

/-- The next round is a search in the directory that was opened. -/
theorem SearchAt.onward {q fileType : ℕ} (hv : DirTree v dirs parent rank) (hmem : d' ∈ dirs)
    (h : SearchAt v w d next pre (c :: cs) record) (hx : Opened v u d' q) :
    SearchAt v u d' (pathNext next.2) (pre ++ [c]) cs
      ⟨record.searchPath ++ slash :: c, ⟨false, q⟩, fileType⟩ := by
  have hnext : restOf next.2 = cs := h.ahead.rest
  constructor
  · exact hnext ▸ ahead_pathNext _
  · exact ⟨hx.close, hx.lt⟩
  · exact hx.block
  · exact hx.ino.trans (hv.number _ hmem).2
  · exact hx.size
  · exact hx.reuse
  · dsimp only
    rw [h.path, joined_append]

/-- One name of the path. -/
theorem wp_searchLoop_down {fuel parentIno deIno : ℕ}
    {Q : Option ℕ × PathSearchRecord → Volume → Prop} (hv : DirTree v dirs parent rank)
    (hd : d ∈ dirs) (hdir : v.HasDir d c d') (hne : c ≠ []) (hzero : (0 : UInt8) ∉ c)
    (hfirst : FirstBlockHas v (v.inodeNo d) c) (he : Supplied stop e)
    (hlen : pathLength pre < 512) (h : SearchAt v w d next pre (c :: cs) record)
    (hnone : (∃ t, e.sysMalloc t = false) → ∀ r x, r.1 = none → Q r x)
    (hrest : ∀ next record x, SearchAt v x d' next (pre ++ [c]) cs record →
      wp stop e (searchLoop fuel next.1 next.2 record d d') Q x) :
    wp stop e (searchLoop (fuel + 1) next.1 next.2 record parentIno deIno) Q w := by
  have hname : next.1 = c := h.ahead.name
  have hmem := hv.hasDir_mem hd hdir
  obtain ⟨de, hde, rfl, htype, rfl⟩ := hasDir_iff.mp hdir
  unfold searchLoop
  rw [hname, if_neg hne, wp_assert_pos (by rw [h.path, length_joined]; exact hlen)]
  apply wp_call (wp_searchDirEntry_first hv hd hde hfirst hzero he h)
  rintro r x ⟨rfl, ⟨ht, rfl⟩ | rfl⟩
  · exact wp_pure.mpr (hnone ht _ _ rfl)
  · dsimp only
    rw [if_pos htype, wp_get_bind, h.ino]
    apply wp_enter hv hmem he h.held
    intro q y hy
    exact hrest (pathNext next.2) _ _ (h.onward hv hmem hy)

/-- All the names: the search arrives at the directory that they lead to. -/
theorem wp_searchLoop_descends {Q : Option ℕ × PathSearchRecord → Volume → Prop}
    {parentIno deIno : ℕ} (hv : DirTree v dirs parent rank) (he : Supplied stop e)
    (hparent : parentIno ∈ dirs) (h : Descends v cs d) :
    ∀ rest fuel next record w, (∀ c ∈ cs, c ≠ [] ∧ (0 : UInt8) ∉ c) →
      pathLength cs < 512 →
      (∀ pre c post d, cs = pre ++ c :: post → Descends v pre d →
        FirstBlockHas v (v.inodeNo d) c) →
      SearchAt v w 0 next [] (cs ++ rest) record →
      ((∃ t, e.sysMalloc t = false) → ∀ r x, r.1 = none → Q r x) →
      (∀ next record parentIno x, parentIno ∈ dirs → SearchAt v x d next cs rest record →
        wp stop e (searchLoop fuel next.1 next.2 record parentIno
          (if cs = [] then deIno else d)) Q x) →
      wp stop e (searchLoop (cs.length + fuel) next.1 next.2 record parentIno deIno) Q w := by
  induction h with
  | root =>
    intro rest fuel next record w _ _ _ hat _ hrest
    rw [List.length_nil, Nat.zero_add]
    exact hrest next record parentIno w hparent hat
  | @down cs c d d' h hdir ih =>
    intro rest fuel next record w hnames hlen hfirst hat hnone hrest
    have hcs : ∀ b ∈ cs, b ≠ [] ∧ (0 : UInt8) ∉ b := fun b hb => hnames b (by simp [hb])
    obtain ⟨hne, hzero⟩ := hnames c (by simp)
    have hd := h.mem hv
    have hfuel : (cs ++ [c]).length + fuel = cs.length + (fuel + 1) := by
      rw [List.length_append, List.length_singleton]
      omega
    have happ : cs ++ [c] ++ rest = cs ++ c :: rest := by simp
    rw [happ] at hat
    rw [if_neg (by simp)] at hrest
    rw [pathLength_append] at hlen
    rw [hfuel]
    apply ih (c :: rest) (fuel + 1) next record w hcs (by omega) ?_ hat hnone
    · intro next' record' parentIno' x _ hx
      exact wp_searchLoop_down hv hd hdir hne hzero (hfirst cs c [] d rfl h) he (by omega) hx
        hnone fun next record x hx => hrest next record d x hd hx
    · intro pre b post d₀ hsplit hpre
      exact hfirst pre b (post ++ [c]) d₀ (by rw [hsplit]; simp) hpre

end Down

end Gogoos
