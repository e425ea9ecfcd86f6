import Gogoos.Fs.Firm
import Gogoos.Kernel.DirHistory

/-!
# Only empty directories are removed

`sysRmdir` takes what the path names for an empty directory when its size is that of two entries,
whatever it is.
-/

namespace Gogoos

open Program

variable {e : Heap} {v w x y : Volume} {d ino j last n p q : ℕ} {path : List UInt8} {dir : Dir}
  {cs : List (List UInt8)} {dirs : Set ℕ} {parent rank : ℕ → ℕ} {de : DirEntry}

section Views

theorem SameVolume.inodeNo (h : SameVolume v w) (hv : Steady v) (d : ℕ) :
    w.inodeNo d = v.inodeNo d := by
  have hfind : w.findOpen d = v.findOpen d := h.findOpen hv
  unfold Volume.inodeNo
  rw [hfind]
  cases hopen : v.findOpen d with
  | none => exact h.sameDisk.record d
  | some p => exact h.inodes p (hv.fresh p (findOpen_mem hopen))

theorem find?_erase {α : Type} [DecidableEq α] {f : α → Bool} {a : α} (ha : f a = false) :
    ∀ l : List α, (l.erase a).find? f = l.find? f := by
  intro l
  induction l with
  | nil => rfl
  | cons b l ih =>
    rw [List.erase_cons]
    split_ifs with hb
    · have hab : b = a := by simpa using hb
      rw [hab, List.find?_cons_of_neg (by simp [ha])]
    · cases hf : f b with
      | true => rw [List.find?_cons_of_pos hf, List.find?_cons_of_pos hf]
      | false => rw [List.find?_cons_of_neg (by simp [hf]), List.find?_cons_of_neg (by simp [hf]), ih]

theorem closeInode_ino : ((v.closeInode q).inodes p).ino = (v.inodes p).ino := by
  rw [closeInode_inodes]
  split_ifs with hp
  · rw [hp]
    rfl
  · rfl

/-- Closing an inode does not matter to the other numbers. -/
theorem closeInode_findOpen (hne : (v.inodes q).ino ≠ d) :
    (v.closeInode q).findOpen d = v.findOpen d := by
  have hpred : (fun p => decide (((v.closeInode q).inodes p).ino = d)) =
      fun p => decide ((v.inodes p).ino = d) := by
    funext p
    rw [closeInode_ino]
  unfold Volume.findOpen
  rw [hpred, closeInode_openInodes]
  split_ifs
  · exact find?_erase (by simpa using hne) _
  · rfl

theorem closeInode_inodeNo (hne : (v.inodes q).ino ≠ d) :
    (v.closeInode q).inodeNo d = v.inodeNo d := by
  have hrecord : (v.closeInode q).record d = v.record d := by
    rw [closeInode_rest]
    rfl
  unfold Volume.inodeNo
  rw [closeInode_findOpen hne]
  cases hopen : v.findOpen d with
  | none => exact hrecord
  | some p =>
    dsimp only
    rw [closeInode_inodes, if_neg]
    rintro rfl
    exact hne (findOpen_ino hopen)

/-- A handle on another directory does not matter either. -/
theorem Holding.findOpen (h : Holding v x dir) (hv : Steady v)
    (hne : (x.inodes dir.inode).ino ≠ d) : x.findOpen d = v.findOpen d := by
  rw [← h.same.findOpen hv]
  unfold Volume.closeDir
  split_ifs
  · rfl
  · exact (closeInode_findOpen hne).symm

theorem Holding.inodeNo (h : Holding v x dir) (hv : Steady v) (hne : (x.inodes dir.inode).ino ≠ d) :
    x.inodeNo d = v.inodeNo d := by
  rw [← h.same.inodeNo hv]
  unfold Volume.closeDir
  split_ifs
  · rfl
  · exact (closeInode_inodeNo hne).symm

/-- The inodes in memory are the same, but for the size of the one at `q`. -/
structure Shrunk (q : ℕ) (v w : Volume) : Prop where
  inodes : ∀ p, w.inodes p =
    if p = q then (v.inodes q).setSize ((v.inodes q).size - 24) else v.inodes p
  openInodes : w.openInodes = v.openInodes

theorem Shrunk.number (h : Shrunk q v w) (p : ℕ) : (w.inodes p).ino = (v.inodes p).ino := by
  rw [h.inodes]
  split_ifs with hp
  · rw [hp]
    rfl
  · rfl

theorem Shrunk.closed (h : Shrunk q v w) (p : ℕ) :
    (w.inodes p).closed.openCnt = (v.inodes p).closed.openCnt := by
  rw [h.inodes]
  split_ifs with hp
  · rw [hp]
    rfl
  · rfl

theorem Shrunk.closeInode (h : Shrunk q v w) (p : ℕ) :
    Shrunk q (v.closeInode p) (w.closeInode p) := by
  constructor
  · intro p'
    by_cases hp : p' = p
    · subst hp
      rw [closeInode_inodes, if_pos rfl, h.inodes]
      by_cases hq : p' = q
      · subst hq
        rw [if_pos rfl, if_pos rfl, closeInode_inodes, if_pos rfl]
        rfl
      · rw [if_neg hq, if_neg hq, closeInode_inodes, if_pos rfl]
    · rw [closeInode_inodes, if_neg hp, h.inodes]
      by_cases hq : p' = q
      · subst hq
        rw [if_pos rfl, if_pos rfl, closeInode_inodes, if_neg hp]
      · rw [if_neg hq, if_neg hq, closeInode_inodes, if_neg hp]
  · rw [closeInode_openInodes, closeInode_openInodes, h.closed, h.openInodes]

theorem Shrunk.closeDir (h : Shrunk q v w) (dir : Dir) : Shrunk q (v.closeDir dir) (w.closeDir dir) := by
  unfold Volume.closeDir
  split_ifs
  · exact h
  · exact h.closeInode _

/-- All but the inodes in memory. -/
structure SameStore (v w : Volume) : Prop where
  disk : w.disk = v.disk
  lbaStart : w.lbaStart = v.lbaStart
  secCnt : w.secCnt = v.secCnt
  superBlock : w.superBlock = v.superBlock
  blockBitMap : w.blockBitMap = v.blockBitMap
  inodeBitMap : w.inodeBitMap = v.inodeBitMap

theorem SameStore.symm (h : SameStore v w) : SameStore w v :=
  ⟨h.disk.symm, h.lbaStart.symm, h.secCnt.symm, h.superBlock.symm, h.blockBitMap.symm,
    h.inodeBitMap.symm⟩

theorem SameStore.trans (h : SameStore v w) (h' : SameStore w x) : SameStore v x :=
  ⟨h'.disk.trans h.disk, h'.lbaStart.trans h.lbaStart, h'.secCnt.trans h.secCnt,
    h'.superBlock.trans h.superBlock, h'.blockBitMap.trans h.blockBitMap,
    h'.inodeBitMap.trans h.inodeBitMap⟩

theorem SameStore.layout (h : SameStore v w) (hl : Layout v) : Layout w :=
  hl.congr h.superBlock h.lbaStart h.secCnt (by rw [h.blockBitMap]) (by rw [h.inodeBitMap])

theorem SameStore.record (h : SameStore v w) (d : ℕ) : w.record d = v.record d := by
  unfold Volume.record Volume.tableByte
  rw [h.disk, h.superBlock]

theorem SameStore.closeInode (v : Volume) (q : ℕ) : SameStore v (v.closeInode q) := by
  rw [closeInode_rest]
  exact ⟨rfl, rfl, rfl, rfl, rfl, rfl⟩

theorem SameStore.closeDir (v : Volume) (dir : Dir) : SameStore v (v.closeDir dir) := by
  unfold Volume.closeDir
  split_ifs
  · exact ⟨rfl, rfl, rfl, rfl, rfl, rfl⟩
  · exact .closeInode _ _

theorem SameVolume.store (h : SameVolume v w) : SameStore v w := by
  rw [h.rest]
  exact ⟨rfl, rfl, rfl, rfl, rfl, rfl⟩

end Views

section Trees

/-- The directory has no entries but `"."` and `".."`. -/
def Volume.Bare (v : Volume) (d : ℕ) : Prop := ∀ de, v.HasEntry d de → ¬Ordinary de.fileName

/-- A tree whose directories have blocks of their own, each with a history of insertions and
deletions that went right. -/
structure TidyTree (v : Volume) (dirs : Set ℕ) (parent rank : ℕ → ℕ) : Prop
    extends FileTree v dirs parent rank where
  lived : ∀ d ∈ dirs, ∃ L, Lived v d L
  file : ∀ d ∈ dirs, ∀ de, v.HasEntry d de → de.fileType = FileType.regular → de.ino ∉ dirs
  own : ∀ d ∈ dirs, ∀ d' ∈ dirs, ∀ k k', v.ref (v.inodeNo d) k = v.ref (v.inodeNo d') k' →
    v.ref (v.inodeNo d) k ≠ 0 → d = d' ∧ k = k'
  rootBlock : (v.inodeNo 0).block 0 = v.superBlock.dataLbaStart
  numbers : ∀ p ∈ v.openInodes, (v.inodes p).ino < 4096

section Lived

theorem dot_ne_dotDot {a b c d : ℕ} : (⟨dotName, a, b⟩ : DirEntry) ≠ ⟨dotDotName, c, d⟩ :=
  fun h => absurd (congrArg DirEntry.fileName h) (show dotName ≠ dotDotName by decide)

variable (hv : TidyTree v dirs parent rank) (hd : d ∈ dirs)
include hv hd

/-- The history of a directory starts with the two entries that it has. -/
theorem TidyTree.tidyDir : ∃ L, TidyDir v (v.inodeNo d) ⟨dotName, d, FileType.directory⟩
    ⟨dotDotName, parent d, FileType.directory⟩ L := by
  obtain ⟨L, hL⟩ := hv.lived d hd
  obtain ⟨dot, dotdot, h⟩ := hL.tidy
  have hdot := (entryAt_eq_some.mp h.slot_dot).2.1
  have hdotdot := (entryAt_eq_some.mp h.slot_dotdot).2.1
  rw [blockAt_direct v _ (by norm_num)] at hdot hdotdot
  rw [hv.dot d hd] at hdot
  rw [hv.dotDot d hd] at hdotdot
  rw [hdot, hdotdot]
  exact ⟨L, h⟩

theorem TidyTree.once {k j k' j' : ℕ} (hk : k < 140) (hj : j < 21) (hk' : k' < 140) (hj' : j' < 21)
    (hat : v.entryAt (v.inodeNo d) k j = some de) (hat' : v.entryAt (v.inodeNo d) k' j' = some de) :
    k = k' ∧ j = j' := by
  obtain ⟨L, h⟩ := hv.tidyDir hd
  exact h.once dot_ne_dotDot hk hj hk' hj' hat hat'

theorem TidyTree.size : 48 ≤ (v.inodeNo d).size ∧ (v.inodeNo d).size < 2 ^ 32 := by
  obtain ⟨L, h⟩ := hv.tidyDir hd
  refine ⟨?_, h.size_lt⟩
  rw [h.isDir.size]
  omega

/-- What a directory holds besides its first two entries has an ordinary name. -/
theorem TidyTree.bare_iff {L : Multiset DirEntry} (h : TidyDir v (v.inodeNo d)
    ⟨dotName, d, FileType.directory⟩ ⟨dotDotName, parent d, FileType.directory⟩ L) :
    v.Bare d ↔ L = 0 := by
  constructor
  · intro hbare
    apply Multiset.eq_zero_of_forall_notMem
    intro x hx
    have hentry : v.HasEntry d x :=
      h.mem_iff.mp (Multiset.mem_cons_of_mem (Multiset.mem_cons_of_mem hx))
    obtain ⟨hne, hne'⟩ := h.outside x hx
    apply hbare x hentry
    constructor
    · intro hname
      have hdot := h.mem_iff.mp (Multiset.mem_cons_self _ _)
      exact hne (congrArg DirEntry.ino (hv.entry_unique hd hentry hdot hname))
    · intro hname
      have hdotdot := h.mem_iff.mp (Multiset.mem_cons_of_mem (Multiset.mem_cons_self _ _))
      exact hne' (congrArg DirEntry.ino (hv.entry_unique hd hentry hdotdot hname))
  · rintro rfl x hentry hord
    have hmem := h.mem_iff.mpr hentry
    rw [Multiset.mem_cons, Multiset.mem_cons] at hmem
    rcases hmem with rfl | rfl | hmem
    · exact hord.1 rfl
    · exact hord.2 rfl
    · exact absurd hmem (Multiset.notMem_zero _)

/-- An emptied directory has the size of a new one. -/
theorem TidyTree.bare : (v.inodeNo d).size = 48 ↔ v.Bare d := by
  obtain ⟨L, h⟩ := hv.tidyDir hd
  rw [h.size_eq_iff, hv.bare_iff hd h]

/-- An emptied directory has given back all blocks but the first. -/
theorem TidyTree.single (hbare : v.Bare d) {k : ℕ} (hk : k < 12) :
    (v.inodeNo d).block (k + 1) = 0 := by
  obtain ⟨L, h⟩ := hv.tidyDir hd
  exact h.block_eq_zero dot_ne_dotDot ((hv.bare_iff hd h).mp hbare) hk

theorem TidyTree.data {k : ℕ} (hk : v.ref (v.inodeNo d) k ≠ 0) :
    v.superBlock.dataLbaStart ≤ v.ref (v.inodeNo d) k := by
  obtain ⟨L, h⟩ := hv.tidyDir hd
  exact h.data hk

end Lived

/-- The names before the last one of a path that leads to an entry. -/
theorem Walk.descends {o : Option DirEntry} (h : Walk v d cs o last) (ho : o = some de) :
    ∀ {pre}, Descends v pre d → ∃ mid, cs = mid ++ [de.fileName] ∧
      Descends v (pre ++ mid) last ∧ v.HasEntry last de := by
  induction h with
  | missing => cases ho
  | found hde =>
    intro pre hpre
    obtain rfl := Option.some.inj ho
    exact ⟨[], rfl, by rwa [List.append_nil], hde⟩
  | blocked => cases ho
  | @down _ _ _ c _ _ _ hdir _ ih =>
    intro pre hpre
    obtain ⟨mid, hmid, hlast, hentry⟩ := ih ho (hpre.down hdir)
    refine ⟨c :: mid, by rw [hmid]; rfl, ?_, hentry⟩
    rw [List.append_assoc] at hlast
    exact hlast

/-- What is left of `v` when the entry `de` of the directory `last` is removed, with the inode and
the block that it stands for. -/
structure Removed (v w : Volume) (dirs : Set ℕ) (last : ℕ) (de : DirEntry) : Prop where
  entries : ∀ d ∈ dirs, ∀ x, w.HasEntry d x ↔ v.HasEntry d x ∧ ¬(d = last ∧ x = de)
  parent : (w.inodeNo last).ino = last ∧ (w.inodeNo last).size = (v.inodeNo last).size - 24 ∧
    ∀ k < 13, (w.inodeNo last).block k = (v.inodeNo last).block k
  inodes : ∀ d < 4096, d ≠ last → SameInode (v.inodeNo d) (w.inodeNo d)
  data : ∀ s, v.superBlock.dataLbaStart ≤ s → s ≠ (v.inodeNo last).block 0 → w.disk s = v.disk s
  blockBits : ∀ i, w.blockBitMap.bit i =
    if i = v.superBlock.lbaToBitMapIdx ((v.inodeNo de.ino).block 0) then false
    else v.blockBitMap.bit i
  inodeBits : ∀ i, w.inodeBitMap.bit i = if i = de.ino then false else v.inodeBitMap.bit i

/-- An entry for a directory that has no other entries. -/
def EmptyDir (v : Volume) (de : DirEntry) : Prop :=
  de.fileType = FileType.directory ∧ v.Bare de.ino

/-- On every machine with memory `rmdir` returns 0 for an empty directory, which is gone then, and
-1 for everything else, without a change. -/
def RemovesEmpty (v : Volume) (dirs : Set ℕ) (path : List UInt8) (last : ℕ) (de : DirEntry) :
    Prop :=
  ∀ e : Heap, (∀ t, e.sysMalloc t = true) → wp noStop e (sysRmdir path) (fun r w =>
    EmptyDir v de ∧ r = 0 ∧ Removed v w dirs last de ∨
      ¬EmptyDir v de ∧ r = -1 ∧ SameVolume v w) v

/-- An entry for a regular file that is as large as an empty directory. -/
def LooksEmpty (v : Volume) (de : DirEntry) : Prop :=
  de.fileType = FileType.regular ∧ (v.inodeNo de.ino).size = 48

end Trees

section Geometry

variable {c : List UInt8}

/-- A named directory is not the one that has its entry. -/
theorem DirTree.child_ne (hv : DirTree v dirs parent rank) (hd : d ∈ dirs) (hc : Ordinary c)
    (hdir : v.HasDir d c ino) : ino ∈ dirs ∧ ino ≠ 0 ∧ ino ≠ d := by
  obtain ⟨hmem, hne, hparent⟩ := hv.child d hd c ino hc hdir
  refine ⟨hmem, hne, fun heq => ?_⟩
  have hrank := hv.rank ino hmem hne
  rw [hparent, heq] at hrank
  omega

/-- In the first block of its directory. -/
theorem TidyTree.standsAt {i : Inode} (hv : TidyTree v dirs parent rank) (hlast : last ∈ dirs)
    (hde : v.HasEntry last de) (hc : Ordinary de.fileName)
    (htype : de.fileType = FileType.directory) (hfirst : FirstBlockHas v (v.inodeNo last) de.fileName)
    (hdisk : y.disk = v.disk) (hblock : i.block = (v.inodeNo last).block) :
    ∃ j, StandsAt y i de.ino j ∧ v.entryAt (v.inodeNo last) 0 j = some de := by
  obtain ⟨-, j, hj, ⟨de', hde', hname⟩, -⟩ := hfirst
  obtain rfl : de' = de := hv.entry_unique hlast ⟨0, by norm_num, j, hj, hde'⟩ hde hname
  have hdir : v.HasDir last de'.fileName de'.ino := hasDir_iff.mpr ⟨de', hde, rfl, htype, rfl⟩
  have hzero := hv.blockAt_zero hlast
  have hat : y.blockAt i 0 = v.blockAt (v.inodeNo last) 0 := by rw [blockAt_of_disk hdisk hblock]
  have hslot : ∀ j < 21, slot (y.sector (y.blockAt i 0)) j =
      slot (v.disk (v.blockAt (v.inodeNo last) 0)) j := by
    intro j hj
    rw [hat, slot_sector _ hj, hdisk]
  obtain ⟨-, hslotde, hocc⟩ := entryAt_eq_some.mp hde'
  refine ⟨j, ⟨?_, ?_, hj, ?_, ?_, 0, by norm_num, ?_⟩, hde'⟩
  · rwa [hat]
  · rw [hat]
    exact hv.blockAt_lt hlast (by norm_num)
  · unfold Hit Counted
    rw [hslot j hj, hslotde]
    exact ⟨⟨hocc, hc.1⟩, rfl⟩
  · intro j' hj' hhit
    unfold Hit Counted at hhit
    rw [hslot j' hj'] at hhit
    have hname' := hv.slot_child hlast hc hdir (by norm_num) hj' hzero hhit.2
    have hentry := entryAt_eq_some.mpr ⟨hzero, rfl, hhit.1.1⟩
    have hsame := hv.entry_unique hlast ⟨0, by norm_num, j', hj', hentry⟩ hde hname'
    rw [hsame] at hentry
    exact (hv.once hlast (by norm_num) hj' (by norm_num) hj hentry hde').2
  · have hdot := hv.dot last hlast
    rw [← blockAt_direct v _ (by norm_num)] at hdot
    rw [hslot 0 (by norm_num), hdot]
    exact ⟨(by decide : FileType.directory ≠ FileType.unknown), rfl⟩

end Geometry

section Result

/-- The volume `w` in which the directory `ino` and its entry, in slot `j` of the first block of
`last`, are gone from `v`. Both directories were open in `y`, and are closed in `u`. -/
structure Taken (v y u w : Volume) (last : ℕ) (dir : Dir) (j n ino : ℕ) : Prop where
  store : SameStore v y
  layout : Layout y
  handle : Handle v y last dir
  inside : SyncsInside y n ino
  after : SameStore ((y.clearEntry dir.inode j).release n ino) w
  closed : SameVolume v u
  shrunk : Shrunk dir.inode u w
  number : (u.inodes dir.inode).ino = last

namespace Taken

variable {u : Volume} (h : Taken v y u w last dir j n ino) (hv : TidyTree v dirs parent rank)
  (hlast : last ∈ dirs)
include h

theorem block : y.blockAt (y.inodes dir.inode) 0 = (v.inodeNo last).block 0 := by
  rw [blockAt_direct _ _ (by norm_num), h.handle.block]

theorem superBlock : w.superBlock = v.superBlock := h.after.superBlock.trans h.store.superBlock

include hv

theorem findOpen (d : ℕ) : w.findOpen d = v.findOpen d :=
  (findOpen_congr h.shrunk.openInodes h.shrunk.number).trans (h.closed.findOpen hv.steady)

include hlast

theorem disk {s : ℕ} (hs : v.superBlock.dataLbaStart ≤ s) (hne : s ≠ (v.inodeNo last).block 0) :
    w.disk s = v.disk s := by
  have hdata := h.layout.data_start
  rw [h.store.superBlock] at hdata
  rw [h.after.disk, release_disk (h.layout.clearEntry _ _) h.inside, clearEntry_disk h.layout,
    h.store.disk]
  · rw [h.handle.ino]
    exact (hv.number last hlast).1
  · rwa [h.store.superBlock]
  · rwa [h.block]
  · change y.superBlock.inodeTableLbaStart ≤ s
    rw [h.store.superBlock]
    omega

theorem slot {j' : ℕ} (hj : j' < 21) : slot (w.disk ((v.inodeNo last).block 0)) j' =
    if j' = j then DirEntry.empty else slot (v.disk ((v.inodeNo last).block 0)) j' := by
  have hdata := h.layout.data_start
  have hle := hv.first last hlast
  rw [← h.store.superBlock] at hle
  have hino : (y.inodes dir.inode).ino < 4096 := by
    rw [h.handle.ino]
    exact (hv.number last hlast).1
  rw [h.after.disk, release_disk (h.layout.clearEntry _ _) h.inside, ← h.block,
    clearEntry_slot h.layout hino _ hj, h.store.disk]
  · rwa [h.block]
  · change y.superBlock.inodeTableLbaStart ≤ _
    omega

theorem record_ne (hd : d < 4096) (hne : d ≠ last) : SameInode (v.record d) (w.record d) := by
  have hle := hv.first last hlast
  rw [← h.store.superBlock, ← h.block] at hle
  rw [h.after.record, ← h.store.record]
  apply (clearEntry_record_ne h.layout hle hd _).trans
  · exact release_record (h.layout.clearEntry _ _) h.inside hd
  · rwa [h.handle.ino]

theorem record_self : SameInode ((y.inodes dir.inode).setSize ((y.inodes dir.inode).size - 24)).pure
    (w.record last) := by
  have hlt := (hv.number last hlast).1
  rw [h.after.record, ← h.handle.ino]
  apply (clearEntry_record_self _ _ _).trans
  · apply release_record (h.layout.clearEntry _ _) h.inside
    rwa [h.handle.ino]
  · rwa [h.handle.ino]
  · rw [h.handle.size]
    exact (hv.size hlast).2
  · intro k hk
    have hmax : maxLba < 2 ^ 32 := by decide
    have hblock : (y.inodes dir.inode).block k = v.ref (v.inodeNo last) (if k < 12 then k else 140) := by
      rw [h.handle.block]
      split_ifs with hk12
      · rw [ref_of_lt (by omega), blockAt_direct _ _ hk12]
      · obtain rfl : k = 12 := by omega
        exact ref_table.symm
    rw [hblock]
    exact (hv.below last hlast _).trans hmax

theorem inode_ne (hd : d < 4096) (hne : d ≠ last) : SameInode (v.inodeNo d) (w.inodeNo d) := by
  have hfind := h.findOpen hv d
  unfold Volume.inodeNo
  rw [hfind]
  cases hopen : v.findOpen d with
  | none => exact h.record_ne hv hlast hd hne
  | some p =>
    have hp : p < v.nextInode := hv.steady.fresh p (findOpen_mem hopen)
    have hat : w.inodes p = v.inodes p := by
      rw [h.shrunk.inodes, if_neg, h.closed.inodes p hp]
      rintro rfl
      apply hne
      rw [← h.number, h.closed.inodes _ hp, findOpen_ino hopen]
    dsimp only
    rw [hat]
    exact ⟨rfl, rfl, rfl, rfl, fun _ _ => rfl⟩

theorem inode_self : (w.inodeNo last).ino = last ∧
    (w.inodeNo last).size = (v.inodeNo last).size - 24 ∧
      ∀ k < 13, (w.inodeNo last).block k = (v.inodeNo last).block k := by
  have hfind := h.findOpen hv last
  cases hopen : v.findOpen last with
  | none =>
    have hno : w.inodeNo last = w.record last := by
      unfold Volume.inodeNo
      rw [hfind, hopen]
    have hself := h.record_self hv hlast
    rw [hno]
    refine ⟨hself.ino.trans h.handle.ino, hself.size.trans ?_, fun k hk => ?_⟩
    · exact congrArg (· - 24) h.handle.size
    · exact (hself.block k hk).trans (congrFun h.handle.block k)
  | some p =>
    have hp := h.handle.reuse p hopen
    have hno : w.inodeNo last = w.inodes p := by
      unfold Volume.inodeNo
      rw [hfind, hopen]
    have hno' : v.inodeNo last = v.inodes p := by
      unfold Volume.inodeNo
      rw [hopen]
    have hat : w.inodes p = (v.inodes p).setSize ((v.inodes p).size - 24) := by
      rw [h.shrunk.inodes, if_pos hp.symm, hp,
        h.closed.inodes p (hv.steady.fresh p (findOpen_mem hopen))]
    rw [hno, hno', hat]
    exact ⟨findOpen_ino hopen, rfl, fun _ _ => rfl⟩

theorem ref (hd : d ∈ dirs) : w.ref (w.inodeNo d) = v.ref (v.inodeNo d) := by
  have hblock : ∀ k < 13, (w.inodeNo d).block k = (v.inodeNo d).block k := by
    by_cases hne : d = last
    · rw [hne]
      exact (h.inode_self hv hlast).2.2
    · exact (h.inode_ne hv hlast (hv.number d hd).1 hne).block
  apply ref_congr (fun k hk => hblock k (by omega))
  intro htable
  have hle := hv.data hd (k := 140)
  rw [ref_table] at hle
  apply h.disk hv hlast (hle htable)
  intro heq
  have hown := hv.own d hd last hlast 140 0
  rw [ref_table, ref_of_lt (by norm_num), blockAt_direct _ _ (by norm_num)] at hown
  exact absurd (hown heq htable).2 (by norm_num)

/-- The slots of the directories are as before, but for one. -/
theorem entryAt {k j' : ℕ} (hd : d ∈ dirs) (hk : k < 140) (hj : j' < 21) :
    w.entryAt (w.inodeNo d) k j' =
      if d = last ∧ k = 0 ∧ j' = j then none else v.entryAt (v.inodeNo d) k j' := by
  have hblock : w.blockAt (w.inodeNo d) k = v.blockAt (v.inodeNo d) k := by
    rw [← ref_of_lt hk, ← ref_of_lt hk, h.ref hv hlast hd]
  by_cases hfirst : d = last ∧ k = 0
  · obtain ⟨rfl, rfl⟩ := hfirst
    have hzero := hv.blockAt_zero hlast
    have hslot := h.slot hv hlast hj
    rw [← blockAt_direct v _ (show 0 < 12 by norm_num)] at hslot
    unfold Volume.entryAt
    rw [hblock, hslot, if_neg hzero, if_neg hzero]
    by_cases hjj : j' = j
    · rw [if_pos hjj]
      exact (if_pos rfl).trans (if_pos ⟨rfl, rfl, hjj⟩).symm
    · rw [if_neg hjj]
      exact (if_neg fun hall => hjj hall.2.2).symm
  · rw [if_neg fun hall => hfirst ⟨hall.1, hall.2.1⟩]
    apply entryAt_congr hblock
    intro hne
    have hle := hv.data hd (k := k)
    have hown := hv.own d hd last hlast k 0
    have hzero : v.ref (v.inodeNo last) 0 = (v.inodeNo last).block 0 := by
      rw [ref_of_lt (by norm_num), blockAt_direct _ _ (by norm_num)]
    rw [ref_of_lt hk] at hle hown
    apply h.disk hv hlast (hle hne)
    exact fun heq => hfirst (hown (heq.trans hzero.symm) hne)

theorem hasEntry {c : DirEntry} (hd : d ∈ dirs) (hj : j < 21)
    (hde : v.entryAt (v.inodeNo last) 0 j = some de) :
    w.HasEntry d c ↔ v.HasEntry d c ∧ ¬(d = last ∧ c = de) := by
  constructor
  · rintro ⟨k, hk, j', hj', hat⟩
    rw [h.entryAt hv hlast hd hk hj'] at hat
    split_ifs at hat with hgone
    refine ⟨⟨k, hk, j', hj', hat⟩, ?_⟩
    rintro ⟨rfl, rfl⟩
    exact hgone ⟨rfl, hv.once hd hk hj' (by norm_num) hj hat hde⟩
  · rintro ⟨⟨k, hk, j', hj', hat⟩, hne⟩
    refine ⟨k, hk, j', hj', ?_⟩
    rw [h.entryAt hv hlast hd hk hj', if_neg]
    · exact hat
    · rintro ⟨rfl, rfl, rfl⟩
      exact hne ⟨rfl, Option.some.inj (hat.symm.trans hde)⟩

theorem removed (hj : j < 21) (hde : v.entryAt (v.inodeNo last) 0 j = some de)
    (hn : n = v.superBlock.lbaToBitMapIdx ((v.inodeNo de.ino).block 0)) (hino : ino = de.ino) :
    Removed v w dirs last de := by
  constructor
  · exact fun d hd c => h.hasEntry hv hlast hd hj hde
  · exact h.inode_self hv hlast
  · exact fun d hd hne => h.inode_ne hv hlast hd hne
  · exact fun s hs hne => h.disk hv hlast hs hne
  · intro i
    rw [h.after.blockBitMap, ← hn, ← h.store.blockBitMap]
    exact bitMapSet_bit _ _ _ _
  · intro i
    rw [h.after.inodeBitMap, ← hino, ← h.store.inodeBitMap]
    exact bitMapSet_bit _ _ _ _

end Taken

end Result

section Call

variable {stop : Volume → Prop}

/-- The rest of `sysRmdir`, with both directories open. -/
def removeOpened (parentDir dir : Dir) : VolM ℤ := do
  let ret ← do
    if !(← dirIsEmpty dir) then pure (-1)
    else if ← dirRemove parentDir dir then pure 0
    else pure (-1)
  dirClose dir
  dirClose parentDir
  return ret

/-- The search finds the entry, and what it stands for is opened. -/
theorem wp_sysRmdir_found {Q : ℤ → Volume → Prop} (hv : FileTree v dirs parent rank)
    (hp : ProperPath path) (hzero : (0 : UInt8) ∉ path) (hroot : isRootPath path = false)
    (hsplit : components path = cs ++ [de.fileName]) (hd : Descends v cs last)
    (hentry : v.HasEntry last de) (hfirst : FirstBlocks v (components path))
    (he : ∀ t, e.sysMalloc t = true) (hne : de.ino ≠ 0)
    (h : ∀ x y dir q, Steady x → Holding v x dir → Handle v x last dir → Opened x y de.ino q →
      Steady y → wp stop e (removeOpened dir ⟨false, q⟩) Q y) :
    wp stop e (sysRmdir path) Q v := by
  have hsearch := wp_searchFile_entry hv hp hzero hroot hsplit hd hentry hfirst he
  unfold sysRmdir
  apply wp_call (wp_and (wp_and (wp_stop_mono hsearch fun _ hx => False.elim hx)
    (wp_searchFile_holding hv.steady)) (firm_searchFile path e v))
  rintro ⟨ino, record⟩ x ⟨⟨⟨hino, -, hhandle⟩, hheld⟩, hfirm⟩
  have hx : Steady x := hfirm hv.steady
  obtain rfl : ino = some de.ino := hino
  dsimp only
  rw [if_neg hne]
  unfold dirOpen
  rw [wp_bind_assoc]
  apply wp_sysMallocUnchecked_supplied (.inr he)
  rw [wp_bind_assoc]
  apply wp_call (wp_and (wp_inodeOpen_supplied (hheld.sameDisk.layout hv.layout) hx
    (hv.bound last (hd.mem hv.toDirTree) de hentry) (.refl x) (.inr he)) (firm_inodeOpen de.ino e x))
  rintro q y ⟨hy, hfirm'⟩
  exact h x y record.parentDir q hx hheld hhandle hy (hfirm' hx)

theorem wp_dirIsEmpty {f : Bool → VolM ℤ} {Q : ℤ → Volume → Prop} (hl : Layout y)
    (h : wp stop e (f (decide ((y.inodes q).size = 48))) Q y) :
    wp stop e (dirIsEmpty ⟨false, q⟩ >>= f) Q y := by
  unfold dirIsEmpty
  rw [wp_bind_assoc, wp_get_bind, wp_pure_bind, hl.dirEntrySize]
  exact h

theorem wp_closeBoth {r : ℤ} : wp stop e (do
    dirClose ⟨false, q⟩
    dirClose dir
    return r) (fun r' w => r' = r ∧ w = (y.closeInode q).closeDir dir) y := by
  apply wp_bind
  apply wp_dirClose_total
  apply wp_bind
  apply wp_dirClose_total
  exact wp_pure.mpr ⟨rfl, rfl⟩

/-- Something of another size stays. -/
theorem wp_removeOpened_large (hl : Layout y) (hsize : (y.inodes q).size ≠ 48) :
    wp noStop e (removeOpened dir ⟨false, q⟩)
      (fun r w => r = -1 ∧ w = (y.closeInode q).closeDir dir) y := by
  unfold removeOpened
  apply wp_dirIsEmpty hl
  rw [decide_eq_false hsize]
  apply wp_ite
  · intro _
    exact wp_closeBoth
  · exact fun hnot => absurd rfl hnot

/-- Whatever is as large as two entries is removed. -/
theorem wp_removeOpened_small (hl : Layout y) (hsize : (y.inodes q).size = 48)
    (he : ∀ t, e.sysMalloc t = true) :
    wp anyStop e (removeOpened dir ⟨false, q⟩) (fun r _ => r = 0) y := by
  have hremove : wp anyStop e (dirRemove dir ⟨false, q⟩) (fun ok _ => ok = true) y := by
    unfold dirRemove sysMalloc
    rw [wp_get_bind, wp_assert_bind]
    refine ⟨fun _ => ?_, fun _ => trivial⟩
    apply wp_ask_bind
    intro t
    rw [he t, if_neg (by decide)]
    apply wp_call wp_returns
    intro _ w _
    apply wp_call wp_returns
    exact fun _ w' _ => wp_pure.mpr rfl
  unfold removeOpened
  apply wp_dirIsEmpty hl
  rw [decide_eq_true hsize]
  apply wp_ite
  · exact fun hnot => absurd hnot (by decide)
  intro _
  apply wp_call hremove
  rintro ok w rfl
  exact wp_mono (wp_closeBoth (r := 0)) fun r w' h => h.1

theorem wp_removeOpened_one (hl : Layout y) (he : ∀ t, e.sysMalloc t = true)
    (hsize : (y.inodes q).size = 48) (h : StandsAt y (y.inodes dir.inode) ino j)
    (htable : (y.inodes dir.inode).block 12 < maxLba) (hino : (y.inodes dir.inode).ino < 4096)
    (hlarge : 24 ≤ (y.inodes dir.inode).size) (hone : OneBlock y q ino n) (hne : q ≠ dir.inode)
    (hin : SyncsInside y n ino) :
    wp noStop e (removeOpened dir ⟨false, q⟩) (fun r w => r = 0 ∧
      w = (((y.clearEntry dir.inode j).release n ino).closeInode q).closeDir dir) y := by
  unfold removeOpened
  apply wp_dirIsEmpty hl
  have hremove : wp noStop e (dirRemove dir ⟨false, q⟩) (fun ok w => ok = true ∧
      w = (y.clearEntry dir.inode j).release n ino) y :=
    wp_dirRemove_one hl he h htable hino hlarge hone hne hin
  rw [decide_eq_true hsize]
  apply wp_ite
  · exact fun hnot => absurd hnot (by decide)
  intro _
  apply wp_call hremove
  rintro ok w ⟨rfl, rfl⟩
  exact wp_closeBoth

end Call

section Both

/-- Both directories are open in `y`, the one with the entry by this handle, and the other one at
`q`. They were opened in this order. -/
structure Both (v y : Volume) (last ino : ℕ) (dir : Dir) (q : ℕ) : Prop where
  close : SameVolume v ((y.closeInode q).closeDir dir)
  store : SameStore v y
  handle : Handle v y last dir
  found : y.findOpen ino = some q
  openCnt : 0 < (y.inodes q).openCnt
  block : (y.inodes q).block = (v.inodeNo ino).block
  size : (y.inodes q).size = (v.inodeNo ino).size
  ne : q ≠ dir.inode

theorem closed_of_opened (hheld : Holding v x dir) (hy : Opened x y ino q) :
    SameVolume v ((y.closeInode q).closeDir dir) ∧ SameStore v y := by
  have hsame := (hheld.congr hy.close).same
  refine ⟨hsame, ?_⟩
  exact hsame.store.trans ((SameStore.closeInode y q).trans (.closeDir _ _)).symm

theorem both_of_opened (hv : TidyTree v dirs parent rank) (hheld : Holding v x dir)
    (hhandle : Handle v x last dir) (hy : Opened x y ino q) (hsteady : Steady y) (hino : ino ∈ dirs)
    (hne : ino ≠ last) : Both v y last ino dir q := by
  obtain ⟨hclose, hstore⟩ := closed_of_opened hheld hy
  have hno : x.inodeNo ino = v.inodeNo ino := by
    apply hheld.inodeNo hv.steady
    rw [hhandle.ino]
    exact hne.symm
  have hnumber : (y.inodes q).ino = ino := by
    rw [hy.ino, hno]
    exact (hv.number ino hino).2
  have hparent : (y.closeInode q).inodes dir.inode = x.inodes dir.inode :=
    hy.close.inodes _ hheld.lt
  have hq : q ≠ dir.inode := by
    rintro rfl
    apply hne
    rw [← hnumber, ← closeInode_ino, hparent, hhandle.ino]
  rw [closeInode_inodes, if_neg hq.symm] at hparent
  have hfound := hy.found hnumber
  refine ⟨hclose, hstore, ⟨⟨?_, ?_⟩, ?_, hhandle.reuse⟩, hfound,
    hsteady.openCnt q (findOpen_mem hfound), ?_, ?_, hq⟩
  · rw [hparent, hhandle.ino]
  · rw [hparent, hhandle.block]
  · rw [hparent, hhandle.size]
  · rw [hy.block, hno]
  · rw [hy.size, hno]

theorem closeDir_ino : ((v.closeDir dir).inodes p).ino = (v.inodes p).ino := by
  unfold Volume.closeDir
  split_ifs
  · rfl
  · exact closeInode_ino

/-- The bit index of the block of a directory. -/
theorem TidyTree.index (hv : TidyTree v dirs parent rank) (hino : ino ∈ dirs) (hne : ino ≠ 0) :
    (v.inodeNo ino).block 0 = v.superBlock.dataLbaStart +
        v.superBlock.lbaToBitMapIdx ((v.inodeNo ino).block 0) ∧
      0 < v.superBlock.lbaToBitMapIdx ((v.inodeNo ino).block 0) ∧
      (v.inodeNo ino).block 0 < 2 ^ 32 := by
  have hmax : maxLba < 2 ^ 32 := by decide
  have hfirst := hv.first ino hino
  have hlt := hv.blockAt_lt hino (show 0 < 140 by norm_num)
  have hzero := hv.blockAt_zero hino
  rw [blockAt_direct v _ (by norm_num)] at hlt hzero
  have hroot : (v.inodeNo ino).block 0 ≠ v.superBlock.dataLbaStart := by
    rw [← hv.rootBlock]
    intro heq
    have hown := hv.own ino hino 0 hv.root.1 0 0
    rw [ref_of_lt (by norm_num), ref_of_lt (by norm_num), blockAt_direct _ _ (by norm_num),
      blockAt_direct _ _ (by norm_num)] at hown
    exact hne (hown heq hzero).1
  unfold SuperBlock.lbaToBitMapIdx
  omega

theorem Both.oneBlock (h : Both v y last ino dir q) (hv : TidyTree v dirs parent rank)
    (hino : ino ∈ dirs) (hne : ino ≠ 0) (hbare : v.Bare ino) :
    OneBlock y q ino (v.superBlock.lbaToBitMapIdx ((v.inodeNo ino).block 0)) := by
  obtain ⟨hindex, hpos, hlt⟩ := hv.index hino hne
  refine ⟨h.found, h.openCnt, ?_, ?_, hpos, ?_⟩
  · rw [h.block, h.store.superBlock]
    exact hindex
  · rw [h.block]
    exact fun k hk => hv.single hino hbare hk
  · rw [h.store.superBlock, ← hindex]
    exact hlt

theorem Both.taken (h : Both v y last ino dir q) (hl : Layout v)
    (hin : SyncsInside v n ino) : Taken v y ((y.closeInode q).closeDir dir)
      ((((y.clearEntry dir.inode j).release n ino).closeInode q).closeDir dir) last dir j n ino := by
  have hshrunk : Shrunk dir.inode y ((y.clearEntry dir.inode j).release n ino) :=
    ⟨fun p => clearEntry_inodes, rfl⟩
  refine ⟨h.store, h.store.layout hl, h.handle, ?_, ?_, h.close, ?_, ?_⟩
  · unfold SyncsInside
    rw [h.store.superBlock]
    exact hin
  · exact (SameStore.closeInode _ _).trans (.closeDir _ _)
  · exact (hshrunk.closeInode q).closeDir dir
  · rw [closeDir_ino, closeInode_ino]
    exact h.handle.ino

end Both

section Law

variable (hv : TidyTree v dirs parent rank) (hp : ProperPath path) (hzero : (0 : UInt8) ∉ path)
  (hwalk : Walk v 0 (components path) (some de) last) (hord : Ordinary de.fileName)

/-- A path whose last name is none of `"."` and `".."` is not one of the root. -/
theorem isRootPath_of_ordinary (hsplit : components path = cs ++ [de.fileName])
    (hord : Ordinary de.fileName) : isRootPath path = false := by
  have hlast : (components path).getLast? = some de.fileName := by
    rw [hsplit, List.getLast?_append_of_ne_nil _ (List.cons_ne_nil _ _), List.getLast?_singleton]
  rw [Bool.eq_false_iff]
  intro hroot
  rcases isRootPath_iff.mp hroot with rfl | rfl | rfl
  · cases hlast
  · exact hord.1 (Option.some.inj (hlast.symm.trans (by decide)))
  · exact hord.2 (Option.some.inj (hlast.symm.trans (by decide)))

include hv in
/-- What has an entry is not the root, and not the directory with the entry. -/
theorem TidyTree.entry_ne (hlast : last ∈ dirs) (hentry : v.HasEntry last de)
    (hord : Ordinary de.fileName) : de.ino ≠ 0 ∧ de.ino ≠ last := by
  rcases hv.kind last hlast de hentry with hdir | hfile
  · exact (hv.child_ne hlast hord (hasDir_iff.mpr ⟨de, hentry, rfl, hdir, rfl⟩)).2
  · have hnot := hv.file last hlast de hentry hfile
    exact ⟨fun h => hnot (h ▸ hv.root.1), fun h => hnot (h ▸ hlast)⟩

include hv hp hzero hwalk hord in
theorem removesEmpty_of_first (hfirst : FirstBlocks v (components path))
    (hlook : ¬LooksEmpty v de) (hin : EmptyDir v de →
      SyncsInside v (v.superBlock.lbaToBitMapIdx ((v.inodeNo de.ino).block 0)) de.ino) :
    RemovesEmpty v dirs path last de := by
  intro e he
  obtain ⟨mid, hsplit, hd, hentry⟩ := hwalk.descends rfl .root
  rw [List.nil_append] at hd
  have hlast := hd.mem hv.toDirTree
  obtain ⟨hne, hother⟩ := hv.entry_ne hlast hentry hord
  have hblock : FirstBlockHas v (v.inodeNo last) de.fileName := hfirst mid _ [] last hsplit hd
  apply wp_sysRmdir_found hv.toFileTree hp hzero (isRootPath_of_ordinary hsplit hord) hsplit hd
    hentry hfirst he hne
  intro x y dir q hx hheld hhandle hy hsteady
  obtain ⟨hclose, hstore⟩ := closed_of_opened hheld hy
  have hl := hstore.layout hv.layout
  have hno : x.inodeNo de.ino = v.inodeNo de.ino := by
    apply hheld.inodeNo hv.steady
    rw [hhandle.ino]
    exact hother.symm
  have hsize : (y.inodes q).size = (v.inodeNo de.ino).size := by rw [hy.size, hno]
  by_cases hempty : EmptyDir v de
  · obtain ⟨htype, hbare⟩ := id hempty
    have hmem : de.ino ∈ dirs :=
      (hv.child_ne hlast hord (hasDir_iff.mpr ⟨de, hentry, rfl, htype, rfl⟩)).1
    have hboth := both_of_opened hv hheld hhandle hy hsteady hmem hother
    obtain ⟨j, hstand, hde⟩ := hv.standsAt hlast hentry hord htype hblock hstore.disk
      hboth.handle.block
    have htaken := hboth.taken (j := j) hv.layout (hin hempty)
    have htable := hv.below last hlast 140
    rw [ref_table] at htable
    have hlarge := (hv.size hlast).1
    apply wp_mono (wp_removeOpened_one hl he (hsize.trans ((hv.bare hmem).mpr hbare)) hstand ?_ ?_
      ?_ (hboth.oneBlock hv hmem hne hbare) hboth.ne htaken.inside)
    · rintro r w ⟨rfl, rfl⟩
      exact Or.inl ⟨hempty, rfl, htaken.removed hv hlast hstand.slot_lt hde rfl rfl⟩
    · rw [hboth.handle.block]
      exact htable
    · rw [hboth.handle.ino]
      exact (hv.number last hlast).1
    · rw [hboth.handle.size]
      omega
  · have hlarge : (y.inodes q).size ≠ 48 := by
      rw [hsize]
      intro h48
      rcases hv.kind last hlast de hentry with hdir | hfile
      · have hmem : de.ino ∈ dirs :=
          (hv.child_ne hlast hord (hasDir_iff.mpr ⟨de, hentry, rfl, hdir, rfl⟩)).1
        exact hempty ⟨hdir, (hv.bare hmem).mp h48⟩
      · exact hlook ⟨hfile, h48⟩
    apply wp_mono (wp_removeOpened_large hl hlarge)
    rintro r w ⟨rfl, rfl⟩
    exact Or.inr ⟨hempty, rfl, hclose⟩

include hv hp hzero hwalk hord in
/-- On some machine the search for a name behind the first block of its directory finds a number
that no inode has. -/
theorem firstBlocks_of_removesEmpty (h : RemovesEmpty v dirs path last de) :
    FirstBlocks v (components path) := by
  by_contra hnot
  obtain ⟨mid, hsplit, -, -⟩ := hwalk.descends rfl .root
  obtain ⟨pre, c, post, d, hcut, hpre, hfirst, hdeep⟩ := exists_deep hnot
  have hd := hpre.mem hv.toDirTree
  have hstops : wp anyStop (decoy ⟨c, 4096, FileType.regular⟩) (sysRmdir path)
      (fun _ _ => False) v := by
    have hsearch := wp_searchFile_decoy hv.toFileTree hp hzero (isRootPath_of_ordinary hsplit hord)
      hcut hpre hfirst hdeep
    apply wp_call (wp_stop_mono hsearch fun _ hx => False.elim hx)
    rintro ⟨ino, record⟩ x ⟨hino, hheld, hhandle⟩
    obtain rfl : ino = some 4096 := hino
    have hclosed : x.findOpen 4096 = none := by
      rw [hheld.findOpen hv.steady]
      · cases hopen : v.findOpen 4096 with
        | none => rfl
        | some p =>
          have hlt := hv.numbers p (findOpen_mem hopen)
          rw [findOpen_ino hopen] at hlt
          exact absurd hlt (by norm_num)
      · rw [hhandle.ino]
        exact (hv.number d hd).1.ne
    dsimp only
    rw [if_neg (by norm_num)]
    unfold dirOpen
    rw [wp_bind_assoc]
    apply wp_sysMallocUnchecked_bind trivial
    unfold inodeOpen inodeLocate
    rw [wp_bind_assoc, wp_bind_assoc, wp_get_bind, hclosed, wp_bind_assoc, wp_bind_assoc,
      wp_assert_bind]
    refine ⟨fun hlt => ?_, fun _ => trivial⟩
    exact (Nat.lt_irrefl _ hlt).elim
  obtain ⟨r, w, hret, -⟩ :=
    wp_noStop_returns (h (decoy ⟨c, 4096, FileType.regular⟩) fun _ => rfl)
  exact hret.of_wp hstops

include hv hp hzero hwalk hord in
/-- A regular file of this size is removed, or an assertion of `dirRemove` fails. -/
theorem not_looksEmpty_of_removesEmpty (h : RemovesEmpty v dirs path last de)
    (hfirst : FirstBlocks v (components path)) : ¬LooksEmpty v de := by
  rintro ⟨hfile, hsize⟩
  obtain ⟨mid, hsplit, hd, hentry⟩ := hwalk.descends rfl .root
  rw [List.nil_append] at hd
  obtain ⟨hne, hother⟩ := hv.entry_ne (hd.mem hv.toDirTree) hentry hord
  have he : ∀ t, (wordHeap 0).sysMalloc t = true := fun _ => rfl
  have hzeroed : wp anyStop (wordHeap 0) (sysRmdir path) (fun r _ => r = 0) v := by
    apply wp_sysRmdir_found hv.toFileTree hp hzero (isRootPath_of_ordinary hsplit hord) hsplit hd
      hentry hfirst he hne
    intro x y dir q hx hheld hhandle hy _
    apply wp_removeOpened_small ((closed_of_opened hheld hy).2.layout hv.layout) _ he
    rw [hy.size, hheld.inodeNo hv.steady, hsize]
    rw [hhandle.ino]
    exact hother.symm
  obtain ⟨r, w, hret, hr⟩ := wp_noStop_returns (h _ he)
  have hr0 : r = 0 := hret.of_wp hzeroed
  rcases hr with ⟨hempty, -⟩ | ⟨-, hneg, -⟩
  · exact directory_ne_regular (hempty.1.symm.trans hfile)
  · rw [hr0] at hneg
    cases hneg

end Law

section Sample

/-- The root, with the empty directory `"d"` and the file `"f"`, and the directory. -/
def yardBlock (lba : ℕ) : List DirEntry :=
  if lba = 675 then [⟨dotName, 0, FileType.directory⟩, ⟨dotDotName, 0, FileType.directory⟩,
    ⟨[100], 1, FileType.directory⟩, ⟨[102], 2, FileType.regular⟩]
  else if lba = 676 then
    [⟨dotName, 1, FileType.directory⟩, ⟨dotDotName, 0, FileType.directory⟩]
  else []

/-- The file has 48 bytes. -/
def yardInode (p : ℕ) : Inode :=
  ⟨p, if p = 0 then 96 else 48, 1, false, fun k => if k = 0 then 675 + p else 0⟩

def yardVolume : Volume :=
  { sampleVolume with
    disk := fun lba i => ((yardBlock lba).getD (i / 24) DirEntry.empty).bytes (i % 24)
    blockBitMap := ⟨512, fun i => if i = 0 then 7 else 0⟩
    inodeBitMap := ⟨512, fun i => if i = 0 then 7 else 0⟩
    inodes := yardInode
    nextInode := 3
    openInodes := [0, 1, 2] }

theorem yardBlock_fits {lba : ℕ} (h : de ∈ yardBlock lba) :
    de.Fits ∧ de.fileType ≠ FileType.unknown := by
  have hall : ∀ lba ∈ [675, 676], ∀ de ∈ yardBlock lba, de.fileName.length ≤ 15 ∧
      (0 : UInt8) ∉ de.fileName ∧ de.ino < 3 ∧ de.fileType < 3 ∧
        de.fileType ≠ FileType.unknown := by decide
  have hlba : lba ∈ [675, 676] := by
    by_contra hnot
    simp only [List.mem_cons, List.not_mem_nil, or_false, not_or] at hnot
    simp [yardBlock, hnot.1, hnot.2] at h
  obtain ⟨hlen, hzero, hino, htype, hne⟩ := hall lba hlba de h
  exact ⟨⟨⟨hlen, hzero⟩, by omega, by omega⟩, hne⟩

theorem slot_yardVolume (lba j : ℕ) :
    slot (yardVolume.disk lba) j = (yardBlock lba).getD j DirEntry.empty :=
  slot_listed (fun _ => rfl) (fun _ hde => (yardBlock_fits hde).1) j

theorem yardVolume_inodeNo (hd : d ≤ 2) : yardVolume.inodeNo d = yardInode d := by
  interval_cases d <;> rfl

theorem yardVolume_ref (hd : d ≤ 1) (k : ℕ) :
    yardVolume.ref (yardVolume.inodeNo d) k = if k = 0 then 675 + d else 0 := by
  have hnotable : (yardInode d).block 12 = 0 := rfl
  rw [yardVolume_inodeNo (by omega), ref_noTable hnotable]
  split_ifs with h1 h2 h2
  · exact if_pos h2
  · exact if_neg h2
  · omega
  · rfl

theorem yardVolume_blockAt (hd : d ≤ 1) {k : ℕ} (hk : k < 140) :
    yardVolume.blockAt (yardVolume.inodeNo d) k = if k = 0 then 675 + d else 0 := by
  rw [← ref_of_lt hk, yardVolume_ref hd]

/-- The entries of a directory stand in its only block. -/
theorem yardVolume_entry {k : ℕ} (hd : d ≤ 1) (hk : k < 140) :
    yardVolume.entryAt (yardVolume.inodeNo d) k j = some de ↔
      k = 0 ∧ (yardBlock (675 + d))[j]? = some de := by
  rw [entryAt_eq_some, yardVolume_blockAt hd hk]
  by_cases hk0 : k = 0
  · rw [if_pos hk0, slot_yardVolume, List.getD_eq_getElem?_getD]
    cases hat : (yardBlock (675 + d))[j]? with
    | none =>
      constructor
      · rintro ⟨-, rfl, hne⟩
        exact absurd rfl hne
      · rintro ⟨-, hnone⟩
        cases hnone
    | some c =>
      have hne := (yardBlock_fits (List.mem_of_getElem? hat)).2
      constructor
      · rintro ⟨-, rfl, -⟩
        exact ⟨hk0, rfl⟩
      · rintro ⟨-, hsome⟩
        obtain rfl := Option.some.inj hsome
        exact ⟨by omega, rfl, hne⟩
  · rw [if_neg hk0]
    constructor
    · exact fun h => absurd rfl h.1
    · exact fun h => absurd h.1 hk0

theorem yardVolume_hasEntry (hd : d ≤ 1) :
    yardVolume.HasEntry d de ↔ de ∈ yardBlock (675 + d) := by
  constructor
  · rintro ⟨k, hk, j, -, hde⟩
    exact List.mem_of_getElem? ((yardVolume_entry hd hk).mp hde).2
  · intro hmem
    obtain ⟨j, hj, hat⟩ := List.getElem_of_mem hmem
    have hlen : ∀ d ≤ 1, (yardBlock (675 + d)).length ≤ 21 := by decide
    refine ⟨0, by norm_num, j, lt_of_lt_of_le hj (hlen d hd), ?_⟩
    rw [yardVolume_entry hd (by norm_num), List.getElem?_eq_getElem hj, hat]
    exact ⟨rfl, rfl⟩

theorem yardVolume_tree : FileTree yardVolume {d | d ≤ 1} (fun _ => 0) id := by
  have hname : ∀ d ≤ 1, ∀ de ∈ yardBlock (675 + d), ∀ de' ∈ yardBlock (675 + d),
      de.fileName = de'.fileName → de = de' := by decide
  have hino : ∀ d ≤ 1, ∀ de ∈ yardBlock (675 + d), ∀ de' ∈ yardBlock (675 + d),
      Ordinary de.fileName → Ordinary de'.fileName → de.ino = de'.ino → de = de' := by decide
  have hchild : ∀ d ≤ 1, ∀ de ∈ yardBlock (675 + d), Ordinary de.fileName →
      de.fileType = FileType.directory → de.ino ≤ 1 ∧ de.ino ≠ 0 ∧ 0 = d := by decide
  have hkind : ∀ d ≤ 1, ∀ de ∈ yardBlock (675 + d),
      (de.fileType = FileType.directory ∨ de.fileType = FileType.regular) ∧ de.ino < 4096 := by
    decide
  have hblock : ∀ d ≤ 1, (yardVolume.inodeNo d).block 0 = 675 + d := by
    intro d hd
    rw [yardVolume_inodeNo (by omega)]
    rfl
  refine ⟨⟨?_, ?_, rfl, ⟨Nat.zero_le 1, rfl⟩, ?_, ?_, ?_, ?_, ?_, ?_, ?_, ?_, ?_, ?_, ?_⟩, ?_, ?_⟩
  · exact sampleVolume_newDirectory.layout.congr rfl rfl rfl rfl rfl
  · exact ⟨by decide, by decide, by decide, by decide⟩
  · intro d (hd : d ≤ 1)
    rw [yardVolume_inodeNo (by omega)]
    exact ⟨by omega, rfl⟩
  · intro d (hd : d ≤ 1)
    rw [hblock d hd]
    exact Nat.le_add_right 675 d
  · intro d (hd : d ≤ 1) k
    rw [yardVolume_ref hd]
    unfold maxLba
    split_ifs
    · omega
    · norm_num
  · intro d (hd : d ≤ 1)
    rw [hblock d hd, slot_yardVolume]
    interval_cases d <;> rfl
  · intro d (hd : d ≤ 1)
    rw [hblock d hd, slot_yardVolume]
    interval_cases d <;> rfl
  · intro d _ k _ j _ _ hfree
    rw [slot_yardVolume] at hfree ⊢
    rcases getD_cases (l := yardBlock (yardVolume.blockAt (yardVolume.inodeNo d) k)) (j := j)
      with hempty | hmem
    · exact hempty
    · exact absurd hfree (yardBlock_fits hmem).2
  · intro d hd k hk j hj k' hk' j' hj' de de' hde hde'
    exact hname d hd de ((yardVolume_hasEntry hd).mp ⟨k, hk, j, hj, hde⟩) de'
      ((yardVolume_hasEntry hd).mp ⟨k', hk', j', hj', hde'⟩)
  · intro d hd k hk j hj k' hk' j' hj' de de' hde hde'
    exact hino d hd de ((yardVolume_hasEntry hd).mp ⟨k, hk, j, hj, hde⟩) de'
      ((yardVolume_hasEntry hd).mp ⟨k', hk', j', hj', hde'⟩)
  · intro d hd c d' hc hdir
    obtain ⟨de, hde, rfl, htype, rfl⟩ := hasDir_iff.mp hdir
    exact hchild d hd de ((yardVolume_hasEntry hd).mp hde) hc htype
  · exact fun _ _ => Nat.zero_le 1
  · intro d (hd : d ≤ 1) hd0
    change d = 0 + 1
    omega
  · exact fun d hd de hde => (hkind d hd de ((yardVolume_hasEntry hd).mp hde)).1
  · exact fun d hd de hde => (hkind d hd de ((yardVolume_hasEntry hd).mp hde)).2

/-- The root before it had entries. -/
def yardStart : Volume :=
  { yardVolume with
    disk := fun lba i => if lba = 675 ∧ 48 ≤ i ∧ i < 96 then 0 else yardVolume.disk lba i
    inodes := fun p => if p = 0 then (yardInode 0).setSize 48 else yardInode p }

def yardDir : DirEntry := ⟨[100], 1, FileType.directory⟩

def yardFile : DirEntry := ⟨[102], 2, FileType.regular⟩

/-- The root after the entry `de` was put in slot `j`. -/
def Volume.withRootEntry (v : Volume) (j : ℕ) (de : DirEntry) : Volume :=
  v.putEntry 0 675 (memcpy (v.sector 675) (24 * j) de.bytes 24)

/-- An insertion into a directory with a free slot in its first block. -/
theorem SyncResult.intoFirst (h : SyncResult v p de true w)
    (hb : v.blockAt (v.inodes p) 0 ≠ 0)
    (hj : firstFreeSlot (v.sector (v.blockAt (v.inodes p) 0)) 21 0 = some j) :
    w = v.putEntry p (v.blockAt (v.inodes p) 0)
      (memcpy (v.sector (v.blockAt (v.inodes p) 0)) (24 * j) de.bytes 24) := by
  have hfull : ∀ {k}, FullBefore v p k → k = 0 := by
    intro k hfull
    by_contra hk
    have hnone := (hfull 0 (by omega)).2
    rw [hj] at hnone
    cases hnone
  cases h with
  | intoSlot hk hfull' hb' hj' =>
    obtain rfl := hfull hfull'
    obtain rfl := Option.some.inj (hj.symm.trans hj')
    rfl
  | direct hk hfull' hb' hn =>
    obtain rfl := hfull hfull'
    exact absurd hb' hb
  | table hfull' => exact absurd (hfull hfull') (by norm_num)
  | indirect hk hk' hfull' => exact absurd (hfull hfull') (by omega)

theorem syncSafe_of_slot (hb : v.blockAt (v.inodes p) 0 ≠ 0)
    (hj : firstFreeSlot (v.sector (v.blockAt (v.inodes p) 0)) 21 0 = some j) : SyncSafe p v := by
  have hfirst : ∀ k, FullBefore v p k → v.blockAt (v.inodes p) k ≠ 0 := by
    intro k hfull hk
    have hk0 : k ≠ 0 := by
      rintro rfl
      exact hb hk
    have hnone := (hfull 0 (by omega)).2
    rw [hj] at hnone
    cases hnone
  exact ⟨fun k _ _ hfull hk => absurd hk (hfirst k hfull),
    fun _ _ hfull hk => absurd hk (hfirst 12 hfull), fun _ hfull hk => absurd hk (hfirst 12 hfull)⟩

theorem withRootEntry_disk (v : Volume) (de : DirEntry) (hj : j < 21) (lba i : ℕ) :
    (v.withRootEntry j de).disk lba i = if lba = 675 ∧ 24 * j ≤ i ∧ i < 24 * j + 24
      then de.bytes (i - 24 * j) else v.disk lba i := by
  have hwrite : (v.withRootEntry j de).disk lba i = if 675 ≤ lba ∧ lba < 675 + 1 ∧ i < 512
      then memcpy (v.sector 675) (24 * j) de.bytes 24 (512 * (lba - 675) + i)
      else v.disk lba i := rfl
  rw [hwrite]
  by_cases hlba : lba = 675
  · subst hlba
    by_cases hi : i < 512
    · rw [if_pos (by omega), Nat.sub_self, Nat.mul_zero, Nat.zero_add]
      unfold memcpy
      split_ifs with h1 h2 h2
      · rfl
      · omega
      · omega
      · exact sector_apply v 675 hi
    · rw [if_neg (by omega), if_neg (by omega)]
  · rw [if_neg (by omega), if_neg (by omega)]

/-- The two insertions lead to the volume. -/
theorem yardVolume_eq :
    (yardStart.withRootEntry 2 yardDir).withRootEntry 3 yardFile = yardVolume := by
  set w := (yardStart.withRootEntry 2 yardDir).withRootEntry 3 yardFile with hw
  have hrest : w = { yardVolume with disk := w.disk, inodes := w.inodes } := rfl
  have hdisk : w.disk = yardVolume.disk := by
    funext lba i
    have hyard : ∀ j < 4, 24 * j ≤ i → i < 24 * j + 24 → yardVolume.disk 675 i =
        ((yardBlock 675).getD j DirEntry.empty).bytes (i - 24 * j) := by
      intro j _ h1 h2
      have hdiv : i / 24 = j := by omega
      have hmod : i % 24 = i - 24 * j := by omega
      rw [← hmod, ← hdiv]
      rfl
    have hstart : yardStart.disk lba i =
      if lba = 675 ∧ 48 ≤ i ∧ i < 96 then 0 else yardVolume.disk lba i := rfl
    rw [hw, withRootEntry_disk _ _ (by norm_num), withRootEntry_disk _ _ (by norm_num), hstart]
    split_ifs with h1 h2 h3
    · rw [h1.1, hyard 3 (by norm_num) h1.2.1 h1.2.2]
      rfl
    · rw [h2.1, hyard 2 (by norm_num) h2.2.1 h2.2.2]
      rfl
    · omega
    · rfl
  have hinodes : w.inodes = yardVolume.inodes := by
    funext p
    by_cases hp : p = 0
    · rw [hp]
      rfl
    · simp [hw, Volume.withRootEntry, Volume.putEntry, yardStart, yardVolume, hp]
  rw [hrest, hdisk, hinodes]

/-- An insertion into the root as a step of its history. -/
theorem lifeStep_rootEntry {dot dotdot : DirEntry} {L : Multiset DirEntry}
    (hopen : v.findOpen 0 = some 0) (hl : Layout v) (hb : v.blockAt (v.inodes 0) 0 = 675)
    (hj : firstFreeSlot (v.sector 675) 21 0 = some j) (hde : NewEntry dot dotdot L de)
    (hret : ∃ w, Returns sampleHeap (syncDirEntry ⟨true, 0⟩ de) v true w) :
    LifeStep 0 dot dotdot (v, L) (v.withRootEntry j de, de ::ₘ L) := by
  obtain ⟨w, hret⟩ := hret
  have hres : SyncResult v 0 de true w := hret.of_wp (show wp anyStop _ _ _ _ from
    wp_syncDirEntry hl (fun _ _ => trivial) _)
  have hne : v.blockAt (v.inodes 0) 0 ≠ 0 := by
    rw [hb]
    norm_num
  rw [← hb] at hj
  have hw : w = v.withRootEntry j de := by
    rw [hres.intoFirst hne hj, hb]
    rfl
  rw [hw] at hret
  exact .call hopen (.sync hde hret) (syncSafe_of_slot hne hj) (by simp)

/-- The root got its entries by two insertions. -/
theorem yardVolume_rootLived : Lived yardVolume 0 {yardFile, yardDir} := by
  have hl : Layout yardStart := sampleVolume_newDirectory.layout.congr rfl rfl rfl rfl rfl
  have hl' : Layout (yardStart.withRootEntry 2 yardDir) := hl.congr rfl rfl rfl rfl rfl
  refine ⟨yardStart, ⟨dotName, 0, FileType.directory⟩, ⟨dotDotName, 0, FileType.directory⟩, ?_, ?_⟩
  · refine ⟨hl, ⟨0, by decide, rfl, by decide⟩, ?_, by decide, by decide, by decide, rfl, by decide,
      by decide, by decide, rfl⟩
    intro k h1 _
    exact if_neg (show k ≠ 0 by omega)
  · rw [← yardVolume_eq]
    apply Relation.ReflTransGen.tail (Relation.ReflTransGen.single _)
    · exact lifeStep_rootEntry rfl hl' rfl (by decide +kernel)
        ⟨⟨⟨by decide, by decide⟩, by decide, by decide⟩, by decide, by decide⟩ ⟨_, 0, _, rfl⟩
    · exact lifeStep_rootEntry rfl hl rfl (by decide +kernel)
        ⟨⟨⟨by decide, by decide⟩, by decide, by decide⟩, by decide, by decide⟩ ⟨_, 0, _, rfl⟩

/-- Nothing was inserted into the other directory. -/
theorem yardVolume_dirLived : Lived yardVolume 1 0 := by
  refine ⟨yardVolume, ⟨dotName, 1, FileType.directory⟩, ⟨dotDotName, 0, FileType.directory⟩, ?_,
    .refl⟩
  refine ⟨sampleVolume_newDirectory.layout.congr rfl rfl rfl rfl rfl, ⟨1, by decide, rfl, by decide⟩,
    ?_, by decide, by decide, by decide, rfl, by decide, by decide, by decide, rfl⟩
  intro k h1 _
  exact if_neg (show k ≠ 0 by omega)

theorem yardVolume_tidy : TidyTree yardVolume {d | d ≤ 1} (fun _ => 0) id := by
  have hfile : ∀ d ≤ 1, ∀ de ∈ yardBlock (675 + d), de.fileType = FileType.regular → ¬de.ino ≤ 1 := by
    decide
  refine ⟨yardVolume_tree, ?_, ?_, ?_, rfl, by decide⟩
  · intro d (hd : d ≤ 1)
    interval_cases d
    · exact ⟨_, yardVolume_rootLived⟩
    · exact ⟨_, yardVolume_dirLived⟩
  · exact fun d hd de hde => hfile d hd de ((yardVolume_hasEntry hd).mp hde)
  · intro d (hd : d ≤ 1) d' (hd' : d' ≤ 1) k k' heq hne
    rw [yardVolume_ref hd, yardVolume_ref hd'] at heq
    rw [yardVolume_ref hd] at hne
    split_ifs at heq hne <;> omega

/-- The names of a path in the root stand in its first block. -/
theorem yardVolume_firstBlocks {c : List UInt8} {j : ℕ} (hj : j < 21)
    (hat : (yardBlock 675)[j]? = some de) (hc : de.fileName = c) (hlen : c.length ≤ 15)
    (hmiss : ∀ j' < j, ((yardBlock 675).getD j' DirEntry.empty).fileName ≠ c) :
    FirstBlocks yardVolume [c] := by
  intro pre b post d hsplit hd
  cases pre with
  | nil =>
    obtain ⟨rfl, -⟩ := List.cons.inj hsplit
    obtain rfl := hd.eq_zero
    refine ⟨hlen, j, hj, ⟨de, ?_, hc⟩, fun j' hj' => ?_⟩
    · rw [yardVolume_entry (by norm_num) (by norm_num)]
      exact ⟨rfl, hat⟩
    · rw [slot_yardVolume, yardVolume_blockAt (by norm_num) (by norm_num)]
      exact hmiss j' hj'
  | cons a pre => simp at hsplit

end Sample

end Gogoos
