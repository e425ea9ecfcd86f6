import Gogoos.Kernel.Resolution

/-!
# Taking a directory out of the tree

`dirRemove` for a directory of one block whose entry stands in the first block of its parent, on a
machine with memory: the volume that it leaves, as one function of the volume before.
-/

namespace Gogoos

open Program

variable {e : Heap} {v w : Volume} {d ino j n p q : ℕ} {dir : Dir}

section Entry

/-- The entry of `ino` stands in slot `j` of the first block of the directory, and nowhere else in
that block. -/
structure StandsAt (v : Volume) (i : Inode) (ino j : ℕ) : Prop where
  block : v.blockAt i 0 ≠ 0
  lt : v.blockAt i 0 < maxLba
  slot_lt : j < 21
  hit : Hit (v.sector (v.blockAt i 0)) ino j
  only : ∀ j' < 21, Hit (v.sector (v.blockAt i 0)) ino j' → j' = j
  dot : ∃ j' < 21, (slot (v.sector (v.blockAt i 0)) j').fileType ≠ FileType.unknown ∧
    (slot (v.sector (v.blockAt i 0)) j').fileName = dotName

/-- The volume without the entry in slot `j` of the first block of the directory at `p`. -/
def Volume.clearEntry (v : Volume) (p j : ℕ) : Volume :=
  (v.write (v.blockAt (v.inodes p) 0)
    (memset (v.sector (v.blockAt (v.inodes p) 0)) (24 * j) 0 24) 1).dropEntry p

theorem wp_deleteDirEntry_first (hl : Layout v) (he : ∀ t, e.sysMalloc t = true)
    (h : StandsAt v (v.inodes dir.inode) ino j)
    (htable : (v.inodes dir.inode).block 12 < maxLba) (hino : (v.inodes dir.inode).ino < 4096)
    (hsize : 24 ≤ (v.inodes dir.inode).size) :
    wp noStop e (deleteDirEntry dir ino) (fun _ w => w = v.clearEntry dir.inode j) v := by
  have hentry := hl.dirEntrySize
  unfold deleteDirEntry
  apply wp_sysMallocUnchecked_supplied (.inr he)
  rw [wp_get_bind, wp_loadAllBlocks_bind]
  refine ⟨fun _ => ?_, fun hnot => absurd (.inl htable) hnot⟩
  unfold deleteBlocks
  rw [if_neg h.block]
  apply wp_ideRead_total h.lt (by norm_num) (by norm_num)
  rw [wp_get_bind, hentry]
  apply wp_bind
  apply wp_scanSlots _ _ _ _ (scanOf_zero _ _)
  · intro r hr
    have hfound : r.deFound = some j := by
      cases hd : r.deFound with
      | none => exact absurd h.hit (hr.notFound hd j h.slot_lt)
      | some j' =>
        obtain ⟨hj', hhit, -⟩ := hr.found j' hd
        rw [h.only j' hj' hhit]
    have hfirst : r.isDirFirstBlock = true := hr.first.mpr h.dot
    rw [hfound]
    dsimp only
    rw [if_neg (by simp [hfirst])]
    apply wp_call (R := fun _ w => w = v.write (v.blockAt (v.inodes dir.inode) 0)
      (memset (v.sector (v.blockAt (v.inodes dir.inode) 0)) (24 * j) 0 24) 1)
    · exact wp_ideWrite_total h.lt (by norm_num) (by norm_num) rfl
    rintro _ w rfl
    rw [wp_get_bind, wp_assert_pos (by exact hsize), wp_modifyInode_bind, wp_get_bind]
    apply wp_call (wp_inodeSync_total (Q := fun _ w => w = v.clearEntry dir.inode j) ?_ ?_ rfl)
    · rintro _ w rfl
      exact wp_pure.mpr rfl
    · exact (hl.write _ _ _).setInode _ _
    · simpa using hino
  · intro j₁ j₂ hlt hj₂ h₁ h₂
    have hj : 0 + 512 / 24 = 21 := rfl
    rw [h.only j₁ (by omega) h₁, h.only j₂ (by omega) h₂] at hlt
    exact absurd hlt (lt_irrefl _)

end Entry

section Release

/-- The volume after block `n` and the inode number are given back. -/
def Volume.release (v : Volume) (n ino : ℕ) : Volume :=
  ((v.giveBlock n).setInodeBit ino false).sync ino .inodeBitmap

/-- Blocks that are not there are passed over. -/
theorem releaseBlocks_skip {allBlocks : ℕ → ℕ} : ∀ cnt i,
    (∀ k, i ≤ k → k < i + cnt → allBlocks k = 0) → releaseBlocks allBlocks cnt i = pure () := by
  intro cnt
  induction cnt with
  | zero => exact fun _ _ => rfl
  | succ cnt ih =>
    intro i h
    unfold releaseBlocks
    rw [if_neg (not_not.mpr (h i le_rfl (by omega)))]
    exact ih (i + 1) fun k h1 h2 => h k (by omega) (by omega)

/-- An open inode with one block. -/
structure OneBlock (v : Volume) (q ino n : ℕ) : Prop where
  found : v.findOpen ino = some q
  openCnt : 0 < (v.inodes q).openCnt
  first : (v.inodes q).block 0 = v.superBlock.dataLbaStart + n
  rest : ∀ k < 12, (v.inodes q).block (k + 1) = 0
  pos : 0 < n
  lt : v.superBlock.dataLbaStart + n < 2 ^ 32

/-- The sectors that the bits of the block and of the inode are written to lie before the inode
table. -/
def SyncsInside (v : Volume) (n ino : ℕ) : Prop :=
  syncSecOffset n ≤ v.superBlock.blockBitMapSecCnt ∧ ino < 512

/-- The loop gives back the only block. -/
theorem wp_releaseBlocks_one {allBlocks : ℕ → ℕ} (hl : Layout v)
    (hfirst : allBlocks 0 = v.superBlock.dataLbaStart + n)
    (hrest : ∀ k, 1 ≤ k → k < 12 → allBlocks k = 0) (hpos : 0 < n)
    (hlt : v.superBlock.dataLbaStart + n < 2 ^ 32)
    (hsec : syncSecOffset n ≤ v.superBlock.blockBitMapSecCnt) :
    wp noStop e (releaseBlocks allBlocks 12 0) (fun _ w => w = v.giveBlock n) v := by
  have hstart := hl.inodeBitMap_start
  have htable := hl.inodeTable_start
  have hdata := hl.data_start
  have hmax := hl.data_lt
  have hdataPos := hl.data_pos
  have hidx : v.superBlock.lbaToBitMapIdx (v.superBlock.dataLbaStart + n) = n := by
    unfold SuperBlock.lbaToBitMapIdx
    omega
  have hskip : releaseBlocks allBlocks 11 1 = pure () :=
    releaseBlocks_skip 11 1 fun k h1 h2 => hrest k h1 (by omega)
  unfold releaseBlocks
  rw [if_pos (by rw [hfirst]; omega), wp_blockLbaToBitMapIdx_bind, hfirst, hidx,
    wp_assert_pos hpos, wp_setBlockBit_bind, wp_bitMapSync_bind]
  constructor
  · intro _
    rw [hskip]
    exact wp_pure.mpr rfl
  · intro hnot
    refine absurd ?_ hnot
    change v.superBlock.blockBitMapLbaStart + syncSecOffset n < maxLba
    omega

theorem wp_inodeRelease_one (hl : Layout v) (he : ∀ t, e.sysMalloc t = true)
    (h : OneBlock v q ino n) (hin : SyncsInside v n ino) :
    wp noStop e (inodeRelease ino) (fun _ w => w = v.release n ino) v := by
  have hino := findOpen_ino h.found
  set a := v.setInode q fun i => { i with openCnt := i.openCnt + 1 } with ha
  have hblock : (a.inodes q).block = (v.inodes q).block := by simp [ha]
  have hnotable : (a.inodes q).block 12 = 0 := by
    rw [hblock]
    exact h.rest 11 (by norm_num)
  have hrelease : wp noStop e (releaseBlocks (a.blockAt (a.inodes q)) 12 0)
      (fun _ w => w = a.giveBlock n) a := by
    apply wp_releaseBlocks_one (hl.setInode _ _) _ _ h.pos h.lt hin.1
    · rw [blockAt_direct _ _ (by norm_num), hblock]
      exact h.first
    · intro k h1 h2
      rw [blockAt_direct _ _ h2, hblock]
      have hrest := h.rest (k - 1) (by omega)
      rwa [Nat.sub_add_cancel h1] at hrest
  unfold inodeRelease inodeOpen
  rw [wp_bind_assoc, wp_get_bind, h.found, wp_bind_assoc, wp_modifyInode_bind, wp_pure_bind,
    wp_get_bind, wp_assert_pos (by simpa using hino)]
  apply wp_sysMallocUnchecked_supplied (.inr he)
  rw [wp_loadAllBlocks_bind]
  refine ⟨fun _ => ?_, fun hnot => absurd (.inr hnotable) hnot⟩
  change wp noStop e (if (a.inodes q).block 12 ≠ 0 then _ else _) _ a
  rw [if_neg (not_not.mpr hnotable)]
  apply wp_call hrelease
  rintro _ w rfl
  rw [wp_setInodeBit_bind, wp_bitMapSync_bind]
  constructor
  · intro _
    have hclose : ((a.giveBlock n).setInodeBit ino false).sync ino .inodeBitmap =
        (v.release n ino).setInode q fun i => { i with openCnt := i.openCnt + 1 } := rfl
    rw [hclose]
    suffices wp noStop e (dirClose ⟨false, q⟩) (fun _ w => w = v.release n ino)
      ((v.release n ino).setInode q fun i => { i with openCnt := i.openCnt + 1 }) from this
    apply wp_dirClose_total
    exact closeInode_again h.openCnt
  · intro hnot
    refine absurd ?_ hnot
    have hstart := hl.inodeTable_start
    have hdata := hl.data_start
    have hmax := hl.data_lt
    have hlow := hin.2
    change v.superBlock.inodeBitMapLbaStart + ino / 512 * 8 < maxLba
    omega

end Release

section Remove

theorem findOpen_congr (hopen : w.openInodes = v.openInodes)
    (hino : ∀ p, (w.inodes p).ino = (v.inodes p).ino) : w.findOpen d = v.findOpen d := by
  unfold Volume.findOpen
  rw [hopen]
  exact List.find?_congr fun p _ => by rw [hino p]

theorem clearEntry_inodes : (v.clearEntry p j).inodes q =
    if q = p then (v.inodes p).setSize ((v.inodes p).size - 24) else v.inodes q := by
  by_cases hq : q = p
  · rw [hq, if_pos rfl]
    exact dropEntry_inodes
  · rw [if_neg hq]
    exact if_neg hq

theorem clearEntry_findOpen : (v.clearEntry p j).findOpen d = v.findOpen d := by
  refine findOpen_congr (v := v) (w := v.clearEntry p j) rfl fun q => ?_
  rw [clearEntry_inodes]
  split_ifs with hq
  · rw [hq]
    rfl
  · rfl

theorem Layout.clearEntry (hl : Layout v) (p j : ℕ) : Layout (v.clearEntry p j) :=
  (hl.write _ _ _).dropEntry _

theorem OneBlock.clearEntry (h : OneBlock v q ino n) (hne : q ≠ p) :
    OneBlock (v.clearEntry p j) q ino n := by
  have hat : (v.clearEntry p j).inodes q = v.inodes q := by rw [clearEntry_inodes, if_neg hne]
  refine ⟨clearEntry_findOpen.trans h.found, ?_, ?_, ?_, h.pos, h.lt⟩
  · rw [hat]
    exact h.openCnt
  · rw [hat]
    exact h.first
  · rw [hat]
    exact h.rest

theorem wp_dirRemove_one {childDir : Dir} (hl : Layout v) (he : ∀ t, e.sysMalloc t = true)
    (h : StandsAt v (v.inodes dir.inode) ino j)
    (htable : (v.inodes dir.inode).block 12 < maxLba) (hino : (v.inodes dir.inode).ino < 4096)
    (hsize : 24 ≤ (v.inodes dir.inode).size) (hone : OneBlock v childDir.inode ino n)
    (hne : childDir.inode ≠ dir.inode) (hin : SyncsInside v n ino) :
    wp noStop e (dirRemove dir childDir)
      (fun ok w => ok = true ∧ w = (v.clearEntry dir.inode j).release n ino) v := by
  unfold dirRemove sysMalloc
  rw [wp_get_bind, wp_assert_pos (by exact hone.rest)]
  apply wp_ask_bind
  intro t
  rw [he t, if_neg (by decide), findOpen_ino hone.found]
  apply wp_call (wp_deleteDirEntry_first hl he h htable hino hsize)
  rintro _ w rfl
  apply wp_call (wp_inodeRelease_one (hl.clearEntry _ _) he (hone.clearEntry hne) hin)
  rintro _ w rfl
  exact wp_pure.mpr ⟨rfl, rfl⟩

end Remove

section Disk

variable {s : ℕ}

/-- Behind the bitmaps nothing is written. -/
theorem release_disk (hl : Layout v) (hin : SyncsInside v n ino)
    (hs : v.superBlock.inodeTableLbaStart ≤ s) : (v.release n ino).disk s = v.disk s := by
  have hstart := hl.inodeBitMap_start
  have htable := hl.inodeTable_start
  obtain ⟨hsec, hlow⟩ := hin
  have hzero : syncSecOffset ino = 0 := by
    unfold syncSecOffset
    omega
  have hinode : s ≠ ((v.giveBlock n).setInodeBit ino false).bitMapLbaStart .inodeBitmap +
      syncSecOffset ino := by
    rw [hzero]
    change s ≠ v.superBlock.inodeBitMapLbaStart + 0
    omega
  have hblock : s ≠ v.syncLba n := by
    change s ≠ v.superBlock.blockBitMapLbaStart + syncSecOffset n
    omega
  exact (sync_disk_ne _ _ hinode).trans (giveBlock_disk hblock)

/-- Of the data only the block with the entry is written. -/
theorem clearEntry_disk (hl : Layout v) (hino : (v.inodes p).ino < 4096)
    (hs : v.superBlock.dataLbaStart ≤ s) (hne : s ≠ v.blockAt (v.inodes p) 0) :
    (v.clearEntry p j).disk s = v.disk s :=
  (dropEntry_disk (hl.write _ _ _) hino hs).trans (write_disk_ne _ _ _ hne)

theorem clearEntry_slot {j' : ℕ} (hl : Layout v) (hino : (v.inodes p).ino < 4096)
    (hs : v.superBlock.dataLbaStart ≤ v.blockAt (v.inodes p) 0) (hj : j' < 21) :
    slot ((v.clearEntry p j).disk (v.blockAt (v.inodes p) 0)) j' = if j' = j then DirEntry.empty
      else slot (v.disk (v.blockAt (v.inodes p) 0)) j' := by
  unfold Volume.clearEntry
  rw [dropEntry_disk (hl.write _ _ _) hino hs, slot_write v _ _ hj, slot_memset,
    slot_sector _ hj]

theorem SameInode.trans {a b c : Inode} (h : SameInode a b) (h' : SameInode b c) :
    SameInode a c :=
  ⟨h'.ino.trans h.ino, h'.size.trans h.size, h'.openCnt.trans h.openCnt,
    h'.writeDeny.trans h.writeDeny, fun k hk => (h'.block k hk).trans (h.block k hk)⟩

/-- A record lies in the inode table. -/
theorem sameInode_record (hd : d < 4096) (hsb : w.superBlock = v.superBlock)
    (h : ∀ s, v.superBlock.inodeTableLbaStart ≤ s → s < v.superBlock.inodeTableLbaStart + 608 →
      w.disk s = v.disk s) : SameInode (v.record d) (w.record d) := by
  apply sameInode_of_bytes
  intro k hk
  unfold Volume.tableByte
  rw [hsb, h _ (Nat.le_add_right _ _) (by omega)]

theorem release_record (hl : Layout v) (hin : SyncsInside v n ino) (hd : d < 4096) :
    SameInode (v.record d) ((v.release n ino).record d) :=
  sameInode_record hd rfl fun _ hs _ => release_disk hl hin hs

theorem clearEntry_record_ne (hl : Layout v)
    (hs : v.superBlock.dataLbaStart ≤ v.blockAt (v.inodes p) 0) (hd : d < 4096)
    (hne : d ≠ (v.inodes p).ino) : SameInode (v.record d) ((v.clearEntry p j).record d) := by
  have hdata := hl.data_start
  have hwrite : SameInode (v.record d) ((v.write (v.blockAt (v.inodes p) 0)
      (memset (v.sector (v.blockAt (v.inodes p) 0)) (24 * j) 0 24) 1).record d) :=
    sameInode_record hd rfl fun s _ hlt => write_disk_ne _ _ _ (by omega)
  apply hwrite.trans
  apply storeInode_record_ne
  simpa using hne

/-- The record of the directory is stored with its new size. -/
theorem clearEntry_record_self (hino : (v.inodes p).ino < 4096)
    (hsize : (v.inodes p).size < 2 ^ 32) (hblock : ∀ k < 13, (v.inodes p).block k < 2 ^ 32) :
    SameInode ((v.inodes p).setSize ((v.inodes p).size - 24)).pure
      ((v.clearEntry p j).record (v.inodes p).ino) := by
  have hself := storeInode_record_self (i := (v.inodes p).setSize ((v.inodes p).size - 24))
    (v := (v.write (v.blockAt (v.inodes p) 0)
      (memset (v.sector (v.blockAt (v.inodes p) 0)) (24 * j) 0 24) 1).setInode p
        fun i => i.setSize (i.size - 24)) hino
    (lt_of_le_of_lt (Nat.sub_le _ _) hsize) hblock
  unfold Volume.clearEntry Volume.dropEntry
  simpa using hself

end Disk

end Gogoos
