import Gogoos.Fs.OpenFiles

/-!
# What a search leaves behind

A search opens and closes the directories on its way. When the one that it leaves open is closed
too, nothing has changed but memory that was not in use.
-/

namespace Gogoos

open Program

variable {e : Heap} {α β : Type} {u v w : Volume} {dir : Dir} {p ino : ℕ}

section Relations

/-- What holds of the inodes in memory whichever calls were made. -/
structure Steady (v : Volume) : Prop where
  nodup : v.openInodes.Nodup
  openCnt : ∀ p ∈ v.openInodes, 0 < (v.inodes p).openCnt
  fresh : ∀ p ∈ v.openInodes, p < v.nextInode
  root : v.rootInode < v.nextInode

/-- The volumes differ in inodes that were not in memory, and in the log. -/
structure SameVolume (v w : Volume) : Prop where
  rest : w = { v with inodes := w.inodes, nextInode := w.nextInode, idxLog := w.idxLog }
  inodes : ∀ p < v.nextInode, w.inodes p = v.inodes p
  next : v.nextInode ≤ w.nextInode

theorem SameVolume.refl (v : Volume) : SameVolume v v := ⟨rfl, fun _ _ => rfl, le_rfl⟩

theorem SameVolume.trans (h : SameVolume u v) (h' : SameVolume v w) : SameVolume u w := by
  refine ⟨?_, fun p hp => ?_, h.next.trans h'.next⟩
  · rw [h'.rest, h.rest]
  · rw [h'.inodes p (lt_of_lt_of_le hp h.next), h.inodes p hp]

theorem SameVolume.of_fields (hdisk : w.disk = v.disk) (hstart : w.lbaStart = v.lbaStart)
    (hcnt : w.secCnt = v.secCnt) (hsuper : w.superBlock = v.superBlock)
    (hblocks : w.blockBitMap = v.blockBitMap) (hbits : w.inodeBitMap = v.inodeBitMap)
    (hopen : w.openInodes = v.openInodes) (hroot : w.rootInode = v.rootInode)
    (hinodes : ∀ p < v.nextInode, w.inodes p = v.inodes p) (hnext : v.nextInode ≤ w.nextInode) :
    SameVolume v w := by
  refine ⟨?_, hinodes, hnext⟩
  cases v
  cases w
  simp only at hdisk hstart hcnt hsuper hblocks hbits hopen hroot
  subst hdisk hstart hcnt hsuper hblocks hbits hopen hroot
  rfl

theorem SameVolume.openInodes (h : SameVolume v w) : w.openInodes = v.openInodes := by rw [h.rest]

theorem SameVolume.rootInode (h : SameVolume v w) : w.rootInode = v.rootInode := by rw [h.rest]

theorem SameVolume.steady (h : SameVolume v w) (hv : Steady v) : Steady w := by
  refine ⟨?_, fun p hp => ?_, fun p hp => ?_, ?_⟩
  · rw [h.openInodes]
    exact hv.nodup
  · rw [h.openInodes] at hp
    rw [h.inodes p (hv.fresh p hp)]
    exact hv.openCnt p hp
  · rw [h.openInodes] at hp
    exact lt_of_lt_of_le (hv.fresh p hp) h.next
  · rw [h.rootInode]
    exact lt_of_lt_of_le hv.root h.next

/-- The inode after `openCnt--`. -/
def Inode.closed (i : Inode) : Inode :=
  { i with openCnt := if i.openCnt = 0 then 2 ^ 32 - 1 else i.openCnt - 1 }

/-- The volume after `inodeClose`. -/
def Volume.closeInode (v : Volume) (p : ℕ) : Volume :=
  if (v.inodes p).closed.openCnt = 0 then
    (v.setInode p Inode.closed).setOpenInodes (v.openInodes.erase p)
  else v.setInode p Inode.closed

theorem wp_inodeClose_eq {Q : Unit → Volume → Prop} (h : Q () (v.closeInode p)) :
    wp anyStop e (inodeClose p) Q v := by
  have hat : ((v.setInode p Inode.closed).inodes p).openCnt = (v.inodes p).closed.openCnt := by simp
  unfold inodeClose
  change wp anyStop e (do
    modifyInode p Inode.closed
    let v ← get
    if (v.inodes p).openCnt = 0 then
      modify fun v => v.setOpenInodes (v.openInodes.erase p)) Q v
  rw [wp_modifyInode_bind, wp_get_bind, hat]
  unfold Volume.closeInode at h
  apply wp_ite
  · intro hzero
    rw [wp_modify]
    rwa [if_pos hzero] at h
  · intro hpos
    rw [wp_pure]
    rwa [if_neg hpos] at h

/-- The volume after `dirClose`. -/
def Volume.closeDir (v : Volume) (dir : Dir) : Volume :=
  if dir.isRoot then v else v.closeInode dir.inode

theorem wp_dirClose_eq {Q : Unit → Volume → Prop} (h : Q () (v.closeDir dir)) :
    wp anyStop e (dirClose dir) Q v := by
  unfold dirClose
  unfold Volume.closeDir at h
  apply wp_ite
  · intro hroot
    rw [wp_pure]
    rwa [if_pos hroot] at h
  · intro hroot
    rw [if_neg hroot] at h
    exact wp_inodeClose_eq h

/-- When `dir` is closed the volume is `v` again. -/
structure Holding (v w : Volume) (dir : Dir) : Prop where
  same : SameVolume v (w.closeDir dir)
  lt : dir.inode < w.nextInode

theorem holding_rootDir (hv : Steady v) : Holding v v v.rootDir := ⟨.refl v, hv.root⟩

theorem closeInode_inodes (v : Volume) (p q : ℕ) :
    (v.closeInode p).inodes q = if q = p then (v.inodes p).closed else v.inodes q := by
  have hset : (v.setInode p Inode.closed).inodes q =
      if q = p then (v.inodes p).closed else v.inodes q := by
    by_cases hq : q = p <;> simp [hq]
  unfold Volume.closeInode
  by_cases hcnt : (v.inodes p).closed.openCnt = 0
  · rw [if_pos hcnt]
    exact hset
  · rw [if_neg hcnt]
    exact hset

theorem closeInode_rest (v : Volume) (p : ℕ) : v.closeInode p =
    { v with inodes := (v.closeInode p).inodes, openInodes := (v.closeInode p).openInodes } := by
  unfold Volume.closeInode
  split_ifs <;> rfl

theorem closeInode_openInodes (v : Volume) (p : ℕ) : (v.closeInode p).openInodes =
    if (v.inodes p).closed.openCnt = 0 then v.openInodes.erase p else v.openInodes := by
  unfold Volume.closeInode
  split_ifs <;> rfl

/-- Closing keeps the volumes alike. -/
theorem SameVolume.closeInode (h : SameVolume v w) (hp : p < v.nextInode) :
    SameVolume (v.closeInode p) (w.closeInode p) := by
  have hat : w.inodes p = v.inodes p := h.inodes p hp
  have hinode : ∀ q < v.nextInode, (w.closeInode p).inodes q = (v.closeInode p).inodes q := by
    intro q hq
    rw [closeInode_inodes, closeInode_inodes, hat, h.inodes q hq]
  have hopen : (w.closeInode p).openInodes = (v.closeInode p).openInodes := by
    rw [closeInode_openInodes, closeInode_openInodes, hat, h.openInodes]
  have hnext : (w.closeInode p).nextInode = w.nextInode := by rw [closeInode_rest]
  have hnext' : (v.closeInode p).nextInode = v.nextInode := by rw [closeInode_rest]
  refine ⟨?_, fun q hq => hinode q (hnext' ▸ hq), by rw [hnext, hnext']; exact h.next⟩
  rw [closeInode_rest w, hopen, closeInode_rest v, h.rest]

theorem Holding.congr {x : Volume} (h : Holding v w dir) (hx : SameVolume w x) :
    Holding v x dir := by
  refine ⟨?_, lt_of_lt_of_le h.lt hx.next⟩
  have hsame := h.same
  unfold Volume.closeDir at hsame ⊢
  split_ifs at hsame ⊢ with hroot
  · exact hsame.trans hx
  · exact hsame.trans (hx.closeInode h.lt)

end Relations

section Opening

theorem setInode_setInode (g g' : Inode → Inode) :
    (v.setInode p g).setInode p g' = v.setInode p fun i => g' (g i) := by
  unfold Volume.setInode
  simp only
  congr 1
  funext q
  split_ifs <;> rfl

theorem setInode_id (g : Inode → Inode) (h : g (v.inodes p) = v.inodes p) :
    v.setInode p g = v := by
  unfold Volume.setInode
  congr 1
  funext q
  split_ifs with hq
  · rw [hq, h]
  · rfl

/-- An inode that is open is opened once more. -/
theorem closeInode_again (hcnt : 0 < (v.inodes p).openCnt) :
    (v.setInode p fun i => { i with openCnt := i.openCnt + 1 }).closeInode p = v := by
  have hat : ((v.setInode p fun i => { i with openCnt := i.openCnt + 1 }).inodes p).closed =
      v.inodes p := by simp [Inode.closed]
  unfold Volume.closeInode
  rw [hat, if_neg hcnt.ne', setInode_setInode]
  exact setInode_id _ rfl

/-- An inode is read from the disk, linked and closed again. -/
theorem closeInode_loaded {i : Inode} (hi : i.openCnt = 1) :
    SameVolume v
      (((v.addInode i).setOpenInodes (v.nextInode :: v.openInodes)).closeInode v.nextInode) := by
  have hat : (((v.addInode i).setOpenInodes (v.nextInode :: v.openInodes)).inodes
      v.nextInode).closed.openCnt = 0 := by simp [Inode.closed, hi]
  refine ⟨?_, fun q hq => ?_, ?_⟩
  · unfold Volume.closeInode
    rw [if_pos hat]
    simp only [Volume.setOpenInodes_openInodes, List.erase_cons_head]
    rfl
  · rw [closeInode_inodes, if_neg hq.ne]
    simp [hq.ne]
  · rw [closeInode_rest]
    exact Nat.le_succ _

theorem wp_inodeOpen_holding (hv : Steady v) :
    wp anyStop e (inodeOpen ino) (fun p w => SameVolume v (w.closeInode p) ∧ p < w.nextInode) v := by
  unfold inodeOpen
  rw [wp_get_bind]
  cases hfind : v.findOpen ino with
  | some p =>
    have hp : p ∈ v.openInodes := List.mem_of_find?_eq_some hfind
    simp only [wp_modifyInode_bind, wp_pure]
    rw [closeInode_again (hv.openCnt p hp)]
    exact ⟨.refl v, hv.fresh p hp⟩
  | none =>
    unfold inodeLocate
    simp only [wp_bind_assoc, wp_assert_bind, wp_get_bind, wp_pure_bind]
    refine ⟨fun _ => ?_, fun _ => trivial⟩
    apply wp_sysMallocUnchecked_bind trivial
    apply wp_sysMallocUnchecked_bind trivial
    apply wp_ideRead_of trivial
    unfold newInode
    simp only [wp_bind_assoc, wp_get_bind, wp_modify_bind, wp_pure_bind, wp_pure]
    exact ⟨closeInode_loaded rfl, Nat.lt_succ_self _⟩

theorem wp_dirOpen_holding (hv : Steady u) (h : SameVolume u v) :
    wp anyStop e (dirOpen ino) (fun dir w => Holding u w dir) v := by
  unfold dirOpen
  apply wp_sysMallocUnchecked_bind trivial
  apply wp_call (wp_inodeOpen_holding (h.steady hv))
  intro p w hw
  rw [wp_pure]
  exact ⟨h.trans hw.1, hw.2⟩

end Opening

section Search

/-- Each round closes the directory it leaves, so one is held at the end. -/
theorem wp_searchLoop_holding (hv : Steady u) : ∀ fuel name subPath record parentIno deIno v,
    Holding u v record.parentDir → wp anyStop e
      (searchLoop fuel name subPath record parentIno deIno)
        (fun r w => Holding u w r.2.parentDir) v := by
  intro fuel
  induction fuel with
  | zero =>
    intro name subPath record parentIno deIno v _
    exact wp_halt.mpr trivial
  | succ fuel ih =>
    intro name subPath record parentIno deIno v h
    unfold searchLoop
    apply wp_ite
    · intro _
      apply wp_bind
      apply wp_dirClose_eq
      apply wp_call (wp_dirOpen_holding hv h.same)
      intro dir w hw
      exact wp_pure.mpr hw
    · intro _
      rw [wp_assert_bind]
      refine ⟨fun _ => ?_, fun _ => trivial⟩
      apply wp_call (keeps_searchDirEntry (R := Eq) _ _ e v)
      rintro found w rfl
      cases found with
      | none => exact wp_pure.mpr h
      | some de =>
        apply wp_ite
        · intro _
          rw [wp_get_bind]
          apply wp_bind
          apply wp_dirClose_eq
          apply wp_call (wp_dirOpen_holding hv h.same)
          intro dir w hw
          exact ih _ _ _ _ _ _ hw
        · intro _
          apply wp_ite
          · exact fun _ => wp_pure.mpr h
          · exact fun _ => ih _ _ _ _ _ _ h

theorem wp_searchFile_holding {path : List UInt8} (hv : Steady v) :
    wp anyStop e (searchFile path) (fun r w => Holding v w r.2.parentDir) v := by
  unfold searchFile
  rw [wp_get_bind]
  apply wp_ite
  · intro _
    exact wp_pure.mpr (holding_rootDir hv)
  · intro _
    rw [wp_assert_bind]
    refine ⟨fun _ => ?_, fun _ => trivial⟩
    apply wp_ask_bind
    intro t
    exact wp_searchLoop_holding hv _ _ _ _ _ _ _ (holding_rootDir hv)

end Search

end Gogoos
