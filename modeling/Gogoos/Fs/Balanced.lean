import Gogoos.Fs.LiveDirs

/-!
# Calls that give their blocks back

The inodes in memory are the ones whose block is in use, and a search of a path leaves no block in
use that it has taken, other than the directory that it leaves open.
-/

namespace Gogoos

open Program

namespace Alive

variable {e : Heap} {α β : Type} {s s' : Alive} {dir : DirPtr} {B : Finset ℕ} {a p ino : ℕ}
  {Q : α → Alive → Prop}

section Relations

/-- The inodes in use are the open ones, each in memory once. -/
structure Tracked (s : Alive) : Prop where
  inodeBufs : s.inodeBufs = s.fs.vol.openInodes.toFinset
  nodup : s.fs.vol.openInodes.Nodup
  fresh : ∀ p ∈ s.fs.vol.openInodes, p < s.fs.vol.nextInode

theorem Tracked.congr (h : Tracked s) (hbufs : s'.inodeBufs = s.inodeBufs)
    (hopen : s'.fs.vol.openInodes = s.fs.vol.openInodes)
    (hnext : s'.fs.vol.nextInode = s.fs.vol.nextInode) : Tracked s' := by
  constructor
  · rw [hbufs, hopen]
    exact h.inodeBufs
  · rw [hopen]
    exact h.nodup
  · rw [hopen, hnext]
    exact h.fresh

structure Balanced (s s' : Alive) : Prop where
  bufs : s'.bufs = s.bufs
  tracked : Tracked s → Tracked s'

instance : Std.Refl Balanced := ⟨fun _ => ⟨rfl, fun h => h⟩⟩

instance : IsTrans Alive Balanced :=
  ⟨fun _ _ _ h h' => ⟨h'.bufs.trans h.bufs, fun ht => h'.tracked (h.tracked ht)⟩⟩

/-- The open inodes and the next one stay as they are. -/
def SameLinks (v w : Volume) : Prop := w.openInodes = v.openInodes ∧ w.nextInode = v.nextInode

theorem balanced_sameLinks {m : VolM α} (hm : Keeps SameLinks m) : Keeps Balanced (onVol m) := by
  have hfs : Keeps (fun f f' : Fs => SameLinks f.vol f'.vol) (Gogoos.onVol m) :=
    hm.zoom fun _ _ h => h
  apply hfs.zoom
  intro s f h
  exact ⟨rfl, fun ht => ht.congr rfl h.1 h.2⟩

theorem balanced_onVol {m : VolM α} (hm : Keeps SameOpen m) : Keeps Balanced (onVol m) :=
  balanced_sameLinks (hm.mono fun _ _ h => ⟨h.openInodes, h.nextInode⟩)

end Relations

section Buffers

theorem wp_sysMallocUnchecked_bind {f : ℕ → AliveM α}
    (h : wp anyStop e (f s.fresh) Q (s.take s.fresh)) :
    wp anyStop e (sysMallocUnchecked >>= f) Q s := by
  intro t
  have ht := h (t + 1)
  unfold sysMallocUnchecked
  cases hmem : e.sysMalloc t with
  | true =>
    have hrun : onVol Gogoos.sysMallocUnchecked e t s = .returned () (t + 1) s := by
      simp [onVol, onFs, Gogoos.onVol, zoom, Gogoos.sysMallocUnchecked, bind_apply,
        Gogoos.sysMalloc, ask, hmem, assert, pure, Fs.setVol, setFs]
    rw [bind_bind, bind_returned hrun]
    exact ht
  | false =>
    have hrun : onVol Gogoos.sysMallocUnchecked e t s = .stopped s := by
      simp [onVol, onFs, Gogoos.onVol, zoom, Gogoos.sysMallocUnchecked, bind_apply,
        Gogoos.sysMalloc, ask, hmem, assert, halt, Fs.setVol, setFs]
    rw [bind_bind, bind_apply, hrun]
    trivial

theorem wp_sysMalloc_bind {f : Option ℕ → AliveM α} (hnone : wp anyStop e (f none) Q s)
    (hsome : wp anyStop e (f (some s.fresh)) Q (s.take s.fresh)) :
    wp anyStop e (sysMalloc >>= f) Q s := by
  intro t
  rw [bind_apply, sysMalloc_run]
  cases e.sysMalloc t with
  | true => exact hsome (t + 1)
  | false => exact hnone (t + 1)

/-- A buffer is in use during the call `m`. -/
theorem wp_thenFree {m : AliveM α} (hm : Keeps Balanced m) (ha : a ∉ s.bufs) :
    wp anyStop e (do
      let r ← m
      sysFree a
      return r) (fun _ s' => Balanced s s') (s.take a) := by
  apply wp_call (hm e (s.take a))
  intro r s' hs'
  unfold sysFree
  rw [wp_modify_bind, wp_pure]
  have hbufs : s'.bufs = insert a s.bufs := hs'.bufs
  constructor
  · rw [drop_bufs, hbufs, Finset.erase_insert ha]
  · intro ht
    have htake : Tracked (s.take a) := ht.congr rfl rfl rfl
    exact (hs'.tracked htake).congr rfl rfl rfl

theorem balanced_unchecked {m : AliveM α} (hm : Keeps Balanced m) : Keeps Balanced (do
    let a ← sysMallocUnchecked
    let r ← m
    sysFree a
    return r) := by
  intro e s
  apply wp_sysMallocUnchecked_bind
  exact wp_thenFree hm s.fresh_notMem

theorem balanced_checked {n m : AliveM α} (hn : Keeps Balanced n) (hm : Keeps Balanced m) :
    Keeps Balanced (do
      match ← sysMalloc with
      | none => n
      | some a => do
        let r ← m
        sysFree a
        return r) := by
  intro e s
  apply wp_sysMalloc_bind
  · exact hn e s
  · exact wp_thenFree hm s.fresh_notMem

end Buffers

section Inodes

theorem balanced_modifyInode (g : Inode → Inode) : Keeps Balanced (onVol (modifyInode p g)) :=
  balanced_sameLinks (.modify fun _ => ⟨rfl, rfl⟩)

/-- The inode gets a block that no other has. -/
theorem balanced_linkInode (i : Inode) : Keeps Balanced (linkInode i) := by
  intro e s t
  have hrun : linkInode i e t s = .returned s.fs.vol.nextInode t
      ((s.setFs (s.fs.setVol ((s.fs.vol.addInode i).setOpenInodes
        (s.fs.vol.nextInode :: s.fs.vol.openInodes)))).setInodeBufs
          (insert s.fs.vol.nextInode s.inodeBufs)) := rfl
  rw [hrun]
  constructor
  · rfl
  · intro ht
    have hnew : s.fs.vol.nextInode ∉ s.fs.vol.openInodes := fun h => (ht.fresh _ h).false
    constructor
    · change insert s.fs.vol.nextInode s.inodeBufs =
        (s.fs.vol.nextInode :: s.fs.vol.openInodes).toFinset
      rw [ht.inodeBufs, List.toFinset_cons]
    · exact List.nodup_cons.mpr ⟨hnew, ht.nodup⟩
    · intro p hp
      change p < s.fs.vol.nextInode + 1
      rcases List.mem_cons.mp hp with rfl | hp
      · omega
      · exact Nat.lt_succ_of_lt (ht.fresh p hp)

theorem balanced_inodeOpen (ino : ℕ) : Keeps Balanced (inodeOpen ino) := by
  apply Keeps.get_bind
  intro s
  cases s.fs.vol.findOpen ino with
  | some p => exact (balanced_modifyInode _).bind fun _ => keeps_pure p
  | none =>
    apply (balanced_onVol (keeps_inodeLocate ino)).bind
    intro ip
    apply (balanced_onVol keeps_sysMallocUnchecked).bind
    intro _
    apply balanced_unchecked
    exact (balanced_onVol (keeps_ideRead _ _)).bind fun _ => balanced_linkInode _

/-- What is unlinked is freed. -/
theorem balanced_inodeClose (p : ℕ) : Keeps Balanced (inodeClose p) := by
  apply (balanced_modifyInode _).bind
  intro _
  apply Keeps.get_bind
  intro s₀
  apply Keeps.ite
  · intro e s t
    have hrun : (do
        onVol (modify fun v => v.setOpenInodes (v.openInodes.erase p))
        freeInode p) e t s = .returned () t ((s.setFs (s.fs.setVol (s.fs.vol.setOpenInodes
          (s.fs.vol.openInodes.erase p)))).setInodeBufs (s.inodeBufs.erase p)) := rfl
    rw [hrun]
    constructor
    · rfl
    · intro ht
      constructor
      · change s.inodeBufs.erase p = (s.fs.vol.openInodes.erase p).toFinset
        rw [ht.inodeBufs]
        ext q
        simp [ht.nodup.mem_erase_iff]
      · exact ht.nodup.erase p
      · intro q hq
        exact ht.fresh q (List.mem_of_mem_erase hq)
  · exact keeps_pure ()

end Inodes

section Dirs

/-- Of the blocks that were taken since `B` was in use, that of `dir` is left. -/
structure Holds (B : Finset ℕ) (dir : DirPtr) (s : Alive) : Prop where
  bufs : s.bufs = if dir.dir.isRoot then B else insert dir.addr B
  fresh : dir.dir.isRoot = false → dir.addr ∉ B
  tracked : Tracked s

theorem Holds.balanced (h : Holds B dir s) (hs : Balanced s s') : Holds B dir s' :=
  ⟨hs.bufs.trans h.bufs, h.fresh, hs.tracked h.tracked⟩

theorem holds_rootPtr (hs : Tracked s) : Holds s.bufs s.rootPtr s := by
  constructor
  · rfl
  · intro h
    cases h
  · exact hs

theorem wp_dirOpen_holds (hs : Tracked s) :
    wp anyStop e (dirOpen ino) (fun dir s' => Holds s.bufs dir s') s := by
  unfold dirOpen
  apply wp_sysMallocUnchecked_bind
  apply wp_call (balanced_inodeOpen ino e _)
  intro p s' hs'
  rw [wp_pure]
  have htake : Tracked (s.take s.fresh) := hs.congr rfl rfl rfl
  constructor
  · exact hs'.bufs
  · exact fun _ => s.fresh_notMem
  · exact hs'.tracked htake

theorem wp_dirClose_holds (h : Holds B dir s) :
    wp anyStop e (dirClose dir) (fun _ s' => s'.bufs = B ∧ Tracked s') s := by
  unfold dirClose
  apply wp_ite
  · intro hroot
    rw [wp_pure]
    have hbufs := h.bufs
    rw [if_pos hroot] at hbufs
    exact ⟨hbufs, h.tracked⟩
  · intro hroot
    apply wp_call (balanced_inodeClose dir.dir.inode e s)
    intro _ s' hs'
    unfold sysFree
    rw [wp_modify]
    have hbufs := (h.balanced hs').bufs
    rw [if_neg hroot] at hbufs
    constructor
    · rw [drop_bufs, hbufs]
      exact Finset.erase_insert (h.fresh (by simpa using hroot))
    · exact (hs'.tracked h.tracked).congr rfl rfl rfl

theorem balanced_searchDirEntry (dir : Dir) (name : List UInt8) :
    Keeps Balanced (searchDirEntry dir name) := by
  apply balanced_checked
  · exact keeps_pure none
  · apply Keeps.get_bind
    intro s
    apply (balanced_onVol (keeps_loadAllBlocks _)).bind
    intro allBlocks
    exact balanced_unchecked (balanced_onVol (keeps_searchBlocks _ _ _ _))

theorem balanced_syncDirEntry (dir : Dir) (de : DirEntry) :
    Keeps Balanced (syncDirEntry dir de) := by
  apply Keeps.get_bind
  intro s
  apply keeps_assert.bind
  intro _
  apply balanced_checked
  · exact keeps_pure false
  · exact balanced_onVol ((keeps_loadAllBlocks _).bind fun _ => keeps_syncBlocks _ _ _ _)

/-- Each round closes the directory it leaves, so one block is held at the end. -/
theorem wp_searchLoop_holds : ∀ fuel name subPath record parentIno deIno s,
    Holds B record.parentDir s → wp anyStop e
      (searchLoop fuel name subPath record parentIno deIno)
        (fun r s' => Holds B r.2.parentDir s') s := by
  intro fuel
  induction fuel with
  | zero => exact fun _ _ _ _ _ _ _ => wp_halt.mpr trivial
  | succ fuel ih =>
    intro name subPath record parentIno deIno s h
    unfold searchLoop
    apply wp_ite
    · intro _
      apply wp_call (wp_dirClose_holds h)
      rintro _ s₁ ⟨hbufs, hs₁⟩
      apply wp_call (wp_dirOpen_holds hs₁)
      intro dir s₂ hdir
      rw [hbufs] at hdir
      exact wp_pure.mpr hdir
    · intro _
      rw [wp_assert_bind]
      refine ⟨fun _ => ?_, fun _ => trivial⟩
      apply wp_call (balanced_searchDirEntry _ _ e s)
      intro de s' hs'
      have h' := h.balanced hs'
      cases de with
      | none => exact wp_pure.mpr h'
      | some de =>
        apply wp_ite
        · intro _
          rw [wp_get_bind]
          apply wp_call (wp_dirClose_holds h')
          rintro _ s₁ ⟨hbufs, hs₁⟩
          apply wp_call (wp_dirOpen_holds hs₁)
          intro dir s₂ hdir
          rw [hbufs] at hdir
          exact ih _ _ _ _ _ _ hdir
        · intro _
          apply wp_ite
          · exact fun _ => wp_pure.mpr h'
          · exact fun _ => ih _ _ _ _ _ _ h'

theorem wp_searchFile_holds {path : List UInt8} (hs : Tracked s) :
    wp anyStop e (searchFile path) (fun r s' => Holds s.bufs r.2.parentDir s') s := by
  unfold searchFile
  rw [wp_get_bind]
  apply wp_ite
  · exact fun _ => wp_pure.mpr (holds_rootPtr hs)
  · intro _
    rw [wp_assert_bind]
    constructor
    · intro _
      apply wp_ask_bind
      intro t
      exact wp_searchLoop_holds _ _ _ _ _ _ _ (holds_rootPtr hs)
    · exact fun _ => trivial

end Dirs

end Alive

end Gogoos
