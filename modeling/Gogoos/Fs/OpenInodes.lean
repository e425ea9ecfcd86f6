import Gogoos.Fs.Path
import Gogoos.Fs.Slots

/-!
# The list of open inodes

Which calls of the file system change the list of open inodes and the open counts, and by how
much. Everything that reads or writes the disk and the bitmaps leaves them alone; the rest is
counted against the handles that refer to an inode.
-/

namespace Gogoos

open Program

variable {e : Heap} {α β : Type} {u v w : Volume} {n : ℕ → ℕ} {p q : ℕ}

section Frame

/-- The same inodes are open, and as often. -/
structure SameOpen (v w : Volume) : Prop where
  openInodes : w.openInodes = v.openInodes
  nextInode : w.nextInode = v.nextInode
  rootInode : w.rootInode = v.rootInode
  openCnt : ∀ p, (w.inodes p).openCnt = (v.inodes p).openCnt

theorem SameOpen.refl (v : Volume) : SameOpen v v := ⟨rfl, rfl, rfl, fun _ => rfl⟩

theorem SameOpen.trans (h : SameOpen u v) (h' : SameOpen v w) : SameOpen u w :=
  ⟨h'.openInodes.trans h.openInodes, h'.nextInode.trans h.nextInode,
    h'.rootInode.trans h.rootInode, fun p => (h'.openCnt p).trans (h.openCnt p)⟩

theorem sameOpen_setInode {g : Inode → Inode} (hg : ∀ i, (g i).openCnt = i.openCnt) :
    SameOpen v (v.setInode p g) := by
  refine ⟨rfl, rfl, rfl, fun q => ?_⟩
  by_cases hq : q = p
  · simp [hq, hg]
  · simp [hq]

/-- A preorder that no change of the disk, of the bitmaps, or of the blocks of an inode leaves, nor
an inode that grows. -/
class Framed (S : Volume → Volume → Prop) : Prop extends Std.Refl S, IsTrans Volume S where
  stores : ∀ v w : Volume, w.inodes = v.inodes → w.openInodes = v.openInodes →
    w.nextInode = v.nextInode → w.rootInode = v.rootInode → S v w
  grows : ∀ (v : Volume) (p : ℕ) (g : Inode → Inode), (∀ i, (g i).openCnt = i.openCnt ∧
    (g i).writeDeny = i.writeDeny ∧ i.size ≤ (g i).size) → S v (v.setInode p g)

instance : Framed SameOpen where
  refl := SameOpen.refl
  trans _ _ _ := SameOpen.trans
  stores _ _ hi ho hn hr := ⟨ho, hn, hr, fun p => by rw [hi]⟩
  grows _ _ _ hg := sameOpen_setInode fun i => (hg i).1

variable {R S : Volume → Volume → Prop} [Std.Refl R] [IsTrans Volume R] [Framed S]

omit [IsTrans Volume R] in
theorem keeps_sysMalloc : Keeps R sysMalloc := keeps_ask

theorem keeps_sysMallocUnchecked : Keeps R sysMallocUnchecked :=
  keeps_sysMalloc.bind fun _ => keeps_assert

theorem keeps_ideRead (lba secCnt : ℕ) : Keeps R (ideRead lba secCnt) :=
  keeps_assert.bind fun _ => keeps_assert.bind fun _ => .get_bind fun _ => keeps_pure _

theorem keeps_ideWrite (lba : ℕ) (buf : ℕ → UInt8) (secCnt : ℕ) :
    Keeps S (ideWrite lba buf secCnt) :=
  keeps_assert.bind fun _ => keeps_assert.bind fun _ =>
    .modify fun _ => Framed.stores _ _ rfl rfl rfl rfl

theorem keeps_modifyInode {g : Inode → Inode} (hg : ∀ i, (g i).openCnt = i.openCnt) :
    Keeps SameOpen (modifyInode p g) := .modify fun _ => sameOpen_setInode hg

theorem keeps_setWriteDeny (b : Bool) :
    Keeps SameOpen (modifyInode p fun i => { i with writeDeny := b }) :=
  .modify fun _ => sameOpen_setInode fun _ => rfl

theorem keeps_setBlock (k lba : ℕ) : Keeps S (setBlock p k lba) :=
  .modify fun _ => Framed.grows _ _ _ fun _ => ⟨rfl, rfl, le_rfl⟩

theorem keeps_addSize (k : ℕ) : Keeps S (addSize p k) :=
  .modify fun _ => Framed.grows _ _ _ fun _ => ⟨rfl, rfl, Nat.le_add_right _ _⟩

section BitMaps

theorem keeps_setInodeBit (i : ℕ) (b : Bool) : Keeps S (setInodeBit i b) :=
  .modify fun _ => Framed.stores _ _ rfl rfl rfl rfl

theorem keeps_setBlockBit (i : ℕ) (b : Bool) : Keeps S (setBlockBit i b) :=
  .modify fun _ => Framed.stores _ _ rfl rfl rfl rfl

theorem keeps_inodeBitMapAlloc : Keeps S inodeBitMapAlloc := by
  apply Keeps.get_bind
  intro v
  cases bitMapScan v.inodeBitMap 1 with
  | none => exact keeps_pure _
  | some i => exact (keeps_setInodeBit i true).bind fun _ => keeps_pure _

theorem keeps_blockBitMapAlloc : Keeps S blockBitMapAlloc := by
  apply Keeps.get_bind
  intro v
  cases bitMapScan v.blockBitMap 1 with
  | none => exact keeps_pure _
  | some i => exact (keeps_setBlockBit i true).bind fun _ => keeps_pure _

omit [IsTrans Volume R] in
theorem keeps_blockLbaToBitMapIdx (lba : ℕ) : Keeps R (blockLbaToBitMapIdx lba) :=
  .get_bind fun _ => keeps_pure _

theorem keeps_bitMapSync (i : ℕ) (t : BitMapType) : Keeps S (bitMapSync i t) :=
  have hlog : ∀ v : Volume, S v (v.logIdx t i) := fun _ => Framed.stores _ _ rfl rfl rfl rfl
  (Keeps.modify hlog).bind fun _ => .get_bind fun _ => keeps_ideWrite _ _ _

theorem keeps_freeBlock (lba : ℕ) : Keeps S (freeBlock lba) :=
  (keeps_blockLbaToBitMapIdx lba).bind fun i =>
    (keeps_setBlockBit i false).bind fun _ => keeps_bitMapSync i _

end BitMaps

section Inodes

theorem keeps_inodeLocate (ino : ℕ) : Keeps R (inodeLocate ino) :=
  keeps_assert.bind fun _ => .get_bind fun _ => keeps_pure _

theorem keeps_inodeSync (i : Inode) : Keeps S (inodeSync i) :=
  (keeps_inodeLocate _).bind fun _ => .get_bind fun _ => keeps_assert.bind fun _ =>
    (keeps_ideRead _ _).bind fun _ => keeps_ideWrite _ _ _

theorem keeps_loadAllBlocks (i : Inode) : Keeps R (loadAllBlocks i) := by
  apply Keeps.ite
  · exact (keeps_ideRead _ _).bind fun _ => keeps_pure _
  · exact keeps_pure _

theorem keeps_releaseBlocks (allBlocks : ℕ → ℕ) :
    ∀ cnt i, Keeps S (releaseBlocks allBlocks cnt i)
  | 0, _ => keeps_pure _
  | cnt + 1, i => by
    have hrest := keeps_releaseBlocks allBlocks cnt (i + 1)
    apply Keeps.ite
    · exact (keeps_blockLbaToBitMapIdx _).bind fun _ => keeps_assert.bind fun _ =>
        (keeps_setBlockBit _ _).bind fun _ => (keeps_bitMapSync _ _).bind fun _ => hrest
    · exact hrest

end Inodes

section Dirs

theorem keeps_searchBlocks (allBlocks : ℕ → ℕ) (name : List UInt8) :
    ∀ cnt i, Keeps R (searchBlocks allBlocks name cnt i)
  | 0, _ => keeps_pure _
  | cnt + 1, i => by
    have hrest := keeps_searchBlocks allBlocks name cnt (i + 1)
    unfold searchBlocks
    apply Keeps.ite hrest
    refine (keeps_ideRead _ _).bind fun sector => keeps_ask.bind fun behind => .get_bind fun v => ?_
    dsimp only
    split
    · exact keeps_pure _
    · exact hrest

theorem keeps_searchDirEntry (dir : Dir) (name : List UInt8) :
    Keeps R (searchDirEntry dir name) := by
  unfold searchDirEntry
  refine keeps_sysMalloc.bind fun ok => ?_
  apply Keeps.ite (keeps_pure _)
  exact .get_bind fun _ => (keeps_loadAllBlocks _).bind fun _ =>
    keeps_sysMallocUnchecked.bind fun _ => keeps_searchBlocks _ _ _ _

theorem keeps_createDirEntry (name : List UInt8) (ino fileType : ℕ) :
    Keeps R (createDirEntry name ino fileType) :=
  keeps_assert.bind fun _ => keeps_pure _

theorem keeps_writeTable (allBlocks : ℕ → ℕ) : Keeps S (writeTable p allBlocks) :=
  .get_bind fun _ => keeps_ideWrite _ _ _

theorem keeps_putFirstEntry (lba : ℕ) (de : DirEntry) : Keeps S (putFirstEntry p lba de) :=
  .get_bind fun _ => (keeps_ideWrite _ _ _).bind fun _ => (keeps_addSize _).bind fun _ =>
    keeps_pure _

theorem keeps_syncNewBlock (lba : ℕ) : Keeps S (syncNewBlock lba) :=
  (keeps_blockLbaToBitMapIdx lba).bind fun _ => keeps_assert.bind fun _ => keeps_bitMapSync _ _

theorem keeps_syncAtTable (allBlocks : ℕ → ℕ) (lba : ℕ) (de : DirEntry) :
    Keeps S (syncAtTable p allBlocks lba de) := by
  refine (keeps_setBlock _ _).bind fun _ => keeps_blockBitMapAlloc.bind ?_
  rintro (_ | blockLba)
  · exact .get_bind fun _ => (keeps_blockLbaToBitMapIdx _).bind fun _ =>
      (keeps_setBlockBit _ _).bind fun _ => (keeps_setBlock _ _).bind fun _ =>
        (keeps_bitMapSync _ _).bind fun _ => keeps_pure _
  · exact (keeps_syncNewBlock _).bind fun _ => (keeps_writeTable _).bind fun _ =>
      keeps_putFirstEntry _ _

theorem keeps_syncBlocks (allBlocks : ℕ → ℕ) (de : DirEntry) :
    ∀ cnt i, Keeps S (syncBlocks p allBlocks de cnt i)
  | 0, _ => keeps_pure _
  | cnt + 1, i => by
    unfold syncBlocks
    apply Keeps.ite
    · refine keeps_blockBitMapAlloc.bind ?_
      rintro (_ | blockLba)
      · exact keeps_pure _
      refine (keeps_syncNewBlock _).bind fun _ => ?_
      apply Keeps.ite
      · exact (keeps_setBlock _ _).bind fun _ => keeps_putFirstEntry _ _
      apply Keeps.ite
      · exact keeps_syncAtTable _ _ _
      · exact (keeps_writeTable _).bind fun _ => keeps_putFirstEntry _ _
    · refine (keeps_ideRead _ _).bind fun ioBuf => .get_bind fun v => ?_
      dsimp only
      split
      · exact (keeps_ideWrite _ _ _).bind fun _ => (keeps_addSize _).bind fun _ => keeps_pure _
      · exact keeps_syncBlocks allBlocks de cnt (i + 1)

theorem keeps_syncDirEntry (dir : Dir) (de : DirEntry) : Keeps S (syncDirEntry dir de) := by
  refine .get_bind fun v => keeps_assert.bind fun _ => keeps_sysMalloc.bind fun ok => ?_
  apply Keeps.ite (keeps_pure _)
  exact (keeps_loadAllBlocks _).bind fun _ => keeps_syncBlocks _ _ _ _

theorem keeps_scanSlots (buf : ℕ → UInt8) (ino : ℕ) :
    ∀ cnt i r, Keeps S (scanSlots buf ino cnt i r)
  | 0, _, _ => keeps_pure _
  | cnt + 1, i, r => by
    have hrest := keeps_scanSlots buf ino cnt (i + 1)
    unfold scanSlots
    apply Keeps.ite
    · apply Keeps.ite (hrest _)
      apply Keeps.ite
      · exact keeps_assert.bind fun _ => hrest _
      · exact hrest _
    · exact hrest _

theorem keeps_dropBlock (allBlocks : ℕ → ℕ) (i : ℕ) : Keeps S (dropBlock p allBlocks i) := by
  refine (keeps_freeBlock _).bind fun _ => ?_
  apply Keeps.ite (keeps_setBlock _ _)
  refine keeps_assert.bind fun _ => ?_
  apply Keeps.ite (keeps_writeTable _)
  exact (keeps_freeBlock _).bind fun _ => keeps_setBlock _ _

/-- The end of a deletion. -/
theorem keeps_shrink (k : ℕ) : Keeps SameOpen (do
    let v ← get
    assert (k ≤ (v.inodes p).size)
    modifyInode p fun i => i.setSize (i.size - k)
    let v ← get
    inodeSync (v.inodes p)
    return true : VolM Bool) := by
  refine .get_bind fun v => keeps_assert.bind fun _ => (keeps_modifyInode ?_).bind fun _ => ?_
  · exact fun _ => rfl
  · exact .get_bind fun _ => (keeps_inodeSync _).bind fun _ => keeps_pure _

theorem keeps_deleteBlocks (allBlocks : ℕ → ℕ) (ino : ℕ) :
    ∀ cnt i, Keeps SameOpen (deleteBlocks p allBlocks ino cnt i)
  | 0, _ => keeps_pure _
  | cnt + 1, i => by
    have hrest := keeps_deleteBlocks allBlocks ino cnt (i + 1)
    unfold deleteBlocks
    apply Keeps.ite hrest
    refine (keeps_ideRead _ _).bind fun ioBuf => .get_bind fun v =>
      (keeps_scanSlots _ _ _ _ _).bind fun r => ?_
    split
    · exact hrest
    · apply Keeps.ite
      · exact (keeps_dropBlock _ _).bind fun _ => keeps_shrink _
      · exact (keeps_ideWrite _ _ _).bind fun _ => keeps_shrink _

theorem keeps_deleteDirEntry (dir : Dir) (ino : ℕ) : Keeps SameOpen (deleteDirEntry dir ino) :=
  keeps_sysMallocUnchecked.bind fun _ => .get_bind fun _ => (keeps_loadAllBlocks _).bind fun _ =>
    keeps_deleteBlocks _ _ _ _

omit [IsTrans Volume R] in
theorem keeps_dirIsEmpty (dir : Dir) : Keeps R (dirIsEmpty dir) :=
  .get_bind fun _ => keeps_pure _

end Dirs

section Paths

theorem keeps_pathDepthCnt (path : List UInt8) : Keeps R (pathDepthCnt path) := by
  apply Keeps.ite
  · exact keeps_ask.bind fun _ => keeps_pure _
  · exact keeps_pure _

theorem keeps_lastName (path : List UInt8) : Keeps R (lastName path) :=
  keeps_assert.bind fun _ => keeps_pure _

end Paths

section Opening

/-- The list of open inodes may change too, and the open counts. -/
class Opening (S : Volume → Volume → Prop) : Prop extends Framed S where
  adds : ∀ (v : Volume) (i : Inode), S v (v.addInode i)
  links : ∀ (v : Volume) (i : Inode),
    S v ((v.addInode i).setOpenInodes (v.nextInode :: v.openInodes))
  unlinks : ∀ (v : Volume) (p : ℕ), S v (v.setOpenInodes (v.openInodes.erase p))
  counts : ∀ (v : Volume) (p : ℕ) (cnt : Inode → ℕ),
    S v (v.setInode p fun i => { i with openCnt := cnt i })

variable {T : Volume → Volume → Prop} [Opening T]

theorem keeps_newInode (i : Inode) : Keeps T (newInode i) :=
  .get_bind fun _ => (Keeps.modify fun v => Opening.adds v i).bind fun _ => keeps_pure _

theorem keeps_inodeOpen (ino : ℕ) : Keeps T (inodeOpen ino) := by
  apply Keeps.get_bind
  intro u
  cases u.findOpen ino with
  | some p => exact (Keeps.modify fun v => Opening.counts v p _).bind fun _ => keeps_pure _
  | none =>
    refine (keeps_inodeLocate ino).bind fun ip => keeps_sysMallocUnchecked.bind fun _ =>
      keeps_sysMallocUnchecked.bind fun _ => (keeps_ideRead _ _).bind fun inodeBuf => ?_
    intro e v
    unfold newInode
    simp only [wp_bind_assoc, wp_get_bind, wp_modify_bind, wp_pure_bind, wp_pure]
    exact Opening.links v _

theorem keeps_inodeClose (p : ℕ) : Keeps T (inodeClose p) := by
  refine (Keeps.modify fun v => Opening.counts v p _).bind fun _ => .get_bind fun v => ?_
  apply Keeps.ite
  · exact .modify fun v => Opening.unlinks v p
  · exact keeps_pure _

theorem keeps_dirOpen (ino : ℕ) : Keeps T (dirOpen ino) :=
  keeps_sysMallocUnchecked.bind fun _ => (keeps_inodeOpen ino).bind fun _ => keeps_pure _

theorem keeps_dirClose (dir : Dir) : Keeps T (dirClose dir) :=
  Keeps.ite (keeps_pure _) (keeps_inodeClose _)

theorem keeps_searchLoop : ∀ fuel name subPath record parentIno deIno,
    Keeps T (searchLoop fuel name subPath record parentIno deIno) := by
  intro fuel
  induction fuel with
  | zero => exact fun _ _ _ _ _ => keeps_halt
  | succ fuel ih =>
    intro name subPath record parentIno deIno
    unfold searchLoop
    apply Keeps.ite
    · exact (keeps_dirClose _).bind fun _ => (keeps_dirOpen _).bind fun _ => keeps_pure _
    · refine keeps_assert.bind fun _ => (keeps_searchDirEntry _ _).bind ?_
      rintro (_ | de)
      · exact keeps_pure _
      · dsimp only
        apply Keeps.ite
        · exact .get_bind fun _ => (keeps_dirClose _).bind fun _ => (keeps_dirOpen _).bind fun _ =>
            ih _ _ _ _ _
        · exact Keeps.ite (keeps_pure _) (ih _ _ _ _ _)

theorem keeps_searchFile (path : List UInt8) : Keeps T (searchFile path) := by
  refine .get_bind fun v => ?_
  apply Keeps.ite (keeps_pure _)
  exact keeps_assert.bind fun _ => keeps_ask.bind fun _ => keeps_searchLoop _ _ _ _ _ _

end Opening

end Frame

section Tallied

/-- Every inode is listed once, as long as one of its `n p` handles is left, and its open count
is their number. -/
structure Tallied (root : ℕ) (v : Volume) (n : ℕ → ℕ) : Prop where
  rootInode : v.rootInode = root
  nodup : v.openInodes.Nodup
  mem : ∀ p, p ∈ v.openInodes ↔ 0 < n p
  openCnt : ∀ p, 0 < n p → (v.inodes p).openCnt = n p
  fresh : ∀ p, 0 < n p → p < v.nextInode

variable {root ino : ℕ}

theorem Tallied.same (h : Tallied root v n) (hs : SameOpen v w) : Tallied root w n where
  rootInode := hs.rootInode.trans h.rootInode
  nodup := hs.openInodes ▸ h.nodup
  mem := hs.openInodes ▸ h.mem
  openCnt p hp := (hs.openCnt p).trans (h.openCnt p hp)
  fresh p hp := hs.nextInode ▸ h.fresh p hp

theorem wp_tallied {m : VolM α} (h : Tallied root v n) (hm : Keeps SameOpen m) :
    wp anyStop e m (fun _ w => Tallied root w n) v :=
  wp_mono (hm e v) fun _ _ hs => h.same hs

theorem wp_tallied_bind {m : VolM β} {f : β → VolM α} {Q : α → Volume → Prop}
    (h : Tallied root v n) (hm : Keeps SameOpen m)
    (hf : ∀ b w, Tallied root w n → wp anyStop e (f b) Q w) : wp anyStop e (m >>= f) Q v :=
  wp_call (wp_tallied h hm) hf

/-- A new inode in memory that nothing refers to yet. -/
theorem Tallied.addInode (h : Tallied root v n) (i : Inode) : Tallied root (v.addInode i) n where
  rootInode := h.rootInode
  nodup := h.nodup
  mem := h.mem
  openCnt p hp := by
    have hne : p ≠ v.nextInode := (h.fresh p hp).ne
    simp [hne, h.openCnt p hp]
  fresh p hp := Nat.lt_succ_of_lt (h.fresh p hp)

/-- The inode `p` is linked with its first handle. -/
theorem Tallied.link (h : Tallied root v n) (hp : p ∉ v.openInodes) (hlt : p < v.nextInode)
    (hv : w.rootInode = v.rootInode) (hnext : w.nextInode = v.nextInode)
    (hopen : w.openInodes = p :: v.openInodes) (hcnt : (w.inodes p).openCnt = 1)
    (hne : ∀ q, q ≠ p → (w.inodes q).openCnt = (v.inodes q).openCnt) :
    Tallied root w (n + Pi.single p 1) := by
  have hzero : n p = 0 := Nat.eq_zero_of_not_pos fun hn => hp ((h.mem p).mpr hn)
  refine ⟨hv.trans h.rootInode, ?_, fun q => ?_, fun q hq => ?_, fun q hq => ?_⟩
  · rw [hopen]
    exact List.nodup_cons.mpr ⟨hp, h.nodup⟩
  · rw [hopen, List.mem_cons, h.mem q]
    by_cases hqp : q = p <;> simp [hqp]
  · by_cases hqp : q = p
    · simp [hqp, hcnt, hzero]
    · have hq' : 0 < n q := by simpa [hqp] using hq
      simp [hqp, hne q hqp, h.openCnt q hq']
  · rw [hnext]
    by_cases hqp : q = p
    · exact hqp ▸ hlt
    · exact h.fresh q (by simpa [hqp] using hq)

/-- The inode `p` is in memory and not linked. -/
structure Spare (root : ℕ) (v : Volume) (n : ℕ → ℕ) (p : ℕ) : Prop where
  tallied : Tallied root v n
  unlinked : p ∉ v.openInodes
  lt : p < v.nextInode

theorem Spare.same (h : Spare root v n p) (hs : SameOpen v w) : Spare root w n p :=
  ⟨h.tallied.same hs, hs.openInodes ▸ h.unlinked, hs.nextInode ▸ h.lt⟩

theorem Tallied.spare (h : Tallied root v n) (i : Inode) :
    Spare root (v.addInode i) n v.nextInode :=
  ⟨h.addInode i, fun hp => (h.fresh _ ((h.mem _).mp hp)).false, Nat.lt_succ_self _⟩

theorem wp_inodeOpen (h : Tallied root v n) :
    wp anyStop e (inodeOpen ino) (fun p w => Tallied root w (n + Pi.single p 1)) v := by
  unfold inodeOpen
  rw [wp_get_bind]
  cases hfind : v.findOpen ino with
  | some p =>
    simp only [wp_modifyInode_bind, wp_pure]
    have hp : 0 < n p := (h.mem p).mp (List.mem_of_find?_eq_some hfind)
    refine ⟨h.rootInode, h.nodup, fun q => ?_, fun q hq => ?_, fun q hq => ?_⟩
    · by_cases hqp : q = p
      · simp [hqp, h.mem, hp]
      · simp [hqp, h.mem]
    · by_cases hqp : q = p
      · simp [hqp, h.openCnt p hp]
      · have hq' : 0 < n q := by simpa [hqp] using hq
        simp [hqp, h.openCnt q hq']
    · by_cases hqp : q = p
      · exact hqp ▸ h.fresh p hp
      · exact h.fresh q (by simpa [hqp] using hq)
  | none =>
    apply wp_tallied_bind h (keeps_inodeLocate _)
    intro ip w₁ h₁
    apply wp_tallied_bind h₁ keeps_sysMallocUnchecked
    intro _ w₂ h₂
    apply wp_tallied_bind h₂ keeps_sysMallocUnchecked
    intro _ w₃ h₃
    apply wp_tallied_bind h₃ (keeps_ideRead _ _)
    intro inodeBuf w h
    unfold newInode
    simp only [wp_bind_assoc, wp_get_bind, wp_modify_bind, wp_pure_bind, wp_pure]
    have hp := h.spare
      { Inode.ofBytes (fun k => inodeBuf (ip.byteOffset + k)) with openCnt := 1 }
    exact hp.tallied.link hp.unlinked hp.lt rfl rfl rfl (by simp) fun q hq => rfl

theorem wp_inodeClose (h : Tallied root v (n + Pi.single p 1)) :
    wp anyStop e (inodeClose p) (fun _ w => Tallied root w n) v := by
  have hp : (v.inodes p).openCnt = n p + 1 := by
    have := h.openCnt p (by simp)
    simpa using this
  have hcnt : ∀ q, q ≠ p → 0 < n q → (v.inodes q).openCnt = n q := by
    intro q hqp hq
    have := h.openCnt q (by simp [hq])
    simpa [hqp] using this
  have hfresh : ∀ q, 0 < n q → q < v.nextInode := fun q hq => h.fresh q (by simp [hq])
  unfold inodeClose
  simp only [wp_modifyInode_bind, wp_get_bind]
  apply wp_ite
  · intro hzero
    have hn : n p = 0 := by simpa [hp] using hzero
    rw [wp_modify]
    refine ⟨h.rootInode, h.nodup.erase _, fun q => ?_, fun q hq => ?_, hfresh⟩
    · change q ∈ v.openInodes.erase p ↔ _
      rw [h.nodup.mem_erase_iff, h.mem q]
      by_cases hqp : q = p
      · simp [hqp, hn]
      · simp [hqp]
    · have hqp : q ≠ p := by
        rintro rfl
        omega
      simpa [hqp] using hcnt q hqp hq
  · intro hpos
    have hn : 0 < n p := by
      have : n p ≠ 0 := by simpa [hp] using hpos
      omega
    rw [wp_pure]
    refine ⟨h.rootInode, h.nodup, fun q => ?_, fun q hq => ?_, hfresh⟩
    · change q ∈ v.openInodes ↔ _
      rw [h.mem q]
      by_cases hqp : q = p
      · simp [hqp, hn]
      · simp [hqp]
    · by_cases hqp : q = p
      · simp [hqp, hp]
      · simpa [hqp] using hcnt q hqp hq

end Tallied

section Calls

variable {root ino : ℕ} {dir : Dir} {m : VolM α}

/-- The handles that a directory is. `rootDir` is there all the time and not counted here. -/
def Dir.handles (dir : Dir) : ℕ → ℕ := if dir.isRoot then 0 else Pi.single dir.inode 1

@[simp] theorem rootDir_handles (v : Volume) : v.rootDir.handles = 0 := rfl

theorem wp_dirOpen (h : Tallied root v n) :
    wp anyStop e (dirOpen ino) (fun dir w => Tallied root w (n + dir.handles)) v := by
  unfold dirOpen
  apply wp_tallied_bind h keeps_sysMallocUnchecked
  intro _ w hw
  exact wp_call (wp_inodeOpen hw) fun p w' hw' => wp_pure.mpr hw'

theorem wp_dirClose (h : Tallied root v (n + dir.handles)) :
    wp anyStop e (dirClose dir) (fun _ w => Tallied root w n) v := by
  unfold dirClose
  cases hroot : dir.isRoot with
  | true =>
    have hn : n + dir.handles = n := by simp [Dir.handles, hroot]
    exact wp_pure.mpr (hn ▸ h)
  | false =>
    have hn : dir.handles = Pi.single dir.inode 1 := by simp [Dir.handles, hroot]
    exact wp_inodeClose (hn ▸ h)

theorem wp_dirClose_bind {f : Unit → VolM α} {Q : α → Volume → Prop}
    (h : Tallied root v (n + dir.handles))
    (hf : ∀ w, Tallied root w n → wp anyStop e (f ()) Q w) :
    wp anyStop e (dirClose dir >>= f) Q v :=
  wp_call (wp_dirClose h) fun _ w hw => hf w hw

/-- What is returned after a directory is closed does not matter. -/
theorem wp_closeAndReturn {a : α} (h : Tallied root v (n + dir.handles)) :
    wp anyStop e (do
      dirClose dir
      return a) (fun _ w => Tallied root w n) v :=
  wp_dirClose_bind h fun _ hw => wp_pure.mpr hw

/-- Each round closes the directory it leaves, so one is open at the end. -/
theorem wp_searchLoop : ∀ fuel name subPath record parentIno deIno v,
    Tallied root v (n + record.parentDir.handles) →
      wp anyStop e (searchLoop fuel name subPath record parentIno deIno)
        (fun r w => Tallied root w (n + r.2.parentDir.handles)) v := by
  intro fuel
  induction fuel with
  | zero => exact fun _ _ _ _ _ _ _ => wp_halt.mpr trivial
  | succ fuel ih =>
    intro name subPath record parentIno deIno v h
    unfold searchLoop
    apply wp_ite
    · intro _
      apply wp_dirClose_bind h
      intro w hw
      exact wp_call (wp_dirOpen hw) fun dir w' hw' => wp_pure.mpr hw'
    · intro _
      rw [wp_assert_bind]
      refine ⟨fun _ => ?_, fun _ => trivial⟩
      apply wp_tallied_bind h (keeps_searchDirEntry _ _)
      rintro (_ | de) w hw
      · exact wp_pure.mpr hw
      dsimp only
      apply wp_ite
      · intro _
        rw [wp_get_bind]
        apply wp_dirClose_bind hw
        intro w' hw'
        exact wp_call (wp_dirOpen hw') fun dir w'' hw'' => ih _ _ _ _ _ _ hw''
      intro _
      apply wp_ite
      · exact fun _ => wp_pure.mpr hw
      · exact fun _ => ih _ _ _ _ _ _ hw

theorem wp_searchFile {path : List UInt8} (h : Tallied root v n) :
    wp anyStop e (searchFile path)
      (fun r w => Tallied root w (n + r.2.parentDir.handles)) v := by
  unfold searchFile
  rw [wp_get_bind]
  apply wp_ite
  · exact fun _ => wp_pure.mpr h
  · intro _
    rw [wp_assert_bind]
    refine ⟨fun _ => ?_, fun _ => trivial⟩
    apply wp_ask_bind
    intro t
    exact wp_searchLoop _ _ _ _ _ _ _ h

theorem wp_searchFile_bind {path : List UInt8} {f : Option ℕ × PathSearchRecord → VolM α}
    {Q : α → Volume → Prop} (h : Tallied root v n)
    (hf : ∀ ino record w, Tallied root w (n + record.parentDir.handles) →
      wp anyStop e (f (ino, record)) Q w) : wp anyStop e (searchFile path >>= f) Q v :=
  wp_call (wp_searchFile h) fun r w hw => hf r.1 r.2 w hw

theorem wp_inodeRelease (h : Tallied root v n) :
    wp anyStop e (inodeRelease ino) (fun _ w => Tallied root w n) v := by
  unfold inodeRelease
  apply wp_call (wp_inodeOpen h)
  intro p w hw
  rw [wp_get_bind, wp_assert_bind]
  refine ⟨fun _ => ?_, fun _ => trivial⟩
  apply wp_tallied_bind hw keeps_sysMallocUnchecked
  intro _ w₁ h₁
  apply wp_tallied_bind h₁ (keeps_loadAllBlocks _)
  intro allBlocks w₂ h₂
  have hend : ∀ w, Tallied root w (n + Pi.single p 1) → wp anyStop e (do
      releaseBlocks allBlocks 12 0
      setInodeBit ino false
      bitMapSync ino .inodeBitmap
      inodeClose p) (fun _ w => Tallied root w n) w := by
    intro w hw
    apply wp_tallied_bind hw (keeps_releaseBlocks _ _ _)
    intro _ w' hw'
    apply wp_tallied_bind hw' (keeps_setInodeBit _ _)
    intro _ w' hw'
    apply wp_tallied_bind hw' (keeps_bitMapSync _ _)
    exact fun _ w hw => wp_inodeClose hw
  apply wp_ite
  · intro _
    apply wp_tallied_bind h₂ (keeps_blockLbaToBitMapIdx _)
    intro i w₃ h₃
    rw [wp_assert_bind]
    refine ⟨fun _ => ?_, fun _ => trivial⟩
    apply wp_tallied_bind h₃ (keeps_setBlockBit _ _)
    intro _ w₄ h₄
    apply wp_tallied_bind h₄ (keeps_bitMapSync _ _)
    exact fun _ w hw => hend w hw
  · exact fun _ => hend w₂ h₂

theorem wp_dirRemove {parentDir childDir : Dir} (h : Tallied root v n) :
    wp anyStop e (dirRemove parentDir childDir) (fun _ w => Tallied root w n) v := by
  unfold dirRemove
  rw [wp_get_bind, wp_assert_bind]
  refine ⟨fun _ => ?_, fun _ => trivial⟩
  apply wp_tallied_bind h keeps_sysMalloc
  intro ok w hw
  apply wp_ite
  · exact fun _ => wp_pure.mpr hw
  intro _
  apply wp_tallied_bind hw (keeps_deleteDirEntry _ _)
  intro _ w' hw'
  exact wp_call (wp_inodeRelease hw') fun _ w hw => wp_pure.mpr hw

theorem wp_sysRmdir {path : List UInt8} (h : Tallied root v n) :
    wp anyStop e (sysRmdir path) (fun _ w => Tallied root w n) v := by
  unfold sysRmdir
  apply wp_searchFile_bind h
  rintro (_ | ino) record w hw
  · exact wp_closeAndReturn hw
  apply wp_ite
  · exact fun _ => wp_closeAndReturn hw
  intro _
  apply wp_call (wp_dirOpen hw)
  intro dir w₁ h₁
  have hend : ∀ (ret : ℤ) w, Tallied root w (n + record.parentDir.handles + dir.handles) →
      wp anyStop e (do
        dirClose dir
        dirClose record.parentDir
        return ret) (fun _ w => Tallied root w n) w :=
    fun ret w hw => wp_dirClose_bind hw fun w hw => wp_closeAndReturn hw
  apply wp_tallied_bind h₁ (keeps_dirIsEmpty _)
  intro empty w₂ h₂
  apply wp_ite
  · exact fun _ => hend _ _ h₂
  intro _
  apply wp_call (wp_dirRemove h₂)
  intro ok w₃ h₃
  apply wp_ite
  · exact fun _ => hend _ _ h₃
  · exact fun _ => hend _ _ h₃

theorem wp_sysStat {path : List UInt8} (h : Tallied root v n) :
    wp anyStop e (sysStat path) (fun _ w => Tallied root w n) v := by
  unfold sysStat
  apply wp_ite
  · exact fun _ => wp_get_bind.mpr (wp_pure.mpr h)
  intro _
  apply wp_searchFile_bind h
  rintro (_ | ino) record w hw
  · exact wp_closeAndReturn hw
  apply wp_call (wp_inodeOpen hw)
  intro p w₁ h₁
  rw [wp_get_bind]
  apply wp_call (wp_inodeClose h₁)
  exact fun _ w₂ h₂ => wp_closeAndReturn h₂

theorem wp_sysChDir {path : List UInt8} (h : Tallied root v n) :
    wp anyStop e (sysChDir path) (fun _ w => Tallied root w n) v := by
  unfold sysChDir
  apply wp_searchFile_bind h
  intro ino record w hw
  apply wp_dirClose_bind hw
  intro w hw
  apply wp_ite
  · exact fun _ => wp_pure.mpr hw
  · exact fun _ => wp_pure.mpr hw

/-- What `makeDir` does between taking an inode number and writing the inode: a block for the
new directory and its entry in the parent. `none` sends the code to its second rollback step. -/
def enterDir (record : PathSearchRecord) (dirName : List UInt8) (ino : ℕ) : VolM (Option ℕ) := do
  match ← blockBitMapAlloc with
  | none => return none
  | some blockLba =>
    let blockBitMapIdx ← blockLbaToBitMapIdx blockLba
    assert (blockBitMapIdx ≠ 0)
    bitMapSync blockBitMapIdx .blockBitmap
    let v ← get
    let parentIno := (v.inodes record.parentDir.inode).ino
    ideWrite blockLba (newDirSector ino parentIno) 1
    let newDirEntry ← createDirEntry dirName ino FileType.directory
    if !(← syncDirEntry record.parentDir newDirEntry) then return none
    return some blockLba

/-- The rest of `makeDir` after `enterDir`. -/
def finishDir (record : PathSearchRecord) (ino : ℕ) : Option ℕ → VolM ℤ
  | none => do
    setInodeBit ino false
    return -1
  | some blockLba => do
    let v ← get
    inodeSync (v.inodes record.parentDir.inode)
    inodeSync
      { inodeInit ino with
        block := fun k => if k = 0 then blockLba else 0
        size := 2 * v.superBlock.dirEntrySize }
    bitMapSync ino .inodeBitmap
    dirClose record.parentDir
    return 0

theorem makeDir_eq (record : PathSearchRecord) : makeDir record = (do
    let dirName ← lastName record.searchPath
    match ← inodeBitMapAlloc with
    | none =>
      dirClose record.parentDir
      return -1
    | some ino =>
      let r ← enterDir record dirName ino
      finishDir record ino r) := by
  unfold makeDir enterDir
  refine bind_congr fun dirName => bind_congr fun ino => ?_
  cases ino with
  | none => rfl
  | some ino =>
    dsimp only
    rw [bind_bind]
    refine bind_congr fun blockLba => ?_
    cases blockLba with
    | none => rfl
    | some blockLba =>
      simp only [bind_bind]
      refine bind_congr fun i => bind_congr fun _ => bind_congr fun _ => bind_congr fun v =>
        bind_congr fun _ => bind_congr fun de => bind_congr fun ok => ?_
      cases ok <;> rfl

/-- The insertion of a new directory, once it is tried, goes through. -/
def Enters (e : Heap) (path : List UInt8) (v : Volume) : Prop :=
  ∀ record w depth dirName ino, Returns e (searchFile path) v (none, record) w →
    Returns e (pathDepthCnt path) w depth w → Returns e (pathDepthCnt record.searchPath) w depth w →
      Returns e (lastName record.searchPath) w dirName w → bitMapScan w.inodeBitMap 1 = some ino →
        ∀ w', ¬Returns e (enterDir record dirName ino) (w.setInodeBit ino true) none w'

/-- The directory that a search of the path leaves open is `rootDir`. -/
def EndsAtRoot (e : Heap) (path : List UInt8) (v : Volume) : Prop :=
  ∀ r w, Returns e (searchFile path) v r w → r.2.parentDir.isRoot = true

theorem keeps_enterDir (record : PathSearchRecord) (dirName : List UInt8) :
    Keeps SameOpen (enterDir record dirName ino) := by
  refine keeps_blockBitMapAlloc.bind ?_
  rintro (_ | blockLba)
  · exact keeps_pure _
  · refine (keeps_blockLbaToBitMapIdx _).bind fun _ => keeps_assert.bind fun _ =>
      (keeps_bitMapSync _ _).bind fun _ => .get_bind fun _ => (keeps_ideWrite _ _ _).bind fun _ =>
        (keeps_createDirEntry _ _ _).bind fun _ => (keeps_syncDirEntry _ _).bind fun ok => ?_
    exact .ite (keeps_pure _) (keeps_pure _)

/-- The second rollback step leaves the parent open. -/
theorem wp_finishDir {record : PathSearchRecord} {r : Option ℕ}
    (h : Tallied root v (n + record.parentDir.handles))
    (hr : r = none → record.parentDir.isRoot = true) :
    wp anyStop e (finishDir record ino r) (fun _ w => Tallied root w n) v := by
  cases r with
  | none =>
    have hn : n + record.parentDir.handles = n := by simp [Dir.handles, hr rfl]
    apply wp_tallied_bind (hn ▸ h) (keeps_setInodeBit _ _)
    exact fun _ w hw => wp_pure.mpr hw
  | some blockLba =>
    unfold finishDir
    rw [wp_get_bind]
    apply wp_tallied_bind h (keeps_inodeSync _)
    intro _ w hw
    apply wp_tallied_bind hw (keeps_inodeSync _)
    intro _ w hw
    apply wp_tallied_bind hw (keeps_bitMapSync _ _)
    exact fun _ w hw => wp_closeAndReturn hw

/-- A read-only call, with the run that it makes. -/
theorem wp_reads_bind {m : VolM β} {f : β → VolM α} {Q : α → Volume → Prop} (hm : Keeps Eq m)
    (hf : ∀ b, Returns e m v b v → wp anyStop e (f b) Q v) : wp anyStop e (m >>= f) Q v := by
  apply wp_call (wp_and_returns (hm e v))
  rintro b w ⟨rfl, hb⟩
  exact hf b hb

theorem wp_sysMkdir {path : List UInt8} (h : Tallied root v n)
    (hc : EndsAtRoot e path v ∨ Enters e path v) :
    wp anyStop e (sysMkdir path) (fun _ w => Tallied root w n) v := by
  unfold sysMkdir
  apply wp_reads_bind keeps_ask
  intro ok _
  apply wp_ite
  · exact fun _ => wp_pure.mpr h
  intro _
  apply wp_call (wp_and_returns (wp_searchFile h))
  rintro ⟨_ | ino, record⟩ w ⟨hw, hret⟩
  · apply wp_reads_bind (keeps_pathDepthCnt _)
    intro depth hdepth
    apply wp_reads_bind (keeps_pathDepthCnt _)
    intro depth' hdepth'
    apply wp_ite
    · exact fun _ => wp_closeAndReturn hw
    intro hne
    obtain rfl : depth = depth' := not_not.mp hne
    rw [makeDir_eq]
    apply wp_reads_bind (keeps_lastName _)
    intro dirName hname
    apply wp_inodeBitMapAlloc_bind
    · exact fun _ => wp_closeAndReturn hw
    intro ino hscan
    have hbit : Tallied root (w.setInodeBit ino true) (n + record.parentDir.handles) :=
      hw.same ⟨rfl, rfl, rfl, fun _ => rfl⟩
    apply wp_call (wp_and_returns (wp_tallied hbit (keeps_enterDir record dirName)))
    rintro r w' ⟨hw', hr⟩
    apply wp_finishDir hw'
    rintro rfl
    rcases hc with hc | hc
    · exact hc _ _ hret
    · exact absurd hr (hc record w depth dirName ino hret hdepth hdepth' hname hscan w')
  · rw [wp_assert_bind]
    exact ⟨fun _ => wp_closeAndReturn hw, fun _ => trivial⟩

/-- The paths for which `sysOpenDir` returns `&rootDir` at once. -/
def OpensRoot (path : List UInt8) : Prop := path = [slash] ∨ slash :: dotName <+: path

instance (path : List UInt8) : Decidable (OpensRoot path) := inferInstanceAs (Decidable (_ ∨ _))

/-- The handles that the result of `sysOpenDir` is. -/
def dirHandles (dir : Option Dir) : ℕ → ℕ := dir.elim 0 Dir.handles

theorem wp_sysOpenDir {path : List UInt8} (h : Tallied root v n)
    (hc : OpensRoot path ∨ EndsAtRoot e path v) :
    wp anyStop e (sysOpenDir path) (fun dir w => Tallied root w (n + dirHandles dir)) v := by
  unfold sysOpenDir
  rw [wp_assert_bind]
  refine ⟨fun _ => ?_, fun _ => trivial⟩
  apply wp_ite
  · exact fun _ => wp_get_bind.mpr (wp_pure.mpr h)
  intro hpath
  apply wp_call (wp_and_returns (wp_searchFile h))
  rintro ⟨ino, record⟩ w ⟨hw, hret⟩
  have hroot : record.parentDir.isRoot = true := hc.resolve_left hpath _ _ hret
  have hn : n + record.parentDir.handles = n := by simp [Dir.handles, hroot]
  rw [hn] at hw
  cases ino with
  | none => exact wp_pure.mpr hw
  | some ino =>
    apply wp_ite
    · exact fun _ => wp_call (wp_dirOpen hw) fun dir w' hw' => wp_pure.mpr hw'
    · exact fun _ => wp_pure.mpr hw

theorem wp_sysCloseDir {dir : Option Dir} (h : Tallied root v (n + dirHandles dir)) :
    wp anyStop e (sysCloseDir dir) (fun _ w => Tallied root w n) v := by
  cases dir with
  | none => exact wp_pure.mpr h
  | some dir => exact wp_closeAndReturn h

end Calls

end Gogoos
