import Gogoos.Fs.Traces
import Gogoos.Logic.Questions

/-!
# Where a directory entry goes

`syncDirEntry` takes the first free slot, or the first index without a block. Whether it succeeds
is read off the blocks of the directory and the block bitmap before the call.
-/

namespace Gogoos

open Program

variable {e : Heap} {v : Volume} {dir : Dir} {de : DirEntry} {p t : ℕ} {allBlocks : ℕ → ℕ}

section Quiet

theorem quiet_ideRead (lba secCnt : ℕ) : Quiet (ideRead lba secCnt) :=
  quiet_assert.bind fun _ => quiet_assert.bind fun _ => quiet_get.bind fun _ => quiet_pure _

theorem quiet_ideWrite (lba : ℕ) (buf : ℕ → UInt8) (secCnt : ℕ) :
    Quiet (ideWrite lba buf secCnt) :=
  quiet_assert.bind fun _ => quiet_assert.bind fun _ => quiet_modify _

theorem quiet_bitMapSync (i : ℕ) (b : BitMapType) : Quiet (bitMapSync i b) :=
  (quiet_modify _).bind fun _ => quiet_get.bind fun _ => quiet_ideWrite _ _ _

theorem quiet_blockLbaToBitMapIdx (lba : ℕ) : Quiet (blockLbaToBitMapIdx lba) :=
  quiet_get.bind fun _ => quiet_pure _

theorem quiet_blockBitMapAlloc : Quiet blockBitMapAlloc := by
  apply quiet_get.bind
  intro v
  cases bitMapScan v.blockBitMap 1 with
  | none => exact quiet_pure _
  | some i => exact (quiet_modify _).bind fun _ => quiet_pure _

theorem quiet_loadAllBlocks (i : Inode) : Quiet (loadAllBlocks i) := by
  apply Quiet.ite
  · exact (quiet_ideRead _ _).bind fun _ => quiet_pure _
  · exact quiet_pure _

theorem quiet_createDirEntry (name : List UInt8) (ino fileType : ℕ) :
    Quiet (createDirEntry name ino fileType) := quiet_assert.bind fun _ => quiet_pure _

theorem quiet_lastName (path : List UInt8) : Quiet (lastName path) :=
  quiet_assert.bind fun _ => quiet_pure _

theorem quiet_putFirstEntry (lba : ℕ) (de : DirEntry) : Quiet (putFirstEntry p lba de) :=
  quiet_get.bind fun _ => (quiet_ideWrite _ _ _).bind fun _ => (quiet_modify _).bind fun _ =>
    quiet_pure _

theorem quiet_writeTable (allBlocks : ℕ → ℕ) : Quiet (writeTable p allBlocks) :=
  quiet_get.bind fun _ => quiet_ideWrite _ _ _

theorem quiet_syncNewBlock (lba : ℕ) : Quiet (syncNewBlock lba) :=
  (quiet_blockLbaToBitMapIdx _).bind fun _ => quiet_assert.bind fun _ => quiet_bitMapSync _ _

theorem quiet_syncAtTable (allBlocks : ℕ → ℕ) (lba : ℕ) (de : DirEntry) :
    Quiet (syncAtTable p allBlocks lba de) := by
  apply (quiet_modify _).bind
  intro _
  apply quiet_blockBitMapAlloc.bind
  intro blockLba
  cases blockLba with
  | none =>
    exact quiet_get.bind fun _ => (quiet_blockLbaToBitMapIdx _).bind fun _ =>
      (quiet_modify _).bind fun _ => (quiet_modify _).bind fun _ =>
        (quiet_bitMapSync _ _).bind fun _ => quiet_pure _
  | some blockLba =>
    exact (quiet_syncNewBlock _).bind fun _ => (quiet_writeTable _).bind fun _ =>
      quiet_putFirstEntry _ _

theorem quiet_syncBlocks (allBlocks : ℕ → ℕ) (de : DirEntry) : ∀ cnt i,
    Quiet (syncBlocks p allBlocks de cnt i) := by
  intro cnt
  induction cnt with
  | zero => exact fun i => quiet_pure _
  | succ cnt ih =>
    intro i
    unfold syncBlocks
    apply Quiet.ite
    · apply quiet_blockBitMapAlloc.bind
      intro blockLba
      cases blockLba with
      | none => exact quiet_pure _
      | some blockLba =>
        apply (quiet_syncNewBlock _).bind
        intro _
        apply Quiet.ite
        · exact (quiet_modify _).bind fun _ => quiet_putFirstEntry _ _
        · apply Quiet.ite
          · exact quiet_syncAtTable _ _ _
          · exact (quiet_writeTable _).bind fun _ => quiet_putFirstEntry _ _
    · apply (quiet_ideRead _ _).bind
      intro ioBuf
      apply quiet_get.bind
      intro v
      dsimp only
      split
      · exact (quiet_ideWrite _ _ _).bind fun _ => (quiet_modify _).bind fun _ => quiet_pure _
      · exact ih _

end Quiet

section Allocation

variable {Q : Option ℕ → ℕ → Volume → Prop}

theorem wpAt_inodeBitMapAlloc (hnone : bitMapScan v.inodeBitMap 1 = none → Q none t v)
    (hsome : ∀ i, bitMapScan v.inodeBitMap 1 = some i → Q (some i) t (v.setInodeBit i true)) :
    wpAt anyStop e t inodeBitMapAlloc Q v := by
  unfold inodeBitMapAlloc
  rw [wpAt_get_bind]
  cases hscan : bitMapScan v.inodeBitMap 1 with
  | none => exact hnone hscan
  | some i => exact hsome i hscan

theorem wpAt_blockBitMapAlloc (hnone : bitMapScan v.blockBitMap 1 = none → Q none t v)
    (hsome : ∀ n, bitMapScan v.blockBitMap 1 = some n →
      Q (some (v.superBlock.dataLbaStart + n)) t (v.setBlockBit n true)) :
    wpAt anyStop e t blockBitMapAlloc Q v := by
  unfold blockBitMapAlloc
  rw [wpAt_get_bind]
  cases hscan : bitMapScan v.blockBitMap 1 with
  | none => exact hnone hscan
  | some n => exact hsome n hscan

end Allocation

section Room

/-- What an insertion finds: a place for the entry; none, and it changes nothing; or a block for
the indirect table and none for the entry. -/
inductive Room where
  | free
  | full
  | noEntry
deriving DecidableEq

def roomFor (v : Volume) (allBlocks : ℕ → ℕ) : (cnt blockIdx : ℕ) → Room
  | 0, _ => .full
  | cnt + 1, blockIdx =>
    if allBlocks blockIdx = 0 then
      match bitMapScan v.blockBitMap 1 with
      | none => .full
      | some i =>
        if blockIdx = 12 ∧ bitMapScan (bitMapSet v.blockBitMap i true) 1 = none then .noEntry
        else .free
    else if firstFreeSlot (v.sector (allBlocks blockIdx)) (512 / v.superBlock.dirEntrySize) 0 = none
      then roomFor v allBlocks cnt (blockIdx + 1)
    else .free

/-- The room in a directory. -/
def Volume.room (v : Volume) (i : Inode) : Room := roomFor v (v.blockAt i) 140 0

/-- What the insertion of a new entry comes to, when question `t` is the one it asks. -/
def roomAt (e : Heap) (t : ℕ) (v : Volume) (dir : Dir) : Room :=
  if e.sysMalloc t = true then v.room (v.inodes dir.inode) else .full

/-- Giving the block of the table back restores everything: the directory had no table, and on the
disk the bitmap is as in memory, where `bitMapSync` stores it. -/
def TableUndone (v : Volume) (i : Inode) : Prop :=
  i.block 12 = 0 ∧ ∀ n, bitMapScan v.blockBitMap 1 = some n →
    v.superBlock.lbaToBitMapIdx (v.superBlock.dataLbaStart + n) = n ∧
      (v.sync n .blockBitmap).disk = v.disk

/-- The result of an insertion in the directory with inode `p`, and the state after one that finds
no place. -/
def InsertsAs (v : Volume) (p : ℕ) (room : Room) (ok : Bool) (w : Volume) : Prop :=
  match room with
  | .free => ok = true
  | .full => ok = false ∧ w = v
  | .noEntry => ok = false ∧ (TableUndone v (v.inodes p) → SameVolume v w)

/-- Where only the result matters. -/
theorem wp_through {α β : Type} {m : VolM β} {f : β → VolM α} {Q : α → Volume → Prop}
    (h : ∀ b w, wp anyStop e (f b) Q w) : wp anyStop e (m >>= f) Q v :=
  wp_call (R := fun _ _ => True) (wp_iff.mpr ⟨fun _ _ _ => trivial, fun _ _ => trivial⟩)
    fun b w _ => h b w

theorem wp_putFirstEntry_true (lba : ℕ) (de : DirEntry) (v : Volume) :
    wp anyStop e (putFirstEntry p lba de) (fun ok _ => ok = true) v := by
  unfold putFirstEntry
  apply wp_through
  intro _ w
  apply wp_through
  intro _ w
  apply wp_through
  intro _ w
  exact wp_pure.mpr rfl

/-- The volume after a block was taken for the table and given back. -/
def Volume.tableBack (v : Volume) (p n : ℕ) : Volume :=
  let idx := v.superBlock.lbaToBitMapIdx (v.superBlock.dataLbaStart + n)
  let w := ((v.setBlockBit n true).sync idx .blockBitmap).setInode p
    fun i => i.setBlock 12 (v.superBlock.dataLbaStart + n)
  ((w.setBlockBit idx false).setInode p fun i => i.setBlock 12 0).sync idx .blockBitmap

theorem setBlock_undo {i : Inode} {lba : ℕ} (h : i.block 12 = 0) :
    (i.setBlock 12 lba).setBlock 12 0 = i := by
  have hblock : (fun j => if j = 12 then 0 else if j = 12 then lba else i.block j) = i.block := by
    funext j
    split_ifs with hj
    · rw [hj, h]
    · rfl
  unfold Inode.setBlock
  simp only [hblock]

theorem sameVolume_tableBack {n : ℕ} (h : TableUndone v (v.inodes p))
    (hn : bitMapScan v.blockBitMap 1 = some n) : SameVolume v (v.tableBack p n) := by
  obtain ⟨h12, hsync⟩ := h
  obtain ⟨hidx, hdisk⟩ := hsync n hn
  have hbits : bitMapSet (bitMapSet v.blockBitMap n true) n false = v.blockBitMap := scan_undo hn
  unfold Volume.tableBack
  simp only [hidx]
  refine .of_fields ?_ rfl rfl rfl hbits rfl rfl rfl (fun q _ => ?_) le_rfl
  · rw [← hdisk]
    funext l j
    set sec := v.bitMapLbaStart .blockBitmap + syncSecOffset n with hsec
    change (if sec ≤ l ∧ l < sec + 1 ∧ j < 512 then
        (bitMapSet (bitMapSet v.blockBitMap n true) n false).startAddr
          (syncSecOffset n * 512 + (512 * (l - sec) + j))
      else if sec ≤ l ∧ l < sec + 1 ∧ j < 512 then _ else v.disk l j) =
      if sec ≤ l ∧ l < sec + 1 ∧ j < 512 then
        v.blockBitMap.startAddr (syncSecOffset n * 512 + (512 * (l - sec) + j)) else v.disk l j
    rw [hbits]
    split_ifs <;> rfl
  · by_cases hq : q = p
    · simp [hq, setBlock_undo h12]
    · simp [hq]

theorem wp_syncAtTable_room {n : ℕ} (hn : bitMapScan v.blockBitMap 1 = some n) :
    wp anyStop e (syncAtTable p allBlocks (v.superBlock.dataLbaStart + n) de)
      (InsertsAs v p (if 12 = 12 ∧ bitMapScan (bitMapSet v.blockBitMap n true) 1 = none then .noEntry
        else .free)) ((v.setBlockBit n true).sync
          (v.superBlock.lbaToBitMapIdx (v.superBlock.dataLbaStart + n)) .blockBitmap) := by
  unfold syncAtTable setBlock
  rw [wp_modifyInode_bind]
  apply wp_blockBitMapAlloc_bind
  · intro hnone
    have hscan : bitMapScan (bitMapSet v.blockBitMap n true) 1 = none := hnone
    rw [if_pos ⟨rfl, hscan⟩]
    simp only [wp_get_bind, wp_blockLbaToBitMapIdx_bind, wp_setBlockBit_bind, wp_modifyInode_bind,
      wp_bitMapSync_bind]
    refine ⟨fun _ => wp_pure.mpr ⟨rfl, fun hundone => ?_⟩, fun _ => trivial⟩
    have hsame := sameVolume_tableBack hundone hn
    unfold Volume.tableBack at hsame
    simpa using hsame
  · intro j hj
    have hscan : bitMapScan (bitMapSet v.blockBitMap n true) 1 = some j := hj
    rw [if_neg (by simp [hscan])]
    apply wp_through
    intro _ w
    apply wp_through
    intro _ w
    exact wp_putFirstEntry_true _ _ _

/-- Induction on the number of blocks that are left to look at. -/
theorem wp_syncBlocks_room : ∀ cnt k v, wp anyStop e (syncBlocks p allBlocks de cnt k)
    (InsertsAs v p (roomFor v allBlocks cnt k)) v := by
  intro cnt
  induction cnt with
  | zero =>
    intro k v
    exact wp_pure.mpr ⟨rfl, rfl⟩
  | succ cnt ih =>
    intro k v
    unfold syncBlocks roomFor
    by_cases h0 : allBlocks k = 0
    · rw [if_pos h0, if_pos h0]
      apply wp_blockBitMapAlloc_bind
      · intro hnone
        rw [hnone]
        exact wp_pure.mpr ⟨rfl, rfl⟩
      · intro i hi
        rw [hi]
        unfold syncNewBlock
        simp only [wp_bind_assoc, wp_blockLbaToBitMapIdx_bind, wp_assert_bind, wp_bitMapSync_bind]
        refine ⟨fun _ => ⟨fun _ => ?_, fun _ => trivial⟩, fun _ => trivial⟩
        by_cases h12 : k = 12
        · subst h12
          rw [if_neg (lt_irrefl 12), if_pos rfl]
          exact wp_syncAtTable_room hi
        · rw [if_neg h12, if_neg fun h : k = 12 ∧ _ => h12 h.1]
          apply wp_ite
          · intro _
            apply wp_through
            intro _ w
            exact wp_putFirstEntry_true _ _ _
          · intro _
            apply wp_through
            intro _ w
            exact wp_putFirstEntry_true _ _ _
    · rw [if_neg h0, if_neg h0, wp_ideRead_bind]
      refine ⟨fun _ => ?_, fun _ => trivial⟩
      rw [wp_get_bind]
      dsimp only
      cases firstFreeSlot (v.sector (allBlocks k)) (512 / v.superBlock.dirEntrySize) 0 with
      | none =>
        rw [if_pos rfl]
        exact ih (k + 1) v
      | some j =>
        rw [if_neg (Option.some_ne_none j)]
        apply wp_through
        intro _ w
        apply wp_through
        intro _ w
        exact wp_pure.mpr rfl

/-- The insertion asks for memory once, before it looks for room. -/
theorem wpAt_syncDirEntry_room : wpAt anyStop e t (syncDirEntry dir de)
    (fun ok _ => InsertsAs v dir.inode (roomAt e t v dir) ok) v := by
  unfold roomAt syncDirEntry
  rw [wpAt_get_bind]
  dsimp only
  apply (quiet_assert).call (R := fun _ w => w = v)
  · exact wp_assert.mpr ⟨fun _ => rfl, fun _ => trivial⟩
  rintro _ w rfl
  unfold sysMalloc
  rw [wpAt_ask_bind]
  cases h : e.sysMalloc t with
  | false => exact ⟨rfl, rfl⟩
  | true =>
    simp only [Bool.not_true, Bool.false_eq_true, if_false, if_true]
    have hquiet : Quiet (do
        let allBlocks ← loadAllBlocks (w.inodes dir.inode)
        syncBlocks dir.inode allBlocks de 140 0) :=
      (quiet_loadAllBlocks _).bind fun _ => quiet_syncBlocks _ _ _ _
    have hw : wp anyStop e (do
        let allBlocks ← loadAllBlocks (w.inodes dir.inode)
        syncBlocks dir.inode allBlocks de 140 0)
        (InsertsAs w dir.inode (w.room (w.inodes dir.inode))) w :=
      wp_loadAllBlocks_bind.mpr ⟨fun _ => wp_syncBlocks_room 140 0 w, fun _ => trivial⟩
    exact wpAt_mono (hquiet.wpAt hw) fun ok _ _ h => h.2

end Room

end Gogoos
