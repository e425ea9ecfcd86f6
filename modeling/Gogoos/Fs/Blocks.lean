import Gogoos.Fs.DirSteps

/-!
# The blocks of an inode

`Volume.ref` numbers the 141 places from which an inode refers to a block: the twelve
direct blocks, the 128 entries of the indirect table and the table itself. The lemmas here
say how the volume transformers move these references and which sectors they leave alone.
-/

namespace Gogoos

variable {v w : Volume} {i i' : Inode} {p : ℕ}

/-- Places 0 to 139 are the data blocks, place 140 is the indirect table. -/
def Volume.ref (v : Volume) (i : Inode) (k : ℕ) : ℕ :=
  if k = 140 then i.block 12 else v.blockAt i k

section Refs

theorem ref_of_lt {k : ℕ} (hk : k < 140) : v.ref i k = v.blockAt i k := by
  have h : k ≠ 140 := by omega
  simp [Volume.ref, h]

@[simp] theorem ref_table : v.ref i 140 = i.block 12 := by simp [Volume.ref]

theorem ref_of_gt {k : ℕ} (hk : 140 < k) : v.ref i k = 0 := by
  have h : k ≠ 140 := by omega
  simp [Volume.ref, h, blockAt_of_le v i hk.le]

/-- A direct place for `k < 12`, the table, an entry of the table, or none of them. -/
theorem ref_eq (v : Volume) (i : Inode) (k : ℕ) :
    v.ref i k = if k < 12 then i.block k else if k = 140 then i.block 12
      else if i.block 12 ≠ 0 ∧ k < 140 then getWord (v.disk (i.block 12)) (4 * (k - 12)) else 0 := by
  unfold Volume.ref Volume.blockAt
  split_ifs <;> first | rfl | omega

theorem ref_congr (hblock : ∀ k ≤ 12, i'.block k = i.block k)
    (ht : i.block 12 ≠ 0 → w.disk (i.block 12) = v.disk (i.block 12)) : w.ref i' = v.ref i := by
  funext k
  rw [ref_eq, ref_eq, hblock 12 le_rfl]
  by_cases hk : k < 12
  · rw [if_pos hk, if_pos hk, hblock k hk.le]
  · rw [if_neg hk, if_neg hk]
    by_cases h12 : i.block 12 = 0
    · simp [h12]
    · rw [ht h12]

theorem ref_setBlock_direct {k lba : ℕ} (hk : k < 12)
    (hblock : ∀ j ≤ 12, i'.block j = if j = k then lba else i.block j)
    (ht : i.block 12 ≠ 0 → w.disk (i.block 12) = v.disk (i.block 12)) :
    w.ref i' = Function.update (v.ref i) k lba := by
  have h12 : i'.block 12 = i.block 12 := by
    rw [hblock 12 le_rfl, if_neg (by omega)]
  funext j
  by_cases hjk : j = k
  · subst hjk
    simp [ref_eq, hk, hblock j hk.le]
  · rw [Function.update_of_ne hjk, ref_eq, ref_eq, h12]
    by_cases hj : j < 12
    · rw [if_pos hj, if_pos hj, hblock j hj.le, if_neg hjk]
    · rw [if_neg hj, if_neg hj]
      by_cases h0 : i.block 12 = 0
      · simp [h0]
      · rw [ht h0]

/-- The references when the table at `t` holds the words `f 12`, `f 13` and so on. -/
theorem ref_of_table {t : ℕ} {f : ℕ → ℕ} (ht : i'.block 12 = t) (h0 : t ≠ 0)
    (hf : ∀ k < 128, getWord (w.disk t) (4 * k) = f (12 + k)) (k : ℕ) :
    w.ref i' k = if k < 12 then i'.block k else if k = 140 then t
      else if k < 140 then f k else 0 := by
  rw [ref_eq, ht]
  by_cases hk : k < 12
  · simp [hk]
  · by_cases hk' : k < 140
    · have hne : k ≠ 140 := by omega
      have hword := hf (k - 12) (by omega)
      rw [show 12 + (k - 12) = k by omega] at hword
      simp [hk, hk', hne, h0, hword]
    · simp [hk, hk']

/-- The references when the table at `t` holds the entries of the inode `i` except for
entry `k`, which is `lba`. -/
theorem ref_update_table {t k lba : ℕ} (ht : i'.block 12 = t) (h0 : t ≠ 0) (hk : 12 ≤ k)
    (hk' : k < 140) (hd : ∀ j < 12, i'.block j = i.block j)
    (hwords : ∀ j < 128, getWord (w.disk t) (4 * j) =
      if 12 + j = k then lba else v.blockAt i (12 + j)) :
    w.ref i' = Function.update (Function.update (v.ref i) 140 t) k lba := by
  funext x
  rw [ref_of_table (f := fun x => if x = k then lba else v.blockAt i x) ht h0 hwords,
    Function.update_apply, Function.update_apply]
  by_cases hx : x < 12
  · have hxk : x ≠ k := by omega
    have hx140 : x ≠ 140 := by omega
    rw [if_pos hx, if_neg hxk, if_neg hx140, hd x hx, ref_of_lt (by omega),
      blockAt_direct v _ hx]
  · rw [if_neg hx]
    by_cases hx140 : x = 140
    · have hxk : x ≠ k := by omega
      rw [if_pos hx140, if_neg hxk, if_pos hx140]
    · rw [if_neg hx140, if_neg hx140]
      by_cases hlt : x < 140
      · rw [if_pos hlt, ref_of_lt hlt]
      · rw [if_neg hlt, if_neg (by omega), ref_of_gt (by omega)]

theorem ref_noTable (h : i'.block 12 = 0) (k : ℕ) :
    w.ref i' k = if k < 12 then i'.block k else 0 := by
  rw [ref_eq, h]
  simp

end Refs

section Sectors

/-- The sector that `bitMapSync` writes for a bit of the block bitmap. -/
def Volume.syncLba (v : Volume) (n : ℕ) : ℕ :=
  v.superBlock.blockBitMapLbaStart + syncSecOffset n

variable (n : ℕ)

@[simp] theorem takeBlock_superBlock : (v.takeBlock n).superBlock = v.superBlock := rfl
@[simp] theorem takeBlock_inodes : (v.takeBlock n).inodes = v.inodes := rfl
@[simp] theorem takeBlock_blockBitMap :
    (v.takeBlock n).blockBitMap = bitMapSet v.blockBitMap n true := rfl
@[simp] theorem giveBlock_superBlock : (v.giveBlock n).superBlock = v.superBlock := rfl
@[simp] theorem giveBlock_inodes : (v.giveBlock n).inodes = v.inodes := rfl
@[simp] theorem giveBlock_blockBitMap :
    (v.giveBlock n).blockBitMap = bitMapSet v.blockBitMap n false := rfl

variable {n} {s : ℕ}

theorem sync_disk (h : s ≠ v.syncLba n) : (v.sync n .blockBitmap).disk s = v.disk s :=
  sync_disk_ne n .blockBitmap h

theorem takeBlock_disk (h : s ≠ v.syncLba n) : (v.takeBlock n).disk s = v.disk s :=
  sync_disk_ne n .blockBitmap h

theorem giveBlock_disk (h : s ≠ v.syncLba n) : (v.giveBlock n).disk s = v.disk s :=
  sync_disk_ne n .blockBitmap h

theorem putEntry_disk {lba : ℕ} {buf : ℕ → UInt8} (h : s ≠ lba) :
    (v.putEntry p lba buf).disk s = v.disk s := write_disk_ne v lba buf h

theorem putTable_disk {f : ℕ → ℕ} (h : s ≠ (v.inodes p).block 12) :
    (v.putTable p f).disk s = v.disk s := write_disk_ne v _ _ h

theorem putTable_words {f : ℕ → ℕ} {t : ℕ} (ht : (v.inodes p).block 12 = t) {k : ℕ}
    (hk : k < 128) (hf : f (12 + k) < 2 ^ 32) :
    getWord ((v.putTable p f).disk t) (4 * k) = f (12 + k) := by
  subst ht
  unfold Volume.putTable
  rw [getWord_write_self _ _ _ (by omega), getWord_wordsBytes, Nat.mod_eq_of_lt hf]

/-- Storing an inode stays within the inode table. -/
theorem storeInode_disk (hl : Layout v) (hino : i.ino < 4096)
    (hs : v.superBlock.dataLbaStart ≤ s) : (v.storeInode i).disk s = v.disk s := by
  have hdata := hl.data_start
  funext j
  unfold Volume.storeInode
  simp only [Volume.write_disk]
  rw [if_neg]
  split_ifs <;> omega

@[simp] theorem dropEntry_superBlock : (v.dropEntry p).superBlock = v.superBlock := rfl
@[simp] theorem dropEntry_blockBitMap : (v.dropEntry p).blockBitMap = v.blockBitMap := rfl

@[simp] theorem dropEntry_inodes :
    (v.dropEntry p).inodes p = (v.inodes p).setSize ((v.inodes p).size - 24) := by
  simp [Volume.dropEntry, Volume.storeInode]

theorem dropEntry_disk (hl : Layout v) (hino : (v.inodes p).ino < 4096)
    (hs : v.superBlock.dataLbaStart ≤ s) : (v.dropEntry p).disk s = v.disk s :=
  storeInode_disk (hl.setInode p _) (by simpa using hino) hs

theorem Layout.takeBlock (h : Layout v) (n : ℕ) : Layout (v.takeBlock n) :=
  (h.setBlockBit n true).sync n .blockBitmap

theorem Layout.giveBlock (h : Layout v) (n : ℕ) : Layout (v.giveBlock n) :=
  (h.setBlockBit n false).sync n .blockBitmap

theorem Layout.putEntry (h : Layout v) (p lba : ℕ) (buf : ℕ → UInt8) :
    Layout (v.putEntry p lba buf) := (h.write lba buf 1).setInode _ _

theorem Layout.putTable (h : Layout v) (p : ℕ) (f : ℕ → ℕ) : Layout (v.putTable p f) :=
  h.write _ _ _

theorem Layout.storeInode (h : Layout v) (i : Inode) : Layout (v.storeInode i) :=
  h.write _ _ _

theorem Layout.dropEntry (h : Layout v) (p : ℕ) : Layout (v.dropEntry p) :=
  (h.setInode p _).storeInode _

theorem Layout.data_pos (h : Layout v) : 0 < v.superBlock.dataLbaStart := by
  have := h.data_start
  omega

end Sectors

end Gogoos
