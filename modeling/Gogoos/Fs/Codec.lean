import Gogoos.Fs.Path

/-!
# What is written is read back

Words, inodes and directory entries survive the way to their bytes and back, and a write
to one place of a sector leaves the other places of it readable as before.
-/

namespace Gogoos

section Words

theorem wordByte_toNat (v k : ℕ) : (wordByte v k).toNat = v / 256 ^ k % 256 := by
  simp [wordByte]

theorem getWord_congr {b c : ℕ → UInt8} {off off' : ℕ}
    (h : ∀ k < 4, b (off + k) = c (off' + k)) : getWord b off = getWord c off' := by
  have h0 := h 0 (by norm_num)
  have h1 := h 1 (by norm_num)
  have h2 := h 2 (by norm_num)
  have h3 := h 3 (by norm_num)
  simp only [Nat.add_zero] at h0
  simp [getWord, h0, h1, h2, h3]

theorem getWord_of_bytes {b : ℕ → UInt8} {off v : ℕ}
    (h : ∀ k < 4, b (off + k) = wordByte v k) : getWord b off = v % 2 ^ 32 := by
  have h0 := h 0 (by norm_num)
  have h1 := h 1 (by norm_num)
  have h2 := h 2 (by norm_num)
  have h3 := h 3 (by norm_num)
  simp only [Nat.add_zero] at h0
  simp only [getWord, h0, h1, h2, h3, wordByte_toNat]
  omega

theorem getWord_eq_zero {b : ℕ → UInt8} {off : ℕ} (h : ∀ k < 4, b (off + k) = 0) :
    getWord b off = 0 := by
  rw [getWord_of_bytes (v := 0) fun k hk => by rw [h k hk]; simp [wordByte]]
  rfl

theorem getWord_wordsBytes (w : ℕ → ℕ) (k : ℕ) :
    getWord (wordsBytes w) (4 * k) = w k % 2 ^ 32 := by
  apply getWord_of_bytes
  intro j hj
  have hdiv : (4 * k + j) / 4 = k := by omega
  have hmod : (4 * k + j) % 4 = j := by omega
  simp [wordsBytes, hdiv, hmod]

end Words

section Sectors

variable (v : Volume) (lba : ℕ) (buf : ℕ → UInt8)

/-- What `ideRead` of one sector stores. -/
def Volume.sector (v : Volume) (lba : ℕ) : ℕ → UInt8 :=
  fun i => v.disk (lba + i / 512) (i % 512)

theorem sector_apply {i : ℕ} (hi : i < 512) : v.sector lba i = v.disk lba i := by
  have hdiv : i / 512 = 0 := by omega
  have hmod : i % 512 = i := by omega
  simp [Volume.sector, hdiv, hmod]

theorem getWord_sector {off : ℕ} (h : off + 4 ≤ 512) :
    getWord (v.sector lba) off = getWord (v.disk lba) off :=
  getWord_congr fun _ hk => sector_apply v lba (by omega)

theorem write_disk_ne {l : ℕ} (h : l ≠ lba) : (v.write lba buf 1).disk l = v.disk l := by
  funext j
  have hl : ¬(lba ≤ l ∧ l < lba + 1 ∧ j < 512) := by omega
  simp only [Volume.write_disk, if_neg hl]

theorem write_disk_self {j : ℕ} (hj : j < 512) : (v.write lba buf 1).disk lba j = buf j := by
  simp [hj]

theorem getWord_write_self {off : ℕ} (h : off + 4 ≤ 512) :
    getWord ((v.write lba buf 1).disk lba) off = getWord buf off :=
  getWord_congr fun _ hk => write_disk_self v lba buf (by omega)

end Sectors

section Entries

/-- A name that fits an entry together with its terminating zero. -/
structure ValidName (name : List UInt8) : Prop where
  length_le : name.length ≤ 15
  nonzero : (0 : UInt8) ∉ name

theorem strEqAt_iff (b : ℕ → UInt8) (name : List UInt8) : ∀ off,
    strEqAt b off name = true ↔
      (∀ i (hi : i < name.length), b (off + i) = name[i]) ∧ b (off + name.length) = 0 := by
  induction name with
  | nil => intro off; simp [strEqAt]
  | cons c cs ih =>
    intro off
    simp only [strEqAt, Bool.and_eq_true, decide_eq_true_eq, ih, List.length_cons]
    constructor
    · rintro ⟨h0, hs, hend⟩
      refine ⟨?_, by rw [← hend]; congr 1; omega⟩
      intro i hi
      cases i with
      | zero => simpa using h0
      | succ i =>
        have := hs i (by omega)
        rw [List.getElem_cons_succ, ← this]
        congr 1
        omega
    · rintro ⟨hs, hend⟩
      refine ⟨by simpa using hs 0 (by omega), ?_, by rw [← hend]; congr 1; omega⟩
      intro i hi
      have := hs (i + 1) (by omega)
      rw [List.getElem_cons_succ] at this
      rw [← this]
      congr 1
      omega

/-- A zero within the first `n` bytes ends the characters taken before it. -/
theorem takeWhile_range_eq (b : ℕ → UInt8) {name : List UInt8} (hn : (0 : UInt8) ∉ name)
    {n : ℕ} (hlen : name.length < n) :
    ((List.range n).map b).takeWhile (· ≠ 0) = name ↔
      (∀ i (hi : i < name.length), b i = name[i]) ∧ b name.length = 0 := by
  constructor
  · intro h
    have hpre := List.takeWhile_prefix (l := (List.range n).map b) (fun x => decide (x ≠ 0))
    rw [h] at hpre
    have hget : ∀ i (hi : i < name.length), b i = name[i] := by
      intro i hi
      have hi' : i < ((List.range n).map b).length := by simp; omega
      have := hpre.getElem hi
      rw [this]
      simp
    refine ⟨hget, ?_⟩
    by_contra hne
    have hlt : name.length < ((List.range n).map b).length := by simpa using hlen
    have hdrop : (List.range n).map b =
        ((List.range n).map b).takeWhile (· ≠ 0) ++ ((List.range n).map b).dropWhile (· ≠ 0) :=
      (List.takeWhile_append_dropWhile).symm
    have hd : ((List.range n).map b).dropWhile (· ≠ 0) ≠ [] := by
      intro hnil
      rw [hnil, List.append_nil, h] at hdrop
      rw [hdrop] at hlt
      exact lt_irrefl _ hlt
    have hhead := List.head_dropWhile_not (fun x : UInt8 => decide (x ≠ 0)) hd
    have hsplit : (((List.range n).map b).takeWhile (· ≠ 0) ++
        ((List.range n).map b).dropWhile (· ≠ 0))[name.length]? =
          some (b name.length) := by
      rw [← hdrop]
      simp [hlen]
    rw [h, List.getElem?_append_right (le_refl _), Nat.sub_self] at hsplit
    rw [← List.head?_eq_getElem?, List.head?_eq_some_head hd] at hsplit
    simp only [Option.some.injEq] at hsplit
    rw [hsplit] at hhead
    simp [hne] at hhead
  · rintro ⟨hs, hend⟩
    have hsplit : (List.range n).map b =
        name ++ (0 : UInt8) :: ((List.range (n - name.length - 1)).map
          fun i => b (name.length + 1 + i)) := by
      apply List.ext_getElem
      · simp; omega
      · intro i h1 h2
        simp only [List.getElem_map, List.getElem_range]
        rcases Nat.lt_trichotomy i name.length with hi | hi | hi
        · rw [List.getElem_append_left hi]
          exact hs i hi
        · subst hi
          simp [hend]
        · rw [List.getElem_append_right (by omega)]
          obtain ⟨d, rfl⟩ : ∃ d, i = name.length + 1 + d := ⟨i - name.length - 1, by omega⟩
          have hd : name.length + 1 + d - name.length = d + 1 := by omega
          simp [hd]
    rw [hsplit]
    have hall : ∀ x ∈ name, decide (x ≠ 0) = true := by
      intro x hx
      simp only [decide_eq_true_eq]
      rintro rfl
      exact hn hx
    rw [List.takeWhile_append_of_pos hall]
    simp

/-- `strcmp` finds the name of an entry, for names that fit. -/
theorem strEqAt_eq_fileName {b : ℕ → UInt8} {off : ℕ} {name : List UInt8}
    (hn : ValidName name) :
    strEqAt b off name = true ↔ (DirEntry.ofBytes b off).fileName = name := by
  rw [strEqAt_iff]
  exact (takeWhile_range_eq (fun i => b (off + i)) hn.nonzero
    (Nat.lt_succ_of_le hn.length_le)).symm

theorem DirEntry.ofBytes_congr {b c : ℕ → UInt8} {off off' : ℕ}
    (h : ∀ k < 24, b (off + k) = c (off' + k)) :
    DirEntry.ofBytes b off = DirEntry.ofBytes c off' := by
  unfold DirEntry.ofBytes
  congr 1
  · congr 1
    apply List.map_congr_left
    intro i hi
    exact h i (by have := List.mem_range.mp hi; omega)
  · exact getWord_congr fun k hk => by simpa [Nat.add_assoc] using h (16 + k) (by omega)
  · exact getWord_congr fun k hk => by simpa [Nat.add_assoc] using h (20 + k) (by omega)

/-- An entry as the kernel can store it. -/
structure DirEntry.Fits (de : DirEntry) : Prop where
  name : ValidName de.fileName
  ino : de.ino < 2 ^ 32
  fileType : de.fileType < 2 ^ 32

theorem DirEntry.ofBytes_bytes {de : DirEntry} (h : de.Fits) : DirEntry.ofBytes de.bytes 0 = de := by
  obtain ⟨fileName, ino, fileType⟩ := de
  obtain ⟨⟨hlen, hz⟩, hino, htype⟩ := h
  simp only at hlen hz hino htype
  unfold DirEntry.ofBytes
  congr 1
  · rw [takeWhile_range_eq _ hz (by omega)]
    constructor
    · intro i hi
      have hi16 : i < 16 := by omega
      simp [DirEntry.bytes, hi16, hi]
    · have hl : fileName.length < 16 := by omega
      simp [DirEntry.bytes, hl]
  · rw [getWord_of_bytes (v := ino), Nat.mod_eq_of_lt hino]
    intro k hk
    have h1 : ¬16 + k < 16 := by omega
    have h2 : 16 + k < 20 := by omega
    have h3 : 16 + k - 16 = k := by omega
    simp [DirEntry.bytes, h1, h2, h3]
  · rw [getWord_of_bytes (v := fileType), Nat.mod_eq_of_lt htype]
    intro k hk
    have h1 : ¬20 + k < 16 := by omega
    have h2 : ¬20 + k < 20 := by omega
    have h3 : 20 + k < 24 := by omega
    have h4 : 20 + k - 20 = k := by omega
    simp [DirEntry.bytes, h1, h2, h3, h4]

/-- Slot `j` of a directory sector. -/
def slot (b : ℕ → UInt8) (j : ℕ) : DirEntry := DirEntry.ofBytes b (24 * j)

theorem slot_congr {b c : ℕ → UInt8} {j : ℕ} (hj : j < 21) (h : ∀ i < 512, b i = c i) :
    slot b j = slot c j :=
  DirEntry.ofBytes_congr fun k hk => h _ (by omega)

/-- Storing an entry into slot `i` changes that slot only. -/
theorem slot_memcpy (b : ℕ → UInt8) {de : DirEntry} (h : de.Fits) (i j : ℕ) :
    slot (memcpy b (24 * i) de.bytes 24) j = if j = i then de else slot b j := by
  unfold slot
  split_ifs with hji
  · subst hji
    rw [← DirEntry.ofBytes_bytes h]
    apply DirEntry.ofBytes_congr
    intro k hk
    have hin : 24 * j ≤ 24 * j + k ∧ 24 * j + k < 24 * j + 24 := by omega
    simp [memcpy, hin, DirEntry.ofBytes_bytes h]
  · apply DirEntry.ofBytes_congr
    intro k hk
    have hout : ¬(24 * i ≤ 24 * j + k ∧ 24 * j + k < 24 * i + 24) := by omega
    simp only [memcpy, hout, if_false]

/-- The empty entry. -/
def DirEntry.empty : DirEntry := ⟨[], 0, 0⟩

theorem ofBytes_zero {b : ℕ → UInt8} {off : ℕ} (h : ∀ k < 24, b (off + k) = 0) :
    DirEntry.ofBytes b off = DirEntry.empty := by
  unfold DirEntry.ofBytes DirEntry.empty
  congr 1
  · rw [takeWhile_range_eq _ (by simp) (by norm_num)]
    exact ⟨by simp, by simpa using h 0 (by norm_num)⟩
  · exact getWord_eq_zero fun k hk => by simpa [Nat.add_assoc] using h (16 + k) (by omega)
  · exact getWord_eq_zero fun k hk => by simpa [Nat.add_assoc] using h (20 + k) (by omega)

theorem slot_memset (b : ℕ → UInt8) (i j : ℕ) :
    slot (memset b (24 * i) 0 24) j = if j = i then DirEntry.empty else slot b j := by
  unfold slot
  split_ifs with hji
  · subst hji
    apply ofBytes_zero
    intro k hk
    have hin : 24 * j ≤ 24 * j + k ∧ 24 * j + k < 24 * j + 24 := by omega
    simp [memset, hin]
  · apply DirEntry.ofBytes_congr
    intro k hk
    have hout : ¬(24 * i ≤ 24 * j + k ∧ 24 * j + k < 24 * i + 24) := by omega
    simp only [memset, hout, if_false]

end Entries

section Inodes

theorem Inode.ofBytes_bytes_ino (i : Inode) : (Inode.ofBytes i.bytes).ino = i.ino % 2 ^ 32 := by
  apply getWord_of_bytes
  intro k hk
  simp [Inode.bytes, hk]

theorem Inode.ofBytes_bytes_size (i : Inode) : (Inode.ofBytes i.bytes).size = i.size % 2 ^ 32 := by
  apply getWord_of_bytes
  intro k hk
  have h1 : ¬4 + k < 4 := by omega
  have h2 : 4 + k < 8 := by omega
  have h3 : 4 + k - 4 = k := by omega
  simp [Inode.bytes, h1, h2, h3]

theorem Inode.ofBytes_bytes_block (i : Inode) {k : ℕ} (hk : k < 13) :
    (Inode.ofBytes i.bytes).block k = i.block k % 2 ^ 32 := by
  apply getWord_of_bytes
  intro j hj
  have h1 : ¬16 + 4 * k + j < 4 := by omega
  have h2 : ¬16 + 4 * k + j < 8 := by omega
  have h3 : ¬16 + 4 * k + j < 12 := by omega
  have h4 : ¬16 + 4 * k + j < 16 := by omega
  have h5 : 16 + 4 * k + j < 68 := by omega
  have h6 : (16 + 4 * k + j - 16) / 4 = k := by omega
  have h7 : (16 + 4 * k + j - 16) % 4 = j := by omega
  simp [Inode.bytes, h1, h2, h3, h4, h5, h6, h7]

theorem Inode.ofBytes_bytes_writeDeny (i : Inode) :
    (Inode.ofBytes i.bytes).writeDeny = i.writeDeny := by
  cases h : i.writeDeny <;> simp [Inode.ofBytes, Inode.bytes, h]

end Inodes

end Gogoos
