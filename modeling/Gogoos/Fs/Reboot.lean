import Gogoos.Fs.Format
import Gogoos.Fs.DirectoryRun

/-!
# Files after a reboot

The view of a mounted partition is its tree of paths, the allocated inodes and the free blocks.
`fsInit` formats every partition, also one that has a file system, so that the view after it is
the one of an empty partition.
-/

namespace Gogoos

open Program

variable {v w : Volume} {p p' : Partition} {k j n ino type size : ℕ} {e : Heap}
  {path : List (List UInt8)} {d d' : ℕ → ℕ → UInt8} {c c' : Computer}

section View

/-- The inode of a number: the one that is open, else the one of the table. -/
def Volume.inodeOf (v : Volume) (ino : ℕ) : Inode :=
  match v.findOpen ino with
  | some p => v.inodes p
  | none => Inode.ofBytes fun k =>
    v.disk (v.superBlock.inodeTableLbaStart + ino * 76 / 512 + (ino * 76 % 512 + k) / 512)
      ((ino * 76 % 512 + k) % 512)

/-- The inode number and the type that a path leads to. -/
inductive Volume.Leads (v : Volume) : List (List UInt8) → ℕ → ℕ → Prop
  | root : v.Leads [] v.superBlock.rootInodeNo FileType.directory
  | entry {path : List (List UInt8)} {dir k j : ℕ} {de : DirEntry} :
      v.Leads path dir FileType.directory → k < 140 → j < 21 →
      v.entryAt (v.inodeOf dir) k j = some de → v.Leads (path ++ [de.fileName]) de.ino de.fileType

/-- The bytes of a file. -/
def Volume.contents (v : Volume) (i : Inode) : List UInt8 :=
  (List.range i.size).map fun n => v.disk (v.blockAt i (n / 512)) (n % 512)

/-- There is a file or a directory at a path, with its type, its size and, if it is a file, its
contents. -/
def Volume.Has (v : Volume) (path : List (List UInt8)) (type size : ℕ) (bytes : List UInt8) :
    Prop :=
  ∃ ino, v.Leads path ino type ∧ size = (v.inodeOf ino).size ∧
    bytes = if type = FileType.regular then v.contents (v.inodeOf ino) else []

/-- A block that is not allocated. -/
def Volume.Free (v : Volume) (k : ℕ) : Prop :=
  k < v.blockBitMap.bits ∧ v.blockBitMap.bit k = false

/-- The same tree, the same allocated inodes and the same free blocks. -/
structure SameFiles (v w : Volume) : Prop where
  tree : ∀ path type size bytes, v.Has path type size bytes ↔ w.Has path type size bytes
  inodes : ∀ ino < 4096, v.inodeBitMap.bit ino = w.inodeBitMap.bit ino
  blocks : ∀ k, v.Free k ↔ w.Free k

/-- A partition with nothing on it: all paths consist of `"."` and `".."` and lead to the root
directory with its two entries, only its inode and its block are allocated. -/
structure Blank (p : Partition) (v : Volume) : Prop where
  tree : ∀ path type size bytes, v.Has path type size bytes ↔
    (∀ name ∈ path, name = dotName ∨ name = dotDotName) ∧ type = FileType.directory ∧ size = 48 ∧
      bytes = []
  inodes : ∀ ino < 4096, (v.inodeBitMap.bit ino = true ↔ ino = 0)
  blocks : ∀ k, v.Free k ↔ 0 < k ∧ k < p.blockBitMapBitCnt

theorem Blank.sameFiles {p : Partition} {v w : Volume} (hv : Blank p v) (hw : Blank p w) :
    SameFiles v w where
  tree path type size bytes := (hv.tree path type size bytes).trans (hw.tree path type size bytes).symm
  inodes ino h := by rw [Bool.eq_iff_iff, hv.inodes ino h, hw.inodes ino h]
  blocks k := (hv.blocks k).trans (hw.blocks k).symm

theorem Blank.of_sameFiles {p : Partition} {v w : Volume} (hw : Blank p w) (h : SameFiles v w) :
    Blank p v where
  tree path type size bytes := (h.tree path type size bytes).trans (hw.tree path type size bytes)
  inodes ino hi := by rw [h.inodes ino hi, hw.inodes ino hi]
  blocks k := (h.blocks k).trans (hw.blocks k)

end View


section Bitmap

theorem Partition.freeSecCnt_eq (p : Partition) : p.freeSecCnt = p.secCnt - 611 := rfl

theorem Partition.bits_ge (p : Partition) : 8 ≤ p.blockBitMapBitCnt := by
  have h := p.room
  unfold Partition.blockBitMapBitCnt divRoundUp
  rw [p.freeSecCnt_eq]
  omega

theorem blockBitMap_bit (hk : k < 8 * (512 * p.blockBitMapSecCnt)) :
    (p.blockBitMap.bit k = true ↔ k = 0 ∨ p.blockBitMapBitCnt ≤ k) := by
  have hbits := p.bits_ge
  have hsecs : p.blockBitMapSecCnt = (p.blockBitMapBitCnt + 4095) / 4096 := rfl
  unfold Partition.blockBitMap
  dsimp only
  rw [bitMapSetRun_bit]
  by_cases hclear : 8 * (p.blockBitMapBitCnt / 8) ≤ k ∧
      k < 8 * (p.blockBitMapBitCnt / 8) + p.blockBitMapBitCnt % 8
  · rw [if_pos hclear]
    simp only [Bool.false_eq_true, false_iff]
    omega
  · rw [if_neg hclear]
    unfold BitMap.bit memset
    dsimp only
    by_cases hlast : p.blockBitMapBitCnt / 8 ≤ k / 8 ∧
        k / 8 < p.blockBitMapBitCnt / 8 + (512 - p.blockBitMapBitCnt / 8 % 512)
    · rw [if_pos hlast]
      have hff : (0xff : UInt8).toNat.testBit (k % 8) = true :=
        (byte_eq_ff_iff 0xff).mp rfl _ (by omega)
      rw [hff]
      simp only [true_iff]
      omega
    · rw [if_neg hlast]
      by_cases h0 : k / 8 = 0
      · rw [if_pos (by omega)]
        have hone : ∀ j < 8, ((1 : UInt8).toNat.testBit j = true ↔ j = 0) := by decide
        rw [hone _ (by omega)]
        omega
      · rw [if_neg (by omega)]
        simp only [UInt8.toNat_zero, Nat.zero_testBit, Bool.false_eq_true, false_iff]
        omega

end Bitmap

section Formatted

/-- The sectors that `partitionFormat` writes. -/
def Partition.Table (p : Partition) (lba : ℕ) : Prop :=
  p.lbaStart + 1 ≤ lba ∧ lba ≤ p.superBlock.dataLbaStart

/-- A disk on which the partition is as `partitionFormat` leaves it. -/
structure Formatted (p : Partition) (d : ℕ → ℕ → UInt8) : Prop where
  superBlock : SuperBlock.ofBytes (d (p.lbaStart + 1)) = p.superBlock
  blocks : ∀ i < 512 * p.blockBitMapSecCnt,
    d (p.lbaStart + 2 + i / 512) (i % 512) = p.blockBitMap.startAddr i
  inodes : ∀ i < 512, d p.superBlock.inodeBitMapLbaStart i = if i = 0 then 1 else 0
  root : ∀ i < 512, d p.superBlock.inodeTableLbaStart i = p.rootInode.bytes i
  rootDir : ∀ i < 512, d p.superBlock.dataLbaStart i = newDirSector 0 0 i

theorem Partition.secs_le (p : Partition) : p.blockBitMapSecCnt + 619 ≤ p.secCnt ∧
    1 ≤ p.blockBitMapSecCnt := by
  have hroom := p.room
  have hsecs : p.blockBitMapSecCnt = (p.blockBitMapBitCnt + 4095) / 4096 := rfl
  have hcnt : p.blockBitMapBitCnt = p.freeSecCnt - (p.freeSecCnt + 4095) / 4096 := rfl
  have hbits := p.bits_ge
  rw [p.freeSecCnt_eq] at hcnt
  omega

theorem Partition.dataLbaStart_eq (p : Partition) :
    p.superBlock.dataLbaStart = p.lbaStart + 2 + p.blockBitMapSecCnt + 1 + 608 := rfl

theorem Partition.inodeTable_eq (p : Partition) :
    p.superBlock.inodeTableLbaStart = p.lbaStart + 2 + p.blockBitMapSecCnt + 1 := rfl

theorem Partition.inodeBitMap_eq (p : Partition) :
    p.superBlock.inodeBitMapLbaStart = p.lbaStart + 2 + p.blockBitMapSecCnt := rfl

theorem Formatted.congr (h : Formatted p d) (hd : ∀ l, p.Table l → d' l = d l) :
    Formatted p d' := by
  have hdata := p.dataLbaStart_eq
  have htable := p.inodeTable_eq
  have hbm := p.inodeBitMap_eq
  refine ⟨?_, fun i hi => ?_, fun i hi => ?_, fun i hi => ?_, fun i hi => ?_⟩
  · rw [hd _ ⟨le_rfl, by omega⟩]
    exact h.superBlock
  · rw [hd _ ⟨by omega, by omega⟩]
    exact h.blocks i hi
  · rw [hd _ ⟨by omega, by omega⟩]
    exact h.inodes i hi
  · rw [hd _ ⟨by omega, by omega⟩]
    exact h.root i hi
  · rw [hd _ ⟨by omega, by omega⟩]
    exact h.rootDir i hi

theorem SuperBlock.ofBytes_congr {b b' : ℕ → UInt8} (h : ∀ i < 52, b i = b' i) :
    SuperBlock.ofBytes b = SuperBlock.ofBytes b' := by
  have hw : ∀ off, off + 4 ≤ 52 → getWord b off = getWord b' off := fun off hoff =>
    getWord_congr fun k hk => h _ (by omega)
  unfold SuperBlock.ofBytes
  simp only [hw 0 (by omega), hw 4 (by omega), hw 8 (by omega), hw 12 (by omega),
    hw 16 (by omega), hw 20 (by omega), hw 24 (by omega), hw 28 (by omega), hw 32 (by omega),
    hw 36 (by omega), hw 40 (by omega), hw 44 (by omega), hw 48 (by omega)]

/-- The words of a superblock. -/
def SuperBlock.words (sb : SuperBlock) : List ℕ :=
  [sb.magicNum, sb.secCnt, sb.inodeCnt, sb.partLbaStart, sb.blockBitMapLbaStart,
    sb.blockBitMapSecCnt, sb.inodeBitMapLbaStart, sb.inodeBitMapSecCnt, sb.inodeTableLbaStart,
    sb.inodeTableSecCnt, sb.dataLbaStart, sb.rootInodeNo, sb.dirEntrySize]

theorem SuperBlock.ofBytes_bytes {sb : SuperBlock} (h : ∀ w ∈ sb.words, w < 2 ^ 32)
    (emptyByte : ℕ → UInt8) : SuperBlock.ofBytes (sb.bytes emptyByte) = sb := by
  have hword : ∀ i (hi : i < 13), getWord (sb.bytes emptyByte) (4 * i) = sb.words[i] := by
    intro i hi
    have hlt : sb.words[i] < 2 ^ 32 := h _ (List.getElem_mem hi)
    rw [← Nat.mod_eq_of_lt hlt]
    have hget : sb.words.getD i 0 = sb.words[i] := by
      rw [List.getD_eq_getElem?_getD, List.getElem?_eq_getElem hi, Option.getD_some]
    rw [← hget, ← getWord_wordsBytes (fun i => sb.words.getD i 0) i]
    exact getWord_congr fun k hk => if_pos (by omega)
  obtain ⟨w0, w1, w2, w3, w4, w5, w6, w7, w8, w9, w10, w11, w12⟩ := sb
  unfold SuperBlock.ofBytes
  rw [SuperBlock.mk.injEq]
  exact ⟨hword 0 (by omega), hword 1 (by omega), hword 2 (by omega), hword 3 (by omega),
    hword 4 (by omega), hword 5 (by omega), hword 6 (by omega), hword 7 (by omega),
    hword 8 (by omega), hword 9 (by omega), hword 10 (by omega), hword 11 (by omega),
    hword 12 (by omega)⟩

theorem Partition.words_lt (p : Partition) : ∀ w ∈ p.superBlock.words, w < 2 ^ 32 := by
  have hdisk := p.onDisk
  have hsecs := p.secs_le
  have hmax : maxLba = 163839 := rfl
  have hdiv : divRoundUp (76 * 4096) 512 = 608 := rfl
  intro w hw
  simp only [SuperBlock.words, Partition.superBlock, Partition.magic, hdiv, List.mem_cons,
    List.not_mem_nil, or_false] at hw
  omega

section Writes

variable {lba l cnt : ℕ} {buf : ℕ → UInt8}

theorem write_disk_in (h : lba ≤ l) (h' : l < lba + cnt) {j : ℕ} (hj : j < 512) :
    (v.write lba buf cnt).disk l j = buf (512 * (l - lba) + j) := by
  simp [h, h', hj]

theorem write_disk_out (h : l < lba ∨ lba + cnt ≤ l) : (v.write lba buf cnt).disk l = v.disk l := by
  funext j
  simp only [Volume.write_disk]
  rw [if_neg (by omega)]

end Writes

/-- A partition after `partitionFormat`, and the other sectors. -/
structure FormattedFrom (p : Partition) (d d' : ℕ → ℕ → UInt8) : Prop where
  formatted : Formatted p d'
  others : ∀ l, ¬p.Table l → d' l = d l

theorem wp_partitionFormat : wp anyStop e (partitionFormat p)
    (fun _ v' => FormattedFrom p v.disk v'.disk) v := by
  have hdata := p.dataLbaStart_eq
  have htable := p.inodeTable_eq
  have hbm := p.inodeBitMap_eq
  have hsecs := p.secs_le
  have hcnt : p.superBlock.inodeTableSecCnt = 608 := rfl
  have hcnt' : p.superBlock.inodeBitMapSecCnt = 1 := rfl
  have hcnt'' : p.superBlock.blockBitMapSecCnt = p.blockBitMapSecCnt := rfl
  have hblocks : p.superBlock.blockBitMapLbaStart = p.lbaStart + 2 := rfl
  unfold partitionFormat
  rw [hcnt, hcnt']
  refine wp_ask_bind fun t => ?_
  refine wp_ideWrite_of trivial ?_
  refine wp_sysMallocUnchecked_bind trivial ?_
  refine wp_ideWrite_of trivial ?_
  refine wp_ideWrite_of trivial ?_
  refine wp_ideWrite_of trivial ?_
  rw [wp_ideWrite]
  refine ⟨fun _ => ⟨⟨?_, fun i hi => ?_, fun i hi => ?_, fun i hi => ?_, fun i hi => ?_⟩,
    fun l hl => ?_⟩, fun _ => trivial⟩
  · rw [write_disk_out (by omega), write_disk_out (by omega), write_disk_out (by omega),
      write_disk_out (by omega)]
    refine (SuperBlock.ofBytes_congr fun i hi => ?_).trans
      (SuperBlock.ofBytes_bytes p.words_lt (e.behind t))
    rw [write_disk_in le_rfl (by omega) (by omega)]
    simp
  · rw [write_disk_out (by omega), write_disk_out (by omega), write_disk_out (by omega),
      write_disk_in (by rw [hblocks]; omega) (by rw [hblocks, hcnt'']; omega) (by omega)]
    congr 1
    rw [hblocks]
    omega
  · rw [write_disk_out (by omega), write_disk_out (by omega), write_disk_in (by omega) (by omega) hi]
    unfold memset
    simp
  · rw [write_disk_out (by omega), write_disk_in (by omega) (by omega) hi]
    simp
  · rw [write_disk_in (by omega) (by omega) hi]
    simp
  · unfold Partition.Table at hl
    rw [write_disk_out (by omega), write_disk_out (by omega), write_disk_out (by omega),
      write_disk_out (by rw [hblocks, hcnt'']; omega), write_disk_out (by omega)]

end Formatted

section Mount

/-- The partitions of a disk do not overlap. -/
def Apart (p p' : Partition) : Prop :=
  p.hd = p'.hd → p.lbaStart + p.secCnt ≤ p'.lbaStart ∨ p'.lbaStart + p'.secCnt ≤ p.lbaStart

theorem Partition.Table.inside {l : ℕ} (h : p.Table l) :
    p.lbaStart < l ∧ l < p.lbaStart + p.secCnt := by
  have hdata := p.dataLbaStart_eq
  have hsecs := p.secs_le
  obtain ⟨h1, h2⟩ := h
  omega

namespace Computer

theorem wp_onDisk {α : Type} {hd : ℕ} {m : VolM α} {Q : α → Computer → Prop}
    {R : α → Volume → Prop} (hm : wp anyStop e m R { c.fs.vol with disk := c.disks hd })
    (hQ : ∀ a v, R a v →
      Q a { c with disks := fun h => if h = hd then v.disk else c.disks h }) :
    wp anyStop e (onDisk hd m) Q c :=
  wp_zoom (wp_mono hm hQ)

/-- After the loop every partition is formatted, and the rest of the computer is as before. -/
structure AllFormatted (ps : List Partition) (c c' : Computer) : Prop where
  formatted : ∀ p ∈ ps, Formatted p (c'.disks p.hd)
  others : ∀ hd l, (∀ p ∈ ps, p.hd = hd → ¬p.Table l) → c'.disks hd l = c.disks hd l
  partitionList : c'.partitionList = c.partitionList
  fs : c'.fs = c.fs

theorem AllFormatted.one {d : ℕ → ℕ → UInt8} (h : FormattedFrom p (c.disks p.hd) d) :
    AllFormatted [p] c { c with disks := fun h => if h = p.hd then d else c.disks h } := by
  refine ⟨?_, fun hd l hl => ?_, rfl, rfl⟩
  · intro p' hp'
    obtain rfl : p' = p := by simpa using hp'
    simpa using h.formatted
  · by_cases hhd : hd = p.hd
    · subst hhd
      simpa using h.others l (hl p (by simp) rfl)
    · simp [hhd]

theorem AllFormatted.cons {ps : List Partition} {c₁ : Computer} (h₁ : AllFormatted [p] c c₁)
    (h : AllFormatted ps c₁ c') (hap : ∀ p' ∈ ps, Apart p p') : AllFormatted (p :: ps) c c' := by
  refine ⟨?_, fun hd l hl => ?_, h.partitionList.trans h₁.partitionList, h.fs.trans h₁.fs⟩
  · intro p' hp'
    obtain rfl | hp' := List.mem_cons.mp hp'
    · refine (h₁.formatted p' (by simp)).congr fun l hl => ?_
      refine h.others _ l fun q hq hhd hq' => ?_
      have hl := hl.inside
      have hq' := hq'.inside
      obtain h' | h' := hap q hq hhd.symm <;> omega
    · exact h.formatted p' hp'
  · rw [h.others hd l fun q hq => hl q (by simp [hq]),
      h₁.others hd l fun q hq => hl q (by simp_all)]

theorem wp_formatAll : ∀ ps c, ps.Pairwise Apart →
    wp anyStop e (formatAll ps) (fun _ c' => AllFormatted ps c c') c := by
  intro ps
  induction ps with
  | nil => exact fun c _ => wp_pure.mpr ⟨by simp, fun _ _ _ => rfl, rfl, rfl⟩
  | cons p ps ih =>
    intro c hap
    have hone : wp anyStop e (do
        let sb ← ideRead (p.lbaStart + 1) 1
        if (SuperBlock.ofBytes sb).magicNum = Partition.magic then partitionFormat p
        else partitionFormat p) (fun _ v => FormattedFrom p (c.disks p.hd) v.disk)
        { c.fs.vol with disk := c.disks p.hd } :=
      wp_ideRead_of trivial (wp_ite (fun _ => wp_partitionFormat) fun _ => wp_partitionFormat)
    unfold formatAll
    apply wp_call (wp_onDisk (Q := fun _ c' => AllFormatted [p] c c') hone fun _ v h => .one h)
    intro _ c₁ h₁
    refine wp_mono (ih c₁ hap.of_cons) fun _ c' h => h₁.cons h fun p' hp' => ?_
    exact List.rel_of_pairwise_cons hap hp'

theorem wp_readTables (hf : Formatted p v.disk) : wp anyStop e (readTables p)
    (fun r v' => v' = v ∧ r.1 = p.superBlock ∧ r.2.1.length = 512 * p.blockBitMapSecCnt ∧
      (∀ k < 8 * (512 * p.blockBitMapSecCnt), r.2.1.bit k = p.blockBitMap.bit k) ∧
      r.2.2.length = 512 ∧ ∀ k < 4096, r.2.2.bit k = decide (k = 0)) v := by
  unfold readTables
  refine wp_sysMallocUnchecked_bind trivial (wp_sysMallocUnchecked_bind trivial ?_)
  refine wp_ideRead_of trivial ?_
  have hsb : SuperBlock.ofBytes (v.sector (p.lbaStart + 1)) = p.superBlock :=
    (SuperBlock.ofBytes_congr fun i hi => sector_apply v _ (by omega)).trans hf.superBlock
  rw [hsb]
  refine wp_sysMallocUnchecked_bind trivial (wp_ideRead_of trivial ?_)
  refine wp_sysMallocUnchecked_bind trivial (wp_ideRead_of trivial ?_)
  refine wp_pure.mpr ⟨rfl, rfl, rfl, fun k hk => ?_, rfl, fun k hk => ?_⟩
  · unfold BitMap.bit
    rw [← hf.blocks (k / 8) (by omega)]
    rfl
  · unfold BitMap.bit
    dsimp only
    rw [sector_apply v _ (by omega), hf.inodes _ (by omega)]
    by_cases h0 : k / 8 = 0
    · have hone : ∀ j < 8, (1 : UInt8).toNat.testBit j = decide (j = 0) := by decide
      rw [if_pos h0, hone _ (by omega)]
      congr 1
      rw [eq_iff_iff]
      omega
    · have hk0 : k ≠ 0 := by omega
      rw [if_neg h0]
      simp [hk0]

end Computer

/-- A volume that has just been mounted from a formatted partition. -/
structure Mounted (p : Partition) (v : Volume) : Prop where
  formatted : Formatted p v.disk
  lbaStart : v.lbaStart = p.lbaStart
  secCnt : v.secCnt = p.secCnt
  superBlock : v.superBlock = p.superBlock
  blockLength : v.blockBitMap.length = 512 * p.blockBitMapSecCnt
  blockBits : ∀ k < 8 * (512 * p.blockBitMapSecCnt), v.blockBitMap.bit k = p.blockBitMap.bit k
  inodeLength : v.inodeBitMap.length = 512
  inodeBits : ∀ k < 4096, v.inodeBitMap.bit k = decide (k = 0)

/-- The root directory is open, and nothing else. -/
structure RootOpen (p : Partition) (v : Volume) : Prop where
  opened : v.openInodes = [v.rootInode]
  ino : (v.inodes v.rootInode).ino = 0
  size : (v.inodes v.rootInode).size = 48
  first : (v.inodes v.rootInode).block 0 = p.superBlock.dataLbaStart
  noOther : ∀ k, 1 ≤ k → k ≤ 12 → (v.inodes v.rootInode).block k = 0

/-- The inode of the root directory as the inode table has it. -/
theorem Mounted.rootInode (h : Mounted p v) {b : ℕ → UInt8}
    (hb : ∀ k < 76, b k = v.disk p.superBlock.inodeTableLbaStart k) :
    (Inode.ofBytes b).ino = 0 ∧ (Inode.ofBytes b).size = 48 ∧
      (Inode.ofBytes b).block 0 = p.superBlock.dataLbaStart ∧
      ∀ k, 1 ≤ k → k ≤ 12 → (Inode.ofBytes b).block k = 0 := by
  have hb' : ∀ k < 76, b k = p.rootInode.bytes k := fun k hk =>
    (hb k hk).trans (h.formatted.root k (by omega))
  have hword : ∀ off, off + 4 ≤ 76 → getWord b off = getWord p.rootInode.bytes off :=
    fun off hoff => getWord_congr fun k hk => hb' _ (by omega)
  have hdata : p.superBlock.dataLbaStart < 2 ^ 32 :=
    p.words_lt _ (by simp [SuperBlock.words])
  refine ⟨?_, ?_, ?_, fun k hk hk' => ?_⟩
  · exact (hword 0 (by omega)).trans (Inode.ofBytes_bytes_ino p.rootInode)
  · exact (hword 4 (by omega)).trans (Inode.ofBytes_bytes_size p.rootInode)
  · refine (hword 16 (by omega)).trans ((Inode.ofBytes_bytes_block p.rootInode
      (by omega : 0 < 13)).trans ?_)
    exact Nat.mod_eq_of_lt hdata
  · refine (hword (16 + 4 * k) (by omega)).trans ((Inode.ofBytes_bytes_block p.rootInode
      (by omega : k < 13)).trans ?_)
    have hk0 : k ≠ 0 := by omega
    simp [Partition.rootInode, hk0]

namespace Computer

theorem wp_mountPartition (hf : Formatted p (c.disks p.hd)) :
    wp anyStop e (mountPartition p)
      (fun _ c' => Mounted p c'.fs.vol ∧ c'.fs.vol.openInodes = []) c := by
  unfold mountPartition
  apply wp_call (wp_onDisk (Q := fun r c' => c' = c ∧ r.1 = p.superBlock ∧
    r.2.1.length = 512 * p.blockBitMapSecCnt ∧
      (∀ k < 8 * (512 * p.blockBitMapSecCnt), r.2.1.bit k = p.blockBitMap.bit k) ∧
      r.2.2.length = 512 ∧ ∀ k < 4096, r.2.2.bit k = decide (k = 0)) (wp_readTables hf) ?_)
  · rintro ⟨sb, blockBitMap, inodeBitMap⟩ _ ⟨rfl, hsb, hlen, hbits, hilen, hibits⟩
    exact wp_modify.mpr ⟨⟨hf, rfl, rfl, hsb, hlen, hbits, hilen, hibits⟩, rfl⟩
  · rintro r v ⟨rfl, hr⟩
    refine ⟨?_, hr⟩
    have hd : (fun h => if h = p.hd then c.disks p.hd else c.disks h) = c.disks := by
      funext h
      split_ifs with heq
      · rw [heq]
      · rfl
    change { c with disks := fun h => if h = p.hd then c.disks p.hd else c.disks h } = c
    rw [hd]

theorem wp_openRootDir (h : Mounted p c.fs.vol) (hclosed : c.fs.vol.openInodes = []) :
    wp anyStop e openRootDir
      (fun _ c' => Mounted p c'.fs.vol ∧ RootOpen p c'.fs.vol) c := by
  have hroot : c.fs.vol.superBlock.rootInodeNo = 0 := by rw [h.superBlock]; rfl
  have hfind : c.fs.vol.findOpen 0 = none := by
    unfold Volume.findOpen
    rw [hclosed]
    rfl
  have hopen : wp anyStop e (inodeOpen 0) (fun q v' => Mounted p v' ∧
      RootOpen p { v' with rootInode := q }) c.fs.vol := by
    unfold inodeOpen
    rw [wp_get_bind, hfind]
    unfold inodeLocate
    rw [wp_bind_assoc, wp_assert_pos (by norm_num), wp_bind_assoc, wp_get_bind, wp_pure_bind]
    refine wp_sysMallocUnchecked_bind trivial (wp_sysMallocUnchecked_bind trivial ?_)
    refine wp_ideRead_of trivial ?_
    unfold newInode
    rw [wp_bind_assoc, wp_get_bind, wp_bind_assoc, wp_modify_bind, wp_pure_bind, wp_modify_bind]
    have hi := h.rootInode (b := fun k =>
      c.fs.vol.sector c.fs.vol.superBlock.inodeTableLbaStart (0 + k)) fun k hk => by
        rw [Nat.zero_add, sector_apply _ _ (by omega), h.superBlock]
    refine wp_pure.mpr ⟨⟨h.formatted, h.lbaStart, h.secCnt, h.superBlock, h.blockLength,
      h.blockBits, h.inodeLength, h.inodeBits⟩, ?_, ?_, ?_, ?_, ?_⟩
    · simp [hclosed]
    · simpa using hi.1
    · simpa using hi.2.1
    · simpa using hi.2.2.1
    · simpa using hi.2.2.2
  unfold openRootDir
  rw [wp_get_bind, hroot]
  apply wp_call (R := fun q c' => Mounted p c'.fs.vol ∧
    RootOpen p { c'.fs.vol with rootInode := q })
  · unfold onMounted
    exact wp_zoom hopen
  · rintro q c' ⟨hm, hr⟩
    exact wp_modify.mpr ⟨⟨hm.formatted, hm.lbaStart, hm.secCnt, hm.superBlock, hm.blockLength,
      hm.blockBits, hm.inodeLength, hm.inodeBits⟩, hr⟩

end Computer

end Mount

section Blank

/-- The two entries of the root directory. -/
def rootDot : DirEntry := ⟨dotName, 0, FileType.directory⟩

def rootDotDot : DirEntry := ⟨dotDotName, 0, FileType.directory⟩

theorem newDirSector_slot (j : ℕ) : slot (newDirSector 0 0) j =
    if j = 1 then rootDotDot else if j = 0 then rootDot else DirEntry.empty := by
  have hdot : rootDot.Fits := ⟨⟨by decide, by decide⟩, by decide, by decide⟩
  have hdotdot : rootDotDot.Fits := ⟨⟨by decide, by decide⟩, by decide, by decide⟩
  have h1 : slot (newDirSector 0 0) j =
      if j = 1 then rootDotDot else slot (memcpy (fun _ => 0) (24 * 0) rootDot.bytes 24) j :=
    slot_memcpy _ hdotdot 1 j
  rw [h1, slot_memcpy _ hdot 0 j]
  split_ifs
  · rfl
  · rfl
  · exact ofBytes_zero fun _ _ => rfl

theorem RootOpen.inodeOf_root (hr : RootOpen p v) : v.inodeOf 0 = v.inodes v.rootInode := by
  have hfind : v.findOpen 0 = some v.rootInode := by
    unfold Volume.findOpen
    rw [hr.opened, List.find?_cons_of_pos]
    simp [hr.ino]
  unfold Volume.inodeOf
  rw [hfind]

theorem Mounted.layout (h : Mounted p v) : Layout v := by
  have hdisk := p.onDisk
  have hsecs := p.secs_le
  have hmax : maxLba = 163839 := rfl
  have hdata := p.dataLbaStart_eq
  have hlen := h.blockLength
  refine ⟨?_, ?_, ?_, ?_, ?_, ?_, h.inodeLength, ?_, ?_, ?_⟩
  all_goals rw [h.superBlock]
  · rfl
  · rfl
  · rfl
  · rfl
  · rfl
  · exact hlen
  · omega
  · rw [h.lbaStart, h.secCnt]
    omega
  · unfold BitMap.bits
    omega

variable (h : Mounted p v) (hr : RootOpen p v)
include h hr

theorem Mounted.newDirectory : NewDirectory v (v.inodes v.rootInode) rootDot rootDotDot := by
  have hsecs := p.secs_le
  have hslot : ∀ j < 21, slot (v.disk ((v.inodes v.rootInode).block 0)) j =
      slot (newDirSector 0 0) j := fun j hj => by
    rw [hr.first]
    exact slot_congr hj h.formatted.rootDir
  refine ⟨h.layout, ⟨0, ?_, ?_, ?_⟩, hr.noOther, ?_, ?_, fun j hj hj' => ?_, rfl, by decide,
    by decide, ?_, hr.size⟩
  · unfold BitMap.bits
    rw [h.blockLength]
    omega
  · rw [hr.first, h.superBlock, Nat.add_zero]
  · rw [h.blockBits 0 (by omega)]
    exact (blockBitMap_bit (by omega)).mpr (.inl rfl)
  · rw [hslot 0 (by omega), newDirSector_slot]
    rfl
  · rw [hslot 1 (by omega), newDirSector_slot]
    rfl
  · rw [hslot j hj', newDirSector_slot, if_neg (by omega), if_neg (by omega)]
    rfl
  · rw [hr.ino]
    omega

/-- All paths stay in the root directory. -/
theorem Mounted.leads_iff : v.Leads path ino type ↔
    (∀ name ∈ path, name = dotName ∨ name = dotDotName) ∧ ino = 0 ∧ type = FileType.directory := by
  have hroot : v.superBlock.rootInodeNo = 0 := by rw [h.superBlock]; rfl
  constructor
  · intro hl
    induction hl with
    | root => exact ⟨by simp, hroot, rfl⟩
    | @entry path dir k j de _ hk hj hentry ih =>
      obtain ⟨hnames, rfl, -⟩ := ih
      rw [hr.inodeOf_root, (h.newDirectory hr).entryAt k j hj] at hentry
      have hde : de = rootDot ∨ de = rootDotDot := by
        split_ifs at hentry
        · exact .inl (Option.some.inj hentry).symm
        · exact .inr (Option.some.inj hentry).symm
      obtain rfl | rfl := hde
      · exact ⟨by simpa [or_imp, forall_and, rootDot] using hnames, rfl, rfl⟩
      · exact ⟨by simpa [or_imp, forall_and, rootDotDot] using hnames, rfl, rfl⟩
  · rintro ⟨hnames, rfl, rfl⟩
    induction path using List.reverseRecOn with
    | nil =>
      have hl := Volume.Leads.root (v := v)
      rwa [hroot] at hl
    | append_singleton path name ih =>
      have hl := ih fun n hn => hnames n (by simp [hn])
      obtain rfl | rfl := hnames name (by simp)
      · have hentry : v.entryAt (v.inodeOf 0) 0 0 = some rootDot := by
          rw [hr.inodeOf_root, (h.newDirectory hr).entryAt 0 0 (by omega)]
          rfl
        exact .entry hl (by omega) (by omega) hentry
      · have hentry : v.entryAt (v.inodeOf 0) 0 1 = some rootDotDot := by
          rw [hr.inodeOf_root, (h.newDirectory hr).entryAt 0 1 (by omega)]
          rfl
        exact .entry hl (by omega) (by omega) hentry

theorem Mounted.blank : Blank p v := by
  have hsecs : p.blockBitMapSecCnt = (p.blockBitMapBitCnt + 4095) / 4096 := rfl
  refine ⟨fun path type size bytes => ?_, fun ino hi => ?_, fun k => ?_⟩
  · unfold Volume.Has
    constructor
    · rintro ⟨ino, hl, rfl, rfl⟩
      obtain ⟨hnames, rfl, rfl⟩ := (h.leads_iff hr).mp hl
      rw [hr.inodeOf_root, hr.size]
      exact ⟨hnames, rfl, rfl, rfl⟩
    · rintro ⟨hnames, rfl, rfl, rfl⟩
      refine ⟨0, (h.leads_iff hr).mpr ⟨hnames, rfl, rfl⟩, ?_, rfl⟩
      rw [hr.inodeOf_root, hr.size]
  · rw [h.inodeBits ino hi, decide_eq_true_eq]
  · unfold Volume.Free BitMap.bits
    rw [h.blockLength]
    constructor
    · rintro ⟨hk, hbit⟩
      rw [h.blockBits k hk, Bool.eq_false_iff, Ne, blockBitMap_bit hk] at hbit
      omega
    · rintro ⟨hk, hlt⟩
      have hk' : k < 8 * (512 * p.blockBitMapSecCnt) := by omega
      refine ⟨hk', ?_⟩
      rw [h.blockBits k hk', Bool.eq_false_iff, Ne, blockBitMap_bit hk']
      omega

end Blank

section Law

/-- The partition that `fsInit` mounts. -/
def Computer.Mounts (c : Computer) (p : Partition) : Prop :=
  c.partitionList.find? (fun p => p.name = Computer.defaultPart) = some p

theorem Computer.wp_fsInit (hap : c.partitionList.Pairwise Apart) (hp : c.Mounts p) :
    wp anyStop e Computer.fsInit (fun _ c' => Blank p c'.fs.vol) c := by
  unfold Computer.fsInit
  rw [wp_modify_bind, wp_get_bind]
  apply wp_call (Computer.wp_formatAll c.partitionList _ hap)
  intro _ c₁ h₁
  unfold Computer.Mounts at hp
  dsimp only
  rw [hp]
  have hf : Formatted p (c₁.disks p.hd) := h₁.formatted p (List.mem_of_find?_eq_some hp)
  apply wp_call (Computer.wp_mountPartition hf)
  rintro _ c₂ ⟨hm, hclosed⟩
  apply wp_call (Computer.wp_openRootDir hm hclosed)
  rintro _ c₃ ⟨hm, hr⟩
  exact wp_modify.mpr (hm.blank hr)

/-- A boot gives the partition back as it was exactly when it was empty. -/
theorem reboot_law (hap : c.partitionList.Pairwise Apart) (hp : c.Mounts p)
    (hret : Returns e Computer.fsInit c () c') :
    SameFiles c.fs.vol c'.fs.vol ↔ Blank p c.fs.vol := by
  have hblank := hret.of_wp (Computer.wp_fsInit hap hp)
  exact ⟨hblank.of_sameFiles, fun h => h.sameFiles hblank⟩

/-- One partition on the second disk. -/
def samplePartition : Partition where
  name := Computer.defaultPart
  hd := 1
  lbaStart := 63
  secCnt := 4000
  room := by decide
  onDisk := by decide

/-- A computer with empty disks before its first boot. -/
def newComputer : Computer where
  disks _ _ _ := 0
  partitionList := [samplePartition]
  curHd := 0
  fs :=
    { vol := { sampleVolume with disk := fun _ _ => 0, openInodes := [] }
      fileTable := fun _ => ⟨0, 0, none⟩
      fdTable := fun k => if k < 3 then k else -1 }

theorem newComputer_boots : (Computer.fsInit sampleHeap 0 newComputer).value = some () := by
  decide +kernel

/-- After the first boot. -/
def bootedComputer : Computer :=
  { newComputer with curHd := 1, fs := (Computer.fsInit sampleHeap 0 newComputer).state.fs }

theorem bootedComputer_boots : (Computer.fsInit sampleHeap 0 bootedComputer).value = some () := by
  decide +kernel

theorem bootedComputer_blank : Blank samplePartition bootedComputer.fs.vol :=
  (Returns.of_value newComputer_boots).of_wp
    (Computer.wp_fsInit (List.pairwise_singleton _ _) rfl)

/-- A second boot in a row changes nothing. -/
theorem reboot_law_sample : ∃ c', Returns sampleHeap Computer.fsInit bootedComputer () c' ∧
    SameFiles bootedComputer.fs.vol c'.fs.vol := by
  have hret : Returns sampleHeap Computer.fsInit bootedComputer () _ :=
    .of_value bootedComputer_boots
  exact ⟨_, hret, (reboot_law (p := samplePartition) (c := bootedComputer)
    (List.pairwise_singleton _ _) rfl hret).mpr
    bootedComputer_blank⟩

/-- After `sysOpen("/a", O_CREAT | O_RDWR)`. -/
def openFs : Fs :=
  (sysOpen [47, 97] (OFlags.creat ||| OFlags.rdWr) sampleHeap 0 bootedComputer.fs).state

theorem openFs_opened : (sysOpen [47, 97] (OFlags.creat ||| OFlags.rdWr) sampleHeap 0
    bootedComputer.fs).value = some 3 := by
  decide +kernel

/-- After `sysClose` of its descriptor. -/
def usedComputer : Computer :=
  { bootedComputer with fs := (sysClose 3 sampleHeap 0 openFs).state }

theorem usedComputer_closed : (sysClose 3 sampleHeap 0 openFs).value = some 0 := by
  decide +kernel

theorem usedComputer_boots : (Computer.fsInit sampleHeap 0 usedComputer).value = some () := by
  decide +kernel

theorem usedComputer_allocated : usedComputer.fs.vol.inodeBitMap.bit 1 = true := by
  decide +kernel

/-- A file is created and closed, and the next boot loses it. -/
theorem reboot_law_fails :
    Returns sampleHeap (sysOpen [47, 97] (OFlags.creat ||| OFlags.rdWr)) bootedComputer.fs 3
      openFs ∧ Returns sampleHeap (sysClose 3) openFs 0 usedComputer.fs ∧
        ∃ c', Returns sampleHeap Computer.fsInit usedComputer () c' ∧
          ¬SameFiles usedComputer.fs.vol c'.fs.vol := by
  have hret : Returns sampleHeap Computer.fsInit usedComputer () _ := .of_value usedComputer_boots
  have hblank : Blank samplePartition _ :=
    hret.of_wp (Computer.wp_fsInit (List.pairwise_singleton _ _) rfl)
  refine ⟨.of_value openFs_opened, .of_value usedComputer_closed, _, hret, fun hsame => ?_⟩
  have hbit := usedComputer_allocated
  rw [hsame.inodes 1 (by omega), hblank.inodes 1 (by omega)] at hbit
  omega

end Law

end Gogoos
