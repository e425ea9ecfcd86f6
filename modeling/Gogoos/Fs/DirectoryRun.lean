import Gogoos.Fs.Directory

/-!
# Runs of insertions and deletions on one directory

A run takes a new directory, which holds `"."` and `".."` only, through any calls of
`syncDirEntry` and `deleteDirEntry`; between the calls other parts of the kernel may use
the blocks that are not the directory's. The multiset carried along a run holds the entries
that were inserted successfully and not deleted since.
-/

namespace Gogoos

open Program

variable {v w : Volume} {p : ℕ} {dot dotdot : DirEntry} {L L' : Multiset DirEntry}

inductive DirCall where
  | sync (de : DirEntry)
  | delete (ino : ℕ)
  | elsewhere

/-- What other parts of the kernel may do to the volume: anything that leaves the directory,
its blocks and their bits alone. -/
structure Elsewhere (p : ℕ) (v w : Volume) : Prop where
  superBlock : w.superBlock = v.superBlock
  lbaStart : w.lbaStart = v.lbaStart
  secCnt : w.secCnt = v.secCnt
  blockBitMap : w.blockBitMap.length = v.blockBitMap.length
  inodeBitMap : w.inodeBitMap.length = v.inodeBitMap.length
  inode : w.inodes p = v.inodes p
  bit : ∀ k n, v.ref (v.inodes p) k ≠ 0 →
    v.ref (v.inodes p) k = v.superBlock.dataLbaStart + n →
    w.blockBitMap.bit n = v.blockBitMap.bit n
  disk : ∀ k, v.ref (v.inodes p) k ≠ 0 →
    w.disk (v.ref (v.inodes p) k) = v.disk (v.ref (v.inodes p) k)
  idxLog : w.idxLog = v.idxLog

inductive DirStep (p : ℕ) (dot dotdot : DirEntry) :
    DirCall → Volume × Multiset DirEntry → Volume × Multiset DirEntry → Prop
  | sync {v w : Volume} {L : Multiset DirEntry} {e : Heap} {isRoot b : Bool} {de : DirEntry}
      (hde : NewEntry dot dotdot L de)
      (h : Returns e (syncDirEntry ⟨isRoot, p⟩ de) v b w) :
      DirStep p dot dotdot (.sync de) (v, L) (w, if b then de ::ₘ L else L)
  | delete {v w : Volume} {L : Multiset DirEntry} {e : Heap} {isRoot b : Bool} {ino : ℕ}
      (h : Returns e (deleteDirEntry ⟨isRoot, p⟩ ino) v b w) :
      DirStep p dot dotdot (.delete ino) (v, L) (w, if b then L.filter (·.ino ≠ ino) else L)
  | elsewhere {v w : Volume} {L : Multiset DirEntry} (h : Elsewhere p v w) :
      DirStep p dot dotdot .elsewhere (v, L) (w, L)

/-- The conditions under which an insertion goes right: the bitmap sectors stored for the
blocks it takes are not sectors of the directory, and a hole at index 12 of a directory with
an indirect table is not met with a single free block left. -/
structure SyncSafe (p : ℕ) (v : Volume) : Prop where
  misses : ∀ k n, k < 140 → FullBefore v p k → v.blockAt (v.inodes p) k = 0 →
    bitMapScan v.blockBitMap 1 = some n → SyncMisses v p n
  misses_table : ∀ n m, FullBefore v p 12 → v.blockAt (v.inodes p) 12 = 0 →
    bitMapScan v.blockBitMap 1 = some n →
    bitMapScan (bitMapSet v.blockBitMap n true) 1 = some m → SyncMisses v p m
  twoFree : ∀ n, FullBefore v p 12 → v.blockAt (v.inodes p) 12 = 0 →
    (v.inodes p).block 12 ≠ 0 → bitMapScan v.blockBitMap 1 = some n →
    bitMapScan (bitMapSet v.blockBitMap n true) 1 ≠ none

/-- The conditions under which a deletion goes right: it is not the inode of `".."`, it does
not empty the only block of the indirect table unless that is the block at index 12, and the
bitmap sector stored for a block it empties is not a sector of the directory. -/
structure DeleteSafe (p : ℕ) (dotdot : DirEntry) (ino : ℕ) (v : Volume) : Prop where
  notParent : ino ≠ dotdot.ino
  misses : ∀ k j, k < 140 → v.blockAt (v.inodes p) k ≠ 0 →
    OnlyHit v (v.blockAt (v.inodes p) k) ino j →
    SyncMisses v p (v.superBlock.lbaToBitMapIdx (v.blockAt (v.inodes p) k))
  notLast : ∀ k j, 12 < k → k < 140 → v.blockAt (v.inodes p) k ≠ 0 →
    OnlyHit v (v.blockAt (v.inodes p) k) ino j →
    indirectBlocksCnt (v.blockAt (v.inodes p)) ≠ 1

def DirSafe (p : ℕ) (dotdot : DirEntry) : DirCall → Volume → Prop
  | .sync _, v => SyncSafe p v
  | .delete ino, v => DeleteSafe p dotdot ino v
  | .elsewhere, _ => True

/-- A step that meets the conditions. -/
def SafeDirStep (p : ℕ) (dot dotdot : DirEntry) (s t : Volume × Multiset DirEntry) : Prop :=
  ∃ c, DirStep p dot dotdot c s t ∧ DirSafe p dotdot c s.1

section Steps

theorem FullBefore.table_ne_zero {k : ℕ} (h : FullBefore v p k) (hk : 12 < k) :
    (v.inodes p).block 12 ≠ 0 := by
  intro h12
  exact (h 12 hk).1 (blockAt_noTable v h12 le_rfl)

theorem TidyDir.sync {de : DirEntry} {b : Bool} (h : DirTidy v p dot dotdot L)
    (hde : NewEntry dot dotdot L de) (hsafe : SyncSafe p v) (hres : SyncResult v p de b w) :
    DirTidy w p dot dotdot (if b then de ::ₘ L else L) := by
  cases hres with
  | unchanged => exact h
  | intoSlot hk hfull hb hj =>
    obtain ⟨hj21, hfree⟩ := firstFreeSlot_eq_some hj
    exact h.insertSlot hde hk hj21 hb hfree
  | direct hk hfull hb hn =>
    exact h.insertDirect hde hk hb hn
      (hsafe.misses _ _ (by omega) hfull hb hn)
  | rolledBack hfull hb hn hm =>
    have h12 : (v.inodes p).block 12 = 0 := by
      by_contra h12
      exact hsafe.twoFree _ hfull hb h12 hn hm
    exact h.rolledBack h12 hn (hsafe.misses _ _ (by norm_num) hfull hb hn)
  | table hfull hb hn hm =>
    exact h.insertTable hde hb hn
      (hsafe.misses _ _ (by norm_num) hfull hb hn) hm (hsafe.misses_table _ _ hfull hb hn hm)
  | indirect hk hk' hfull hb hn =>
    exact h.insertIndirect hde hk hk' hb (hfull.table_ne_zero hk) hn
      (hsafe.misses _ _ hk' hfull hb hn)

theorem TidyDir.delete {ino : ℕ} {b : Bool} (h : DirTidy v p dot dotdot L)
    (hsafe : DeleteSafe p dotdot ino v) (hres : DeleteResult v p ino b w) :
    DirTidy w p dot dotdot (if b then L.filter (·.ino ≠ ino) else L) := by
  cases hres with
  | notFound _ => exact h
  | cleared hk hb hj hhit hmore => exact h.deleteSlot hk hj hb hhit hmore hsafe.notParent
  | direct hk hb honly =>
    exact h.deleteDirect hk hb honly hsafe.notParent (hsafe.misses _ _ (by omega) hb honly)
  | indirect hk hk' hb honly hmore =>
    exact h.deleteIndirect hk hk' hb honly hsafe.notParent hmore (hsafe.misses _ _ hk' hb honly)
  | @last k j hk hk' hb honly hone =>
    obtain rfl : k = 12 := by
      by_contra hne
      exact hsafe.notLast k j (by omega) hk' hb honly hone
    exact h.deleteLast hb honly hone hsafe.notParent (hsafe.misses _ _ hk' hb honly)

/-- Other parts of the kernel may also move the inode of a directory, when it is opened or
closed. -/
structure LeftAlone (v w : Volume) (i i' : Inode) : Prop where
  superBlock : w.superBlock = v.superBlock
  lbaStart : w.lbaStart = v.lbaStart
  secCnt : w.secCnt = v.secCnt
  blockBitMap : w.blockBitMap.length = v.blockBitMap.length
  inodeBitMap : w.inodeBitMap.length = v.inodeBitMap.length
  ino : i'.ino = i.ino
  size : i'.size = i.size
  block : ∀ k ≤ 12, i'.block k = i.block k
  bit : ∀ k n, v.ref i k ≠ 0 → v.ref i k = v.superBlock.dataLbaStart + n →
    w.blockBitMap.bit n = v.blockBitMap.bit n
  disk : ∀ k, v.ref i k ≠ 0 → w.disk (v.ref i k) = v.disk (v.ref i k)

theorem Elsewhere.leftAlone (h : Elsewhere p v w) : LeftAlone v w (v.inodes p) (w.inodes p) := by
  have hinode := h.inode
  exact ⟨h.superBlock, h.lbaStart, h.secCnt, h.blockBitMap, h.inodeBitMap, by rw [hinode],
    by rw [hinode], fun _ _ => by rw [hinode], h.bit, h.disk⟩

theorem TidyDir.leftAlone {i i' : Inode} (h : TidyDir v i dot dotdot L) (he : LeftAlone v w i i') :
    TidyDir w i' dot dotdot L := by
  have href : w.ref i' = v.ref i := by
    apply ref_congr he.block
    intro h12
    have := he.disk 140 (by rwa [ref_table])
    rwa [ref_table] at this
  have hblock : ∀ k < 140, w.blockAt i' k = v.blockAt i k := by
    intro k hk
    rw [← ref_of_lt hk, ← ref_of_lt hk, href]
  have hdisk : ∀ k < 140, v.blockAt i k ≠ 0 → w.disk (v.blockAt i k) = v.disk (v.blockAt i k) := by
    intro k hk hb
    have := he.disk k (by rwa [ref_of_lt hk])
    rwa [ref_of_lt hk] at this
  refine ⟨⟨h.layout.congr he.superBlock he.lbaStart he.secCnt he.blockBitMap he.inodeBitMap, ?_,
    h.isDir.congr hblock hdisk he.size, by rw [he.ino]; exact h.ino_lt, h.dot_name, ?_, ?_,
    h.inos⟩, by rw [href]; exact h.table, h.outside⟩
  · have hbits : w.blockBitMap.bits = v.blockBitMap.bits := by
      simp [BitMap.bits, he.blockBitMap]
    rw [href, he.superBlock, hbits]
    apply h.owns.congr_bits
    rintro n - ⟨k, hr, hr0⟩
    exact he.bit k n hr0 hr
  · rw [entryAt_congr (hblock 0 (by norm_num)) (hdisk 0 (by norm_num)), h.slot_dot]
  · rw [entryAt_congr (hblock 0 (by norm_num)) (hdisk 0 (by norm_num)), h.slot_dotdot]

/-- The bit indices a safe deletion hands on lie inside the bitmap. -/
theorem DirAt.freesInside {ino : ℕ} (h : DirWf v p dot dotdot L)
    (hsafe : DeleteSafe p dotdot ino v) : FreesInside v p ino := by
  constructor
  · intro k hk hb
    obtain ⟨n, hn, -, hidx⟩ := h.exists_idx hk hb
    rwa [hidx]
  · intro k j hk hk' hb honly hone
    obtain rfl : k = 12 := by
      by_contra hne
      exact hsafe.notLast k j (by omega) hk' hb honly hone
    obtain ⟨n, hn, -, hidx⟩ := h.exists_idx hk' hb
    rwa [hidx]

end Steps

section Logs

theorem LogSafe.takeBlock {u : Volume} (h : LogSafe u v) {n : ℕ} (hn : n < u.blockBitMap.bits) :
    LogSafe u (v.takeBlock n) := (h.setBlockBit hn true).sync hn .blockBitmap

theorem LogSafe.dropEntry {u : Volume} (h : LogSafe u v) (p : ℕ) : LogSafe u (v.dropEntry p) :=
  (h.setInode p _).write _ _ _

theorem SyncResult.logSafe {de : DirEntry} {b : Bool} (h : SyncResult v p de b w) :
    LogSafe v w := by
  have hself := LogSafe.refl v
  cases h with
  | unchanged => exact hself
  | intoSlot => exact (hself.write _ _ _).setInode _ _
  | direct _ _ _ hn =>
    exact (((hself.takeBlock (bitMapScan_one_eq_some hn).1).setInode _ _).write _ _ _).setInode _ _
  | rolledBack _ _ hn _ =>
    have hlt := (bitMapScan_one_eq_some hn).1
    exact ((((hself.takeBlock hlt).setInode _ _).setBlockBit hlt _).setInode _ _).sync hlt _
  | table _ _ hn hm =>
    exact (((((hself.takeBlock (bitMapScan_one_eq_some hn).1).setInode _ _).takeBlock
      (bitMapScan_one_eq_some hm).1).write _ _ _).write _ _ _).setInode _ _
  | indirect _ _ _ _ hn =>
    exact (((hself.takeBlock (bitMapScan_one_eq_some hn).1).write _ _ _).write _ _ _).setInode _ _

theorem DeleteResult.logSafe {ino : ℕ} {b : Bool} (h : DeleteResult v p ino b w)
    (hin : FreesInside v p ino) : LogSafe v w := by
  have hself := LogSafe.refl v
  cases h with
  | notFound => exact hself
  | cleared => exact (hself.write _ _ _).dropEntry p
  | direct hk hb _ =>
    exact ((hself.giveBlock (hin.block _ (by omega) hb)).setInode _ _).dropEntry p
  | indirect _ hk' hb _ _ =>
    exact ((hself.giveBlock (hin.block _ hk' hb)).write _ _ _).dropEntry p
  | last hk hk' hb honly hone =>
    exact (((hself.giveBlock (hin.block _ hk' hb)).giveBlock
      (hin.last _ _ hk hk' hb honly hone)).setInode _ _).dropEntry p

end Logs

section NewDirectory

/-- A directory as `sysMkdir` leaves it: one block, with `"."` and `".."` in its first
slots. -/
structure NewDirectory (v : Volume) (i : Inode) (dot dotdot : DirEntry) : Prop where
  layout : Layout v
  first : ∃ n < v.blockBitMap.bits,
    i.block 0 = v.superBlock.dataLbaStart + n ∧ v.blockBitMap.bit n = true
  noOther : ∀ k, 1 ≤ k → k ≤ 12 → i.block k = 0
  slot_dot : slot (v.disk (i.block 0)) 0 = dot
  slot_dotdot : slot (v.disk (i.block 0)) 1 = dotdot
  slot_free : ∀ j, 2 ≤ j → j < 21 →
    (slot (v.disk (i.block 0)) j).fileType = FileType.unknown
  dot_name : dot.fileName = dotName
  dot_type : dot.fileType ≠ FileType.unknown
  dotdot_type : dotdot.fileType ≠ FileType.unknown
  ino_lt : i.ino < 4096
  size : i.size = 48

variable {i : Inode} (h : NewDirectory v i dot dotdot)
include h

theorem NewDirectory.blockAt (k : ℕ) :
    v.blockAt i k = if k = 0 then i.block 0 else 0 := by
  have h12 := h.noOther 12 (by norm_num) le_rfl
  by_cases hk : k < 12
  · rw [blockAt_direct v _ hk]
    split_ifs with h0
    · rw [h0]
    · exact h.noOther k (by omega) hk.le
  · rw [blockAt_noTable v h12 (by omega), if_neg (by omega)]

theorem NewDirectory.entryAt (k j : ℕ) (hj : j < 21) : v.entryAt i k j =
    if k = 0 ∧ j = 0 then some dot else if k = 0 ∧ j = 1 then some dotdot else none := by
  obtain ⟨n, -, hn, -⟩ := h.first
  have hpos := h.layout.data_pos
  have hne : i.block 0 ≠ 0 := by omega
  unfold Volume.entryAt
  rw [h.blockAt k]
  by_cases hk : k = 0
  · rw [if_pos hk, if_neg hne]
    simp only [hk, true_and]
    by_cases h0 : j = 0
    · rw [if_pos h0, h0, h.slot_dot, if_neg h.dot_type]
    · by_cases h1 : j = 1
      · rw [if_neg h0, if_pos h1, h1, h.slot_dotdot, if_neg h.dotdot_type]
      · rw [if_pos (h.slot_free j (by omega) hj), if_neg h0, if_neg h1]
  · simp [hk]

theorem NewDirectory.isDirectory : IsDirectory v i dot dotdot 0 := by
  refine ⟨?_, h.size, fun k h0 hk hb => ?_⟩
  · have hempty : bag slots (fun _ : ℕ × ℕ => (none : Option DirEntry)) = 0 :=
      Finset.sum_eq_zero fun _ _ => rfl
    have hsecond := bag_insert (s := slots) (x := (0, 1)) (a := dotdot)
      (f := fun _ => none) (g := fun x => if x = (0, 1) then some dotdot else none)
      (mem_slots.mpr (by norm_num)) rfl (if_pos rfl) fun y _ hne => if_neg hne
    have hfirst := bag_insert (s := slots) (x := (0, 0)) (a := dot)
      (f := fun x => if x = (0, 1) then some dotdot else none)
      (g := fun x => v.entryAt i x.1 x.2)
      (mem_slots.mpr (by norm_num)) (if_neg (by simp))
      (by simpa using h.entryAt 0 0 (by norm_num)) ?_
    · rw [hfirst, hsecond, hempty]
    · rintro ⟨k, j⟩ hy hne
      rw [h.entryAt k j (mem_slots.mp hy).2]
      have hne' : ¬(k = 0 ∧ j = 0) := by simpa using hne
      simp [hne']
  · rw [h.blockAt k, if_neg (by omega)] at hb
    exact absurd rfl hb

theorem NewDirectory.tidy : TidyDir v i dot dotdot 0 := by
  obtain ⟨n, hn, hblock, hbit⟩ := h.first
  have href : ∀ k, v.ref i k = if k = 0 then i.block 0 else 0 := by
    intro k
    unfold Volume.ref
    split_ifs with h140 h0 h0
    · omega
    · exact h.noOther 12 (by norm_num) le_rfl
    · rw [h.blockAt, if_pos h0]
    · rw [h.blockAt, if_neg h0]
  have htable : v.ref i 140 = 0 := by rw [href, if_neg (by norm_num)]
  refine ⟨⟨h.layout, ⟨fun k hk => ?_, fun k k' heq hk => ?_⟩, h.isDirectory, h.ino_lt, h.dot_name,
    by simpa using h.entryAt 0 0 (by norm_num), by simpa using h.entryAt 0 1 (by norm_num),
    by simp⟩, tableUsed_of_noTable htable, by simp⟩
  · rw [href k] at hk ⊢
    split_ifs at hk ⊢ with h0
    · exact ⟨n, hn, hblock, hbit⟩
    · exact absurd rfl hk
  · rw [href k] at heq hk
    rw [href k'] at heq
    split_ifs at heq hk with h0 h0' h0'
    · rw [h0, h0']
    · exact absurd heq hk
    all_goals exact absurd rfl hk

end NewDirectory

/-- What a safe step does to a directory. -/
theorem SafeDirStep.tidy {s t : Volume × Multiset DirEntry} (h : SafeDirStep p dot dotdot s t)
    (hs : DirTidy s.1 p dot dotdot s.2) : DirTidy t.1 p dot dotdot t.2 ∧ LogSafe s.1 t.1 := by
  obtain ⟨c, hstep, hsafe⟩ := h
  cases hstep with
  | sync hde hret =>
    have hres := hret.of_wp (show wp anyStop _ _ _ _ from
      wp_syncDirEntry hs.layout (fun _ _ => trivial) _)
    exact ⟨hs.sync hde hsafe hres, hres.logSafe⟩
  | delete hret =>
    have hin := hs.freesInside hsafe
    have hres := hret.of_wp (show wp anyStop _ _ _ _ from
      wp_deleteDirEntry hs.layout (fun _ _ => trivial) hin _)
    exact ⟨hs.delete hsafe hres, hres.logSafe hin⟩
  | elsewhere he =>
    refine ⟨hs.leftAlone he.leftAlone, ?_, fun x hx => .inl ?_⟩
    · simp [BitMap.bits, he.blockBitMap]
    · rwa [he.idxLog] at hx

/-- In every state of a run whose steps meet the conditions, the directory holds what was
inserted and not deleted, and no bit index outside the block bitmap has been used, not even
by a call that stops the machine. A call that returns false leaves `L` as it is. -/
theorem directory_run (hnew : NewDirectory v (v.inodes p) dot dotdot)
    (hrun : Run (SafeDirStep p dot dotdot) (v, 0) (w, L)) :
    IsDirectory w (w.inodes p) dot dotdot L ∧ LogSafe v w ∧
      (∀ e isRoot de s, Stops e (syncDirEntry ⟨isRoot, p⟩ de) w s → LogSafe v s) ∧
      ∀ e isRoot ino s, DeleteSafe p dotdot ino w →
        Stops e (deleteDirEntry ⟨isRoot, p⟩ ino) w s → LogSafe v s := by
  have hinv : DirTidy w p dot dotdot L ∧ LogSafe v w := by
    apply hrun.invariant (I := fun s => DirTidy s.1 p dot dotdot s.2 ∧ LogSafe v s.1) _
      ⟨hnew.tidy, LogSafe.refl v⟩
    rintro s t ⟨htidy, hlog⟩ hstep
    obtain ⟨htidy', hlog'⟩ := hstep.tidy htidy
    exact ⟨htidy', hlog.trans hlog'⟩
  obtain ⟨htidy, hlog⟩ := hinv
  refine ⟨htidy.isDir, hlog, fun e isRoot de s hs => ?_, fun e isRoot ino s hsafe hs => ?_⟩
  · have hwp : wp (LogSafe v) e (syncDirEntry ⟨isRoot, p⟩ de) _ w :=
      wp_syncDirEntry htidy.layout (fun _ hw => hlog.trans hw) isRoot
    exact (wp_iff.mp hwp).2 s hs
  · have hwp : wp (LogSafe v) e (deleteDirEntry ⟨isRoot, p⟩ ino) _ w :=
      wp_deleteDirEntry htidy.layout (fun _ hw => hlog.trans hw) (htidy.freesInside hsafe) isRoot
    exact (wp_iff.mp hwp).2 s hs

section Sample

/-- A small volume as `partitionFormat` lays it out: 4000 sectors from sector 63 on. -/
def sampleSuperBlock : SuperBlock where
  magicNum := 0x20212021
  secCnt := 4000
  inodeCnt := 4096
  partLbaStart := 63
  blockBitMapLbaStart := 65
  blockBitMapSecCnt := 1
  inodeBitMapLbaStart := 66
  inodeBitMapSecCnt := 1
  inodeTableLbaStart := 67
  inodeTableSecCnt := 608
  dataLbaStart := 675
  rootInodeNo := 0
  dirEntrySize := 24

/-- Every allocation succeeds. -/
def sampleHeap : Heap := ⟨fun _ => true, fun _ _ => 0, fun _ => 0⟩

def sampleDot : DirEntry := ⟨dotName, 1, FileType.directory⟩

def sampleDotDot : DirEntry := ⟨dotDotName, 0, FileType.directory⟩

def sampleEntry : DirEntry := ⟨[97], 2, FileType.regular⟩

/-- The volume with a new directory of inode number 1, a child of the root; its inode lies
at address 0. -/
def sampleVolume : Volume where
  disk l := if l = 675 then
    memcpy (memcpy (fun _ => 0) 0 sampleDot.bytes 24) 24 sampleDotDot.bytes 24 else fun _ => 0
  lbaStart := 63
  secCnt := 4000
  superBlock := sampleSuperBlock
  blockBitMap := ⟨512, fun i => if i = 0 then 1 else 0⟩
  inodeBitMap := ⟨512, fun i => if i = 0 then 3 else 0⟩
  inodes _ := ⟨1, 48, 1, false, fun k => if k = 0 then 675 else 0⟩
  nextInode := 1
  openInodes := [0]
  rootInode := 0
  idxLog := []

theorem sampleVolume_newDirectory : NewDirectory sampleVolume (sampleVolume.inodes 0) sampleDot
    sampleDotDot := by
  refine ⟨?_, ⟨0, by decide, rfl, by decide⟩, ?_, by decide, by decide, by decide, rfl,
    by decide, by decide, by decide, rfl⟩
  · constructor <;> decide
  · intro k h1 _
    have h0 : k ≠ 0 := by omega
    simp [sampleVolume, h0]

/-- The new directory has a free slot, so an insertion takes no block. -/
theorem sampleVolume_syncSafe : SyncSafe 0 sampleVolume := by
  have hslot : firstFreeSlot (sampleVolume.sector 675) 21 0 = some 2 := by decide
  have hfirst : ∀ k, k < 140 → FullBefore sampleVolume 0 k →
      sampleVolume.blockAt (sampleVolume.inodes 0) k ≠ 0 := by
    intro k _ hfull hb
    have hk : k ≠ 0 := by
      rintro rfl
      exact sampleVolume_newDirectory.tidy.first_ne_zero hb
    have hnone : firstFreeSlot (sampleVolume.sector 675) 21 0 = none := (hfull 0 (by omega)).2
    simp [hslot] at hnone
  exact ⟨fun k _ hk hfull hb => absurd hb (hfirst k hk hfull),
    fun _ _ hfull hb => absurd hb (hfirst 12 (by norm_num) hfull),
    fun _ hfull hb => absurd hb (hfirst 12 (by norm_num) hfull)⟩

/-- One insertion into the new directory. -/
theorem directory_run_sample :
    let w := (syncDirEntry ⟨false, 0⟩ sampleEntry sampleHeap 0 sampleVolume).state
    IsDirectory w (w.inodes 0) sampleDot sampleDotDot {sampleEntry} := by
  have hnew : NewEntry sampleDot sampleDotDot 0 sampleEntry :=
    ⟨⟨⟨by decide, by decide⟩, by decide, by decide⟩, by decide, by decide⟩
  have hret : Returns sampleHeap (syncDirEntry ⟨false, 0⟩ sampleEntry) sampleVolume true
      (syncDirEntry ⟨false, 0⟩ sampleEntry sampleHeap 0 sampleVolume).state := ⟨0, _, rfl⟩
  exact (directory_run sampleVolume_newDirectory
    (.single ⟨_, .sync hnew hret, sampleVolume_syncSafe⟩)).1

/-- Without the conditions the law fails: `deleteDirEntry` with the inode number of the
parent removes `".."`, since it looks for `"."` twice. -/
theorem directory_run_fails :
    ∃ w L, Run (fun s t => ∃ c, DirStep 0 sampleDot sampleDotDot c s t) (sampleVolume, 0) (w, L) ∧
      w.entryAt (w.inodes 0) 0 1 = none ∧
      ¬IsDirectory w (w.inodes 0) sampleDot sampleDotDot L := by
  have hret : Returns sampleHeap (deleteDirEntry ⟨false, 0⟩ 0) sampleVolume true
      (deleteDirEntry ⟨false, 0⟩ 0 sampleHeap 0 sampleVolume).state := ⟨0, _, rfl⟩
  refine ⟨_, _, .single ⟨_, .delete hret⟩, by decide, fun hdir => ?_⟩
  have hsize : ((deleteDirEntry ⟨false, 0⟩ 0 sampleHeap 0 sampleVolume).state.inodes 0).size
      = 24 := by decide
  have := hdir.size
  rw [hsize] at this
  omega

end Sample

end Gogoos
