import Gogoos.Fs.DirectoryRun
import Gogoos.Fs.PathRoom

/-!
# A machine that leads a search along a path

The sector buffers are empty and the bytes behind them hold, search after search, the entry that
the machine wants to be found.
-/

namespace Gogoos

open Program

variable {σ α β : Type} {e : Heap} {t fuel : ℕ} {w : Volume} {name c : List UInt8} {de : DirEntry}
  {des : List DirEntry} {cnt : ℕ → ℕ} {dir : Dir} {p : List UInt8} {pre cs ds : List (List UInt8)}
  {next : List UInt8 × Option (List UInt8)} {record : PathSearchRecord} {parentIno deIno : ℕ}
  {log : List Note} {s : Noted σ}

section Machine

/-- The bytes behind a sector buffer, with an entry in slot 22. -/
def behindEntry (de : DirEntry) : ℕ → UInt8 := memcpy (fun _ => 0) 16 de.bytes 24

/-- Directories all have the number 5. -/
def guideDir (name : List UInt8) : DirEntry := ⟨name, 5, FileType.directory⟩

def guideFile (name : List UInt8) : DirEntry := ⟨name, 5, FileType.regular⟩

theorem fits_guideDir (h : ValidName c) : (guideDir c).Fits :=
  ⟨h, (by norm_num : 5 < 2 ^ 32), (by decide : FileType.directory < 2 ^ 32)⟩

theorem fits_guideFile (h : ValidName c) : (guideFile c).Fits :=
  ⟨h, (by norm_num : 5 < 2 ^ 32), (by decide : FileType.regular < 2 ^ 32)⟩

/-- The root and the inode 5, each with one block, which is empty, opened so many times. -/
def guideVolume (cnt : ℕ → ℕ) : Volume :=
  { sampleVolume with
    disk := fun _ _ => 0
    inodes := fun q => ⟨if q = 0 then 0 else 5, 96, cnt q, false, fun k => if k = 0 then 675 else 0⟩
    nextInode := 2
    openInodes := [0, 1] }

/-- A machine with memory. The searches from question `start` on find these entries one after
another, the later ones none. -/
def guideHeap (start : ℕ) (des : List DirEntry) (junk : ℕ → ℕ) : Heap where
  sysMalloc _ := true
  behind t := (des[(t - start) / 4]?).elim (fun _ => 0) behindEntry
  junk := junk

/-- What the machine has for the searches from question `t` on. -/
structure Guided (e : Heap) (t : ℕ) (des : List DirEntry) : Prop where
  granted : ∀ t, e.sysMalloc t = true
  behind : ∀ i, e.behind (t + 4 * i + 2) = (des[i]?).elim (fun _ => 0) behindEntry

theorem guided_guideHeap (start : ℕ) (des : List DirEntry) (junk : ℕ → ℕ) :
    Guided (guideHeap start des junk) start des := by
  constructor
  · exact fun _ => rfl
  · intro i
    have hi : (start + 4 * i + 2 - start) / 4 = i := by omega
    simp [guideHeap, hi]

theorem Guided.head (h : Guided e t (de :: des)) : e.behind (t + 2) = behindEntry de := h.behind 0

theorem Guided.tail (h : Guided e t (de :: des)) : Guided e (t + 4) des := by
  constructor
  · exact h.granted
  · intro i
    have hi : t + 4 + 4 * i + 2 = t + 4 * (i + 1) + 2 := by omega
    rw [hi, h.behind (i + 1)]
    rfl

theorem Guided.last (h : Guided e t []) : e.behind (t + 2) = fun _ => 0 := h.behind 0

theorem Guided.drop : ∀ {before : List DirEntry} {t}, Guided e t (before ++ des) →
    Guided e (t + 4 * before.length) des := by
  intro before
  induction before with
  | nil => exact fun h => h
  | cons de before ih =>
    intro t h
    have htime : t + 4 * (de :: before).length = t + 4 + 4 * before.length := by
      rw [List.length_cons]
      omega
    rw [htime]
    exact ih h.tail

/-- The directory that is searched: the root, or the inode 5 with a count to spare. -/
inductive Stage (cnt : ℕ → ℕ) : Dir → Prop
  | root (h : 0 < cnt 1) : Stage cnt ⟨true, 0⟩
  | inside (h : 1 < cnt 1) : Stage cnt ⟨false, 1⟩

end Machine

section Search

theorem searchBlocks_rest : ∀ cnt blockIdx, 0 < blockIdx →
    searchBlocks (fun k => if k = 0 then 675 else 0) name cnt blockIdx e t w =
      .returned none t w := by
  intro cnt
  induction cnt with
  | zero => exact fun _ _ => rfl
  | succ cnt ih =>
    intro blockIdx hpos
    unfold searchBlocks
    rw [if_pos (if_neg (Nat.ne_of_gt hpos))]
    exact ih _ (Nat.succ_pos _)

/-- An empty slot has no name. -/
theorem strEqAt_empty {buf : ℕ → UInt8} {off : ℕ} (hne : name ≠ []) (hzero : (0 : UInt8) ∉ name)
    (hbuf : buf off = 0) : strEqAt buf off name = false := by
  obtain ⟨c, cs, rfl⟩ := List.exists_cons_of_ne_nil hne
  have hc : buf off ≠ c := by
    rw [hbuf]
    rintro rfl
    exact hzero (by simp)
  simp [strEqAt, hc]

theorem searchSlots_skip (buf : ℕ → UInt8) (name : List UInt8) : ∀ n cnt idx,
    (∀ j, idx ≤ j → j < idx + n →
    strEqAt buf (24 * j) name = false) →
      searchSlots buf name (n + cnt) idx = searchSlots buf name cnt (idx + n) := by
  intro n
  induction n with
  | zero =>
    intro cnt idx _
    rw [Nat.zero_add, Nat.add_zero]
  | succ n ih =>
    intro cnt idx h
    rw [show n + 1 + cnt = n + cnt + 1 by omega, searchSlots, h idx le_rfl (by omega)]
    rw [if_neg Bool.false_ne_true, ih cnt (idx + 1) fun j h1 h2 => h j (by omega) (by omega)]
    congr 1
    omega

/-- The buffer of a search: an empty sector before these bytes. -/
def guideBuf (behind : ℕ → UInt8) : ℕ → UInt8 := fun j => if j < 512 then 0 else behind (j - 512)

theorem searchSlots_missing (hne : name ≠ []) (hzero : (0 : UInt8) ∉ name) :
    searchSlots (guideBuf fun _ => 0) name 24 0 = none := by
  have hskip := searchSlots_skip (guideBuf fun _ => 0) name 24 0 0 fun j _ _ =>
    strEqAt_empty hne hzero (by simp [guideBuf])
  rw [hskip]
  rfl

theorem searchSlots_guided (hname : ValidName de.fileName) (hne : de.fileName ≠ []) :
    searchSlots (guideBuf (behindEntry de)) de.fileName 24 0 = some 22 := by
  have hskip := searchSlots_skip (guideBuf (behindEntry de)) de.fileName 22 2 0
    fun j _ hj => strEqAt_empty hne hname.nonzero (by
      have hlt : 24 * j < 512 := by omega
      simp [guideBuf, hlt])
  have hslot : strEqAt (guideBuf (behindEntry de)) (24 * 22) de.fileName = true := by
    rw [strEqAt_iff]
    constructor
    · intro i hi
      have hle := hname.length_le
      have h1 : ¬528 + i < 512 := by omega
      have h2 : 16 ≤ 528 + i - 512 ∧ 528 + i - 512 < 16 + 24 := by omega
      have h3 : 528 + i - 512 - 16 = i := by omega
      have h4 : i < 16 := by omega
      simp [guideBuf, behindEntry, memcpy, DirEntry.bytes, h1, h2, h3, h4, hi]
    · have hle := hname.length_le
      have h1 : ¬528 + de.fileName.length < 512 := by omega
      have h2 : 16 ≤ 528 + de.fileName.length - 512 ∧ 528 + de.fileName.length - 512 < 16 + 24 := by
        omega
      have h3 : 528 + de.fileName.length - 512 - 16 = de.fileName.length := by omega
      have h4 : de.fileName.length < 16 := by omega
      simp [guideBuf, behindEntry, memcpy, DirEntry.bytes, h1, h2, h3, h4]
  rw [hskip, searchSlots, Nat.zero_add, if_pos hslot]

theorem ofBytes_guided (hde : de.Fits) :
    DirEntry.ofBytes (guideBuf (behindEntry de)) (24 * 22) = de := by
  have hbytes : ∀ k < 24, guideBuf (behindEntry de) (24 * 22 + k) = de.bytes (0 + k) := by
    intro k hk
    have h1 : ¬528 + k < 512 := by omega
    have h2 : 16 ≤ 528 + k - 512 ∧ 528 + k - 512 < 16 + 24 := by omega
    have h3 : 528 + k - 512 - 16 = k := by omega
    simp [guideBuf, behindEntry, memcpy, h1, h2, h3]
  rw [DirEntry.ofBytes_congr hbytes, DirEntry.ofBytes_bytes hde]

theorem sysMalloc_granted (he : ∀ t, e.sysMalloc t = true) :
    sysMalloc e t w = .returned true (t + 1) w := by
  unfold sysMalloc ask
  rw [he t]

theorem sysMallocUnchecked_granted (he : ∀ t, e.sysMalloc t = true) :
    sysMallocUnchecked e t w = .returned () (t + 1) w := by
  unfold sysMallocUnchecked
  rw [bind_returned (sysMalloc_granted he)]
  rfl

/-- One search on the machine. -/
theorem searchDirEntry_run (he : ∀ t, e.sysMalloc t = true) :
    searchDirEntry dir name e t (guideVolume cnt) =
      match searchSlots (guideBuf (e.behind (t + 2))) name 24 0 with
      | some j => .returned (some (DirEntry.ofBytes (guideBuf (e.behind (t + 2))) (24 * j))) (t + 3)
          (guideVolume cnt)
      | none => .returned none (t + 3) (guideVolume cnt) := by
  have hload : loadAllBlocks ((guideVolume cnt).inodes dir.inode) e (t + 1) (guideVolume cnt) =
      .returned (fun k => if k = 0 then 675 else 0) (t + 1) (guideVolume cnt) := by
    have hblock : ((guideVolume cnt).inodes dir.inode).block = fun k => if k = 0 then 675 else 0 := rfl
    unfold loadAllBlocks
    rw [hblock]
    simp only [show ¬((12 : ℕ) = 0) by norm_num, if_false, ne_eq, not_true_eq_false]
    have hblocks : (fun k : ℕ => if k < 12 then if k = 0 then 675 else 0 else 0) =
        fun k => if k = 0 then 675 else 0 := by
      funext k
      split_ifs <;> first | rfl | omega
    rw [hblocks]
    rfl
  have hread : ideRead 675 1 e (t + 2) (guideVolume cnt) =
      .returned (fun _ => 0) (t + 2) (guideVolume cnt) := rfl
  have hsize : (guideVolume cnt).superBlock.dirEntrySize = 24 := rfl
  unfold searchDirEntry
  rw [bind_returned (sysMalloc_granted he), if_neg (by simp), bind_returned (m := get) rfl,
    bind_returned hload, bind_returned (sysMallocUnchecked_granted he)]
  unfold searchBlocks
  rw [if_neg (by simp), if_pos rfl, bind_returned hread, bind_returned (m := ask Heap.behind) rfl,
    bind_returned (m := get) rfl, hsize]
  change (match searchSlots (guideBuf (e.behind (t + 2))) name 24 0 with
    | some j => pure (some (DirEntry.ofBytes (guideBuf (e.behind (t + 2))) (24 * j)))
    | none => searchBlocks (fun k => if k = 0 then 675 else 0) name 139 1 : VolM _) e (t + 3)
      (guideVolume cnt) = _
  cases searchSlots (guideBuf (e.behind (t + 2))) name 24 0 with
  | some j => rfl
  | none => exact searchBlocks_rest _ _ (by norm_num)

theorem search_guided (cnt : ℕ → ℕ) (dir : Dir) (h : Guided e t (de :: des)) (hde : de.Fits)
    (hne : de.fileName ≠ []) :
    searchDirEntry dir de.fileName e t (guideVolume cnt) =
      .returned (some de) (t + 3) (guideVolume cnt) := by
  rw [searchDirEntry_run h.granted, h.head, searchSlots_guided hde.name hne]
  exact congrArg (fun d => Outcome.returned (some d) (t + 3) (guideVolume cnt)) (ofBytes_guided hde)

theorem search_missing (h : Guided e t []) (hne : name ≠ []) (hzero : (0 : UInt8) ∉ name) :
    searchDirEntry dir name e t (guideVolume cnt) = .returned none (t + 3) (guideVolume cnt) := by
  rw [searchDirEntry_run h.granted, h.last, searchSlots_missing hne hzero]

end Search

section Counts

theorem guideVolume_setCnt (cnt : ℕ → ℕ) (g : Inode → Inode) {q n : ℕ}
    (hg : g ((guideVolume cnt).inodes q) = { (guideVolume cnt).inodes q with openCnt := n }) :
    (guideVolume cnt).setInode q g = guideVolume (Function.update cnt q n) := by
  have hinodes : ((guideVolume cnt).setInode q g).inodes =
      (guideVolume (Function.update cnt q n)).inodes := by
    funext r
    by_cases hr : r = q
    · subst hr
      change (if r = r then g ((guideVolume cnt).inodes r) else (guideVolume cnt).inodes r) = _
      rw [if_pos rfl, hg]
      simp [guideVolume]
    · simp [Volume.setInode, guideVolume, hr]
  exact congrArg (fun f => { guideVolume cnt with inodes := f }) hinodes

theorem dirClose_guided (h : Stage cnt dir) : ∃ cnt', 0 < cnt' 1 ∧
    dirClose dir e t (guideVolume cnt) = .returned () t (guideVolume cnt') := by
  cases h with
  | root h => exact ⟨cnt, h, rfl⟩
  | inside h =>
    have hset := guideVolume_setCnt (q := 1) (n := cnt 1 - 1) cnt
      (fun i => { i with openCnt := if i.openCnt = 0 then 2 ^ 32 - 1 else i.openCnt - 1 })
      (by
        have hne : cnt 1 ≠ 0 := by omega
        simp [guideVolume, hne])
    have hpos : 0 < Function.update cnt 1 (cnt 1 - 1) 1 := by
      rw [Function.update_self]
      omega
    have hcount : modifyInode 1
        (fun i => { i with openCnt := if i.openCnt = 0 then 2 ^ 32 - 1 else i.openCnt - 1 }) e t
          (guideVolume cnt) =
        .returned () t (guideVolume (Function.update cnt 1 (cnt 1 - 1))) :=
      congrArg (Outcome.returned () t) hset
    refine ⟨_, hpos, ?_⟩
    change inodeClose 1 e t (guideVolume cnt) = _
    unfold inodeClose
    rw [bind_returned hcount, bind_returned (m := get) rfl]
    exact congrFun (congrFun (congrFun (if_neg (Nat.ne_of_gt hpos)) e) t) _

theorem dirOpen_guided (cnt : ℕ → ℕ) {ino : ℕ} (he : ∀ t, e.sysMalloc t = true)
    (hino : ino = 0 ∨ ino = 5) :
    ∃ q cnt', dirOpen ino e t (guideVolume cnt) = .returned ⟨false, q⟩ (t + 1) (guideVolume cnt') ∧
      (ino = 5 → q = 1 ∧ cnt' 1 = cnt 1 + 1) := by
  have hopen : ∀ q, (guideVolume cnt).findOpen ino = some q →
      dirOpen ino e t (guideVolume cnt) =
        .returned ⟨false, q⟩ (t + 1) (guideVolume (Function.update cnt q (cnt q + 1))) := by
    intro q hq
    have hset := guideVolume_setCnt (q := q) (n := cnt q + 1) cnt
      (fun i => { i with openCnt := i.openCnt + 1 }) rfl
    unfold dirOpen inodeOpen
    rw [bind_returned (sysMallocUnchecked_granted he), bind_bind, bind_returned (m := get) rfl, hq]
    change Outcome.returned _ _ ((guideVolume cnt).setInode q _) = _
    rw [hset]
  rcases hino with rfl | rfl
  · exact ⟨0, _, hopen 0 rfl, by simp⟩
  · exact ⟨1, _, hopen 1 rfl, fun _ => ⟨rfl, Function.update_self _ _ _⟩⟩

end Counts

section Walk

theorem quietly_returned {m : Program Heap σ α} {a : α} {t' : ℕ} {x : σ}
    (h : m e t s.st = .returned a t' x) : quietly m e t s = .returned a t' ⟨x, s.log⟩ :=
  zoom_returned h

theorem assert_returned {q : Prop} [Decidable q] (h : q) :
    (assert q : NotedM σ Unit) e t s = .returned () t s := by
  unfold assert
  rw [if_pos h]
  rfl

theorem pathNext_run (sub : Option (List UInt8)) : ∃ next log',
    Noted.pathNext sub e t s = .returned next t ⟨s.st, log'⟩ ∧ Ahead next (restOf sub) ∧
      s.log ⊆ log' ∧ ∀ c cs, restOf sub = c :: cs → .name c ∈ log' := by
  cases sub with
  | none => exact ⟨_, s.log, rfl, ⟨rfl, rfl⟩, List.Subset.refl _, by simp [restOf]⟩
  | some p =>
    refine ⟨_, _, rfl, ahead_pathParse, List.subset_cons_self _ _, ?_⟩
    intro c cs hc
    have hname : (pathParse p).1 = c := by
      rw [ahead_pathParse.name, show components p = c :: cs from hc]
      rfl
    rw [hname]
    exact List.mem_cons_self

/-- A search after the names `pre` and before the names `cs`. -/
structure Standing (pre cs : List (List UInt8)) (next : List UInt8 × Option (List UInt8))
    (record : PathSearchRecord) (parentIno : ℕ) (cnt : ℕ → ℕ) (log : List Note) : Prop where
  ahead : Ahead next cs
  path : record.searchPath = joined pre
  fileType : record.fileType = FileType.unknown
  parent : parentIno = 0 ∨ parentIno = 5
  stage : Stage cnt record.parentDir
  named : ∀ c rest, cs = c :: rest → .name c ∈ log

theorem Standing.parent_ino (h : Standing pre cs next record parentIno cnt log) :
    ((guideVolume cnt).inodes record.parentDir.inode).ino = 0 ∨
      ((guideVolume cnt).inodes record.parentDir.inode).ino = 5 := by
  have hstage := h.stage
  generalize record.parentDir = dir at hstage
  cases hstage with
  | root => exact Or.inl rfl
  | inside => exact Or.inr rfl

/-- The search goes on into a directory. -/
theorem searchLoop_enter (fuel deIno : ℕ)
    (h : Standing pre (c :: cs) next record parentIno cnt log) (hc : ValidName c) (hne : c ≠ [])
    (hlen : (joined pre).length < 512)
    (hg : Guided e t (guideDir c :: des)) : ∃ next' record' parentIno' cnt' log',
      Noted.searchLoop (fuel + 1) next.1 next.2 record parentIno deIno e t ⟨guideVolume cnt, log⟩ =
        Noted.searchLoop fuel next'.1 next'.2 record' parentIno' 5 e (t + 4)
          ⟨guideVolume cnt', log'⟩ ∧
      Standing (pre ++ [c]) cs next' record' parentIno' cnt' log' := by
  have hname : next.1 = c := h.ahead.name
  have hrest : restOf next.2 = cs := h.ahead.rest
  have hpath : record.searchPath ++ slash :: next.1 = joined (pre ++ [c]) := by
    rw [h.path, hname, joined_append]
  have hsearch : searchDirEntry record.parentDir next.1 e t (guideVolume cnt) =
      .returned (some (guideDir c)) (t + 3) (guideVolume cnt) := by
    have hfound := search_guided cnt record.parentDir hg (fits_guideDir hc) hne
    rw [hname]
    exact hfound
  obtain ⟨next', log', hnext, hahead, -, hnamed⟩ := pathNext_run (e := e) (t := t + 3)
    (s := ⟨guideVolume cnt, .searchPath (joined (pre ++ [c])) :: log⟩) next.2
  obtain ⟨cnt₁, hpos, hclose⟩ := dirClose_guided (e := e) (t := t + 3) h.stage
  obtain ⟨q, cnt₂, hopen, h5⟩ := dirOpen_guided (t := t + 3) cnt₁ hg.granted (Or.inr rfl)
  obtain ⟨rfl, hcnt⟩ := h5 rfl
  refine ⟨next', ⟨joined (pre ++ [c]), ⟨false, 1⟩, record.fileType⟩,
    ((guideVolume cnt).inodes record.parentDir.inode).ino, cnt₂, log', ?_, ?_⟩
  · rw [Noted.searchLoop, if_neg (by rw [hname]; exact hne),
      bind_returned (assert_returned (by rw [h.path]; exact hlen))]
    dsimp only
    rw [hpath, bind_returned (m := note _) rfl, bind_returned (quietly_returned hsearch)]
    dsimp only
    have htype : (guideDir c).fileType = FileType.directory := rfl
    have hino : (guideDir c).ino = 5 := rfl
    rw [bind_returned hnext, if_pos htype, bind_returned (m := get) rfl,
      bind_returned (quietly_returned hclose), hino, bind_returned (quietly_returned hopen)]
  · constructor
    · exact hrest ▸ hahead
    · rfl
    · exact h.fileType
    · exact h.parent_ino
    · exact .inside (by omega)
    · exact hrest ▸ hnamed

/-- The search goes down all the directories. -/
theorem searchLoop_walk (fuel : ℕ) : ∀ ds pre t next record parentIno deIno cnt log,
    Standing pre (ds ++ cs) next record parentIno cnt log → (∀ c ∈ ds, ValidName c ∧ c ≠ []) →
    pathLength (pre ++ ds) < 512 → Guided e t (ds.map guideDir ++ des) →
      ∃ next' record' parentIno' cnt' log',
        Noted.searchLoop (ds.length + fuel) next.1 next.2 record parentIno deIno e t
            ⟨guideVolume cnt, log⟩ =
          Noted.searchLoop fuel next'.1 next'.2 record' parentIno' (if ds = [] then deIno else 5) e
            (t + 4 * ds.length) ⟨guideVolume cnt', log'⟩ ∧
        Standing (pre ++ ds) cs next' record' parentIno' cnt' log' := by
  intro ds
  induction ds with
  | nil =>
    intro pre t next record parentIno deIno cnt log h _ _ _
    refine ⟨next, record, parentIno, cnt, log, ?_, by rw [List.append_nil]; exact h⟩
    rw [List.length_nil, Nat.zero_add, if_pos rfl]
    rfl
  | cons c ds ih =>
    intro pre t next record parentIno deIno cnt log h hvalid hlen hg
    obtain ⟨hc, hne⟩ := hvalid c (by simp)
    have hpre : (joined pre).length < 512 := by
      rw [pathLength_append] at hlen
      rw [length_joined]
      omega
    obtain ⟨next₁, record₁, parentIno₁, cnt₁, log₁, hstep, hstand⟩ :=
      searchLoop_enter (ds.length + fuel) deIno h hc hne hpre hg
    have happ : pre ++ c :: ds = pre ++ [c] ++ ds := by simp
    rw [happ] at hlen ⊢
    obtain ⟨next₂, record₂, parentIno₂, cnt₂, log₂, hwalk, hstand₂⟩ :=
      ih (pre ++ [c]) (t + 4) next₁ record₁ parentIno₁ 5 cnt₁ log₁ hstand
        (fun d hd => hvalid d (List.mem_cons_of_mem _ hd)) hlen hg.tail
    refine ⟨next₂, record₂, parentIno₂, cnt₂, log₂, ?_, hstand₂⟩
    have hfuel : (c :: ds).length + fuel = ds.length + fuel + 1 := by
      rw [List.length_cons]
      omega
    have htime : t + 4 + 4 * ds.length = t + 4 * (c :: ds).length := by
      rw [List.length_cons]
      omega
    rw [hfuel, hstep, hwalk, htime, ite_self, if_neg (List.cons_ne_nil _ _)]

/-- The end of a path that leads to a directory. -/
theorem searchLoop_end (fuel deIno : ℕ)
    (h : Standing pre [] next record parentIno cnt log) (he : ∀ t, e.sysMalloc t = true) : ∃ dir cnt',
      Noted.searchLoop (fuel + 1) next.1 next.2 record parentIno deIno e t ⟨guideVolume cnt, log⟩ =
        .returned (toIno deIno, ⟨joined pre, dir, FileType.directory⟩) (t + 1)
          ⟨guideVolume cnt', log⟩ := by
  have hname : next.1 = [] := h.ahead.name
  obtain ⟨cnt₁, -, hclose⟩ := dirClose_guided (e := e) (t := t) h.stage
  obtain ⟨q, cnt₂, hopen, -⟩ := dirOpen_guided (t := t) cnt₁ he h.parent
  refine ⟨⟨false, q⟩, cnt₂, ?_⟩
  rw [Noted.searchLoop, if_pos hname, bind_returned (quietly_returned hclose),
    bind_returned (quietly_returned hopen), ← h.path]
  rfl

/-- The end at a name that is not found. -/
theorem searchLoop_missing (fuel deIno : ℕ)
    (h : Standing pre (c :: cs) next record parentIno cnt log) (hne : c ≠ [])
    (hzero : (0 : UInt8) ∉ c) (hlen : (joined pre).length < 512)
    (hg : Guided e t []) :
      Noted.searchLoop (fuel + 1) next.1 next.2 record parentIno deIno e t ⟨guideVolume cnt, log⟩ =
        .returned (none, ⟨joined (pre ++ [c]), record.parentDir, FileType.unknown⟩) (t + 3)
          ⟨guideVolume cnt, .searchPath (joined (pre ++ [c])) :: log⟩ := by
  have hname : next.1 = c := h.ahead.name
  have hpath : record.searchPath ++ slash :: next.1 = joined (pre ++ [c]) := by
    rw [h.path, hname, joined_append]
  have hsearch : searchDirEntry record.parentDir next.1 e t (guideVolume cnt) =
      .returned none (t + 3) (guideVolume cnt) := by
    rw [hname]
    exact search_missing hg hne hzero
  rw [Noted.searchLoop, if_neg (by rw [hname]; exact hne),
    bind_returned (assert_returned (by rw [h.path]; exact hlen))]
  dsimp only
  rw [hpath, bind_returned (m := note _) rfl, bind_returned (quietly_returned hsearch), ← h.fileType]
  rfl

/-- The end at a file. -/
theorem searchLoop_file (fuel deIno : ℕ)
    (h : Standing pre [c] next record parentIno cnt log) (hc : ValidName c)
    (hne : c ≠ []) (hlen : (joined pre).length < 512) (hg : Guided e t (guideFile c :: des)) :
    ∃ log',
      Noted.searchLoop (fuel + 1) next.1 next.2 record parentIno deIno e t ⟨guideVolume cnt, log⟩ =
        .returned (some 5, ⟨joined (pre ++ [c]), record.parentDir, FileType.regular⟩) (t + 3)
          ⟨guideVolume cnt, log'⟩ := by
  have hname : next.1 = c := h.ahead.name
  have hpath : record.searchPath ++ slash :: next.1 = joined (pre ++ [c]) := by
    rw [h.path, hname, joined_append]
  have hsearch : searchDirEntry record.parentDir next.1 e t (guideVolume cnt) =
      .returned (some (guideFile c)) (t + 3) (guideVolume cnt) := by
    have hfound := search_guided cnt record.parentDir hg (fits_guideFile hc) hne
    rw [hname]
    exact hfound
  obtain ⟨next', log', hnext, -⟩ := pathNext_run (e := e) (t := t + 3)
    (s := ⟨guideVolume cnt, .searchPath (joined (pre ++ [c])) :: log⟩) next.2
  refine ⟨log', ?_⟩
  rw [Noted.searchLoop, if_neg (by rw [hname]; exact hne),
    bind_returned (assert_returned (by rw [h.path]; exact hlen))]
  dsimp only
  rw [hpath, bind_returned (m := note _) rfl, bind_returned (quietly_returned hsearch)]
  dsimp only
  rw [bind_returned hnext]
  rfl

end Walk

section Files

/-- Each of the two is open once. -/
def guideStart : ℕ → ℕ := fun _ => 1

theorem guideStart_pos : 0 < guideStart 1 := Nat.one_pos

/-- A search for a path whose first names are directories. -/
theorem searchFile_walk (log : List Note) (hs : Sought p) (hlt : p.length < 512)
    (hp : components p = ds ++ cs)
    (hvalid : ∀ c ∈ ds, ValidName c ∧ c ≠ []) (hcnt : 0 < cnt 1)
    (hg : Guided e (t + 1) (ds.map guideDir ++ des)) :
    ∃ fuel next record parentIno cnt' log',
      Noted.searchFile p e t ⟨guideVolume cnt, log⟩ =
        Noted.searchLoop (fuel + 1) next.1 next.2 record parentIno
          (if ds = [] then e.junk t else 5) e (t + 1 + 4 * ds.length) ⟨guideVolume cnt', log'⟩ ∧
      Standing ds cs next record parentIno cnt' log' := by
  have hlen := pathLength_absolute hs.1
  rw [hp, pathLength_append] at hlen
  have hds : ds.length ≤ pathLength ds := length_le_pathLength
  have hstand : Standing [] (ds ++ cs) (pathParse p)
      ⟨[], (guideVolume cnt).rootDir, FileType.unknown⟩ 0 cnt
      (.name (pathParse p).1 :: log) := by
    refine ⟨hp ▸ ahead_pathParse, rfl, rfl, Or.inl rfl, .root hcnt, ?_⟩
    intro c rest hc
    have hname : (pathParse p).1 = c := by
      rw [ahead_pathParse.name, hp, hc]
      rfl
    rw [hname]
    exact List.mem_cons_self
  obtain ⟨next, record, parentIno, cnt', log', hwalk, hend⟩ :=
    searchLoop_walk (p.length - ds.length + 1) ds [] (t + 1) _ _ _ (e.junk t) _ _ hstand
      hvalid (by rw [List.nil_append]; omega) hg
  refine ⟨p.length - ds.length, next, record, parentIno, cnt', log', ?_, hend⟩
  have hfuel : p.length + 1 = ds.length + (p.length - ds.length + 1) := by omega
  unfold Noted.searchFile
  rw [bind_returned (m := get) rfl, if_neg (by rw [hs.2]; exact Bool.false_ne_true),
    bind_returned (assert_returned ⟨hs.1, hlt⟩), bind_returned (m := ask Heap.junk) rfl, hfuel]
  exact hwalk

/-- Every name is a directory. -/
theorem searchFile_dirs (log : List Note) (hs : Sought p) (hlt : p.length < 512)
    (hvalid : ∀ c ∈ components p, ValidName c ∧ c ≠ [])
    (hg : Guided e (t + 1) ((components p).map guideDir)) : ∃ dir cnt' log',
      Noted.searchFile p e t ⟨guideVolume guideStart, log⟩ =
        .returned (toIno (if components p = [] then e.junk t else 5),
            ⟨joined (components p), dir, FileType.directory⟩)
          (t + 2 + 4 * (components p).length) ⟨guideVolume cnt', log'⟩ := by
  have hguide : Guided e (t + 1) ((components p).map guideDir ++ []) := by
    rw [List.append_nil]
    exact hg
  obtain ⟨fuel, next, record, parentIno, cnt₁, log₁, hwalk, hstand⟩ :=
    searchFile_walk log hs hlt (List.append_nil _).symm hvalid guideStart_pos hguide
  obtain ⟨dir, cnt₂, hend⟩ := searchLoop_end fuel
    (if components p = [] then e.junk t else 5) (t := t + 1 + 4 * (components p).length)
    hstand hg.granted
  refine ⟨dir, cnt₂, log₁, ?_⟩
  have htime : t + 1 + 4 * (components p).length + 1 = t + 2 + 4 * (components p).length := by omega
  rw [hwalk, hend, htime]

/-- A name is not found. -/
theorem searchFile_missing (log : List Note) (hs : Sought p) (hlt : p.length < 512)
    (hp : components p = ds ++ c :: cs) (hvalid : ∀ c ∈ ds, ValidName c ∧ c ≠ [])
    (hzero : (0 : UInt8) ∉ p) (hg : Guided e (t + 1) (ds.map guideDir)) :
    ∃ dir t' cnt' log',
      Noted.searchFile p e t ⟨guideVolume guideStart, log⟩ =
        .returned (none, ⟨joined (ds ++ [c]), dir, FileType.unknown⟩) t' ⟨guideVolume cnt', log'⟩ ∧
      .name c ∈ log' := by
  have hlen := pathLength_absolute hs.1
  rw [hp, pathLength_append] at hlen
  have hc : c ∈ components p := by simp [hp]
  obtain ⟨hne, -, hsub⟩ := mem_components hc
  have hguide : Guided e (t + 1) (ds.map guideDir ++ []) := by
    rw [List.append_nil]
    exact hg
  obtain ⟨fuel, next, record, parentIno, cnt₁, log₁, hwalk, hstand⟩ :=
    searchFile_walk log hs hlt hp hvalid guideStart_pos hguide
  have hrest := hguide.drop
  rw [List.length_map] at hrest
  have hend := searchLoop_missing fuel (if ds = [] then e.junk t else 5) hstand
    hne (fun h0 => hzero (hsub _ h0)) (by rw [length_joined]; omega) hrest
  refine ⟨_, _, _, _, hwalk.trans hend, ?_⟩
  exact List.mem_cons_of_mem _ (hstand.named c _ rfl)

/-- The last name is a file. -/
theorem searchFile_file (log : List Note) (hs : Sought p) (hlt : p.length < 512)
    (hp : components p = ds ++ [c]) (hvalid : ∀ c ∈ components p, ValidName c ∧ c ≠ [])
    (hg : Guided e (t + 1) (ds.map guideDir ++ [guideFile c])) : ∃ dir t' cnt' log',
      Noted.searchFile p e t ⟨guideVolume guideStart, log⟩ =
        .returned (some 5, ⟨joined (ds ++ [c]), dir, FileType.regular⟩) t'
          ⟨guideVolume cnt', log'⟩ := by
  have hlen := pathLength_absolute hs.1
  rw [hp, pathLength_append] at hlen
  obtain ⟨hc, hne⟩ := hvalid c (by simp [hp])
  have hvalid' : ∀ d ∈ ds, ValidName d ∧ d ≠ [] := by
    intro d hd
    exact hvalid d (by simp [hp, hd])
  obtain ⟨fuel, next, record, parentIno, cnt₁, log₁, hwalk, hstand⟩ :=
    searchFile_walk log hs hlt hp hvalid' guideStart_pos hg
  have hrest := hg.drop
  rw [List.length_map] at hrest
  obtain ⟨log₂, hend⟩ := searchLoop_file fuel
    (if ds = [] then e.junk t else 5) hstand hc hne (by rw [length_joined]; omega) hrest
  exact ⟨_, _, _, _, hwalk.trans hend⟩

end Files

section Depth

variable {s : Noted Volume}

theorem depthLoop_run : ∀ fuel sub s, (∀ c ∈ restOf sub, c ≠ []) → (restOf sub).length ≤ fuel →
    ∃ log', Noted.depthLoop fuel sub e t s =
        .returned ((restOf sub).length + 1) t ⟨s.st, log'⟩ ∧
      s.log ⊆ log' ∧ ∀ c ∈ restOf sub, .name c ∈ log' := by
  intro fuel
  induction fuel with
  | zero =>
    intro sub s _ hlen
    have hnil : restOf sub = [] := List.length_eq_zero_iff.mp (Nat.le_zero.mp hlen)
    rw [hnil]
    exact ⟨s.log, rfl, List.Subset.refl _, by simp⟩
  | succ fuel ih =>
    intro sub s hne hlen
    obtain ⟨next, log₁, hnext, hahead, hsub, hnamed⟩ := pathNext_run (e := e) (t := t) (s := s) sub
    unfold Noted.depthLoop
    rw [bind_returned hnext]
    cases hcs : restOf sub with
    | nil =>
      rw [hcs] at hahead
      have hname : next.1 = [] := hahead.name
      rw [if_pos hname]
      exact ⟨log₁, rfl, hsub, by simp⟩
    | cons c cs =>
      rw [hcs] at hahead hne hlen hnamed
      have hname : next.1 = c := hahead.name
      have hrest : restOf next.2 = cs := hahead.rest
      rw [hname, if_neg (hne c (by simp))]
      rw [← hrest] at hne hlen ⊢
      simp only [List.length_cons] at hlen
      obtain ⟨log₂, hloop, hsub₂, hall⟩ := ih next.2 ⟨s.st, log₁⟩
        (fun d hd => hne d (List.mem_cons_of_mem _ hd)) (by omega)
      refine ⟨log₂, ?_, List.Subset.trans hsub hsub₂, ?_⟩
      · rw [bind_returned hloop]
        rfl
      · intro d hd
        rcases List.mem_cons.mp hd with rfl | hd
        · exact hsub₂ (hnamed d _ rfl)
        · exact hall d hd

theorem pathDepthCnt_run (h : components p ≠ []) : ∃ log',
    Noted.pathDepthCnt p e t s = .returned (components p).length t ⟨s.st, log'⟩ ∧
      ∀ c ∈ components p, .name c ∈ log' := by
  obtain ⟨c, cs, hcs⟩ := List.exists_cons_of_ne_nil h
  have hlen : (components p).length ≤ p.length + 1 :=
    length_le_pathLength.trans pathLength_components
  have hne := ne_of_mem_components (p := p)
  obtain ⟨r, hparse, hrest⟩ := pathParse_of_cons hcs
  rw [hcs] at hlen hne ⊢
  rw [← hrest] at hlen hne ⊢
  simp only [List.length_cons] at hlen
  obtain ⟨log', hloop, hsub, hall⟩ := depthLoop_run (e := e) (t := t) p.length r
    ⟨s.st, .name c :: s.log⟩ (fun d hd => hne d (List.mem_cons_of_mem _ hd)) (by omega)
  have hfirst : Noted.pathParse p e t s = .returned (c, r) t ⟨s.st, .name c :: s.log⟩ := by
    unfold Noted.pathParse
    rw [bind_returned (m := note _) rfl, hparse]
    rfl
  refine ⟨log', ?_, ?_⟩
  · unfold Noted.pathDepthCnt
    rw [bind_returned hfirst, if_neg (hne c (by simp))]
    exact hloop
  · intro d hd
    rcases List.mem_cons.mp hd with rfl | hd
    · exact hsub (by simp)
    · exact hall d hd

theorem pathDepthCnt_bare (h : components p = []) : ∃ log',
    Noted.pathDepthCnt p e t s =
      .returned (if e.junk t = 0 then 0 else 1) (t + 1) ⟨s.st, log'⟩ := by
  have hfirst : Noted.pathParse p e t s = .returned ([], none) t ⟨s.st, .name [] :: s.log⟩ := by
    unfold Noted.pathParse
    rw [bind_returned (m := note _) rfl, pathParse_of_nil h]
    rfl
  refine ⟨.name [] :: s.log, ?_⟩
  unfold Noted.pathDepthCnt
  rw [bind_returned hfirst]
  rfl

end Depth

end Gogoos
