import Gogoos.Fs.Components
import Gogoos.Fs.Directory
import Gogoos.Fs.InodeTable
import Gogoos.Fs.Traces

/-!
# The path of the working directory

`fs/fs.c`: `sysGetCwd` goes from the working directory up to the root, and puts together the names
that it finds on the way.
-/

namespace Gogoos

open Program

variable {v w : Volume} {i i' : Inode} {d d' : ℕ} {c p : List UInt8} {cs : List (List UInt8)}

section Model

def getParentDirIno (childIno : ℕ) : VolM ℕ := do
  let childDirInode ← inodeOpen childIno
  let v ← get
  let blockLba := (v.inodes childDirInode).block 0
  assert (v.superBlock.dataLbaStart ≤ blockLba)
  inodeClose childDirInode
  let ioBuf ← ideRead blockLba 1
  let de := DirEntry.ofBytes ioBuf 24
  assert (de.ino < 4096 ∧ de.fileType = FileType.directory)
  return de.ino

/-- Inner loop of `getChildDirName`: the first slot with this number, occupied or not. -/
def childSlots (de : ℕ → UInt8) (childIno : ℕ) : (cnt dirEntryIdx : ℕ) → Option ℕ
  | 0, _ => none
  | cnt + 1, dirEntryIdx =>
    if getWord de (24 * dirEntryIdx + 16) = childIno then some dirEntryIdx
    else childSlots de childIno cnt (dirEntryIdx + 1)

def childBlocks (allBlocks : ℕ → ℕ) (dirEntrySize childIno : ℕ) (path : List UInt8) :
    (cnt blockIdx : ℕ) → VolM (Option (List UInt8))
  | 0, _ => return none
  | cnt + 1, blockIdx =>
    if allBlocks blockIdx = 0 then
      childBlocks allBlocks dirEntrySize childIno path cnt (blockIdx + 1)
    else do
      let de ← ideRead (allBlocks blockIdx) 1
      match childSlots de childIno (512 / dirEntrySize) 0 with
      | some dirEntryIdx =>
        return some (path ++ slash :: (DirEntry.ofBytes de (24 * dirEntryIdx)).fileName)
      | none => childBlocks allBlocks dirEntrySize childIno path cnt (blockIdx + 1)

def getChildDirName (parentIno childIno : ℕ) (path : List UInt8) :
    VolM (Option (List UInt8)) := do
  let p ← inodeOpen parentIno
  let ok ← sysMalloc
  if !ok then return none
  else
    let v ← get
    let parentDirInode := v.inodes p
    let allBlocks ← loadAllBlocks parentDirInode
    let blockCnt := if parentDirInode.block 12 ≠ 0 then 140 else 12
    inodeClose p
    childBlocks allBlocks v.superBlock.dirEntrySize childIno path blockCnt 0

/-- First loop of `sysGetCwd`. It has no bound of its own. -/
def cwdLoop : (fuel childIno : ℕ) → (filePathReverse : List UInt8) → VolM (Option (List UInt8))
  | 0, _, _ => halt
  | fuel + 1, childIno, filePathReverse =>
    if childIno = 0 then return some filePathReverse
    else do
      let parentIno ← getParentDirIno childIno
      let path ← getChildDirName parentIno childIno filePathReverse
      match path with
      | none => return none
      | some filePathReverse => cwdLoop fuel parentIno filePathReverse

/-- Second loop of `sysGetCwd`: what stands from the last slash on goes to the end of `buf`. A
round takes the slash, so as many rounds as characters are enough. -/
def turnLoop : (fuel : ℕ) → (filePathReverse buf : List UInt8) → List UInt8
  | 0, _, buf => buf
  | fuel + 1, filePathReverse, buf =>
    if slash ∈ filePathReverse then
      let lastSlash := slash :: (filePathReverse.reverse.takeWhile (· ≠ slash)).reverse
      turnLoop fuel ((filePathReverse.reverse.dropWhile (· ≠ slash)).tail.reverse)
        (buf ++ lastSlash)
    else buf

/-- The string in `buf`, or `none` for `NULL`, of a task whose working directory is `cwdIno`. -/
def sysGetCwd (fuel cwdIno size : ℕ) : VolM (Option (List UInt8)) := do
  let ok ← sysMalloc
  if !ok then return none
  else
    assert (cwdIno < 4096)
    if cwdIno = 0 then return some [slash]
    else
      let path ← cwdLoop fuel cwdIno []
      match path with
      | none => return none
      | some filePathReverse =>
        assert (filePathReverse.length ≤ size)
        return some (turnLoop filePathReverse.length filePathReverse [])

end Model

section Turn

/-- The names come out in the other order. -/
theorem turnLoop_joined : ∀ fuel buf, (∀ c ∈ cs, slash ∉ c) → cs.length ≤ fuel →
    turnLoop fuel (joined cs) buf = buf ++ joined cs.reverse := by
  induction cs using List.reverseRecOn with
  | nil =>
    intro fuel buf _ _
    cases fuel with
    | zero => simp [turnLoop, joined]
    | succ fuel => simp [turnLoop, joined]
  | append_singleton cs c ih =>
    intro fuel buf hslash hlen
    rw [List.length_append, List.length_singleton] at hlen
    obtain ⟨fuel, rfl⟩ := Nat.exists_eq_succ_of_ne_zero (show fuel ≠ 0 by omega)
    have hc : ∀ x ∈ c.reverse, decide (x ≠ slash) = true := by
      intro x hx
      have hne : x ≠ slash := by
        rintro rfl
        exact hslash c (by simp) (List.mem_reverse.mp hx)
      simpa using hne
    have hreverse : (joined (cs ++ [c])).reverse = c.reverse ++ slash :: (joined cs).reverse := by
      rw [joined_append, List.reverse_append, List.reverse_cons, List.append_assoc]
      rfl
    have hlast : (joined (cs ++ [c])).reverse.takeWhile (· ≠ slash) = c.reverse := by
      rw [hreverse, List.takeWhile_append_of_pos hc, List.takeWhile_cons_of_neg (by simp),
        List.append_nil]
    have hinit : (joined (cs ++ [c])).reverse.dropWhile (· ≠ slash) =
        slash :: (joined cs).reverse := by
      rw [hreverse, List.dropWhile_append_of_pos hc, List.dropWhile_cons_of_neg (by simp)]
    have hmem : slash ∈ joined (cs ++ [c]) := by
      rw [joined_append]
      simp
    have hrest := ih fuel (buf ++ slash :: c) (fun d hd => hslash d (by simp [hd])) (by omega)
    rw [turnLoop, if_pos hmem]
    dsimp only
    rw [hlast, hinit, List.tail_cons, List.reverse_reverse, List.reverse_reverse, hrest,
      List.append_assoc, List.reverse_append, List.reverse_singleton, List.singleton_append,
      joined_cons]
    rfl

end Turn

section Trees

/-- What a number stands for: the inode in memory when it is open, else its record. -/
def Volume.inodeNo (v : Volume) (ino : ℕ) : Inode :=
  match v.findOpen ino with
  | some p => v.inodes p
  | none => v.record ino

def Volume.HasDir (v : Volume) (d : ℕ) (name : List UInt8) (d' : ℕ) : Prop :=
  ∃ k < 140, ∃ j < 21, ∃ de, v.entryAt (v.inodeNo d) k j = some de ∧ de.fileName = name ∧
    de.fileType = FileType.directory ∧ de.ino = d'

inductive Descends (v : Volume) : List (List UInt8) → ℕ → Prop
  | root : Descends v [] 0
  | down {cs : List (List UInt8)} {c : List UInt8} {d d' : ℕ} (h : Descends v cs d)
      (hc : v.HasDir d c d') : Descends v (cs ++ [c]) d'

def Ordinary (name : List UInt8) : Prop := name ≠ dotName ∧ name ≠ dotDotName

/-- A volume whose directories form a tree: each has its own number and its parent's in the first
two slots, free slots are clear, and of the other entries no two have the same name or number. -/
structure DirTree (v : Volume) (dirs : Set ℕ) (parent rank : ℕ → ℕ) : Prop where
  layout : Layout v
  steady : Steady v
  rootOpen : v.findOpen 0 = some v.rootInode
  root : 0 ∈ dirs ∧ parent 0 = 0
  number : ∀ d ∈ dirs, d < 4096 ∧ (v.inodeNo d).ino = d
  first : ∀ d ∈ dirs, v.superBlock.dataLbaStart ≤ (v.inodeNo d).block 0
  below : ∀ d ∈ dirs, ∀ k, v.ref (v.inodeNo d) k < maxLba
  dot : ∀ d ∈ dirs, slot (v.disk ((v.inodeNo d).block 0)) 0 = ⟨dotName, d, FileType.directory⟩
  dotDot : ∀ d ∈ dirs, slot (v.disk ((v.inodeNo d).block 0)) 1 =
    ⟨dotDotName, parent d, FileType.directory⟩
  free : ∀ d ∈ dirs, ∀ k < 140, ∀ j < 21, v.blockAt (v.inodeNo d) k ≠ 0 →
    (slot (v.disk (v.blockAt (v.inodeNo d) k)) j).fileType = FileType.unknown →
      slot (v.disk (v.blockAt (v.inodeNo d) k)) j = DirEntry.empty
  name : ∀ d ∈ dirs, ∀ k < 140, ∀ j < 21, ∀ k' < 140, ∀ j' < 21, ∀ de de',
    v.entryAt (v.inodeNo d) k j = some de → v.entryAt (v.inodeNo d) k' j' = some de' →
      de.fileName = de'.fileName → de = de'
  ino : ∀ d ∈ dirs, ∀ k < 140, ∀ j < 21, ∀ k' < 140, ∀ j' < 21, ∀ de de',
    v.entryAt (v.inodeNo d) k j = some de → v.entryAt (v.inodeNo d) k' j' = some de' →
      Ordinary de.fileName → Ordinary de'.fileName → de.ino = de'.ino → de = de'
  child : ∀ d ∈ dirs, ∀ c d', Ordinary c → v.HasDir d c d' → d' ∈ dirs ∧ d' ≠ 0 ∧ parent d' = d
  parent_mem : ∀ d ∈ dirs, parent d ∈ dirs
  rank : ∀ d ∈ dirs, d ≠ 0 → rank d = rank (parent d) + 1

end Trees

end Gogoos
