import Gogoos.Fs.SizeLimit
import Gogoos.Logic.Erase

/-!
# Blocks of the heap in use

The calls of the file system with the blocks that `sysMalloc` has handed out and `sysFree` has
not taken back. Which heap a block comes from is left out here. A block gets an address that no
block in use has; an inode is named as in the volume.
-/

namespace Gogoos

open Program

structure Alive where
  fs : Fs
  /-- The blocks in use that hold no inode. -/
  bufs : Finset ℕ
  /-- The inodes whose block is in use. -/
  inodeBufs : Finset ℕ

abbrev AliveM (α : Type) : Type := Program Heap Alive α

namespace Alive

@[simps -fullyApplied] def setFs (s : Alive) (f : Fs) : Alive := { s with fs := f }

@[simps -fullyApplied] def take (s : Alive) (a : ℕ) : Alive := { s with bufs := insert a s.bufs }

@[simps -fullyApplied] def drop (s : Alive) (a : ℕ) : Alive := { s with bufs := s.bufs.erase a }

/-- An address that no block in use has. -/
def fresh (s : Alive) : ℕ := s.bufs.sup id + 1

theorem fresh_notMem (s : Alive) : s.fresh ∉ s.bufs := by
  intro h
  have hle : s.fresh ≤ s.bufs.sup id := Finset.le_sup (f := id) h
  unfold fresh at hle
  omega

section Programs

def onFs {α : Type} (m : FsM α) : AliveM α := zoom Alive.fs (fun f s => s.setFs f) m

def onVol {α : Type} (m : VolM α) : AliveM α := onFs (Gogoos.onVol m)

/-- The address of the new block, or `none` for `NULL`. -/
def sysMalloc : AliveM (Option ℕ) := do
  if !(← onVol Gogoos.sysMalloc) then return none
  let s ← get
  modify fun s => s.take s.fresh
  return some s.fresh

def sysFree (a : ℕ) : AliveM Unit := modify fun s => s.drop a

end Programs

section Write

/-- `fileWrite` after the first block of the file is there. -/
def writeTail (fdIdx p size : ℕ) (buf : List UInt8) : FsM ℤ := do
  let sync := fun bitIdx => bitMapSync bitIdx .blockBitmap
  let fileWillUseBlocks := (size + buf.length) % 2 ^ 32 / 512
  assert (fileWillUseBlocks < 140)
  match ← Gogoos.onVol (prepareBlocks sync p (size / 512) fileWillUseBlocks) with
  | none => return -1
  | some allBlocks =>
    Gogoos.onVol (writeChunks p allBlocks buf.length buf true)
    let fs ← get
    setFile fdIdx
      { fs.fileTable fdIdx with fdPos := (size + (2 ^ 32 - 1) + buf.length) % 2 ^ 32 }
    Gogoos.onVol (inodeSync (fs.vol.inodes p))
    return buf.length

/-- `fileWrite` after its buffers have been allocated, in slot `fdIdx` with the inode `p`. -/
def writeBody (fdIdx p size : ℕ) (buf : List UInt8) : FsM ℤ := do
  let sync := fun bitIdx => bitMapSync bitIdx .blockBitmap
  if !(← Gogoos.onVol (allocFirstBlock sync p)) then return -1
  writeTail fdIdx p size buf

/-- The two buffers are freed at the end of a write that succeeds, and nowhere else. -/
def fileWrite (fdIdx : ℕ) (buf : List UInt8) : AliveM ℤ := do
  let p ← onFs (slotInode fdIdx)
  let s ← get
  let size := (s.fs.vol.inodes p).size
  if (size + buf.length) % 2 ^ 32 > 512 * 140 then return -1
  match ← sysMalloc with
  | none => return -1
  | some ioBuf =>
    match ← sysMalloc with
    | none => return -1
    | some allBlocks =>
      let r ← onFs (writeBody fdIdx p size buf)
      if r = -1 then return -1
      sysFree ioBuf
      sysFree allBlocks
      return r

end Write

section Erasure

variable {α β : Type}

/-- Without the heap, `m'` is `m`. -/
abbrev ErasesTo (m' : AliveM α) (m : FsM α) : Prop := Erases Alive.fs m' m

theorem erases_onFs (m : FsM α) : ErasesTo (onFs m) m := erases_zoom (fun _ _ => rfl) m

theorem erases_onVol (m : VolM α) : ErasesTo (onVol m) (Gogoos.onVol m) := erases_onFs _

theorem sysMalloc_run (e : Heap) (t : ℕ) (s : Alive) : sysMalloc e t s =
    if e.sysMalloc t then .returned (some s.fresh) (t + 1) (s.take s.fresh)
    else .returned none (t + 1) s := by
  have hask : onVol Gogoos.sysMalloc e t s = .returned (e.sysMalloc t) (t + 1) s := rfl
  unfold sysMalloc
  rw [bind_returned hask]
  cases e.sysMalloc t <;> rfl

theorem erases_sysMalloc_bind {f' : Option ℕ → AliveM β} {n f : FsM β}
    (hnone : ErasesTo (f' none) n) (hsome : ∀ a, ErasesTo (f' (some a)) f) :
    ErasesTo (sysMalloc >>= f') (do
      if !(← Gogoos.onVol Gogoos.sysMalloc) then n
      else f) := by
  intro e t s
  have hplain : ∀ g : Bool → FsM β, (Gogoos.onVol Gogoos.sysMalloc >>= g) e t s.fs =
      g (e.sysMalloc t) e (t + 1) s.fs := fun g => bind_returned rfl
  rw [hplain]
  cases h : e.sysMalloc t with
  | false =>
    rw [bind_returned (by rw [sysMalloc_run, h]; rfl)]
    exact hnone e (t + 1) s
  | true =>
    rw [bind_returned (by rw [sysMalloc_run, h]; rfl)]
    exact hsome s.fresh e (t + 1) (s.take s.fresh)

theorem erases_sysFree_bind {a : ℕ} {f' : Unit → AliveM β} {m : FsM β} (h : ErasesTo (f' ()) m) :
    ErasesTo (sysFree a >>= f') m := .ghost_modify (fun _ => rfl) h

theorem erases_fileWrite (fdIdx : ℕ) (buf : List UInt8) :
    ErasesTo (fileWrite fdIdx buf) (Gogoos.fileWrite fdIdx buf) := by
  refine (erases_onFs _).bind fun p => .get_bind fun s => ?_
  apply Erases.ite (erases_pure _)
  refine erases_sysMalloc_bind (erases_pure _) fun ioBuf => ?_
  refine erases_sysMalloc_bind (erases_pure _) fun allBlocks => ?_
  refine (erases_onFs (writeBody fdIdx p (s.fs.vol.inodes p).size buf)).ghost_after fun r => ?_
  split_ifs with hr
  · rw [hr]
    exact erases_pure _
  · exact erases_sysFree_bind (erases_sysFree_bind (erases_pure r))

end Erasure

end Alive

end Gogoos
