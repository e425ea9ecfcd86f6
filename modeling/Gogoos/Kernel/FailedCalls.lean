import Gogoos.Fs.LiveMkdir
import Gogoos.Kernel.Handles

/-!
# Calls that fail

What a failed call leaves in a state that any calls of any processes led to.
-/

namespace Gogoos

open Program

namespace FileUsers

variable {s s' : FileUsers} {f : Fs} {e : Heap} {q t t' flags : ℕ} {path : List UInt8}

section Runs

/-- A call of the file system, what `sysFork` and an exit do to the inodes, or anything that opens
and closes none, such as reading, writing and seeking. -/
inductive AnyStep : FileUsers → FileUsers → Prop
  | call {s s' : FileUsers} : Step (fun _ _ _ _ => True) s s' → AnyStep s s'
  | fork {s s' : FileUsers} {q e f} : Returns e (openAgain (s.fdTable q) 4 3) (s.fs q) () f →
      s'.vol = f.vol → AnyStep s s'
  | exit {s s' : FileUsers} {q e f} : Returns e (closeAll 4 3) (s.fs q) () f → s'.vol = f.vol →
      AnyStep s s'
  | other {s s' : FileUsers} : SameOpen s.vol s'.vol → AnyStep s s'

theorem Start.steady (h : Start s) : Steady s.vol := by
  have hpos : ∀ p ∈ s.vol.openInodes, 0 < (Pi.single s.vol.rootInode 1 : ℕ → ℕ) p :=
    fun p hp => (h.root.mem p).mp hp
  refine ⟨h.root.nodup, fun p hp => ?_, fun p hp => h.root.fresh p (hpos p hp),
    h.root.fresh _ (by simp)⟩
  rw [h.root.openCnt p (hpos p hp)]
  exact hpos p hp

theorem firm_openAgain (fdTable : ℕ → ℤ) : ∀ cnt k, Keeps FirmFs (openAgain fdTable cnt k) := by
  intro cnt
  induction cnt with
  | zero => exact fun k => keeps_pure ()
  | succ cnt ih =>
    intro k
    apply keeps_assert.bind
    intro _
    apply Keeps.ite
    · refine keeps_assert.bind fun _ => (firm_slotInode _).bind fun p => ?_
      exact (firm_onVol (Keeps.modify (firm_openedAgain p))).bind fun _ => ih _
    · exact ih _

theorem firm_closeAll : ∀ cnt k, Keeps FirmFs (closeAll cnt k) := by
  intro cnt
  induction cnt with
  | zero => exact fun k => keeps_pure ()
  | succ cnt ih =>
    intro k
    apply Keeps.get_bind
    intro fs
    apply Keeps.ite
    · exact (firm_sysClose _).bind fun _ => ih _
    · exact ih _

theorem AnyStep.steady (hst : AnyStep s s') (h : Steady s.vol) : Steady s'.vol := by
  cases hst with
  | other hsame => exact firm_of_sameOpen hsame h
  | fork hret hvol =>
    rw [hvol]
    exact (firm_openAgain _ _ _).of_returns hret h
  | exit hret hvol =>
    rw [hvol]
    exact (firm_closeAll _ _).of_returns hret h
  | call hcall =>
    cases hcall with
    | «open» _ _ hret => exact (firm_sysOpen _ _).of_returns hret h
    | close _ _ hret => exact (firm_sysClose _).of_returns hret h
    | openDir _ _ hret => exact (firm_sysOpenDir _).of_returns hret h
    | closeDir _ _ _ hret => exact (firm_sysCloseDir _).of_returns hret h
    | mkdir _ _ hret => exact (firm_sysMkdir _).of_returns hret h
    | rmdir _ _ hret => exact (firm_sysRmdir _).of_returns hret h
    | unlink _ _ hret => exact (firm_sysUnlink _).of_returns hret h
    | stat _ _ hret => exact (firm_sysStat _).of_returns hret h
    | chDir _ _ hret => exact (firm_sysChDir _).of_returns hret h

theorem steady_of_run (h : Start s) (hrun : Run AnyStep s s') : Steady s'.vol :=
  hrun.invariant (I := fun s => Steady s.vol) (fun _ _ hI hst => hst.steady hI) h.steady

end Runs

section Open

/-- The insertion of `a` in the root finds no memory. -/
def noEntryHeap : Heap := { sampleHeap with sysMalloc := fun t => t ≠ 6 }

/-- Process 1 opens `/a` for reading. -/
def openOnceMore (s : FileUsers) : FileUsers :=
  s.setFs 1 (sysOpen [47, 97] 0 sampleHeap 0 (s.fs 1)).state

/-- It has created `/a` and opened it three times. -/
def fullUsers : FileUsers := openUsers.openOnceMore.openOnceMore.openOnceMore

theorem openOnceMore_step {r : ℤ} (hq : 1 ∈ s.procs)
    (h : (sysOpen [47, 97] 0 sampleHeap 0 (s.fs 1)).value = some r) :
    Step (fun _ _ _ _ => True) s s.openOnceMore :=
  .open hq trivial (.of_value h)

end Open

section Mkdir

/-- `q` runs, and `bufs` are the blocks in use that hold no inode. -/
def alive (s : FileUsers) (q : ℕ) (bufs : Finset ℕ) : Alive :=
  ⟨s.fs q, bufs, s.vol.openInodes.toFinset⟩

theorem madeUsers_step : Step (fun _ _ _ _ => True) startUsers madeUsers :=
  .mkdir (q := 1) (r := 0) (by decide) trivial (.of_value (by decide +kernel))

/-- Writes have taken every block. -/
def takenUsers : FileUsers :=
  startUsers.setVol { startUsers.vol with
    blockBitMap := { startUsers.vol.blockBitMap with startAddr := fun _ => 0xff } }

theorem takenUsers_step : AnyStep startUsers takenUsers :=
  .other ⟨rfl, rfl, rfl, fun _ => rfl⟩

/-- The insertion of `x` in `/d` finds no memory. -/
def noInsertHeap : Heap := { sampleHeap with sysMalloc := fun t => t ≠ 11 }

end Mkdir

end FileUsers

end Gogoos
