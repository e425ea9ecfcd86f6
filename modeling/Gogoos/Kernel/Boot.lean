import Gogoos.Kernel.Family
import Gogoos.Kernel.Memory

/-!
# The first process

`processStart` of `kernel/user/process.c` as far as it concerns PCBs and lists, and the end of
`main`, where the process of `init` and the main thread trade their pids.
-/

namespace Gogoos.Threads

open Program

variable {s s' : Threads} {e : Unit} {t pcb dir : ℕ} {Q : Unit → Threads → Prop}

/-- The PCB of a process that `processStart` makes. -/
def processTask (name : List UInt8) (pid : ℤ) (dir : ℕ) : TaskStruct :=
  { freshTask name 4 pid with umbdArr := memBlockDescInit, pageDir := dir }

/-- `pcb` and `dir` are the pages that `getKernelPages(1)` returns for the PCB and the directory,
0 for `NULL`. -/
def processStart (pcb dir : ℕ) (name : List UInt8) : ThreadM Unit := do
  modify fun s => { s with pages := if pcb = 0 then s.pages else pcb :: s.pages }
  threadCreate pcb name 4
  modify fun s =>
    { s.setTask pcb { s.tasks pcb with umbdArr := memBlockDescInit, pageDir := dir } with
      pages := if dir = 0 then s.pages else dir :: s.pages }
  let s ← get
  assert (pcb ∉ s.threadReadyList)
  assert (pcb ∉ s.threadAllList)
  modify fun s =>
    (s.setReadyList (s.threadReadyList ++ [pcb])).setAllList (s.threadAllList ++ [pcb])

/-- The assignments of `main` behind `processStart`. A thread that is not found is `NULL` and
faults. -/
def swapPids : ThreadM Unit := do
  let s ← get
  match s.pidToThread 3 with
  | none => halt
  | some init =>
    modify fun s => s.setTask init { s.tasks init with pid := 1 }
    modify fun s => s.setTask s.current { s.tasks s.current with pid := 3 }

/-- The pages that `processStart` gets are `NULL` or not in use. -/
def ProcessPages (s : Threads) (pcb dir : ℕ) : Prop :=
  FreshPage s pcb ∧ (dir ≠ 0 → FreshPage s dir ∧ dir ≠ pcb)

/-- `main` runs with the pid that `makeMainThread` got. -/
def AtMain (s : Threads) : Prop := s.current = s.mainThread ∧ (s.tasks s.current).pid = 1

section Specs

/-- The state after a process was put on the lists. -/
def processStarted (s : Threads) (pcb dir : ℕ) (name : List UInt8) (pid : ℤ) (bm : BitMap) :
    Threads :=
  { s with
    tasks := fun p => if p = pcb then processTask name pid dir else s.tasks p
    threadReadyList := s.threadReadyList ++ [pcb]
    threadAllList := s.threadAllList ++ [pcb]
    pidBitMap := bm
    pages := if dir = 0 then pcb :: s.pages else dir :: pcb :: s.pages }

theorem wp_processStart {name : List UInt8} (h : Wf s) (hpages : ProcessPages s pcb dir)
    (hnull : pcb ≠ 0)
    (hQ : ∀ (pid : ℤ) bm, PidTaken s.pidBitMap pid bm →
      Q () (processStarted s pcb dir name pid bm)) :
    wp noStop e (processStart pcb dir name) Q s := by
  have hpcb := h.not_mem_of_fresh hpages.1
  have hready : pcb ∉ s.threadReadyList := fun hm => hpcb ((h.ready_iff pcb).mp hm).1
  unfold processStart threadCreate
  rw [wp_modify_bind, wp_bind_assoc]
  apply wp_bind
  apply wp_allocatePid
  intro pid bm hpid
  rw [wp_modify_bind, wp_modify_bind, wp_get_bind]
  refine (wp_assert_pos hready).mpr ((wp_assert_pos hpcb).mpr ?_)
  rw [wp_modify]
  convert hQ pid bm hpid using 1
  simp only [setTask, setReadyList, setAllList, processStarted, if_neg hnull]
  congr 1
  funext p
  by_cases hp : p = pcb <;> simp [hp, processTask]

theorem Wf.processStarted {name : List UInt8} {pid : ℤ} {bm : BitMap} (h : Wf s)
    (hpages : ProcessPages s pcb dir) (hpid : 0 ≤ pid) :
    Wf (processStarted s pcb dir name pid bm) := by
  obtain ⟨hfresh, hdir⟩ := hpages
  have hpcb := h.not_mem_of_fresh hfresh
  have hcur : s.current ≠ pcb := fun he => hpcb (he ▸ h.current_mem')
  have hq := h.toQueued.enlist (processTask name pid dir) bm
    (if dir = 0 then pcb :: s.pages else dir :: pcb :: s.pages) rfl rfl hpcb h.current_mem'
  have hpaged : Paged (Threads.processStarted s pcb dir name pid bm) := by
    apply h.toPaged.enlist bm hfresh.1
    · split_ifs with hd
      · exact List.nodup_cons.mpr ⟨hfresh.1, h.nodup⟩
      · obtain ⟨hdf, hne⟩ := hdir hd
        exact List.nodup_cons.mpr ⟨by simp [hne, hdf.1], List.nodup_cons.mpr ⟨hfresh.1, h.nodup⟩⟩
    · split_ifs with hd
      · simpa using ⟨hfresh.2.symm, h.main⟩
      · simpa using ⟨(hdir hd).1.2.symm, hfresh.2.symm, h.main⟩
    · split_ifs <;> simp
    · intro p hp
      split_ifs <;> simp [hp]
    · intro hd
      obtain ⟨hdf, hne⟩ := hdir hd
      refine ⟨?_, hdf.1, h.not_mem_of_fresh hdf, hne⟩
      change dir ∈ _
      rw [if_neg (by exact hd)]
      exact List.mem_cons_self
  refine .mk' ⟨hq, ?_⟩ hpaged (h.toNamed.enlist hpid fun he => hpcb (he ▸ h.idle_mem))
  simpa [Threads.processStarted, status, hcur] using h.current_running

/-- The state after `main` has traded the pids. -/
def pidsSwapped (s : Threads) (init : ℕ) : Threads :=
  (s.setTask init { s.tasks init with pid := 1 }).setTask s.current
    { s.tasks s.current with pid := 3 }

theorem wp_swapPids (h : AtMain s)
    (hQ : ∀ init ∈ s.threadAllList, (s.tasks init).pid = 3 → init ≠ s.current →
      Q () (s.pidsSwapped init)) :
    wp anyStop e swapPids Q s := by
  unfold swapPids
  rw [wp_get_bind]
  cases hf : s.pidToThread 3 with
  | none => exact wp_halt.mpr trivial
  | some init =>
    unfold pidToThread at hf
    have hpid : (s.tasks init).pid = 3 := by simpa using List.find?_some hf
    have hne : init ≠ s.current := by
      rintro rfl
      rw [h.2] at hpid
      exact absurd hpid (by decide)
    dsimp only
    rw [wp_modify_bind, wp_modify]
    convert hQ init (List.mem_of_find?_eq_some hf) hpid hne using 1
    simp [pidsSwapped, hne.symm]

theorem pidsSwapped_pid {init : ℕ} (hne : init ≠ s.current) :
    ((s.pidsSwapped init).tasks t).pid =
      if t = s.current then 3 else if t = init then 1 else (s.tasks t).pid := by
  by_cases hc : t = s.current
  · simp [pidsSwapped, hc]
  · by_cases hi : t = init <;> simp [pidsSwapped, hc, hi, hne]

/-- Apart from the pids nothing changes. -/
theorem pidsSwapped_tasks {init : ℕ} (hne : init ≠ s.current) :
    (s.pidsSwapped init).tasks t =
      { s.tasks t with pid := ((s.pidsSwapped init).tasks t).pid } := by
  by_cases hc : t = s.current
  · simp [pidsSwapped, hc]
  · by_cases hi : t = init <;> simp [pidsSwapped, hc, hi, hne]

theorem Wf.pidsSwapped {init : ℕ} (h : Wf s) (hne : init ≠ s.current) :
    Wf (s.pidsSwapped init) := by
  have hq : Queued (s.pidsSwapped init) := by
    have hone : Queued (s.setTask init { s.tasks init with pid := 1 }) := h.toQueued.update rfl rfl
    refine hone.update ?_ ?_ <;> simp [hne.symm]
  refine .mk' ⟨hq, ?_⟩ (h.toPaged.congr rfl rfl rfl fun t => by rw [pidsSwapped_tasks hne])
    ⟨fun t ht => ?_, ?_⟩
  · change ((s.pidsSwapped init).tasks s.current).status = _
    rw [pidsSwapped_tasks hne]
    exact h.current_running
  · rw [pidsSwapped_pid hne]
    split_ifs
    · norm_num
    · norm_num
    · exact h.nonneg t ht
  · change ((s.pidsSwapped init).tasks s.idleThread).parentPid = _
    rw [pidsSwapped_tasks hne]
    exact h.idle_parent

end Specs

end Gogoos.Threads
