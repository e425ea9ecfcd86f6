import Gogoos.Kernel.Boot
import Gogoos.Logic.Run

/-!
# Pids

Runs of `threadStart`, `processStart`, `sysFork` and `threadExit` from `threadInit` on, with
everything else that threads do in between. `sysWait` ends a process by `threadExit`. A run
remembers of each `threadExit` whether the page of the PCB was still in use when the pid was read
from it.
-/

namespace Gogoos.Threads

open Program

variable {s s' : Threads} {e : Unit} {t pcb dir child idle : ℕ}

section Numbered

/-- The bits of the bitmap are those of the pids that threads have. -/
structure Numbered (s : Threads) : Prop extends Pids s where
  only : ∀ i < 1024, s.pidBitMap.bit i = true → ∃ t ∈ s.threadAllList, (s.tasks t).pid = i + 1

theorem Numbered.mk' (h : Pids s)
    (ho : ∀ i < 1024, s.pidBitMap.bit i = true → ∃ t ∈ s.threadAllList, (s.tasks t).pid = i + 1) :
    Numbered s := { h with only := ho }

theorem Numbered.congr (h : Numbered s) (hall : s'.threadAllList = s.threadAllList)
    (hbm : s'.pidBitMap = s.pidBitMap) (hpid : ∀ t, (s'.tasks t).pid = (s.tasks t).pid) :
    Numbered s' := by
  refine .mk' (h.toPids.congr hall hbm hpid) ?_
  simp only [hall, hbm, hpid]
  exact h.only

theorem Numbered.taken {task : TaskStruct} {bm : BitMap} {l pages : List ℕ} (h : Numbered s)
    (hnew : child ∉ s.threadAllList) (hpid : PidTaken s.pidBitMap task.pid bm)
    (hfree : bitMapScan s.pidBitMap 1 ≠ none) :
    Numbered { s with
      tasks := fun p => if p = child then task else s.tasks p
      threadReadyList := l
      threadAllList := s.threadAllList ++ [child]
      pidBitMap := bm
      pages := pages } := by
  refine .mk' (h.toPids.taken hpid hfree) fun j hj hset => ?_
  obtain ⟨i, -, hi, rfl⟩ := hpid.resolve_left fun hc => hfree hc.1
  by_cases hji : j = i
  · exact ⟨child, by simp, by simp [hji, hi]⟩
  · obtain ⟨t, ht, hpt⟩ := h.only j hj (by simpa [bitMapSet_bit_ne _ _ hji] using hset)
    have hne : t ≠ child := fun hc => hnew (hc ▸ ht)
    exact ⟨t, by simp [ht], by simpa [hne] using hpt⟩

theorem Numbered.exit (h : Numbered s) (hall : s.threadAllList.Nodup)
    (ht : t ∈ s.threadAllList) : Numbered (exited s t) := by
  obtain ⟨i, hi, hlt, -⟩ := h.marked t ht
  have hidx : (((s.tasks t).pid - 1) % 2 ^ 32).toNat = i := by omega
  refine .mk' (h.toPids.exit hall ht) fun j hj hset => ?_
  change (bitMapSet s.pidBitMap _ false).bit j = true at hset
  rw [hidx] at hset
  have hji : j ≠ i := by
    rintro rfl
    simp at hset
  rw [bitMapSet_bit_ne _ _ hji] at hset
  obtain ⟨p, hp, hpp⟩ := h.only j hj hset
  have hne : p ≠ t := by
    rintro rfl
    omega
  exact ⟨p, (List.mem_erase_of_ne hne).mpr hp, by simpa [exited, hne] using hpp⟩

/-- The pids 1 and 3 are traded. -/
theorem Numbered.pidsSwapped {init : ℕ} (h : Numbered s) (hcur : s.current ∈ s.threadAllList)
    (hone : (s.tasks s.current).pid = 1) (hinit : init ∈ s.threadAllList)
    (hthree : (s.tasks init).pid = 3) (hne : init ≠ s.current) : Numbered (s.pidsSwapped init) := by
  have hpid : ∀ t, ((s.pidsSwapped init).tasks t).pid =
      if t = s.current then 3 else if t = init then 1 else (s.tasks t).pid :=
    fun t => pidsSwapped_pid hne
  -- no other thread has one of the two pids
  have hother : ∀ t ∈ s.threadAllList, t ≠ s.current → t ≠ init →
      (s.tasks t).pid ≠ 1 ∧ (s.tasks t).pid ≠ 3 := by
    intro t ht hc hi
    exact ⟨fun h1 => hc (h.inj t ht _ hcur (h1.trans hone.symm)),
      fun h3 => hi (h.inj t ht _ hinit (h3.trans hthree.symm))⟩
  obtain ⟨i, hi, -, hiset⟩ := h.marked _ hcur
  obtain ⟨k, hk, -, hkset⟩ := h.marked _ hinit
  obtain rfl : i = 0 := by omega
  obtain rfl : k = 2 := by omega
  refine .mk' ⟨h.length, fun t ht => ?_, fun t ht p hp heq => ?_⟩ fun j hj hset => ?_
  · rw [hpid]
    split_ifs with hc hi
    · exact ⟨2, by norm_num, by norm_num, hkset⟩
    · exact ⟨0, by norm_num, by norm_num, hiset⟩
    · exact h.marked t ht
  · rw [hpid, hpid] at heq
    split_ifs at heq with hc hpc hpi hti hpc hpi hpc hpi
    · rw [hc, hpc]
    · exact absurd heq (by norm_num)
    · exact absurd heq.symm (hother p hp hpc hpi).2
    · exact absurd heq (by norm_num)
    · rw [hti, hpi]
    · exact absurd heq.symm (hother p hp hpc hpi).1
    · exact absurd heq (hother t ht hc hti).2
    · exact absurd heq (hother t ht hc hti).1
    · exact h.inj t ht p hp heq
  · obtain ⟨t, ht, htj⟩ := h.only j hj hset
    by_cases hc : t = s.current
    · refine ⟨init, hinit, ?_⟩
      rw [hpid, if_neg hne, if_pos rfl, ← htj, hc, hone]
    · by_cases hi : t = init
      · refine ⟨s.current, hcur, ?_⟩
        rw [hpid, if_pos rfl, ← htj, hi, hthree]
      · exact ⟨t, ht, by rw [hpid, if_neg hc, if_neg hi, htj]⟩

end Numbered

section Release

/-- The page of the PCB is in use. That of the main thread was never given out. -/
def PcbMapped (s : Threads) (pcb : ℕ) : Bool := pcb ∈ s.pages ∨ pcb = s.mainThread

/-- Whether the page of the PCB is in use when `threadExit` reads the pid. -/
def pidReadMapped (s : Threads) (threadOver : ℕ) : Bool :=
  PcbMapped (beforeRelease threadOver () 0 s).state threadOver

/-- It is in the main thread. -/
theorem pidReadMapped_main (h : Wf s) (ht : s.mainThread ∈ s.threadAllList) :
    pidReadMapped s s.mainThread = true := by
  have hends := h.toPaged.ends h.current_mem' ht fun hne => absurd rfl hne
  have hw := wp_beforeRelease (e := ()) hends 0
  unfold pidReadMapped
  cases hm : beforeRelease s.mainThread () 0 s with
  | stopped r =>
    rw [hm] at hw
    exact hw.elim
  | returned a k r =>
    rw [hm] at hw
    obtain ⟨-, rfl⟩ := hw
    exact decide_eq_true (.inr rfl)

end Release

section Law

/-- The threads, and for each `threadExit` the PCB and whether the pid was read from it while
its page was in use. -/
structure PidRun where
  threads : Threads
  releases : List (ℕ × Bool)

inductive PidEvent where
  | thread (op : ThreadOp)
  | processStart (pcb dir : ℕ) (name : List UInt8)
  | swapPids
  | fork (got : ForkPages)

/-- The thread that an operation ends. -/
def ended (s : Threads) : ThreadOp → Option ℕ
  | .exitCurrent => some s.current
  | .exitAsleep threadOver => some threadOver
  | _ => none

/-- What a run remembers of an operation. -/
def PidRun.after (f : PidRun) (op : ThreadOp) (th : Threads) : PidRun where
  threads := th
  releases :=
    match ended f.threads op with
    | some t => (t, pidReadMapped f.threads t) :: f.releases
    | none => f.releases

variable {f g : PidRun}

inductive PidStep (cond : Threads → PidEvent → Prop) (f : PidRun) : PidRun → Prop
  | thread {op : ThreadOp} {th : Threads} (hen : op.Enabled f.threads)
      (hc : cond f.threads (.thread op)) (hret : Returns () (op.run f.threads) f.threads () th) :
      PidStep cond f (f.after op th)
  | processStart {p d : ℕ} {name : List UInt8} {th : Threads}
      (hen : p ≠ 0 → ProcessPages f.threads p d) (hc : cond f.threads (.processStart p d name))
      (hret : Returns () (processStart p d name) f.threads () th) :
      PidStep cond f { f with threads := th }
  | swapPids {th : Threads} (hen : AtMain f.threads) (hc : cond f.threads .swapPids)
      (hret : Returns () swapPids f.threads () th) : PidStep cond f { f with threads := th }
  | fork {got : ForkPages} {r : ℤ} {th : Threads} (hen : ProcOp.Enabled f.threads (.fork got))
      (hc : cond f.threads (.fork got)) (hret : Returns () (sysFork got) f.threads r th) :
      PidStep cond f { f with threads := th }

/-- A new thread finds a pid and a page for its PCB, and a fork that has taken a pid finds the
rest of its memory. -/
def Found (s : Threads) : PidEvent → Prop
  | .thread (.start pcb _ _) | .processStart pcb _ _ => pcb ≠ 0 ∧ bitMapScan s.pidBitMap 1 ≠ none
  | .fork got => got.childThread ≠ 0 → got.bufPage ≠ 0 →
      got.vaddrBitMap ≠ 0 ∧ got.pageDir ≠ 0 ∧ bitMapScan s.pidBitMap 1 ≠ none
  | .thread _ | .swapPids => True

/-- Besides, only the main thread ends. -/
def Supplied (s : Threads) (ev : PidEvent) : Prop :=
  Found s ev ∧ ∀ op, ev = .thread op → ∀ t, ended s op = some t → t = s.mainThread

/-- The state that `threadInit` leaves. -/
structure PidStart (f : PidRun) : Prop where
  boot : ∃ s₀ idle, Boot s₀ idle ∧ Returns () (threadInit idle) s₀ () f.threads
  releases : f.releases = []

structure PidLaw (f : PidRun) : Prop where
  inj : ∀ t ∈ f.threads.threadAllList, ∀ p ∈ f.threads.threadAllList,
    (f.threads.tasks t).pid = (f.threads.tasks p).pid → t = p
  pos : ∀ t ∈ f.threads.threadAllList, 1 ≤ (f.threads.tasks t).pid
  bits : ∀ i < 1024, f.threads.pidBitMap.bit i = true ↔
    ∃ t ∈ f.threads.threadAllList, (f.threads.tasks t).pid = i + 1
  lt : ∀ t ∈ f.threads.threadAllList, (f.threads.tasks t).pid ≤ 1024
  /-- Each pid was read from a page in use. -/
  mapped : ∀ x ∈ f.releases, x.2 = true

structure PidInv (s : Threads) : Prop where
  wf : Wf s
  numbered : Numbered s

/-- After one operation of a thread. -/
theorem pidInv_thread {op : ThreadOp} {th : Threads} (h : PidInv s) (hen : op.Enabled s)
    (hc : Found s (.thread op)) (hret : Returns () (op.run s) s () th) : PidInv th := by
  have hal : op.HasPage s := by
    cases op with
    | start pcb name priority => exact hc.1
    | exitCurrent =>
      have hself : s.current ≠ s.mainThread → s.current ≠ s.current :=
        Returns.of_wp hret wp_threadExit_self
      exact by_contra fun hne => hself hne rfl
    | _ => trivial
  have hwf : Wf th := (hret.of_wp (wp_threadOp h.wf hen hal)).1
  have hswitched : ∀ r : Threads, Numbered r → Switched r th → PidInv th := fun r hr hw =>
    ⟨hwf, hr.congr hw.all hw.pids fun t => by rw [hw.tasks t]⟩
  have hstatus : ∀ (t : ℕ) (st : ℤ), Numbered ((s.setIntr false).setStatus t st) := by
    intro t st
    refine h.numbered.congr rfl rfl fun p => ?_
    by_cases hp : p = t <;> simp [hp]
  cases op with
  | start pcb name priority =>
    have hpcb : pcb ∉ s.threadAllList := fun hm => hen.1 (h.wf.held pcb hm hen.2)
    have hw : wp noStop () (threadStart pcb name priority) (fun _ th => Numbered th) s := by
      apply wp_threadStart (fun hm => hpcb ((h.wf.ready_iff pcb).mp hm).1) hpcb
      intro pid bm hpid
      exact h.numbered.taken hpcb hpid hc.2
    exact ⟨hwf, hret.of_wp hw⟩
  | tick => exact hswitched s h.numbered (hret.of_wp (wp_intrTimerHandler h.wf.toScheduled)).2
  | yield => exact hswitched s h.numbered (hret.of_wp (wp_threadYield h.wf.toScheduled)).2
  | block st =>
    exact hswitched _ (hstatus _ _) (hret.of_wp (wp_threadBlock h.wf.toScheduled hen)).2.1
  | unblock pcb =>
    have hw : wp noStop () (threadUnblock pcb) (fun _ th => th = s.unblocked pcb) s :=
      wp_threadUnblock h.wf.toQueued hen.2 rfl
    obtain rfl := hret.of_wp hw
    exact ⟨hwf, (hstatus pcb TaskStatus.ready).congr rfl rfl fun _ => rfl⟩
  | exitCurrent =>
    have hmem := h.wf.current_mem'
    have hex := h.numbered.exit h.wf.all_nodup hmem
    have hw : wp noStop () (threadExit s.current true) (fun _ th => Switched (exited s s.current) th)
        s := by
      apply wp_threadExit (h.wf.toPaged.ends hmem hmem fun hne => absurd hal hne)
      apply wp_mono (wp_schedule (h.wf.toQueued.exit hen) rfl)
      exact fun _ _ hr => hr.2.1
    exact hswitched _ hex (hret.of_wp hw)
  | exitAsleep t =>
    obtain ⟨ht, hs, -⟩ := hen
    have hne : t ≠ s.current := fun hc => not_sleeping_running (h.wf.current_running ▸ hc ▸ hs)
    have hw : wp noStop () (threadExit t false) (fun _ th => th = exited s t) s := by
      apply wp_threadExit (h.wf.toPaged.ends h.wf.current_mem' ht fun _ => hne)
      exact wp_pure.mpr rfl
    obtain rfl := hret.of_wp hw
    exact ⟨hwf, h.numbered.exit h.wf.all_nodup ht⟩

theorem PidInv.step (h : PidInv f.threads) (hst : PidStep Found f g) : PidInv g.threads := by
  cases hst with
  | thread hen hc hret => exact pidInv_thread h hen hc hret
  | @processStart p d name th hen hc hret =>
    have hpages := hen hc.1
    have hw : wp noStop () (Threads.processStart p d name) (fun _ th => PidInv th) f.threads := by
      apply wp_processStart h.wf hpages hc.1
      intro pid bm hpid
      exact ⟨h.wf.processStarted hpages hpid.nonneg,
        h.numbered.taken (h.wf.not_mem_of_fresh hpages.1) hpid hc.2⟩
    exact hret.of_wp hw
  | swapPids hen _ hret =>
    have hw : wp anyStop () Threads.swapPids (fun _ th => PidInv th) f.threads := by
      apply wp_swapPids hen
      intro init hinit hthree hne
      exact ⟨h.wf.pidsSwapped hne,
        h.numbered.pidsSwapped h.wf.current_mem' hen.2 hinit hthree hne⟩
    exact hret.of_wp hw
  | @fork got r th hen hc hret =>
    have hw : wp anyStop () (sysFork got) (fun _ th => PidInv th) f.threads := by
      apply wp_sysFork
      · exact fun _ => h
      · exact fun hc0 _ => ⟨h.wf.pageTaken (hen.1 hc0), h.numbered.congr rfl rfl fun _ => rfl⟩
      · intro hc0 hb pid bm task _ horphan
        obtain ⟨hv, hd, -⟩ := hc hc0 hb
        obtain ⟨hnone, -⟩ | ⟨hnone, -⟩ := horphan
        · exact absurd hnone hv
        · exact absurd hnone hd
      · intro hc0 hb hd pid bm hpid
        exact ⟨h.wf.forked (hen.1 hc0) (hen.2 hd).1 (hen.2 hd).2 rfl
          (h.wf.magic _ h.wf.current_mem') rfl hpid.nonneg,
          h.numbered.taken (h.wf.not_mem_of_fresh (hen.1 hc0)) hpid (hc hc0 hb).2.2⟩
    exact hret.of_wp hw

theorem scan_of_clear {bm : BitMap} {i : ℕ} (hi : i < bm.bits) (h : bm.bit i = false) :
    bitMapScan bm 1 ≠ none := by
  obtain ⟨j, hj⟩ := bitMapScan_one_isSome hi h
  simp [hj]

/-- `threadInit` takes the pids 1 and 2. -/
theorem wp_threadInit_numbered {s : Threads} (h : Boot s idle) :
    wp noStop e (threadInit idle) (fun _ s' => Numbered s') s := by
  unfold threadInit makeMainThread
  rw [wp_modify_bind]
  apply wp_bind
  apply wp_bind
  apply wp_allocatePid
  intro pid bm hpid
  rw [wp_modify_bind, wp_get_bind]
  refine (wp_assert_pos List.not_mem_nil).mpr ?_
  rw [wp_modify]
  apply wp_bind
  apply wp_threadStart (by simp) (by simpa using h.idle_main)
  intro pid' bm' hpid'
  rw [wp_modify]
  -- nobody has a pid yet
  set s₀ : Threads := { s with
    threadAllList := [], threadReadyList := [], pidBitMap := ⟨128, fun _ => 0⟩ } with hs₀
  have hempty : Numbered s₀ := by
    refine .mk' ⟨rfl, by simp [hs₀], by simp [hs₀]⟩ fun i _ hi => ?_
    simp [hs₀, BitMap.bit] at hi
  have hclear : ∀ i, s₀.pidBitMap.bit i = false := fun i => by simp [hs₀, BitMap.bit]
  have hfree : bitMapScan s₀.pidBitMap 1 ≠ none :=
    scan_of_clear (i := 0) (by norm_num [hs₀, BitMap.bits]) (hclear 0)
  have hmain : Numbered { s₀ with
      tasks := fun p => if p = s.current then
        { freshTask [109, 97, 105, 110] 4 pid with status := TaskStatus.running } else s₀.tasks p
      threadReadyList := []
      threadAllList := [] ++ [s.current]
      pidBitMap := bm
      pages := s.pages } := hempty.taken List.not_mem_nil hpid hfree
  have hfree' : bitMapScan bm 1 ≠ none := by
    obtain ⟨i, -, -, rfl⟩ := hpid.resolve_left fun hc => hfree hc.1
    have hbits : 1 < (bitMapSet s₀.pidBitMap i true).bits := by norm_num [hs₀, BitMap.bits]
    by_cases h0 : i = 0
    · have hone : (bitMapSet s₀.pidBitMap i true).bit 1 = false :=
        (bitMapSet_bit_ne _ _ (by rw [h0]; norm_num)).trans (hclear 1)
      exact scan_of_clear hbits hone
    · have hzero : (bitMapSet s₀.pidBitMap i true).bit 0 = false :=
        (bitMapSet_bit_ne _ _ (Ne.symm h0)).trans (hclear 0)
      exact scan_of_clear (by omega) hzero
  have hnew : idle ∉ [] ++ [s.current] := by simpa using h.idle_main
  have hidle := @Numbered.taken _ idle (freshTask [105, 100, 108, 101] 1 pid') bm' [idle]
    (idle :: s.pages) hmain hnew hpid' hfree'
  exact hidle.congr rfl rfl fun _ => rfl

theorem PidStart.inv (h : PidStart f) : PidInv f.threads := by
  obtain ⟨s₀, idle, hboot, hret⟩ := h.boot
  exact ⟨hret.of_wp (wp_threadInit hboot), hret.of_wp (wp_threadInit_numbered hboot)⟩

theorem PidStep.found (h : PidStep Supplied f g) : PidStep Found f g := by
  cases h with
  | thread hen hc hret => exact .thread hen hc.1 hret
  | processStart hen hc hret => exact .processStart hen hc.1 hret
  | swapPids hen hc hret => exact .swapPids hen hc.1 hret
  | fork hen hc hret => exact .fork hen hc.1 hret

/-- What a step adds to the memory of the run. -/
theorem PidStep.mapped (h : PidInv f.threads) (hst : PidStep Supplied f g)
    (hm : ∀ x ∈ f.releases, x.2 = true) : ∀ x ∈ g.releases, x.2 = true := by
  cases hst with
  | @thread op th hen hc hret =>
    unfold PidRun.after
    cases ho : ended f.threads op with
    | none => exact hm
    | some t =>
      have ht : t = f.threads.mainThread := hc.2 op rfl t ho
      have hmem : t ∈ f.threads.threadAllList := by
        cases op with
        | exitCurrent => exact Option.some.inj ho ▸ h.wf.current_mem'
        | exitAsleep p => exact Option.some.inj ho ▸ hen.1
        | _ => exact absurd ho (by simp [ended])
      intro x hx
      obtain rfl | hx := List.mem_cons.mp hx
      · rw [ht] at hmem ⊢
        exact pidReadMapped_main h.wf hmem
      · exact hm x hx
  | processStart _ _ _ => exact hm
  | swapPids _ _ _ => exact hm
  | fork _ _ _ => exact hm

/-- In every state of a run. -/
theorem pid_law (h : Run (PidStep Supplied) f g) (hs : PidStart f) : PidLaw g := by
  have hboth : PidInv g.threads ∧ ∀ x ∈ g.releases, x.2 = true := by
    refine h.invariant (I := fun f => PidInv f.threads ∧ ∀ x ∈ f.releases, x.2 = true) ?_
      ⟨hs.inv, by simp [hs.releases]⟩
    exact fun s t hI hst => ⟨hI.1.step hst.found, hst.mapped hI.1 hI.2⟩
  obtain ⟨⟨-, hn⟩, hm⟩ := hboth
  have hpid : ∀ t ∈ g.threads.threadAllList,
      1 ≤ (g.threads.tasks t).pid ∧ (g.threads.tasks t).pid ≤ 1024 := by
    intro t ht
    obtain ⟨i, hi, hlt, -⟩ := hn.marked t ht
    omega
  refine ⟨hn.inj, fun t ht => (hpid t ht).1, fun i hi => ⟨hn.only i hi, ?_⟩,
    fun t ht => (hpid t ht).2, hm⟩
  rintro ⟨t, ht, hti⟩
  obtain ⟨j, hj, -, hset⟩ := hn.marked t ht
  obtain rfl : j = i := by omega
  exact hset

/-- After `threadInit`. -/
def initPids : PidRun := ⟨initThreads, []⟩

theorem initPids_start : PidStart initPids :=
  ⟨⟨_, _, bootThreads_boot, initThreads_returns⟩, rfl⟩

/-- The process of `init` was made. -/
def initProcess : PidRun :=
  { initPids with
    threads := (processStart 0xc0101000 0xc0102000 [105, 110, 105, 116] () 0
      initPids.threads).state }

/-- It has the pid 1. -/
def swappedPids : PidRun :=
  { initProcess with threads := (swapPids () 0 initProcess.threads).state }

theorem initProcess_step : PidStep Supplied initPids initProcess :=
  @PidStep.processStart _ _ 0xc0101000 0xc0102000 [105, 110, 105, 116] _
    (fun _ => ⟨⟨by decide, by decide⟩, fun _ => ⟨⟨by decide, by decide⟩, by decide⟩⟩)
    ⟨⟨by decide, show bitMapScan _ 1 ≠ none by decide⟩, by simp⟩ ⟨0, 0, by rfl⟩

theorem swappedPids_step : PidStep Supplied initProcess swappedPids :=
  .swapPids ⟨by decide, by decide⟩ ⟨trivial, by simp⟩ ⟨0, 0, by rfl⟩

/-- The main thread has ended, and the idle thread runs. -/
def mainEnded : PidRun :=
  swappedPids.after .exitCurrent (threadExit 0xc009e000 true () 0 swappedPids.threads).state

theorem mainEnded_run : Run (PidStep Supplied) initPids mainEnded := by
  have h₃ : PidStep Supplied swappedPids mainEnded := by
    refine @PidStep.thread _ _ .exitCurrent _ (show swappedPids.threads.current ≠ _ by decide)
      ⟨trivial, ?_⟩ ⟨0, 0, by rfl⟩
    rintro op ⟨⟩ t ht
    exact (Option.some.inj ht).symm
  exact ((Relation.ReflTransGen.single initProcess_step).tail swappedPids_step).tail h₃

theorem pid_law_sample : Run (PidStep Supplied) initPids mainEnded ∧ PidLaw mainEnded :=
  ⟨mainEnded_run, pid_law mainEnded_run initPids_start⟩

/-- One more operation. -/
def PidRun.run (f : PidRun) (op : ThreadOp) : PidRun :=
  f.after op (op.run f.threads () 0 f.threads).state

/-- The idle thread sleeps, and the process of `init` runs. -/
def initRuns : PidRun := mainEnded.run (.block TaskStatus.blocked)

/-- It has a child. -/
def forkedPids : PidRun :=
  { initRuns with threads := (sysFork forkPages () 0 initRuns.threads).state }

/-- It sleeps in `sysWait`, and the child wakes it in `sysExit`. -/
def wokenParent : PidRun := (forkedPids.run (.block TaskStatus.waiting)).run (.unblock 0xc0101000)

/-- The child hangs. -/
def hangingChild : PidRun := wokenParent.run (.block TaskStatus.hanging)

theorem hangingChild_run : Run (PidStep Found) initPids hangingChild := by
  have h₃ : Run (PidStep Found) initPids mainEnded :=
    Relation.ReflTransGen.mono (fun _ _ => PidStep.found) _ _ mainEnded_run
  have h₄ := h₃.tail (@PidStep.thread _ _ (.block TaskStatus.blocked) initRuns.threads (.inl rfl)
    trivial ⟨0, 0, by rfl⟩)
  have h₅ : Run (PidStep Found) initPids forkedPids :=
    h₄.tail (@PidStep.fork _ _ forkPages 3 _
      ⟨fun _ => ⟨by decide, by decide⟩, fun _ => ⟨⟨by decide, by decide⟩, by decide⟩⟩
      (fun _ _ => ⟨by decide, by decide, by decide⟩) ⟨0, 0, by rfl⟩)
  have h₆ := h₅.tail (@PidStep.thread _ _ (.block TaskStatus.waiting)
    (forkedPids.run (.block TaskStatus.waiting)).threads (.inr (.inr rfl)) trivial ⟨0, 0, by rfl⟩)
  have h₇ : Run (PidStep Found) initPids wokenParent :=
    h₆.tail (@PidStep.thread _ _ (.unblock 0xc0101000) wokenParent.threads
      ⟨by decide, .inr (.inr rfl)⟩ trivial ⟨0, 0, by rfl⟩)
  exact h₇.tail (@PidStep.thread _ _ (.block TaskStatus.hanging) hangingChild.threads
    (.inr (.inl rfl)) trivial ⟨0, 0, by rfl⟩)

/-- Its parent reaps it: the pid is read from a page that was given back. -/
theorem pid_law_fails :
    Run (PidStep Found) initPids (hangingChild.run (.exitAsleep 0xc0103000)) ∧
      (0xc0103000, false) ∈ (hangingChild.run (.exitAsleep 0xc0103000)).releases ∧
      ¬PidLaw (hangingChild.run (.exitAsleep 0xc0103000)) := by
  have h : PidStep Found hangingChild (hangingChild.run (.exitAsleep 0xc0103000)) :=
    .thread ⟨by decide, .inr (.inl rfl), by decide⟩ trivial ⟨0, 0, by rfl⟩
  have hmem : (0xc0103000, false) ∈ (hangingChild.run (.exitAsleep 0xc0103000)).releases := by
    decide +kernel
  exact ⟨hangingChild_run.tail h, hmem, fun hlaw => absurd (hlaw.mapped _ hmem) (by decide)⟩

end Law

end Gogoos.Threads
