import Gogoos.Kernel.WaiterRun

/-!
# Page directories

`inodeOpen` and `inodeClose` set the `pageDir` of the running thread to `NULL` while they
allocate or free, and `copyBodyStack3` loads the directory of the child while it maps a page.
Between these lines lies `lockLock`, which may block, and the scheduler loads the directory of a
thread from its `pageDir` whenever the thread runs again. The mappings themselves are left out.
-/

namespace Gogoos.Threads

open Program

/-- What the running thread does with page directories. -/
inductive SpaceWork where
  | own
  /-- In `inodeOpen` or `inodeClose`, with `pageDir` set to `NULL`. -/
  | inode (curPageDirBak : ℕ)
  /-- In `copyBodyStack3`, between its two calls of `pageDirActivate`. -/
  | copy (childThread : ℕ)

structure Spaces where
  threads : Threads
  work : ℕ → SpaceWork

abbrev SpaceM (α : Type) : Type := Program Unit Spaces α

/-- Besides the lines that change directories, the threads go on: they block on a lock, are
woken by the one that has it, are interrupted, and make calls. -/
inductive SpaceEvent where
  | thread (op : ThreadOp)
  | proc (op : ProcOp)
  /-- `cur->pageDir = NULL`. -/
  | clearDir
  /-- `cur->pageDir = curPageDirBak`. -/
  | restoreDir
  /-- `pageDirActivate(childThread)`. -/
  | activateChild (childThread : ℕ)
  /-- `pageDirActivate(parentThread)`. -/
  | activateParent

namespace Spaces

variable {s s' : Spaces} {th th' : Threads} {e : Unit}

abbrev cur (s : Spaces) : ℕ := s.threads.current

abbrev dir (s : Spaces) (t : ℕ) : ℕ := (s.threads.tasks t).pageDir

section System

def onThreads {α : Type} (p : ThreadM α) : SpaceM α :=
  zoom Spaces.threads (fun th s => { s with threads := th }) p

def setDir (pcb dir : ℕ) : ThreadM Unit :=
  modify fun th => th.setTask pcb { th.tasks pcb with pageDir := dir }

/-- An address of 0 stands for the directory of the kernel threads. -/
def pageDirActivate (ts : ℕ) : ThreadM Unit :=
  modify fun th => { th with cr3 := (th.tasks ts).pageDir }

def goto (t : ℕ) (work : SpaceWork) : SpaceM Unit :=
  modify fun s => { s with work := fun p => if p = t then work else s.work p }

def SpaceEvent.run (s : Spaces) : SpaceEvent → SpaceM Unit
  | .thread op => onThreads (op.run s.threads)
  | .proc op => onThreads op.run
  | .clearDir => do
    onThreads (setDir s.cur 0)
    goto s.cur (.inode (s.dir s.cur))
  | .restoreDir =>
    match s.work s.cur with
    | .inode curPageDirBak => do
      onThreads (setDir s.cur curPageDirBak)
      goto s.cur .own
    | _ => pure ()
  | .activateChild childThread => do
    onThreads (pageDirActivate childThread)
    goto s.cur (.copy childThread)
  | .activateParent => do
    onThreads (pageDirActivate s.cur)
    goto s.cur .own

/-- Between the lines that change directories there are only the pool lock and interrupts. -/
def AtLock : ThreadOp → Prop
  | .tick | .unblock _ => True
  | .block status => status = TaskStatus.blocked
  | _ => False

/-- A new PCB is not the one of the running thread, and a thread that is ended is not in the
middle of a call. -/
def Safe (s : Spaces) : ThreadOp → Prop
  | .start pcb _ _ => pcb ≠ s.cur
  | .exitAsleep threadOver => s.work threadOver = .own
  | _ => True

def SpaceEvent.Enabled (s : Spaces) : SpaceEvent → Prop
  | .thread op => op.Enabled s.threads ∧ Safe s op ∧ (s.work s.cur ≠ .own → AtLock op)
  | .proc op => op.Enabled s.threads ∧ s.work s.cur = .own ∧
      ∀ got, op = .fork got → got.childThread ≠ s.cur
  | .clearDir | .activateChild _ => s.work s.cur = .own
  | .restoreDir => ∃ curPageDirBak, s.work s.cur = .inode curPageDirBak
  | .activateParent => ∃ childThread, s.work s.cur = .copy childThread

def SpaceStep (cond : Spaces → SpaceEvent → Prop) (s s' : Spaces) : Prop :=
  ∃ ev, SpaceEvent.Enabled s ev ∧ cond s ev ∧ Returns () (SpaceEvent.run s ev) s () s'

/-- The running thread gives up the processor. -/
def Switches (th : Threads) : ThreadOp → Prop
  | .tick => (th.tasks th.current).ticks = 0
  | .yield | .block _ | .exitCurrent => True
  | .start _ _ _ | .unblock _ | .exitAsleep _ => False

/-- No thread gives up the processor between the lines that change directories. -/
def Undisturbed (s : Spaces) : SpaceEvent → Prop
  | .thread op => Switches s.threads op → s.work s.cur = .own
  | _ => True

/-- The directory that the running thread needs: its own, which `inodeOpen` and `inodeClose`
have saved, or that of the child. -/
def need (s : Spaces) : ℕ :=
  match s.work s.cur with
  | .own => s.dir s.cur
  | .inode curPageDirBak => curPageDirBak
  | .copy childThread => s.dir childThread

def SpaceLaw (s : Spaces) : Prop := s.threads.cr3 = s.need

end System

section Specs

/-- The directory of the running thread is loaded. -/
def Fits (th : Threads) : Prop := th.cr3 = (th.tasks th.current).pageDir

/-- The same thread runs with the same directory, and a PCB other than `pcb` keeps its own. -/
structure SameSpace (th th' : Threads) (pcb : Option ℕ) : Prop where
  cr3 : th'.cr3 = th.cr3
  current : th'.current = th.current
  dirs : ∀ t, pcb ≠ some t → (th'.tasks t).pageDir = (th.tasks t).pageDir

theorem SameSpace.fits {pcb : Option ℕ} (h : SameSpace th th' pcb) (hne : pcb ≠ some th.current)
    (hf : Fits th) : Fits th' := by
  unfold Fits at *
  rw [h.cr3, h.current, h.dirs _ hne, hf]

/-- A program that ends in `m` has what `m` establishes from anywhere. -/
theorem wp_last {α β σ : Type} {p : Program Unit σ α} {f : α → Program Unit σ β}
    {Q : β → σ → Prop} {x : σ} (hf : ∀ a x, wp anyStop e (f a) Q x) :
    wp anyStop e (p >>= f) Q x := by
  refine wp_call (R := fun _ _ => True) ?_ fun a x _ => hf a x
  intro t
  cases p e t x <;> trivial

theorem wp_schedule_fits : wp anyStop e schedule (fun _ th' => Fits th') th := by
  have hdispatch : ∀ r, wp anyStop e dispatch (fun _ th' => Fits th') r := by
    intro r
    unfold dispatch
    rw [wp_get_bind]
    cases hl : r.threadReadyList with
    | nil => exact wp_halt.mpr trivial
    | cons next rest => exact wp_modify.mpr rfl
  unfold schedule
  exact wp_last fun _ _ => wp_last fun _ _ => wp_last fun _ _ => wp_last fun _ r => hdispatch r

theorem wp_threadBlock_fits {st : ℤ} :
    wp anyStop e (threadBlock st) (fun _ th' => Fits th') th :=
  wp_last fun _ _ => wp_last fun _ _ => wp_last fun _ _ => wp_last fun _ _ => wp_last fun _ _ =>
    wp_schedule_fits

theorem wp_threadYield_fits : wp anyStop e threadYield (fun _ th' => Fits th') th :=
  wp_last fun _ _ => wp_last fun _ _ => wp_last fun _ _ => wp_last fun _ _ => wp_schedule_fits

/-- A change of a field other than `pageDir`. -/
theorem SameSpace.update {pcb : ℕ} {task : TaskStruct} (h : SameSpace th th' none)
    (hdir : task.pageDir = (th'.tasks pcb).pageDir) : SameSpace th (th'.setTask pcb task) none where
  cr3 := h.cr3
  current := h.current
  dirs t ht := by
    rw [← h.dirs t ht]
    by_cases hp : t = pcb
    · simp [hp, hdir]
    · simp [hp]

theorem SameSpace.refl : SameSpace th th none := ⟨rfl, rfl, fun _ _ => rfl⟩

theorem wp_tick : wp anyStop e intrTimerHandler (fun _ th' =>
    ((th.tasks th.current).ticks = 0 ∧ Fits th') ∨ SameSpace th th' none) th := by
  unfold intrTimerHandler disableIntr
  rw [wp_modify_bind, wp_get_bind, wp_assert_bind]
  refine ⟨fun _ => ?_, fun _ => trivial⟩
  rw [wp_modify_bind]
  apply wp_ite
  · intro h0
    exact wp_mono wp_schedule_fits fun _ _ hf => .inl ⟨h0, hf⟩
  · intro _
    refine wp_modify.mpr (.inr ?_)
    have h₁ : SameSpace th ({ th.setTask th.current { th.tasks th.current with
        elapsedTicks := (th.tasks th.current).elapsedTicks + 1 } with
        intr := false, ticks := th.ticks + 1 }) none := by
      have h : SameSpace th (th.setTask th.current { th.tasks th.current with
          elapsedTicks := (th.tasks th.current).elapsedTicks + 1 }) none := SameSpace.refl.update rfl
      exact ⟨h.cr3, h.current, h.dirs⟩
    exact h₁.update (by simp)

/-- A change that is not about directories. -/
theorem SameSpace.congr {pcb : Option ℕ} {th'' : Threads} (h : SameSpace th th' pcb)
    (hcr3 : th''.cr3 = th'.cr3) (hcur : th''.current = th'.current)
    (htasks : ∀ t, (th''.tasks t).pageDir = (th'.tasks t).pageDir) : SameSpace th th'' pcb where
  cr3 := hcr3.trans h.cr3
  current := hcur.trans h.current
  dirs t ht := (htasks t).trans (h.dirs t ht)

theorem SameSpace.setStatus {pcb : Option ℕ} {t : ℕ} {st : ℤ} (h : SameSpace th th' pcb) :
    SameSpace th (th'.setStatus t st) pcb :=
  h.congr rfl rfl fun p => by by_cases hp : p = t <;> simp [hp]

theorem SameSpace.setPcb {pcb : ℕ} {task : TaskStruct} (h : SameSpace th th' (some pcb)) :
    SameSpace th (th'.setTask pcb task) (some pcb) where
  cr3 := h.cr3
  current := h.current
  dirs t ht := by
    have hp : t ≠ pcb := fun hc => ht (hc ▸ rfl)
    simpa [hp] using h.dirs t ht

theorem SameSpace.weaken {pcb : Option ℕ} (h : SameSpace th th' none) : SameSpace th th' pcb :=
  ⟨h.cr3, h.current, fun t _ => h.dirs t (by simp)⟩

variable {pcb : Option ℕ}

theorem wp_unblock {t : ℕ} (h : SameSpace th th' pcb) :
    wp anyStop e (threadUnblock t) (fun _ r => SameSpace th r pcb) th' := by
  unfold threadUnblock
  rw [wp_get_bind, wp_assert_bind]
  refine ⟨fun _ => ?_, fun _ => trivial⟩
  rw [wp_assert_bind]
  refine ⟨fun _ => ?_, fun _ => trivial⟩
  rw [wp_modify]
  exact h.setStatus.congr rfl rfl fun _ => rfl

theorem wp_allocatePid_space (h : SameSpace th th' pcb) :
    wp anyStop e allocatePid (fun _ r => SameSpace th r pcb) th' := by
  unfold allocatePid
  rw [wp_get_bind]
  cases bitMapScanAndSet th'.pidBitMap 1 true with
  | mk i bm =>
    cases i with
    | none => exact wp_pure.mpr h
    | some i =>
      refine wp_modify_bind.mpr (wp_pure.mpr ?_)
      exact h.congr rfl rfl fun _ => rfl

theorem wp_start {t priority : ℕ} {name : List UInt8} :
    wp anyStop e (threadStart t name priority) (fun _ r => SameSpace th r (some t)) th := by
  have h₀ : SameSpace th { th with pages := if t = 0 then th.pages else t :: th.pages } (some t) :=
    SameSpace.refl.weaken.congr rfl rfl fun _ => rfl
  unfold threadStart threadCreate
  rw [wp_modify_bind, wp_bind_assoc]
  apply wp_call (wp_allocatePid_space h₀)
  intro pid r h
  rw [wp_modify_bind, wp_get_bind, wp_assert_bind]
  refine ⟨fun _ => ?_, fun _ => trivial⟩
  rw [wp_assert_bind]
  refine ⟨fun _ => ?_, fun _ => trivial⟩
  rw [wp_modify]
  exact h.setPcb.congr rfl rfl fun _ => rfl

theorem wp_freeKernelPage_space {page : ℕ} (h : SameSpace th th' pcb) :
    wp anyStop e (freeKernelPage page) (fun _ r => SameSpace th r pcb) th' := by
  unfold freeKernelPage
  rw [wp_get_bind, wp_assert_bind]
  refine ⟨fun _ => ?_, fun _ => trivial⟩
  rw [wp_modify_bind]
  exact wp_ite (fun _ => wp_halt.mpr trivial) fun _ => wp_pure.mpr (h.congr rfl rfl fun _ => rfl)

theorem wp_exit {t : ℕ} :
    wp anyStop e (threadExit t false) (fun _ r => SameSpace th r none) th := by
  have h₀ : SameSpace th (((th.setIntr false).setStatus t TaskStatus.died).setReadyList
      (th.threadReadyList.erase t)) none := by
    have h : SameSpace th (th.setIntr false) none := SameSpace.refl.congr rfl rfl fun _ => rfl
    exact h.setStatus.congr rfl rfl fun _ => rfl
  unfold threadExit disableIntr
  rw [wp_modify_bind, wp_modify_bind, wp_get_bind]
  apply wp_call (R := fun _ r => SameSpace th r none)
  · exact wp_ite (fun _ => wp_freeKernelPage_space h₀) fun _ => wp_pure.mpr h₀
  rintro ⟨⟩ r h
  rw [wp_modify_bind]
  have h' : SameSpace th (r.setAllList (r.threadAllList.erase t)) none :=
    h.congr rfl rfl fun _ => rfl
  apply wp_call (R := fun _ r => SameSpace th r none)
  · exact wp_ite (fun _ => wp_freeKernelPage_space h') fun _ => wp_pure.mpr h'
  rintro ⟨⟩ r h
  unfold releasePid
  rw [wp_modify_bind]
  exact wp_pure.mpr (h.congr rfl rfl fun _ => rfl)

theorem wp_exit_fits {t : ℕ} : wp anyStop e (threadExit t true) (fun _ r => Fits r) th :=
  wp_last fun _ _ => wp_last fun _ _ => wp_last fun _ _ => wp_last fun _ _ => wp_last fun _ _ =>
    wp_last fun _ _ => wp_last fun _ _ => wp_schedule_fits

/-- The PCB that an operation makes. -/
def made : ThreadOp → Option ℕ
  | .start pcb _ _ => some pcb
  | _ => none

/-- Every operation either gives up the processor, and loads the directory of the thread that
runs next, or leaves the directories alone. -/
theorem wp_op {op : ThreadOp} : wp anyStop e (op.run th) (fun _ th' =>
    (Switches th op ∧ Fits th') ∨ SameSpace th th' (made op)) th := by
  cases op with
  | start t name priority => exact wp_mono wp_start fun _ _ h => .inr h
  | tick => exact wp_tick
  | yield => exact wp_mono wp_threadYield_fits fun _ _ h => .inl ⟨trivial, h⟩
  | block st => exact wp_mono wp_threadBlock_fits fun _ _ h => .inl ⟨trivial, h⟩
  | unblock t => exact wp_mono (wp_unblock .refl) fun _ _ h => .inr h
  | exitCurrent => exact wp_mono wp_exit_fits fun _ _ h => .inl ⟨trivial, h⟩
  | exitAsleep t => exact wp_mono wp_exit fun _ _ h => .inr h

/-- The PCB that a call makes. -/
def child : ProcOp → Option ℕ
  | .fork got => some got.childThread
  | _ => none

theorem wp_call_space {op : ProcOp} :
    wp anyStop e op.run (fun _ th' => Fits th' ∨ SameSpace th th' (child op)) th := by
  cases op with
  | fork got =>
    have h₀ : SameSpace th { th with pages := got.childThread :: th.pages } (some got.childThread) :=
      SameSpace.refl.weaken.congr rfl rfl fun _ => rfl
    have hfork : wp anyStop e (sysFork got) (fun _ r => SameSpace th r (some got.childThread))
        th := by
      unfold sysFork
      rw [wp_get_bind]
      apply wp_ite
      · exact fun _ => wp_pure.mpr SameSpace.refl.weaken
      intro _
      rw [wp_modify_bind, wp_assert_bind]
      refine ⟨fun _ => ?_, fun _ => trivial⟩
      apply wp_ite
      · exact fun _ => wp_pure.mpr h₀
      intro _
      apply wp_call (wp_allocatePid_space h₀)
      intro pid r h
      rw [wp_modify_bind]
      apply wp_ite
      · exact fun _ => wp_pure.mpr h.setPcb
      intro _
      rw [wp_assert_bind]
      refine ⟨fun _ => ?_, fun _ => trivial⟩
      rw [wp_modify_bind]
      apply wp_ite
      · exact fun _ => wp_pure.mpr h.setPcb.setPcb
      intro _
      rw [wp_modify_bind, wp_get_bind, wp_assert_bind]
      refine ⟨fun _ => ?_, fun _ => trivial⟩
      rw [wp_modify_bind]
      exact wp_pure.mpr (h.setPcb.setPcb.setPcb.congr rfl rfl fun _ => rfl)
    exact wp_call hfork fun _ _ h => wp_pure.mpr (.inr h)
  | exit st =>
    have hexit : wp anyStop e (sysExit st) (fun _ r => Fits r) th :=
      wp_last fun _ _ => wp_last fun _ _ => wp_last fun _ _ => wp_last fun _ _ => wp_last fun _ _ =>
        wp_threadBlock_fits
    exact wp_mono hexit fun _ _ h => .inl h
  | wait =>
    have hwait : wp anyStop e sysWait (fun _ r => Fits r ∨ SameSpace th r none) th := by
      unfold sysWait
      rw [wp_get_bind]
      dsimp only
      cases th.findHangingChild (th.tasks th.current).pid with
      | some t => exact wp_call wp_exit fun _ _ h => wp_pure.mpr (.inr h)
      | none =>
        cases th.findChild (th.tasks th.current).pid with
        | none => exact wp_pure.mpr (.inr .refl)
        | some t => exact wp_call wp_threadBlock_fits fun _ _ h => wp_pure.mpr (.inl h)
    exact wp_call hwait fun _ _ h => wp_pure.mpr h

end Specs

section Law

/-- Only the running thread is between the lines that change directories. -/
structure Inv (s : Spaces) : Prop where
  law : SpaceLaw s
  others : ∀ t, t ≠ s.cur → s.work t = .own

/-- The state of the processor after an operation, in a run where it is given up only outside
of these lines. -/
theorem Inv.next (pcb : Option ℕ) (h : Inv s)
    (hop : (s.work s.cur = .own ∧ Fits th) ∨ SameSpace s.threads th pcb)
    (hpcb : ∀ t, pcb = some t → t ≠ s.cur ∧ s.work s.cur = .own) :
    Inv { s with threads := th } := by
  obtain ⟨hown, hf⟩ | hsame := hop
  · have hall : ∀ t, s.work t = .own := by
      intro t
      by_cases ht : t = s.cur
      · rw [ht, hown]
      · exact h.others t ht
    refine ⟨?_, fun t _ => hall t⟩
    unfold SpaceLaw need
    simp only [hall]
    exact hf
  · refine ⟨?_, fun t ht => h.others t fun hc => ht (hc.trans hsame.current.symm)⟩
    have hlaw := h.law
    unfold SpaceLaw need dir cur at hlaw ⊢
    simp only [hsame.current, hsame.cr3]
    rw [hlaw]
    have hne : pcb ≠ some s.threads.current := fun hc => (hpcb _ hc).1 rfl
    cases hw : s.work s.threads.current with
    | own => exact (hsame.dirs _ hne).symm
    | inode bak => rfl
    | copy c =>
      refine (hsame.dirs c fun hc => ?_).symm
      exact absurd ((hpcb c hc).2.symm.trans hw) (by simp)

theorem wp_change {t : ℕ} {w : SpaceWork} {g : Threads → Threads} {Q : Unit → Spaces → Prop} :
    wp anyStop e (do onThreads (modify g); goto t w) Q s ↔
      Q () { threads := g s.threads, work := fun p => if p = t then w else s.work p } :=
  ⟨fun h => h 0, fun h _ => h⟩

theorem Inv.step (h : Inv s) (hst : SpaceStep Undisturbed s s') : Inv s' := by
  obtain ⟨ev, hen, hc, hret⟩ := hst
  have hgoto : ∀ w, ∀ t, t ≠ s.cur → (if t = s.cur then w else s.work t) = SpaceWork.own := by
    intro w t ht
    rw [if_neg ht]
    exact h.others t ht
  cases ev with
  | thread op =>
    have hw : wp anyStop () (onThreads (op.run s.threads)) (fun _ r => Inv r) s := by
      apply wp_zoom
      refine wp_mono wp_op fun _ th hop => h.next (made op) ?_ ?_
      · exact hop.imp_left fun hf => ⟨hc hf.1, hf.2⟩
      · intro t ht
        cases op with
        | start p name priority =>
          obtain rfl : p = t := Option.some.inj ht
          refine ⟨hen.2.1, ?_⟩
          by_contra hne
          exact hen.2.2 hne
        | _ => exact absurd ht (by simp [made])
    exact hret.of_wp hw
  | proc op =>
    have hw : wp anyStop () (onThreads op.run) (fun _ r => Inv r) s := by
      apply wp_zoom
      refine wp_mono wp_call_space fun _ th hop => h.next (child op) ?_ ?_
      · exact hop.imp_left fun hf => ⟨hen.2.1, hf⟩
      · intro t ht
        cases op with
        | fork got =>
          obtain rfl : got.childThread = t := Option.some.inj ht
          exact ⟨hen.2.2 got rfl, hen.2.1⟩
        | _ => exact absurd ht (by simp [child])
    exact hret.of_wp hw
  | clearDir =>
    have hown : s.work s.cur = .own := hen
    have hlaw := h.law
    unfold SpaceLaw need at hlaw
    rw [hown] at hlaw
    have hw : wp anyStop () (SpaceEvent.run s .clearDir) (fun _ r => Inv r) s := by
      refine wp_change.mpr ⟨?_, hgoto _⟩
      unfold SpaceLaw need
      simpa [Threads.setTask] using hlaw
    exact hret.of_wp hw
  | restoreDir =>
    obtain ⟨bak, hb⟩ := hen
    have hlaw := h.law
    unfold SpaceLaw need at hlaw
    rw [hb] at hlaw
    have hw : wp anyStop () (SpaceEvent.run s .restoreDir) (fun _ r => Inv r) s := by
      unfold SpaceEvent.run
      simp only [hb]
      refine wp_change.mpr ⟨?_, hgoto _⟩
      unfold SpaceLaw need
      simpa [Threads.setTask, dir, cur] using hlaw
    exact hret.of_wp hw
  | activateChild c =>
    have hw : wp anyStop () (SpaceEvent.run s (.activateChild c)) (fun _ r => Inv r) s := by
      refine wp_change.mpr ⟨?_, hgoto _⟩
      unfold SpaceLaw need
      simp
    exact hret.of_wp hw
  | activateParent =>
    have hw : wp anyStop () (SpaceEvent.run s .activateParent) (fun _ r => Inv r) s := by
      refine wp_change.mpr ⟨?_, hgoto _⟩
      unfold SpaceLaw need
      simp
    exact hret.of_wp hw

/-- No thread is in the middle of a call, and the directory of the running thread is loaded. -/
structure Start (s : Spaces) : Prop where
  cr3 : s.threads.cr3 = s.dir s.cur
  work : ∀ t, s.work t = .own

/-- The state after some events, as long as none stops the machine. -/
def after (s : Spaces) : List SpaceEvent → Spaces
  | [] => s
  | ev :: evs => after (SpaceEvent.run s ev () 0 s).state evs

/-- A kernel thread, the main thread, runs and has the lock of the kernel pool. Its time slice
is over, and a process is ready. -/
def startSpaces : Spaces where
  threads :=
    { tasks := fun p =>
        if p = 0xc0101000 then
          { freshTask [] 1 5 with pageDir := 0xc0102000, parentPid := 1 }
        else if p = 0xc009e000 then { freshTask [] 0 1 with status := TaskStatus.running }
        else { freshTask [] 0 2 with status := TaskStatus.blocked }
      current := 0xc009e000
      mainThread := 0xc009e000
      idleThread := 0xc0100000
      threadReadyList := [0xc0101000]
      threadAllList := [0xc009e000, 0xc0100000, 0xc0101000]
      pidBitMap := ⟨128, fun i => if i = 0 then 19 else 0⟩
      pages := [0xc0100000, 0xc0101000, 0xc0102000]
      intr := true
      cr3 := 0
      ticks := 0 }
  work _ := .own

/-- The process is in `inodeOpen`, before the lock. -/
def openingSpaces : Spaces := startSpaces.after [.thread .tick, .clearDir]

theorem startSpaces_start : Start startSpaces := ⟨rfl, fun _ => rfl⟩

theorem openingSpaces_run : Run (SpaceStep Undisturbed) startSpaces openingSpaces := by
  have h₁ : SpaceStep Undisturbed startSpaces (startSpaces.after [.thread .tick]) :=
    ⟨.thread .tick, ⟨trivial, trivial, fun _ => trivial⟩, fun _ => rfl, ⟨0, 0, by rfl⟩⟩
  have h₂ : SpaceStep Undisturbed (startSpaces.after [.thread .tick]) openingSpaces :=
    ⟨.clearDir, rfl, trivial, ⟨0, 0, by rfl⟩⟩
  exact (Relation.ReflTransGen.single h₁).tail h₂

/-- In every state of a run in which no thread gives up the processor between the lines that
change directories. -/
theorem space_law (h : Run (SpaceStep Undisturbed) s s') (hs : Start s) : SpaceLaw s' := by
  have hinv : Inv s := by
    refine ⟨?_, fun t _ => hs.work t⟩
    unfold SpaceLaw need
    rw [hs.work]
    exact hs.cr3
  exact (h.invariant (fun _ _ hI hst => hI.step hst) hinv).law

/-- A process that is not disturbed in `inodeOpen` has its own directory there. -/
theorem space_law_sample :
    Run (SpaceStep Undisturbed) startSpaces openingSpaces ∧ SpaceLaw openingSpaces ∧
      openingSpaces.threads.cr3 = 0xc0102000 :=
  ⟨openingSpaces_run, space_law openingSpaces_run startSpaces_start, by decide⟩

/-- The process blocks on the lock, the kernel thread gives the lock back and is interrupted,
and the process ends the call. -/
def openedSpaces : Spaces :=
  openingSpaces.after [.thread (.block TaskStatus.blocked), .thread (.unblock 0xc0101000),
    .thread .tick, .restoreDir]

/-- The process runs in the directory of the kernel threads. -/
theorem space_law_fails :
    Run (SpaceStep fun _ _ => True) startSpaces openedSpaces ∧
      openedSpaces.cur = 0xc0101000 ∧ openedSpaces.work 0xc0101000 = .own ∧
      openedSpaces.dir 0xc0101000 = 0xc0102000 ∧ openedSpaces.threads.cr3 = 0 ∧
      ¬ SpaceLaw openedSpaces := by
  have h₀ : Run (SpaceStep fun _ _ => True) startSpaces openingSpaces := by
    refine Relation.ReflTransGen.mono ?_ _ _ openingSpaces_run
    rintro s s' ⟨ev, hen, -, hret⟩
    exact ⟨ev, hen, trivial, hret⟩
  have h₁ : SpaceStep (fun _ _ => True) openingSpaces
      (openingSpaces.after [.thread (.block TaskStatus.blocked)]) :=
    ⟨.thread (.block TaskStatus.blocked), ⟨.inl rfl, trivial, fun _ => rfl⟩, trivial,
      ⟨0, 0, by rfl⟩⟩
  have h₂ : SpaceStep (fun _ _ => True)
      (openingSpaces.after [.thread (.block TaskStatus.blocked)])
      (openingSpaces.after [.thread (.block TaskStatus.blocked), .thread (.unblock 0xc0101000)]) :=
    ⟨.thread (.unblock 0xc0101000), ⟨⟨by decide, by decide⟩, trivial, fun _ => trivial⟩, trivial,
      ⟨0, 0, by rfl⟩⟩
  have h₃ : SpaceStep (fun _ _ => True)
      (openingSpaces.after [.thread (.block TaskStatus.blocked), .thread (.unblock 0xc0101000)])
      (openingSpaces.after [.thread (.block TaskStatus.blocked), .thread (.unblock 0xc0101000),
        .thread .tick]) :=
    ⟨.thread .tick, ⟨trivial, trivial, fun _ => trivial⟩, trivial, ⟨0, 0, by rfl⟩⟩
  have h₄ : SpaceStep (fun _ _ => True)
      (openingSpaces.after [.thread (.block TaskStatus.blocked), .thread (.unblock 0xc0101000),
        .thread .tick]) openedSpaces :=
    ⟨.restoreDir, ⟨0xc0102000, by rfl⟩, trivial, ⟨0, 0, by rfl⟩⟩
  exact ⟨(((h₀.tail h₁).tail h₂).tail h₃).tail h₄, by decide, by rfl, by decide, by decide,
    (by decide : openedSpaces.threads.cr3 ≠ openedSpaces.need)⟩

end Law

end Spaces

end Gogoos.Threads
