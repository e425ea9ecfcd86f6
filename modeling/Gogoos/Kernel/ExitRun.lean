import Gogoos.Kernel.Release
import Gogoos.Fs.DirectoryRun

/-!
# Memory of a process that exits

`sysExit` of the running thread, the switch to its parent and the call of `sysWait` that reaps
it. The frames of its user pages are given back only when there are none.
-/

namespace Gogoos.Machine

open Program

variable {e : Heap} {m m' r r' : Machine} {parent child f : ℕ} {kt : ℕ → ℕ} {S S' : ℕ → Prop}

section Statement

/-- The child that `sysWait` of the running thread reaps. -/
def findHangingChild (m : Machine) : Option ℕ :=
  let pid := (m.tasks m.current).pid
  m.threadAllList.find? fun p =>
    (m.tasks p).parentPid = pid ∧ (m.tasks p).status = TaskStatus.hanging

/-- What `schedule` does when it gives the processor to `next`. -/
def switchTo (next : ℕ) : KernelM Unit := do
  pageDirActivate next
  modify fun m => m.setCurrent next

/-- The running thread exits, and `parent` gets the processor and waits. A run in which it
finds another child first is not looked at. -/
def exitAndWait (status : ℤ) (child parent : ℕ) : KernelM WaitResult := do
  sysExit status
  switchTo parent
  let m ← get
  assert (m.findHangingChild = some child)
  sysWait

/-- The running thread exits and `parent` reaps it. -/
def Reaped (m m' : Machine) (parent : ℕ) : Prop :=
  ∃ (e : Heap) (status st pid : ℤ),
    Returns e (exitAndWait status m.current parent) m (.reaped st pid) m'

/-- The page table of entry `d` of the active directory is frame `f`. -/
def UserTable (m : Machine) (d f : ℕ) : Prop :=
  d < 768 ∧ present (m.phys m.cr3 d) = true ∧ f = entryFrame (m.phys m.cr3 d)

/-- A page of the running process is mapped to frame `f`. -/
def UserPage (m : Machine) (f : ℕ) : Prop :=
  ∃ d t, UserTable m d t ∧ ∃ i < 1024, present (m.phys t i) = true ∧ f = entryFrame (m.phys t i)

/-- The frames that the running process holds: its pages, their tables, the directory, the
pages of the bitmap and the page of the PCB. -/
def Held (m : Machine) (f : ℕ) : Prop :=
  UserPage m f ∨ (∃ d, UserTable m d f) ∨
    m.walk (m.tasks m.current).pageDir = some f ∨
    (∃ i < bitMapPgCnt, m.walk ((m.tasks m.current).vap.bitMapAddr + i * 4096) = some f) ∨
    m.walk m.current = some f

/-- The bits of the frames that it held are clear, and all others are what they were. -/
def GivesBack (m m' : Machine) : Prop :=
  ∀ pf, ∀ n < (m.pap pf).bitMap.bits, (m'.pap pf).bitMap.bit n = true ↔
    (m.pap pf).bitMap.bit n = true ∧ ¬Held m (m.frame pf n)

/-- Where the kernel keeps a process and the directory of its parent. -/
structure ExitFrames where
  tables : ℕ → ℕ
  kernelBase : ℕ
  userBase : ℕ
  parentDir : ℕ
  pcbPage : ℕ
  pcb : ℕ
  dirPage : ℕ
  bitMapPage : ℕ
  bitMap : ℕ → ℕ
  parentDirPage : ℕ

/-- The running process and its parent are user processes, whose frames are their own. -/
structure ExitWf (m : Machine) (parent : ℕ) (L : ExitFrames) : Prop where
  geo : PoolGeo m L.kernelBase L.userBase
  distinct : Distinct L.tables
  dir : Directory L.tables m m.cr3
  noTable : NoTable L.tables m.cr3
  parentDir : Directory L.tables m L.parentDir
  parentNoTable : NoTable L.tables L.parentDir
  word : ∀ d < 768, m.phys m.cr3 d < 2 ^ 32
  pcbAddr : m.current = L.pcbPage * 4096
  pcb : Mapped L.tables L.kernelBase L.userBase m L.pcbPage L.pcb
  dirAddr : (m.tasks m.current).pageDir = L.dirPage * 4096
  dirPage : Mapped L.tables L.kernelBase L.userBase m L.dirPage m.cr3
  parentDirAddr : (m.tasks parent).pageDir = L.parentDirPage * 4096
  parentDirPage : Mapped L.tables L.kernelBase L.userBase m L.parentDirPage L.parentDir
  bitMapAddr : (m.tasks m.current).vap.bitMapAddr = L.bitMapPage * 4096
  bitMap : ∀ q, L.bitMapPage ≤ q → q < L.bitMapPage + bitMapPgCnt →
    Mapped L.tables L.kernelBase L.userBase m q (L.bitMap q)
  apart : ∀ q, q = L.pcbPage ∨ q = L.dirPage ∨ q = L.parentDirPage →
    ¬(L.bitMapPage ≤ q ∧ q < L.bitMapPage + bitMapPgCnt)
  pages : L.pcbPage ≠ L.dirPage
  notMain : m.current ≠ m.mainThread
  userTable : ∀ d t, UserTable m d t → t < L.userBase
  userPage : ∀ t, UserPage m t → ∃ n < m.userPap.bitMap.bits, t = L.userBase + n ∧
    m.userPap.bitMap.bit n = true

/-- No page of user space is mapped. -/
def NoUserPage (m : Machine) : Prop := ∀ t, ¬UserPage m t

end Statement

section Quiet

/-- Neither memory nor what the PCBs say about it was changed. -/
structure Quiet (m r : Machine) : Prop where
  phys : r.phys = m.phys
  pap : ∀ pf, r.pap pf = m.pap pf
  cr3 : r.cr3 = m.cr3
  mainThread : r.mainThread = m.mainThread
  pageDir : ∀ q, (r.tasks q).pageDir = (m.tasks q).pageDir
  vap : ∀ q, (r.tasks q).vap = (m.tasks q).vap

theorem Quiet.refl : Quiet m m := ⟨rfl, fun _ => rfl, rfl, rfl, fun _ => rfl, fun _ => rfl⟩

theorem Quiet.trans (h : Quiet m r) (h' : Quiet r r') : Quiet m r' :=
  ⟨h'.phys.trans h.phys, fun pf => (h'.pap pf).trans (h.pap pf), h'.cr3.trans h.cr3,
    h'.mainThread.trans h.mainThread, fun q => (h'.pageDir q).trans (h.pageDir q),
    fun q => (h'.vap q).trans (h.vap q)⟩

theorem Quiet.setTask {t : TaskStruct} (h : Quiet m r) (hd : t.pageDir = (r.tasks child).pageDir)
    (hv : t.vap = (r.tasks child).vap) : Quiet m (r.setTask child t) := by
  refine ⟨h.phys, fun pf => by cases pf <;> [exact h.pap .user; exact h.pap .kernel], h.cr3,
    h.mainThread, fun q => ?_, fun q => ?_⟩
  · rw [← h.pageDir, setTask_tasks]
    dsimp only
    split_ifs with hq
    · rw [hd, hq]
    · rfl
  · rw [← h.vap, setTask_tasks]
    dsimp only
    split_ifs with hq
    · rw [hv, hq]
    · rfl

theorem Quiet.setReadyList {l : List ℕ} (h : Quiet m r) : Quiet m (r.setReadyList l) :=
  ⟨h.phys, fun pf => by cases pf <;> [exact h.pap .user; exact h.pap .kernel], h.cr3,
    h.mainThread, h.pageDir, h.vap⟩

theorem Quiet.setAllList {l : List ℕ} (h : Quiet m r) : Quiet m (r.setAllList l) :=
  ⟨h.phys, fun pf => by cases pf <;> [exact h.pap .user; exact h.pap .kernel], h.cr3,
    h.mainThread, h.pageDir, h.vap⟩

theorem Quiet.setPidBitMap {bm : BitMap} (h : Quiet m r) : Quiet m (r.setPidBitMap bm) :=
  ⟨h.phys, fun pf => by cases pf <;> [exact h.pap .user; exact h.pap .kernel], h.cr3,
    h.mainThread, h.pageDir, h.vap⟩

theorem Quiet.setFs {x : Fs} (h : Quiet m r) : Quiet m (r.setFs x) := by
  refine ⟨h.phys, fun pf => by cases pf <;> [exact h.pap .user; exact h.pap .kernel], h.cr3,
    h.mainThread, fun q => ?_, fun q => ?_⟩
  · rw [← h.pageDir, setFs_tasks]
    dsimp only
    split_ifs <;> rfl
  · rw [← h.vap, setFs_tasks]
    dsimp only
    split_ifs <;> rfl

theorem wp_adoptChildren_quiet {pid : ℤ} (h : Quiet m r) :
    wp anyStop e (adoptChildren pid) (fun _ r' => Quiet m r') r := by
  unfold adoptChildren
  rw [wp_modify]
  refine ⟨h.phys, fun pf => by cases pf <;> [exact h.pap .user; exact h.pap .kernel], h.cr3,
    h.mainThread, fun q => ?_, fun q => ?_⟩
  · rw [← h.pageDir]
    dsimp only
    split_ifs <;> rfl
  · rw [← h.vap]
    dsimp only
    split_ifs <;> rfl

theorem wp_threadUnblock_quiet {pcb : ℕ} (h : Quiet m r) :
    wp anyStop e (threadUnblock pcb) (fun _ r' => Quiet m r') r := by
  unfold threadUnblock
  rw [wp_get_bind, wp_assert_bind]
  refine ⟨fun _ => ?_, fun _ => trivial⟩
  dsimp only
  rw [wp_assert_bind]
  refine ⟨fun _ => ?_, fun _ => trivial⟩
  rw [wp_modifyTask_bind, wp_modify]
  apply Quiet.setReadyList
  exact h.setTask rfl rfl

theorem wp_threadBlock_quiet {status : ℤ} (h : Quiet m r) :
    wp anyStop e (threadBlock status) (fun _ r' => Quiet m r') r := by
  unfold threadBlock
  rw [wp_assert_bind]
  refine ⟨fun _ => ?_, fun _ => trivial⟩
  rw [wp_get_bind, wp_assert_bind]
  refine ⟨fun _ => ?_, fun _ => trivial⟩
  rw [wp_modifyTask]
  exact h.setTask rfl rfl

end Quiet

section Exit

/-- The frames in `S` were given back and the entries of pages from `p` on changed. -/
structure Gave (kt : ℕ → ℕ) (m r : Machine) (S : ℕ → Prop) (p cnt : ℕ) : Prop where
  freed : Freed m r S
  touched : Touched kt m r p cnt
  cr3 : r.cr3 = m.cr3
  mainThread : r.mainThread = m.mainThread
  pageDir : ∀ q, (r.tasks q).pageDir = (m.tasks q).pageDir

theorem Gave.quiet {p cnt : ℕ} (h : Gave kt m r S p cnt) (hq : Quiet r r') : Gave kt m r' S p cnt := by
  refine ⟨(h.freed.trans (Freed.of_pap hq.pap)).congr fun g => ⟨fun hx => hx.resolve_right id, .inl⟩,
    ⟨fun c hc => ?_, fun q h1 h2 => ?_⟩, hq.cr3.trans h.cr3, hq.mainThread.trans h.mainThread,
    fun q => (hq.pageDir q).trans (h.pageDir q)⟩
  · rw [hq.phys]
    exact h.touched.frames c hc
  · rw [← h.touched.pages q h1 h2]
    unfold kpte
    rw [hq.phys]

/-- What `sysExit` gives back. -/
def ExitFreed (m : Machine) (L : ExitFrames) (g : ℕ) : Prop :=
  (∃ d, UserTable m d g) ∨
    ∃ q, L.bitMapPage ≤ q ∧ q < L.bitMapPage + bitMapPgCnt ∧ g = L.bitMap q

theorem wp_releaseProgramResource {L : ExitFrames} (h : ExitWf m parent L) (hq : Quiet m r) :
    wp anyStop e (releaseProgramResource m.current)
      (fun _ r' => Gave L.tables m r' (ExitFreed m L) L.bitMapPage bitMapPgCnt) r := by
  have hgeo : PoolGeo r L.kernelBase L.userBase := h.geo.freed (Freed.of_pap hq.pap)
  have ht : Touched L.tables m r L.bitMapPage 0 := .of_phys hq.phys
  have hd : Directory L.tables r r.cr3 := by
    rw [hq.cr3]
    exact h.dir.touched ht h.noTable
  have hD : Mapped L.tables L.kernelBase L.userBase r L.dirPage m.cr3 :=
    h.dirPage.touched ht (by omega)
  have hword : ∀ d < 768, r.phys m.cr3 d < 2 ^ 32 := by
    rw [hq.phys]
    exact h.word
  unfold releaseProgramResource
  rw [wp_get_bind, hq.pageDir, h.dirAddr]
  apply wp_call (wp_of_noStop (wp_releaseDirectory hword hD hgeo hd 768 0 r (by norm_num)
    (Freed.of_pap fun _ => rfl) .refl rfl))
  rintro ⟨⟩ r₁ ⟨hf₁, hs₁, hp₁⟩
  rw [wp_get_bind, hs₁.tasks, hq.vap, h.bitMapAddr]
  have ht₁ : Touched L.tables r r₁ L.bitMapPage 0 := .of_phys hp₁
  have hc : NoTable L.tables r.cr3 := hq.cr3 ▸ h.noTable
  have hd₁ : Directory L.tables r₁ r₁.cr3 := hs₁.cr3 ▸ hd.touched ht₁ hc
  have hc₁ : NoTable L.tables r₁.cr3 := hs₁.cr3 ▸ hc
  have hpos : 0 < bitMapPgCnt := by decide
  apply wp_call (wp_of_noStop (wp_freePage h.distinct (hgeo.freed hf₁) hd₁ hc₁ hpos fun q h1 h2 =>
    ((h.bitMap q h1 h2).touched ht (by omega)).touched ht₁ (by omega)))
  rintro ⟨⟩ r₂ ⟨hf₂, hs₂, ht₂⟩
  apply wp_onFs
  refine wp_iff.mpr ⟨fun _ x _ => ?_, fun _ _ => trivial⟩
  have htouched : Touched L.tables m r₁ L.bitMapPage 0 := ht.trans ht₁ (by omega)
  have hgave : Gave L.tables m r₂ (ExitFreed m L) L.bitMapPage bitMapPgCnt := by
    refine ⟨(((Freed.of_pap hq.pap).trans hf₁).trans hf₂).congr fun g => ?_,
      htouched.trans ht₂ (by omega), ?_, ?_, ?_⟩
    · unfold ExitFreed UserTable
      rw [hq.phys]
      constructor
      · rintro ((hx | (hx | ⟨d, -, h2, hpr, hg⟩)) | hx)
        · exact hx.elim
        · exact hx.elim
        · exact .inl ⟨d, by omega, hpr, hg⟩
        · exact .inr hx
      · rintro (⟨d, h1, hpr, hg⟩ | hx)
        · exact .inl (.inr (.inr ⟨d, by omega, by omega, hpr, hg⟩))
        · exact .inr hx
    · rw [hs₂.cr3, hs₁.cr3, hq.cr3]
    · rw [hs₂.mainThread, hs₁.mainThread, hq.mainThread]
    · intro q
      rw [hs₂.tasks, hs₁.tasks, hq.pageDir]
  exact hgave.quiet Quiet.refl.setFs

theorem wp_sysExit {L : ExitFrames} {status : ℤ} (h : ExitWf m parent L) :
    wp anyStop e (sysExit status)
      (fun _ r => Gave L.tables m r (ExitFreed m L) L.bitMapPage bitMapPgCnt) m := by
  unfold sysExit
  rw [wp_get_bind]
  dsimp only
  rw [wp_modifyTask_bind, wp_assert_bind]
  refine ⟨fun _ => ?_, fun _ => trivial⟩
  have hq₀ : Quiet m (m.setTask m.current { m.tasks m.current with status := status }) :=
    Quiet.refl.setTask rfl rfl
  apply wp_call (wp_adoptChildren_quiet hq₀)
  rintro ⟨⟩ r hq
  apply wp_call (wp_releaseProgramResource h hq)
  rintro ⟨⟩ r₁ hgave
  rw [wp_get_bind]
  cases hfind : r₁.pidToThread (r₁.tasks m.current).parentPid with
  | none => exact wp_halt.mpr trivial
  | some p =>
    apply wp_ite
    · intro _
      apply wp_call (wp_threadUnblock_quiet .refl)
      rintro ⟨⟩ r₂ hq₂
      exact wp_mono (wp_threadBlock_quiet hq₂) fun _ _ hq₃ => hgave.quiet hq₃
    · intro _
      exact wp_mono (wp_threadBlock_quiet .refl) fun _ _ hq₃ => hgave.quiet hq₃

end Exit

section Wait

/-- The running thread of `m` has exited, and `parent` runs now. -/
structure Switched (m r : Machine) (parent : ℕ) (L : ExitFrames) : Prop where
  freed : Freed m r (ExitFreed m L)
  touched : Touched L.tables m r L.bitMapPage bitMapPgCnt
  cr3 : r.cr3 = L.parentDir
  mainThread : r.mainThread = m.mainThread
  pageDir : ∀ q, (r.tasks q).pageDir = (m.tasks q).pageDir

theorem wp_pageDirActivate {L : ExitFrames} (h : ExitWf m parent L)
    (hg : Gave L.tables m r (ExitFreed m L) L.bitMapPage bitMapPgCnt) :
    wp noStop e (pageDirActivate parent) (fun _ r' => r' = r.setCr3 L.parentDir) r := by
  have hdir : Directory L.tables r r.cr3 := hg.cr3 ▸ h.dir.touched hg.touched h.noTable
  have hP := h.parentDirPage.touched hg.touched (h.apart _ (.inr (.inr rfl)))
  have hne : (r.tasks parent).pageDir ≠ 0 := by
    rw [hg.pageDir, h.parentDirAddr]
    have := h.parentDirPage.kernel.1
    omega
  unfold pageDirActivate
  rw [wp_get_bind]
  dsimp only
  rw [if_pos hne, hg.pageDir, h.parentDirAddr]
  apply wp_call (wp_addrV2P hP hdir)
  rintro a r₁ ⟨rfl, hr₁⟩
  have hframe : entryFrame (L.parentDir * 4096) = L.parentDir := Nat.mul_div_cancel _ (by norm_num)
  rw [hr₁, wp_modify, hframe]

theorem wp_switchTo {L : ExitFrames} (h : ExitWf m parent L)
    (hg : Gave L.tables m r (ExitFreed m L) L.bitMapPage bitMapPgCnt) :
    wp noStop e (switchTo parent) (fun _ r' => Switched m r' parent L) r := by
  apply wp_call (wp_pageDirActivate h hg)
  rintro ⟨⟩ r₁ rfl
  rw [wp_modify]
  exact ⟨⟨hg.freed.start, hg.freed.bits, hg.freed.bit⟩, ⟨hg.touched.frames, hg.touched.pages⟩,
    rfl, hg.mainThread, hg.pageDir⟩

/-- What the exit and the reaping give back. -/
def AllFreed (m : Machine) (L : ExitFrames) (g : ℕ) : Prop :=
  ExitFreed m L g ∨ g = m.cr3 ∨ g = L.pcb

/-- The end of `threadExit`, once the thread is off the ready list. -/
theorem wp_exitTail {L : ExitFrames} {dirAddr pcbAddr mainThread : ℕ} {pid : ℤ}
    (h : ExitWf m parent L) (hs : Switched m r parent L) (hdir : dirAddr = L.dirPage * 4096)
    (hpcb : pcbAddr = L.pcbPage * 4096) (hmain : pcbAddr ≠ mainThread) (hq : Quiet r r') :
    wp anyStop e (do
      if dirAddr ≠ 0 then freePage .kernel dirAddr 1
      modify fun m => m.setAllList (m.threadAllList.erase pcbAddr)
      if pcbAddr ≠ mainThread then freePage .kernel pcbAddr 1
      releasePid pid) (fun _ r => Freed m r (AllFreed m L)) r' := by
  have hgeo : PoolGeo r' L.kernelBase L.userBase :=
    (h.geo.freed hs.freed).freed (Freed.of_pap hq.pap)
  have ht : Touched L.tables r r' L.dirPage 0 := .of_phys hq.phys
  have hc : NoTable L.tables r'.cr3 := by
    rw [hq.cr3, hs.cr3]
    exact h.parentNoTable
  have hd : Directory L.tables r' r'.cr3 := by
    rw [hq.cr3, hs.cr3]
    exact (h.parentDir.touched hs.touched h.parentNoTable).touched ht h.parentNoTable
  have hD : Mapped L.tables L.kernelBase L.userBase r' L.dirPage m.cr3 :=
    (h.dirPage.touched hs.touched (h.apart _ (.inr (.inl rfl)))).touched ht (by omega)
  have hC : Mapped L.tables L.kernelBase L.userBase r' L.pcbPage L.pcb :=
    (h.pcb.touched hs.touched (h.apart _ (.inl rfl))).touched ht (by omega)
  have hne : dirAddr ≠ 0 := by
    have := hD.kernel.1
    omega
  have hpages := h.pages
  have hone : ∀ {r : Machine} {p g : ℕ}, Mapped L.tables L.kernelBase L.userBase r p g →
      ∀ q, p ≤ q → q < p + 1 → Mapped L.tables L.kernelBase L.userBase r q g := by
    intro r p g hp q h1 h2
    obtain rfl : q = p := by omega
    exact hp
  rw [if_pos hne, hdir]
  apply wp_call (wp_of_noStop (wp_freePage h.distinct hgeo hd hc one_pos (hone hD)))
  rintro ⟨⟩ r₁ ⟨hf₁, hs₁, ht₁⟩
  rw [wp_modify_bind, if_pos hmain, hpcb]
  set r₂ := r₁.setAllList (r₁.threadAllList.erase (L.pcbPage * 4096)) with hr₂
  have hq₂ : Quiet r₁ r₂ := Quiet.refl.setAllList
  have ht₂ : Touched L.tables r₁ r₂ L.dirPage 0 := .of_phys rfl
  have hc₂ : NoTable L.tables r₂.cr3 := by
    change NoTable L.tables r₁.cr3
    rw [hs₁.cr3]
    exact hc
  have hd₂ : Directory L.tables r₂ r₂.cr3 := by
    change Directory L.tables r₂ r₁.cr3
    rw [hs₁.cr3]
    exact (hd.touched ht₁ hc).touched ht₂ hc
  have hgeo₂ : PoolGeo r₂ L.kernelBase L.userBase :=
    (hgeo.freed hf₁).freed (Freed.of_pap hq₂.pap)
  have hC₂ : Mapped L.tables L.kernelBase L.userBase r₂ L.pcbPage L.pcb :=
    (hC.touched ht₁ (by omega)).touched ht₂ (by omega)
  apply wp_call (wp_of_noStop (wp_freePage h.distinct hgeo₂ hd₂ hc₂ one_pos (hone hC₂)))
  rintro ⟨⟩ r₃ ⟨hf₃, -, -⟩
  unfold releasePid
  rw [wp_modify]
  have hlast : Freed r₃ (r₃.setPidBitMap (bitMapSet r₃.pidBitMap ((pid - 1) % 2 ^ 32).toNat false))
      fun _ => False := Freed.of_pap (Quiet.refl.setPidBitMap).pap
  refine (((((hs.freed.trans (Freed.of_pap hq.pap)).trans hf₁).trans
    (Freed.of_pap hq₂.pap)).trans hf₃).trans hlast).congr fun g => ?_
  unfold AllFreed
  constructor
  · rintro (((((hg | hg) | ⟨q, -, -, hg⟩) | hg) | ⟨q, -, -, hg⟩) | hg)
    · exact .inl hg
    · exact hg.elim
    · exact .inr (.inl hg)
    · exact hg.elim
    · exact .inr (.inr hg)
    · exact hg.elim
  · rintro (hg | hg | hg)
    · exact .inl (.inl (.inl (.inl (.inl hg))))
    · exact .inl (.inl (.inl (.inr ⟨L.dirPage, le_rfl, by omega, hg⟩)))
    · exact .inl (.inr ⟨L.pcbPage, le_rfl, by omega, hg⟩)

theorem wp_threadExit {L : ExitFrames} (h : ExitWf m parent L) (hs : Switched m r parent L) :
    wp anyStop e (threadExit m.current) (fun _ r' => Freed m r' (AllFreed m L)) r := by
  have hq₀ : Quiet r (r.setTask m.current { r.tasks m.current with status := TaskStatus.died }) :=
    Quiet.refl.setTask rfl rfl
  have hdir : ((r.setTask m.current { r.tasks m.current with status := TaskStatus.died }).tasks
      m.current).pageDir = L.dirPage * 4096 := by
    rw [hq₀.pageDir, hs.pageDir, h.dirAddr]
  have hmain : m.current ≠ r.mainThread := by
    rw [hs.mainThread]
    exact h.notMain
  unfold threadExit
  rw [wp_modifyTask_bind, wp_get_bind]
  apply wp_ite
  · intro _
    rw [wp_modify_bind]
    exact wp_exitTail h hs hdir h.pcbAddr hmain hq₀.setReadyList
  · exact fun _ => wp_exitTail h hs hdir h.pcbAddr hmain hq₀

/-- Exactly these frames are given back. -/
theorem Reaped.freed {L : ExitFrames} (hr : Reaped m m' parent) (h : ExitWf m parent L) :
    Freed m m' (AllFreed m L) := by
  obtain ⟨e, status, st, pid, hret⟩ := hr
  have hw : wp anyStop e (exitAndWait status m.current parent) (fun x r =>
      ∀ st pid, x = .reaped st pid → Freed m r (AllFreed m L)) m := by
    apply wp_call (wp_sysExit h)
    rintro ⟨⟩ r₁ hgave
    apply wp_call (wp_of_noStop (wp_switchTo h hgave))
    rintro ⟨⟩ r₂ hs
    rw [wp_get_bind, wp_assert_bind]
    refine ⟨fun hfind => ?_, fun _ => trivial⟩
    unfold sysWait
    rw [wp_get_bind]
    dsimp only
    unfold findHangingChild at hfind
    rw [hfind]
    apply wp_call (wp_threadExit h hs)
    rintro ⟨⟩ r hf
    exact wp_pure.mpr fun _ _ _ => hf
  exact hret.of_wp hw st pid rfl

end Wait

section Law

theorem ExitWf.held_iff {L : ExitFrames} (h : ExitWf m parent L) :
    Held m f ↔ UserPage m f ∨ AllFreed m L f := by
  have hD := h.dirPage.walk h.dir (o := 0) (by norm_num)
  have hC := h.pcb.walk h.dir (o := 0) (by norm_num)
  rw [Nat.add_zero] at hD hC
  have hB : ∀ i < bitMapPgCnt,
      m.walk (L.bitMapPage * 4096 + i * 4096) = some (L.bitMap (L.bitMapPage + i)) := by
    intro i hi
    have hq := (h.bitMap (L.bitMapPage + i) (by omega) (by omega)).walk h.dir (o := 0) (by norm_num)
    rwa [Nat.add_zero, Nat.add_mul] at hq
  unfold Held AllFreed ExitFreed
  rw [h.dirAddr, h.bitMapAddr, h.pcbAddr, hD, hC]
  simp only [Option.some.injEq]
  constructor
  · rintro (hp | ht | rfl | ⟨i, hi, hf⟩ | rfl)
    · exact .inl hp
    · exact .inr (.inl (.inl ht))
    · exact .inr (.inr (.inl rfl))
    · rw [hB i hi, Option.some.injEq] at hf
      exact .inr (.inl (.inr ⟨L.bitMapPage + i, by omega, by omega, hf.symm⟩))
    · exact .inr (.inr (.inr rfl))
  · rintro (hp | (ht | ⟨q, h1, h2, rfl⟩) | rfl | rfl)
    · exact .inl hp
    · exact .inr (.inl ht)
    · refine .inr (.inr (.inr (.inl ⟨q - L.bitMapPage, by omega, ?_⟩)))
      rw [hB _ (by omega), Nat.add_sub_cancel' h1]
    · exact .inr (.inr (.inl rfl))
    · exact .inr (.inr (.inr (.inr rfl)))

/-- The frames that are given back are of the kernel's pool. -/
theorem ExitWf.allFreed_lt {L : ExitFrames} (h : ExitWf m parent L) (hf : AllFreed m L f) :
    f < L.userBase := by
  rcases hf with (⟨d, hd⟩ | ⟨q, h1, h2, rfl⟩) | rfl | rfl
  · exact h.userTable d f hd
  · exact (h.bitMap q h1 h2).pool.2
  · exact h.dirPage.pool.2
  · exact h.pcb.pool.2

/-- The frame of a page that was mapped stays in use. -/
theorem ExitWf.leak {L : ExitFrames} (h : ExitWf m parent L) (hr : Reaped m m' parent)
    (hp : UserPage m f) : ¬GivesBack m m' := by
  intro hback
  obtain ⟨n, hn, rfl, hbit⟩ := h.userPage f hp
  have hframe : m.frame .user n = L.userBase + n := by
    change m.userPap.startAddr / 4096 + n = _
    rw [h.geo.ustart, Nat.mul_div_cancel _ (by norm_num)]
  have hstays : (m'.pap .user).bitMap.bit n = true := by
    refine ((hr.freed h).bit .user n hn).mpr ⟨hbit, fun hf => ?_⟩
    rw [hframe] at hf
    have := h.allFreed_lt hf
    omega
  refine ((hback .user n hn).mp hstays).2 ?_
  rw [hframe]
  exact .inl hp

/-- Memory is given back exactly when no page of user space is mapped. -/
theorem exit_law {L : ExitFrames} (h : ExitWf m parent L) (hr : Reaped m m' parent) :
    GivesBack m m' ↔ NoUserPage m := by
  constructor
  · exact fun hback t ht => h.leak hr ht hback
  · intro hnone pf n hn
    rw [(hr.freed h).bit pf n hn, h.held_iff]
    have := hnone (m.frame pf n)
    tauto

/-- The entries of a directory in frame `f` for the kernel. -/
def sampleEntries (f i : ℕ) : ℕ :=
  if 768 ≤ i ∧ i < 1023 then mkEntry ((0x101 + (i - 768)) * 4096)
  else if i = 1023 then mkEntry (f * 4096) else 0

/-- The first pages of the kernel heap are mapped to the first frames of its pool, and the
directories in the frames `0x202` and `0x203` have no table for user space. -/
def samplePhys (f i : ℕ) : ℕ :=
  if f = 0x202 ∨ f = 0x203 then sampleEntries f i
  else if f = 0x101 ∧ 0x100 ≤ i then mkEntry ((0x100 + i) * 4096) else 0

/-- Besides, page 8 of user space is mapped to the second frame of the user pool. -/
def userPhys (f i : ℕ) : ℕ :=
  if f = 0x202 ∧ i = 0 then mkEntry (0x204 * 4096)
  else if f = 0x204 ∧ i = 8 then mkEntry (0x1101 * 4096) else samplePhys f i

def sampleTask (pid parentPid status : ℤ) (pageDir : ℕ) : TaskStruct where
  status := status
  pid := pid
  priority := 31
  name := []
  ticks := 31
  elapsedTicks := 0
  fdTable := fun _ => -1
  pageDir := pageDir
  umbdArr := memBlockDescInit
  vap := ⟨⟨0x17fff, fun _ => 0⟩, 0xc0110000, 0x8000⟩
  cwdIno := 0
  parentPid := parentPid
  stackMagicNum := 0
  eax := 0

/-- Process 5 runs, and its parent 4 waits. -/
def exitMachine (phys : ℕ → ℕ → ℕ) : Machine where
  phys := phys
  cr3 := 0x202
  kernelPap := ⟨⟨480, fun i => if i < 8 then 0xff else 0⟩, 0x200000⟩
  userPap := ⟨⟨480, fun i => if i = 0 then 2 else 0⟩, 0x1100000⟩
  kernelVap := ⟨⟨480, fun i => if i < 8 then 0xff else 0⟩, 0, 0xc0100000⟩
  pidBitMap := ⟨128, fun i => if i = 0 then 0xff else 0⟩
  tasks := fun p => if p = 0xc0100000 then sampleTask 5 4 TaskStatus.running 0xc0102000
    else sampleTask 4 1 TaskStatus.waiting 0xc0103000
  current := 0xc0100000
  mainThread := 0xc009e000
  idleThread := 0xc0105000
  threadReadyList := []
  threadAllList := [0xc0101000, 0xc0100000]
  vol := sampleVolume
  fileTable := fun _ => ⟨0, 0, none⟩

def sampleFrames : ExitFrames where
  tables d := 0x101 + (d - 768)
  kernelBase := 0x200
  userBase := 0x1100
  parentDir := 0x203
  pcbPage := 0xc0100
  pcb := 0x200
  dirPage := 0xc0102
  bitMapPage := 0xc0110
  bitMap q := 0x200 + (q - 0xc0100)
  parentDirPage := 0xc0103

theorem samplePhys_heap {j : ℕ} : samplePhys 0x101 (0x100 + j) = mkEntry ((0x200 + j) * 4096) := by
  unfold samplePhys
  rw [if_neg (by decide), if_pos ⟨rfl, Nat.le_add_right _ _⟩, ← Nat.add_assoc]

theorem samplePhys_dir {c i : ℕ} (hc : c = 0x202 ∨ c = 0x203) :
    samplePhys c i = sampleEntries c i := if_pos hc

theorem sampleEntries_table {c d : ℕ} (hd : 768 ≤ d) (hd' : d < 1023) :
    sampleEntries c d = mkEntry ((0x101 + (d - 768)) * 4096) := if_pos ⟨hd, hd'⟩

theorem sampleEntries_self {c : ℕ} : sampleEntries c 1023 = mkEntry (c * 4096) := by
  unfold sampleEntries
  rw [if_neg (by decide), if_pos rfl]

section Sample

variable {phys : ℕ → ℕ → ℕ}

/-- The kernel's part of memory is that of `samplePhys`. -/
def SampleKernel (phys : ℕ → ℕ → ℕ) : Prop :=
  ∀ f i, (f = 0x202 → 768 ≤ i) → f ≠ 0x204 → phys f i = samplePhys f i

theorem sample_directory (h : SampleKernel phys) {c : ℕ} (hc : c = 0x202 ∨ c = 0x203) :
    Directory sampleFrames.tables (exitMachine phys) c := by
  have hne : c ≠ 0x204 := by
    rcases hc with rfl | rfl <;> decide
  refine ⟨fun d hd hd' => ?_, ?_⟩
  · have hphys : (exitMachine phys).phys c d = mkEntry ((0x101 + (d - 768)) * 4096) := by
      change phys c d = _
      rw [h c d (fun _ => hd) hne, samplePhys_dir hc, sampleEntries_table hd hd']
    rw [hphys]
    exact ⟨present_mkEntry _, entryFrame_mkEntry _⟩
  · change phys c 1023 = _
    rw [h c 1023 (fun _ => by norm_num) hne, samplePhys_dir hc, sampleEntries_self]

theorem sample_mapped (h : SampleKernel phys) {q : ℕ} (hlo : 0xc0100 ≤ q) (hhi : q < 0xc0400) :
    Mapped sampleFrames.tables 0x200 0x1100 (exitMachine phys) q (0x200 + (q - 0xc0100)) := by
  have hdiv : q / 1024 = 768 := by omega
  have hmod : q % 1024 = 0x100 + (q - 0xc0100) := by omega
  have hkpte : kpte sampleFrames.tables (exitMachine phys) q =
      mkEntry ((0x200 + (q - 0xc0100)) * 4096) := by
    unfold kpte
    rw [hdiv, hmod]
    change phys 0x101 _ = _
    rw [h 0x101 _ (fun hc => absurd hc (by decide)) (by decide), samplePhys_heap]
  refine ⟨by unfold KernelPage; omega, ?_, ?_, by omega⟩
  · rw [hkpte]
    exact present_mkEntry _
  · rw [hkpte]
    exact entryFrame_mkEntry _

theorem sample_noTable {c : ℕ} (hc : c = 0x202 ∨ c = 0x203) : NoTable sampleFrames.tables c := by
  intro d hd hd'
  change 0x101 + (d - 768) ≠ c
  omega

theorem sample_wf (h : SampleKernel phys) (hword : ∀ d < 768, phys 0x202 d < 2 ^ 32)
    (htable : ∀ d t, UserTable (exitMachine phys) d t → t < 0x1100)
    (hpage : ∀ t, UserPage (exitMachine phys) t → ∃ n < (exitMachine phys).userPap.bitMap.bits,
      t = 0x1100 + n ∧ (exitMachine phys).userPap.bitMap.bit n = true) :
    ExitWf (exitMachine phys) 0xc0101000 sampleFrames := by
  have hpages : bitMapPgCnt = 24 := by decide
  have hmapped : ∀ q, 0xc0100 ≤ q → q < 0xc0400 → Mapped sampleFrames.tables 0x200 0x1100
      (exitMachine phys) q (0x200 + (q - 0xc0100)) := fun q => sample_mapped h
  have hlow : 0x200 + 8 * 480 ≤ 0x1100 := by norm_num
  have hhigh : 0x1100 + 8 * 480 ≤ 2 ^ 20 := by norm_num
  have hne : (0xc0100000 : ℕ) ≠ 0xc009e000 := by norm_num
  refine ⟨⟨rfl, rfl, by decide, hlow, hhigh⟩, fun d d' h1 h2 h3 h4 heq => ?_,
    sample_directory h (.inl rfl), sample_noTable (.inl rfl), sample_directory h (.inr rfl),
    sample_noTable (.inr rfl), hword, rfl, hmapped 0xc0100 (by norm_num) (by norm_num), rfl,
    hmapped 0xc0102 (by norm_num) (by norm_num), rfl,
    hmapped 0xc0103 (by norm_num) (by norm_num), rfl, fun q h1 h2 => ?_, fun q hq => ?_,
    by decide, hne, htable, hpage⟩
  · change 0x101 + (d - 768) = 0x101 + (d' - 768) at heq
    omega
  · change 0xc0110 ≤ q at h1
    change q < 0xc0110 + bitMapPgCnt at h2
    exact hmapped q (by omega) (by omega)
  · change q = 0xc0100 ∨ q = 0xc0102 ∨ q = 0xc0103 at hq
    change ¬(0xc0110 ≤ q ∧ _)
    omega

end Sample

theorem samplePhys_noTable {d t : ℕ} : ¬UserTable (exitMachine samplePhys) d t := by
  rintro ⟨hd, hp, -⟩
  have hzero : (exitMachine samplePhys).phys (exitMachine samplePhys).cr3 d = 0 := by
    change samplePhys 0x202 d = 0
    rw [samplePhys_dir (.inl rfl)]
    unfold sampleEntries
    rw [if_neg (by omega), if_neg (by omega)]
  rw [hzero] at hp
  exact absurd hp (by decide)

theorem samplePhys_wf : ExitWf (exitMachine samplePhys) 0xc0101000 sampleFrames := by
  refine sample_wf (fun _ _ _ _ => rfl) (fun d hd => ?_) (fun d t ht => (samplePhys_noTable ht).elim)
    fun t ⟨d, _, ht, _⟩ => (samplePhys_noTable ht).elim
  rw [samplePhys_dir (.inl rfl)]
  unfold sampleEntries
  rw [if_neg (by omega), if_neg (by omega)]
  norm_num

/-- The process has no page in user space. -/
theorem exit_law_sample : Reaped (exitMachine samplePhys)
      (exitAndWait 7 0xc0100000 0xc0101000 sampleHeap 0 (exitMachine samplePhys)).state 0xc0101000 ∧
    GivesBack (exitMachine samplePhys)
      (exitAndWait 7 0xc0100000 0xc0101000 sampleHeap 0 (exitMachine samplePhys)).state := by
  have hr : Reaped (exitMachine samplePhys)
      (exitAndWait 7 0xc0100000 0xc0101000 sampleHeap 0 (exitMachine samplePhys)).state
      0xc0101000 := ⟨sampleHeap, 7, 4, 5, .of_value (by decide +kernel)⟩
  exact ⟨hr, (exit_law samplePhys_wf hr).mpr fun t ⟨d, _, ht, _⟩ => samplePhys_noTable ht⟩

theorem userPhys_table {d t : ℕ} (h : UserTable (exitMachine userPhys) d t) : t = 0x204 := by
  obtain ⟨hd, hp, rfl⟩ := h
  have hword : (exitMachine userPhys).phys (exitMachine userPhys).cr3 d = userPhys 0x202 d := rfl
  rw [hword] at hp ⊢
  unfold userPhys at hp ⊢
  by_cases h0 : d = 0
  · rw [if_pos ⟨rfl, h0⟩]
    exact entryFrame_mkEntry _
  · rw [if_neg (by tauto), if_neg (by omega), samplePhys_dir (.inl rfl)] at hp
    unfold sampleEntries at hp
    rw [if_neg (by omega), if_neg (by omega)] at hp
    exact absurd hp (by decide)

theorem userPhys_page {t : ℕ} (h : UserPage (exitMachine userPhys) t) : t = 0x1101 := by
  obtain ⟨d, tb, ht, i, hi, hp, rfl⟩ := h
  obtain rfl := userPhys_table ht
  have hword : (exitMachine userPhys).phys 0x204 i = userPhys 0x204 i := rfl
  rw [hword] at hp ⊢
  unfold userPhys at hp ⊢
  by_cases h8 : i = 8
  · rw [if_neg (by omega), if_pos ⟨rfl, h8⟩]
    exact entryFrame_mkEntry _
  · rw [if_neg (by omega), if_neg (by tauto)] at hp
    unfold samplePhys at hp
    rw [if_neg (by decide), if_neg (by omega)] at hp
    exact absurd hp (by decide)

theorem userPhys_wf : ExitWf (exitMachine userPhys) 0xc0101000 sampleFrames := by
  refine sample_wf (fun f i h2 h4 => ?_) (fun d hd => ?_) (fun d t ht => ?_) fun t ht => ?_
  · unfold userPhys
    rw [if_neg, if_neg]
    · exact fun h => h4 h.1
    · rintro ⟨rfl, rfl⟩
      exact absurd (h2 rfl) (by norm_num)
  · unfold userPhys
    split_ifs with h0 h8
    · decide
    · decide
    · rw [samplePhys_dir (.inl rfl)]
      unfold sampleEntries
      rw [if_neg (by omega), if_neg (by omega)]
      norm_num
  · rw [userPhys_table ht]
    norm_num
  · exact ⟨1, by decide, userPhys_page ht, by decide⟩

/-- The process has one page in user space, and its frame stays in use. -/
theorem exit_law_fails : Reaped (exitMachine userPhys)
      (exitAndWait 7 0xc0100000 0xc0101000 sampleHeap 0 (exitMachine userPhys)).state 0xc0101000 ∧
    UserPage (exitMachine userPhys) 0x1101 ∧
    ¬GivesBack (exitMachine userPhys)
      (exitAndWait 7 0xc0100000 0xc0101000 sampleHeap 0 (exitMachine userPhys)).state := by
  have hr : Reaped (exitMachine userPhys)
      (exitAndWait 7 0xc0100000 0xc0101000 sampleHeap 0 (exitMachine userPhys)).state
      0xc0101000 := ⟨sampleHeap, 7, 4, 5, .of_value (by decide +kernel)⟩
  have hp : UserPage (exitMachine userPhys) 0x1101 :=
    ⟨0, 0x204, ⟨by decide, by decide, by decide⟩, 8, by norm_num, by decide, by decide⟩
  exact ⟨hr, hp, userPhys_wf.leak hr hp⟩

end Law

end Gogoos.Machine
