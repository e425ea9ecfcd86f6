import Gogoos.Kernel.Pages
import Gogoos.Fs.Slots

/-!
# What fork does to the records of the kernel

A call of `sysFork` writes one PCB, on a page that was free, and appends it to the lists of
threads when it succeeds; the other PCBs and the table of open files stay as they are.
-/

namespace Gogoos

open Program

variable {e : Heap} {m m' m₁ m₂ : Machine} {c p vaddr cnt : ℕ}

/-- Of the records only the PCB at `c` may change, and no page of the kernel heap is given
back. -/
structure ForkFrame (c : ℕ) (m m' : Machine) : Prop where
  tasks : ∀ q, q ≠ c → m'.tasks q = m.tasks q
  current : m'.current = m.current
  mainThread : m'.mainThread = m.mainThread
  idleThread : m'.idleThread = m.idleThread
  ready : m'.threadReadyList = m.threadReadyList
  all : m'.threadAllList = m.threadAllList
  fileTable : m'.fileTable = m.fileTable
  start : m'.kernelVap.startAddr = m.kernelVap.startAddr
  bits : m'.kernelVap.bitMap.bits = m.kernelVap.bitMap.bits
  mono : ∀ n, m.kernelVap.bitMap.bit n = true → m'.kernelVap.bitMap.bit n = true

namespace ForkFrame

theorem of_memOnly (h : MemOnly m m') : ForkFrame c m m' :=
  ⟨fun _ _ => by rw [h.tasks], h.current, h.mainThread, h.idleThread, h.ready, h.all, h.fileTable,
    h.start, h.bits, h.mono⟩

theorem trans (h : ForkFrame c m m₁) (h' : ForkFrame c m₁ m₂) : ForkFrame c m m₂ :=
  ⟨fun q hq => (h'.tasks q hq).trans (h.tasks q hq), h'.current.trans h.current,
    h'.mainThread.trans h.mainThread, h'.idleThread.trans h.idleThread, h'.ready.trans h.ready,
    h'.all.trans h.all, h'.fileTable.trans h.fileTable, h'.start.trans h.start,
    h'.bits.trans h.bits, fun n hn => h'.mono n (h.mono n hn)⟩

theorem setTask (m : Machine) (c : ℕ) (t : TaskStruct) : ForkFrame c m (m.setTask c t) :=
  ⟨fun q hq => by simp [hq], rfl, rfl, rfl, rfl, rfl, rfl, rfl, rfl, fun _ => id⟩

theorem setPidBitMap (m : Machine) (bm : BitMap) : ForkFrame c m (m.setPidBitMap bm) :=
  ⟨fun _ _ => rfl, rfl, rfl, rfl, rfl, rfl, rfl, rfl, rfl, fun _ => id⟩

theorem heapRange (h : ForkFrame c m m') (hm : HeapRange m) : HeapRange m' :=
  hm.congr h.start h.bits

theorem used (h : ForkFrame c m m') (hu : UsedPages m cnt vaddr) : UsedPages m' cnt vaddr :=
  fun n hn j h1 h2 => h.mono j (hu n (h.start ▸ hn) j h1 h2)

/-- Pages that are free later were free before. -/
theorem fresh (h : ForkFrame c m m') (hf : FreshPages m' cnt vaddr) : FreshPages m cnt vaddr := by
  obtain ⟨n, hn, hle, hclear⟩ := hf.page
  refine ⟨n, h.start ▸ hn, h.bits ▸ hle, fun j h1 h2 => ?_⟩
  cases hb : m.kernelVap.bitMap.bit j with
  | false => rfl
  | true => simpa [hclear j h1 h2] using h.mono j hb

end ForkFrame

theorem MemOnly.heapRange (h : MemOnly m m') (hm : HeapRange m) : HeapRange m' :=
  hm.congr h.start h.bits

/-- A page in use is none of the pages that are free. -/
theorem FreshPages.ne_used {k l : ℕ} (hf : FreshPages m cnt (m.kernelVap.startAddr + k * 4096))
    (hu : UsedPages m 1 (m.kernelVap.startAddr + l * 4096)) : ¬(k ≤ l ∧ l < k + cnt) := by
  rintro ⟨h1, h2⟩
  obtain ⟨n, hn, -, hclear⟩ := hf.page
  have hused := hu l rfl l le_rfl (by omega)
  rw [hclear l (by omega) (by omega)] at hused
  simp at hused

/-- The new PCB: a copy of the parent's descriptors, with a bitmap on fresh pages. -/
structure Cloned (m m' : Machine) (c p : ℕ) : Prop where
  fdTable : (m'.tasks c).fdTable = (m.tasks p).fdTable
  status : (m'.tasks c).status = TaskStatus.ready
  fresh : FreshPages m bitMapPgCnt (m'.tasks c).vap.bitMapAddr
  used : UsedPages m' bitMapPgCnt (m'.tasks c).vap.bitMapAddr

theorem bitMapPgCnt_eq : bitMapPgCnt = 24 := rfl

theorem wp_forkPid_bind {α : Type} {Q : α → Machine → Prop} {f : ℤ → KernelM α}
    (h : ∀ pid bm, wp anyStop e (f pid) Q (m.setPidBitMap bm)) :
    wp anyStop e (forkPid >>= f) Q m := by
  unfold forkPid allocatePid
  rw [wp_bind_assoc, wp_get_bind]
  cases bitMapScanAndSet m.pidBitMap 1 true with
  | mk r bm =>
    cases r with
    | none => exact h 0 m.pidBitMap
    | some i => exact h _ bm

theorem wp_copyPcbVaddrBitMapStack0 (hm : HeapRange m) :
    wp anyStop e (copyPcbVaddrBitMapStack0 c p)
      (fun ok m' => ForkFrame c m m' ∧ (ok = true → Cloned m m' c p)) m := by
  unfold copyPcbVaddrBitMapStack0
  rw [wp_modify_bind]
  apply wp_forkPid_bind
  intro pid bm
  rw [wp_get_bind, wp_modifyTask_bind]
  set m₁ := ((m.setTask c (m.tasks p)).setPidBitMap bm).setTask c _ with hm₁
  have h₁ : ForkFrame c m m₁ :=
    ((ForkFrame.setTask _ _ _).trans (.setPidBitMap _ _)).trans (.setTask _ _ _)
  have hfd : (m₁.tasks c).fdTable = (m.tasks p).fdTable := by simp [hm₁]
  have hstatus : (m₁.tasks c).status = TaskStatus.ready := by simp [hm₁]
  clear_value m₁
  apply wp_call (wp_getKernelPages (h₁.heapRange hm) (by norm_num [bitMapPgCnt_eq]))
  rintro (_ | vb) m₂ ⟨h₂, hpages⟩
  · exact wp_pure.mpr ⟨h₁.trans (.of_memOnly h₂), fun h => by simp at h⟩
  obtain ⟨hfresh, hused⟩ := hpages vb rfl
  rw [wp_get_bind, wp_modifyTask_bind, wp_get_bind, wp_assert_bind]
  refine ⟨fun _ => ?_, fun _ => trivial⟩
  rw [wp_modifyTask_bind, wp_pure]
  refine ⟨((h₁.trans (.of_memOnly h₂)).trans (.setTask _ _ _)).trans (.setTask _ _ _),
    fun _ => ⟨?_, ?_, ?_, ?_⟩⟩
  · simp [h₂.tasks, hfd]
  · simp [h₂.tasks, hstatus]
  · simpa using h₁.fresh hfresh
  · exact ((ForkFrame.setTask m₂ c _).trans (.setTask _ c _)).used (by simpa using hused)

theorem Cloned.memOnly (h : Cloned m m₁ c p) (hm : MemOnly m₁ m₂) : Cloned m m₂ c p := by
  refine ⟨?_, ?_, ?_, ?_⟩
  · rw [hm.tasks, h.fdTable]
  · rw [hm.tasks, h.status]
  · rw [hm.tasks]
    exact h.fresh
  · rw [hm.tasks]
    exact h.used.mono hm

theorem wp_pageDirCreate (hm : HeapRange m) :
    wp anyStop e pageDirCreate (fun r m' => MemOnly m m' ∧ ∀ d, r = some d → d ≠ 0) m := by
  have hpos := hm.pos
  unfold pageDirCreate
  apply wp_call (wp_getKernelPages hm one_pos)
  rintro (_ | d) m₁ ⟨h₁, hpages⟩
  · exact wp_pure.mpr ⟨h₁, fun d hd => by simp at hd⟩
  obtain ⟨n, hn, -⟩ := (hpages d rfl).1.page
  apply wp_call (keeps_copyKernelEntries e m₁)
  intro _ m₂ h₂
  apply wp_call (keeps_addrV2P e m₂)
  intro _ m₃ h₃
  apply wp_call (keeps_store e m₃)
  intro _ m₄ h₄
  refine wp_pure.mpr ⟨((h₁.trans h₂).trans h₃).trans h₄, fun d' hd => ?_⟩
  obtain rfl : d = d' := Option.some.inj hd
  omega

section Body

theorem keeps_copyUserPage (child parent buf v : ℕ) :
    Keeps MemOnly (copyUserPage child parent buf v) :=
  keeps_copyPage.bind fun _ => (keeps_pageDirActivate _).bind fun _ =>
    (keeps_getOnePageWithoutVBM _).bind fun _ => keeps_copyPage.bind fun _ =>
      keeps_pageDirActivate _

theorem keeps_copyBits (child parent buf : ℕ) (byte : UInt8) (start idxByte : ℕ) : ∀ cnt idxBit,
    Keeps MemOnly (copyBits child parent buf byte start idxByte cnt idxBit) := by
  intro cnt
  induction cnt with
  | zero => exact fun _ => keeps_pure ()
  | succ cnt ih =>
    intro idxBit
    apply Keeps.ite
    · exact (keeps_copyUserPage _ _ _ _).bind fun _ => ih _
    · exact ih _

theorem keeps_copyBytes (child parent buf : ℕ) (vap : VirtualAddrPool) : ∀ cnt idxByte,
    Keeps MemOnly (copyBytes child parent buf vap cnt idxByte) := by
  intro cnt
  induction cnt with
  | zero => exact fun _ => keeps_pure ()
  | succ cnt ih =>
    intro idxByte
    apply Keeps.ite
    · exact (keeps_copyBits _ _ _ _ _ _ _ _).bind fun _ => ih _
    · exact ih _

theorem keeps_copyBodyStack3 (child parent buf : ℕ) :
    Keeps MemOnly (copyBodyStack3 child parent buf) :=
  .get_bind fun _ => keeps_copyBytes _ _ _ _ _ _

end Body

section OpenAgain

/-- Raising open counts leaves descriptors and slots alone. -/
theorem wp_openAgain (fdTable : ℕ → ℤ) : ∀ cnt localFd (fs : Fs),
    wp anyStop e (openAgain fdTable cnt localFd)
      (fun _ fs' => fs'.fdTable = fs.fdTable ∧ fs'.fileTable = fs.fileTable) fs := by
  intro cnt
  induction cnt with
  | zero => exact fun _ fs => wp_pure.mpr ⟨rfl, rfl⟩
  | succ cnt ih =>
    intro localFd fs
    unfold openAgain
    rw [wp_assert_bind]
    refine ⟨fun _ => ?_, fun _ => trivial⟩
    apply wp_ite
    · intro _
      rw [wp_assert_bind]
      refine ⟨fun _ => ?_, fun _ => trivial⟩
      unfold slotInode
      rw [wp_bind_assoc, wp_get_bind]
      cases (fs.fileTable (fdTable localFd).toNat).fdInode with
      | none => exact wp_halt_bind.mpr trivial
      | some p =>
        rw [wp_pure_bind]
        apply wp_onVol_any_bind
        exact fun _ v => ih _ (fs.setVol v)
    · exact fun _ => ih _ fs

theorem setFs_fdTable (m : Machine) {fs : Fs} (h : fs.fdTable = m.fs.fdTable) :
    (m.setFs fs).tasks = m.tasks := by
  funext q
  simp only [Machine.setFs_tasks]
  split_ifs with hq
  · rw [h, hq]
    rfl
  · rfl

theorem wp_updateInodeOpenCnt_bind {α : Type} {Q : α → Machine → Prop} {f : Unit → KernelM α}
    (h : ∀ m', ForkFrame c m m' → m'.tasks = m.tasks → wp anyStop e (f ()) Q m') :
    wp anyStop e (updateInodeOpenCnt p >>= f) Q m := by
  unfold updateInodeOpenCnt
  rw [wp_bind_assoc, wp_get_bind]
  apply wp_onFs_bind
  refine wp_mono (wp_openAgain _ _ _ _) fun _ fs' hfs => h _ ?_ (setFs_fdTable m hfs.1)
  refine ⟨fun q _ => ?_, rfl, rfl, rfl, rfl, rfl, hfs.2, rfl, rfl, fun _ => id⟩
  rw [setFs_fdTable m hfs.1]

end OpenAgain

/-- Pages stay in use when one other page is given back. -/
theorem UsedPages.setKernelVap {k : ℕ} (hu : UsedPages m cnt vaddr)
    (h : ∀ n, vaddr = m.kernelVap.startAddr + n * 4096 → ¬(n ≤ k ∧ k < n + cnt)) :
    UsedPages (m.setKernelVap (bitMapSetRun m.kernelVap.bitMap false 1 k)) cnt vaddr := by
  intro n hn j h1 h2
  have hjk : j ≠ k := by
    rintro rfl
    exact h n hn ⟨h1, h2⟩
  change (bitMapSetRun m.kernelVap.bitMap false 1 k).bit j = true
  rw [bitMapSetRun_bit, if_neg (by omega)]
  exact hu n hn j h1 h2

theorem wp_copyProcess (hm : HeapRange m) :
    wp anyStop e (copyProcess c p) (fun ok m' => ForkFrame c m m' ∧
      (ok = true → Cloned m m' c p ∧ (m'.tasks c).pageDir ≠ 0)) m := by
  unfold copyProcess
  apply wp_call (wp_getKernelPages hm one_pos)
  rintro (_ | buf) m₁ ⟨h₁, hpages⟩
  · exact wp_pure.mpr ⟨.of_memOnly h₁, fun h => by simp at h⟩
  obtain ⟨hfresh, hused⟩ := hpages buf rfl
  have hm₁ := h₁.heapRange hm
  apply wp_call (wp_copyPcbVaddrBitMapStack0 hm₁)
  rintro (_ | _) m₂ ⟨h₂, hclone⟩
  · exact wp_pure.mpr ⟨(ForkFrame.of_memOnly h₁).trans h₂, fun h => by simp at h⟩
  simp only [Bool.not_true, Bool.false_eq_true, ↓reduceIte]
  have hm₂ := h₂.heapRange hm₁
  have h₀₂ := (ForkFrame.of_memOnly h₁).trans h₂
  apply wp_call (wp_pageDirCreate hm₂)
  rintro (_ | d) m₃ ⟨h₃, hd⟩
  · exact wp_bind (wp_modifyTask.mpr (wp_pure.mpr
      ⟨(h₀₂.trans (.of_memOnly h₃)).trans (.setTask _ _ _), fun h => by simp at h⟩))
  rw [wp_modifyTask_bind]
  set m₄ := m₃.setTask c _ with hm₄
  have h₄ : ForkFrame c m₁ m₄ := (h₂.trans (.of_memOnly h₃)).trans (.setTask _ _ _)
  have hdir : (m₄.tasks c).pageDir ≠ 0 := by simpa [hm₄] using hd d rfl
  have hclone₄ : Cloned m₁ m₄ c p := by
    have hclone₃ := (hclone rfl).memOnly h₃
    refine ⟨?_, ?_, ?_, ?_⟩
    · simpa [hm₄] using hclone₃.fdTable
    · simpa [hm₄] using hclone₃.status
    · simpa [hm₄] using hclone₃.fresh
    · exact (ForkFrame.setTask m₃ c _).used (by simpa [hm₄] using hclone₃.used)
  clear_value m₄
  apply wp_call (keeps_copyBodyStack3 _ _ _ e m₄)
  intro _ m₅ h₅
  have hclone₅ := hclone₄.memOnly h₅
  unfold buildChildStack
  rw [wp_modifyTask_bind]
  set m₆ := m₅.setTask c _ with hm₆
  have h₆ : ForkFrame c m₁ m₆ := (h₄.trans (.of_memOnly h₅)).trans (.setTask _ _ _)
  have hdir₆ : (m₆.tasks c).pageDir ≠ 0 := by simpa [hm₆, h₅.tasks] using hdir
  have hclone₆ : Cloned m₁ m₆ c p := by
    refine ⟨?_, ?_, ?_, ?_⟩
    · simpa [hm₆] using hclone₅.fdTable
    · simpa [hm₆] using hclone₅.status
    · simpa [hm₆] using hclone₅.fresh
    · exact (ForkFrame.setTask m₅ c _).used (by simpa [hm₆] using hclone₅.used)
  clear_value m₆
  apply wp_updateInodeOpenCnt_bind
  intro m₇ h₇ htasks
  have hframe := h₆.trans h₇
  apply wp_bind
  apply wp_freePage_kernel
  intro m₈ h₈
  obtain ⟨k, hk, hle, hclear⟩ := hfresh.page
  have hframe₈ := hframe.trans (.of_memOnly h₈)
  have h₀₈ := (ForkFrame.of_memOnly h₁).trans hframe₈
  have hstart : m₈.kernelVap.startAddr = m.kernelVap.startAddr := h₀₈.start
  have hclone₈ : Cloned m₁ m₈ c p := by
    have hc : Cloned m₁ m₇ c p :=
      ⟨htasks ▸ hclone₆.fdTable, htasks ▸ hclone₆.status, htasks ▸ hclone₆.fresh,
        h₇.used (htasks ▸ hclone₆.used)⟩
    exact hc.memOnly h₈
  have hrange := hm.le
  have hsub : wordSub buf m₇.kernelVap.startAddr / 4096 = k := by
    rw [hframe.start, h₁.start, hk, wordSub_add (by omega)]
    omega
  rw [hsub, wp_pure]
  refine ⟨⟨h₀₈.tasks, h₀₈.current, h₀₈.mainThread, h₀₈.idleThread, h₀₈.ready, h₀₈.all,
    h₀₈.fileTable, h₀₈.start, ?_, fun n hn => ?_⟩, fun _ => ⟨⟨?_, hclone₈.status, ?_, ?_⟩, ?_⟩⟩
  · rw [← h₀₈.bits]
    simp [BitMap.bits]
  · have hnk : n ≠ k := by
      rintro rfl
      simp [hclear n le_rfl (by omega)] at hn
    change (bitMapSetRun m₈.kernelVap.bitMap false 1 k).bit n = true
    rw [bitMapSetRun_bit, if_neg (by omega), h₀₈.mono n hn]
  · exact hclone₈.fdTable.trans (by rw [h₁.tasks])
  · exact (ForkFrame.of_memOnly (c := c) h₁).fresh hclone₈.fresh
  · apply hclone₈.used.setKernelVap
    intro n hn
    have hfresh₁ := hclone₈.fresh
    rw [hn, hstart, ← h₁.start] at hfresh₁
    rw [hk, ← h₁.start] at hused
    exact hfresh₁.ne_used hused
  · change (m₈.tasks c).pageDir ≠ 0
    rw [h₈.tasks, htasks]
    exact hdir₆

/-- A call of `sysFork`: the lists of threads stay as they are, or a new PCB is appended to
them, which holds the descriptors of the caller. -/
structure ForkResult (m m' : Machine) : Prop where
  tasks : ∀ q, ¬FreshPages m 1 q → m'.tasks q = m.tasks q
  current : m'.current = m.current
  mainThread : m'.mainThread = m.mainThread
  idleThread : m'.idleThread = m.idleThread
  fileTable : m'.fileTable = m.fileTable
  start : m'.kernelVap.startAddr = m.kernelVap.startAddr
  bits : m'.kernelVap.bitMap.bits = m.kernelVap.bitMap.bits
  mono : ∀ n, m.kernelVap.bitMap.bit n = true → m'.kernelVap.bitMap.bit n = true
  lists : (m'.threadReadyList = m.threadReadyList ∧ m'.threadAllList = m.threadAllList) ∨
    ∃ c n k, c = m.kernelVap.startAddr + n * 4096 ∧
      (m'.tasks c).vap.bitMapAddr = m.kernelVap.startAddr + k * 4096 ∧ ¬(k ≤ n ∧ n < k + 24) ∧
      FreshPages m 1 c ∧ UsedPages m' 1 c ∧ Cloned m m' c m.current ∧ (m'.tasks c).pageDir ≠ 0 ∧
      m'.threadReadyList = m.threadReadyList ++ [c] ∧ m'.threadAllList = m.threadAllList ++ [c]

theorem wp_sysFork (hm : HeapRange m) :
    wp anyStop e sysFork (fun _ m' => ForkResult m m') m := by
  unfold sysFork
  rw [wp_get_bind]
  apply wp_call (wp_getKernelPages hm one_pos)
  rintro (_ | c) m₁ ⟨h₁, hpages⟩
  · exact wp_pure.mpr ⟨fun q _ => by rw [h₁.tasks], h₁.current, h₁.mainThread, h₁.idleThread,
      h₁.fileTable, h₁.start, h₁.bits, h₁.mono, .inl ⟨h₁.ready, h₁.all⟩⟩
  obtain ⟨hfresh, hused⟩ := hpages c rfl
  rw [wp_get_bind, wp_assert_bind]
  refine ⟨fun _ => ?_, fun _ => trivial⟩
  apply wp_call (wp_copyProcess (h₁.heapRange hm))
  rintro ok m₂ ⟨h₂, hclone⟩
  have h₀₂ := (ForkFrame.of_memOnly h₁).trans h₂
  have htasks : ∀ q, ¬FreshPages m 1 q → m₂.tasks q = m.tasks q := fun q hq =>
    h₀₂.tasks q (by rintro rfl; exact hq hfresh)
  cases ok with
  | false =>
    exact wp_pure.mpr ⟨htasks, h₀₂.current, h₀₂.mainThread, h₀₂.idleThread, h₀₂.fileTable,
      h₀₂.start, h₀₂.bits, h₀₂.mono, .inl ⟨h₀₂.ready, h₀₂.all⟩⟩
  | true =>
    obtain ⟨hcl, hdir⟩ := hclone rfl
    simp only [Bool.not_true, Bool.false_eq_true, ↓reduceIte]
    rw [wp_get_bind, wp_assert_bind]
    refine ⟨fun _ => ?_, fun _ => trivial⟩
    rw [wp_modify_bind, wp_modify_bind, wp_pure]
    obtain ⟨n, hn, -⟩ := hfresh.page
    obtain ⟨k, hk, -⟩ := hcl.fresh.page
    refine ⟨htasks, h₀₂.current, h₀₂.mainThread, h₀₂.idleThread, h₀₂.fileTable, h₀₂.start,
      h₀₂.bits, h₀₂.mono, .inr ⟨c, n, k, hn, ?_, ?_, hfresh, h₂.used hused, ?_, hdir, ?_, ?_⟩⟩
    · exact hk.trans (by rw [h₁.start])
    · have hf := hcl.fresh
      rw [hn, ← h₁.start] at hused
      rw [hk] at hf
      exact hf.ne_used hused
    · exact ⟨hcl.fdTable.trans (by rw [h₁.tasks]), hcl.status,
        (ForkFrame.of_memOnly (c := c) h₁).fresh hcl.fresh, hcl.used⟩
    · exact congrArg (· ++ [c]) h₀₂.ready
    · exact congrArg (· ++ [c]) h₀₂.all

end Gogoos
