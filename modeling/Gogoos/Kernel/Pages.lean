import Gogoos.Kernel.Paging
import Gogoos.Logic.Keeps

/-!
# Kernel pages

What the page allocator does to the rest of the machine: nothing but memory changes, and a page
of the kernel heap that was handed out stays in use until `freePage` gives it back.
-/

namespace Gogoos

open Program

variable {e : Heap} {m m' : Machine} {vaddr cnt : ℕ}

/-- Only memory changes, and no page of the kernel heap is given back. -/
structure MemOnly (m m' : Machine) : Prop where
  tasks : m'.tasks = m.tasks
  current : m'.current = m.current
  mainThread : m'.mainThread = m.mainThread
  idleThread : m'.idleThread = m.idleThread
  ready : m'.threadReadyList = m.threadReadyList
  all : m'.threadAllList = m.threadAllList
  vol : m'.vol = m.vol
  fileTable : m'.fileTable = m.fileTable
  start : m'.kernelVap.startAddr = m.kernelVap.startAddr
  bits : m'.kernelVap.bitMap.bits = m.kernelVap.bitMap.bits
  mono : ∀ n, m.kernelVap.bitMap.bit n = true → m'.kernelVap.bitMap.bit n = true
  pids : m'.pidBitMap = m.pidBitMap

instance : Std.Refl MemOnly :=
  ⟨fun _ => ⟨rfl, rfl, rfl, rfl, rfl, rfl, rfl, rfl, rfl, rfl, fun _ => id, rfl⟩⟩

theorem MemOnly.trans {m₁ m₂ m₃ : Machine} (h : MemOnly m₁ m₂) (h' : MemOnly m₂ m₃) :
    MemOnly m₁ m₃ :=
  ⟨h'.tasks.trans h.tasks, h'.current.trans h.current, h'.mainThread.trans h.mainThread,
    h'.idleThread.trans h.idleThread, h'.ready.trans h.ready, h'.all.trans h.all, h'.vol.trans h.vol,
    h'.fileTable.trans h.fileTable, h'.start.trans h.start, h'.bits.trans h.bits,
    fun n hn => h'.mono n (h.mono n hn), h'.pids.trans h.pids⟩

instance : IsTrans Machine MemOnly := ⟨fun _ _ _ h h' => h.trans h'⟩

section Frames

theorem memOnly_setFrame (m : Machine) (f : ℕ) (words : ℕ → ℕ) : MemOnly m (m.setFrame f words) :=
  ⟨rfl, rfl, rfl, rfl, rfl, rfl, rfl, rfl, rfl, rfl, fun _ => id, rfl⟩

theorem memOnly_setCr3 (m : Machine) (f : ℕ) : MemOnly m (m.setCr3 f) :=
  ⟨rfl, rfl, rfl, rfl, rfl, rfl, rfl, rfl, rfl, rfl, fun _ => id, rfl⟩

theorem memOnly_setPapBit (m : Machine) (pf : PoolFlag) (i : ℕ) (b : Bool) :
    MemOnly m (m.setPapBit pf i b) := by
  cases pf <;> exact ⟨rfl, rfl, rfl, rfl, rfl, rfl, rfl, rfl, rfl, rfl, fun _ => id, rfl⟩

theorem keeps_frameOf : Keeps MemOnly (frameOf vaddr) := by
  apply Keeps.get_bind
  intro m
  cases m.walk vaddr with
  | none => exact keeps_halt
  | some f => exact keeps_pure f

theorem keeps_load : Keeps MemOnly (load vaddr) :=
  keeps_frameOf.bind fun _ => .get_bind fun _ => keeps_pure _

theorem keeps_store {word : ℕ} : Keeps MemOnly (store vaddr word) :=
  keeps_frameOf.bind fun _ => .modify fun m => memOnly_setFrame m _ _

theorem keeps_clearPage : Keeps MemOnly (clearPage vaddr) :=
  keeps_frameOf.bind fun _ => .modify fun m => memOnly_setFrame m _ _

theorem keeps_clearPages : ∀ cnt vaddr, Keeps MemOnly (clearPages cnt vaddr)
  | 0, _ => keeps_pure ()
  | cnt + 1, _ => keeps_clearPage.bind fun _ => keeps_clearPages cnt _

theorem keeps_copyPage {dst src : ℕ} : Keeps MemOnly (copyPage dst src) :=
  keeps_frameOf.bind fun _ => keeps_frameOf.bind fun _ => .modify fun m => memOnly_setFrame m _ _

theorem keeps_addrV2P : Keeps MemOnly (addrV2P vaddr) := keeps_load.bind fun _ => keeps_pure _

theorem keeps_allocPhyAddr (pf : PoolFlag) : Keeps MemOnly (allocPhyAddr pf) := by
  apply Keeps.get_bind
  intro m
  cases bitMapScan (m.pap pf).bitMap 1 with
  | none => exact keeps_pure none
  | some i => exact (Keeps.modify fun m => memOnly_setPapBit m pf i true).bind fun _ => keeps_pure _

theorem keeps_freePhyAddr (addr : ℕ) : Keeps MemOnly (freePhyAddr addr) :=
  .get_bind fun _ => .modify fun m => memOnly_setPapBit m _ _ _

theorem keeps_mapPageTable (paddr : ℕ) : Keeps MemOnly (mapPageTable vaddr paddr) := by
  apply keeps_load.bind
  intro pde
  apply Keeps.ite
  · exact keeps_load.bind fun _ => .ite keeps_store keeps_halt
  · exact (keeps_allocPhyAddr _).bind fun _ => keeps_store.bind fun _ =>
      keeps_clearPage.bind fun _ => keeps_store

theorem keeps_unmapPageTable : Keeps MemOnly (unmapPageTable vaddr) :=
  keeps_load.bind fun _ => keeps_store

theorem keeps_unmapBack : ∀ cnt vaddr, Keeps MemOnly (unmapBack cnt vaddr)
  | 0, _ => keeps_pure ()
  | cnt + 1, _ => keeps_addrV2P.bind fun _ => (keeps_freePhyAddr _).bind fun _ =>
      keeps_unmapPageTable.bind fun _ => keeps_unmapBack cnt _

theorem keeps_mapPages (pf : PoolFlag) : ∀ left done vaddr,
    Keeps MemOnly (mapPages pf left done vaddr) := by
  intro left
  induction left with
  | zero => exact fun _ _ => keeps_pure true
  | succ left ih =>
    intro done vaddr
    apply (keeps_allocPhyAddr pf).bind
    intro paddr
    cases paddr with
    | none => exact (keeps_unmapBack _ _).bind fun _ => keeps_pure false
    | some paddr => exact (keeps_mapPageTable paddr).bind fun _ => ih _ _

theorem keeps_getOnePageWithoutVBM (pf : PoolFlag) :
    Keeps MemOnly (getOnePageWithoutVBM pf vaddr) := by
  apply (keeps_allocPhyAddr pf).bind
  intro paddr
  cases paddr with
  | none => exact keeps_pure none
  | some paddr => exact (keeps_mapPageTable paddr).bind fun _ => keeps_pure _

theorem keeps_pageDirActivate (ts : ℕ) : Keeps MemOnly (pageDirActivate ts) := by
  apply Keeps.get_bind
  intro m
  apply Keeps.ite
  · exact keeps_addrV2P.bind fun _ => .modify fun m => memOnly_setCr3 m _
  · exact (keeps_pure _).bind fun _ => .modify fun m => memOnly_setCr3 m _

theorem keeps_copyKernelEntries : Keeps MemOnly (copyKernelEntries vaddr) :=
  keeps_frameOf.bind fun _ => keeps_frameOf.bind fun _ => .modify fun m => memOnly_setFrame m _ _

end Frames

section Alloc

/-- `cnt` pages from `vaddr` on were free in `m`. -/
structure FreshPages (m : Machine) (cnt vaddr : ℕ) : Prop where
  page : ∃ n, vaddr = m.kernelVap.startAddr + n * 4096 ∧ n + cnt ≤ m.kernelVap.bitMap.bits ∧
    ∀ j, n ≤ j → j < n + cnt → m.kernelVap.bitMap.bit j = false

/-- `cnt` pages from `vaddr` on are in use. -/
def UsedPages (m : Machine) (cnt vaddr : ℕ) : Prop :=
  ∀ n, vaddr = m.kernelVap.startAddr + n * 4096 →
    ∀ j, n ≤ j → j < n + cnt → m.kernelVap.bitMap.bit j = true

theorem UsedPages.mono (h : UsedPages m cnt vaddr) (hm : MemOnly m m') : UsedPages m' cnt vaddr :=
  fun n hn j h1 h2 => hm.mono j (h n (hm.start ▸ hn) j h1 h2)

/-- What `getKernelPages` returns. -/
def PagesResult (m : Machine) (cnt : ℕ) (r : Option ℕ) (m' : Machine) : Prop :=
  MemOnly m m' ∧ ∀ v, r = some v → FreshPages m cnt v ∧ UsedPages m' cnt v

theorem wp_freeVirAddr {pf : PoolFlag} {Q : Unit → Machine → Prop} :
    wp anyStop e (freeVirAddr pf vaddr cnt) Q m ↔
      Q () (m.setVap pf (bitMapSetRun (m.vap pf).bitMap false cnt
        (wordSub vaddr (m.vap pf).startAddr / 4096))) := by
  unfold freeVirAddr
  rw [wp_get_bind, wp_modify]

theorem wordSub_add {s n : ℕ} (h : s + n < 2 ^ 32) : wordSub (s + n) s = n := by
  unfold wordSub
  rw [show s + n + (2 ^ 32 - s) = n + 2 ^ 32 by omega, Nat.add_mod_right]
  exact Nat.mod_eq_of_lt (by omega)

/-- The kernel heap lies in the address space. -/
structure HeapRange (m : Machine) : Prop where
  pos : 0 < m.kernelVap.startAddr
  aligned : m.kernelVap.startAddr % 4096 = 0
  le : m.kernelVap.startAddr + m.kernelVap.bitMap.bits * 4096 ≤ 0xffc00000

theorem HeapRange.congr (h : HeapRange m) (hs : m'.kernelVap.startAddr = m.kernelVap.startAddr)
    (hb : m'.kernelVap.bitMap.bits = m.kernelVap.bitMap.bits) : HeapRange m' := by
  obtain ⟨h1, h2, h3⟩ := h
  refine ⟨?_, ?_, ?_⟩
  · rwa [hs]
  · rwa [hs]
  · rwa [hs, hb]

theorem wp_allocPage_kernel (hm : HeapRange m) (hcnt : 0 < cnt) :
    wp anyStop e (allocPage .kernel cnt) (PagesResult m cnt) m := by
  have hrange := hm.le
  unfold allocPage
  rw [wp_assert_bind]
  refine ⟨fun _ => ?_, fun _ => trivial⟩
  unfold allocVirAddr
  rw [wp_bind_assoc, wp_get_bind]
  have hvap : m.vap .kernel = m.kernelVap := rfl
  rw [hvap]
  unfold bitMapScanAndSet
  cases hscan : bitMapScan m.kernelVap.bitMap cnt with
  | none => exact wp_pure.mpr ⟨refl_of MemOnly m, fun v hv => by simp at hv⟩
  | some n =>
    obtain ⟨hle, hclear⟩ := bitMapScan_eq_some (by omega) hcnt hscan
    have hsub : wordSub (m.kernelVap.startAddr + n * 4096) m.kernelVap.startAddr / 4096 = n := by
      rw [wordSub_add (by omega)]
      omega
    set m₁ := m.setKernelVap (bitMapSetRun m.kernelVap.bitMap true cnt n) with hm₁
    have hfresh : FreshPages m cnt (m.kernelVap.startAddr + n * 4096) := ⟨n, rfl, hle, hclear⟩
    have hset : ∀ j, m₁.kernelVap.bitMap.bit j =
        if n ≤ j ∧ j < n + cnt then true else m.kernelVap.bitMap.bit j :=
      bitMapSetRun_bit true cnt m.kernelVap.bitMap n
    have hmem : MemOnly m m₁ := by
      refine ⟨rfl, rfl, rfl, rfl, rfl, rfl, rfl, rfl, rfl, ?_, fun j hj => ?_, rfl⟩
      · simp [hm₁, BitMap.bits]
      · rw [hset, hj]
        simp
    simp only [wp_bind_assoc, wp_modify_bind]
    change wp _ _ (assert _ >>= _) _ m₁
    rw [wp_assert_pos (by simp), wp_pure_bind]
    change wp _ _ (mapPages .kernel cnt 0 (m.kernelVap.startAddr + n * 4096) >>= _) _ m₁
    apply wp_call (keeps_mapPages _ _ _ _ e m₁)
    intro ok m₂ h₂
    cases ok with
    | true =>
      refine wp_pure.mpr ⟨hmem.trans h₂, fun v hv => ?_⟩
      obtain rfl : m.kernelVap.startAddr + n * 4096 = v := Option.some.inj hv
      refine ⟨hfresh, UsedPages.mono (m := m₁) (fun k hk j h1 h2 => ?_) h₂⟩
      have hnk : n = k := by
        change m.kernelVap.startAddr + n * 4096 = m.kernelVap.startAddr + k * 4096 at hk
        omega
      subst hnk
      rw [hset, if_pos ⟨h1, h2⟩]
    | false =>
      refine wp_bind (wp_freeVirAddr.mpr (wp_assert_bind.mpr
        ⟨fun _ => wp_pure.mpr ⟨?_, fun v hv => by simp at hv⟩, fun _ => trivial⟩))
      have hstart : m₂.kernelVap.startAddr = m.kernelVap.startAddr := h₂.start
      change MemOnly m (m₂.setKernelVap (bitMapSetRun m₂.kernelVap.bitMap false cnt
        (wordSub (m.kernelVap.startAddr + n * 4096) m₂.kernelVap.startAddr / 4096)))
      rw [hstart, hsub]
      have h := hmem.trans h₂
      refine ⟨h.tasks, h.current, h.mainThread, h.idleThread, h.ready, h.all, h.vol, h.fileTable,
        h.start, ?_, fun j hj => ?_, h.pids⟩
      · rw [← h.bits]
        simp [BitMap.bits]
      · change (bitMapSetRun m₂.kernelVap.bitMap false cnt n).bit j = true
        rw [bitMapSetRun_bit, if_neg, h.mono j hj]
        rintro ⟨h1, h2⟩
        simp [hclear j h1 h2] at hj

theorem wp_getKernelPages (hm : HeapRange m) (hcnt : 0 < cnt) :
    wp anyStop e (getKernelPages cnt) (PagesResult m cnt) m := by
  apply wp_call (wp_allocPage_kernel hm hcnt)
  rintro (_ | v) m₁ ⟨hmem, hv⟩
  · exact wp_pure.mpr ⟨hmem, fun v hv => by simp at hv⟩
  · apply wp_call (keeps_clearPages _ _ e m₁)
    intro _ m₂ h₂
    refine wp_pure.mpr ⟨hmem.trans h₂, fun w hw => ?_⟩
    obtain ⟨hf, hu⟩ := hv w hw
    exact ⟨hf, hu.mono h₂⟩

/-- Giving pages of the kernel heap back clears their bits. -/
theorem wp_freePage_kernel {Q : Unit → Machine → Prop}
    (h : ∀ m₁, MemOnly m m₁ → Q () (m₁.setKernelVap (bitMapSetRun m₁.kernelVap.bitMap false cnt
      (wordSub vaddr m.kernelVap.startAddr / 4096)))) :
    wp anyStop e (freePage .kernel vaddr cnt) Q m := by
  have hfree : ∀ user cnt vaddr, Keeps MemOnly (freeFrames user cnt vaddr) := by
    intro user cnt
    induction cnt with
    | zero => exact fun _ => keeps_pure ()
    | succ cnt ih =>
      intro vaddr
      refine keeps_addrV2P.bind fun paddr => .get_bind fun m => .assert_bind fun _ => ?_
      refine .ite ?_ ?_ <;> exact keeps_assert.bind fun _ => (keeps_freePhyAddr _).bind fun _ =>
        keeps_unmapPageTable.bind fun _ => ih _
  unfold freePage
  rw [wp_assert_bind]
  refine ⟨fun _ => ?_, fun _ => trivial⟩
  apply wp_call (keeps_addrV2P e m)
  intro paddr m₁ h₁
  rw [wp_assert_bind]
  refine ⟨fun _ => ?_, fun _ => trivial⟩
  rw [wp_get_bind]
  apply wp_call (hfree _ _ _ e m₁)
  intro _ m₂ h₂
  have h₁₂ := h₁.trans h₂
  rw [wp_freeVirAddr]
  simpa only [Machine.vap, Machine.setVap, h₁₂.start] using h m₂ h₁₂

end Alloc

end Gogoos
