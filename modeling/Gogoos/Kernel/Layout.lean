import Gogoos.Kernel.Tables

/-!
# Memory at boot

`memPoolInit` of `kernel/memory.c` in 32-bit arithmetic, with the addresses of the three bitmaps,
which it places one behind the other from `MEM_BITMAP_BASE` on. The page behind the window for
them is the PCB of the thread that boots: its stack begins at `0xc009f000`.
-/

namespace Gogoos.Layout

variable {allMem : ℕ}

/-- A bitmap and where its bytes lie. -/
structure Placed where
  startAddr : ℕ
  length : ℕ

structure Pool where
  startAddr : ℕ
  size : ℕ
  bitMap : Placed

structure Pools where
  kernelPap : Pool
  userPap : Pool
  /-- `kernelVap.bitMap`. -/
  kernelVap : Placed

def memBitMapBase : ℕ := 0xc009a000

def mainThreadPcb : ℕ := 0xc009e000

def memPoolInit (allMem : ℕ) : Pools :=
  let pageTableSize := 4096 * 256 % 2 ^ 32
  let usedMem := (pageTableSize + 0x00100000) % 2 ^ 32
  let freeMem := wordSub allMem usedMem
  let allFreePages := freeMem / 4096
  let kernelFreePages := allFreePages / 2
  let userFreePages := allFreePages / 2
  let kbmLength := kernelFreePages / 8
  let ubmLength := userFreePages / 8
  let kernelPageStart := usedMem
  let userPageStart := (kernelPageStart + kernelFreePages * 4096 % 2 ^ 32) % 2 ^ 32
  { kernelPap := ⟨kernelPageStart, kernelFreePages * 4096 % 2 ^ 32, ⟨memBitMapBase, kbmLength⟩⟩
    userPap := ⟨userPageStart, userFreePages * 4096 % 2 ^ 32,
      ⟨(memBitMapBase + kbmLength) % 2 ^ 32, ubmLength⟩⟩
    kernelVap := ⟨((memBitMapBase + kbmLength) % 2 ^ 32 + ubmLength) % 2 ^ 32, kbmLength⟩ }

def Placed.Apart (a b : Placed) : Prop :=
  a.startAddr + a.length ≤ b.startAddr ∨ b.startAddr + b.length ≤ a.startAddr

def Pool.Covers (p : Pool) : Prop :=
  ∀ i < 8 * p.bitMap.length, p.startAddr + i * 4096 + 4096 ≤ p.startAddr + p.size

/-- The layout that is promised of `allMem` bytes. The page tables end at 2 MB. -/
structure Sound (allMem : ℕ) : Prop where
  disjoint : (memPoolInit allMem).kernelPap.startAddr + (memPoolInit allMem).kernelPap.size ≤
    (memPoolInit allMem).userPap.startAddr
  above : 0x200000 ≤ (memPoolInit allMem).kernelPap.startAddr ∧
    0x200000 ≤ (memPoolInit allMem).userPap.startAddr
  inside : (memPoolInit allMem).kernelPap.startAddr + (memPoolInit allMem).kernelPap.size ≤
      allMem ∧
    (memPoolInit allMem).userPap.startAddr + (memPoolInit allMem).userPap.size ≤ allMem
  kernelFrames : (memPoolInit allMem).kernelPap.Covers
  userFrames : (memPoolInit allMem).userPap.Covers
  apart : (memPoolInit allMem).kernelPap.bitMap.Apart (memPoolInit allMem).userPap.bitMap ∧
    (memPoolInit allMem).kernelPap.bitMap.Apart (memPoolInit allMem).kernelVap ∧
    (memPoolInit allMem).userPap.bitMap.Apart (memPoolInit allMem).kernelVap
  window : ∀ b ∈ [(memPoolInit allMem).kernelPap.bitMap, (memPoolInit allMem).userPap.bitMap,
    (memPoolInit allMem).kernelVap], memBitMapBase ≤ b.startAddr ∧
      b.startAddr + b.length ≤ mainThreadPcb

def freePages (allMem : ℕ) : ℕ := (allMem - 0x200000) / 4096 / 2

theorem freePages_le (allMem : ℕ) : freePages allMem * 4096 * 2 ≤ allMem - 0x200000 := by
  unfold freePages
  omega

/-- No operation wraps around. -/
theorem memPoolInit_eq (hlo : 0x200000 ≤ allMem) (hhi : allMem < 2 ^ 32) :
    memPoolInit allMem =
      { kernelPap := ⟨0x200000, freePages allMem * 4096, ⟨memBitMapBase, freePages allMem / 8⟩⟩
        userPap := ⟨0x200000 + freePages allMem * 4096, freePages allMem * 4096,
          ⟨memBitMapBase + freePages allMem / 8, freePages allMem / 8⟩⟩
        kernelVap := ⟨memBitMapBase + 2 * (freePages allMem / 8), freePages allMem / 8⟩ } := by
  have hused : (4096 * 256 % 2 ^ 32 + 0x00100000) % 2 ^ 32 = 0x200000 := by norm_num
  have hfree : wordSub allMem 0x200000 / 4096 / 2 = freePages allMem := by
    unfold wordSub freePages
    omega
  have hpages : freePages allMem * 4096 < 2 ^ 31 := by
    unfold freePages
    omega
  have hsize : freePages allMem * 4096 % 2 ^ 32 = freePages allMem * 4096 :=
    Nat.mod_eq_of_lt (by omega)
  have huser : (0x200000 + freePages allMem * 4096) % 2 ^ 32 =
      0x200000 + freePages allMem * 4096 := Nat.mod_eq_of_lt (by omega)
  have hubm : (memBitMapBase + freePages allMem / 8) % 2 ^ 32 =
      memBitMapBase + freePages allMem / 8 := Nat.mod_eq_of_lt (by unfold memBitMapBase; omega)
  have hvbm : (memBitMapBase + freePages allMem / 8 + freePages allMem / 8) % 2 ^ 32 =
      memBitMapBase + 2 * (freePages allMem / 8) := by
    unfold memBitMapBase
    omega
  unfold memPoolInit
  dsimp only
  rw [hused, hfree, hsize, huser, hubm, hvbm]

theorem covers_half {start n : ℕ} {b : ℕ} : (Pool.mk start (n * 4096) ⟨b, n / 8⟩).Covers := by
  intro i hi
  dsimp only at hi ⊢
  omega

/-- The same pools as those that the page allocator starts with. -/
theorem memPoolInit_pools (hlo : 0x200000 ≤ allMem) (hhi : allMem < 2 ^ 32) (m : Mem) :
    (Gogoos.memPoolInit allMem m).kernelPap =
        ⟨⟨(memPoolInit allMem).kernelPap.bitMap.length, fun _ => 0⟩,
          (memPoolInit allMem).kernelPap.startAddr⟩ ∧
      (Gogoos.memPoolInit allMem m).userPap =
        ⟨⟨(memPoolInit allMem).userPap.bitMap.length, fun _ => 0⟩,
          (memPoolInit allMem).userPap.startAddr⟩ ∧
      (Gogoos.memPoolInit allMem m).kernelVap.bitMap.length =
        (memPoolInit allMem).kernelVap.length := by
  rw [memPoolInit_eq hlo hhi]
  exact ⟨rfl, rfl, rfl⟩

/-- No frame of the kernel's pool is one of the other, in the state that the page allocator starts
with. -/
theorem memPoolInit_apart (hlo : 0x200000 ≤ allMem) (hhi : allMem < 2 ^ 32) (m : Mem) {i : ℕ}
    (hi : i < 8 * (Gogoos.memPoolInit allMem m).kernelPap.bitMap.length) :
    (Gogoos.memPoolInit allMem m).kernelPap.startAddr + i * 4096 + 4096 ≤
      (Gogoos.memPoolInit allMem m).userPap.startAddr := by
  obtain ⟨hkernel, huser, -⟩ := memPoolInit_pools hlo hhi m
  rw [hkernel, memPoolInit_eq hlo hhi] at hi
  rw [hkernel, huser, memPoolInit_eq hlo hhi]
  exact covers_half (b := memBitMapBase) i hi

/-- Everything but the window holds for all amounts of memory. The window has 16 KB for three
bitmaps of one bit for each page of a pool. -/
theorem boot_layout_law (hlo : 4 * 1024 * 1024 ≤ allMem) (hhi : allMem < 2 ^ 32) :
    Sound allMem ↔ allMem < 360054784 := by
  have hlo' : 0x200000 ≤ allMem := le_trans (by norm_num) hlo
  have hhalf := freePages_le allMem
  have heq := memPoolInit_eq hlo' hhi
  constructor
  · intro h
    have hend := (h.window (memPoolInit allMem).kernelVap (by simp)).2
    rw [heq] at hend
    unfold memBitMapBase mainThreadPcb freePages at hend
    dsimp only at hend
    omega
  · intro hlt
    have hwindow : 3 * (freePages allMem / 8) ≤ 0x4000 := by
      unfold freePages
      omega
    constructor
    · simp only [heq]
      exact Nat.le_refl _
    · simp only [heq]
      exact ⟨Nat.le_refl _, Nat.le_add_right _ _⟩
    · rw [heq]
      dsimp only
      omega
    · rw [heq]
      exact covers_half
    · rw [heq]
      exact covers_half
    · rw [heq]
      unfold Placed.Apart
      dsimp only
      omega
    · rw [heq]
      unfold memBitMapBase mainThreadPcb
      intro b hb
      simp only [List.mem_cons, List.not_mem_nil, or_false] at hb
      rcases hb with rfl | rfl | rfl
      · dsimp only
        omega
      · dsimp only
        omega
      · dsimp only
        omega

theorem boot_layout_law_sample : Sound (32 * 1024 * 1024) :=
  (boot_layout_law (by norm_num) (by norm_num)).mpr (by norm_num)

/-- With 512 MB the third bitmap ends 8096 bytes behind the beginning of the PCB. -/
theorem boot_layout_law_fails : ¬Sound (512 * 1024 * 1024) ∧
    (memPoolInit (512 * 1024 * 1024)).kernelVap.startAddr < mainThreadPcb ∧
    mainThreadPcb + 8096 = (memPoolInit (512 * 1024 * 1024)).kernelVap.startAddr +
      (memPoolInit (512 * 1024 * 1024)).kernelVap.length := by
  have hend : mainThreadPcb + 8096 = (memPoolInit (512 * 1024 * 1024)).kernelVap.startAddr +
      (memPoolInit (512 * 1024 * 1024)).kernelVap.length := by decide
  refine ⟨fun h => ?_, by decide, hend⟩
  have hle := (h.window (memPoolInit (512 * 1024 * 1024)).kernelVap (by simp)).2
  omega

end Gogoos.Layout
