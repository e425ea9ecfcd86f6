import Gogoos.Fs.Path

/-!
# The machine

The kernel around the file system: physical memory and the page tables in it, the address
pools of `kernel/memory.c`, the PCBs of `kernel/thread/thread.h` and the shared table of open
files. Physical memory is cut into frames of 1024 words, a frame being numbered by its address
over 4096. A PCB is kept as a record under the kernel address of its page, and so is the bitmap
of a process, under the address of its first page. Locks are left out: the kernel runs these
calls with interrupts off, and no other thread holds a pool's lock then.
-/

namespace Gogoos

open Program

namespace TaskStatus
abbrev running : ℤ := 0
abbrev ready : ℤ := 1
abbrev blocked : ℤ := 2
abbrev waiting : ℤ := 3
abbrev hanging : ℤ := 4
abbrev died : ℤ := 5
end TaskStatus

structure PhysicalAddrPool where
  bitMap : BitMap
  startAddr : ℕ

/-- `bitMapAddr` is where the bytes of the bitmap lie, `bitMap.startAddr` in the code. -/
structure VirtualAddrPool where
  bitMap : BitMap
  bitMapAddr : ℕ
  startAddr : ℕ

/-- The free list holds the addresses of its blocks, first to last. -/
structure MemBlockDesc where
  blockSize : ℕ
  blocksPerArena : ℕ
  freeList : List ℕ

/-- `eax` is the register that the interrupt frame on the kernel stack gives back. The tags
of a PCB are the lists of the machine. -/
structure TaskStruct where
  status : ℤ
  pid : ℤ
  priority : ℕ
  name : List UInt8
  ticks : ℕ
  elapsedTicks : ℕ
  fdTable : ℕ → ℤ
  /-- Kernel address of the page directory, 0 for `NULL`. -/
  pageDir : ℕ
  umbdArr : ℕ → MemBlockDesc
  vap : VirtualAddrPool
  cwdIno : ℕ
  parentPid : ℤ
  stackMagicNum : ℕ
  eax : ℕ

structure Machine where
  phys : ℕ → ℕ → ℕ
  /-- Frame of the active page directory. -/
  cr3 : ℕ
  kernelPap : PhysicalAddrPool
  userPap : PhysicalAddrPool
  kernelVap : VirtualAddrPool
  pidBitMap : BitMap
  tasks : ℕ → TaskStruct
  /-- `getCurrentThread()`. -/
  current : ℕ
  mainThread : ℕ
  idleThread : ℕ
  threadReadyList : List ℕ
  threadAllList : List ℕ
  vol : Volume
  fileTable : ℕ → File

abbrev KernelM (α : Type) : Type := Program Heap Machine α

namespace Machine

@[simps -fullyApplied] def setTask (m : Machine) (pcb : ℕ) (t : TaskStruct) : Machine :=
  { m with tasks := fun p => if p = pcb then t else m.tasks p }

@[simps -fullyApplied] def setFrame (m : Machine) (frame : ℕ) (words : ℕ → ℕ) : Machine :=
  { m with phys := fun f => if f = frame then words else m.phys f }

@[simps -fullyApplied] def setCr3 (m : Machine) (frame : ℕ) : Machine := { m with cr3 := frame }

@[simps -fullyApplied] def setKernelVap (m : Machine) (bm : BitMap) : Machine :=
  { m with kernelVap := { m.kernelVap with bitMap := bm } }

@[simps -fullyApplied] def setPidBitMap (m : Machine) (bm : BitMap) : Machine :=
  { m with pidBitMap := bm }

@[simps -fullyApplied] def setReadyList (m : Machine) (l : List ℕ) : Machine :=
  { m with threadReadyList := l }

@[simps -fullyApplied] def setAllList (m : Machine) (l : List ℕ) : Machine :=
  { m with threadAllList := l }

@[simps -fullyApplied] def setCurrent (m : Machine) (pcb : ℕ) : Machine := { m with current := pcb }

/-- What the file system sees: its volume, the open files and the descriptors of the running
thread. -/
@[simps] def fs (m : Machine) : Fs := ⟨m.vol, m.fileTable, (m.tasks m.current).fdTable⟩

@[simps -fullyApplied] def setFs (m : Machine) (fs : Fs) : Machine :=
  { m with
    vol := fs.vol
    fileTable := fs.fileTable
    tasks := fun p =>
      if p = m.current then { m.tasks p with fdTable := fs.fdTable } else m.tasks p }

end Machine

/-- A program on the file system, run by the current thread. -/
def onFs {α : Type} (p : FsM α) : KernelM α := zoom Machine.fs (fun fs m => m.setFs fs) p

end Gogoos
