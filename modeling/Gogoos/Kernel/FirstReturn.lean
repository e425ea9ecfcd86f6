import Gogoos.Kernel.Switch

/-!
# The first return of a process

A process starts to run at `intr_exit`, from a frame that no interrupt has left there:
`processExecute` and `sysExecv` write one, and `buildChildStack` finds the copy of the parent's in
the page of the child.
-/

namespace Gogoos.FirstReturn

open X86 Cpu KernelAsm Switching

variable {s t u : Cpu} {m m' : Memory} {a b w child parent exit ret entry : Word} {l : List Word}
  {f : Reg → Word} {v : Word}

/-- The words of an `IntrStack` that resumes `s`, which is a program. -/
def intrStack (v : Word) (f : Reg → Word) (w : Word) (s : Cpu) : List Word :=
  v :: (saved f ++ (segFrame s ++ [w, s.eip, wide (s.seg .cs), s.eflags, s.reg .esp,
    wide (s.seg .ss)]))

/-- A program does not run at the level of the kernel. -/
def User (s : Cpu) : Prop := rpl selectorKCode < rpl (s.seg .cs)

instance : Decidable (User s) := inferInstanceAs (Decidable (_ < _))

theorem gateFrame_user (h : User s) : gateFrame s =
    [s.eip, wide (s.seg .cs), s.eflags, s.reg .esp, wide (s.seg .ss)] := by
  have hrest : (if rpl selectorKCode < rpl (s.seg .cs) then [s.reg .esp, wide (s.seg .ss)]
      else []) = [s.reg .esp, wide (s.seg .ss)] := if_pos h
  unfold gateFrame
  rw [hrest]

/-- `intr_exit` goes where the frame says. -/
theorem intrExit_user (h : Frame t (intrStack v f w s)) (hs : User s)
    (hcs : t.seg .cs = selectorKCode) (hf : ∀ r ≠ .esp, f r = s.reg r) :
    Resumes s (t.run intrExit) := by
  refine intrExit_resumes (w := w) (f := f) ?_ hcs hf (fun hin => absurd hs hin)
    (fun hin => absurd hs hin)
  rw [gateFrame_user hs]
  exact h.tail

section Fork

/-- `memcpy(childThread, parentThread, PG_SIZE)`. -/
def copyPage (child parent : Word) (m : Memory) : Memory := fun b =>
  if (b - child).toNat < 4096 then m (b - child + parent) else m b

/-- `(uint32) childThread + PG_SIZE - sizeof(IntrStack)`. -/
def intr0Stack (child : Word) : Word := child + 4096 - 76

theorem intr0Stack_eq : intr0Stack child = child + 4020 := by
  unfold intr0Stack
  bv_omega

/-- `exit` is the address of `intrExit`. -/
def buildChildStack (child exit : Word) (m : Memory) : Memory :=
  setWord (setWord (setWord m (intr0Stack child + 32) 0) (intr0Stack child - 4) exit) child
    (intr0Stack child - 20)

/-- The part of `copyProcess` that the stack of the child comes from. The fields that
`copyPcbVaddrBitMapStack0` sets lie before it, in `edit`. -/
def childMem (child parent exit : Word) (edit : Memory → Memory) (m : Memory) : Memory :=
  buildChildStack child exit (edit (copyPage child parent m))

/-- The edits of a PCB stay below the frames at the end of its page. -/
def EditsPcb (child : Word) (edit : Memory → Memory) : Prop :=
  ∀ m b, 4096 - 96 ≤ (b - child).toNat → edit m b = m b

/-- As if the child had called `switchTo` with these registers. -/
def forked (child : Word) (m : Memory) : Cpu where
  reg r := match r with
    | .esp => intr0Stack child - 4
    | .ebp => word m (intr0Stack child - 20)
    | .ebx => word m (intr0Stack child - 16)
    | .edi => word m (intr0Stack child - 12)
    | .esi => word m (intr0Stack child - 8)
    | _ => 0
  seg _ := 0
  eip := 0
  eflags := 0
  mem := m
  outs := []

theorem forked_parked {edit : Memory → Memory} :
    Parked (childMem child parent exit edit m) child
      (forked child (childMem child parent exit edit m)) := by
  have hesp : (forked child (childMem child parent exit edit m)).reg .esp =
      intr0Stack child - 4 := rfl
  have hoff : intr0Stack child - 4 - child = 4016 := by
    unfold intr0Stack
    bv_omega
  have hback : intr0Stack child - 4 - 16 = intr0Stack child - 20 := by bv_omega
  refine ⟨?_, ?_, ?_, ?_, fun b _ _ => rfl⟩
  · rw [hesp, hoff]
    decide
  · rw [hesp, hoff]
    decide
  · rw [hesp, hback]
    exact word_setWord
  · have h8 : intr0Stack child - 20 + 4 + 4 + 4 = intr0Stack child - 8 := by bv_omega
    have h12 : intr0Stack child - 20 + 4 + 4 = intr0Stack child - 12 := by bv_omega
    have h16 : intr0Stack child - 20 + 4 = intr0Stack child - 16 := by bv_omega
    rw [hesp, hback]
    refine ⟨rfl, ?_, ?_, ?_, trivial⟩
    · rw [h16]
      rfl
    · rw [h12]
      rfl
    · rw [h8]
      rfl

/-- The copy of the frame, with 0 for `eax`. -/
theorem child_frame {edit : Memory → Memory} (hedit : EditsPcb child edit)
    (h : Holds m (intr0Stack parent) (intrStack v f w s)) :
    Frame (forked child (childMem child parent exit edit m))
      (exit :: intrStack v (Function.update f .eax 0) w s) := by
  have hlen : (intrStack v f w s).length = 19 := rfl
  have hcopy : Holds (edit (copyPage child parent m)) (intr0Stack child) (intrStack v f w s) := by
    apply h.congr
    intro k hk
    rw [hlen] at hk
    have hchild : intr0Stack child + BitVec.ofNat 32 k - child = 4020 + BitVec.ofNat 32 k := by
      rw [intr0Stack_eq]
      ring
    have hparent : 4020 + BitVec.ofNat 32 k + parent = intr0Stack parent + BitVec.ofNat 32 k := by
      rw [intr0Stack_eq]
      ring
    have hlow : (4020 + BitVec.ofNat 32 k : Word).toNat = 4020 + k := by bv_omega
    rw [hedit, copyPage, hchild, hparent, if_pos]
    · rw [hlow]
      omega
    · rw [hchild, hlow]
      omega
  have h32 : BitVec.ofNat 32 (4 * 8) = (32 : Word) := rfl
  have hset : (intrStack v f w s).set 8 0 = intrStack v (Function.update f .eax 0) w s := by
    simp [intrStack, saved]
  have hzero := hcopy.set (w := 0) (i := 8) (by rw [hlen]; norm_num) (by rw [hlen]; norm_num)
  rw [h32, hset] at hzero
  have hexit := hzero.push (w := exit) (by
    change 4 * (19 + 1) ≤ _
    norm_num)
  have hall := hexit.setWord_apart (b := child) (w := intr0Stack child - 20) (by
    unfold intr0Stack
    bv_omega) (by
    have hroom : (intr0Stack child - 4 - child).toNat = 4016 := by
      unfold intr0Stack
      bv_omega
    change (intr0Stack child - 4 - child).toNat + 4 * 20 ≤ _
    rw [hroom]
    norm_num)
  exact hall

/-- The frame of the system call, while the handler has left it alone. -/
theorem parent_frame (hs : User s)
    (hm : ∀ b, 4020 ≤ (b - parent).toNat → OnPage parent b →
      m b = (syscallCall ret entry (parent + 4096) s).mem b) :
    Holds m (intr0Stack parent)
      (intrStack 0x80 ((syscallSlot entry (parent + 4096) s).run pushSegs).reg 0 s) := by
  have hframe := (@syscallCall_frame s ret entry (parent + 4096)).drop (l := [ret, s.reg .ebx, s.reg .ecx, s.reg .edx]) rfl
  have htop : stackTop (parent + 4096) s = parent + 4096 := if_pos hs
  have hesp := (@syscallCall_sunk s ret entry (parent + 4096)).esp
  have hlen : (gateFrame s).length = 5 := by
    rw [gateFrame_user hs]
    rfl
  have haddr : (syscallCall ret entry (parent + 4096) s).reg .esp + BitVec.ofNat 32 (4 * 4) =
      intr0Stack parent := by
    rw [hesp, hlen, htop, intr0Stack_eq]
    bv_omega
  unfold Frame Cpu.esp at hframe
  rw [List.length_cons, List.length_cons, List.length_cons, List.length_cons, List.length_nil,
    drop_esp, drop_mem, haddr, gateFrame_user hs] at hframe
  apply Holds.congr hframe
  intro k hk
  have hk' : k < 4 * 19 := hk
  have hoff : intr0Stack parent + BitVec.ofNat 32 k - parent = 4020 + BitVec.ofNat 32 k := by
    rw [intr0Stack_eq]
    ring
  have hnat : (4020 + BitVec.ofNat 32 k : Word).toNat = 4020 + k := by bv_omega
  apply hm
  · rw [hoff, hnat]
    omega
  · unfold OnPage
    rw [hoff, hnat]
    omega

theorem slot_reg {r : Reg} (hr : r ≠ .esp) :
    ((syscallSlot entry a s).run pushSegs).reg r = s.reg r := by
  rw [pushSegs_reg hr, syscallSlot_eq, intrSlot_reg hr]

/-- What the child finds when it runs for the first time, whenever that is. -/
theorem child_resumes {edit : Memory → Memory} (hs : User s) (hedit : EditsPcb child edit)
    (hm : ∀ b, 4020 ≤ (b - parent).toNat → OnPage parent b →
      m b = (syscallCall ret entry (parent + 4096) s).mem b)
    (h : Returned child (forked child (childMem child parent exit edit m)) t)
    (hcs : t.seg .cs = selectorKCode) :
    t.eip = exit ∧ Resumes (s.setReg .eax 0) (t.run intrExit) := by
  have hframe := @child_frame s m _ child parent exit _ _ edit hedit (parent_frame hs hm)
  have hesp : (forked child (childMem child parent exit edit m)).reg .esp =
      intr0Stack child - 4 := rfl
  have hroom : intr0Stack child - 4 - child = 4016 := by
    rw [intr0Stack_eq]
    bv_omega
  have hleft := h.frame hframe (by
    rw [hesp, hroom]
    change 4016 + 4 * 20 ≤ 4096
    norm_num)
  refine ⟨h.eip.trans hframe.top, ?_⟩
  have hstack : intrStack 0x80 (Function.update ((syscallSlot entry (parent + 4096) s).run
      pushSegs).reg .eax 0) 0 s = intrStack 0x80 (Function.update ((syscallSlot entry
        (parent + 4096) s).run pushSegs).reg .eax 0) 0 (s.setReg .eax 0) := by
    simp [intrStack, segFrame]
  rw [hstack] at hleft
  refine intrExit_user hleft hs hcs fun r hr => ?_
  by_cases hax : r = .eax
  · rw [hax]
    simp
  · rw [Function.update_of_ne hax, slot_reg hr]
    simp [hax]

/-- `fork` returns twice. The child's first switch, in any run, leads it to `intr_exit` and from
there to the program of its parent, behind `int 0x80`, with 0 in `eax`. -/
theorem fork_law {edit : Memory → Memory} {x y : Sys} {ret' : Word} (hs : User s)
    (hedit : EditsPcb child edit)
    (hm : ∀ b, 4020 ≤ (b - parent).toNat → OnPage parent b →
      m b = (syscallCall ret entry (parent + 4096) s).mem b)
    (hstart : Start x) (hrun : Run Step x y) (hcalls : Calls y ret' child)
    (hleft : y.leaves child = some (forked child (childMem child parent exit edit m)))
    (hcs : y.cpu.seg .cs = selectorKCode) :
    (y.cpu.run switchTo).eip = exit ∧
      Resumes (s.setReg .eax 0) ((y.cpu.run switchTo).run intrExit) := by
  have hret := (switch_law hstart hrun hcalls hleft).1
  exact child_resumes hs hedit hm hret hcs

/-- The parent on the page `0xc0103000`, about to switch to the child on the page `0xc0104000`. -/
def forkMem : Memory := stores 0xc0103e00 [(0, 0xc0001555), (1, 0xc0103000), (2, 0xc0104000)]
  (syscallCall 0xc0001000 0xc0001040 (0xc0103000 + 4096) program).mem

def forkCpu (m : Memory) : Cpu where
  reg r := if r = .esp then 0xc0103e00 else 0
  seg _ := selectorKCode
  eip := 0
  eflags := 0
  mem := m
  outs := []

def childMemory : Memory := childMem 0xc0104000 0xc0103000 0xc0001090 id forkMem

def parentSys : Sys := ⟨forkCpu forkMem, 0xc0103000, fun _ => none⟩

def forkedSys : Sys := ⟨forkCpu childMemory, 0xc0103000,
  Function.update (fun _ => none) 0xc0104000 (some (forked 0xc0104000 childMemory))⟩

theorem fork_law_sample : Start parentSys ∧ Run Step parentSys forkedSys ∧
    Calls forkedSys 0xc0001555 0xc0104000 ∧
    Resumes (program.setReg .eax 0) ((forkedSys.cpu.run switchTo).run intrExit) := by
  have hstart : Start parentSys := ⟨by decide, fun _ => rfl⟩
  have hstep : Step parentSys forkedSys :=
    .create (t := forkCpu childMemory) (fun p u hp => absurd hp (by simp [parentSys]))
      (by decide) (by decide) rfl forked_parked
  have hcalls : Calls forkedSys 0xc0001555 0xc0104000 :=
    ⟨⟨by decide +kernel, by decide +kernel, by decide +kernel, trivial⟩, by decide, by decide⟩
  have hm : ∀ b, 4020 ≤ (b - 0xc0103000).toNat → OnPage 0xc0103000 b →
      forkMem b = (syscallCall 0xc0001000 0xc0001040 (0xc0103000 + 4096) program).mem b := by
    intro b hb hon
    unfold OnPage at hon
    exact stores_apart (n := 3) (by simp) (by bv_omega)
  exact ⟨hstart, .single hstep, hcalls, (fork_law (by decide) (fun _ _ _ => rfl) hm hstart
    (.single hstep) hcalls rfl rfl).2⟩

end Fork

section Programs

/-- The program that the frame of `sysExecv` resumes. -/
def execState (argc argv entryPoint : Word) (s : Cpu) : Cpu :=
  { s with
    reg := fun r => match r with
      | .ebx => argc
      | .ecx => argv
      | .esp => 0xc0000000
      | _ => 0
    eip := entryPoint }

/-- The stores of `sysExecv`, by the index of the word. -/
def execStores (argc argv entryPoint : Word) : List (ℕ × Word) :=
  [(4, 0), (3, 0), (2, 0), (1, 0), (8, 0), (6, 0), (5, argc), (7, argv), (14, entryPoint),
    (17, 0xc0000000)]

/-- `_start` of `userprog/crt/start.asm` up to the call of `main`. -/
def startCode : List Instr := [.push .ecx, .push .ebx]

def selectorUCode : BitVec 16 := 5 <<< 3 + 3

def selectorUData : BitVec 16 := 6 <<< 3 + 3

/-- The program that `processExecute` starts, `stack` being the page of its stack. -/
def firstState (func stack : Word) (m : Memory) : Cpu where
  reg r := if r = .esp then stack + 4096 else 0
  seg g := if g = .cs then selectorUCode else if g = .gs then 0 else selectorUData
  eip := func
  eflags := 0x202
  mem := m
  outs := []

/-- The stores of `processExecute`. -/
def processStores (func stack : Word) : List (ℕ × Word) :=
  [(4, 0), (3, 0), (2, 0), (1, 0), (8, 0), (7, 0), (6, 0), (5, 0), (9, 0),
    (10, wide selectorUData), (11, wide selectorUData), (12, wide selectorUData), (14, func),
    (15, wide selectorUCode), (16, 0x202), (17, stack + 4096), (18, wide selectorUData)]

variable {argc argv entryPoint func stack pcb : Word}

theorem exec_resumes (hs : User s) (h : Holds m (intr0Stack a) (intrStack v f w s))
    (hesp : t.reg .esp = intr0Stack a)
    (hmem : t.mem = stores (intr0Stack a) (execStores argc argv entryPoint) m)
    (hcs : t.seg .cs = selectorKCode) :
    Resumes (execState argc argv entryPoint s) (t.run intrExit) := by
  have hstored := h.stores (l := execStores argc argv entryPoint)
    (by simp [execStores, intrStack, segFrame, saved])
    (by simp [intrStack, segFrame, saved])
  have hreplaced : replaced (execStores argc argv entryPoint) (intrStack v f w s) =
      intrStack v (fun r => if r = .esp then 0 else (execState argc argv entryPoint s).reg r) w
        (execState argc argv entryPoint s) := rfl
  rw [hreplaced] at hstored
  have hframe : Frame t (intrStack v
      (fun r => if r = .esp then 0 else (execState argc argv entryPoint s).reg r) w
        (execState argc argv entryPoint s)) := by
    unfold Frame Cpu.esp
    rwa [hesp, hmem]
  exact intrExit_user hframe hs hcs fun r hr => if_neg hr

/-- The arguments of `main`, when `_start` has called it. -/
theorem startCode_frame : Frame ((t.run startCode).push ret) [ret, t.reg .ebx, t.reg .ecx] := by
  have hebx : ((t.push (t.reg .ecx)).reg .ebx) = t.reg .ebx := push_reg (by decide)
  have hcode : t.run startCode = (t.push (t.reg .ecx)).push (t.reg .ebx) := by
    simp only [startCode, run, exec, List.foldl_cons, List.foldl_nil, hebx]
  rw [hcode]
  exact ((Frame.nil.push (by norm_num)).push (by norm_num)).push (by norm_num)

/-- What `sysExecv` makes of the frame of its own system call: the new program starts at its entry
point, and `_start` calls `main(argc, argv)`. -/
theorem exec_frame_law (hs : User s)
    (hm : ∀ b, 4020 ≤ (b - a).toNat → OnPage a b →
      m b = (syscallCall ret entry (a + 4096) s).mem b)
    (hesp : t.reg .esp = intr0Stack a)
    (hmem : t.mem = stores (intr0Stack a) (execStores argc argv entryPoint) m)
    (hcs : t.seg .cs = selectorKCode) :
    Resumes (execState argc argv entryPoint s) (t.run intrExit) ∧
      ∀ r, Frame (((t.run intrExit).run startCode).push r) [r, argc, argv] := by
  have hres := exec_resumes hs (parent_frame hs hm) hesp hmem hcs
  refine ⟨hres, fun r => ?_⟩
  have hstart := @startCode_frame (t.run intrExit) r
  rwa [hres.reg] at hstart

/-- `processExecute` sets every word of the frame but the first and the place of the error code. -/
theorem replaced_process (m' : Memory) : ∀ {ws : List Word}, ws.length = 19 →
    ∃ v w, replaced (processStores func stack) ws =
      intrStack v (fun r => if r = .esp then 0 else (firstState func stack m').reg r) w
        (firstState func stack m')
  | [v, _, _, _, _, _, _, _, _, _, _, _, _, w, _, _, _, _, _], _ => by
    refine ⟨v, w, ?_⟩
    simp [replaced, processStores, intrStack, saved, segFrame, firstState]
    rfl

theorem processStores_lt : ∀ x ∈ processStores func stack, x.1 < 19 := by
  simp [processStores]

/-- In the kernel, with this stack. -/
def kernelCpu (esp : Word) (m : Memory) : Cpu where
  reg r := if r = .esp then esp else 0
  seg _ := selectorKCode
  eip := 0
  eflags := 0
  mem := m
  outs := []

def execMem : Memory := (syscallCall 0xc0001000 0xc0001040 (0xc0103000 + 4096) program).mem

/-- `sysExecv` on the page `0xc0103000`, at the jump to `intr_exit`. -/
def execCpu : Cpu := kernelCpu (intr0Stack 0xc0103000)
  (stores (intr0Stack 0xc0103000) (execStores 2 0xbffff000 0x08048000) execMem)

theorem exec_frame_law_sample : User program ∧
    Resumes (execState 2 0xbffff000 0x08048000 program) (execCpu.run intrExit) := by
  have huser : User program := by decide
  have hesp : execCpu.reg .esp = intr0Stack 0xc0103000 := rfl
  have hmem : execCpu.mem =
    stores (intr0Stack 0xc0103000) (execStores 2 0xbffff000 0x08048000) execMem := rfl
  have hcs : execCpu.seg .cs = selectorKCode := rfl
  have hm : ∀ b, 4020 ≤ (b - 0xc0103000).toNat → OnPage 0xc0103000 b →
      execMem b = (syscallCall 0xc0001000 0xc0001040 (0xc0103000 + 4096) program).mem b :=
    fun _ _ _ => rfl
  exact ⟨huser, (exec_frame_law huser hm hesp hmem hcs).1⟩

theorem process_resumes (hesp : t.reg .esp = a)
    (hmem : t.mem = stores a (processStores func stack) m) (hcs : t.seg .cs = selectorKCode) :
    Resumes (firstState func stack t.mem) (t.run intrExit) := by
  have hold := holds_wordsAt (m := m) 19 a
  have hlen := wordsAt_length (m := m) 19 a
  generalize wordsAt m a 19 = ws at hold hlen
  have hlt : ∀ x ∈ processStores func stack, x.1 < ws.length := by
    rw [hlen]
    exact processStores_lt
  have hroom : 4 * ws.length ≤ 2 ^ 32 := by
    rw [hlen]
    norm_num
  have hstored := Holds.stores hold hlt hroom
  obtain ⟨v, w, hws⟩ := @replaced_process func stack t.mem _ hlen
  rw [← hmem, ← hesp, hws] at hstored
  have huser : User (firstState func stack t.mem) :=
    (by decide : rpl selectorKCode < rpl selectorUCode)
  exact intrExit_user hstored huser hcs fun r hr => if_neg hr

/-- `processExecute` on the stack of a new thread: the program starts at `func`, in user mode, with
interrupts on and an empty stack, whatever the page held before. -/
theorem process_law (hesp : t.reg .esp = threadStack pcb + 128)
    (hmem : t.mem = stores (threadStack pcb + 128) (processStores func stack) m)
    (hcs : t.seg .cs = selectorKCode) :
    Resumes (firstState func stack t.mem) (t.run intrExit) :=
  process_resumes hesp hmem hcs

/-- The process of `init` on the page `0xc0105000`, at the jump to `intr_exit`. -/
def initCpu : Cpu := kernelCpu (threadStack 0xc0105000 + 128)
  (stores (threadStack 0xc0105000 + 128) (processStores 0xc0001500 0xbffff000) fun _ => 0xcc)

theorem process_law_sample : initCpu.seg .cs = selectorKCode ∧
    (initCpu.run intrExit).eip = 0xc0001500 := by
  have hesp : initCpu.reg .esp = threadStack 0xc0105000 + 128 := rfl
  have hmem : initCpu.mem = stores (threadStack 0xc0105000 + 128)
    (processStores 0xc0001500 0xbffff000) fun _ => 0xcc := rfl
  have hcs : initCpu.seg .cs = selectorKCode := rfl
  exact ⟨hcs, (process_law hesp hmem hcs).eip⟩

end Programs

end Gogoos.FirstReturn
