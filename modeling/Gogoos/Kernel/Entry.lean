import Gogoos.Machine.Cpu

/-!
# Entry into the kernel and return from it

The code of `kernel/asm/kernel.asm` around the handlers. A handler is compiled code: all that is
assumed of it is that it returns, and that it leaves the stack of its caller alone.
-/

namespace Gogoos.KernelAsm

open X86 Cpu

variable {s t c : Cpu} {l : List Word} {v w ret entry esp0 : Word} {err : Option Word} {n k : ℕ}

def selectorKCode : BitVec 16 := 1 <<< 3

def selectorKStack : BitVec 16 := 2 <<< 3

/-- `intr_exit`. -/
def intrExit : List Instr :=
  [.addEsp 4, .popad, .popSeg .gs, .popSeg .fs, .popSeg .es, .popSeg .ds, .addEsp 4, .iret]

/-- The second argument of `VECTOR`: nothing for the vector `0x1e`, `PUSH_ZERO` for the others. -/
def vectorMacro (n : ℕ) : List Instr := if n = 0x1e then [] else [.pushImm 0]

/-- `intr%1Entry` up to the call. -/
def intrEntry (n : ℕ) : List Instr :=
  vectorMacro n ++ [.pushSeg .ds, .pushSeg .es, .pushSeg .fs, .pushSeg .gs, .pushad,
    .movAl 0x20, .outAl 0xa0, .outAl 0x20, .pushImm (BitVec.ofNat 32 n)]

/-- `syscallEntry` up to the call. -/
def syscallEntry : List Instr :=
  [.pushImm 0, .pushSeg .ds, .pushSeg .es, .pushSeg .fs, .pushSeg .gs, .pushad,
    .pushImm 0x80, .push .edx, .push .ecx, .push .ebx]

/-- `syscallEntry` between the call and `intr_exit`. -/
def syscallExit : List Instr := [.addEsp 12, .store .esp 32 .eax]

/-- What a handler finds when the interrupt `n` is taken. -/
def intrCall (ret entry esp0 : Word) (err : Option Word) (n : ℕ) (s : Cpu) : Cpu :=
  ((s.interrupt esp0 selectorKStack selectorKCode entry err).run (intrEntry n)).push ret

/-- An interrupt, from the instruction that it comes before back to it. -/
def intr (ret entry esp0 : Word) (err : Option Word) (n : ℕ) (handler : Cpu → Cpu) (s : Cpu) :
    Cpu :=
  (handler (intrCall ret entry esp0 err n s)).run intrExit

/-- The same way up to the `iret`. -/
def intrReturn (ret entry esp0 : Word) (err : Option Word) (n : ℕ) (handler : Cpu → Cpu)
    (s : Cpu) : Cpu :=
  (handler (intrCall ret entry esp0 err n s)).run intrExit.dropLast

def syscallCall (ret entry esp0 : Word) (s : Cpu) : Cpu :=
  ((s.interrupt esp0 selectorKStack selectorKCode entry none).run syscallEntry).push ret

/-- `int 0x80`, with the handlers by the value of `eax`. -/
def syscall (ret entry esp0 : Word) (table : Word → Cpu → Cpu) (s : Cpu) : Cpu :=
  ((table (s.reg .eax) (syscallCall ret entry esp0 s)).run syscallExit).run intrExit

/-- A function of this many words of arguments, as its caller sees it. The arguments are its own;
the 128 bytes behind them hold all that an entry has saved. -/
structure Conforms (args : ℕ) (f : Cpu → Cpu) : Prop where
  esp : ∀ s, (f s).reg .esp = s.reg .esp + 4
  cs : ∀ s, (f s).seg .cs = s.seg .cs
  ss : ∀ s, (f s).seg .ss = s.seg .ss
  frame : ∀ s k, 4 * (1 + args) ≤ k → k < 128 →
    (f s).mem (s.reg .esp + BitVec.ofNat 32 k) = s.mem (s.reg .esp + BitVec.ofNat 32 k)

/-- What the processor saves. -/
def gateFrame (s : Cpu) : List Word :=
  s.eip :: wide (s.seg .cs) :: s.eflags ::
    if rpl selectorKCode < rpl (s.seg .cs) then [s.reg .esp, wide (s.seg .ss)] else []

/-- The registers in a frame, and below them the words that `popSeg` takes. -/
def segFrame (s : Cpu) : List Word :=
  [wide (s.seg .gs), wide (s.seg .fs), wide (s.seg .es), wide (s.seg .ds)]

/-- The same point of the same program, up to memory. -/
structure Resumes (s t : Cpu) : Prop where
  reg : t.reg = s.reg
  seg : t.seg = s.seg
  eip : t.eip = s.eip
  eflags : t.eflags = s.eflags

section Gate

theorem gateFrame_length : (gateFrame s).length ≤ 5 := by
  unfold gateFrame
  split_ifs <;> simp

/-- Where the frame of the processor ends. -/
def stackTop (esp0 : Word) (s : Cpu) : Word :=
  if rpl selectorKCode < rpl (s.seg .cs) then esp0 else s.reg .esp

theorem interrupt_frame :
    Frame (s.interrupt esp0 selectorKStack selectorKCode entry err) (err.toList ++ gateFrame s) := by
  have hgate : ∀ u : Cpu, Frame u
      (if rpl selectorKCode < rpl (s.seg .cs) then [s.reg .esp, wide (s.seg .ss)] else []) →
      Frame (err.elim (((u.push s.eflags).push (wide (s.seg .cs))).push s.eip)
        ((((u.push s.eflags).push (wide (s.seg .cs))).push s.eip)).push)
        (err.toList ++ gateFrame s) := by
    intro u hu
    have hlen : (if rpl selectorKCode < rpl (s.seg .cs) then [s.reg .esp, wide (s.seg .ss)]
        else []).length ≤ 2 := by split_ifs <;> simp
    have hframe : Frame (((u.push s.eflags).push (wide (s.seg .cs))).push s.eip) (gateFrame s) := by
      refine ((hu.push ?_).push ?_).push ?_
      · omega
      · simp only [List.length_cons]
        omega
      · simp only [List.length_cons]
        omega
    cases err with
    | none => exact hframe
    | some e =>
      have hlong := gateFrame_length (s := s)
      exact hframe.push (by omega)
  unfold Cpu.interrupt
  refine (hgate _ ?_).congr rfl rfl
  split_ifs with houter
  · exact (Frame.nil.push (by norm_num)).push (by norm_num)
  · exact Frame.nil

theorem interrupt_reg {r : Reg} (hr : r ≠ .esp) :
    (s.interrupt esp0 selectorKStack selectorKCode entry err).reg r = s.reg r := by
  unfold Cpu.interrupt
  split_ifs <;> cases err <;> simp [hr]

theorem interrupt_sunk : Sunk (stackTop esp0 s) s.mem (err.toList ++ gateFrame s).length
    (s.interrupt esp0 selectorKStack selectorKCode entry err) := by
  have hgate : ∀ (u : Cpu) (k : ℕ), k ≤ 2 → Sunk (stackTop esp0 s) s.mem k u →
      Sunk (stackTop esp0 s) s.mem (k + 3 + err.toList.length)
        (err.elim (((u.push s.eflags).push (wide (s.seg .cs))).push s.eip)
          ((((u.push s.eflags).push (wide (s.seg .cs))).push s.eip)).push) := by
    intro u k hk hu
    have hframe := ((hu.push (w := s.eflags) (by omega)).push (w := wide (s.seg .cs))
      (by omega)).push (w := s.eip) (by omega)
    cases err with
    | none => exact hframe
    | some e => exact hframe.push (by omega)
  have hlen : (err.toList ++ gateFrame s).length =
      (if rpl selectorKCode < rpl (s.seg .cs) then 2 else 0) + 3 + err.toList.length := by
    unfold gateFrame
    split_ifs <;> simp <;> omega
  rw [hlen]
  unfold Cpu.interrupt
  refine (hgate _ _ ?_ ?_).congr rfl rfl
  · split_ifs <;> norm_num
  split_ifs with houter
  · have htop : stackTop esp0 s = esp0 := if_pos houter
    rw [htop]
    have hzero : Sunk esp0 s.mem 0 ((s.setReg .esp esp0).setSeg .ss selectorKStack) :=
      Sunk.zero (by simp) rfl
    have hone := hzero.push (w := wide (s.seg .ss)) (by norm_num)
    exact hone.push (by norm_num)
  · have htop : stackTop esp0 s = s.reg .esp := if_neg houter
    exact Sunk.zero htop.symm rfl

theorem interrupt_seg {g : Seg} (hcs : g ≠ .cs) (hss : g ≠ .ss) :
    (s.interrupt esp0 selectorKStack selectorKCode entry err).seg g = s.seg g := by
  unfold Cpu.interrupt
  split_ifs <;> cases err <;> simp [hcs, hss]

theorem interrupt_cs :
    (s.interrupt esp0 selectorKStack selectorKCode entry err).seg .cs = selectorKCode := by
  simp [Cpu.interrupt]

theorem interrupt_ss (h : ¬rpl selectorKCode < rpl (s.seg .cs)) :
    (s.interrupt esp0 selectorKStack selectorKCode entry err).seg .ss = s.seg .ss := by
  unfold Cpu.interrupt
  rw [if_neg h]
  cases err <;> simp

end Gate

section Saved

def pushSegs : List Instr := [.pushSeg .ds, .pushSeg .es, .pushSeg .fs, .pushSeg .gs]

theorem pushSegs_reg {r : Reg} (hr : r ≠ .esp) : (s.run pushSegs).reg r = s.reg r := by
  simp [pushSegs, run, exec, hr]

/-- The frame of the saved registers on top of `l`. -/
theorem savedFrame (h : Frame s l) (hl : 4 * (l.length + 12) ≤ 2 ^ 32) :
    Frame (s.run pushSegs).pushad (saved (s.run pushSegs).reg ++ (segFrame s ++ l)) := by
  have hsegs : Frame (s.run pushSegs) (segFrame s ++ l) := by
    refine (((h.push ?_).push ?_).push ?_).push ?_
    · omega
    all_goals
      simp only [List.length_cons]
      omega
  refine hsegs.pushad ?_
  have hlen : (segFrame s ++ l).length = l.length + 4 := by
    rw [List.length_append]
    exact Nat.add_comm _ _
  omega

/-- What a conforming function leaves of the stack of its caller. -/
theorem Conforms.frame_after {args : ℕ} {f : Cpu → Cpu} (hf : Conforms args f) (l₀ : List Word)
    (h : Frame c (l₀ ++ l)) (h₀ : l₀.length = 1 + args) (hlen : 4 * (l₀.length + l.length) ≤ 128) :
    Frame ((f c).drop args) l := by
  have hdrop := h.drop rfl
  unfold Frame Cpu.esp at *
  rw [drop_esp, drop_mem, h₀] at hdrop
  rw [drop_esp, drop_mem, hf.esp]
  have haddr : c.reg .esp + 4 + BitVec.ofNat 32 (4 * args) =
      c.reg .esp + BitVec.ofNat 32 (4 * (1 + args)) := by bv_omega
  rw [haddr]
  apply hdrop.congr
  intro k hk
  have hsum : c.reg .esp + BitVec.ofNat 32 (4 * (1 + args)) + BitVec.ofNat 32 k =
      c.reg .esp + BitVec.ofNat 32 (4 * (1 + args) + k) := by
    rw [BitVec.ofNat_add, BitVec.add_assoc]
  rw [hsum]
  exact hf.frame c _ (by omega) (by omega)

theorem iret_resumes (h : Frame t (gateFrame s)) (hreg : ∀ r ≠ .esp, t.reg r = s.reg r)
    (hseg : ∀ g, g ≠ .cs → g ≠ .ss → t.seg g = s.seg g) (hcs : t.seg .cs = selectorKCode)
    (hss : ¬rpl selectorKCode < rpl (s.seg .cs) → t.seg .ss = s.seg .ss)
    (hesp : ¬rpl selectorKCode < rpl (s.seg .cs) → t.reg .esp = s.reg .esp - 12) :
    Resumes s t.iret := by
  have heip : t.top = s.eip := h.top
  have hsel : (t.drop 1).top = wide (s.seg .cs) := h.tail.top
  have hflags : (t.drop 2).top = s.eflags :=
    (Frame.drop (l := [s.eip, wide (s.seg .cs)]) h rfl).top
  unfold Cpu.iret
  rw [heip, hsel, hflags, hcs, narrow_wide]
  dsimp only
  split_ifs with houter
  · have hrest : gateFrame s =
        [s.eip, wide (s.seg .cs), s.eflags] ++ [s.reg .esp, wide (s.seg .ss)] := by
      unfold gateFrame
      rw [if_pos houter]
      rfl
    rw [hrest] at h
    have hold : (t.drop 3).top = s.reg .esp := (h.drop rfl).top
    have holdss : (t.drop 4).top = wide (s.seg .ss) := (Frame.drop (l := [s.eip, wide (s.seg .cs), s.eflags, s.reg .esp]) h rfl).top
    rw [hold, holdss, narrow_wide]
    refine ⟨?_, ?_, rfl, rfl⟩
    · funext r
      by_cases hr : r = .esp
      · rw [hr]
        simp
      · simpa [hr] using hreg r hr
    · funext g
      cases g <;> simp [hseg]
  · refine ⟨?_, ?_, rfl, rfl⟩
    · funext r
      by_cases hr : r = .esp
      · rw [hr, drop_esp]
        change t.reg .esp + 12 = _
        rw [hesp houter, sub_add_cancel]
      · rw [drop_reg hr]
        exact hreg r hr
    · funext g
      cases g <;> simp [hseg, hss houter]

/-- `intr_exit` on a frame with one word in place of an error code. -/
theorem intrExit_resumes {f : Reg → Word}
    (h₁ : Frame (t.drop 1) (saved f ++ (segFrame s ++ w :: gateFrame s)))
    (hcs : t.seg .cs = selectorKCode) (hf : ∀ r ≠ .esp, f r = s.reg r)
    (hss : ¬rpl selectorKCode < rpl (s.seg .cs) → t.seg .ss = s.seg .ss)
    (hesp : ¬rpl selectorKCode < rpl (s.seg .cs) → t.reg .esp = s.reg .esp - 68) :
    Resumes s (t.run intrExit) := by
  have h₂ := h₁.popad
  have h₃ := h₂.popSeg (g := .gs)
  have h₄ := h₃.popSeg (g := .fs)
  have h₅ := h₄.popSeg (g := .es)
  have h₆ := h₅.popSeg (g := .ds)
  have h₇ := h₆.tail
  have hcode : t.run intrExit =
      ((((((t.drop 1).popad.popSeg .gs).popSeg .fs).popSeg .es).popSeg .ds).drop 1).iret := rfl
  rw [hcode]
  have hreg : ∀ r ≠ .esp, (((((((t.drop 1).popad.popSeg .gs).popSeg .fs).popSeg .es).popSeg
      .ds).drop 1).reg r) = s.reg r := by
    intro r hr
    rw [h₅.popSeg_eq, h₄.popSeg_eq, h₃.popSeg_eq, h₂.popSeg_eq]
    simp only [drop_reg hr, setSeg_reg]
    rw [h₁.popad_reg hr, hf r hr]
  have hseg : ∀ g, g ≠ .cs → g ≠ .ss → (((((((t.drop 1).popad.popSeg .gs).popSeg .fs).popSeg
      .es).popSeg .ds).drop 1).seg g) = s.seg g := by
    intro g hgcs hgss
    rw [h₅.popSeg_eq, h₄.popSeg_eq, h₃.popSeg_eq, h₂.popSeg_eq]
    cases g <;> first | exact absurd rfl hgcs | exact absurd rfl hgss | simp
  have hkept : ∀ g, g = .cs ∨ g = .ss → (((((((t.drop 1).popad.popSeg .gs).popSeg .fs).popSeg
      .es).popSeg .ds).drop 1).seg g) = t.seg g := by
    rintro g (rfl | rfl) <;> rfl
  have hstack : ((((((t.drop 1).popad.popSeg .gs).popSeg .fs).popSeg .es).popSeg .ds).drop 1).reg
      .esp = t.reg .esp + 56 := by
    simp only [Cpu.popSeg, drop_esp, setSeg_reg, popad_esp]
    bv_omega
  generalize ((((((t.drop 1).popad.popSeg .gs).popSeg .fs).popSeg .es).popSeg .ds).drop 1) = q
    at h₇ hreg hseg hkept hstack
  exact iret_resumes h₇ hreg hseg ((hkept .cs (.inl rfl)).trans hcs)
    (fun hin => (hkept .ss (.inr rfl)).trans (hss hin))
    (fun hin => by rw [hstack, hesp hin]; bv_omega)

theorem intrExit_mem : (t.run intrExit).mem = t.mem := iret_mem

theorem intrExit_outs : (t.run intrExit).outs = t.outs := iret_outs

end Saved

section Interrupts

/-- The words below the frame of the processor, when one stands in place of an error code. -/
def slot (n : ℕ) (err : Option Word) : List Word := (if n = 0x1e then [] else [0]) ++ err.toList

theorem slot_eq (h : n = 0x1e ↔ err.isSome) : ∃ w, slot n err = [w] := by
  unfold slot
  cases err with
  | none => exact ⟨0, by simp_all⟩
  | some e => exact ⟨e, by simp_all⟩

/-- After `VECTOR`'s macro. -/
def intrSlot (entry esp0 : Word) (err : Option Word) (n : ℕ) (s : Cpu) : Cpu :=
  (s.interrupt esp0 selectorKStack selectorKCode entry err).run (vectorMacro n)

theorem intrSlot_frame : Frame (intrSlot entry esp0 err n s) (slot n err ++ gateFrame s) := by
  have hlong := gateFrame_length (s := s)
  have herr : err.toList.length ≤ 1 := by cases err <;> simp
  unfold intrSlot vectorMacro slot
  split_ifs
  · exact interrupt_frame
  · refine interrupt_frame.push ?_
    rw [List.length_append]
    omega

theorem intrSlot_sunk : Sunk (stackTop esp0 s) s.mem (slot n err ++ gateFrame s).length
    (intrSlot entry esp0 err n s) := by
  have hlong := gateFrame_length (s := s)
  have herr : err.toList.length ≤ 1 := by cases err <;> simp
  unfold intrSlot vectorMacro slot
  split_ifs
  · exact interrupt_sunk
  · refine interrupt_sunk.push ?_
    rw [List.length_append]
    omega

theorem intrSlot_reg {r : Reg} (hr : r ≠ .esp) : (intrSlot entry esp0 err n s).reg r = s.reg r := by
  unfold intrSlot vectorMacro
  split_ifs <;> simp [run, exec, hr, interrupt_reg]

theorem intrSlot_seg :
    (intrSlot entry esp0 err n s).seg =
      (s.interrupt esp0 selectorKStack selectorKCode entry err).seg := by
  unfold intrSlot vectorMacro
  split_ifs <;> rfl

theorem intrSlot_segFrame : segFrame (intrSlot entry esp0 err n s) = segFrame s := by
  unfold segFrame
  rw [intrSlot_seg]
  simp only [interrupt_seg, ne_eq, reduceCtorEq, not_false_eq_true]

theorem intrCall_eq : intrCall ret entry esp0 err n s =
    (((((intrSlot entry esp0 err n s).run pushSegs).pushad.run
      [.movAl 0x20, .outAl 0xa0, .outAl 0x20]).push (BitVec.ofNat 32 n)).push ret) := by
  unfold intrCall intrEntry intrSlot
  rw [run_append]
  rfl

theorem eoi_reg {r : Reg} (hr : r ≠ .eax) :
    (t.run [.movAl 0x20, .outAl 0xa0, .outAl 0x20]).reg r = t.reg r :=
  Function.update_of_ne hr _ _

theorem slot_length : (slot n err).length ≤ 2 := by
  unfold slot
  split_ifs <;> cases err <;> simp

theorem intrCall_frame : Frame (intrCall ret entry esp0 err n s)
    (ret :: BitVec.ofNat 32 n :: (saved ((intrSlot entry esp0 err n s).run pushSegs).reg ++
      (segFrame s ++ (slot n err ++ gateFrame s)))) := by
  have hlong := gateFrame_length (s := s)
  have hshort := @slot_length err n
  have hsaved := savedFrame (@intrSlot_frame s entry esp0 err n) (by rw [List.length_append]; omega)
  rw [intrSlot_segFrame] at hsaved
  rw [intrCall_eq]
  refine ((hsaved.congr rfl rfl).push ?_).push ?_
  all_goals
    simp only [segFrame, saved, List.length_append, List.length_cons, List.length_nil]
    omega

theorem intrCall_sunk : Sunk (stackTop esp0 s) s.mem (14 + (slot n err ++ gateFrame s).length)
    (intrCall ret entry esp0 err n s) := by
  have hlong := gateFrame_length (s := s)
  have hshort := @slot_length err n
  have hslot := @intrSlot_sunk s entry esp0 err n
  have hlen := @List.length_append _ (slot n err) (gateFrame s)
  generalize (slot n err ++ gateFrame s).length = k at hslot hlen ⊢
  have hsum : 14 + k = k + 1 + 1 + 1 + 1 + 8 + 1 + 1 := by omega
  rw [intrCall_eq, hsum]
  have hsegs := (((hslot.push (w := wide ((intrSlot entry esp0 err n s).seg .ds)) (by omega)).push
    (w := wide ((intrSlot entry esp0 err n s).seg .es)) (by omega)).push
    (w := wide ((intrSlot entry esp0 err n s).seg .fs)) (by omega)).push
    (w := wide ((intrSlot entry esp0 err n s).seg .gs)) (by omega)
  have hregs := hsegs.pushad (by omega)
  have heoi := hregs.congr (t := (((intrSlot entry esp0 err n s).run pushSegs).pushad.run
    [.movAl 0x20, .outAl 0xa0, .outAl 0x20])) (eoi_reg (r := .esp) (by decide)) rfl
  exact (heoi.push (by omega)).push (by omega)

theorem intrCall_cs : (intrCall ret entry esp0 err n s).seg .cs = selectorKCode := by
  have hseg : (intrCall ret entry esp0 err n s).seg = (intrSlot entry esp0 err n s).seg := by
    rw [intrCall_eq]
    rfl
  rw [hseg, intrSlot_seg, interrupt_cs]

theorem intrCall_ss (h : ¬rpl selectorKCode < rpl (s.seg .cs)) :
    (intrCall ret entry esp0 err n s).seg .ss = s.seg .ss := by
  have hseg : (intrCall ret entry esp0 err n s).seg = (intrSlot entry esp0 err n s).seg := by
    rw [intrCall_eq]
    rfl
  rw [hseg, intrSlot_seg, interrupt_ss h]

theorem intrCall_outs :
    (intrCall ret entry esp0 err n s).outs = s.outs ++ [(0xa0, 0x20), (0x20, 0x20)] := by
  have hslot : (intrSlot entry esp0 err n s).outs = s.outs := by
    unfold intrSlot vectorMacro Cpu.interrupt
    split_ifs <;> cases err <;> rfl
  rw [intrCall_eq]
  simp only [run, exec, pushSegs, Cpu.pushad, List.foldl_cons, List.foldl_nil, List.map_cons,
    List.map_nil, push_outs, setReg_outs, setReg_reg, Function.update_self, low_append, hslot,
    List.append_assoc, List.cons_append, List.nil_append]

/-- The interrupted program goes on where it was. -/
theorem intr_resumes {handler : Cpu → Cpu} (hf : Conforms 1 handler) (hn : n = 0x1e ↔ err.isSome) :
    Resumes s (intr ret entry esp0 err n handler s) := by
  obtain ⟨w, hw⟩ := slot_eq hn
  have hlong := gateFrame_length (s := s)
  have hframe := @intrCall_frame s ret entry esp0 err n
  have hsunk := @intrCall_sunk s ret entry esp0 err n
  rw [hw] at hframe hsunk
  refine intrExit_resumes (hf.frame_after [ret, BitVec.ofNat 32 n] hframe rfl ?_) ?_ ?_ ?_ ?_
  · simp only [segFrame, saved, List.length_append, List.length_cons, List.length_nil]
    omega
  · rw [hf.cs, intrCall_cs]
  · intro r hr
    rw [pushSegs_reg hr, intrSlot_reg hr]
  · intro hin
    rw [hf.ss, intrCall_ss hin]
  · intro hin
    have hlen : ([w] ++ gateFrame s).length = 4 := by
      unfold gateFrame
      rw [if_neg hin]
      rfl
    have htop : stackTop esp0 s = s.reg .esp := if_neg hin
    rw [hf.esp, hsunk.esp, hlen, htop]
    bv_omega

/-- With two words there, the stack pointer is one word off at the `iret`. -/
theorem intr_astray {handler : Cpu → Cpu} {code : Word} (hf : Conforms 1 handler) (hn : n ≠ 0x1e) :
    Frame (intrReturn ret entry esp0 (some code) n handler s) (code :: gateFrame s) := by
  have hlong := gateFrame_length (s := s)
  have hframe := @intrCall_frame s ret entry esp0 (some code) n
  have hslot : slot n (some code) = [0, code] := by simp [slot, hn]
  rw [hslot] at hframe
  have hafter : Frame ((handler (intrCall ret entry esp0 (some code) n s)).drop 1)
      (saved ((intrSlot entry esp0 (some code) n s).run pushSegs).reg ++
        (segFrame s ++ ([0, code] ++ gateFrame s))) := by
    refine hf.frame_after [ret, BitVec.ofNat 32 n] hframe rfl ?_
    simp only [segFrame, saved, List.length_append, List.length_cons, List.length_nil]
    omega
  have hpopped := hafter.popad
  exact ((((hpopped.popSeg (g := .gs)).popSeg (g := .fs)).popSeg (g := .es)).popSeg
    (g := .ds)).tail

/-- An interrupt between two instructions of any program, in the kernel or not, on its way through
`intr%1Entry`, a handler and `intr_exit`. Both controllers get their end of interrupt, the handler
gets the number, and the program goes on as it was, if the processor and the macro put one word in
the place of the error code. If both put one, the `iret` takes the error code for `eip`, and `eip`
for the selector. -/
theorem interrupt_entry_law {handler : Cpu → Cpu} (hf : Conforms 1 handler) (ret entry esp0 : Word)
    (err : Option Word) (n : ℕ) (s : Cpu) :
    word (intrCall ret entry esp0 err n s).mem ((intrCall ret entry esp0 err n s).reg .esp + 4) =
        BitVec.ofNat 32 n ∧
      (intrCall ret entry esp0 err n s).outs = s.outs ++ [(0xa0, 0x20), (0x20, 0x20)] ∧
      (∀ b, 84 ≤ (b - (stackTop esp0 s - 84)).toNat →
        (intrCall ret entry esp0 err n s).mem b = s.mem b) ∧
      (intr ret entry esp0 err n handler s).mem = (handler (intrCall ret entry esp0 err n s)).mem ∧
      (intr ret entry esp0 err n handler s).outs =
        (handler (intrCall ret entry esp0 err n s)).outs ∧
      ((n = 0x1e ↔ err.isSome) → Resumes s (intr ret entry esp0 err n handler s)) ∧
      (n ≠ 0x1e → ∀ code, err = some code →
        (intrReturn ret entry esp0 err n handler s).top = code ∧
          ((intrReturn ret entry esp0 err n handler s).drop 1).top = s.eip) := by
  refine ⟨intrCall_frame.tail.top, intrCall_outs, ?_, intrExit_mem, intrExit_outs, ?_, ?_⟩
  · intro b hb
    have hlong := gateFrame_length (s := s)
    have hshort := @slot_length err n
    refine intrCall_sunk.mem_of_le (k := 21) ?_ (by norm_num) hb
    rw [List.length_append]
    omega
  · exact intr_resumes hf
  · rintro hn code rfl
    have hastray : Frame (intrReturn ret entry esp0 (some code) n handler s)
        (code :: gateFrame s) := intr_astray hf hn
    exact ⟨hastray.top, hastray.tail.top⟩

/-- A function that only returns. -/
def returns (s : Cpu) : Cpu := s.drop 1

theorem returns_conforms (args : ℕ) : Conforms args returns :=
  ⟨fun _ => drop_esp, fun _ => rfl, fun _ => rfl, fun _ _ _ _ => rfl⟩

/-- A program with its own selectors, interrupts on. -/
def program : Cpu where
  reg r := if r = .esp then 0xbffffff0 else 7
  seg g := if g = .cs then 0x2b else 0x33
  eip := 0x08048123
  eflags := 0x202
  mem _ := 0
  outs := []

/-- The clock during a program. -/
theorem interrupt_entry_law_sample : Conforms 1 returns ∧
    Resumes program (intr 0xc0001000 0xc0001040 0xc0103000 none 0x20 returns program) :=
  ⟨returns_conforms 1, (interrupt_entry_law (returns_conforms 1) 0xc0001000 0xc0001040 0xc0103000
    none 0x20 program).2.2.2.2.2.1 (by decide)⟩

end Interrupts

section Syscalls

/-- The numbers of `kernel/user/syscall_define.h`. -/
inductive SYSCALL where
  | getPid | write | malloc | free | fork | read | putChar | clear | open | close | lseek | unlink
  | mkdir | getCwd | openDir | closeDir | chDir | rmdir | readDir | rewindDir | stat | ps | execv
  | exit | wait
deriving DecidableEq

def SYSCALL.number (c : SYSCALL) : Word := BitVec.ofNat 32 c.ctorIdx

/-- In the order of `syscallInit`. -/
def syscalls : List SYSCALL :=
  [.getPid, .write, .malloc, .free, .fork, .read, .putChar, .clear, .open, .close, .lseek, .unlink,
    .mkdir, .getCwd, .openDir, .closeDir, .chDir, .rmdir, .readDir, .rewindDir, .stat, .ps, .execv,
    .exit, .wait]

/-- `syscallHandlerTable` after `syscallInit`, over what the memory held. -/
def syscallHandlerTable (junk : Word → Cpu → Cpu) (sys : SYSCALL → Cpu → Cpu) : Word → Cpu → Cpu :=
  syscalls.foldl (fun table c => Function.update table c.number (sys c)) junk

theorem number_injective : Function.Injective SYSCALL.number := by
  intro c d h
  have hlt : ∀ c : SYSCALL, c.ctorIdx < 2 ^ 32 := by
    intro c
    cases c <;> decide
  have hnat : c.ctorIdx = d.ctorIdx := by
    have h := congrArg BitVec.toNat h
    unfold SYSCALL.number at h
    rwa [BitVec.toNat_ofNat, BitVec.toNat_ofNat, Nat.mod_eq_of_lt (hlt c),
      Nat.mod_eq_of_lt (hlt d)] at h
  cases c <;> cases d <;> first | rfl | exact absurd hnat (by decide)

theorem installed (sys : SYSCALL → Cpu → Cpu) (c : SYSCALL) : ∀ (l : List SYSCALL)
    (table : Word → Cpu → Cpu),
    l.foldl (fun table d => Function.update table d.number (sys d)) table c.number =
      if c ∈ l then sys c else table c.number := by
  intro l
  induction l with
  | nil => simp
  | cons d l ih =>
    intro table
    rw [List.foldl_cons, ih]
    by_cases hc : c ∈ l
    · simp [hc]
    · by_cases hd : c = d
      · simp [hd]
      · simp [hc, hd, number_injective.eq_iff]

theorem syscallHandlerTable_number {junk : Word → Cpu → Cpu} {sys : SYSCALL → Cpu → Cpu}
    (c : SYSCALL) : syscallHandlerTable junk sys c.number = sys c := by
  have hmem : c ∈ syscalls := by cases c <;> decide
  unfold syscallHandlerTable
  rw [installed, if_pos hmem]

/-- After `push 0` of `syscallEntry`. -/
def syscallSlot (entry esp0 : Word) (s : Cpu) : Cpu :=
  (s.interrupt esp0 selectorKStack selectorKCode entry none).push 0

theorem syscallSlot_eq : syscallSlot entry esp0 s = intrSlot entry esp0 none 0x80 s := rfl

theorem pushArgs {u : Cpu} (h : ∀ r ≠ .esp, u.reg r = s.reg r) :
    u.run [.push .edx, .push .ecx, .push .ebx] =
      ((u.push (s.reg .edx)).push (s.reg .ecx)).push (s.reg .ebx) := by
  simp only [run, exec, List.foldl_cons, List.foldl_nil, push_reg, ne_eq, reduceCtorEq,
    not_false_eq_true, h]

theorem syscallCall_eq : syscallCall ret entry esp0 s =
    ((((((syscallSlot entry esp0 s).run pushSegs).pushad.push 0x80).push (s.reg .edx)).push
      (s.reg .ecx)).push (s.reg .ebx)).push ret := by
  have hcode : syscallEntry = [.pushImm 0] ++ (pushSegs ++ ([.pushad, .pushImm 0x80] ++
    [.push .edx, .push .ecx, .push .ebx])) := rfl
  unfold syscallCall
  rw [hcode, run_append, run_append, run_append]
  congr 1
  apply pushArgs
  intro r hr
  refine (push_reg hr).trans ?_
  refine (pushad_reg hr).trans ?_
  refine (pushSegs_reg hr).trans ?_
  exact (push_reg hr).trans (interrupt_reg hr)

theorem syscallCall_frame : Frame (syscallCall ret entry esp0 s)
    (ret :: s.reg .ebx :: s.reg .ecx :: s.reg .edx :: 0x80 ::
      (saved ((syscallSlot entry esp0 s).run pushSegs).reg ++ (segFrame s ++ 0 :: gateFrame s))) := by
  have hlong := gateFrame_length (s := s)
  have hslot : Frame (syscallSlot entry esp0 s) (0 :: gateFrame s) := intrSlot_frame (n := 0x80)
  have hsaved := savedFrame hslot (by simp only [List.length_cons]; omega)
  rw [syscallSlot_eq, intrSlot_segFrame, ← syscallSlot_eq] at hsaved
  rw [syscallCall_eq]
  refine ((((hsaved.push ?_).push ?_).push ?_).push ?_).push ?_
  all_goals
    simp only [segFrame, saved, List.length_append, List.length_cons, List.length_nil]
    omega

theorem syscallCall_sunk : Sunk (stackTop esp0 s) s.mem ((gateFrame s).length + 18)
    (syscallCall ret entry esp0 s) := by
  have hlong := gateFrame_length (s := s)
  have hslot : Sunk (stackTop esp0 s) s.mem (1 + (gateFrame s).length)
      (syscallSlot entry esp0 s) := by
    have h := @intrSlot_sunk s entry esp0 none 0x80
    rwa [List.length_append] at h
  have hsum : (gateFrame s).length + 18 =
      1 + (gateFrame s).length + 1 + 1 + 1 + 1 + 8 + 1 + 1 + 1 + 1 + 1 := by omega
  rw [syscallCall_eq, hsum]
  have hsegs := (((hslot.push (w := wide ((syscallSlot entry esp0 s).seg .ds)) (by omega)).push
    (w := wide ((syscallSlot entry esp0 s).seg .es)) (by omega)).push
    (w := wide ((syscallSlot entry esp0 s).seg .fs)) (by omega)).push
    (w := wide ((syscallSlot entry esp0 s).seg .gs)) (by omega)
  exact (((((hsegs.pushad (by omega)).push (by omega)).push (by omega)).push (by omega)).push
    (by omega)).push (by omega)

theorem syscallCall_seg : (syscallCall ret entry esp0 s).seg =
    (s.interrupt esp0 selectorKStack selectorKCode entry none).seg := by
  rw [syscallCall_eq]
  rfl

/-- The frame when the handler has returned and its result is in the place of `eax`. -/
theorem syscallExit_frame {f : Cpu → Cpu} (hf : Conforms 3 f) :
    Frame (((f (syscallCall ret entry esp0 s)).run syscallExit).drop 1)
      (saved (Function.update ((syscallSlot entry esp0 s).run pushSegs).reg .eax
        ((f (syscallCall ret entry esp0 s)).reg .eax)) ++ (segFrame s ++ 0 :: gateFrame s)) := by
  have hlong := gateFrame_length (s := s)
  have hafter : Frame ((f (syscallCall ret entry esp0 s)).drop 3)
      (0x80 :: (saved ((syscallSlot entry esp0 s).run pushSegs).reg ++
        (segFrame s ++ 0 :: gateFrame s))) := by
    refine hf.frame_after [ret, s.reg .ebx, s.reg .ecx, s.reg .edx] syscallCall_frame rfl ?_
    simp only [segFrame, saved, List.length_append, List.length_cons, List.length_nil]
    omega
  have hstored := Holds.set (w := (f (syscallCall ret entry esp0 s)).reg .eax) (i := 8) hafter
    (by simp only [saved, List.length_append, List.length_cons, List.length_nil]; omega)
    (by simp only [segFrame, saved, List.length_append, List.length_cons, List.length_nil]; omega)
  have hset : Frame ((f (syscallCall ret entry esp0 s)).run syscallExit)
      (0x80 :: (saved (Function.update ((syscallSlot entry esp0 s).run pushSegs).reg .eax
        ((f (syscallCall ret entry esp0 s)).reg .eax)) ++ (segFrame s ++ 0 :: gateFrame s))) := by
    simpa [Frame, saved, Cpu.esp, syscallExit, run, exec] using hstored
  exact hset.tail

theorem syscallExit_esp {f : Cpu → Cpu} (hf : Conforms 3 f) :
    ((f (syscallCall ret entry esp0 s)).run syscallExit).reg .esp =
      (syscallCall ret entry esp0 s).reg .esp + 16 := by
  have hesp := hf.esp (syscallCall ret entry esp0 s)
  simp only [syscallExit, run, exec, List.foldl_cons, List.foldl_nil, setReg_reg,
    Function.update_self, Cpu.esp, hesp]
  bv_omega

theorem syscall_resumes {table : Word → Cpu → Cpu} (hf : Conforms 3 (table (s.reg .eax))) :
    Resumes (s.setReg .eax ((table (s.reg .eax) (syscallCall ret entry esp0 s)).reg .eax))
      (syscall ret entry esp0 table s) := by
  have hgate : ∀ w, gateFrame (s.setReg .eax w) = gateFrame s := by
    intro w
    simp [gateFrame]
  have hframe := @syscallExit_frame s ret entry esp0 _ hf
  have hesp := @syscallExit_esp s ret entry esp0 _ hf
  unfold syscall
  generalize hw : (table (s.reg .eax) (syscallCall ret entry esp0 s)).reg .eax = w at hframe ⊢
  refine intrExit_resumes (w := 0) (f := Function.update ((syscallSlot entry esp0 s).run pushSegs).reg
    .eax w) ?_ ?_ ?_ ?_ ?_
  · rw [hgate]
    exact hframe
  · refine (hf.cs _).trans ?_
    rw [syscallCall_seg, interrupt_cs]
  · intro r hr
    by_cases hax : r = .eax
    · rw [hax]
      simp
    · rw [Function.update_of_ne hax, pushSegs_reg hr, syscallSlot_eq, intrSlot_reg hr]
      simp [hax]
  · intro hin
    rw [setReg_seg] at hin
    refine (hf.ss _).trans ?_
    rw [syscallCall_seg, interrupt_ss hin]
    rfl
  · intro hin
    rw [setReg_seg] at hin
    have hlen : (gateFrame s).length = 3 := by
      unfold gateFrame
      rw [if_neg hin]
      rfl
    have htop : stackTop esp0 s = s.reg .esp := if_neg hin
    have hold : (s.setReg .eax w).reg .esp = s.reg .esp := by simp
    rw [hesp, syscallCall_sunk.esp, hlen, htop, hold]
    bv_omega

theorem syscall_mem {table : Word → Cpu → Cpu} (hf : Conforms 3 (table (s.reg .eax))) {b : Word}
    (hb : 92 ≤ (b - (stackTop esp0 s - 92)).toNat) : (syscall ret entry esp0 table s).mem b =
      (table (s.reg .eax) (syscallCall ret entry esp0 s)).mem b := by
  have hlong := gateFrame_length (s := s)
  have hesp := hf.esp (syscallCall ret entry esp0 s)
  rw [syscallCall_sunk.esp] at hesp
  have hadd : ∀ u : Cpu, u.run [.addEsp 12] = u.drop 3 := fun _ => rfl
  have hexit : ((table (s.reg .eax) (syscallCall ret entry esp0 s)).run syscallExit).mem =
      setWord (table (s.reg .eax) (syscallCall ret entry esp0 s)).mem
        ((table (s.reg .eax) (syscallCall ret entry esp0 s)).reg .esp + 44)
        ((table (s.reg .eax) (syscallCall ret entry esp0 s)).reg .eax) := by
    have haddr : (table (s.reg .eax) (syscallCall ret entry esp0 s)).reg .esp + 12 + 32 =
        (table (s.reg .eax) (syscallCall ret entry esp0 s)).reg .esp + 44 := by bv_omega
    rw [← haddr]
    simp [syscallExit, run, exec, Cpu.esp]
  refine (congrFun (intrExit_mem.trans hexit) b).trans ?_
  apply setWord_apart
  rw [hesp]
  bv_omega

/-- A system call of a program. The handler of that number gets the arguments from `ebx`, `ecx` and
`edx`, its result is in `eax` afterwards, and nothing else of the program has changed but what the
handler did to memory. -/
theorem syscall_law {sys : SYSCALL → Cpu → Cpu} {c : SYSCALL} (hf : Conforms 3 (sys c))
    (junk : Word → Cpu → Cpu) (ret entry esp0 : Word) (s : Cpu) (hs : s.reg .eax = c.number) :
    word (syscallCall ret entry esp0 s).mem ((syscallCall ret entry esp0 s).reg .esp + 4) =
        s.reg .ebx ∧
      word (syscallCall ret entry esp0 s).mem ((syscallCall ret entry esp0 s).reg .esp + 8) =
        s.reg .ecx ∧
      word (syscallCall ret entry esp0 s).mem ((syscallCall ret entry esp0 s).reg .esp + 12) =
        s.reg .edx ∧
      (∀ b, 92 ≤ (b - (stackTop esp0 s - 92)).toNat →
        (syscallCall ret entry esp0 s).mem b = s.mem b) ∧
      Resumes (s.setReg .eax ((sys c (syscallCall ret entry esp0 s)).reg .eax))
        (syscall ret entry esp0 (syscallHandlerTable junk sys) s) ∧
      (∀ b, 92 ≤ (b - (stackTop esp0 s - 92)).toNat →
        (syscall ret entry esp0 (syscallHandlerTable junk sys) s).mem b =
          (sys c (syscallCall ret entry esp0 s)).mem b) := by
  have htable : syscallHandlerTable junk sys (s.reg .eax) = sys c := by
    rw [hs, syscallHandlerTable_number]
  have hframe := @syscallCall_frame s ret entry esp0
  have hconf : Conforms 3 (syscallHandlerTable junk sys (s.reg .eax)) := by
    rwa [htable]
  have hlong := gateFrame_length (s := s)
  refine ⟨hframe.tail.top, ?_, ?_, ?_, ?_, ?_⟩
  · exact (Frame.drop (l := [ret, s.reg .ebx]) hframe rfl).top
  · exact (Frame.drop (l := [ret, s.reg .ebx, s.reg .ecx]) hframe rfl).top
  · exact fun b hb => syscallCall_sunk.mem_of_le (k := 23) (by omega) (by norm_num) hb
  · have hres := @syscall_resumes s ret entry esp0 _ hconf
    rwa [htable] at hres
  · intro b hb
    have hmem := @syscall_mem s ret entry esp0 _ hconf b hb
    rwa [htable] at hmem

/-- `fork()` of a program whose handlers do nothing. -/
theorem syscall_law_sample : Conforms 3 returns ∧
    (program.setReg .eax SYSCALL.fork.number).reg .eax = SYSCALL.fork.number ∧
    word (syscallCall 0xc0001000 0xc0001040 0xc0103000
        (program.setReg .eax SYSCALL.fork.number)).mem
      ((syscallCall 0xc0001000 0xc0001040 0xc0103000
        (program.setReg .eax SYSCALL.fork.number)).reg .esp + 4) = 7 :=
  ⟨returns_conforms 3, rfl, (@syscall_law (fun _ => returns) .fork (returns_conforms 3)
    (fun _ => returns) 0xc0001000 0xc0001040 0xc0103000
    (program.setReg .eax SYSCALL.fork.number) rfl).1⟩

end Syscalls

end Gogoos.KernelAsm
