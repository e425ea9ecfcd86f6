import Gogoos.Machine.Words

/-!
# The stack instructions of the processor

As much of the 32-bit processor as code needs that saves and restores registers: pushes and pops,
the entry into an interrupt through a gate and the return from it. Code is straight-line; what a
call does is up to the one who runs the pieces before and after it.
-/

namespace Gogoos.X86

inductive Reg where
  | eax | ecx | edx | ebx | esp | ebp | esi | edi
deriving DecidableEq

inductive Seg where
  | es | cs | ss | ds | fs | gs
deriving DecidableEq

/-- `outs` are the bytes sent to ports so far, each after its port. -/
structure Cpu where
  reg : Reg → Word
  seg : Seg → BitVec 16
  eip : Word
  eflags : Word
  mem : Memory
  outs : List (BitVec 8 × BitVec 8)

inductive Instr where
  | push (r : Reg)
  | pushImm (w : Word)
  | pushSeg (g : Seg)
  | pushad
  | pop (r : Reg)
  | popSeg (g : Seg)
  | popad
  | addEsp (w : Word)
  | load (r base : Reg) (off : Word)
  | store (base : Reg) (off : Word) (r : Reg)
  | movAl (b : BitVec 8)
  | outAl (port : BitVec 8)
  | ret
  | iret

/-- A selector on the stack. -/
def wide (g : BitVec 16) : Word := g.setWidth 32

def narrow (w : Word) : BitVec 16 := w.setWidth 16

/-- The privilege level of a selector, 3 for programs. -/
def rpl (g : BitVec 16) : ℕ := g.toNat % 4

@[simp] theorem narrow_wide (g : BitVec 16) : narrow (wide g) = g := by
  simp [narrow, wide]

/-- The low byte of a register, after a move to it. -/
theorem low_append (h : BitVec 24) (b : BitVec 8) : (h ++ b : Word).setWidth 8 = b := by
  ext i hi
  rw [BitVec.getElem_setWidth]
  refine BitVec.getLsbD_append.trans ?_
  rw [if_pos hi, BitVec.getLsbD_eq_getElem hi]

namespace Cpu

def esp (s : Cpu) : Word := s.reg .esp

def setReg (s : Cpu) (r : Reg) (w : Word) : Cpu := { s with reg := Function.update s.reg r w }

def setSeg (s : Cpu) (g : Seg) (w : BitVec 16) : Cpu := { s with seg := Function.update s.seg g w }

def push (s : Cpu) (w : Word) : Cpu :=
  { s with reg := Function.update s.reg .esp (s.esp - 4), mem := setWord s.mem (s.esp - 4) w }

def top (s : Cpu) : Word := word s.mem s.esp

def drop (s : Cpu) (n : ℕ) : Cpu := s.setReg .esp (s.esp + BitVec.ofNat 32 (4 * n))

def pop (s : Cpu) (r : Reg) : Cpu := (s.drop 1).setReg r s.top

def popSeg (s : Cpu) (g : Seg) : Cpu := (s.drop 1).setSeg g (narrow s.top)

def pushad (s : Cpu) : Cpu :=
  ([.eax, .ecx, .edx, .ebx, .esp, .ebp, .esi, .edi].map s.reg).foldl push s

def popad (s : Cpu) : Cpu :=
  (((((((s.pop .edi).pop .esi).pop .ebp).drop 1).pop .ebx).pop .edx).pop .ecx).pop .eax

/-- The stack pointer and the stack segment are on the stack only when the interrupt came from a
less privileged level. -/
def iret (s : Cpu) : Cpu :=
  let cs := narrow (s.drop 1).top
  let s' : Cpu := { s with eip := s.top, eflags := (s.drop 2).top }
  if rpl (s.seg .cs) < rpl cs then
    ((s'.setSeg .cs cs).setSeg .ss (narrow (s.drop 4).top)).setReg .esp (s.drop 3).top
  else (s'.setSeg .cs cs).drop 3

def exec (s : Cpu) : Instr → Cpu
  | .push r => s.push (s.reg r)
  | .pushImm w => s.push w
  | .pushSeg g => s.push (wide (s.seg g))
  | .pushad => s.pushad
  | .pop r => s.pop r
  | .popSeg g => s.popSeg g
  | .popad => s.popad
  | .addEsp w => s.setReg .esp (s.esp + w)
  | .load r base off => s.setReg r (word s.mem (s.reg base + off))
  | .store base off r => { s with mem := setWord s.mem (s.reg base + off) (s.reg r) }
  | .movAl b => s.setReg .eax ((s.reg .eax).extractLsb' 8 24 ++ b)
  | .outAl port => { s with outs := s.outs ++ [(port, (s.reg .eax).setWidth 8)] }
  | .ret => { s.drop 1 with eip := s.top }
  | .iret => s.iret

def run (s : Cpu) (code : List Instr) : Cpu := code.foldl exec s

/-- The flags that the entry through an interrupt gate clears. -/
def gateFlags : Word := 0x34300

/-- Entry into an interrupt through a gate with this selector and address. From a less privileged
level the stack is the one that the task state names. -/
def interrupt (s : Cpu) (esp0 : Word) (ss0 selector : BitVec 16) (entry : Word)
    (errorCode : Option Word) : Cpu :=
  let s₁ := if rpl selector < rpl (s.seg .cs) then
      (((s.setReg .esp esp0).setSeg .ss ss0).push (wide (s.seg .ss))).push s.esp
    else s
  let s₂ := ((s₁.push s.eflags).push (wide (s.seg .cs))).push s.eip
  let s₃ := errorCode.elim s₂ s₂.push
  { s₃.setSeg .cs selector with eip := entry, eflags := s.eflags &&& ~~~gateFlags }

end Cpu

/-- The words on top of the stack. -/
def Frame (s : Cpu) (l : List Word) : Prop := Holds s.mem s.esp l

open Cpu

variable {s t : Cpu} {l l' : List Word} {v w : Word} {r : Reg} {g : Seg} {n : ℕ}

section Fields

@[simp] theorem setReg_reg : (s.setReg r w).reg = Function.update s.reg r w := rfl
@[simp] theorem setReg_seg : (s.setReg r w).seg = s.seg := rfl
@[simp] theorem setReg_mem : (s.setReg r w).mem = s.mem := rfl
@[simp] theorem setReg_eip : (s.setReg r w).eip = s.eip := rfl
@[simp] theorem setReg_eflags : (s.setReg r w).eflags = s.eflags := rfl
@[simp] theorem setReg_outs : (s.setReg r w).outs = s.outs := rfl

@[simp] theorem setSeg_reg {h : BitVec 16} : (s.setSeg g h).reg = s.reg := rfl
@[simp] theorem setSeg_seg {h : BitVec 16} :
    (s.setSeg g h).seg = Function.update s.seg g h := rfl
@[simp] theorem setSeg_mem {h : BitVec 16} : (s.setSeg g h).mem = s.mem := rfl
@[simp] theorem setSeg_eip {h : BitVec 16} : (s.setSeg g h).eip = s.eip := rfl
@[simp] theorem setSeg_eflags {h : BitVec 16} : (s.setSeg g h).eflags = s.eflags := rfl
@[simp] theorem setSeg_outs {h : BitVec 16} : (s.setSeg g h).outs = s.outs := rfl

@[simp] theorem push_reg (h : r ≠ .esp) : (s.push w).reg r = s.reg r := Function.update_of_ne h _ _
@[simp] theorem push_esp : (s.push w).reg .esp = s.reg .esp - 4 := by
  simp [Cpu.push, Cpu.esp]
@[simp] theorem push_seg : (s.push w).seg = s.seg := rfl
@[simp] theorem push_eip : (s.push w).eip = s.eip := rfl
@[simp] theorem push_eflags : (s.push w).eflags = s.eflags := rfl
@[simp] theorem push_outs : (s.push w).outs = s.outs := rfl

@[simp] theorem drop_reg (h : r ≠ .esp) : (s.drop n).reg r = s.reg r := Function.update_of_ne h _ _
@[simp] theorem drop_esp : (s.drop n).reg .esp = s.reg .esp + BitVec.ofNat 32 (4 * n) := by
  simp [Cpu.drop, Cpu.esp]
@[simp] theorem drop_seg : (s.drop n).seg = s.seg := rfl
@[simp] theorem drop_mem : (s.drop n).mem = s.mem := rfl
@[simp] theorem drop_eip : (s.drop n).eip = s.eip := rfl
@[simp] theorem drop_eflags : (s.drop n).eflags = s.eflags := rfl
@[simp] theorem drop_outs : (s.drop n).outs = s.outs := rfl

end Fields

theorem run_cons {i : Instr} {code : List Instr} : s.run (i :: code) = (s.exec i).run code := rfl

theorem exec_load {base : Reg} {off : Word} (h : word s.mem (s.reg base + off) = w) :
    s.exec (.load r base off) = s.setReg r w := by
  rw [← h]
  rfl

theorem exec_store {base : Reg} {a off : Word} (h : s.reg base + off = a) :
    s.exec (.store base off r) = { s with mem := setWord s.mem a (s.reg r) } := by
  rw [← h]
  rfl

theorem run_append {code code' : List Instr} :
    s.run (code ++ code') = (s.run code).run code' := List.foldl_append

section Frames

theorem Frame.nil : Frame s [] := trivial

theorem Frame.push (h : Frame s l) (hl : 4 * (l.length + 1) ≤ 2 ^ 32) :
    Frame (s.push w) (w :: l) := by
  unfold Frame Cpu.esp
  rw [push_esp]
  exact Holds.push h hl

theorem Frame.top (h : Frame s (w :: l)) : s.top = w := h.1

theorem Frame.drop (h : Frame s (l ++ l')) (hn : n = l.length) : Frame (s.drop n) l' := by
  unfold Frame Cpu.esp
  rw [drop_esp, drop_mem, hn]
  exact Holds.append h

theorem Frame.tail (h : Frame s (w :: l)) : Frame (s.drop 1) l :=
  Frame.drop (l := [w]) h rfl

/-- Only the stack pointer and the memory matter. -/
theorem Frame.congr (h : Frame s l) (hesp : t.reg .esp = s.reg .esp) (hmem : t.mem = s.mem) :
    Frame t l := by
  unfold Frame Cpu.esp at *
  rwa [hesp, hmem]

theorem Frame.pop (h : Frame s (w :: l)) (hr : r ≠ .esp) : Frame (s.pop r) l := by
  refine h.tail.congr ?_ rfl
  exact Function.update_of_ne hr.symm _ _

theorem Frame.pop_eq (h : Frame s (w :: l)) : s.pop r = (s.drop 1).setReg r w := by
  unfold Cpu.pop
  rw [h.top]

theorem Frame.popSeg (h : Frame s (w :: l)) : Frame (s.popSeg g) l :=
  h.tail.congr rfl rfl

theorem Frame.popSeg_eq (h : Frame s (w :: l)) : s.popSeg g = (s.drop 1).setSeg g (narrow w) := by
  unfold Cpu.popSeg
  rw [h.top]

/-- The order in which `pushad` leaves registers. -/
def saved (f : Reg → Word) : List Word :=
  [f .edi, f .esi, f .ebp, f .esp, f .ebx, f .edx, f .ecx, f .eax]

theorem Frame.pushad (h : Frame s l) (hl : 4 * (l.length + 8) ≤ 2 ^ 32) :
    Frame s.pushad (saved s.reg ++ l) := by
  unfold Cpu.pushad
  simp only [List.map_cons, List.map_nil, List.foldl_cons, List.foldl_nil, saved,
    List.cons_append, List.nil_append]
  iterate 8 refine Frame.push ?_ ?_
  · exact h
  · omega
  all_goals
    simp only [List.length_cons]
    omega

theorem pushad_reg (hr : r ≠ .esp) : s.pushad.reg r = s.reg r := by
  simp [Cpu.pushad, hr]

theorem Frame.popad {f : Reg → Word} (h : Frame s (saved f ++ l)) : Frame s.popad l :=
  ((((((((h.pop (by decide)).pop (by decide)).pop (by decide)).tail).pop (by decide)).pop
    (by decide)).pop (by decide)).pop (by decide))

theorem Frame.popad_reg {f : Reg → Word} (h : Frame s (saved f ++ l)) (hr : r ≠ .esp) :
    s.popad.reg r = f r := by
  have h₁ := h.pop (r := .edi) (by decide)
  have h₂ := h₁.pop (r := .esi) (by decide)
  have h₃ := h₂.pop (r := .ebp) (by decide)
  have h₄ := h₃.tail
  have h₅ := h₄.pop (r := .ebx) (by decide)
  have h₆ := h₅.pop (r := .edx) (by decide)
  have h₇ := h₆.pop (r := .ecx) (by decide)
  unfold Cpu.popad
  rw [h₇.pop_eq, h₆.pop_eq, h₅.pop_eq, h₄.pop_eq, h₂.pop_eq, h₁.pop_eq, h.pop_eq]
  cases r <;> first | exact absurd rfl hr | simp [Function.update_of_ne]

theorem popad_esp : s.popad.reg .esp = s.reg .esp + 32 := by
  simp only [Cpu.popad, Cpu.pop, setReg_reg, ne_eq, reduceCtorEq, not_false_eq_true,
    Function.update_of_ne, drop_esp]
  bv_omega

end Frames

section Sunk

/-- After `n` pushes from `top` on: nothing but the `n` words below `top` was written to. -/
structure Sunk (top : Word) (m : Memory) (n : ℕ) (s : Cpu) : Prop where
  esp : s.reg .esp = top - BitVec.ofNat 32 (4 * n)
  mem : ∀ b, 4 * n ≤ (b - (top - BitVec.ofNat 32 (4 * n))).toNat → s.mem b = m b

variable {top b : Word} {m : Memory} {k : ℕ}

theorem Sunk.zero (hesp : s.reg .esp = top) (hmem : s.mem = m) : Sunk top m 0 s :=
  ⟨by simpa using hesp, fun b _ => by rw [hmem]⟩

theorem Sunk.congr (h : Sunk top m n s) (hesp : t.reg .esp = s.reg .esp) (hmem : t.mem = s.mem) :
    Sunk top m n t :=
  ⟨hesp.trans h.esp, fun b hb => by rw [hmem, h.mem b hb]⟩

theorem Sunk.push (h : Sunk top m n s) (hn : 4 * (n + 1) < 2 ^ 32) :
    Sunk top m (n + 1) (s.push w) := by
  have hesp := h.esp
  refine ⟨?_, fun b hb => ?_⟩
  · rw [push_esp]
    bv_omega
  · have hold : s.mem b = m b := h.mem b (by bv_omega)
    rw [← hold]
    apply setWord_apart
    unfold Cpu.esp
    bv_omega

theorem Sunk.pushad (h : Sunk top m n s) (hn : 4 * (n + 8) < 2 ^ 32) :
    Sunk top m (n + 8) s.pushad := by
  unfold Cpu.pushad
  simp only [List.map_cons, List.map_nil, List.foldl_cons, List.foldl_nil]
  exact (((((((h.push (by omega)).push (by omega)).push (by omega)).push (by omega)).push
    (by omega)).push (by omega)).push (by omega)).push (by omega)

/-- Memory that is not within `k` words below `top`. -/
theorem Sunk.mem_of_le (h : Sunk top m n s) (hk : n ≤ k) (_hlt : 4 * k < 2 ^ 32)
    (hb : 4 * k ≤ (b - (top - BitVec.ofNat 32 (4 * k))).toNat) : s.mem b = m b :=
  h.mem b (by bv_omega)

end Sunk

section Rest

theorem iret_mem : s.iret.mem = s.mem := by
  unfold Cpu.iret
  dsimp only
  split_ifs <;> rfl

theorem iret_outs : s.iret.outs = s.outs := by
  unfold Cpu.iret
  dsimp only
  split_ifs <;> rfl

end Rest

end Gogoos.X86
