import Gogoos.Kernel.Entry
import Gogoos.Logic.Run

/-!
# Switching between threads

`switchTo` of `kernel/asm/thread.asm`. A PCB is one page; its first word is `selfKnlStack`, and the
kernel stack of the thread comes down from the end of the page. To a thread that calls it,
`switchTo` is a function that returns, however many other threads run meanwhile.
-/

namespace Gogoos.Switching

open X86 Cpu KernelAsm

variable {s t u : Cpu} {m m' : Memory} {a b w cur next p ret : Word} {l : List Word} {k : ℕ}

def switchTo : List Instr :=
  [.push .esi, .push .edi, .push .ebx, .push .ebp, .load .eax .esp 20, .store .eax 0 .esp,
    .load .eax .esp 24, .load .esp .eax 0, .pop .ebp, .pop .ebx, .pop .edi, .pop .esi, .ret]

section Pages

/-- An address on the page from `p` on. -/
def OnPage (p a : Word) : Prop := (a - p).toNat < 4096

def Aligned (p : Word) : Prop := p.toNat % 4096 = 0

instance : Decidable (Aligned p) := inferInstanceAs (Decidable (_ = _))

theorem off_page (hp : Aligned p) (hc : Aligned cur) (hne : p ≠ cur) (ha : OnPage p a) :
    4096 ≤ (a - cur).toNat := by
  unfold Aligned at hp hc
  unfold OnPage at ha
  have hdiff : p.toNat ≠ cur.toNat := fun h => hne (BitVec.eq_of_toNat_eq h)
  have hlt := p.isLt
  have hlt' := cur.isLt
  have hlt'' := a.isLt
  rw [BitVec.toNat_sub] at *
  omega

/-- A word on one page is apart from everything on another. -/
theorem setWord_page (hp : Aligned p) (hc : Aligned cur) (hne : p ≠ cur)
    (hb : (b - cur).toNat ≤ 4092) (ha : OnPage p a) : setWord m b w a = m a := by
  have hoff := off_page hp hc hne ha
  apply setWord_apart
  bv_omega

end Pages

section Parked

/-- What the memory holds of a thread that called `switchTo` in the state `u`. -/
structure Parked (m : Memory) (p : Word) (u : Cpu) : Prop where
  low : 20 ≤ (u.reg .esp - p).toNat
  high : (u.reg .esp - p).toNat ≤ 4092
  sp : word m p = u.reg .esp - 16
  regs : Holds m (u.reg .esp - 16) [u.reg .ebp, u.reg .ebx, u.reg .edi, u.reg .esi]
  stack : ∀ b, (u.reg .esp - p).toNat ≤ (b - p).toNat → OnPage p b → m b = u.mem b

/-- The bytes that a thread relies on while others run. -/
def Needs (p : Word) (u : Cpu) (b : Word) : Prop :=
  (b - p).toNat < 4 ∨ (u.reg .esp - 16 - p).toNat ≤ (b - p).toNat ∧ OnPage p b

theorem Parked.congr (h : Parked m p u) (hsame : ∀ b, Needs p u b → m' b = m b) :
    Parked m' p u := by
  have hlow := h.low
  have hhigh := h.high
  refine ⟨hlow, hhigh, ?_, ?_, ?_⟩
  · rw [← h.sp]
    apply word_congr
    intro k hk
    exact hsame _ (.inl (by bv_omega))
  · apply h.regs.congr
    intro k hk
    have hk' : k < 16 := hk
    apply hsame
    right
    unfold OnPage
    constructor <;> bv_omega
  · intro b hb hon
    rw [← h.stack b hb hon]
    apply hsame
    right
    refine ⟨?_, hon⟩
    bv_omega

theorem Needs.onPage (hb : Needs p u b) : OnPage p b := by
  rcases hb with hb | ⟨_, hb⟩
  · unfold OnPage
    omega
  · exact hb

end Parked

section Switch

/-- To the thread on the page `p` that called in the state `u`: the call has returned. Its stack is
as it was, and so are the registers that a function leaves to its caller. -/
structure Returned (p : Word) (u t : Cpu) : Prop where
  ebp : t.reg .ebp = u.reg .ebp
  ebx : t.reg .ebx = u.reg .ebx
  edi : t.reg .edi = u.reg .edi
  esi : t.reg .esi = u.reg .esi
  esp : t.reg .esp = u.reg .esp + 4
  eip : t.eip = u.top
  stack : ∀ b, (u.reg .esp - p).toNat ≤ (b - p).toNat → OnPage p b → t.mem b = u.mem b

/-- After the four pushes. -/
def pushed (s : Cpu) : Cpu :=
  (((s.push (s.reg .esi)).push (s.reg .edi)).push (s.reg .ebx)).push (s.reg .ebp)

theorem pushed_frame (h : Frame s l) (hl : l.length ≤ 16) : Frame (pushed s)
    (s.reg .ebp :: s.reg .ebx :: s.reg .edi :: s.reg .esi :: l) := by
  refine (((h.push ?_).push ?_).push ?_).push ?_
  · omega
  all_goals
    simp only [List.length_cons]
    omega

theorem pushed_sunk : Sunk (s.reg .esp) s.mem 4 (pushed s) :=
  ((((Sunk.zero rfl rfl).push (by norm_num)).push (by norm_num)).push (by norm_num)).push
    (by norm_num)

/-- With its own stack saved. -/
def stored (cur : Word) (s : Cpu) : Cpu :=
  { (pushed s).setReg .eax cur with mem := setWord (pushed s).mem cur ((pushed s).reg .esp) }

/-- On the stack of the next thread. -/
def landed (cur next : Word) (s : Cpu) : Cpu :=
  ((stored cur s).setReg .eax next).setReg .esp (word (stored cur s).mem next)

theorem stored_mem : (stored cur s).mem = setWord (pushed s).mem cur (s.reg .esp - 16) := by
  have hesp : (pushed s).reg .esp = s.reg .esp - 16 := pushed_sunk.esp
  unfold stored
  rw [hesp]

/-- Other pages do not change, and neither does what was on the stack. -/
theorem stored_page (hp : Aligned p) (hc : Aligned cur) (hne : p ≠ cur)
    (hlow : 20 ≤ (s.reg .esp - cur).toNat) (hhigh : (s.reg .esp - cur).toNat ≤ 4092)
    (ha : OnPage p a) : (stored cur s).mem a = s.mem a := by
  have hoff := off_page hp hc hne ha
  rw [stored_mem, setWord_page hp hc hne (by simp) ha]
  exact pushed_sunk.mem a (by bv_omega)

theorem stored_stack (hlow : 20 ≤ (s.reg .esp - cur).toNat)
    (ha : (s.reg .esp - cur).toNat ≤ (a - cur).toNat) (hon : OnPage cur a) :
    (stored cur s).mem a = s.mem a := by
  unfold OnPage at hon
  rw [stored_mem, setWord_apart (by omega)]
  exact pushed_sunk.mem a (by bv_omega)

theorem switchTo_eq (h : Frame s [ret, cur, next]) (hlow : 20 ≤ (s.reg .esp - cur).toNat)
    (hhigh : (s.reg .esp - cur).toNat ≤ 4092) : s.run switchTo =
      (landed cur next s).run [.pop .ebp, .pop .ebx, .pop .edi, .pop .esi, .ret] := by
  have hframe := pushed_frame h (by norm_num)
  have hesp : (pushed s).reg .esp = s.reg .esp - 16 := pushed_sunk.esp
  have hcur : word (pushed s).mem ((pushed s).reg .esp + 20) = cur :=
    (Frame.drop (l := [s.reg .ebp, s.reg .ebx, s.reg .edi, s.reg .esi, ret]) hframe rfl).top
  have hnext : word (pushed s).mem ((pushed s).reg .esp + 24) = next :=
    (Frame.drop (l := [s.reg .ebp, s.reg .ebx, s.reg .edi, s.reg .esi, ret, cur]) hframe rfl).top
  have hstored : word (stored cur s).mem ((pushed s).reg .esp + 24) = next := by
    rw [stored_mem, word_setWord_apart, hnext]
    all_goals
      rw [hesp]
      bv_omega
  have hpushes : s.run switchTo = (pushed s).run [.load .eax .esp 20, .store .eax 0 .esp,
      .load .eax .esp 24, .load .esp .eax 0, .pop .ebp, .pop .ebx, .pop .edi, .pop .esi, .ret] := by
    simp only [switchTo, run, exec, List.foldl_cons, push_reg, ne_eq, reduceCtorEq,
      not_false_eq_true]
    rfl
  have heax : ((pushed s).setReg .eax cur).reg .eax + 0 = cur := by simp
  have hreg : (stored cur s).reg .esp = (pushed s).reg .esp := by simp [stored]
  have hland : ((stored cur s).setReg .eax next).reg .eax + 0 = next := by simp
  have hsave : ((pushed s).setReg .eax cur).exec (.store .eax 0 .esp) = stored cur s := by
    rw [exec_store heax]
    simp [stored]
  rw [← hreg] at hstored
  rw [hpushes, run_cons, exec_load hcur, run_cons, hsave, run_cons, exec_load hstored, run_cons,
    exec_load (w := word (stored cur s).mem next) (by rw [hland, setReg_mem])]
  rfl

theorem stored_parked (hp : Aligned p) (hc : Aligned cur) (hne : p ≠ cur)
    (hlow : 20 ≤ (s.reg .esp - cur).toNat) (hhigh : (s.reg .esp - cur).toNat ≤ 4092)
    (h : Parked s.mem p u) : Parked (stored cur s).mem p u :=
  h.congr fun _ hb => stored_page hp hc hne hlow hhigh hb.onPage

/-- The thread that gives the processor up is parked. -/
theorem parked_stored (hlow : 20 ≤ (s.reg .esp - cur).toNat)
    (hhigh : (s.reg .esp - cur).toNat ≤ 4092) : Parked (stored cur s).mem cur s := by
  have hesp : (pushed s).reg .esp = s.reg .esp - 16 := pushed_sunk.esp
  have hframe : Holds (pushed s).mem (s.reg .esp - 16)
      [s.reg .ebp, s.reg .ebx, s.reg .edi, s.reg .esi] := by
    have h := pushed_frame (Frame.nil (s := s)) (by norm_num)
    unfold Frame Cpu.esp at h
    rwa [hesp] at h
  refine ⟨hlow, hhigh, ?_, ?_, fun b hb hon => stored_stack hlow hb hon⟩
  · rw [stored_mem, word_setWord]
  · rw [stored_mem]
    refine hframe.setWord_apart (by bv_omega) ?_
    change (s.reg .esp - 16 - cur).toNat + 4 * 4 ≤ 2 ^ 32
    bv_omega

/-- To the next thread, which may be the same one, its own call returns. -/
theorem switchTo_returned (h : Frame s [ret, cur, next]) (hlow : 20 ≤ (s.reg .esp - cur).toNat)
    (hhigh : (s.reg .esp - cur).toNat ≤ 4092) (hpark : Parked (stored cur s).mem next u) :
    Returned next u (s.run switchTo) ∧ (s.run switchTo).mem = (stored cur s).mem := by
  have hesp : (landed cur next s).reg .esp = u.reg .esp - 16 := by
    unfold landed
    rw [setReg_reg, Function.update_self, hpark.sp]
  have hframe : Frame (landed cur next s) [u.reg .ebp, u.reg .ebx, u.reg .edi, u.reg .esi] := by
    unfold Frame Cpu.esp
    rw [hesp]
    exact hpark.regs
  rw [switchTo_eq h hlow hhigh]
  have h₁ := hframe.pop (r := .ebp) (by decide)
  have h₂ := h₁.pop (r := .ebx) (by decide)
  have h₃ := h₂.pop (r := .edi) (by decide)
  have hcode : (landed cur next s).run [.pop .ebp, .pop .ebx, .pop .edi, .pop .esi, .ret] =
      (((((landed cur next s).pop .ebp).pop .ebx).pop .edi).pop .esi).exec .ret := rfl
  have hmem : (((((landed cur next s).pop .ebp).pop .ebx).pop .edi).pop .esi).mem =
      (stored cur s).mem := rfl
  have hpopped : (((((landed cur next s).pop .ebp).pop .ebx).pop .edi).pop .esi).esp =
      u.reg .esp := by
    simp only [Cpu.pop, Cpu.esp, setReg_reg, ne_eq, reduceCtorEq, not_false_eq_true,
      Function.update_of_ne, drop_esp, hesp]
    bv_omega
  rw [hcode]
  refine ⟨⟨?_, ?_, ?_, ?_, ?_, ?_, fun b hb hon => hpark.stack b hb hon⟩, rfl⟩
  · rw [h₃.pop_eq, h₂.pop_eq, h₁.pop_eq, hframe.pop_eq]
    simp [exec]
  · rw [h₃.pop_eq, h₂.pop_eq, h₁.pop_eq]
    simp [exec]
  · rw [h₃.pop_eq, h₂.pop_eq]
    simp [exec]
  · rw [h₃.pop_eq]
    simp [exec]
  · exact (drop_esp (n := 1)).trans (congrArg (· + 4) hpopped)
  · have hlow' := hpark.low
    have hhigh' := hpark.high
    change word _ (Cpu.esp _) = word u.mem (u.reg .esp)
    rw [hmem, hpopped]
    apply word_congr
    intro k hk
    refine hpark.stack _ (by bv_omega) ?_
    unfold OnPage
    bv_omega

/-- What the thread has left on its stack. -/
theorem Returned.frame (h : Returned p u t) (hu : Frame u (w :: l))
    (hroom : (u.reg .esp - p).toNat + 4 * (l.length + 1) ≤ 4096) : Frame t l := by
  have htail := hu.2
  unfold Frame Cpu.esp
  rw [h.esp]
  apply htail.congr
  intro k hk
  apply h.stack
  · bv_omega
  · unfold OnPage
    bv_omega

end Switch

section Create

/-- `selfKnlStack` of a new thread. The two subtractions of `sizeof` count in words. -/
def threadStack (pcb : Word) : Word := pcb + 4096 - 4 * 76 - 4 * 32

/-- What `threadCreate` stores of the stack; the other fields of the PCB come before it. -/
def threadCreate (m : Memory) (pcb kernelThread function funcArg : Word) : Memory :=
  stores (threadStack pcb) [(4, kernelThread), (6, function), (7, funcArg), (0, 0), (1, 0), (3, 0),
    (2, 0)] (setWord m pcb (threadStack pcb))

/-- As if the thread had called `switchTo` from the start of `kernelThread`. -/
def newborn (m : Memory) (pcb : Word) : Cpu where
  reg r := if r = .esp then threadStack pcb + 16 else 0
  seg _ := 0
  eip := 0
  eflags := 0
  mem := m
  outs := []

variable {f arg pcb : Word}

theorem threadCreate_frame : Holds (threadCreate m pcb w f arg) (threadStack pcb)
    [0, 0, 0, 0, w, word (setWord m pcb (threadStack pcb)) (threadStack pcb + 20), f, arg] := by
  have h := (holds_wordsAt (m := setWord m pcb (threadStack pcb)) 8 (threadStack pcb)).stores
    (l := [(4, w), (6, f), (7, arg), (0, 0), (1, 0), (3, 0), (2, 0)]) (by simp) (by simp)
  have haddr : threadStack pcb + 4 + 4 + 4 + 4 + 4 = threadStack pcb + 20 := by bv_omega
  simp only [replaced, wordsAt, List.foldl_cons, List.foldl_nil, List.set_cons_zero,
    List.set_cons_succ, haddr] at h
  exact h

theorem threadCreate_parked : Parked (threadCreate m pcb w f arg) pcb
    (newborn (threadCreate m pcb w f arg) pcb) := by
  have hesp : (newborn (threadCreate m pcb w f arg) pcb).reg .esp = threadStack pcb + 16 := rfl
  have hoff : threadStack pcb - pcb = 3664 := by
    unfold threadStack
    bv_omega
  have hsp : threadStack pcb + 16 - pcb = 3680 := by
    unfold threadStack
    bv_omega
  refine ⟨?_, ?_, ?_, ?_, fun b _ _ => rfl⟩
  · rw [hesp, hsp]
    decide
  · rw [hesp, hsp]
    decide
  · have hback : threadStack pcb + 16 - 16 = threadStack pcb := by bv_omega
    rw [hesp, hback]
    have hword : word (threadCreate m pcb w f arg) pcb =
        word (setWord m pcb (threadStack pcb)) pcb := by
      apply word_congr
      intro k hk
      refine stores_apart (n := 8) (by simp) ?_
      unfold threadStack
      bv_omega
    rw [hword, word_setWord]
  · have hback : threadStack pcb + 16 - 16 = threadStack pcb := by bv_omega
    obtain ⟨h0, h1, h2, h3, -⟩ := @threadCreate_frame m w f arg pcb
    rw [hesp, hback]
    exact ⟨h0, h1, h2, h3, trivial⟩

/-- A new thread begins with `kernelThread(function, funcArg)`. -/
theorem threadCreate_returned (h : Returned pcb (newborn (threadCreate m pcb w f arg) pcb) t) :
    t.eip = w ∧
      Frame t [word (setWord m pcb (threadStack pcb)) (threadStack pcb + 20), f, arg] := by
  have hframe : Frame (newborn (threadCreate m pcb w f arg) pcb)
      [w, word (setWord m pcb (threadStack pcb)) (threadStack pcb + 20), f, arg] :=
    Holds.append (l := [0, 0, 0, 0]) threadCreate_frame
  have hroom : threadStack pcb + 16 - pcb = 3680 := by
    unfold threadStack
    bv_omega
  refine ⟨h.eip.trans hframe.top, h.frame hframe ?_⟩
  change (threadStack pcb + 16 - pcb).toNat + 4 * 4 ≤ 4096
  rw [hroom]
  decide

end Create

/-- The machine with the page of the running thread. For each thread that is not running `left` is
the state in which it called `switchTo`. -/
structure Sys where
  cpu : Cpu
  cur : Word
  left : Word → Option Cpu

/-- Nothing that a thread which is not running relies on has changed. -/
def Spares (left : Word → Option Cpu) (m m' : Memory) : Prop :=
  ∀ p u, left p = some u → ∀ b, Needs p u b → m' b = m b

/-- The call of `switchTo` in `schedule`, on a stack that has not come down to the PCB. -/
structure Calls (s : Sys) (ret next : Word) : Prop where
  frame : Frame s.cpu [ret, s.cur, next]
  low : 20 ≤ (s.cpu.reg .esp - s.cur).toNat
  high : (s.cpu.reg .esp - s.cur).toNat ≤ 4092

/-- The state before, among those of the other threads. -/
def Sys.leaves (s : Sys) : Word → Option Cpu := Function.update s.left s.cur (some s.cpu)

inductive Step : Sys → Sys → Prop where
  | work {s : Sys} {t : Cpu} (h : Spares s.left s.cpu.mem t.mem) : Step s { s with cpu := t }
  | create {s : Sys} {t u : Cpu} {p : Word} (h : Spares s.left s.cpu.mem t.mem) (hp : Aligned p)
      (hcur : p ≠ s.cur) (hfree : s.left p = none) (hpark : Parked t.mem p u) :
      Step s { s with cpu := t, left := Function.update s.left p (some u) }
  | switch {s : Sys} {ret next : Word} {u : Cpu} (h : Calls s ret next)
      (hnext : s.leaves next = some u) :
      Step s ⟨s.cpu.run switchTo, next, Function.update s.leaves next none⟩
  | exit {s : Sys} {p : Word} : Step s { s with left := Function.update s.left p none }

section Runs

variable {x y : Sys}

structure Inv (s : Sys) : Prop where
  cur : Aligned s.cur
  running : s.left s.cur = none
  aligned : ∀ p u, s.left p = some u → Aligned p
  parked : ∀ p u, s.left p = some u → Parked s.cpu.mem p u

theorem Inv.spare (h : Inv x) (hs : Spares x.left x.cpu.mem m') (hp : x.left p = some u) :
    Parked m' p u :=
  (h.parked p u hp).congr (hs p u hp)

/-- Every thread, the running one included, after `switchTo` has stored its stack pointer. -/
theorem Inv.stored (h : Inv x) (hc : Calls x ret next) (hp : x.leaves p = some u) :
    Aligned p ∧ Parked (stored x.cur x.cpu).mem p u := by
  unfold Sys.leaves at hp
  by_cases hcur : p = x.cur
  · rw [hcur, Function.update_self] at hp
    obtain rfl := Option.some.inj hp
    rw [hcur]
    exact ⟨h.cur, parked_stored hc.low hc.high⟩
  · rw [Function.update_of_ne hcur] at hp
    exact ⟨h.aligned p u hp, stored_parked (h.aligned p u hp) h.cur hcur hc.low hc.high
      (h.parked p u hp)⟩

theorem Inv.step (h : Inv x) (hst : Step x y) : Inv y := by
  cases hst with
  | work hs => exact ⟨h.cur, h.running, h.aligned, fun p u hp => h.spare hs hp⟩
  | @create t u p hs hp hcur hfree hpark =>
    refine ⟨h.cur, ?_, ?_, ?_⟩
    · exact (Function.update_of_ne hcur.symm _ _).trans h.running
    all_goals
      intro q u' hq
      change Function.update x.left p (some u) q = some u' at hq
      by_cases hqp : q = p
      · rw [hqp, Function.update_self] at hq
        obtain rfl := Option.some.inj hq
        rwa [hqp]
      · rw [Function.update_of_ne hqp] at hq
        first | exact h.aligned q u' hq | exact h.spare hs hq
  | @switch ret next u hc hnext =>
    have hret := switchTo_returned hc.frame hc.low hc.high (h.stored hc hnext).2
    refine ⟨(h.stored hc hnext).1, Function.update_self _ _ _, ?_, ?_⟩
    all_goals
      intro q u' hq
      change Function.update x.leaves next none q = some u' at hq
      have hqn : q ≠ next := by
        rintro rfl
        rw [Function.update_self] at hq
        exact absurd hq (by simp)
      rw [Function.update_of_ne hqn] at hq
    · exact (h.stored hc hq).1
    · change Parked (x.cpu.run switchTo).mem q u'
      rw [hret.2]
      exact (h.stored hc hq).2
  | @exit p =>
    have hsub : ∀ q u, Function.update x.left p none q = some u → x.left q = some u := by
      intro q u hq
      by_cases hqp : q = p
      · rw [hqp, Function.update_self] at hq
        exact absurd hq (by simp)
      · rwa [Function.update_of_ne hqp] at hq
    refine ⟨h.cur, ?_, fun q u hq => h.aligned q u (hsub q u hq),
      fun q u hq => h.parked q u (hsub q u hq)⟩
    by_cases hcur : x.cur = p
    · rw [← hcur]
      exact Function.update_self _ _ _
    · exact (Function.update_of_ne hcur _ _).trans h.running

/-- The thread that boots, on its own. -/
def Start (s : Sys) : Prop := Aligned s.cur ∧ ∀ p, s.left p = none

theorem Start.inv (h : Start x) : Inv x :=
  ⟨h.1, h.2 _, fun p u hp => absurd hp (by simp [h.2]), fun p u hp => absurd hp (by simp [h.2])⟩

/-- However the threads of a run follow one another: to the thread that gets the processor
`switchTo` returns, with its registers and its stack as they were when it made the call. -/
theorem switch_law (h : Start x) (hrun : Run Step x y) {u : Cpu} (hc : Calls y ret next)
    (hnext : y.leaves next = some u) :
    Returned next u (y.cpu.run switchTo) ∧
      ∀ p u', y.leaves p = some u' → Parked (y.cpu.run switchTo).mem p u' := by
  have hinv : Inv y := hrun.invariant (fun _ _ hI hst => hI.step hst) h.inv
  have hret := switchTo_returned hc.frame hc.low hc.high (hinv.stored hc hnext).2
  refine ⟨hret.1, fun p u' hp => ?_⟩
  rw [hret.2]
  exact (hinv.stored hc hp).2

/-- The thread that boots, at the call of `switchTo` for the page `0xc0101000`. -/
def bootCpu (m : Memory) : Cpu where
  reg r := if r = .esp then 0xc009ef00 else 0
  seg _ := 0
  eip := 0
  eflags := 0
  mem := m
  outs := []

def bootMem : Memory :=
  stores 0xc009ef00 [(0, 0xc0001555), (1, 0xc009e000), (2, 0xc0101000)] fun _ => 0

def bootSys : Sys := ⟨bootCpu bootMem, 0xc009e000, fun _ => none⟩

def idleMem : Memory := threadCreate bootMem 0xc0101000 0xc0001600 0xc0001700 0

/-- After `threadCreate` for the idle thread. -/
def idleSys : Sys :=
  ⟨bootCpu idleMem, 0xc009e000,
    Function.update (fun _ => none) 0xc0101000 (some (newborn idleMem 0xc0101000))⟩

theorem switch_law_sample : Start bootSys ∧ Run Step bootSys idleSys ∧
    Calls idleSys 0xc0001555 0xc0101000 ∧
    idleSys.leaves 0xc0101000 = some (newborn idleMem 0xc0101000) ∧
    (idleSys.cpu.run switchTo).eip = 0xc0001600 := by
  have hstart : Start bootSys := ⟨by decide, fun _ => rfl⟩
  have hstep : Step bootSys idleSys :=
    .create (t := bootCpu idleMem) (fun p u hp => absurd hp (by simp [bootSys])) (by decide)
      (by decide) rfl threadCreate_parked
  have hcalls : Calls idleSys 0xc0001555 0xc0101000 :=
    ⟨⟨by decide +kernel, by decide +kernel, by decide +kernel, trivial⟩, by decide, by decide⟩
  have hleaves : idleSys.leaves 0xc0101000 = some (newborn idleMem 0xc0101000) := rfl
  refine ⟨hstart, .single hstep, hcalls, hleaves, ?_⟩
  have hlaw := switch_law hstart (.single hstep) hcalls hleaves
  exact (threadCreate_returned hlaw.1).1

end Runs

end Gogoos.Switching
