import Gogoos.Kernel.WaitExit

/-!
# Rules for memory accesses

The weakest preconditions of the accesses that go through the page tables. Under a directory
that maps itself, an access through `getPtePtr` or `getPdePtr` is an access to the entry of the
table or of the directory.
-/

namespace Gogoos

open Program

variable {stop : Machine → Prop} {e : Heap} {α : Type} {Q : α → Machine → Prop} {m m' : Machine}
  {vaddr : ℕ}

namespace Machine

/-- Entry of the active directory for an address. -/
def pde (m : Machine) (vaddr : ℕ) : ℕ := m.phys m.cr3 (pdeIdx vaddr)

/-- Entry of the page table for an address. -/
def pte (m : Machine) (vaddr : ℕ) : ℕ := m.phys (entryFrame (m.pde vaddr)) (pteIdx vaddr)

/-- The active directory maps itself. -/
def SelfMapped (m : Machine) : Prop := m.phys m.cr3 1023 = mkEntry (m.cr3 * 4096)

theorem walk_eq (m : Machine) (vaddr : ℕ) :
    m.walk vaddr =
      if present (m.pde vaddr) ∧ present (m.pte vaddr) then some (entryFrame (m.pte vaddr))
      else none := by
  unfold walk pte pde
  by_cases h : present (m.phys m.cr3 (pdeIdx vaddr)) <;> simp [h]

theorem walk_eq_some {f : ℕ} (hd : present (m.pde vaddr)) (ht : present (m.pte vaddr))
    (hf : entryFrame (m.pte vaddr) = f) : m.walk vaddr = some f := by
  rw [walk_eq, if_pos ⟨hd, ht⟩, hf]

theorem walk_getPdePtr (h : m.SelfMapped) (hv : vaddr < 2 ^ 32) :
    m.walk (getPdePtr vaddr) = some m.cr3 := by
  have hd : pdeIdx (getPdePtr vaddr) = 1023 := by unfold pdeIdx getPdePtr pdeIdx; omega
  have ht : pteIdx (getPdePtr vaddr) = 1023 := by unfold pteIdx getPdePtr pdeIdx; omega
  have hpde : m.pde (getPdePtr vaddr) = mkEntry (m.cr3 * 4096) := by rw [pde, hd, h]
  have hpte : m.pte (getPdePtr vaddr) = mkEntry (m.cr3 * 4096) := by
    rw [pte, hpde, entryFrame_mkEntry, ht, h]
  rw [walk_eq, hpde, hpte]
  simp

theorem walk_getPtePtr (h : m.SelfMapped) (hv : vaddr < 2 ^ 32) :
    m.walk (getPtePtr vaddr) =
      if present (m.pde vaddr) then some (entryFrame (m.pde vaddr)) else none := by
  have hd : pdeIdx (getPtePtr vaddr) = 1023 := by unfold pdeIdx getPtePtr pteIdx pdeIdx; omega
  have ht : pteIdx (getPtePtr vaddr) = pdeIdx vaddr := by
    unfold pteIdx getPtePtr pteIdx pdeIdx
    omega
  have hpde : m.pde (getPtePtr vaddr) = mkEntry (m.cr3 * 4096) := by rw [pde, hd, h]
  have hpte : m.pte (getPtePtr vaddr) = m.pde vaddr := by
    rw [pte, hpde, entryFrame_mkEntry, ht]
    rfl
  rw [walk_eq, hpde, hpte]
  simp

end Machine

theorem getPtePtr_word (vaddr : ℕ) : getPtePtr vaddr % 4096 / 4 = pteIdx vaddr := by
  unfold getPtePtr pteIdx pdeIdx
  omega

section Access

theorem wp_frameOf_bind {f : ℕ → KernelM α} :
    wp stop e (frameOf vaddr >>= f) Q m ↔
      (∀ g, m.walk vaddr = some g → wp stop e (f g) Q m) ∧ (m.walk vaddr = none → stop m) := by
  unfold frameOf
  rw [wp_bind_assoc, wp_get_bind]
  cases h : m.walk vaddr with
  | none => simp
  | some g => simp

theorem wp_load_bind {f : ℕ → KernelM α} :
    wp stop e (load vaddr >>= f) Q m ↔
      (∀ g, m.walk vaddr = some g → wp stop e (f (m.phys g (vaddr % 4096 / 4))) Q m) ∧
        (m.walk vaddr = none → stop m) := by
  unfold load
  rw [wp_bind_assoc, wp_frameOf_bind]
  simp only [wp_bind_assoc, wp_get_bind, wp_pure_bind]

/-- The machine after a word was written to a frame. -/
def Machine.setWord (m : Machine) (f i word : ℕ) : Machine :=
  m.setFrame f fun j => if j = i then word else m.phys f j

theorem wp_store {word : ℕ} {Q : Unit → Machine → Prop} :
    wp stop e (store vaddr word) Q m ↔
      (∀ g, m.walk vaddr = some g → Q () (m.setWord g (vaddr % 4096 / 4) word)) ∧
        (m.walk vaddr = none → stop m) := by
  unfold store
  rw [wp_frameOf_bind]
  simp only [wp_modify]
  rfl

theorem wp_onFs_bind {β : Type} {p : FsM β} {f : β → KernelM α}
    (h : wp (fun x => stop (m.setFs x)) e p (fun a x => wp stop e (f a) Q (m.setFs x)) m.fs) :
    wp stop e (onFs p >>= f) Q m := wp_bind (wp_zoom h)

theorem wp_onFs {p : FsM α}
    (h : wp (fun x => stop (m.setFs x)) e p (fun a x => Q a (m.setFs x)) m.fs) :
    wp stop e (onFs p) Q m := wp_zoom h

@[simp] theorem wp_modifyTask_bind {pcb : ℕ} {g : TaskStruct → TaskStruct}
    {f : Unit → KernelM α} :
    wp stop e (modifyTask pcb g >>= f) Q m ↔
      wp stop e (f ()) Q (m.setTask pcb (g (m.tasks pcb))) := Iff.rfl

@[simp] theorem wp_modifyTask {pcb : ℕ} {g : TaskStruct → TaskStruct} {Q : Unit → Machine → Prop} :
    wp stop e (modifyTask pcb g) Q m ↔ Q () (m.setTask pcb (g (m.tasks pcb))) := wp_modify

end Access

end Gogoos
