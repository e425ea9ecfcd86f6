import Gogoos.Fs.Slots
import Gogoos.Fs.DirectoryRun
import Gogoos.Kernel.ForkFrame
import Gogoos.Kernel.WaitExit
import Gogoos.Logic.Run

/-!
# Descriptors of processes

The processes share the table of open files, and `sysFork` gives the child the descriptors of
its parent. Each call runs as a whole; what a call does to memory is left out. A descriptor stays
bound to the inode that it was opened on as long as no slot is closed that another descriptor
names.
-/

namespace Gogoos

open Program

/-- `opened` is the inode that a descriptor was opened on; the code keeps no such record. -/
structure Descriptors where
  vol : Volume
  fileTable : ℕ → File
  fdTable : ℕ → ℕ → ℤ
  live : ℕ → Bool
  opened : ℕ → ℕ → Option ℕ

inductive DescEvent where
  | open (pathName : List UInt8) (flags : ℕ)
  | close (fd : ℤ)
  | fork (child : ℕ)
  | exit

namespace Descriptors

variable {s s' : Descriptors} {f f' : Fs} {e : Heap} {p q k : ℕ}

section System

/-- What the file system sees when `p` runs. -/
def fs (s : Descriptors) (p : ℕ) : Fs := ⟨s.vol, s.fileTable, s.fdTable p⟩

def setFs (s : Descriptors) (p : ℕ) (f : Fs) : Descriptors :=
  { s with
    vol := f.vol
    fileTable := f.fileTable
    fdTable := fun q => if q = p then f.fdTable else s.fdTable q }

/-- The descriptor `fd` of `p` was just opened. -/
def record (s : Descriptors) (p : ℕ) (fd : ℤ) : Descriptors :=
  { s with
    opened := fun q k =>
      if q = p ∧ (k : ℤ) = fd then (s.fileTable (s.fdTable p k).toNat).fdInode
      else s.opened q k }

/-- The PCB of the child is a copy of that of `p`. -/
def copyPcb (s : Descriptors) (p child : ℕ) : Descriptors :=
  { s with
    fdTable := fun q => if q = child then s.fdTable p else s.fdTable q
    live := fun q => q = child || s.live q
    opened := fun q => if q = child then s.opened p else s.opened q }

def die (s : Descriptors) (p : ℕ) : Descriptors :=
  { s with live := fun q => q ≠ p && s.live q }

inductive Step (cond : Descriptors → ℕ → DescEvent → Prop) : Descriptors → Descriptors → Prop where
  | open {s : Descriptors} {p pathName flags e fd f} : s.live p = true →
      cond s p (.open pathName flags) → Returns e (sysOpen pathName flags) (s.fs p) fd f →
      Step cond s ((s.setFs p f).record p fd)
  | close {s : Descriptors} {p fd e r f} : s.live p = true → cond s p (.close fd) →
      Returns e (sysClose fd) (s.fs p) r f → Step cond s (s.setFs p f)
  | fork {s : Descriptors} {p child e f} : s.live p = true → s.live child = false →
      cond s p (.fork child) → Returns e (openAgain (s.fdTable p) 4 3) (s.fs p) () f →
      Step cond s ((s.setFs p f).copyPcb p child)
  | exit {s : Descriptors} {p e f} : s.live p = true → cond s p .exit →
      Returns e (closeAll 4 3) (s.fs p) () f → Step cond s ((s.setFs p f).die p)

/-- The descriptor `k` of a live process is in use. -/
def Holds (s : Descriptors) (q k : ℕ) : Prop :=
  s.live q = true ∧ 3 ≤ k ∧ k < 7 ∧ s.fdTable q k ≠ -1

/-- What is closed is named by no other descriptor. -/
def Unshared (s : Descriptors) (p : ℕ) : DescEvent → Prop
  | .close fd => 2 < fd →
      ∀ q k, s.Holds q k → (q = p → (k : ℤ) ≠ fd) → s.fdTable q k ≠ s.fdTable p fd.toNat
  | .exit => ∀ k, 3 ≤ k → k < 7 →
      ∀ q j, s.Holds q j → q ≠ p → s.fdTable q j ≠ s.fdTable p k
  | _ => True

/-- Every descriptor in use names a slot with the inode that it was opened on. -/
def Law (s : Descriptors) : Prop :=
  ∀ q k, s.Holds q k → ∃ slot i : ℕ, s.fdTable q k = slot ∧ slot < 32 ∧
    (s.fileTable slot).fdInode = some i ∧ s.opened q k = some i

/-- No process has a file open. -/
def Start (s : Descriptors) : Prop := ∀ q k, ¬s.Holds q k

end System

section Specs

theorem wp_closeAll : ∀ cnt n r, 3 ≤ n → ClosedUpTo f n r →
    wp anyStop e (closeAll cnt n) (fun _ r' => ClosedUpTo f (n + cnt) r') r := by
  intro cnt
  induction cnt with
  | zero => exact fun n r _ h => wp_pure.mpr h
  | succ cnt ih =>
    intro n r hn h
    have hnext : n + (cnt + 1) = n + 1 + cnt := by omega
    have hfd : r.fdTable n = f.fdTable n := by
      rw [h.fdTable, if_neg (by omega)]
    unfold closeAll
    rw [wp_get_bind, hnext]
    have hrest : ∀ r', ClosedUpTo f (n + 1) r' →
        wp anyStop e (closeAll cnt (n + 1)) (fun _ r => ClosedUpTo f (n + 1 + cnt) r) r' :=
      fun r' hr' => ih (n + 1) r' (by omega) hr'
    apply wp_ite
    · intro _
      apply wp_call (R := fun _ r' => ClosedUpTo f (n + 1) r')
      · apply wp_sysClose (fun hlow => by omega)
        intro k slot _ r' hk _ hc
        obtain rfl : n = k := by exact_mod_cast hk
        refine ⟨fun j => ?_, fun i hi => ?_⟩
        · rw [hc.fdTable, h.fdTable]
          by_cases hj : j = n
          · rw [if_pos hj, if_pos (by omega)]
          · rw [if_neg hj]
            exact if_congr (by omega) rfl rfl
        · have hne : i ≠ slot := by
            rintro rfl
            exact hi n hn (by omega) (hfd.symm.trans hc.bound)
          rw [hc.slots i hne]
          exact h.slots i fun j hj hjn => hi j hj (by omega)
      · exact fun _ r' hr' => hrest r' hr'
    · intro hclosed
      rw [not_not, hfd] at hclosed
      refine hrest r ⟨fun j => ?_, fun i hi => ?_⟩
      · rw [h.fdTable]
        by_cases hj : j = n
        · rw [if_neg (by omega), if_pos (by omega), hj, hclosed]
        · exact if_congr (by omega) rfl rfl
      · exact h.slots i fun j hj hjn => hi j hj (by omega)

end Specs

section Law

/-- The descriptors of the other processes when only `p` has run. -/
theorem fdTable_setFs_ne (h : q ≠ p) : (s.setFs p f).fdTable q = s.fdTable q := if_neg h

@[simp] theorem fdTable_setFs_self : (s.setFs p f).fdTable p = f.fdTable := if_pos rfl

/-- A descriptor that keeps its slot keeps its inode when the slot does. -/
theorem Law.keep (h : Law s) (hq : s.Holds q k) (hfd : s'.fdTable q k = s.fdTable q k)
    (hopen : s'.opened q k = s.opened q k)
    (hslot : ∀ slot : ℕ, s.fdTable q k = slot → (s.fileTable slot).fdInode ≠ none →
      (s'.fileTable slot).fdInode = (s.fileTable slot).fdInode) :
    ∃ slot i : ℕ, s'.fdTable q k = slot ∧ slot < 32 ∧ (s'.fileTable slot).fdInode = some i ∧
      s'.opened q k = some i := by
  obtain ⟨slot, i, hs, hlt, hi, ho⟩ := h q k hq
  refine ⟨slot, i, hfd.trans hs, hlt, ?_, hopen.trans ho⟩
  rw [hslot slot hs (by simp [hi]), hi]

theorem Law.open {pathName : List UInt8} {flags : ℕ} {fd : ℤ} (h : Law s)
    (hlive : s.live p = true) (hret : Returns e (sysOpen pathName flags) (s.fs p) fd f) :
    Law ((s.setFs p f).record p fd) := by
  intro q k hq
  obtain ⟨hql, h3, h7, hne⟩ := hq
  rcases hret.of_wp (wp_sysOpen pathName flags) with ⟨rfl, hkept⟩ | ⟨j, slot, i, rfl, hb⟩
  · have hfd : (s.setFs p f).fdTable q k = s.fdTable q k := by
      by_cases hqp : q = p
      · rw [hqp, fdTable_setFs_self, hkept.fdTable]
        rfl
      · rw [fdTable_setFs_ne hqp]
    refine h.keep ⟨hql, h3, h7, hfd ▸ hne⟩ hfd (if_neg (by omega)) ?_
    exact fun slot _ hused => hkept.slots slot hused
  · by_cases hnew : q = p ∧ k = j
    · obtain ⟨rfl, rfl⟩ := hnew
      have hslot : (s.setFs q f).fdTable q k = slot := by
        rw [fdTable_setFs_self, hb.fdTable]
        exact if_pos rfl
      refine ⟨slot, i, hslot, hb.lt.2, hb.inode, ?_⟩
      change (if q = q ∧ (k : ℤ) = k then
        ((s.setFs q f).fileTable ((s.setFs q f).fdTable q k).toNat).fdInode else _) = _
      rw [if_pos ⟨rfl, rfl⟩, hslot, Int.toNat_natCast]
      exact hb.inode
    · have hfd : (s.setFs p f).fdTable q k = s.fdTable q k := by
        by_cases hqp : q = p
        · subst hqp
          rw [fdTable_setFs_self, hb.fdTable]
          exact if_neg fun hk => hnew ⟨rfl, hk⟩
        · rw [fdTable_setFs_ne hqp]
      refine h.keep ⟨hql, h3, h7, hfd ▸ hne⟩ hfd (if_neg ?_) ?_
      · rintro ⟨hqp, hk⟩
        exact hnew ⟨hqp, by exact_mod_cast hk⟩
      · exact fun slot _ hused => hb.slots slot hused

theorem Law.close {fd r : ℤ} (h : Law s) (hc : s.Unshared p (.close fd))
    (hret : Returns e (sysClose fd) (s.fs p) r f) : Law (s.setFs p f) := by
  have hw : wp anyStop e (sysClose fd) (fun _ f => Law (s.setFs p f)) (s.fs p) := by
    apply wp_sysClose
    · intro _
      rintro q k ⟨hql, h3, h7, hne⟩
      have hfd : (s.setFs p (s.fs p)).fdTable q k = s.fdTable q k := by
        by_cases hqp : q = p
        · rw [hqp, fdTable_setFs_self]
          rfl
        · rw [fdTable_setFs_ne hqp]
      exact h.keep ⟨hql, h3, h7, hfd ▸ hne⟩ hfd rfl fun _ _ _ => rfl
    · intro j slot r f rfl h2 hcl q k hq
      obtain ⟨hql, h3, h7, hne⟩ := hq
      have hnot : q = p → k ≠ j := by
        rintro rfl rfl
        rw [fdTable_setFs_self, hcl.fdTable, if_pos rfl] at hne
        exact hne rfl
      have hfd : (s.setFs p f).fdTable q k = s.fdTable q k := by
        by_cases hqp : q = p
        · rw [hqp, fdTable_setFs_self, hcl.fdTable]
          exact if_neg (hnot hqp)
        · rw [fdTable_setFs_ne hqp]
      have hold : s.Holds q k := ⟨hql, h3, h7, hfd ▸ hne⟩
      refine h.keep hold hfd rfl fun slot' hs _ => hcl.slots slot' ?_
      rintro rfl
      have hbound : s.fdTable p j = slot' := hcl.bound
      refine hc (by omega) q k hold (fun hqp => by exact_mod_cast hnot hqp) ?_
      rw [Int.toNat_natCast, hs, hbound]
  exact hret.of_wp hw

theorem Law.fork {child : ℕ} (h : Law s) (hlive : s.live p = true)
    (hret : Returns e (openAgain (s.fdTable p) 4 3) (s.fs p) () f) :
    Law ((s.setFs p f).copyPcb p child) := by
  obtain ⟨hfd, hft⟩ := hret.of_wp (wp_openAgain _ 4 3 _)
  have hsame : ∀ q, (s.setFs p f).fdTable q = s.fdTable q := by
    intro q
    by_cases hqp : q = p
    · rw [hqp, fdTable_setFs_self, hfd]
      rfl
    · exact fdTable_setFs_ne hqp
  have hslots : (s.setFs p f).fileTable = s.fileTable := hft
  rintro q k ⟨hql, h3, h7, hne⟩
  by_cases hqc : q = child
  · have hfdq : ((s.setFs p f).copyPcb p child).fdTable q k = s.fdTable p k := by
      change (if q = child then (s.setFs p f).fdTable p else _) k = _
      rw [if_pos hqc, hsame]
    obtain ⟨slot, i, hs, hlt, hi, ho⟩ := h p k ⟨hlive, h3, h7, hfdq ▸ hne⟩
    refine ⟨slot, i, hfdq.trans hs, hlt, ?_, ?_⟩
    · change ((s.setFs p f).fileTable slot).fdInode = some i
      rw [hslots, hi]
    · change (if q = child then s.opened p else s.opened q) k = some i
      rw [if_pos hqc, ho]
  · have hfdq : ((s.setFs p f).copyPcb p child).fdTable q k = s.fdTable q k := by
      change (if q = child then (s.setFs p f).fdTable p else (s.setFs p f).fdTable q) k = _
      rw [if_neg hqc, hsame]
    have hlq : s.live q = true := by
      have : (decide (q = child) || s.live q) = true := hql
      simpa [hqc] using this
    refine h.keep ⟨hlq, h3, h7, hfdq ▸ hne⟩ hfdq ?_ fun slot _ _ => ?_
    · change (if q = child then s.opened p else s.opened q) k = s.opened q k
      rw [if_neg hqc]
    · change ((s.setFs p f).fileTable slot).fdInode = _
      rw [hslots]

theorem Law.exit (h : Law s) (hc : s.Unshared p .exit)
    (hret : Returns e (closeAll 4 3) (s.fs p) () f) : Law ((s.setFs p f).die p) := by
  have hcl := hret.of_wp (wp_closeAll 4 3 (s.fs p) le_rfl (.start _))
  rintro q k ⟨hql, h3, h7, hne⟩
  have hlq : (decide (q ≠ p) && s.live q) = true := hql
  simp only [Bool.and_eq_true, decide_eq_true_eq] at hlq
  have hfd : ((s.setFs p f).die p).fdTable q k = s.fdTable q k :=
    congrFun (fdTable_setFs_ne hlq.1) k
  have hold : s.Holds q k := ⟨hlq.2, h3, h7, hfd ▸ hne⟩
  refine h.keep hold hfd rfl fun slot hs _ => hcl.slots slot fun j hj3 hj7 hj => ?_
  exact hc j hj3 hj7 q k hold hlq.1 (hs.trans hj.symm)

theorem Law.step (h : Law s) (hst : Step Unshared s s') : Law s' := by
  cases hst with
  | «open» hlive _ hret => exact h.open hlive hret
  | close _ hc hret => exact h.close hc hret
  | fork hlive _ _ hret => exact h.fork hlive hret
  | exit _ hc hret => exact h.exit hc hret

/-- In every state of a run. -/
theorem descriptor_law (h : Start s) (hrun : Run (Step Unshared) s s') : Law s' :=
  hrun.invariant (fun _ _ hI hst => Law.step hI hst) fun q k hq => absurd hq (h q k)

/-- The volume with an empty root directory. -/
def rootVolume : Volume :=
  { sampleVolume with
    disk := fun l => if l = 675 then
      memcpy (memcpy (fun _ => 0) 0 (DirEntry.bytes ⟨dotName, 0, FileType.directory⟩) 24) 24
        (DirEntry.bytes ⟨dotDotName, 0, FileType.directory⟩) 24 else fun _ => 0
    inodes := fun _ => ⟨0, 48, 1, false, fun k => if k = 0 then 675 else 0⟩ }

/-- Process 1 has no file open. -/
def startDescriptors : Descriptors :=
  ⟨rootVolume, fun _ => ⟨0, 0, none⟩, fun _ _ => -1, fun p => p = 1, fun _ _ => none⟩

/-- Process 1 has created `/a` and opened it as descriptor 3. -/
def openDescriptors : Descriptors :=
  (startDescriptors.setFs 1
    (sysOpen [47, 97] 6 sampleHeap 0 (startDescriptors.fs 1)).state).record 1 3

/-- Then it has forked process 2. -/
def forkedDescriptors : Descriptors :=
  (openDescriptors.setFs 1
    (openAgain (openDescriptors.fdTable 1) 4 3 sampleHeap 0 (openDescriptors.fs 1)).state).copyPcb
    1 2

theorem startDescriptors_start : Start startDescriptors := fun _ _ hq => hq.2.2.2 rfl

theorem openDescriptors_step {cond : Descriptors → ℕ → DescEvent → Prop}
    (hc : cond startDescriptors 1 (.open [47, 97] 6)) :
    Step cond startDescriptors openDescriptors :=
  .open (e := sampleHeap) (by decide) hc (.of_value (by decide +kernel))

theorem forkedDescriptors_step {cond : Descriptors → ℕ → DescEvent → Prop}
    (hc : cond openDescriptors 1 (.fork 2)) : Step cond openDescriptors forkedDescriptors :=
  .fork (e := sampleHeap) (by decide +kernel) (by decide +kernel) hc (.of_value (by decide +kernel))

theorem descriptor_law_sample : Run (Step Unshared) startDescriptors forkedDescriptors ∧
    Law forkedDescriptors ∧ forkedDescriptors.Holds 2 3 := by
  have h : Run (Step Unshared) startDescriptors forkedDescriptors :=
    (Relation.ReflTransGen.single (openDescriptors_step trivial)).tail
      (forkedDescriptors_step trivial)
  exact ⟨h, descriptor_law startDescriptors_start h, by decide +kernel, by decide, by decide,
    by decide +kernel⟩

/-- The child closes the descriptor that it has from its parent. -/
def closedDescriptors : Descriptors :=
  forkedDescriptors.setFs 2 (sysClose 3 sampleHeap 0 (forkedDescriptors.fs 2)).state

/-- The descriptor of the parent names an empty slot. -/
theorem descriptor_law_fails :
    Run (Step fun _ _ _ => True) startDescriptors closedDescriptors ∧
      closedDescriptors.Holds 1 3 ∧ closedDescriptors.fdTable 1 3 = 3 ∧
      (closedDescriptors.fileTable 3).fdInode = none ∧ ¬Law closedDescriptors := by
  have hret : Returns sampleHeap (sysClose 3) (forkedDescriptors.fs 2) 0
      (sysClose 3 sampleHeap 0 (forkedDescriptors.fs 2)).state := .of_value (by decide +kernel)
  have h : Step (fun _ _ _ => True) forkedDescriptors closedDescriptors :=
    .close (by decide +kernel) trivial hret
  have hholds : closedDescriptors.Holds 1 3 :=
    ⟨by decide +kernel, by decide, by decide, by decide +kernel⟩
  have hfd : closedDescriptors.fdTable 1 3 = 3 := by decide +kernel
  have hnone : (closedDescriptors.fileTable 3).fdInode = none := by decide +kernel
  refine ⟨((Relation.ReflTransGen.single (openDescriptors_step trivial)).tail
    (forkedDescriptors_step trivial)).tail h, hholds, hfd, hnone, fun hlaw => ?_⟩
  obtain ⟨slot, i, hs, -, hi, -⟩ := hlaw 1 3 hholds
  obtain rfl : slot = 3 := by
    rw [hfd] at hs
    exact_mod_cast hs.symm
  rw [hnone] at hi
  exact absurd hi (by simp)

end Law

end Descriptors

end Gogoos
