import Gogoos.Fs.SharedInodes
import Gogoos.Kernel.Handles

/-!
# The heaps that inodes come from

Kernel threads and user processes open and close files and open directories. The inodes that they
share are in the heap of the kernel, and go back to it, in every run in which no user process
creates a file.
-/

namespace Gogoos

open Program

/-- The heap of each thread, with the inodes that were taken from it and given back. -/
structure HeapUsers where
  users : FileUsers
  /-- A kernel thread has 0, which is `NULL`. -/
  pageDir : ℕ → ℕ
  heapOf : ℕ → ℕ
  freed : List (ℕ × ℕ)

namespace HeapUsers

variable {s s' : HeapUsers} {h : Heaped} {e : Heap} {q : ℕ}

section System

/-- What a call sees when `q` runs. -/
def see (s : HeapUsers) (q : ℕ) : Heaped := ⟨s.users.fs q, s.pageDir q, s.heapOf, s.freed⟩

def put (s : HeapUsers) (q : ℕ) (h : Heaped) : HeapUsers where
  users := s.users.setFs q h.fs
  pageDir r := if r = q then h.pageDir else s.pageDir r
  heapOf := h.heapOf
  freed := h.freed

def addDir (s : HeapUsers) (dir : Option Dir) : HeapUsers := { s with users := s.users.addDir dir }

inductive Step (cond : HeapUsers → ℕ → Heap → List UInt8 → ℕ → Prop) :
    HeapUsers → HeapUsers → Prop where
  | open {s : HeapUsers} {q pathName flags e r h} : q ∈ s.users.procs → cond s q e pathName flags →
      Returns e (Heaped.sysOpen pathName flags) (s.see q) r h → Step cond s (s.put q h)
  | openDir {s : HeapUsers} {q pathName e dir h} : q ∈ s.users.procs →
      Returns e (Heaped.sysOpenDir pathName) (s.see q) dir h →
      Step cond s ((s.put q h).addDir dir)
  | close {s : HeapUsers} {q fd e r h} : q ∈ s.users.procs →
      Returns e (Heaped.sysClose fd) (s.see q) r h → Step cond s (s.put q h)

/-- The caller is a kernel thread, or the call does not get as far as creating a file. -/
def Spares (s : HeapUsers) (q : ℕ) (e : Heap) (pathName : List UInt8) (flags : ℕ) : Prop :=
  s.pageDir q = 0 ∨ flags &&& OFlags.creat = 0 ∨ ¬Heaped.Creates e pathName flags (s.see q)

/-- The inodes on the list come from the heap of the kernel, and each inode that was freed went
back to the heap that it came from. -/
def Law (s : HeapUsers) : Prop :=
  (∀ p ∈ s.users.vol.openInodes, s.heapOf p = 0) ∧ ∀ x ∈ s.freed, x.2 = s.heapOf x.1

/-- Nothing is open but the root directory, which the kernel has opened. -/
structure Start (s : HeapUsers) : Prop where
  users : FileUsers.Start s.users
  slots : ∀ i, (s.users.fileTable i).fdInode = none
  root : s.heapOf s.users.vol.rootInode = 0
  freed : s.freed = []

end System

section Law

/-- A call on the volume leaves the tables of descriptors alone. -/
theorem setFs_setVol (u : FileUsers) (q : ℕ) (v : Volume) :
    u.setFs q ((u.fs q).setVol v) = u.setVol v := by
  have hfd : (fun r => if r = q then u.fdTable q else u.fdTable r) = u.fdTable := by
    funext r
    split_ifs with hr
    · rw [hr]
    · rfl
  exact congrArg (fun t => ({ u with vol := v, fdTable := t } : FileUsers)) hfd

/-- Without the heaps, a step is one of the processes' calls. -/
theorem Step.users {cond : HeapUsers → ℕ → Heap → List UInt8 → ℕ → Prop} (hst : Step cond s s') :
    FileUsers.Step (fun _ _ _ _ => True) s.users s'.users := by
  cases hst with
  | «open» hq _ hret => exact .open hq trivial ((Heaped.erases_sysOpen _ _).returns hret)
  | close hq hret => exact .close hq trivial ((Heaped.erases_sysClose _).returns hret)
  | openDir hq hret =>
    obtain ⟨v, hv, hfs⟩ := ((Heaped.erases_sysOpenDir _).returns hret).of_zoom
    have hput : ∀ q h, h.fs = (s.see q).fs.setVol v → (s.put q h).users = s.users.setVol v :=
      fun q _ hfs => (congrArg (s.users.setFs q) hfs).trans (setFs_setVol s.users q v)
    have hst : FileUsers.Step (fun _ _ _ _ => True) s.users _ := .openDir hq trivial hv
    rw [← hput _ _ hfs] at hst
    exact hst

/-- What holds between the calls, whoever runs next. -/
def Inv (s : HeapUsers) : Prop := ∀ q, Heaped.Kept (s.pageDir q) ∅ (s.see q)

theorem Inv.law (hI : Inv s) : Law s :=
  ⟨fun p hp => ((hI 0).listed p hp).1, fun x hx => ((hI 0).freed x hx).1⟩

theorem Start.inv (hs : Start s) : Inv s := by
  intro q
  have hroot : (s.see q).Shared s.users.vol.rootInode :=
    ⟨hs.root, hs.users.root.fresh _ (by simp)⟩
  refine ⟨rfl, fun p hp => ?_, hroot, fun i p hp => ?_, fun p hp => hp.elim, fun x hx => ?_⟩
  · have hpos := (hs.users.root.mem p).mp hp
    obtain rfl : p = s.users.vol.rootInode := by
      by_contra hne
      simp [hne] at hpos
    exact hroot
  · rw [show ((s.see q).fs.fileTable i).fdInode = none from hs.slots i] at hp
    cases hp
  · rw [show (s.see q).freed = [] from hs.freed] at hx
    cases hx

/-- The caller has its `pageDir` back when the call returns. -/
theorem Inv.put (hk : Heaped.Kept (s.pageDir q) ∅ h) : Inv (s.put q h) := by
  intro r
  change Heaped.Kept ((s.put q h).see r).pageDir ∅ ((s.put q h).see r)
  exact hk.congr rfl rfl rfl rfl

theorem Inv.addDir (hI : Inv s) (dir : Option Dir) : Inv (s.addDir dir) := hI

theorem Inv.step (hI : Inv s) (hst : Step Spares s s') : Inv s' := by
  cases hst with
  | «open» _ hc hret => exact .put (hret.of_wp (Heaped.wp_sysOpen (hI _) hc))
  | openDir _ hret => exact (Inv.put (hret.of_wp (Heaped.wp_sysOpenDir (hI _)))).addDir _
  | close _ hret => exact .put (hret.of_wp (Heaped.wp_sysClose (hI _)))

/-- In every state of a run. -/
theorem shared_law (hs : Start s) (hrun : Run (Step Spares) s s') : Law s' :=
  (hrun.invariant (fun _ _ hI hst => Inv.step hI hst) hs.inv).law

/-- Process 1 runs with the page directory `dir`, or is a kernel thread when that is 0. -/
def startHeaps (dir : ℕ) : HeapUsers := ⟨FileUsers.startUsers, fun _ => dir, fun _ => 0, []⟩

theorem startHeaps_start (dir : ℕ) : Start (startHeaps dir) :=
  ⟨FileUsers.startUsers_start, fun _ => rfl, rfl, rfl⟩

/-- It has created `/a`. -/
def createdHeaps (dir : ℕ) : HeapUsers :=
  (startHeaps dir).put 1 (Heaped.sysOpen [47, 97] 6 sampleHeap 0 ((startHeaps dir).see 1)).state

/-- Then it has closed it. -/
def closedHeaps (dir : ℕ) : HeapUsers :=
  (createdHeaps dir).put 1 (Heaped.sysClose 3 sampleHeap 0 ((createdHeaps dir).see 1)).state

/-- A kernel thread creates a file and closes it. -/
theorem shared_law_sample : Run (Step Spares) (startHeaps 0) (closedHeaps 0) ∧
    Law (closedHeaps 0) ∧ (closedHeaps 0).freed = [(1, 0)] := by
  have hopen : Step Spares (startHeaps 0) (createdHeaps 0) :=
    .open (e := sampleHeap) (r := 3) (by decide) (.inl rfl) (.of_value (by decide +kernel))
  have hret : Returns sampleHeap (Heaped.sysClose 3) ((createdHeaps 0).see 1) 0 _ :=
    .of_value (by decide +kernel)
  have hclose : Step Spares (createdHeaps 0) (closedHeaps 0) := .close (by decide +kernel) hret
  have hrun := (Relation.ReflTransGen.single hopen).tail hclose
  exact ⟨hrun, shared_law (startHeaps_start 0) hrun, by decide +kernel⟩

/-- A user process does: the inode of `/a`, which others may open, is in the heap of the process,
and goes back to the heap of the kernel. -/
theorem shared_law_fails : Start (startHeaps 1048576) ∧
    Run (Step fun _ _ _ _ _ => True) (startHeaps 1048576) (createdHeaps 1048576) ∧
      (createdHeaps 1048576).users.vol.openInodes = [1, 0] ∧
        (createdHeaps 1048576).heapOf 1 = 1048576 ∧ ¬Law (createdHeaps 1048576) ∧
    Run (Step fun _ _ _ _ _ => True) (startHeaps 1048576) (closedHeaps 1048576) ∧
      (closedHeaps 1048576).freed = [(1, 0)] ∧ (closedHeaps 1048576).heapOf 1 = 1048576 := by
  have hopen : Step (fun _ _ _ _ _ => True) (startHeaps 1048576) (createdHeaps 1048576) :=
    .open (e := sampleHeap) (r := 3) (by decide) trivial (.of_value (by decide +kernel))
  have hret : Returns sampleHeap (Heaped.sysClose 3) ((createdHeaps 1048576).see 1) 0 _ :=
    .of_value (by decide +kernel)
  have hclose : Step (fun _ _ _ _ _ => True) (createdHeaps 1048576) (closedHeaps 1048576) :=
    .close (by decide +kernel) hret
  have hlist : (createdHeaps 1048576).users.vol.openInodes = [1, 0] := by decide +kernel
  have hheap : (createdHeaps 1048576).heapOf 1 = 1048576 := by decide +kernel
  refine ⟨startHeaps_start _, .single hopen, hlist, hheap, fun hlaw => ?_,
    (Relation.ReflTransGen.single hopen).tail hclose, by decide +kernel, by decide +kernel⟩
  have h0 := hlaw.1 1 (by simp [hlist])
  omega

end Law

end HeapUsers

end Gogoos
