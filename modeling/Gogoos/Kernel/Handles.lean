import Gogoos.Fs.OpenFiles
import Gogoos.Kernel.Descriptors
import Gogoos.Logic.Run

/-!
# Handles on inodes

Calls of the file system by any number of processes that do not fork. An inode is open as long
as a descriptor, a directory that `sysOpenDir` returned, or `rootDir` refers to it, and its open
count is the number of these, in every run in which no call takes a branch that forgets a handle.
-/

namespace Gogoos

open Program

/-- The processes of a run are `procs`. -/
structure FileUsers where
  vol : Volume
  fileTable : ℕ → File
  procs : Finset ℕ
  fdTable : ℕ → ℕ → ℤ
  cwdIno : ℕ → ℕ
  /-- The directories that `sysOpenDir` returned and nobody has closed. The code keeps no list. -/
  dirs : List Dir

inductive FsCall where
  | open (pathName : List UInt8) (flags : ℕ)
  | close (fd : ℤ)
  | openDir (pathName : List UInt8)
  | closeDir (dir : Option Dir)
  | mkdir (pathName : List UInt8)
  | rmdir (pathName : List UInt8)
  | unlink (pathName : List UInt8)
  | stat (pathName : List UInt8)
  | chDir (pathName : List UInt8)

namespace FileUsers

variable {s s' : FileUsers} {f : Fs} {v w : Volume} {e : Heap} {q k : ℕ} {x : ℕ × ℕ}

section System

/-- What the file system sees when `q` runs. -/
def fs (s : FileUsers) (q : ℕ) : Fs := ⟨s.vol, s.fileTable, s.fdTable q⟩

def setFs (s : FileUsers) (q : ℕ) (f : Fs) : FileUsers :=
  { s with
    vol := f.vol
    fileTable := f.fileTable
    fdTable := fun r => if r = q then f.fdTable else s.fdTable r }

def setVol (s : FileUsers) (v : Volume) : FileUsers := { s with vol := v }

def setCwd (s : FileUsers) (q : ℕ) (ino : Option ℕ) : FileUsers :=
  { s with cwdIno := fun r => if r = q then ino.getD (s.cwdIno r) else s.cwdIno r }

def addDir (s : FileUsers) (dir : Option Dir) : FileUsers := { s with dirs := dir.toList ++ s.dirs }

def dropDir (s : FileUsers) (dir : Option Dir) : FileUsers :=
  { s with dirs := dir.elim s.dirs s.dirs.erase }

/-- A process makes a call, and the call returns. What is closed by `sysCloseDir` is `NULL` or a
directory that is open. -/
inductive Step (cond : FileUsers → ℕ → Heap → FsCall → Prop) : FileUsers → FileUsers → Prop where
  | open {s : FileUsers} {q pathName flags e r f} : q ∈ s.procs → cond s q e (.open pathName flags) →
      Returns e (sysOpen pathName flags) (s.fs q) r f → Step cond s (s.setFs q f)
  | close {s : FileUsers} {q fd e r f} : q ∈ s.procs → cond s q e (.close fd) →
      Returns e (sysClose fd) (s.fs q) r f → Step cond s (s.setFs q f)
  | openDir {s : FileUsers} {q pathName e dir v} : q ∈ s.procs → cond s q e (.openDir pathName) →
      Returns e (sysOpenDir pathName) s.vol dir v → Step cond s ((s.setVol v).addDir dir)
  | closeDir {s : FileUsers} {q dir e r v} : q ∈ s.procs → cond s q e (.closeDir dir) →
      (∀ d, dir = some d → d ∈ s.dirs) → Returns e (sysCloseDir dir) s.vol r v →
      Step cond s ((s.setVol v).dropDir dir)
  | mkdir {s : FileUsers} {q pathName e r v} : q ∈ s.procs → cond s q e (.mkdir pathName) →
      Returns e (sysMkdir pathName) s.vol r v → Step cond s (s.setVol v)
  | rmdir {s : FileUsers} {q pathName e r v} : q ∈ s.procs → cond s q e (.rmdir pathName) →
      Returns e (sysRmdir pathName) s.vol r v → Step cond s (s.setVol v)
  | unlink {s : FileUsers} {q pathName e r f} : q ∈ s.procs → cond s q e (.unlink pathName) →
      Returns e (sysUnlink pathName) (s.fs q) r f → Step cond s (s.setFs q f)
  | stat {s : FileUsers} {q pathName e r v} : q ∈ s.procs → cond s q e (.stat pathName) →
      Returns e (sysStat pathName) s.vol r v → Step cond s (s.setVol v)
  | chDir {s : FileUsers} {q pathName e ino v} : q ∈ s.procs → cond s q e (.chDir pathName) →
      Returns e (sysChDir pathName) s.vol ino v → Step cond s ((s.setVol v).setCwd q ino)

/-- The call takes no branch that forgets a handle: `sysOpen` with a full table of descriptors,
`sysClose` behind the table, `sysOpenDir` when the search leaves a directory open, and `sysMkdir`
when it rolls back with the parent open. -/
def Remembers (s : FileUsers) (q : ℕ) (e : Heap) : FsCall → Prop
  | .open pathName flags =>
    freeFdFrom (s.fdTable q) 4 3 ≠ none ∨ TurnedDown e pathName flags (s.fs q)
  | .close fd => fd < 7
  | .openDir pathName => OpensRoot pathName ∨ EndsAtRoot e pathName s.vol
  | .mkdir pathName => EndsAtRoot e pathName s.vol ∨ Enters e pathName s.vol
  | _ => True

/-- The descriptors that may be bound to an inode: 0 to 2 stand for the console. -/
def descriptors (s : FileUsers) : Finset (ℕ × ℕ) := s.procs ×ˢ Finset.Ico 3 7

/-- The handle that a descriptor is: one on the inode of its slot when it is in use. -/
def refers (s : FileUsers) (x : ℕ × ℕ) : ℕ → ℕ :=
  if s.fdTable x.1 x.2 = -1 then 0
  else match (s.fileTable (s.fdTable x.1 x.2).toNat).fdInode with
    | none => 0
    | some p => Pi.single p 1

/-- How many handles refer to each inode: descriptors, open directories and `rootDir`. -/
def handles (s : FileUsers) : ℕ → ℕ :=
  ∑ x ∈ s.descriptors, s.refers x + (s.dirs.map Dir.handles).sum + Pi.single s.vol.rootInode 1

/-- An inode is listed once, if and only if some handle refers to it, and its open count is the
number of its handles. -/
def Law (s : FileUsers) : Prop := Tallied s.vol.rootInode s.vol s.handles

/-- Nothing but `rootDir` is open. -/
structure Start (s : FileUsers) : Prop where
  closed : ∀ x ∈ s.descriptors, s.fdTable x.1 x.2 = -1
  dirs : s.dirs = []
  root : Tallied s.vol.rootInode s.vol (Pi.single s.vol.rootInode 1)

end System

section Law

/-- Descriptors in use name slots in use, no two of them the same. -/
structure Bindings (s : FileUsers) : Prop where
  slot : ∀ x ∈ s.descriptors, s.fdTable x.1 x.2 ≠ -1 → ∃ slot p : ℕ,
    s.fdTable x.1 x.2 = slot ∧ (s.fileTable slot).fdInode = some p
  inj : ∀ x ∈ s.descriptors, ∀ y ∈ s.descriptors, s.fdTable x.1 x.2 ≠ -1 →
    s.fdTable x.1 x.2 = s.fdTable y.1 y.2 → x = y

/-- The handles apart from the descriptor `x`. -/
def rest (s : FileUsers) (x : ℕ × ℕ) : ℕ → ℕ :=
  ∑ y ∈ s.descriptors.erase x, s.refers y + (s.dirs.map Dir.handles).sum +
    Pi.single s.vol.rootInode 1

theorem handles_eq (hx : x ∈ s.descriptors) : s.handles = s.rest x + s.refers x := by
  unfold handles rest
  rw [← Finset.sum_erase_add _ _ hx]
  abel

theorem refers_of_closed (h : s.fdTable x.1 x.2 = -1) : s.refers x = 0 := if_pos h

theorem refers_of_slot {slot p : ℕ} (h : s.fdTable x.1 x.2 = slot)
    (hp : (s.fileTable slot).fdInode = some p) : s.refers x = Pi.single p 1 := by
  have hne : s.fdTable x.1 x.2 ≠ -1 := by omega
  unfold refers
  rw [if_neg hne, h, Int.toNat_natCast, hp]

/-- Changes to one descriptor leave the other handles alone. -/
theorem rest_congr (hprocs : s'.procs = s.procs) (hdirs : s'.dirs = s.dirs)
    (hroot : s'.vol.rootInode = s.vol.rootInode)
    (h : ∀ y ∈ s.descriptors, y ≠ x → s'.refers y = s.refers y) : s'.rest x = s.rest x := by
  have hdesc : s'.descriptors = s.descriptors := by rw [descriptors, descriptors, hprocs]
  unfold rest
  rw [hdesc, hdirs, hroot]
  congr 2
  exact Finset.sum_congr rfl fun y hy =>
    h y (Finset.mem_of_mem_erase hy) (Finset.ne_of_mem_erase hy)

theorem handles_congr (hprocs : s'.procs = s.procs) (hdirs : s'.dirs = s.dirs)
    (hroot : s'.vol.rootInode = s.vol.rootInode)
    (h : ∀ y ∈ s.descriptors, s'.refers y = s.refers y) : s'.handles = s.handles := by
  have hdesc : s'.descriptors = s.descriptors := by rw [descriptors, descriptors, hprocs]
  unfold handles
  rw [hdesc, hdirs, hroot, Finset.sum_congr rfl h]

/-- A descriptor keeps its handle when it keeps its slot and the slot its inode. -/
theorem Bindings.refers_eq (h : Bindings s) (hx : x ∈ s.descriptors)
    (hfd : s'.fdTable x.1 x.2 = s.fdTable x.1 x.2)
    (hslot : ∀ slot : ℕ, s.fdTable x.1 x.2 = slot → (s.fileTable slot).fdInode ≠ none →
      (s'.fileTable slot).fdInode = (s.fileTable slot).fdInode) : s'.refers x = s.refers x := by
  by_cases hx1 : s.fdTable x.1 x.2 = -1
  · rw [refers_of_closed hx1, refers_of_closed (hfd.trans hx1)]
  · obtain ⟨slot, p, hs, hp⟩ := h.slot x hx hx1
    rw [refers_of_slot hs hp, refers_of_slot (hfd.trans hs) ((hslot slot hs (by simp [hp])).trans hp)]

theorem fdTable_setFs (s : FileUsers) (q : ℕ) (f : Fs) (x : ℕ × ℕ) :
    (s.setFs q f).fdTable x.1 x.2 = if x.1 = q then f.fdTable x.2 else s.fdTable x.1 x.2 := by
  change (if x.1 = q then f.fdTable else s.fdTable x.1) x.2 = _
  split_ifs <;> rfl

/-- What holds between the calls. -/
structure Inv (s : FileUsers) : Prop where
  law : Law s
  bindings : Bindings s

/-- A call that acts on the volume alone and leaves as many handles as there were. -/
theorem Inv.setVol (h : Inv s) (hw : Tallied s.vol.rootInode w s.handles) : Inv (s.setVol w) := by
  have hroot : w.rootInode = s.vol.rootInode := hw.rootInode
  have hh : (s.setVol w).handles = s.handles := handles_congr rfl rfl hroot fun _ _ => rfl
  refine ⟨?_, h.bindings.slot, h.bindings.inj⟩
  unfold Law
  rw [hh]
  exact hroot.symm ▸ hw

theorem Start.inv (h : Start s) : Inv s := by
  have hsum : ∑ x ∈ s.descriptors, s.refers x = 0 :=
    Finset.sum_eq_zero fun x hx => refers_of_closed (h.closed x hx)
  have hh : s.handles = Pi.single s.vol.rootInode 1 := by
    unfold handles
    rw [hsum, h.dirs]
    simp
  refine ⟨?_, fun x hx hne => absurd (h.closed x hx) hne,
    fun x hx y _ hne => absurd (h.closed x hx) hne⟩
  unfold Law
  rw [hh]
  exact h.root

/-- Nothing was bound: descriptors and slots in use are as before. -/
theorem Inv.kept (h : Inv s) (hk : SlotsKept (s.fs q) f)
    (hv : Tallied s.vol.rootInode f.vol s.handles) : Inv (s.setFs q f) := by
  have hfd : ∀ x : ℕ × ℕ, (s.setFs q f).fdTable x.1 x.2 = s.fdTable x.1 x.2 := by
    intro x
    rw [fdTable_setFs, hk.fdTable]
    split_ifs with hx
    · rw [hx]
      rfl
    · rfl
  have hslot : ∀ slot : ℕ, (s.fileTable slot).fdInode ≠ none →
      (f.fileTable slot).fdInode = (s.fileTable slot).fdInode := hk.slots
  have hh : (s.setFs q f).handles = s.handles :=
    handles_congr rfl rfl hv.rootInode fun y hy =>
      h.bindings.refers_eq hy (hfd y) fun slot _ hu => hslot slot hu
  refine ⟨?_, fun x hx hne => ?_, fun x hx y hy hne hxy => ?_⟩
  · unfold Law
    rw [hh]
    exact hv.rootInode.symm ▸ hv
  · rw [hfd] at hne
    obtain ⟨slot, p, hs, hp⟩ := h.bindings.slot x hx hne
    exact ⟨slot, p, (hfd x).trans hs, (hslot slot (by simp [hp])).trans hp⟩
  · rw [hfd] at hne
    rw [hfd, hfd] at hxy
    exact h.bindings.inj x hx y hy hne hxy

theorem mem_descriptors : x ∈ s.descriptors ↔ x.1 ∈ s.procs ∧ 3 ≤ x.2 ∧ x.2 < 7 := by
  simp [descriptors]

/-- A descriptor was bound to a slot that was free. -/
theorem Inv.bound {slot p : ℕ} (h : Inv s) (hq : q ∈ s.procs) (hb : Bound (s.fs q) k slot p f)
    (hv : Tallied s.vol.rootInode f.vol (s.handles + Pi.single p 1)) : Inv (s.setFs q f) := by
  have hx : (q, k) ∈ s.descriptors := mem_descriptors.mpr ⟨hq, hb.fd.1, hb.fd.2.1⟩
  have hold : s.fdTable q k = -1 := hb.fd.2.2
  have hnew : (s.setFs q f).fdTable q k = slot := by
    rw [fdTable_setFs s q f (q, k), if_pos rfl, hb.fdTable]
    exact if_pos rfl
  have hfd : ∀ y, y ≠ (q, k) → (s.setFs q f).fdTable y.1 y.2 = s.fdTable y.1 y.2 := by
    rintro ⟨r, j⟩ hy
    rw [fdTable_setFs]
    by_cases hr : r = q
    · subst hr
      rw [if_pos rfl, hb.fdTable]
      exact if_neg fun hj => hy (Prod.ext rfl hj)
    · rw [if_neg hr]
  have hslot : ∀ i : ℕ, (s.fileTable i).fdInode ≠ none →
      (f.fileTable i).fdInode = (s.fileTable i).fdInode := hb.slots
  -- the slot was free, so no other descriptor names it
  have hfree : ∀ y ∈ s.descriptors, s.fdTable y.1 y.2 ≠ slot := by
    intro y hy hs
    obtain ⟨slot', p', hs', hp'⟩ := h.bindings.slot y hy (by omega)
    obtain rfl : slot' = slot := by omega
    exact hb.free (by
      change (s.fileTable slot').fdInode ≠ none
      simp [hp'])
  have hh : (s.setFs q f).handles = s.handles + Pi.single p 1 := by
    have hrest : (s.setFs q f).rest (q, k) = s.rest (q, k) :=
      rest_congr rfl rfl hv.rootInode fun y hy hne =>
        h.bindings.refers_eq hy (hfd y hne) fun i _ hu => hslot i hu
    rw [handles_eq (s := s.setFs q f) hx, handles_eq hx, hrest, refers_of_slot hnew hb.inode,
      refers_of_closed hold, add_zero]
  refine ⟨?_, fun y hy hne => ?_, fun y hy z hz hne hyz => ?_⟩
  · unfold Law
    rw [hh]
    exact hv.rootInode.symm ▸ hv
  · by_cases hyx : y = (q, k)
    · subst hyx
      exact ⟨slot, p, hnew, hb.inode⟩
    · rw [hfd y hyx] at hne ⊢
      obtain ⟨i, p', hs, hp'⟩ := h.bindings.slot y hy hne
      exact ⟨i, p', hs, (hslot i (by simp [hp'])).trans hp'⟩
  · by_cases hyx : y = (q, k) <;> by_cases hzx : z = (q, k)
    · rw [hyx, hzx]
    · subst hyx
      rw [hnew, hfd z hzx] at hyz
      exact absurd hyz.symm (hfree z hz)
    · subst hzx
      rw [hnew, hfd y hyx] at hyz
      exact absurd hyz (hfree y hy)
    · rw [hfd y hyx] at hne
      rw [hfd y hyx, hfd z hzx] at hyz
      exact h.bindings.inj y hy z hz hne hyz

theorem Inv.open {pathName : List UInt8} {flags : ℕ} {r : ℤ} (h : Inv s) (hq : q ∈ s.procs)
    (hc : s.Remembers q e (.open pathName flags))
    (hret : Returns e (sysOpen pathName flags) (s.fs q) r f) : Inv (s.setFs q f) := by
  have htally : OpenTallied s.vol.rootInode s.handles r f :=
    hret.of_wp (wp_sysOpen_tallied h.law hc)
  rcases hret.of_wp (wp_sysOpen pathName flags) with ⟨rfl, hk⟩ | ⟨k, slot, p, rfl, hb⟩
  · rcases htally with ⟨-, hv⟩ | ⟨j, -, -, hj, -⟩
    · exact h.kept hk hv
    · omega
  · rcases htally with ⟨hk, -⟩ | ⟨j, slot', p', hj, hs, hp, hv⟩
    · omega
    · obtain rfl : k = j := by exact_mod_cast hj
      have hslot : (slot : ℤ) = slot' := by
        rw [← hs, hb.fdTable]
        exact (if_pos rfl).symm
      obtain rfl : slot = slot' := by exact_mod_cast hslot
      obtain rfl : p = p' := Option.some.inj (hb.inode.symm.trans hp)
      exact h.bound hq hb hv

/-- The descriptor `k` was closed. -/
theorem Inv.closed {slot : ℕ} (h : Inv s) (hx : (q, k) ∈ s.descriptors)
    (hcl : Closed (s.fs q) k slot f) (hv : Tallied s.vol.rootInode f.vol (s.rest (q, k))) :
    Inv (s.setFs q f) := by
  have hnew : (s.setFs q f).fdTable q k = -1 := by
    rw [fdTable_setFs s q f (q, k), if_pos rfl, hcl.fdTable]
    exact if_pos rfl
  have hfd : ∀ y, y ≠ (q, k) → (s.setFs q f).fdTable y.1 y.2 = s.fdTable y.1 y.2 := by
    rintro ⟨r, j⟩ hy
    rw [fdTable_setFs]
    by_cases hr : r = q
    · subst hr
      rw [if_pos rfl, hcl.fdTable]
      exact if_neg fun hj => hy (Prod.ext rfl hj)
    · rw [if_neg hr]
  -- no other descriptor names the slot that was emptied
  have hslot : ∀ y ∈ s.descriptors, y ≠ (q, k) → ∀ i : ℕ, s.fdTable y.1 y.2 = i →
      (f.fileTable i).fdInode = (s.fileTable i).fdInode := by
    intro y hy hne i hi
    apply hcl.slots
    rintro rfl
    have hbound : s.fdTable q k = i := hcl.bound
    exact hne (h.bindings.inj y hy _ hx (by omega) (hi.trans hbound.symm))
  have hh : (s.setFs q f).handles = s.rest (q, k) := by
    have hrest : (s.setFs q f).rest (q, k) = s.rest (q, k) :=
      rest_congr rfl rfl hv.rootInode fun y hy hne =>
        h.bindings.refers_eq hy (hfd y hne) fun i hi _ => hslot y hy hne i hi
    rw [handles_eq (s := s.setFs q f) hx, hrest, refers_of_closed hnew, add_zero]
  have hother : ∀ y, (s.setFs q f).fdTable y.1 y.2 ≠ -1 → y ≠ (q, k) := by
    rintro y hy rfl
    exact hy hnew
  refine ⟨?_, fun y hy hne => ?_, fun y hy z hz hne hyz => ?_⟩
  · unfold Law
    rw [hh]
    exact hv.rootInode.symm ▸ hv
  · have hyx := hother y hne
    rw [hfd y hyx] at hne ⊢
    obtain ⟨i, p', hs, hp'⟩ := h.bindings.slot y hy hne
    exact ⟨i, p', hs, (hslot y hy hyx i hs).trans hp'⟩
  · have hyx := hother y hne
    have hzx := hother z (hyz ▸ hne)
    rw [hfd y hyx] at hne
    rw [hfd y hyx, hfd z hzx] at hyz
    exact h.bindings.inj y hy z hz hne hyz

theorem Inv.close {fd r : ℤ} (h : Inv s) (hq : q ∈ s.procs) (hc : s.Remembers q e (.close fd))
    (hret : Returns e (sysClose fd) (s.fs q) r f) : Inv (s.setFs q f) := by
  have hcl : (fd ≤ 2 ∧ f = s.fs q) ∨
      ∃ k slot : ℕ, fd = k ∧ 2 < k ∧ Closed (s.fs q) k slot f := by
    have hw : wp anyStop e (sysClose fd) (fun _ f => (fd ≤ 2 ∧ f = s.fs q) ∨
        ∃ k slot : ℕ, fd = k ∧ 2 < k ∧ Closed (s.fs q) k slot f) (s.fs q) :=
      wp_sysClose (fun hlow => .inl ⟨hlow, rfl⟩)
        fun k slot _ _ hk h2 hcl => .inr ⟨k, slot, hk, h2, hcl⟩
    exact hret.of_wp hw
  rcases hcl with ⟨-, rfl⟩ | ⟨k, slot, rfl, h2, hcl⟩
  · exact h.kept (.refl _) h.law
  · have hc' : (k : ℤ) < 7 := hc
    have hx : (q, k) ∈ s.descriptors := mem_descriptors.mpr ⟨hq, h2, by omega⟩
    have htally : Tallied s.vol.rootInode f.vol (s.rest (q, k)) := by
      have hn : ∀ slot p : ℕ, 2 < (k : ℤ) → (s.fs q).fdTable (k : ℤ).toNat = slot →
          ((s.fs q).fileTable slot).fdInode = some p →
            s.handles = s.rest (q, k) + Pi.single p 1 := by
        intro slot p _ hs hp
        rw [Int.toNat_natCast] at hs
        rw [handles_eq hx, refers_of_slot (x := (q, k)) hs hp]
      rcases hret.of_wp (wp_sysClose_tallied h.law hn) with ⟨hlow, -⟩ | ⟨-, hv⟩
      · omega
      · exact hv
    exact h.closed hx hcl htally

theorem Inv.openDir {dir : Option Dir} (h : Inv s)
    (hv : Tallied s.vol.rootInode v (s.handles + dirHandles dir)) :
    Inv ((s.setVol v).addDir dir) := by
  have hh : ((s.setVol v).addDir dir).handles = s.handles + dirHandles dir := by
    change ∑ x ∈ s.descriptors, s.refers x + ((dir.toList ++ s.dirs).map Dir.handles).sum +
      Pi.single v.rootInode 1 = _
    rw [hv.rootInode]
    unfold handles dirHandles
    cases dir with
    | none => simp
    | some d =>
      simp only [Option.toList_some, List.cons_append, List.nil_append, List.map_cons,
        List.sum_cons, Option.elim_some]
      abel
  refine ⟨?_, h.bindings.slot, h.bindings.inj⟩
  unfold Law
  rw [hh]
  exact hv.rootInode.symm ▸ hv

theorem Inv.closeDir {dir : Option Dir} {r : ℤ} (h : Inv s) (hdir : ∀ d, dir = some d → d ∈ s.dirs)
    (hret : Returns e (sysCloseDir dir) s.vol r v) : Inv ((s.setVol v).dropDir dir) := by
  have hh : (s.dropDir dir).handles + dirHandles dir = s.handles := by
    cases dir with
    | none => exact add_zero _
    | some d =>
      have hsum := List.sum_map_erase Dir.handles (hdir d rfl)
      change ∑ x ∈ s.descriptors, s.refers x + ((s.dirs.erase d).map Dir.handles).sum +
        Pi.single s.vol.rootInode 1 + d.handles = _
      unfold handles
      rw [← hsum]
      abel
  have hlaw : Tallied s.vol.rootInode s.vol ((s.dropDir dir).handles + dirHandles dir) :=
    hh ▸ h.law
  have hv := hret.of_wp (wp_sysCloseDir hlaw)
  have hvol : ((s.setVol v).dropDir dir).handles = (s.dropDir dir).handles := by
    change ∑ x ∈ s.descriptors, s.refers x + _ + Pi.single v.rootInode 1 = _
    rw [hv.rootInode]
    rfl
  refine ⟨?_, h.bindings.slot, h.bindings.inj⟩
  unfold Law
  rw [hvol]
  exact hv.rootInode.symm ▸ hv

theorem Inv.step (h : Inv s) (hst : Step Remembers s s') : Inv s' := by
  cases hst with
  | «open» hq hc hret => exact h.open hq hc hret
  | close hq hc hret => exact h.close hq hc hret
  | openDir _ hc hret => exact h.openDir (hret.of_wp (wp_sysOpenDir h.law hc))
  | closeDir _ _ hdir hret => exact h.closeDir hdir hret
  | mkdir _ hc hret => exact h.setVol (hret.of_wp (wp_sysMkdir h.law hc))
  | rmdir _ _ hret => exact h.setVol (hret.of_wp (wp_sysRmdir h.law))
  | unlink _ _ hret =>
    obtain ⟨w, rfl, hw⟩ := hret.of_wp (wp_sysUnlink_tallied h.law)
    exact h.kept ⟨rfl, fun _ _ => rfl⟩ hw
  | stat _ _ hret => exact h.setVol (hret.of_wp (wp_sysStat h.law))
  | chDir _ _ hret =>
    have hv := h.setVol (hret.of_wp (wp_sysChDir h.law))
    exact ⟨hv.law, hv.bindings.slot, hv.bindings.inj⟩

/-- Process 1 has nothing open. -/
def startUsers : FileUsers where
  vol := Descriptors.rootVolume
  fileTable _ := ⟨0, 0, none⟩
  procs := {1}
  fdTable _ _ := -1
  cwdIno _ := 0
  dirs := []

theorem startUsers_start : Start startUsers := by
  have hpos : ∀ p, 0 < (Pi.single 0 1 : ℕ → ℕ) p ↔ p = 0 := by
    intro p
    by_cases hp : p = 0 <;> simp [hp]
  refine ⟨fun _ _ => rfl, rfl, rfl, by decide, fun p => ?_, fun p hp => ?_, fun p hp => ?_⟩
  · exact List.mem_singleton.trans (hpos p).symm
  · obtain rfl := (hpos p).mp hp
    rfl
  · obtain rfl := (hpos p).mp hp
    exact Nat.one_pos

/-- Process 1 has created `/a`. -/
def openUsers : FileUsers :=
  startUsers.setFs 1 (sysOpen [47, 97] 6 sampleHeap 0 (startUsers.fs 1)).state

/-- Process 1 has made `/d`. -/
def madeUsers : FileUsers :=
  startUsers.setVol (sysMkdir [47, 100] sampleHeap 0 startUsers.vol).state

/-- It opens the new directory, which is inode 2. -/
def openedUsers : FileUsers :=
  (madeUsers.setVol (sysOpenDir [47, 100] sampleHeap 0 madeUsers.vol).state).addDir (some ⟨false, 2⟩)

/-- Then it closes it. -/
def closedUsers : FileUsers :=
  (openedUsers.setVol (sysCloseDir (some ⟨false, 2⟩) sampleHeap 0 openedUsers.vol).state).dropDir
    (some ⟨false, 2⟩)

end Law

end FileUsers

end Gogoos
