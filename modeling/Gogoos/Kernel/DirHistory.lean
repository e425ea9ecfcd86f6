import Gogoos.Fs.DirectoryRun
import Gogoos.Kernel.DirRemoval

/-!
# Directories since they were made

A directory is opened and closed many times. Its calls fall into the times when it is open, and
between them other parts of the kernel may move its inode. In every state that such a history
leads to, the size counts the entries, each entry stands in one slot, and without entries there is
one block.
-/

namespace Gogoos

open Program

variable {v w : Volume} {i : Inode} {d p : ℕ} {dot dotdot de : DirEntry} {L : Multiset DirEntry}

section Tidy

namespace TidyDir

variable (h : TidyDir v i dot dotdot L)
include h

theorem mem_iff : de ∈ dot ::ₘ dotdot ::ₘ L ↔ ∃ k < 140, ∃ j < 21, v.entryAt i k j = some de := by
  rw [← h.isDir.entries, mem_bag]
  constructor
  · rintro ⟨⟨k, j⟩, hx, hat⟩
    exact ⟨k, (mem_slots.mp hx).1, j, (mem_slots.mp hx).2, hat⟩
  · rintro ⟨k, hk, j, hj, hat⟩
    exact ⟨(k, j), mem_slots.mpr ⟨hk, hj⟩, hat⟩

theorem nodup (hne : dot ≠ dotdot) : (dot ::ₘ dotdot ::ₘ L).Nodup := by
  rw [Multiset.nodup_cons, Multiset.nodup_cons]
  refine ⟨fun hmem => ?_, fun hmem => (h.outside _ hmem).2 rfl, .of_map _ h.inos⟩
  rcases Multiset.mem_cons.mp hmem with heq | hmem
  · exact hne heq
  · exact (h.outside _ hmem).1 rfl

theorem once (hne : dot ≠ dotdot) {k j k' j' : ℕ} (hk : k < 140) (hj : j < 21) (hk' : k' < 140)
    (hj' : j' < 21) (hat : v.entryAt i k j = some de) (hat' : v.entryAt i k' j' = some de) :
    k = k' ∧ j = j' := by
  have hnodup := h.nodup hne
  rw [← h.isDir.entries] at hnodup
  exact Prod.mk.inj (bag_inj hnodup (x := (k, j)) (y := (k', j')) (mem_slots.mpr ⟨hk, hj⟩)
    (mem_slots.mpr ⟨hk', hj'⟩) hat hat')

theorem size_lt : i.size < 2 ^ 32 := by
  have hcard : Multiset.card (bag slots fun x => v.entryAt i x.1 x.2) ≤ 2940 :=
    card_slots ▸ card_bag_le _ _
  rw [h.isDir.entries, Multiset.card_cons, Multiset.card_cons] at hcard
  rw [h.isDir.size]
  omega

theorem size_eq_iff : i.size = 48 ↔ L = 0 := by
  rw [h.isDir.size, ← Multiset.card_eq_zero]
  omega

/-- Without entries the directory has its first block only. -/
theorem block_eq_zero (hne : dot ≠ dotdot) (hL : L = 0) {k : ℕ} (hk : k < 12) :
    i.block (k + 1) = 0 := by
  have hnone : ∀ k, 0 < k → k < 140 → v.blockAt i k = 0 := by
    intro k h0 hk
    by_contra hb
    obtain ⟨j, hj, hocc⟩ := h.isDir.nonempty k h0 hk hb
    obtain ⟨de, hde⟩ := Option.ne_none_iff_exists'.mp hocc
    have hmem := h.mem_iff.mpr ⟨k, hk, j, hj, hde⟩
    rw [hL, Multiset.mem_cons, Multiset.mem_cons] at hmem
    rcases hmem with rfl | rfl | hmem
    · have := (h.once hne hk hj (by norm_num) (by norm_num) hde h.slot_dot).1
      omega
    · have := (h.once hne hk hj (by norm_num) (by norm_num) hde h.slot_dotdot).1
      omega
    · exact absurd hmem (Multiset.notMem_zero _)
  by_cases hk12 : k + 1 < 12
  · rw [← blockAt_direct v i hk12]
    exact hnone (k + 1) (by omega) (by omega)
  · obtain rfl : k = 11 := by omega
    by_contra htable
    have href : v.ref i 140 ≠ 0 := by rwa [ref_table]
    obtain ⟨k', h12, h140, hb⟩ := h.table href
    rw [ref_of_lt h140] at hb
    exact hb (hnone k' (by omega) h140)

theorem data {k : ℕ} (hk : v.ref i k ≠ 0) : v.superBlock.dataLbaStart ≤ v.ref i k :=
  h.owns.base_le hk

end TidyDir

end Tidy

section History

/-- A step in the life of directory `d`: an insertion or a deletion that meets the conditions while
it is open, or anything else that leaves it alone, opening and closing it included. -/
inductive LifeStep (d : ℕ) (dot dotdot : DirEntry) (s t : Volume × Multiset DirEntry) : Prop
  | call {p : ℕ} {c : DirCall} (hp : s.1.findOpen d = some p) (h : DirStep p dot dotdot c s t)
      (hsafe : DirSafe p dotdot c s.1) (hc : c ≠ .elsewhere)
  | elsewhere (h : LeftAlone s.1 t.1 (s.1.inodeNo d) (t.1.inodeNo d)) (hL : t.2 = s.2)

/-- The directory `d`, with the entries of `L`, as a history of safe steps leads to it. -/
def Lived (v : Volume) (d : ℕ) (L : Multiset DirEntry) : Prop :=
  ∃ v₀ dot dotdot, NewDirectory v₀ (v₀.inodeNo d) dot dotdot ∧
    Run (LifeStep d dot dotdot) (v₀, 0) (v, L)

theorem inodeNo_of_open (hp : v.findOpen d = some p) : v.inodeNo d = v.inodes p := by
  unfold Volume.inodeNo
  rw [hp]

theorem setInode_ino {g : Inode → Inode} (hg : ∀ i, (g i).ino = i.ino) (q : ℕ) :
    ((v.setInode p g).inodes q).ino = (v.inodes q).ino := by
  by_cases hq : q = p
  · subst hq
    simpa using hg _
  · simp [hq]

theorem setSize_ino {f : Inode → ℕ} (q : ℕ) :
    ((v.setInode p fun i => i.setSize (f i)).inodes q).ino = (v.inodes q).ino := by
  apply setInode_ino
  exact fun _ => rfl

theorem setBlock_ino {k lba : ℕ} (q : ℕ) :
    ((v.setInode p (·.setBlock k lba)).inodes q).ino = (v.inodes q).ino := by
  apply setInode_ino
  exact fun _ => rfl

theorem dropEntry_ino (q : ℕ) : ((v.dropEntry p).inodes q).ino = (v.inodes q).ino := by
  unfold Volume.dropEntry
  exact setSize_ino (f := fun i => i.size - 24) q

theorem SyncResult.findOpen {b : Bool} (h : SyncResult v p de b w) :
    w.findOpen d = v.findOpen d := by
  apply findOpen_congr
  · cases h <;> rfl
  · intro q
    cases h with
    | unchanged => rfl
    | intoSlot | indirect => exact setSize_ino q
    | direct | table => exact (setSize_ino q).trans (setBlock_ino q)
    | rolledBack => exact (setBlock_ino q).trans (setBlock_ino q)

theorem DeleteResult.findOpen {ino : ℕ} {b : Bool} (h : DeleteResult v p ino b w) :
    w.findOpen d = v.findOpen d := by
  apply findOpen_congr
  · cases h <;> rfl
  · intro q
    cases h with
    | notFound => rfl
    | cleared | indirect => exact dropEntry_ino q
    | direct | last => exact (dropEntry_ino q).trans (setBlock_ino q)

/-- An open directory stays open at its address through its calls. -/
theorem DirStep.findOpen {c : DirCall} {s t : Volume × Multiset DirEntry}
    (h : DirStep p dot dotdot c s t) (hs : DirTidy s.1 p dot dotdot s.2)
    (hsafe : DirSafe p dotdot c s.1) (hc : c ≠ .elsewhere) :
    t.1.findOpen d = s.1.findOpen d := by
  cases h with
  | sync hde hret =>
    have hres := hret.of_wp (show wp anyStop _ _ _ _ from
      wp_syncDirEntry hs.layout (fun _ _ => trivial) _)
    exact hres.findOpen
  | delete hret =>
    have hres := hret.of_wp (show wp anyStop _ _ _ _ from
      wp_deleteDirEntry hs.layout (fun _ _ => trivial) (hs.freesInside hsafe) _)
    exact hres.findOpen
  | elsewhere => exact absurd rfl hc

theorem LifeStep.tidy {s t : Volume × Multiset DirEntry} (h : LifeStep d dot dotdot s t)
    (hs : TidyDir s.1 (s.1.inodeNo d) dot dotdot s.2) :
    TidyDir t.1 (t.1.inodeNo d) dot dotdot t.2 := by
  cases h with
  | @call p c hp hstep hsafe hc =>
    rw [inodeNo_of_open hp] at hs
    have hopen := hstep.findOpen hs hsafe hc (d := d)
    rw [inodeNo_of_open (hopen.trans hp)]
    exact (SafeDirStep.tidy ⟨c, hstep, hsafe⟩ hs).1
  | elsewhere h hL =>
    rw [hL]
    exact hs.leftAlone h

theorem Lived.tidy (h : Lived v d L) : ∃ dot dotdot, TidyDir v (v.inodeNo d) dot dotdot L := by
  obtain ⟨v₀, dot, dotdot, hnew, hrun⟩ := h
  exact ⟨dot, dotdot, hrun.invariant
    (I := fun s => TidyDir s.1 (s.1.inodeNo d) dot dotdot s.2)
    (fun s t hs hstep => hstep.tidy hs) hnew.tidy⟩

end History

end Gogoos
