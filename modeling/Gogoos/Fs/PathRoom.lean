import Gogoos.Fs.PathWrites
import Gogoos.Fs.Steps

/-!
# Roomy for the strings of a path

When the names of a path are short and the messages that hold it are too, every string that the
calls make of it fits its array.
-/

namespace Gogoos

open Program

variable {σ α β : Type} {p : List UInt8} {sub : Option (List UInt8)} {c : List UInt8}
  {cs : List (List UInt8)} {P : α → Prop} {R : β → Prop}

section Rules

/-- Every string on record fits. -/
def Roomy (s : Noted σ) : Prop := ∀ n ∈ s.log, n.Fits

/-- The program writes strings that fit, also when it stops, and what it returns satisfies `P`. -/
def Writes (m : NotedM σ α) (P : α → Prop) : Prop :=
  ∀ e s, Roomy s → wp Roomy e m (fun a s' => Roomy s' ∧ P a) s

theorem writes_pure {a : α} (h : P a) : Writes (pure a : NotedM σ α) P :=
  fun _ _ hs => wp_pure.mpr ⟨hs, h⟩

theorem writes_halt : Writes (halt : NotedM σ α) P := fun _ _ hs => wp_halt.mpr hs

theorem writes_get : Writes (get : NotedM σ (Noted σ)) fun _ => True :=
  fun _ _ hs => wp_get.mpr ⟨hs, trivial⟩

theorem writes_ask (q : Heap → ℕ → α) : Writes (ask q : NotedM σ α) fun _ => True :=
  fun _ _ hs => wp_ask fun _ => ⟨hs, trivial⟩

theorem writes_assert (q : Prop) [Decidable q] :
    Writes (assert q : NotedM σ Unit) fun _ => q :=
  fun _ _ hs => wp_assert.mpr ⟨fun hq => ⟨hs, hq⟩, fun _ => hs⟩

theorem writes_note {n : Note} (hn : n.Fits) : Writes (note n : NotedM σ Unit) fun _ => True := by
  intro e s hs
  refine wp_modify.mpr ⟨fun n' hn' => ?_, trivial⟩
  rcases List.mem_cons.mp hn' with rfl | hn'
  · exact hn
  · exact hs n' hn'

theorem writes_quietly (m : Program Heap σ α) : Writes (quietly m) fun _ => True := by
  intro e s hs
  apply wp_zoom
  exact wp_iff.mpr ⟨fun _ _ _ => ⟨hs, trivial⟩, fun _ _ => hs⟩

theorem Writes.onNotedVol {m : NotedM Volume α} (h : Writes m P) : Writes (onNotedVol m) P := by
  intro e s hs
  exact wp_zoom (h e ⟨s.st.vol, s.log⟩ hs)

theorem Writes.bind {m : NotedM σ α} {f : α → NotedM σ β} (hm : Writes m P)
    (hf : ∀ a, P a → Writes (f a) R) : Writes (m >>= f) R :=
  fun e s hs => wp_call (hm e s hs) fun a s' h => hf a h.2 e s' h.1

theorem Writes.ite {q : Prop} [Decidable q] {m n : NotedM σ α} (hm : q → Writes m P)
    (hn : ¬q → Writes n P) : Writes (if q then m else n) P := by
  split_ifs with h
  · exact hm h
  · exact hn h

theorem Writes.mono {Q : α → Prop} {m : NotedM σ α} (h : Writes m P) (hQ : ∀ a, P a → Q a) :
    Writes m Q := fun e s hs => wp_mono (h e s hs) fun a _ ha => ⟨ha.1, hQ a ha.2⟩

end Rules

section Names

/-- The names of the path fit the name array. -/
def Short (cs : List (List UInt8)) : Prop := ∀ c ∈ cs, c.length < 16

instance (cs : List (List UInt8)) : Decidable (Short cs) := inferInstanceAs (Decidable (∀ _ ∈ _, _))

/-- The name to look up next and the rest of the path, of the names that are left. -/
structure Ahead (next : List UInt8 × Option (List UInt8)) (cs : List (List UInt8)) : Prop where
  name : next.1 = cs.headD []
  rest : restOf next.2 = cs.tail

theorem ahead_pathParse : Ahead (pathParse p) (components p) := by
  cases hc : components p with
  | nil =>
    rw [pathParse_of_nil hc]
    exact ⟨rfl, rfl⟩
  | cons c cs =>
    obtain ⟨r, hr, hrest⟩ := pathParse_of_cons hc
    rw [hr]
    exact ⟨rfl, hrest⟩

theorem writes_pathParse (h : Short (components p)) :
    Writes (Noted.pathParse p : NotedM σ _) fun next => Ahead next (components p) := by
  have hfits : (pathParse p).1.length < 16 := by
    rw [ahead_pathParse.name]
    cases hc : components p with
    | nil => simp
    | cons c cs => exact h c (by simp [hc])
  exact (writes_note (n := .name (pathParse p).1) hfits).bind fun _ _ =>
    writes_pure ahead_pathParse

theorem writes_pathNext (h : Short (restOf sub)) :
    Writes (Noted.pathNext sub : NotedM σ _) fun next => Ahead next (restOf sub) := by
  cases sub with
  | none => exact writes_pure ⟨rfl, rfl⟩
  | some p => exact writes_pathParse h

theorem writes_depthLoop : ∀ {fuel sub}, Short (restOf sub) → (∀ c ∈ restOf sub, c ≠ []) →
    (restOf sub).length ≤ fuel →
      Writes (Noted.depthLoop fuel sub) fun depth => depth = (restOf sub).length + 1 := by
  intro fuel
  induction fuel with
  | zero =>
    intro sub _ _ hlen
    have hnil : (restOf sub).length = 0 := Nat.le_zero.mp hlen
    exact writes_pure (by rw [hnil])
  | succ fuel ih =>
    intro sub hshort hne hlen
    unfold Noted.depthLoop
    apply (writes_pathNext hshort).bind
    intro next hnext
    cases hcs : restOf sub with
    | nil =>
      rw [hcs] at hnext
      have hname : next.1 = [] := hnext.name
      rw [if_pos hname]
      exact writes_pure rfl
    | cons c cs =>
      rw [hcs] at hnext hshort hne hlen
      have hname : next.1 = c := hnext.name
      have hrest : restOf next.2 = cs := hnext.rest
      have hc : c ≠ [] := hne c (by simp)
      rw [hname, if_neg hc]
      rw [← hrest] at hshort hne hlen ⊢
      simp only [List.length_cons] at hlen
      apply (ih (fun d hd => hshort d (List.mem_cons_of_mem _ hd))
        (fun d hd => hne d (List.mem_cons_of_mem _ hd)) (by omega)).bind
      rintro depth rfl
      exact writes_pure (by simp)

theorem ne_of_mem_components : ∀ c ∈ components p, c ≠ [] := fun _ hc => (mem_components hc).1

/-- The depth is the number of names, if there is one. -/
theorem writes_pathDepthCnt (h : Short (components p)) :
    Writes (Noted.pathDepthCnt p) fun depth => components p ≠ [] → depth = (components p).length := by
  unfold Noted.pathDepthCnt
  apply (writes_pathParse h).bind
  intro first hfirst
  cases hcs : components p with
  | nil =>
    rw [hcs] at hfirst
    have hname : first.1 = [] := hfirst.name
    rw [if_pos hname]
    exact (writes_ask _).bind fun word _ => writes_pure fun hne => absurd rfl hne
  | cons c cs =>
    have hlen : (components p).length ≤ p.length + 1 :=
      length_le_pathLength.trans pathLength_components
    have hne := ne_of_mem_components (p := p)
    rw [hcs] at hfirst h hlen hne
    have hname : first.1 = c := hfirst.name
    have hrest : restOf first.2 = cs := hfirst.rest
    have hc : c ≠ [] := hne c (by simp)
    rw [hname, if_neg hc]
    rw [← hrest] at h hne hlen ⊢
    simp only [List.length_cons] at hlen
    apply (writes_depthLoop (fun d hd => h d (List.mem_cons_of_mem _ hd))
      (fun d hd => hne d (List.mem_cons_of_mem _ hd)) (by omega)).mono
    intro depth hdepth _
    rw [hdepth]
    rfl

end Names

section Search

/-- The names that the search has appended: all of them when it ends in a directory, else those
up to the one that it fails at. -/
structure Descended (all : List (List UInt8)) (r : Option ℕ × PathSearchRecord) : Prop where
  names : ∃ pre, pre <+: all ∧ r.2.searchPath = joined pre ∧
    (r.2.fileType ≠ FileType.directory → pre ≠ []) ∧
    (r.2.fileType = FileType.directory → pre = all)

theorem writes_searchLoop {all : List (List UInt8)} (hne : ∀ c ∈ all, c ≠ []) (hshort : Short all)
    (hlen : pathLength all < 512) : ∀ fuel next record parentIno deIno pre cs,
      Ahead next cs → pre ++ cs = all → record.searchPath = joined pre →
      record.fileType = FileType.unknown →
        Writes (Noted.searchLoop fuel next.1 next.2 record parentIno deIno) (Descended all) := by
  intro fuel
  induction fuel with
  | zero => exact fun _ _ _ _ _ _ _ _ _ _ => writes_halt
  | succ fuel ih =>
    intro next record parentIno deIno pre cs hnext hall hpath htype
    unfold Noted.searchLoop
    cases cs with
    | nil =>
      have hname : next.1 = [] := hnext.name
      rw [if_pos hname]
      apply (writes_quietly _).bind
      intro _ _
      apply (writes_quietly _).bind
      intro dir _
      apply writes_pure
      have hpre : pre = all := by rw [← hall, List.append_nil]
      exact ⟨pre, by rw [hpre], hpath, fun hnot => absurd rfl hnot, fun _ => hpre⟩
    | cons c cs =>
      have hname : next.1 = c := hnext.name
      have hrest : restOf next.2 = cs := hnext.rest
      have hc : c ≠ [] := hne c (by rw [← hall]; simp)
      have hall' : pre ++ [c] ++ cs = all := by rw [← hall]; simp
      have hprefix : pre ++ [c] <+: all := ⟨cs, hall'⟩
      have hshort' : Short (restOf next.2) := by
        intro d hd
        rw [hrest] at hd
        exact hshort d (by rw [← hall]; simp [hd])
      rw [if_neg (by rw [hname]; exact hc)]
      apply (writes_assert _).bind
      intro _ _
      dsimp only
      have hpath' : record.searchPath ++ slash :: next.1 = joined (pre ++ [c]) := by
        rw [hpath, hname, joined_append]
      rw [hpath']
      have hfits : (joined (pre ++ [c])).length < 512 := by
        have hsum : pathLength all = pathLength (pre ++ [c]) + pathLength cs := by
          rw [← hall', pathLength_append]
        rw [length_joined]
        omega
      apply (writes_note (n := .searchPath _) hfits).bind
      intro _ _
      apply (writes_quietly _).bind
      intro found _
      have hmiss : ∀ (ino : Option ℕ) (type : ℕ), type ≠ FileType.directory →
          Descended all (ino, ⟨joined (pre ++ [c]), record.parentDir, type⟩) := fun ino type hnot =>
        ⟨pre ++ [c], hprefix, rfl, fun _ => by simp, fun hdir => absurd hdir hnot⟩
      cases found with
      | none =>
        apply writes_pure
        rw [htype]
        exact hmiss none _ (by decide)
      | some de =>
        apply (writes_pathNext hshort').bind
        intro next' hnext'
        rw [hrest] at hnext'
        apply Writes.ite
        · intro _
          apply writes_get.bind
          intro s _
          apply (writes_quietly _).bind
          intro _ _
          apply (writes_quietly _).bind
          intro dir _
          exact ih next' _ _ _ (pre ++ [c]) cs hnext' hall' rfl htype
        · intro _
          apply Writes.ite
          · exact fun _ => writes_pure (hmiss _ _ (by decide))
          · exact fun _ => ih next' _ _ _ (pre ++ [c]) cs hnext' hall' rfl htype

/-- What comes out of `searchFile`. -/
def Found (p : List UInt8) (r : Option ℕ × PathSearchRecord) : Prop :=
  (isRootPath p = true ∧ r.1 = some 0 ∧ r.2.fileType = FileType.directory) ∨
    (p.head? = some slash ∧ isRootPath p = false ∧ Descended (components p) r)

/-- The paths that a search takes apart. -/
def Sought (p : List UInt8) : Prop := p.head? = some slash ∧ isRootPath p = false

theorem writes_searchFile (h : Sought p → Short (components p)) :
    Writes (Noted.searchFile p) (Found p) := by
  apply writes_get.bind
  intro s _
  apply Writes.ite
  · exact fun hroot => writes_pure (Or.inl ⟨hroot, rfl, rfl⟩)
  · intro hroot
    have hroot' : isRootPath p = false := Bool.not_eq_true _ ▸ hroot
    apply (writes_assert _).bind
    rintro _ ⟨habs, hlen⟩
    have hshort := h ⟨habs, hroot'⟩
    have hpath := pathLength_absolute habs
    apply (writes_ask _).bind
    intro word _
    apply (writes_pathParse hshort).bind
    intro first hfirst
    apply (writes_searchLoop ne_of_mem_components hshort (by omega) _ _ _ _ _ [] _ hfirst rfl rfl
      rfl).mono
    exact fun r hr => Or.inr ⟨habs, hroot', hr⟩

end Search

section Lengths

variable {q : List UInt8}

@[simp] theorem length_cantOpen : (cantOpen p).length = p.length + 57 := by
  simp only [cantOpen, List.length_append, show (ascii "can't open directory ").length = 21 from rfl,
    show (ascii " with open(), use openDir() instead\n").length = 36 from rfl]
  omega

@[simp] theorem length_cannotAccess : (cannotAccess p q).length = p.length + q.length + 54 := by
  simp only [cannotAccess, List.length_append, show (ascii "cannot access ").length = 14 from rfl,
    show (ascii ": Not a directory, subpath ").length = 27 from rfl,
    show (ascii " isn't exist\n").length = 13 from rfl]
  omega

@[simp] theorem length_notInPath : (notInPath p q).length = p.length + q.length + 27 := by
  simp only [notInPath, List.length_append, show (ascii "in path:").length = 8 from rfl,
    show (ascii ", file ").length = 7 from rfl, show (ascii " isn't exist").length = 12 from rfl]
  omega

@[simp] theorem length_alreadyExist : (alreadyExist p).length = p.length + 16 := by
  simp only [alreadyExist, List.length_append, show (ascii " already exist!\n").length = 16 from rfl]

@[simp] theorem length_notFound : (notFound p).length = p.length + 17 := by
  simp only [notFound, List.length_append, show (ascii "file ").length = 5 from rfl,
    show (ascii " not found!\n").length = 12 from rfl]
  omega

@[simp] theorem length_isInUse : (isInUse p).length = p.length + 39 := by
  simp only [isInUse, List.length_append, show (ascii "file ").length = 5 from rfl,
    show (ascii " is in use, not allowed to delete\n").length = 34 from rfl]
  omega

@[simp] theorem length_mkdirExist : (mkdirExist p).length = p.length + 44 := by
  simp only [mkdirExist, List.length_append,
    show (ascii "sysMkdir: file or directory ").length = 28 from rfl,
    show (ascii " already exist!\n").length = 16 from rfl]
  omega

@[simp] theorem length_cantMake : (cantMake p q).length = p.length + q.length + 45 := by
  simp only [cantMake, List.length_append,
    show (ascii "sysMkdir: can't make ").length = 21 from rfl,
    show (ascii ", subpath ").length = 10 from rfl, show (ascii " isn't exist!\n").length = 14 from rfl]
  omega

@[simp] theorem length_notExisting : (notExisting p).length = p.length + 36 := by
  simp only [notExisting, List.length_append,
    show (ascii "sysRmdir: directory ").length = 20 from rfl,
    show (ascii " isn't existing\n").length = 16 from rfl]
  omega

@[simp] theorem length_notEmpty : (notEmpty p).length = p.length + 47 := by
  simp only [notEmpty, List.length_append,
    show (ascii "sysRmdir: can't remove directory, ").length = 34 from rfl,
    show (ascii " isn't empty\n").length = 13 from rfl]
  omega

end Lengths

section Calls

inductive PathCall where
  | open (flags : ℕ)
  | mkdir
  | unlink
  | rmdir
  | chDir
  | stat
  | openDir

/-- The call, its result left out. -/
def PathCall.call : PathCall → List UInt8 → FsM Unit
  | .open flags, p => sysOpen p flags >>= fun _ => pure ()
  | .mkdir, p => onVol (sysMkdir p) >>= fun _ => pure ()
  | .unlink, p => sysUnlink p >>= fun _ => pure ()
  | .rmdir, p => onVol (sysRmdir p) >>= fun _ => pure ()
  | .chDir, p => onVol (sysChDir p) >>= fun _ => pure ()
  | .stat, p => onVol (sysStat p) >>= fun _ => pure ()
  | .openDir, p => onVol (sysOpenDir p) >>= fun _ => pure ()

/-- The call with the record of its strings. -/
def PathCall.run : PathCall → List UInt8 → NotedM Fs Unit
  | .open flags, p => Noted.sysOpen p flags >>= fun _ => pure ()
  | .mkdir, p => onNotedVol (Noted.sysMkdir p) >>= fun _ => pure ()
  | .unlink, p => Noted.sysUnlink p >>= fun _ => pure ()
  | .rmdir, p => onNotedVol (Noted.sysRmdir p) >>= fun _ => pure ()
  | .chDir, p => onNotedVol (Noted.sysChDir p) >>= fun _ => pure ()
  | .stat, p => onNotedVol (Noted.sysStat p) >>= fun _ => pure ()
  | .openDir, p => onNotedVol (Noted.sysOpenDir p) >>= fun _ => pure ()

theorem erases_run (call : PathCall) (p : List UInt8) :
    Noted.ErasesTo (call.run p) (call.call p) := by
  cases call with
  | «open» flags => exact (Noted.erases_sysOpen p flags).bind fun _ => erases_pure ()
  | mkdir => exact (Noted.erases_onNotedVol (Noted.erases_sysMkdir p)).bind fun _ => erases_pure ()
  | unlink => exact (Noted.erases_sysUnlink p).bind fun _ => erases_pure ()
  | rmdir => exact (Noted.erases_onNotedVol (Noted.erases_sysRmdir p)).bind fun _ => erases_pure ()
  | chDir => exact (Noted.erases_onNotedVol (Noted.erases_sysChDir p)).bind fun _ => erases_pure ()
  | stat => exact (Noted.erases_onNotedVol (Noted.erases_sysStat p)).bind fun _ => erases_pure ()
  | openDir =>
    exact (Noted.erases_onNotedVol (Noted.erases_sysOpenDir p)).bind fun _ => erases_pure ()

/-- The names before the last. -/
def parents (p : List UInt8) : List (List UInt8) := (components p).dropLast

/-- The names that the call comes to store fit the name array, and the messages that it comes to
print fit the array of `printk`. -/
def PathCall.HasRoom : PathCall → List UInt8 → Prop
  | .open flags, p =>
    if p.getLast? = some slash then (cantOpen p).length < 512
    else flags ≤ 7 → Short (components p) ∧ (Sought p → (cantOpen p).length < 512 ∧
      (cannotAccess p (joined (parents p))).length < 512)
  | .mkdir, p => Sought p → Short (components p) ∧ (mkdirExist p).length < 512 ∧
      ((components p).length ≠ 1 → (cantMake p (joined (parents p))).length < 512)
  | .unlink, p => Sought p → Short (components p) ∧
      if components p = [] then (notFound p).length < 512 else (isInUse p).length < 512
  | .rmdir, p => Sought p → Short (components p) ∧ (notEmpty p).length < 512
  | .chDir, p => Sought p → Short (components p)
  | .stat, p => Sought p → Short (components p)
  | .openDir, p => Sought p → ¬slash :: dotName <+: p → Short (components p)

end Calls

section Safety

theorem writes_close (dir : Dir) (r : α) : Writes (do
    quietly (dirClose dir)
    return r) fun _ => True := (writes_quietly _).bind fun _ _ => writes_pure trivial

theorem writes_closeFs (dir : Dir) (r : α) : Writes (do
    quietly (onVol (dirClose dir))
    return r) fun _ => True := (writes_quietly _).bind fun _ _ => writes_pure trivial

theorem pathLength_le_parents {pre : List (List UInt8)} (hpre : pre <+: components p)
    (hne : (components p).length ≠ pre.length) : pathLength pre ≤ pathLength (parents p) := by
  obtain ⟨rest, hrest⟩ := hpre
  have hrest0 : rest ≠ [] := by
    rintro rfl
    rw [List.append_nil] at hrest
    exact hne (by rw [hrest])
  have hparents : parents p = pre ++ rest.dropLast := by
    rw [parents, ← hrest, List.dropLast_append_of_ne_nil hrest0]
  rw [hparents, pathLength_append]
  exact Nat.le_add_right _ _

/-- The names up to which the search went are those of `searchPath`. -/
theorem components_searched {pre : List (List UInt8)} (hpre : pre <+: components p) :
    components (joined pre) = pre := by
  apply components_joined
  intro c hc
  obtain ⟨hne, hslash, -⟩ := mem_components (hpre.subset hc)
  exact ⟨hne, hslash⟩

theorem length_root (h : isRootPath p = true) : p.length ≤ 3 := by
  simp only [isRootPath, Bool.or_eq_true, decide_eq_true_eq] at h
  rcases h with (rfl | rfl) | rfl <;> decide

theorem Found.of_not_dir {r : Option ℕ × PathSearchRecord} (h : Found p r)
    (hdir : r.2.fileType ≠ FileType.directory) : Sought p ∧ ∃ pre, pre ≠ [] ∧
      pre <+: components p ∧ r.2.searchPath = joined pre := by
  rcases h with ⟨-, -, htype⟩ | ⟨habs, hroot, ⟨pre, hpre, hpath, hne, -⟩⟩
  · exact absurd htype hdir
  · exact ⟨⟨habs, hroot⟩, pre, hne hdir, hpre, hpath⟩

theorem Found.sought {r : Option ℕ × PathSearchRecord} (h : Found p r) (h0 : r.1 ≠ some 0) :
    Sought p := by
  rcases h with ⟨-, hzero, -⟩ | ⟨habs, hroot, -⟩
  · exact absurd hzero h0
  · exact ⟨habs, hroot⟩

/-- The last name of a joined path. -/
theorem length_lastName {pre : List (List UInt8)} (hne : pre ≠ []) (hpre : pre <+: components p)
    (hshort : Short (components p)) :
    ((joined pre).reverse.takeWhile (· ≠ slash)).reverse.length < 16 := by
  obtain ⟨init, c, rfl⟩ : ∃ init c, pre = init ++ [c] :=
    ⟨pre.dropLast, pre.getLast hne, (List.dropLast_append_getLast hne).symm⟩
  have hmem : c ∈ components p := hpre.subset (by simp)
  obtain ⟨-, hslash, -⟩ := mem_components hmem
  have hall : ∀ x ∈ c.reverse, decide (x ≠ slash) = true := by
    intro x hx
    have hneq : x ≠ slash := by
      rintro rfl
      exact hslash (List.mem_reverse.mp hx)
    simpa using hneq
  have hlast : (joined (init ++ [c])).reverse.takeWhile (· ≠ slash) = c.reverse := by
    rw [joined_append, List.reverse_append, List.reverse_cons, List.append_assoc,
      List.takeWhile_append_of_pos hall, List.singleton_append, List.takeWhile_cons_of_neg (by simp),
      List.append_nil]
  rw [hlast, List.reverse_reverse]
  exact hshort c hmem

theorem writes_lastName (searchPath : List UInt8) :
    Writes (quietly (onVol (lastName searchPath))) fun fileName =>
      fileName = (searchPath.reverse.takeWhile (· ≠ slash)).reverse := by
  intro e s hs
  apply wp_zoom
  apply wp_onVol
  unfold lastName
  rw [wp_assert_bind]
  exact ⟨fun _ => wp_pure.mpr ⟨hs, rfl⟩, fun _ => hs⟩

theorem writes_sysOpen {flags : ℕ} (h : (PathCall.open flags).HasRoom p) :
    Writes (Noted.sysOpen p flags) fun _ => True := by
  dsimp only [PathCall.HasRoom] at h
  unfold Noted.sysOpen
  by_cases hlast : p.getLast? = some slash
  · rw [if_pos hlast] at h ⊢
    exact (writes_note (n := .message _) h).bind fun _ _ => writes_pure trivial
  rw [if_neg hlast] at h ⊢
  apply (writes_assert _).bind
  intro _ hflags
  obtain ⟨hshort, hroom⟩ := h hflags
  apply (writes_pathDepthCnt hshort).onNotedVol.bind
  intro depth hdepth
  apply (writes_searchFile fun _ => hshort).onNotedVol.bind
  rintro ⟨ino, record⟩ hfound
  apply Writes.ite
  · intro _
    have hfits : (cantOpen p).length < 512 := by
      rcases hfound with ⟨hroot, -⟩ | ⟨habs, hroot, -⟩
      · have hlen := length_root hroot
        rw [length_cantOpen]
        omega
      · exact (hroom ⟨habs, hroot⟩).1
    exact (writes_note (n := .message _) hfits).bind fun _ _ => writes_closeFs _ _
  intro hdir
  obtain ⟨hsought, pre, hne, hpre, hpath⟩ := hfound.of_not_dir hdir
  obtain ⟨hcant, haccess⟩ := hroom hsought
  have hcomp := components_searched hpre
  have hshort' : Short (components record.searchPath) := by
    rw [hpath, hcomp]
    exact fun c hc => hshort c (hpre.subset hc)
  apply (writes_pathDepthCnt hshort').onNotedVol.bind
  intro searched hsearched
  have hall : components p ≠ [] := by
    intro hnil
    rw [hnil] at hpre
    exact hne (List.prefix_nil.mp hpre)
  apply Writes.ite
  · intro hdiff
    have hfits : (cannotAccess p record.searchPath).length < 512 := by
      have hlen : (components p).length ≠ pre.length := by
        rw [← hdepth hall, ← hcomp, ← hpath, ← hsearched (by rw [hpath, hcomp]; exact hne)]
        exact hdiff
      have hle := pathLength_le_parents hpre hlen
      rw [length_cannotAccess, length_joined] at haccess
      rw [hpath, length_cannotAccess, length_joined]
      omega
    exact (writes_note (n := .message _) hfits).bind fun _ _ => writes_closeFs _ _
  intro _
  apply (writes_lastName _).bind
  intro fileName hname
  have hlen : fileName.length < 16 := by
    rw [hname, hpath]
    exact length_lastName hne hpre hshort
  rw [length_cantOpen] at hcant
  cases ino with
  | none =>
    apply Writes.ite
    · intro _
      have hfits : (notInPath p fileName).length < 512 := by
        rw [length_notInPath]
        omega
      exact (writes_note (n := .message _) hfits).bind fun _ _ => writes_closeFs _ _
    · exact fun _ => (writes_quietly _).bind fun _ _ => writes_closeFs _ _
  | some ino =>
    apply Writes.ite
    · intro _
      have hfits : (alreadyExist p).length < 512 := by
        rw [length_alreadyExist]
        omega
      exact (writes_note (n := .message _) hfits).bind fun _ _ => writes_closeFs _ _
    · exact fun _ => (writes_quietly _).bind fun _ _ => writes_closeFs _ _

theorem writes_sysMkdir (h : PathCall.mkdir.HasRoom p) :
    Writes (Noted.sysMkdir p) fun _ => True := by
  dsimp only [PathCall.HasRoom] at h
  unfold Noted.sysMkdir
  apply (writes_quietly _).bind
  intro ok _
  apply Writes.ite
  · exact fun _ => writes_pure trivial
  intro _
  apply (writes_searchFile fun hs => (h hs).1).bind
  rintro ⟨ino, record⟩ hfound
  cases ino with
  | some ino =>
    apply (writes_assert _).bind
    intro _ hino
    have hne : (some ino, record).1 ≠ some 0 := by simpa using hino
    exact (writes_note (n := .message _) (h (hfound.sought hne)).2.1).bind fun _ _ =>
      writes_close _ _
  | none =>
    have hsought : Sought p := hfound.sought (by simp)
    obtain ⟨hshort, -, hroom⟩ := h hsought
    have hsearched : Descended (components p) (none, record) := by
      rcases hfound with ⟨hroot, -⟩ | ⟨-, -, hsearched⟩
      · exact absurd (hsought.2.symm.trans hroot) (by decide)
      · exact hsearched
    obtain ⟨pre, hpre, hpath, hne, hfull⟩ := hsearched
    have hcomp := components_searched hpre
    have hpath' : record.searchPath = joined pre := hpath
    have hshort' : Short (components record.searchPath) := by
      rw [hpath', hcomp]
      exact fun c hc => hshort c (hpre.subset hc)
    apply (writes_pathDepthCnt hshort).bind
    intro depth hdepth
    apply (writes_pathDepthCnt hshort').bind
    intro searched hsearched
    apply Writes.ite
    · intro hdiff
      have hfits : (cantMake p record.searchPath).length < 512 := by
        rw [length_cantMake, length_joined] at hroom
        rw [hpath', length_cantMake, length_joined]
        by_cases hall : components p = []
        · have hnil : pre = [] := List.prefix_nil.mp (hall ▸ hpre)
          have hlong := hroom (by simp [hall])
          rw [hnil]
          have hzero : pathLength [] = 0 := rfl
          omega
        · have hpre0 : pre ≠ [] := by
            by_cases hdir : record.fileType = FileType.directory
            · rw [hfull hdir]
              exact hall
            · exact hne hdir
          have hlen : (components p).length ≠ pre.length := by
            rw [← hdepth hall, ← hcomp, ← hpath', ← hsearched (by rw [hpath', hcomp]; exact hpre0)]
            exact hdiff
          have hone : (components p).length ≠ 1 := by
            have hle := hpre.length_le
            have hpos := List.length_pos_iff.mpr hpre0
            omega
          have hle := pathLength_le_parents hpre hlen
          have hlong := hroom hone
          omega
      exact (writes_note (n := .message _) hfits).bind fun _ _ => writes_close _ _
    · exact fun _ => writes_quietly _

theorem writes_sysUnlink (h : PathCall.unlink.HasRoom p) :
    Writes (Noted.sysUnlink p) fun _ => True := by
  dsimp only [PathCall.HasRoom] at h
  unfold Noted.sysUnlink
  apply (writes_assert _).bind
  intro _ _
  apply (writes_searchFile fun hs => (h hs).1).onNotedVol.bind
  rintro ⟨ino, record⟩ hfound
  cases ino with
  | none =>
    have hroom := (h (hfound.sought (by simp))).2
    have hfits : (notFound p).length < 512 := by
      rw [length_notFound, length_isInUse] at hroom
      rw [length_notFound]
      split_ifs at hroom <;> omega
    exact (writes_note (n := .message _) hfits).bind fun _ _ => writes_closeFs _ _
  | some ino =>
    apply (writes_assert _).bind
    intro _ hino
    apply Writes.ite
    · exact fun _ => writes_closeFs _ _
    intro hdir
    apply writes_get.bind
    intro s _
    apply Writes.ite
    · intro _
      obtain ⟨hsought, pre, hne, hpre, -⟩ := hfound.of_not_dir hdir
      have hall : components p ≠ [] := by
        intro hnil
        rw [hnil] at hpre
        exact hne (List.prefix_nil.mp hpre)
      have hfits := (h hsought).2
      rw [if_neg hall] at hfits
      exact (writes_note (n := .message _) hfits).bind fun _ _ => writes_closeFs _ _
    intro _
    apply (writes_quietly _).bind
    intro ok _
    apply Writes.ite
    · exact fun _ => writes_closeFs _ _
    · intro _
      apply (writes_quietly _).bind
      intro _ _
      apply (writes_quietly _).bind
      exact fun _ _ => writes_closeFs _ _

theorem writes_sysRmdir (h : PathCall.rmdir.HasRoom p) :
    Writes (Noted.sysRmdir p) fun _ => True := by
  dsimp only [PathCall.HasRoom] at h
  unfold Noted.sysRmdir
  apply (writes_searchFile fun hs => (h hs).1).bind
  rintro ⟨ino, record⟩ hfound
  cases ino with
  | none =>
    have hroom := (h (hfound.sought (by simp))).2
    have hfits : (notExisting p).length < 512 := by
      rw [length_notEmpty] at hroom
      rw [length_notExisting]
      omega
    exact (writes_note (n := .message _) hfits).bind fun _ _ => writes_close _ _
  | some ino =>
    apply Writes.ite
    · exact fun _ => writes_close _ _
    intro hino
    have hne : (some ino, record).1 ≠ some 0 := by simpa using hino
    have hfits := (h (hfound.sought hne)).2
    apply (writes_quietly _).bind
    intro dir _
    have hclose : ∀ ret : ℤ, Writes (do
        quietly (dirClose dir)
        quietly (dirClose record.parentDir)
        return ret) fun _ => True := fun ret =>
      (writes_quietly _).bind fun _ _ => writes_close _ _
    apply (writes_quietly _).bind
    intro empty _
    apply Writes.ite
    · exact fun _ => (writes_note (n := .message _) hfits).bind fun _ _ => hclose _
    · exact fun _ => (writes_quietly _).bind fun _ _ => .ite (fun _ => hclose _) fun _ => hclose _

theorem writes_sysChDir (h : PathCall.chDir.HasRoom p) :
    Writes (Noted.sysChDir p) fun _ => True := by
  apply (writes_searchFile h).bind
  rintro ⟨ino, record⟩ _
  apply (writes_quietly _).bind
  intro _ _
  exact .ite (fun _ => writes_pure trivial) fun _ => writes_pure trivial

theorem writes_sysStat (h : PathCall.stat.HasRoom p) :
    Writes (Noted.sysStat p) fun _ => True := by
  unfold Noted.sysStat
  apply Writes.ite
  · exact fun _ => writes_get.bind fun _ _ => writes_pure trivial
  intro _
  apply (writes_searchFile h).bind
  rintro ⟨ino, record⟩ _
  cases ino with
  | none => exact writes_close _ _
  | some ino =>
    apply (writes_quietly _).bind
    intro q _
    apply writes_get.bind
    intro s _
    exact (writes_quietly _).bind fun _ _ => writes_close _ _

theorem writes_sysOpenDir (h : PathCall.openDir.HasRoom p) :
    Writes (Noted.sysOpenDir p) fun _ => True := by
  dsimp only [PathCall.HasRoom] at h
  unfold Noted.sysOpenDir
  apply (writes_assert _).bind
  intro _ _
  apply Writes.ite
  · exact fun _ => writes_get.bind fun _ _ => writes_pure trivial
  intro hspecial
  rw [not_or] at hspecial
  apply (writes_searchFile fun hs => h hs hspecial.2).bind
  rintro ⟨ino, record⟩ _
  cases ino with
  | none => exact writes_pure trivial
  | some ino =>
    apply Writes.ite
    · exact fun _ => (writes_quietly _).bind fun _ _ => writes_pure trivial
    · exact fun _ => writes_pure trivial

/-- Every string that a call with room writes fits its array. -/
theorem writes_run {call : PathCall} (h : call.HasRoom p) : Writes (call.run p) fun _ => True := by
  cases call with
  | «open» flags => exact (writes_sysOpen h).bind fun _ _ => writes_pure trivial
  | mkdir => exact (writes_sysMkdir h).onNotedVol.bind fun _ _ => writes_pure trivial
  | unlink => exact (writes_sysUnlink h).bind fun _ _ => writes_pure trivial
  | rmdir => exact (writes_sysRmdir h).onNotedVol.bind fun _ _ => writes_pure trivial
  | chDir => exact (writes_sysChDir h).onNotedVol.bind fun _ _ => writes_pure trivial
  | stat => exact (writes_sysStat h).onNotedVol.bind fun _ _ => writes_pure trivial
  | openDir => exact (writes_sysOpenDir h).onNotedVol.bind fun _ _ => writes_pure trivial

/-- Every string of the run fits its array. -/
def Contained (o : Outcome (Noted σ) α) : Prop := ∀ n ∈ o.state.log, n.Fits

/-- The call writes inside its arrays on every volume and every machine. -/
def PathCall.Safe (call : PathCall) (p : List UInt8) : Prop :=
  ∀ e t fs, Contained (call.run p e t ⟨fs, []⟩)

theorem safe_of_room {call : PathCall} (h : call.HasRoom p) : call.Safe p := by
  intro e t fs
  have hrun := writes_run h e ⟨fs, []⟩ (by simp [Roomy]) t
  unfold Contained
  cases hm : call.run p e t ⟨fs, []⟩ with
  | returned a t' s' =>
    rw [hm] at hrun
    exact hrun.1
  | stopped s' =>
    rw [hm] at hrun
    exact hrun

/-- The strings that a call with room writes, beside the run of the call itself. -/
theorem contained_of_room {call : PathCall} (h : call.HasRoom p) (e : Heap) (t : ℕ) (fs : Fs) :
    (call.run p e t ⟨fs, []⟩).see Noted.st = call.call p e t fs ∧
      Contained (call.run p e t ⟨fs, []⟩) :=
  ⟨erases_run call p e t ⟨fs, []⟩, safe_of_room h e t fs⟩

end Safety

end Gogoos
