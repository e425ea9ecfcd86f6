import Gogoos.Fs.Contents
import Gogoos.Fs.PathGuide
import Gogoos.Logic.Blind
import Gogoos.Logic.Keeps
import Mathlib.Data.List.TakeWhile

/-!
# Paths that leave their arrays

A string stays on record, so a run with one that does not fit has none that could take it back.
Outside the condition the guided machine leads the call to such a string.
-/

namespace Gogoos

open Program

variable {σ α β : Type} {e : Heap} {t : ℕ} {n : Note} {s : Noted σ} {p : List UInt8}
  {cs : List (List UInt8)} {c : List UInt8} {cnt : ℕ → ℕ} {call : PathCall}

section Grows

/-- What is on record stays there. -/
def Grows (m : NotedM σ α) : Prop := ∀ n, Preserves (fun s => n ∈ s.log) m

theorem grows_pure (a : α) : Grows (pure a : NotedM σ α) := fun _ => preserves_pure a

theorem grows_halt : Grows (halt : NotedM σ α) := fun _ _ _ h => wp_halt.mpr h

theorem grows_get : Grows (get : NotedM σ (Noted σ)) := fun _ => preserves_get

theorem grows_ask (q : Heap → ℕ → α) : Grows (ask q : NotedM σ α) :=
  fun _ _ _ h => wp_ask fun _ => h

theorem grows_assert (q : Prop) [Decidable q] : Grows (assert q : NotedM σ Unit) :=
  fun _ => preserves_assert

theorem grows_note (n : Note) : Grows (note n : NotedM σ Unit) :=
  fun _ => .modify fun _ h => List.mem_cons_of_mem _ h

theorem grows_quietly (m : Program Heap σ α) : Grows (quietly m) := by
  intro n e s h
  apply wp_zoom
  exact wp_iff.mpr ⟨fun _ _ _ => h, fun _ _ => h⟩

theorem Grows.onNotedVol {m : NotedM Volume α} (h : Grows m) : Grows (onNotedVol m) :=
  fun n e s hn => wp_zoom (h n e ⟨s.st.vol, s.log⟩ hn)

theorem Grows.bind {m : NotedM σ α} {f : α → NotedM σ β} (hm : Grows m) (hf : ∀ a, Grows (f a)) :
    Grows (m >>= f) := fun n => (hm n).bind fun a => hf a n

theorem Grows.ite {q : Prop} [Decidable q] {m m' : NotedM σ α} (hm : Grows m) (hm' : Grows m') :
    Grows (if q then m else m') := fun n => (hm n).ite (hm' n)

theorem grows_pathNext (sub : Option (List UInt8)) :
    Grows (Noted.pathNext sub : NotedM σ _) := by
  cases sub with
  | none => exact grows_pure _
  | some p => exact (grows_note _).bind fun _ => grows_pure _

theorem grows_depthLoop : ∀ fuel sub, Grows (Noted.depthLoop fuel sub) := by
  intro fuel
  induction fuel with
  | zero => exact fun _ => grows_pure _
  | succ fuel ih =>
    exact fun sub => (grows_pathNext sub).bind fun _ =>
      (grows_pure _).ite ((ih _).bind fun _ => grows_pure _)

theorem grows_pathDepthCnt (p : List UInt8) : Grows (Noted.pathDepthCnt p) :=
  (grows_pathNext (some p)).bind fun _ =>
    ((grows_ask _).bind fun _ => grows_pure _).ite (grows_depthLoop _ _)

theorem grows_searchLoop : ∀ fuel name sub record parentIno deIno,
    Grows (Noted.searchLoop fuel name sub record parentIno deIno) := by
  intro fuel
  induction fuel with
  | zero => exact fun _ _ _ _ _ => grows_halt
  | succ fuel ih =>
    intro name sub record parentIno deIno
    apply Grows.ite
    · exact (grows_quietly _).bind fun _ => (grows_quietly _).bind fun _ => grows_pure _
    · apply (grows_assert _).bind
      intro _
      apply (grows_note _).bind
      intro _
      apply (grows_quietly _).bind
      intro found
      cases found with
      | none => exact grows_pure _
      | some de =>
        apply (grows_pathNext _).bind
        intro next
        apply Grows.ite
        · exact grows_get.bind fun _ => (grows_quietly _).bind fun _ => (grows_quietly _).bind
            fun _ => ih _ _ _ _ _
        · exact (grows_pure _).ite (ih _ _ _ _ _)

theorem grows_searchFile (p : List UInt8) : Grows (Noted.searchFile p) :=
  grows_get.bind fun _ => (grows_pure _).ite ((grows_assert _).bind fun _ =>
    (grows_ask _).bind fun _ => (grows_pathNext (some p)).bind fun _ =>
      grows_searchLoop _ _ _ _ _ _)

theorem grows_close (dir : Dir) (r : α) : Grows (do
    quietly (dirClose dir)
    return r) := (grows_quietly _).bind fun _ => grows_pure _

theorem grows_closeFs (dir : Dir) (r : α) : Grows (do
    quietly (onVol (dirClose dir))
    return r) := (grows_quietly _).bind fun _ => grows_pure _

end Grows

section Logged

/-- The run puts this string on record. -/
def Logged (n : Note) (m : NotedM σ α) (e : Heap) (t : ℕ) (s : Noted σ) : Prop :=
  n ∈ (m e t s).state.log

theorem logged_of_mem {m : NotedM σ α} (h : n ∈ s.log) (hm : Grows m) : Logged n m e t s := by
  have hrun := hm n e s h t
  unfold Logged
  cases hr : m e t s with
  | returned a t' s' =>
    rw [hr] at hrun
    exact hrun
  | stopped s' =>
    rw [hr] at hrun
    exact hrun

theorem logged_after {m : NotedM σ α} {f : α → NotedM σ β} {t' : ℕ} {s' : Noted σ} {a : α}
    (hm : m e t s = .returned a t' s') (h : Logged n (f a) e t' s') : Logged n (m >>= f) e t s := by
  unfold Logged
  rw [bind_returned hm]
  exact h

theorem logged_bind {m : NotedM σ α} {f : α → NotedM σ β} (h : Logged n m e t s)
    (hf : ∀ a, Grows (f a)) : Logged n (m >>= f) e t s := by
  unfold Logged at h
  cases hm : m e t s with
  | returned a t' s' =>
    rw [hm] at h
    exact logged_after hm (logged_of_mem h (hf a))
  | stopped s' =>
    rw [hm] at h
    unfold Logged
    rw [bind_stopped hm]
    exact h

theorem logged_note {f : Unit → NotedM σ α} (hf : Grows (f ())) :
    Logged n (note n >>= f) e t s := by
  have hrun : note n e t s = .returned () t ⟨s.st, n :: s.log⟩ := rfl
  exact logged_after hrun (logged_of_mem List.mem_cons_self hf)

theorem logged_onNotedVol {m : NotedM Volume α} {s : Noted Fs}
    (h : Logged n m e t ⟨s.st.vol, s.log⟩) : Logged n (onNotedVol m) e t s := by
  unfold Logged at h ⊢
  unfold onNotedVol
  simp only [zoom]
  cases hm : m e t ⟨s.st.vol, s.log⟩ with
  | returned a t' x =>
    rw [hm] at h
    exact h
  | stopped x =>
    rw [hm] at h
    exact h

/-- Slot 3 of the file table holds the inode 5. -/
def guideFs (cnt : ℕ → ℕ) : Fs := { sampleFs with vol := guideVolume cnt }

theorem onNotedVol_guided {m : NotedM Volume α} {a : α} {t' : ℕ} {cnt' : ℕ → ℕ}
    {log log' : List Note}
    (h : m e t ⟨guideVolume cnt, log⟩ = .returned a t' ⟨guideVolume cnt', log'⟩) :
    onNotedVol m e t ⟨guideFs cnt, log⟩ = .returned a t' ⟨guideFs cnt', log'⟩ := by
  unfold onNotedVol
  simp only [zoom]
  have hvol : (guideFs cnt).vol = guideVolume cnt := rfl
  rw [hvol, h]
  rfl

theorem not_safe (n : Note) (e : Heap) (hn : ¬n.Fits)
    (h : Logged n (call.run p) e 0 ⟨guideFs guideStart, []⟩) : ¬call.Safe p := by
  intro hsafe
  exact hn (hsafe e 0 (guideFs guideStart) n h)

/-- The call works on the volume alone. -/
theorem not_safe_volume {m : NotedM Volume α} (n : Note) (e : Heap)
    (hrun : call.run p = onNotedVol m >>= fun _ => pure ()) (hn : ¬n.Fits)
    (h : Logged n m e 0 ⟨guideVolume guideStart, []⟩) : ¬call.Safe p := by
  apply not_safe n e hn
  rw [hrun]
  exact logged_bind (logged_onNotedVol h) fun _ => grows_pure _

end Logged

section Names

theorem valid_of_short (hzero : (0 : UInt8) ∉ p) (h : Short (components p)) :
    ∀ c ∈ components p, ValidName c ∧ c ≠ [] := by
  intro c hc
  obtain ⟨hne, -, hsub⟩ := mem_components hc
  have hlen := h c hc
  exact ⟨⟨by omega, fun h0 => hzero (hsub _ h0)⟩, hne⟩

/-- The first name that is too long. -/
theorem exists_long (h : ¬Short cs) : ∃ ds c rest, cs = ds ++ c :: rest ∧ Short ds ∧
    ¬(Note.name c).Fits := by
  induction cs with
  | nil => exact absurd (fun c hc => absurd hc List.not_mem_nil) h
  | cons d cs ih =>
    by_cases hd : d.length < 16
    · have hrest : ¬Short cs := by
        intro hcs
        apply h
        intro c hc
        rcases List.mem_cons.mp hc with rfl | hc
        · exact hd
        · exact hcs c hc
      obtain ⟨ds, c, rest, hcs, hshort, hlong⟩ := ih hrest
      refine ⟨d :: ds, c, rest, by rw [hcs]; rfl, ?_, hlong⟩
      intro c hc
      rcases List.mem_cons.mp hc with rfl | hc
      · exact hd
      · exact hshort c hc
    · exact ⟨[], d, cs, rfl, fun c hc => absurd hc List.not_mem_nil, hd⟩

/-- A search is led to the first name that is too long, and fails there. -/
theorem searchFile_long (t : ℕ) (hs : Sought p) (hlt : p.length < 512) (hzero : (0 : UInt8) ∉ p)
    (h : ¬Short (components p)) : ∃ e n record t' cnt' log',
      (∀ t, e.sysMalloc t = true) ∧ ¬n.Fits ∧
      Noted.searchFile p e t ⟨guideVolume guideStart, []⟩ =
        .returned (none, record) t' ⟨guideVolume cnt', log'⟩ ∧ n ∈ log' := by
  obtain ⟨ds, c, rest, hp, hshort, hlong⟩ := exists_long h
  have hvalid : ∀ d ∈ ds, ValidName d ∧ d ≠ [] := by
    intro d hd
    obtain ⟨hne, -, hsub⟩ := mem_components (p := p) (c := d) (by rw [hp]; simp [hd])
    have hlen := hshort d hd
    exact ⟨⟨by omega, fun h0 => hzero (hsub _ h0)⟩, hne⟩
  obtain ⟨dir, t', cnt', log', hrun, hmem⟩ := searchFile_missing [] hs hlt hp hvalid hzero
    (guided_guideHeap (t + 1) (ds.map guideDir) fun _ => 0)
  exact ⟨_, _, _, _, _, _, fun _ => rfl, hlong, hrun, hmem⟩

/-- The name is on record whatever comes after the failed search. -/
theorem logged_search (t : ℕ) (hs : Sought p) (hlt : p.length < 512) (hzero : (0 : UInt8) ∉ p)
    (h : ¬Short (components p)) : ∃ e n, (∀ t, e.sysMalloc t = true) ∧ ¬n.Fits ∧
      ∀ {α : Type} (f : Option ℕ × PathSearchRecord → NotedM Volume α),
        (∀ record, Grows (f (none, record))) →
        Logged n (Noted.searchFile p >>= f) e t ⟨guideVolume guideStart, []⟩ := by
  obtain ⟨e, n, record, t', cnt', log', he, hn, hrun, hmem⟩ := searchFile_long t hs hlt hzero h
  refine ⟨e, n, he, hn, ?_⟩
  intro α f hf
  exact logged_after hrun (logged_of_mem hmem (hf record))

end Names

section Searches

theorem overrun_chDir (hs : Sought p) (hlt : p.length < 512) (hzero : (0 : UInt8) ∉ p)
    (h : ¬Short (components p)) : ¬PathCall.chDir.Safe p := by
  obtain ⟨e, n, -, hn, hsearch⟩ := logged_search 0 hs hlt hzero h
  apply not_safe_volume n e rfl hn
  apply hsearch
  exact fun _ => (grows_quietly _).bind fun _ => (grows_pure _).ite (grows_pure _)

theorem overrun_stat (hs : Sought p) (hlt : p.length < 512) (hzero : (0 : UInt8) ∉ p)
    (h : ¬Short (components p)) : ¬PathCall.stat.Safe p := by
  obtain ⟨e, n, -, hn, hsearch⟩ := logged_search 0 hs hlt hzero h
  apply not_safe_volume n e rfl hn
  unfold Noted.sysStat
  rw [if_neg (by rw [hs.2]; exact Bool.false_ne_true)]
  apply hsearch
  exact fun _ => grows_close _ _

theorem overrun_openDir (hs : Sought p) (hlt : p.length < 512) (hzero : (0 : UInt8) ∉ p)
    (hdot : ¬slash :: dotName <+: p) (h : ¬Short (components p)) : ¬PathCall.openDir.Safe p := by
  obtain ⟨e, n, -, hn, hsearch⟩ := logged_search 0 hs hlt hzero h
  have hroot : p ≠ [slash] := by
    rintro rfl
    exact absurd hs.2 (by decide)
  apply not_safe_volume n e rfl hn
  unfold Noted.sysOpenDir
  apply logged_after (assert_returned (Nat.le_of_lt hlt))
  rw [if_neg (not_or.mpr ⟨hroot, hdot⟩)]
  apply hsearch
  exact fun _ => grows_pure _

end Searches

section Rmdir

theorem overrun_rmdir_name (hs : Sought p) (hlt : p.length < 512) (hzero : (0 : UInt8) ∉ p)
    (h : ¬Short (components p)) : ¬PathCall.rmdir.Safe p := by
  obtain ⟨e, n, -, hn, hsearch⟩ := logged_search 0 hs hlt hzero h
  apply not_safe_volume n e rfl hn
  apply hsearch
  exact fun _ => (grows_note _).bind fun _ => grows_close _ _

/-- The directory that is found is not empty. -/
theorem overrun_notEmpty (hs : Sought p) (hlt : p.length < 512) (hzero : (0 : UInt8) ∉ p)
    (hshort : Short (components p)) (h : ¬(notEmpty p).length < 512) :
    ¬PathCall.rmdir.Safe p := by
  have hg := guided_guideHeap 1 ((components p).map guideDir) fun _ => 5
  obtain ⟨dir, cnt₁, log₁, hrun⟩ :=
    searchFile_dirs (t := 0) [] hs hlt (valid_of_short hzero hshort) hg
  obtain ⟨q, cnt₂, hopen, -⟩ := dirOpen_guided (t := 0 + 2 + 4 * (components p).length) cnt₁
    hg.granted (Or.inr rfl)
  have hino : toIno (if components p = [] then 5 else 5) = some 5 := by
    rw [ite_self]
    rfl
  have hempty : ∀ t, dirIsEmpty ⟨false, q⟩ (guideHeap 1 ((components p).map guideDir) fun _ => 5) t
      (guideVolume cnt₂) = .returned false t (guideVolume cnt₂) := fun _ => rfl
  apply not_safe_volume (.message (notEmpty p))
    (guideHeap 1 ((components p).map guideDir) fun _ => 5) rfl h
  apply logged_after hrun
  dsimp only
  rw [show (guideHeap 1 ((components p).map guideDir) fun _ => 5).junk 0 = 5 from rfl, hino]
  dsimp only
  rw [if_neg (by norm_num)]
  apply logged_after (quietly_returned hopen)
  apply logged_after (quietly_returned (hempty _))
  rw [if_pos (by decide)]
  exact logged_note ((grows_quietly _).bind fun _ => grows_close _ _)

end Rmdir

section Unlink

theorem overrun_unlink_name (hs : Sought p) (hlt : p.length < 512) (hzero : (0 : UInt8) ∉ p)
    (h : ¬Short (components p)) : ¬PathCall.unlink.Safe p := by
  obtain ⟨e, n, record, t', cnt', log', -, hn, hrun, hmem⟩ := searchFile_long 0 hs hlt hzero h
  apply not_safe n e hn
  apply logged_bind _ fun _ => grows_pure _
  apply logged_after (assert_returned hlt)
  apply logged_after (onNotedVol_guided hrun)
  exact logged_of_mem hmem ((grows_note _).bind fun _ => grows_closeFs _ _)

/-- A path without a name returns the word on the stack, here -1. -/
theorem overrun_notFound (hs : Sought p) (hlt : p.length < 512) (hp : components p = [])
    (h : ¬(notFound p).length < 512) : ¬PathCall.unlink.Safe p := by
  have hg := guided_guideHeap 1 [] fun _ => 2 ^ 32 - 1
  obtain ⟨dir, cnt₁, log₁, hrun⟩ := searchFile_dirs (t := 0) [] hs hlt
    (by rw [hp]; exact fun c hc => absurd hc List.not_mem_nil) (by rw [hp]; exact hg)
  rw [if_pos hp] at hrun
  apply not_safe (.message (notFound p)) (guideHeap 1 [] fun _ => 2 ^ 32 - 1) h
  apply logged_bind _ fun _ => grows_pure _
  apply logged_after (assert_returned hlt)
  apply logged_after (onNotedVol_guided hrun)
  exact logged_note (grows_closeFs _ _)

/-- The file that is found is open. -/
theorem overrun_isInUse (hs : Sought p) (hlt : p.length < 512) (hzero : (0 : UInt8) ∉ p)
    (hshort : Short (components p)) (hp : components p ≠ []) (h : ¬(isInUse p).length < 512) :
    ¬PathCall.unlink.Safe p := by
  have hsplit : components p = parents p ++ [(components p).getLast hp] :=
    (List.dropLast_append_getLast hp).symm
  have hg := guided_guideHeap 1
    ((parents p).map guideDir ++ [guideFile ((components p).getLast hp)]) fun _ => 0
  obtain ⟨dir, t₁, cnt₁, log₁, hrun⟩ := searchFile_file (t := 0) [] hs hlt hsplit
    (valid_of_short hzero hshort) hg
  have huse : inUse (guideFs cnt₁).fileTable (guideFs cnt₁).vol.inodes 5 = true := rfl
  apply not_safe (.message (isInUse p)) (guideHeap 1
    ((parents p).map guideDir ++ [guideFile ((components p).getLast hp)]) fun _ => 0) h
  apply logged_bind _ fun _ => grows_pure _
  apply logged_after (assert_returned hlt)
  apply logged_after (onNotedVol_guided hrun)
  apply logged_after (assert_returned (by norm_num))
  rw [if_neg (by decide : ¬FileType.regular = FileType.directory)]
  apply logged_after (m := get) rfl
  rw [if_pos huse]
  exact logged_note (grows_closeFs _ _)

end Unlink

section Mkdir

theorem sysMalloc_quiet {s : Noted Volume} (he : ∀ t, e.sysMalloc t = true) :
    quietly sysMalloc e t s = .returned true (t + 1) s := quietly_returned (sysMalloc_granted he)

theorem overrun_mkdir_name (hs : Sought p) (hlt : p.length < 512) (hzero : (0 : UInt8) ∉ p)
    (h : ¬Short (components p)) : ¬PathCall.mkdir.Safe p := by
  obtain ⟨e, n, he, hn, hsearch⟩ := logged_search 1 hs hlt hzero h
  apply not_safe_volume n e rfl hn
  apply logged_after (sysMalloc_quiet he)
  rw [if_neg (by decide)]
  apply hsearch
  intro record
  apply (grows_pathDepthCnt _).bind
  intro _
  apply (grows_pathDepthCnt _).bind
  intro _
  exact ((grows_note _).bind fun _ => grows_close _ _).ite (grows_quietly _)

/-- The directory exists. -/
theorem overrun_mkdirExist (hs : Sought p) (hlt : p.length < 512) (hzero : (0 : UInt8) ∉ p)
    (hshort : Short (components p)) (h : ¬(mkdirExist p).length < 512) :
    ¬PathCall.mkdir.Safe p := by
  have hg := guided_guideHeap 2 ((components p).map guideDir) fun _ => 5
  obtain ⟨dir, cnt₁, log₁, hrun⟩ :=
    searchFile_dirs (t := 1) [] hs hlt (valid_of_short hzero hshort) hg
  have hino : toIno (if components p = [] then 5 else 5) = some 5 := by
    rw [ite_self]
    rfl
  apply not_safe_volume (.message (mkdirExist p))
    (guideHeap 2 ((components p).map guideDir) fun _ => 5) rfl h
  apply logged_after (sysMalloc_quiet hg.granted)
  rw [if_neg (by decide)]
  apply logged_after hrun
  dsimp only
  rw [show (guideHeap 2 ((components p).map guideDir) fun _ => 5).junk 1 = 5 from rfl, hino]
  dsimp only
  apply logged_after (assert_returned (by norm_num))
  exact logged_note (grows_close _ _)

/-- A path without a name is -1 for the search, and the depths are two words on the stack. -/
theorem overrun_cantMake_bare (hs : Sought p) (hlt : p.length < 512) (hp : components p = [])
    (h : ¬(cantMake p (joined (parents p))).length < 512) : ¬PathCall.mkdir.Safe p := by
  let junk : ℕ → ℕ := fun t => if t = 1 then 2 ^ 32 - 1 else if t = 3 then 0 else 1
  have hg := guided_guideHeap 2 [] junk
  obtain ⟨dir, cnt₁, log₁, hrun⟩ := searchFile_dirs (t := 1) [] hs hlt
    (by rw [hp]; exact fun c hc => absurd hc List.not_mem_nil) (by rw [hp]; exact hg)
  rw [if_pos hp, hp] at hrun
  obtain ⟨log₂, hdepth⟩ := pathDepthCnt_bare (e := guideHeap 2 [] junk) (t := 3)
    (s := ⟨guideVolume cnt₁, log₁⟩) hp
  obtain ⟨log₃, hsearched⟩ := pathDepthCnt_bare (p := joined []) (e := guideHeap 2 [] junk) (t := 4)
    (s := ⟨guideVolume cnt₁, log₂⟩) rfl
  have hparents : parents p = [] := by
    unfold parents
    rw [hp]
    rfl
  rw [hparents] at h
  apply not_safe_volume (.message (cantMake p (joined []))) (guideHeap 2 [] junk) rfl h
  apply logged_after (sysMalloc_quiet hg.granted)
  rw [if_neg (by decide)]
  apply logged_after hrun
  apply logged_after hdepth
  apply logged_after hsearched
  rw [if_pos (by decide)]
  exact logged_note (grows_close _ _)

end Mkdir

section Parents

/-- The parents of a path that has some, without the last. -/
theorem exists_parents (h : 1 < (components p).length) : ∃ ds c last,
    components p = ds ++ c :: [last] ∧ parents p = ds ++ [c] := by
  have hne : components p ≠ [] := by
    rintro hnil
    rw [hnil] at h
    simp at h
  have hparents : parents p ≠ [] := by
    intro hnil
    have hlen : (parents p).length = (components p).length - 1 := List.length_dropLast
    rw [hnil, List.length_nil] at hlen
    omega
  obtain ⟨ds, c, hinit⟩ : ∃ ds c, parents p = ds ++ [c] :=
    ⟨_, _, (List.dropLast_append_getLast hparents).symm⟩
  refine ⟨ds, c, (components p).getLast hne, ?_, hinit⟩
  calc components p = parents p ++ [(components p).getLast hne] :=
        (List.dropLast_append_getLast hne).symm
    _ = ds ++ c :: [(components p).getLast hne] := by
      rw [hinit]
      simp

/-- A machine on which the search fails at the last parent. -/
theorem searchFile_parents (t : ℕ) (hs : Sought p) (hlt : p.length < 512)
    (hzero : (0 : UInt8) ∉ p) (hshort : Short (components p)) (h : 1 < (components p).length) :
    ∃ e, (∀ t, e.sysMalloc t = true) ∧ ∀ log, ∃ dir t' cnt' log',
      Noted.searchFile p e t ⟨guideVolume guideStart, log⟩ =
        .returned (none, ⟨joined (parents p), dir, FileType.unknown⟩) t'
          ⟨guideVolume cnt', log'⟩ := by
  obtain ⟨ds, c, last, hp, hparents⟩ := exists_parents h
  have hvalid := valid_of_short hzero hshort
  have hds : ∀ d ∈ ds, ValidName d ∧ d ≠ [] := by
    intro d hd
    exact hvalid d (by rw [hp]; simp [hd])
  refine ⟨guideHeap (t + 1) (ds.map guideDir) fun _ => 0, fun _ => rfl, ?_⟩
  intro log
  obtain ⟨dir, t', cnt', log', hrun, -⟩ := searchFile_missing log hs hlt hp hds hzero
    (guided_guideHeap (t + 1) (ds.map guideDir) fun _ => 0)
  rw [← hparents] at hrun
  exact ⟨dir, t', cnt', log', hrun⟩

theorem pathDepthCnt_parents {s : Noted Volume} (h : 1 < (components p).length) : ∃ log',
    Noted.pathDepthCnt (joined (parents p)) e t s =
      .returned (parents p).length t ⟨s.st, log'⟩ := by
  have hcomp : components (joined (parents p)) = parents p :=
    components_searched (List.dropLast_prefix _)
  obtain ⟨ds, c, last, -, hparents⟩ := exists_parents h
  obtain ⟨log', hdepth, -⟩ := pathDepthCnt_run (p := joined (parents p)) (e := e) (t := t)
    (s := s) (by rw [hcomp, hparents]; simp)
  rw [hcomp] at hdepth
  exact ⟨log', hdepth⟩

theorem length_parents (h : 1 < (components p).length) :
    (components p).length ≠ (parents p).length := by
  have hlen : (parents p).length = (components p).length - 1 := List.length_dropLast
  omega

/-- A parent does not exist. -/
theorem overrun_cantMake (hs : Sought p) (hlt : p.length < 512) (hzero : (0 : UInt8) ∉ p)
    (hshort : Short (components p)) (hp : 1 < (components p).length)
    (h : ¬(cantMake p (joined (parents p))).length < 512) : ¬PathCall.mkdir.Safe p := by
  obtain ⟨e, he, hsearch⟩ := searchFile_parents 1 hs hlt hzero hshort hp
  obtain ⟨dir, t', cnt', log₁, hrun⟩ := hsearch []
  have hne : components p ≠ [] := by
    intro hnil
    simp [hnil] at hp
  obtain ⟨log₂, hdepth, -⟩ := pathDepthCnt_run (e := e) (t := t')
    (s := ⟨guideVolume cnt', log₁⟩) hne
  obtain ⟨log₃, hsearched⟩ := pathDepthCnt_parents (e := e) (t := t')
    (s := ⟨guideVolume cnt', log₂⟩) hp
  apply not_safe_volume (.message (cantMake p (joined (parents p)))) e rfl h
  apply logged_after (sysMalloc_quiet he)
  rw [if_neg (by decide)]
  apply logged_after hrun
  apply logged_after hdepth
  apply logged_after hsearched
  rw [if_pos (length_parents hp)]
  exact logged_note (grows_close _ _)

end Parents

section Open

theorem components_ne_nil (hs : Sought p) (hlast : p.getLast? ≠ some slash) :
    components p ≠ [] := by
  intro hnil
  have hall : ∀ x ∈ p, x = slash := by
    have hdrop : p.dropWhile (· = slash) = [] := by
      have hparse := pathParse_of_nil hnil
      rw [pathParse_eq] at hparse
      obtain ⟨hname, hrest⟩ := Prod.mk.inj hparse
      have hsplit := List.takeWhile_append_dropWhile (p := (· ≠ slash))
        (l := p.dropWhile (· = slash))
      split_ifs at hrest with h0
      rw [← hsplit, hname, h0]
      rfl
    intro x hx
    simpa using List.dropWhile_eq_nil_iff.mp hdrop x hx
  cases hl : p.getLast? with
  | none =>
    have hpnil : p = [] := List.getLast?_eq_none_iff.mp hl
    have habs := hs.1
    rw [hpnil] at habs
    simp at habs
  | some x =>
    apply hlast
    rw [hl, hall x (List.mem_of_getLast? hl)]

theorem overrun_open_slash {flags : ℕ} (hlast : p.getLast? = some slash)
    (h : ¬(cantOpen p).length < 512) : ¬(PathCall.open flags).Safe p := by
  apply not_safe (.message (cantOpen p)) sampleHeap h
  apply logged_bind _ fun _ => grows_pure _
  unfold Noted.sysOpen
  rw [if_pos hlast]
  exact logged_note (grows_pure _)

theorem overrun_open_name {flags : ℕ} (hlast : p.getLast? ≠ some slash) (hflags : flags ≤ 7)
    (h : ¬Short (components p)) : ¬(PathCall.open flags).Safe p := by
  obtain ⟨ds, c, rest, hp, -, hn⟩ := exists_long h
  obtain ⟨log', hdepth, hnames⟩ := pathDepthCnt_run (p := p) (e := sampleHeap) (t := 0)
    (s := ⟨guideVolume guideStart, []⟩) (by rw [hp]; simp)
  apply not_safe (.name c) sampleHeap hn
  apply logged_bind _ fun _ => grows_pure _
  unfold Noted.sysOpen
  rw [if_neg hlast]
  apply logged_after (assert_returned hflags)
  apply logged_after (onNotedVol_guided hdepth)
  apply logged_of_mem (hnames c (by rw [hp]; simp))
  apply (grows_searchFile _).onNotedVol.bind
  rintro ⟨ino, record⟩
  have hmessage : ∀ n, Grows (do
      note n
      quietly (onVol (dirClose record.parentDir))
      return (-1 : ℤ) : NotedM Fs ℤ) := fun n => (grows_note n).bind fun _ => grows_closeFs _ _
  apply Grows.ite
  · exact hmessage _
  apply (grows_pathDepthCnt _).onNotedVol.bind
  intro searched
  apply Grows.ite
  · exact hmessage _
  apply (grows_quietly _).bind
  intro fileName
  cases ino with
  | none => exact (hmessage _).ite ((grows_quietly _).bind fun _ => grows_closeFs _ _)
  | some ino => exact (hmessage _).ite ((grows_quietly _).bind fun _ => grows_closeFs _ _)

/-- The path leads to a directory. -/
theorem overrun_cantOpen {flags : ℕ} (hs : Sought p) (hlt : p.length < 512)
    (hzero : (0 : UInt8) ∉ p) (hlast : p.getLast? ≠ some slash) (hflags : flags ≤ 7)
    (hshort : Short (components p)) (h : ¬(cantOpen p).length < 512) :
    ¬(PathCall.open flags).Safe p := by
  have hg := guided_guideHeap 1 ((components p).map guideDir) fun _ => 5
  obtain ⟨log₁, hdepth, -⟩ := pathDepthCnt_run
    (e := guideHeap 1 ((components p).map guideDir) fun _ => 5) (t := 0)
    (s := ⟨guideVolume guideStart, []⟩) (components_ne_nil hs hlast)
  obtain ⟨dir, cnt₁, log₂, hrun⟩ :=
    searchFile_dirs (t := 0) log₁ hs hlt (valid_of_short hzero hshort) hg
  apply not_safe (.message (cantOpen p)) (guideHeap 1 ((components p).map guideDir) fun _ => 5) h
  apply logged_bind _ fun _ => grows_pure _
  unfold Noted.sysOpen
  rw [if_neg hlast]
  apply logged_after (assert_returned hflags)
  apply logged_after (onNotedVol_guided hdepth)
  apply logged_after (onNotedVol_guided hrun)
  dsimp only
  rw [if_pos rfl]
  exact logged_note (grows_closeFs _ _)

/-- A parent does not exist. -/
theorem overrun_cannotAccess {flags : ℕ} (hs : Sought p) (hlt : p.length < 512)
    (hzero : (0 : UInt8) ∉ p) (hlast : p.getLast? ≠ some slash) (hflags : flags ≤ 7)
    (hshort : Short (components p)) (hp : 1 < (components p).length)
    (h : ¬(cannotAccess p (joined (parents p))).length < 512) :
    ¬(PathCall.open flags).Safe p := by
  obtain ⟨e, he, hsearch⟩ := searchFile_parents 0 hs hlt hzero hshort hp
  obtain ⟨log₁, hdepth, -⟩ := pathDepthCnt_run (e := e) (t := 0)
    (s := ⟨guideVolume guideStart, []⟩) (components_ne_nil hs hlast)
  obtain ⟨dir, t', cnt', log₂, hrun⟩ := hsearch log₁
  obtain ⟨log₃, hsearched⟩ := pathDepthCnt_parents (e := e) (t := t')
    (s := ⟨guideVolume cnt', log₂⟩) hp
  apply not_safe (.message (cannotAccess p (joined (parents p)))) e h
  apply logged_bind _ fun _ => grows_pure _
  unfold Noted.sysOpen
  rw [if_neg hlast]
  apply logged_after (assert_returned hflags)
  apply logged_after (onNotedVol_guided hdepth)
  apply logged_after (onNotedVol_guided hrun)
  dsimp only
  rw [if_neg (by decide)]
  apply logged_after (onNotedVol_guided hsearched)
  rw [if_pos (length_parents hp)]
  exact logged_note (grows_closeFs _ _)

end Open

end Gogoos
