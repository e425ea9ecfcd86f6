import Gogoos.Kernel.Resolution

/-!
# The calls on a path agree

On a machine with memory, with nothing behind the sector buffers that a look-up takes for an
entry, the three calls return and mean the same directory, unless `sysOpenDir` takes the path for
the root or there is no name to look up.
-/

namespace Gogoos

open Program

variable {v w : Volume} {e e₁ e₂ e₃ : Heap} {p c : List UInt8} {t d last : ℕ} {dirs : Set ℕ}
  {parent rank : ℕ → ℕ} {cs pre : List (List UInt8)} {o : Option DirEntry}
  {next : List UInt8 × Option (List UInt8)} {record : PathSearchRecord}

section Harmless

/-- None of the slots that a look-up takes behind a sector of a directory has this name. -/
def Harmless (e : Heap) (v : Volume) (dirs : Set ℕ) (name : List UInt8) : Prop :=
  ∀ t, ∀ d ∈ dirs, ∀ k < 140, v.blockAt (v.inodeNo d) k ≠ 0 → ∀ j, 21 ≤ j → j < 24 →
    (slot (searchBuf e t (v.sector (v.blockAt (v.inodeNo d) k))) j).fileName ≠ name

/-- What the scan of a block finds is an entry. -/
theorem searchSlots_harmless {k j : ℕ} (hv : DirTree v dirs parent rank) (hd : d ∈ dirs)
    (hc : ValidName c) (hne : c ≠ []) (hharm : Harmless e v dirs c) (hk : k < 140)
    (h0 : v.blockAt (v.inodeNo d) k ≠ 0)
    (h : searchSlots (searchBuf e t (v.sector (v.blockAt (v.inodeNo d) k))) c 24 0 = some j) :
    v.HasEntry d (slot (searchBuf e t (v.sector (v.blockAt (v.inodeNo d) k))) j) ∧
      (slot (searchBuf e t (v.sector (v.blockAt (v.inodeNo d) k))) j).fileName = c := by
  obtain ⟨-, hlt, heq, -⟩ := searchSlots_some h
  have hname := (strEqAt_eq_fileName hc).mp heq
  have hj : j < 21 := by
    by_contra hge
    exact hharm t d hd k hk h0 j (by omega) (by omega) hname
  have hslot : slot (searchBuf e t (v.sector (v.blockAt (v.inodeNo d) k))) j =
      slot (v.disk (v.blockAt (v.inodeNo d) k)) j :=
    slot_congr hj fun i hi => (if_pos hi).trans (sector_apply v _ hi)
  refine ⟨⟨k, hk, j, hj, entryAt_eq_some.mpr ⟨h0, hslot.symm, fun hfree => ?_⟩⟩, hname⟩
  rw [hslot] at hfree
  change (slot _ j).fileName = c at hname
  rw [hslot, hv.free d hd k hk j hj h0 hfree] at hname
  exact hne hname.symm

/-- Induction on the number of blocks. -/
theorem wp_searchBlocks_harmless (hv : DirTree v dirs parent rank) (hd : d ∈ dirs)
    (hc : ValidName c) (hne : c ≠ []) (hharm : Harmless e v dirs c) (hdisk : w.disk = v.disk)
    (hsb : w.superBlock = v.superBlock) : ∀ cnt blockIdx, blockIdx + cnt ≤ 140 →
      wp noStop e (searchBlocks (v.blockAt (v.inodeNo d)) c cnt blockIdx)
        (fun r x => x = w ∧ ∀ de ∈ r, v.HasEntry d de ∧ de.fileName = c) w := by
  intro cnt
  induction cnt with
  | zero => exact fun _ _ => wp_pure.mpr ⟨rfl, fun de hde => nomatch hde⟩
  | succ cnt ih =>
    intro blockIdx hle
    unfold searchBlocks
    by_cases h0 : v.blockAt (v.inodeNo d) blockIdx = 0
    · rw [if_pos h0]
      exact ih _ (by omega)
    rw [if_neg h0]
    apply wp_ideRead_total (hv.blockAt_lt hd (by omega)) (by norm_num) (by norm_num)
    apply wp_ask_bind
    intro t
    have hsector : w.sector (v.blockAt (v.inodeNo d) blockIdx) =
        v.sector (v.blockAt (v.inodeNo d) blockIdx) := by
      unfold Volume.sector
      rw [hdisk]
    rw [wp_get_bind, hsb, hv.layout.dirEntrySize, hsector]
    dsimp only
    split
    · rename_i j hfound
      refine wp_pure.mpr ⟨rfl, fun de hde => ?_⟩
      obtain rfl := Option.some.inj hde
      exact searchSlots_harmless hv hd hc hne hharm (by omega) h0 hfound
    · exact ih _ (by omega)

theorem wp_searchDirEntry_harmless (hv : DirTree v dirs parent rank) (hd : d ∈ dirs)
    (hc : ValidName c) (hne : c ≠ []) (hharm : Harmless e v dirs c)
    (he : ∀ t, e.sysMalloc t = true) (h : SearchAt v w d next pre cs record) :
    wp noStop e (searchDirEntry record.parentDir c)
      (fun r x => x = w ∧ ∀ de ∈ r, v.HasEntry d de ∧ de.fileName = c) w := by
  have hdisk := h.held.sameDisk.disk
  have hblock : w.blockAt (w.inodes record.parentDir.inode) = v.blockAt (v.inodeNo d) :=
    blockAt_of_disk hdisk h.block
  have htable := hv.below d hd 140
  rw [ref_table, ← h.block] at htable
  unfold searchDirEntry sysMalloc
  apply wp_ask_bind
  intro t
  rw [he t, if_neg (by decide), wp_get_bind, wp_loadAllBlocks_bind]
  refine ⟨fun _ => ?_, fun hnot => absurd (.inl htable) hnot⟩
  apply wp_sysMallocUnchecked_supplied (.inr he)
  rw [hblock]
  exact wp_searchBlocks_harmless hv hd hc hne hharm hdisk h.held.sameDisk.superBlock 140 0 le_rfl

/-- The search goes on until a name is missing, a regular file is found or the names are used up.
Induction on the names. -/
theorem wp_searchLoop_harmless (hv : FileTree v dirs parent rank) (he : ∀ t, e.sysMalloc t = true) :
    ∀ cs, (∀ c ∈ cs, ValidName c ∧ c ≠ [] ∧ Harmless e v dirs c) →
    ∀ fuel d next pre record parentIno deIno w, d ∈ dirs → parentIno ∈ dirs →
      (cs = [] → deIno < 4096) → cs.length < fuel → pathLength (pre ++ cs) ≤ 512 →
      SearchAt v w d next pre cs record →
      wp noStop e (searchLoop fuel next.1 next.2 record parentIno deIno)
        (fun r _ => ∀ n ∈ r.1, n < 4096) w := by
  intro cs
  induction cs with
  | nil =>
    intro _ fuel d next pre record parentIno deIno w hd hparent hde hfuel _ h
    obtain ⟨fuel, rfl⟩ := Nat.exists_eq_succ_of_ne_zero (show fuel ≠ 0 by omega)
    apply wp_mono (wp_searchLoop_end hv.toDirTree (supplied he) hparent (hde rfl) h)
    rintro r _ ⟨hino, -⟩ n hn
    obtain rfl := Option.some.inj (hino.symm.trans hn)
    exact hde rfl
  | cons c cs ih =>
    intro hnames fuel d next pre record parentIno deIno w hd _ _ hfuel hlen h
    obtain ⟨hc, hne, hharm⟩ := hnames c List.mem_cons_self
    obtain ⟨fuel, rfl⟩ := Nat.exists_eq_succ_of_ne_zero (show fuel ≠ 0 by omega)
    have hname : next.1 = c := h.ahead.name
    have hpre : pathLength pre < 512 := by
      have hcons : pathLength (c :: cs) = c.length + 1 + pathLength cs := by simp [pathLength]
      rw [pathLength_append] at hlen
      omega
    unfold searchLoop
    rw [hname, if_neg hne, wp_assert_pos (by rw [h.path, length_joined]; exact hpre)]
    apply wp_call (wp_searchDirEntry_harmless hv.toDirTree hd hc hne hharm he h)
    rintro r x ⟨rfl, hr⟩
    cases r with
    | none => exact wp_pure.mpr fun n hn => absurd hn (by simp)
    | some de =>
      obtain ⟨hde, rfl⟩ := hr de rfl
      have hbound := hv.bound d hd de hde
      dsimp only
      rcases hv.kind d hd de hde with htype | htype
      · rw [if_pos htype, wp_get_bind, h.ino]
        have hmem := hv.hasDir_mem hd (hasDir_iff.mpr ⟨de, hde, rfl, htype, rfl⟩)
        apply wp_enter hv.toDirTree hmem (supplied he) h.held
        intro q y hy
        apply ih (fun b hb => hnames b (List.mem_cons_of_mem _ hb)) fuel de.ino (pathNext next.2)
          (pre ++ [de.fileName]) _ d de.ino y hmem hd (fun _ => hbound)
        · rw [List.length_cons] at hfuel
          omega
        · rwa [List.append_assoc]
        · exact h.onward hv.toDirTree hmem hy
      · rw [if_neg (by rw [htype]; exact directory_ne_regular.symm), if_pos htype]
        apply wp_pure.mpr
        intro n hn
        rw [toIno, if_neg (by omega)] at hn
        obtain rfl := Option.some.inj hn
        exact hbound

/-- A path with a name is searched to the end. -/
theorem wp_searchFile_harmless (hv : FileTree v dirs parent rank) (hp : ProperPath p)
    (hzero : (0 : UInt8) ∉ p) (hroot : isRootPath p = false) (hne : components p ≠ [])
    (he : ∀ t, e.sysMalloc t = true) (hharm : ∀ c ∈ components p, Harmless e v dirs c) :
    wp noStop e (searchFile p) (fun r _ => ∀ n ∈ r.1, n < 4096) v := by
  have hlen := pathLength_absolute hp.absolute
  have hlt := hp.length_lt
  have hcs : (components p).length ≤ pathLength (components p) := length_le_pathLength
  apply wp_searchFile_start hv.toDirTree ⟨hp.absolute, hroot⟩ hlt
  intro t hat
  apply wp_searchLoop_harmless hv he (components p) ?_ _ 0 _ [] _ 0 _ v hv.root.1 hv.root.1
    (fun hnil => absurd hnil hne) (by omega) (by rw [List.nil_append]; omega) hat
  intro c hc
  obtain ⟨hne, -, hsub⟩ := mem_components hc
  exact ⟨⟨hp.short c hc, fun h0 => hzero (hsub _ h0)⟩, hne, hharm c hc⟩

end Harmless

section Dots

/-- The names that lead from the root to the root. -/
def Dots (cs : List (List UInt8)) : Prop := ∀ c ∈ cs, ¬Ordinary c

theorem not_ordinary_iff : ¬Ordinary c ↔ c = dotName ∨ c = dotDotName := by
  unfold Ordinary
  rw [not_and_or, not_not, not_not]

variable (hv : DirTree v dirs parent rank)

include hv

/-- The entry of the root with such a name. -/
theorem hasEntry_dots (hc : ¬Ordinary c) : v.HasEntry 0 ⟨c, 0, FileType.directory⟩ := by
  have hup := hv.entry_dotDot hv.root.1
  rw [hv.root.2] at hup
  rcases not_ordinary_iff.mp hc with rfl | rfl
  · exact ⟨0, by norm_num, 0, by norm_num, hv.entry_dot hv.root.1⟩
  · exact ⟨0, by norm_num, 1, by norm_num, hup⟩

theorem firstBlockHas_dots (hc : ¬Ordinary c) : FirstBlockHas v (v.inodeNo 0) c := by
  have hfirst := (entryAt_eq_some.mp (hv.entry_dot hv.root.1)).2.1
  rcases not_ordinary_iff.mp hc with rfl | rfl
  · exact ⟨by decide, 0, by norm_num, ⟨_, hv.entry_dot hv.root.1, rfl⟩, fun j hj => absurd hj (by omega)⟩
  · refine ⟨by decide, 1, by norm_num, ⟨_, hv.entry_dotDot hv.root.1, rfl⟩, fun j hj => ?_⟩
    obtain rfl : j = 0 := by omega
    rw [hfirst]
    decide

theorem Descends.dots_eq (hcs : Dots cs) (h : Descends v cs d) : d = 0 := by
  induction h with
  | root => rfl
  | @down cs c d d' h hdir ih =>
    obtain rfl := ih fun b hb => hcs b (by simp [hb])
    obtain ⟨de, hde, hname, -, hnum⟩ := hasDir_iff.mp hdir
    have hdots := hasEntry_dots hv (hcs c (by simp))
    rw [← hnum, hv.entry_unique hv.root.1 hde hdots hname]

theorem descends_dots (hcs : Dots cs) : Descends v cs 0 := by
  induction cs using List.reverseRecOn with
  | nil => exact .root
  | append_singleton cs c ih =>
    refine .down (ih fun b hb => hcs b (by simp [hb])) (hasDir_iff.mpr ?_)
    exact ⟨_, hasEntry_dots hv (hcs c (by simp)), rfl, rfl, rfl⟩

theorem firstBlocks_dots (hcs : Dots cs) : FirstBlocks v cs := by
  intro pre c post d hsplit hpre
  have hd := hpre.dots_eq hv fun b hb => hcs b (by simp [hsplit, hb])
  rw [hd]
  exact firstBlockHas_dots hv (hcs c (by simp [hsplit]))

/-- A walk along such names ends in the root. -/
theorem Walk.dots (hcs : Dots cs) (hne : cs ≠ []) (h : Walk v 0 cs o last) :
    ∃ de, o = some de ∧ de.ino = 0 ∧ de.fileType = FileType.directory := by
  generalize hd : (0 : ℕ) = d at h
  induction h with
  | @missing d c cs hmiss =>
    subst hd
    exact absurd rfl (hmiss _ (hasEntry_dots hv (hcs c List.mem_cons_self)))
  | @found d de hde =>
    subst hd
    have hsame := hv.entry_unique hv.root.1 hde
      (hasEntry_dots hv (hcs _ List.mem_cons_self)) rfl
    exact ⟨de, rfl, by rw [hsame], by rw [hsame]⟩
  | @blocked d de c cs hde hfile =>
    subst hd
    have hsame := hv.entry_unique hv.root.1 hde
      (hasEntry_dots hv (hcs _ List.mem_cons_self)) rfl
    rw [hsame] at hfile
    exact absurd hfile directory_ne_regular
  | @down d d' last c c' cs o hdir _ ih =>
    subst hd
    have hzero := Descends.dots_eq hv (fun b hb => hcs b (by simp at hb; simp [hb]))
      (.down .root hdir : Descends v ([] ++ [c]) d')
    subst hzero
    exact ih (fun b hb => hcs b (List.mem_cons_of_mem _ hb)) (List.cons_ne_nil _ _) rfl

end Dots

section Agreement

/-- The calls on one path, each on a machine of its own, all return, and what they return is the
same directory, or no directory. -/
def Agree (v : Volume) (e₁ e₂ e₃ : Heap) (t : ℕ) (p : List UInt8) : Prop :=
  ∃ o c s t₁ t₂ t₃ w₁ w₂ w₃, sysOpenDir p e₁ t v = .returned o t₁ w₁ ∧
    sysChDir p e₂ t v = .returned c t₂ w₂ ∧ sysStat p e₃ t v = .returned s t₃ w₃ ∧
    SameDirectory v w₁ o c s

/-- The results of calls that agree. -/
theorem Agree.results {o : Option Dir} {c : Option ℕ} {s : Option Stat} {t₁ t₂ t₃ : ℕ}
    {w₁ w₂ w₃ : Volume} (h : Agree v e₁ e₂ e₃ t p)
    (ho : sysOpenDir p e₁ t v = .returned o t₁ w₁) (hc : sysChDir p e₂ t v = .returned c t₂ w₂)
    (hs : sysStat p e₃ t v = .returned s t₃ w₃) : SameDirectory v w₁ o c s := by
  obtain ⟨o', c', s', _, _, _, w', _, _, ho', hc', hs', hsame⟩ := h
  obtain ⟨rfl, -, rfl⟩ := Outcome.returned.inj (ho.symm.trans ho')
  obtain ⟨rfl, -, -⟩ := Outcome.returned.inj (hc.symm.trans hc')
  obtain ⟨rfl, -, -⟩ := Outcome.returned.inj (hs.symm.trans hs')
  exact hsame

theorem FileTree.tree (hv : FileTree v dirs parent rank) : Tree v := by
  refine ⟨hv.layout, hv.steady, ?_⟩
  rw [← inodeNo_root hv.toDirTree]
  exact (hv.number 0 hv.root.1).2

/-- The paths that `searchFile` answers at once are the root for all three. -/
theorem agree_root (hv : Tree v) (hroot : isRootPath p = true) (hlen : p.length < 512) :
    Agree v e₁ e₂ e₃ t p := by
  have hspecial : p = [slash] ∨ slash :: dotName <+: p := by
    rcases isRootPath_iff.mp hroot with rfl | rfl | rfl
    · exact Or.inl rfl
    · exact Or.inr (List.prefix_refl _)
    · exact Or.inr ⟨[46], rfl⟩
  have hopen : sysOpenDir p e₁ t v = .returned (some v.rootDir) t v := by
    unfold sysOpenDir
    rw [assert, if_pos hlen.le, if_pos hspecial]
    rfl
  have hsearch : searchFile p e₂ t v =
      .returned (some 0, ⟨[], v.rootDir, FileType.directory⟩) t v := by
    unfold searchFile
    rw [bind_returned (m := get) rfl, if_pos hroot]
    rfl
  have henter : sysChDir p e₂ t v = .returned (some 0) t v := by
    rw [sysChDir_eq, bind_returned hsearch]
    rfl
  have hstat : sysStat p e₃ t v =
      .returned (some ⟨FileType.directory, 0, (v.inodes v.rootInode).size⟩) t v := by
    unfold sysStat
    rw [if_pos hroot]
    rfl
  exact ⟨_, _, _, _, _, _, _, _, _, hopen, henter, hstat,
    Or.inl ⟨0, v.rootDir, _, rfl, Or.inl hv.root, rfl, rfl, rfl, rfl⟩⟩

/-- The calls that go through one search, after it has returned. -/
theorem agree_found {r : Option ℕ × PathSearchRecord} (e₂ : Heap) (t' : ℕ) (hv : Tree v)
    (h₁₃ : Alike e₁ e₃) (he : ∀ t, e₁.sysMalloc t = true) (hsame : SameDisk v w)
    (hr : ∀ n ∈ r.1, n < 4096) : ∃ c s t₂ t₃ w₂ w₃, c = foundDir r ∧ Reports r s ∧
      enterFound r e₂ t' w = .returned c t₂ w₂ ∧ statFound r e₃ t' w = .returned s t₃ w₃ := by
  have he₃ : ∀ t, e₃.sysMalloc t = true := by
    rw [h₁₃.sysMalloc]
    exact he
  obtain ⟨c, t₂, w₂, hc, hfound⟩ := ends_of_wp (wp_enterFound (r := r) (e := e₂) (w := w)) t'
  obtain ⟨s, t₃, w₃, hs, -, hreport⟩ := ends_of_wp
    (wp_and (wp_statFound_granted hsame hv.layout he₃ hr) wp_statFound) t'
  exact ⟨c, s, t₂, t₃, w₂, w₃, hfound, hreport, hc, hs⟩

/-- A path with a name that does not begin with `"/."` goes through one search. -/
theorem agree_searched (hv : FileTree v dirs parent rank) (hp : ProperPath p)
    (hzero : (0 : UInt8) ∉ p) (h₁₂ : Alike e₁ e₂) (h₁₃ : Alike e₁ e₃)
    (he : ∀ t, e₁.sysMalloc t = true) (hharm : ∀ c ∈ components p, Harmless e₁ v dirs c)
    (hroot : isRootPath p = false) (hdot : ¬slash :: dotName <+: p) (hne : components p ≠ []) :
    Agree v e₁ e₂ e₃ t p := by
  have hlen := hp.length_lt
  have hone : p ≠ [slash] := by
    rintro rfl
    exact hne rfl
  have h₂ := searchFile_alike hroot hp.absolute hlen hne h₁₂ t v
  have h₃ := searchFile_alike hroot hp.absolute hlen hne h₁₃ t v
  obtain ⟨r, t', w, hr, hino, hheld⟩ := ends_of_wp (wp_and
    (wp_searchFile_harmless hv hp hzero hroot hne he hharm) (wp_searchFile_holding hv.steady)) t
  have hsame := hheld.sameDisk
  obtain ⟨o, t₁, w₁, ho, -, hopened⟩ := ends_of_wp (wp_and
    (wp_openFound_granted hsame hv.layout he hino) (wp_openFound hsame hv.layout)) t'
  obtain ⟨c, s, t₂, t₃, w₂, w₃, hfound, hreport, hc, hs⟩ :=
    agree_found e₂ t' hv.tree h₁₃ he hsame hino
  refine ⟨o, c, s, t₁, t₂, t₃, w₁, w₂, w₃, ?_, ?_, ?_, sameDirectory_of_found hopened hfound hreport⟩
  · rw [sysOpenDir_eq hlen.le hone hdot, bind_returned hr]
    exact ho
  · rw [sysChDir_eq, bind_returned (h₂.trans hr)]
    exact hc
  · rw [sysStat_eq hroot, bind_returned (h₃.trans hr)]
    exact hs

/-- `sysOpenDir` takes a path that begins with `"/."` for the root. -/
theorem sysOpenDir_dot (hlen : p.length < 512) (hdot : slash :: dotName <+: p) :
    sysOpenDir p e t v = .returned (some v.rootDir) t v := by
  unfold sysOpenDir
  rw [assert, if_pos hlen.le, if_pos (Or.inr hdot)]
  rfl

/-- The others find the root when the path has no other names than `"."` and `".."`. -/
theorem agree_dots (hv : FileTree v dirs parent rank) (hp : ProperPath p) (hzero : (0 : UInt8) ∉ p)
    (h₁₂ : Alike e₁ e₂) (h₁₃ : Alike e₁ e₃) (he : ∀ t, e₁.sysMalloc t = true)
    (hroot : isRootPath p = false) (hdot : slash :: dotName <+: p) (hdots : Dots (components p)) :
    Agree v e₁ e₂ e₃ t p := by
  have hne := components_of_dot hdot
  have hlen := hp.length_lt
  have h₂ := searchFile_alike hroot hp.absolute hlen hne h₁₂ t v
  have h₃ := searchFile_alike hroot hp.absolute hlen hne h₁₃ t v
  have hlast : Dots (components p).dropLast := fun c hc => hdots c (List.dropLast_subset _ hc)
  have hstraight : Straight v p := Or.inr ⟨hne, firstBlocks_dots hv.toDirTree hdots, 0,
    descends_dots hv.toDirTree hlast⟩
  obtain ⟨r, t', w, hr, hres, hheld⟩ := ends_of_wp (wp_and
    (wp_searchFile_straight hv hp hzero hstraight he) (wp_searchFile_holding hv.steady)) t
  obtain ⟨o, last, hwalk, hino, htype, -⟩ := hres.walk hne
  obtain ⟨de, rfl, hnum, hdir⟩ := hwalk.dots hv.toDirTree hdots hne
  have hzero' : r.1 = some 0 := by rw [hino, Option.map_some, hnum]
  have hkind : r.2.fileType = FileType.directory := (htype de rfl).trans hdir
  obtain ⟨c, s, t₂, t₃, w₂, w₃, hfound, hreport, hc, hs⟩ :=
    agree_found e₂ t' hv.tree h₁₃ he hheld.sameDisk (hres.lt hv)
  rw [foundDir, if_pos hkind, hzero'] at hfound
  unfold Reports at hreport
  rw [hzero'] at hreport
  obtain ⟨size, rfl⟩ := hreport
  refine ⟨_, c, _, t, t₂, t₃, v, w₂, w₃, sysOpenDir_dot hlen hdot, ?_, ?_,
    Or.inl ⟨0, v.rootDir, ⟨r.2.fileType, 0, size⟩, rfl, Or.inl hv.tree.root, hfound, rfl, hkind,
      rfl⟩⟩
  · rw [sysChDir_eq, bind_returned (h₂.trans hr)]
    exact hc
  · rw [sysStat_eq hroot, bind_returned (h₃.trans hr)]
    exact hs

end Agreement

section Law

/-- The root in one of its three spellings, or a path with a name that does not begin with `"/."`
or has no other names than `"."` and `".."`. -/
def PathAgrees (p : List UInt8) : Prop :=
  isRootPath p = true ∨
    components p ≠ [] ∧ (slash :: dotName <+: p → Dots (components p))

theorem rootVolume_block {k : ℕ} (h : Descriptors.rootVolume.blockAt
    (Descriptors.rootVolume.inodeNo 0) k ≠ 0) : k = 0 := by
  by_contra hk
  by_cases h12 : k < 12
  · rw [blockAt_direct _ _ h12] at h
    exact h (if_neg hk)
  · rw [blockAt_noTable _ rfl (by omega)] at h
    exact h rfl

theorem rootVolume_tree : Tree Descriptors.rootVolume := by
  refine ⟨?_, ?_, rfl⟩
  · constructor <;> decide
  · constructor <;> decide

theorem rootVolume_slot : ∀ j < 21, slot (Descriptors.rootVolume.disk 675) j =
    if j = 0 then ⟨dotName, 0, FileType.directory⟩
    else if j = 1 then ⟨dotDotName, 0, FileType.directory⟩ else DirEntry.empty := by
  decide +kernel

/-- The only entries are `"."` and `".."`. -/
theorem rootVolume_entry {k j : ℕ} {de : DirEntry} (hj : j < 21)
    (h : Descriptors.rootVolume.entryAt (Descriptors.rootVolume.inodeNo 0) k j = some de) :
    de = ⟨dotName, 0, FileType.directory⟩ ∨ de = ⟨dotDotName, 0, FileType.directory⟩ := by
  obtain ⟨h0, hslot, htype⟩ := entryAt_eq_some.mp h
  obtain rfl := rootVolume_block h0
  rw [← hslot] at htype ⊢
  change (slot (Descriptors.rootVolume.disk 675) j).fileType ≠ FileType.unknown at htype
  change slot (Descriptors.rootVolume.disk 675) j = _ ∨ slot (Descriptors.rootVolume.disk 675) j = _
  rw [rootVolume_slot j hj] at htype ⊢
  split_ifs with h1 h2
  · exact Or.inl rfl
  · exact Or.inr rfl
  · rw [if_neg h1, if_neg h2] at htype
    exact absurd rfl htype

theorem rootVolume_files :
    FileTree Descriptors.rootVolume {0} (fun _ => 0) fun _ => 0 := by
  have hentry : ∀ d ∈ ({0} : Set ℕ), ∀ k j de, j < 21 →
      Descriptors.rootVolume.entryAt (Descriptors.rootVolume.inodeNo d) k j = some de →
      (¬Ordinary de.fileName ∧ de.fileType = FileType.directory ∧ de.ino = 0) ∧
        de = ⟨de.fileName, 0, FileType.directory⟩ := by
    rintro _ rfl k j de hj h
    rcases rootVolume_entry hj h with rfl | rfl
    · exact ⟨⟨by decide, rfl, rfl⟩, rfl⟩
    · exact ⟨⟨by decide, rfl, rfl⟩, rfl⟩
  refine ⟨?_, ?_, ?_⟩
  · constructor
    · exact rootVolume_tree.layout
    · exact rootVolume_tree.steady
    · rfl
    · exact ⟨rfl, rfl⟩
    · rintro _ rfl
      exact ⟨by norm_num, rfl⟩
    · rintro _ rfl
      decide
    · rintro _ rfl k
      rw [ref_noTable rfl]
      split_ifs with hk
      · interval_cases k <;> decide
      · decide
    · rintro _ rfl
      exact rootVolume_slot 0 (by norm_num)
    · rintro _ rfl
      exact rootVolume_slot 1 (by norm_num)
    · rintro _ rfl k _ j hj h0 hfree
      obtain rfl := rootVolume_block h0
      change slot (Descriptors.rootVolume.disk 675) j = _
      change (slot (Descriptors.rootVolume.disk 675) j).fileType = _ at hfree
      rw [rootVolume_slot j hj] at hfree ⊢
      by_cases h1 : j = 0
      · rw [if_pos h1] at hfree
        cases hfree
      by_cases h2 : j = 1
      · rw [if_neg h1, if_pos h2] at hfree
        cases hfree
      · rw [if_neg h1, if_neg h2]
    · intro d hd k _ j hj k' _ j' hj' de de' hde hde' hname
      rw [(hentry d hd k j de hj hde).2, (hentry d hd k' j' de' hj' hde').2, hname]
    · intro d hd k _ j hj _ _ _ _ de _ hde _ hord
      exact absurd hord (hentry d hd k j de hj hde).1.1
    · rintro d hd c d' hord ⟨k, -, j, hj, de, hde, rfl, -, -⟩
      exact absurd hord (hentry d hd k j de hj hde).1.1
    · exact fun _ _ => rfl
    · rintro _ rfl hne
      exact absurd rfl hne
  · rintro d hd de ⟨k, -, j, hj, hde⟩
    exact Or.inl (hentry d hd k j de hj hde).1.2.1
  · rintro d hd de ⟨k, -, j, hj, hde⟩
    rw [(hentry d hd k j de hj hde).1.2.2]
    norm_num

/-- Behind the sectors of this volume lies nothing on a machine whose memory is clear. -/
theorem rootVolume_harmless (hne : c ≠ []) : Harmless sampleHeap Descriptors.rootVolume {0} c := by
  rintro t _ rfl k - h0 j hj hj'
  obtain rfl := rootVolume_block h0
  have hempty : ∀ i < 24, DirEntry.empty.bytes (0 + i) = 0 := by decide
  have hzero : ∀ i < 24, searchBuf sampleHeap t (Descriptors.rootVolume.sector 675) (24 * j + i) =
      DirEntry.empty.bytes (0 + i) := by
    intro i hi
    unfold searchBuf
    split_ifs with hlt
    · have htail : ∀ i < 8, Descriptors.rootVolume.disk 675 (504 + i) = 0 := by decide
      rw [sector_apply _ _ hlt]
      obtain ⟨i', hi'⟩ := Nat.exists_eq_add_of_le (show 504 ≤ 24 * j + i by omega)
      rw [hi', hempty i hi]
      exact htail i' (by omega)
    · rw [hempty i hi]
      rfl
  change (slot (searchBuf sampleHeap t (Descriptors.rootVolume.sector 675)) j).fileName ≠ c
  unfold slot
  have hslot : DirEntry.ofBytes DirEntry.empty.bytes 0 = DirEntry.empty := by decide
  rw [DirEntry.ofBytes_congr hzero, hslot]
  exact fun h => hne h.symm

/-- A name other than `"."` and `".."` in a path that begins with `"/."` is not found. -/
theorem not_agree_dot (hp : ProperPath p) (hzero : (0 : UInt8) ∉ p) (hroot : isRootPath p = false)
    (hdot : slash :: dotName <+: p) (hdots : ¬Dots (components p)) :
    ¬Agree Descriptors.rootVolume sampleHeap sampleHeap sampleHeap t p := by
  have hv := rootVolume_files
  have he : ∀ t, sampleHeap.sysMalloc t = true := fun _ => rfl
  have hlen := hp.length_lt
  -- the first name that is neither "." nor ".."
  obtain ⟨pre, c, post, hsplit, hpre, hc⟩ : ∃ pre c post, components p = pre ++ c :: post ∧
      Dots pre ∧ Ordinary c := by
    obtain ⟨c, hc⟩ : ∃ c, (components p).find? (fun c => decide (Ordinary c)) = some c := by
      rw [← Option.isSome_iff_exists, List.find?_isSome]
      unfold Dots at hdots
      push Not at hdots
      simpa using hdots
    obtain ⟨hord, pre, post, hsplit, hpre⟩ := List.find?_eq_some_iff_append.mp hc
    exact ⟨pre, c, post, hsplit, fun b hb => by simpa using hpre b hb, by simpa using hord⟩
  obtain ⟨hne, -, hsub⟩ := mem_components (show c ∈ components p by simp [hsplit])
  have hvalid : ValidName c := ⟨hp.short c (by simp [hsplit]), fun h0 => hzero (hsub _ h0)⟩
  have hfound : wp noStop sampleHeap (searchFile p) (fun r _ => r.1 = none)
      Descriptors.rootVolume := by
    have hpath := pathLength_absolute hp.absolute
    rw [hsplit, pathLength_append] at hpath
    apply wp_searchFile_descends hv.toDirTree (supplied he) ⟨hp.absolute, hroot⟩ hlen hzero hsplit
      (descends_dots hv.toDirTree hpre) (firstBlocks_dots hv.toDirTree hpre)
    · exact fun _ _ _ hr => hr
    · intro next record parentIno deIno x _ _ hx
      have hname : next.1 = c := hx.ahead.name
      unfold searchLoop
      rw [hname, if_neg hne, wp_assert_pos (by rw [hx.path, length_joined]; omega)]
      apply wp_call (wp_searchDirEntry_harmless hv.toDirTree hv.root.1 hvalid hne
        (rootVolume_harmless hne) he hx)
      rintro r y ⟨rfl, hr⟩
      cases r with
      | none => exact wp_pure.mpr rfl
      | some de =>
        obtain ⟨⟨k, -, j, hj, hde⟩, hname⟩ := hr de rfl
        rcases rootVolume_entry hj hde with rfl | rfl
        · exact absurd hname.symm hc.1
        · exact absurd hname.symm hc.2
  obtain ⟨r, t', w, hr, hnone, hheld⟩ :=
    ends_of_wp (wp_and hfound (wp_searchFile_holding hv.steady)) t
  obtain ⟨c', s, t₂, t₃, w₂, w₃, hc', -, henter, hstat⟩ := agree_found sampleHeap t'
    hv.tree ⟨rfl, rfl⟩ he hheld.sameDisk fun n hn => by rw [hnone] at hn; cases hn
  intro h
  have hsame := h.results (sysOpenDir_dot hlen hdot)
    (by rw [sysChDir_eq, bind_returned hr]; exact henter)
    (by rw [sysStat_eq hroot, bind_returned hr]; exact hstat)
  rw [hc', foundDir, hnone, ite_self] at hsame
  rcases hsame with ⟨d, dir, st, -, -, hsome, -⟩ | ⟨hnull, -⟩
  · cases hsome
  · cases hnull

/-- Two calls without a component to look up find different words on their stacks. -/
theorem not_agree_bare (hv : Tree v) (hroot : isRootPath p = false)
    (habs : p.head? = some slash) (hlen : p.length < 512) (hnil : components p = []) :
    ¬Agree v (wordHeap 0) (wordHeap (2 ^ 32 - 1)) (wordHeap 0) t p := by
  intro h
  have hone : p ≠ [slash] := by
    rintro rfl
    exact absurd hroot (by decide)
  have hdot : ¬slash :: dotName <+: p := fun hdot => components_of_dot hdot hnil
  have hgranted : ∀ t, (wordHeap 0).sysMalloc t = true := fun _ => rfl
  have hzero := wp_searchFile_bare (e := wordHeap 0) hv hroot habs hlen hnil hgranted fun _ => rfl
  have hones := wp_searchFile_bare (e := wordHeap (2 ^ 32 - 1)) hv hroot habs hlen hnil
    (fun _ => rfl) fun _ => rfl
  obtain ⟨r, t₁, w, hr, ⟨hino, hdir⟩, hsame⟩ := ends_of_wp hzero t
  obtain ⟨r₂, t₂, w₂, hr₂, ⟨hino₂, hdir₂⟩, -⟩ := ends_of_wp hones t
  have hd : ∀ d ∈ r.1, d < 4096 := by
    intro d hd
    rw [hino] at hd
    cases hd
    norm_num
  have hopen := ends_of_wp (wp_and (wp_openFound_granted hsame hv.layout hgranted hd)
    (wp_openFound hsame hv.layout)) t₁
  have henter := ends_of_wp (wp_enterFound (r := r₂) (e := wordHeap (2 ^ 32 - 1)) (w := w₂)) t₂
  have hstat := ends_of_wp (wp_statFound_granted hsame hv.layout hgranted hd) t₁
  obtain ⟨o, _, w₁, ho, -, hfound⟩ := hopen
  obtain ⟨c, _, _, hc, hfound₂⟩ := henter
  obtain ⟨s, _, _, hs, -⟩ := hstat
  have hnone : c = none := by
    rw [hfound₂, foundDir, if_pos hdir₂, hino₂]
    rfl
  have hsome : foundDir r = some 0 := by
    rw [foundDir, if_pos hdir, hino]
    rfl
  rw [hsome] at hfound
  obtain ⟨dir, hdir', -⟩ := hfound
  have hresult := h.results
    (by rw [sysOpenDir_eq hlen.le hone hdot, bind_returned hr]; exact ho)
    (by rw [sysChDir_eq, bind_returned hr₂]; exact hc)
    (by rw [sysStat_eq hroot, bind_returned hr]; exact hs)
  rcases hresult with ⟨d, dir, st, -, -, hsome, -⟩ | ⟨hnull, -⟩
  · rw [hnone] at hsome
    cases hsome
  · rw [hdir'] at hnull
    cases hnull

end Law

end Gogoos
