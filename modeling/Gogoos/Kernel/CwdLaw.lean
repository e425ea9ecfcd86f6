import Gogoos.Kernel.CwdRun

/-!
# `getcwd` after `chdir`

The search for a name that is not in the first block of its directory looks behind the sector
buffer first. What lies there may send `chdir` elsewhere; without such names `getcwd` undoes it.
-/

namespace Gogoos

open Program

variable {e : Heap} {stop : Volume → Prop} {u v w : Volume} {d d' : ℕ} {c p : List UInt8}
  {cs rest : List (List UInt8)} {dirs : Set ℕ} {parent rank : ℕ → ℕ}

section Paths

/-- An absolute path without an empty name, `"."` or `".."`, whose names fit their array. -/
structure CanonicalPath (p : List UInt8) : Prop where
  spelled : p = [slash] ∨ components p ≠ [] ∧ p = joined (components p)
  names : ∀ c ∈ components p, Ordinary c ∧ c.length ≤ 15
  nonzero : (0 : UInt8) ∉ p
  length_lt : p.length < 512

theorem CanonicalPath.bare (h : CanonicalPath p) (hp : components p = []) : p = [slash] := by
  rcases h.spelled with hroot | ⟨hne, -⟩
  · exact hroot
  · exact absurd hp hne

theorem CanonicalPath.eq_joined (h : CanonicalPath p) (hp : components p ≠ []) :
    p = joined (components p) := by
  rcases h.spelled with rfl | ⟨-, hjoined⟩
  · exact absurd rfl hp
  · exact hjoined

theorem CanonicalPath.sought (h : CanonicalPath p) (hp : components p ≠ []) : Sought p := by
  constructor
  · obtain ⟨c, cs, hcs⟩ := List.exists_cons_of_ne_nil hp
    rw [h.eq_joined hp, hcs, joined_cons]
    rfl
  · rw [Bool.eq_false_iff]
    intro hroot
    rcases isRootPath_iff.mp hroot with rfl | rfl | rfl
    · exact hp rfl
    · exact (h.names dotName (by decide)).1.1 rfl
    · exact (h.names dotDotName (by decide)).1.2 rfl

theorem CanonicalPath.name (h : CanonicalPath p) (hc : c ∈ components p) :
    Ordinary c ∧ c ≠ [] ∧ (0 : UInt8) ∉ c := by
  obtain ⟨hne, -, hsub⟩ := mem_components hc
  exact ⟨(h.names c hc).1, hne, fun hzero => h.nonzero (hsub _ hzero)⟩

/-- A part of the path from the root on. -/
theorem CanonicalPath.shorter (h : CanonicalPath p) (hp : components p = cs ++ rest)
    (hne : cs ≠ []) : CanonicalPath (joined cs) ∧ components (joined cs) = cs := by
  have hall : components p ≠ [] := by
    rw [hp]
    simp [hne]
  have hmem : ∀ b ∈ cs, b ∈ components p := fun b hb => by simp [hp, hb]
  have hcomp : components (joined cs) = cs := by
    apply components_joined
    intro b hb
    obtain ⟨hne, hslash, -⟩ := mem_components (hmem b hb)
    exact ⟨hne, hslash⟩
  have happ : p = joined cs ++ joined rest := by
    have hsplit : joined (cs ++ rest) = joined cs ++ joined rest :=
      List.flatMap_append
    rw [← hsplit, ← hp]
    exact h.eq_joined hall
  refine ⟨?_, hcomp⟩
  constructor
  · rw [hcomp]
    exact Or.inr ⟨hne, rfl⟩
  · rw [hcomp]
    exact fun b hb => h.names b (hmem b hb)
  · intro hzero
    exact h.nonzero (by rw [happ]; exact List.mem_append_left _ hzero)
  · have hlt := h.length_lt
    rw [happ, List.length_append] at hlt
    omega

theorem pathLength_reverse : pathLength cs.reverse = pathLength cs := by
  unfold pathLength
  rw [List.map_reverse, List.sum_reverse]

/-- Each of the names lies in the first block of its directory. -/
def FirstBlocks (v : Volume) (cs : List (List UInt8)) : Prop :=
  ∀ pre c post d, cs = pre ++ c :: post → Descends v pre d → FirstBlockHas v (v.inodeNo d) c

/-- After a `chdir` to the path that succeeds, `getcwd` returns the path on every machine that has
memory then. -/
def Restores (v : Volume) (p : List UInt8) : Prop :=
  ∀ e e' t t' s w c fuel, (∀ t, e'.sysMalloc t = true) → (components p).length < fuel →
    sysChDir p e t v = .returned (some c) t' w →
      ∃ s' w', sysGetCwd fuel c 512 e' s w = .returned (some p) s' w'

theorem Descends.eq_zero (h : Descends v [] d) : d = 0 := by
  generalize hcs : ([] : List (List UInt8)) = cs at h
  cases h with
  | root => rfl
  | down => simp at hcs

theorem Descends.ne_zero (hv : DirTree v dirs parent rank) (h : Descends v cs d)
    (hcs : ∀ c ∈ cs, Ordinary c) (hne : cs ≠ []) : d ≠ 0 := by
  cases h with
  | root => exact absurd rfl hne
  | down h hdir =>
    exact (hv.child _ (h.mem hv) _ _ (hcs _ (by simp)) hdir).2.1

end Paths

section Searches

variable {next : List UInt8 × Option (List UInt8)} {record : PathSearchRecord}
  {pre : List (List UInt8)} {fuel parentIno deIno : ℕ}

/-- The search for a path begins in the root. -/
theorem wp_searchFile_start {Q : Option ℕ × PathSearchRecord → Volume → Prop}
    (hv : DirTree v dirs parent rank) (hs : Sought p) (hlt : p.length < 512)
    (h : ∀ t, SearchAt v v 0 (pathParse p) [] (components p) ⟨[], v.rootDir, FileType.unknown⟩ →
      wp stop e (searchLoop (p.length + 1) (pathParse p).1 (pathParse p).2
        ⟨[], v.rootDir, FileType.unknown⟩ 0 (e.junk t)) Q v) :
    wp stop e (searchFile p) Q v := by
  have hroot : v.inodeNo 0 = v.inodes v.rootInode := by
    unfold Volume.inodeNo
    rw [hv.rootOpen]
  unfold searchFile
  rw [wp_get_bind, if_neg (by rw [hs.2]; exact Bool.false_ne_true), wp_assert_pos ⟨hs.1, hlt⟩]
  apply wp_ask_bind
  intro t
  apply h t
  constructor
  · exact ahead_pathParse
  · exact holding_rootDir hv.steady
  · exact congrArg Inode.block hroot.symm
  · exact (congrArg Inode.ino hroot.symm).trans (hv.number 0 hv.root.1).2
  · exact congrArg Inode.size hroot.symm
  · exact fun q hq => Option.some.inj (hv.rootOpen.symm.trans hq)
  · rfl

/-- The search for a path, after names that lie in the first blocks. -/
theorem wp_searchFile_descends {Q : Option ℕ × PathSearchRecord → Volume → Prop}
    (hv : DirTree v dirs parent rank) (he : Supplied stop e) (hs : Sought p)
    (hlt : p.length < 512) (hzero : (0 : UInt8) ∉ p) (hsplit : components p = cs ++ rest)
    (h : Descends v cs d) (hfirst : FirstBlocks v cs)
    (hnone : (∃ t, e.sysMalloc t = false) → ∀ r x, r.1 = none → Q r x)
    (hrest : ∀ next record parentIno deIno x, (cs ≠ [] → deIno = d) → parentIno ∈ dirs →
      SearchAt v x d next cs rest record → wp stop e
        (searchLoop (p.length - cs.length + 1) next.1 next.2 record parentIno deIno) Q x) :
    wp stop e (searchFile p) Q v := by
  have hlen := pathLength_absolute hs.1
  rw [hsplit, pathLength_append] at hlen
  have hcs : cs.length ≤ pathLength cs := length_le_pathLength
  have hfuel : p.length + 1 = cs.length + (p.length - cs.length + 1) := by omega
  apply wp_searchFile_start hv hs hlt
  intro t hat
  rw [hsplit] at hat
  rw [hfuel]
  apply wp_searchLoop_descends hv he hv.root.1 h rest _ (pathParse p) _ v ?_ (by omega) hfirst hat
    hnone
  · intro next record parentIno x hparent hx
    apply hrest next record parentIno _ x _ hparent hx
    exact fun hcs => if_neg hcs
  · intro c hc
    obtain ⟨hne, -, hsub⟩ := mem_components (show c ∈ components p by simp [hsplit, hc])
    exact ⟨hne, fun hc0 => hzero (hsub _ hc0)⟩

/-- The end of a path. -/
theorem wp_searchLoop_end (hv : DirTree v dirs parent rank) (he : Supplied stop e)
    (hparent : parentIno ∈ dirs) (hde : deIno < 4096)
    (h : SearchAt v w d next pre [] record) :
    wp stop e (searchLoop (fuel + 1) next.1 next.2 record parentIno deIno)
      (fun r x => r.1 = some deIno ∧ r.2.fileType = FileType.directory ∧
        Opened v x parentIno r.2.parentDir.inode) w := by
  have hname : next.1 = [] := h.ahead.name
  unfold searchLoop
  rw [if_pos hname]
  apply wp_enter hv hparent he h.held
  intro q x hx
  apply wp_pure.mpr
  exact ⟨if_neg (by omega), rfl, hx⟩

end Searches

section Restoring

/-- The search for the path fails, or returns the number of its directory. -/
theorem wp_searchFile_tree (hv : DirTree v dirs parent rank) (hp : CanonicalPath p)
    (h : Descends v (components p) d) (hfirst : FirstBlocks v (components p)) :
    wp anyStop e (searchFile p) (fun r _ => r.1 = none ∨ r.1 = some d) v := by
  by_cases hne : components p = []
  · rw [hne] at h
    rw [hp.bare hne]
    unfold searchFile
    rw [wp_get_bind, if_pos (by decide), wp_pure, h.eq_zero]
    exact Or.inr rfl
  have hmem := h.mem hv
  apply wp_searchFile_descends hv (.inl fun _ => trivial) (hp.sought hne) hp.length_lt hp.nonzero
    (List.append_nil _).symm h hfirst
  · exact fun _ r _ hr => Or.inl hr
  · intro next record parentIno deIno x hde hparent hx
    rw [hde hne]
    apply wp_mono (wp_searchLoop_end hv (.inl fun _ => trivial) hparent (hv.number d hmem).1 hx)
    exact fun r _ hr => Or.inr hr.1

theorem wp_sysChDir_tree (hv : DirTree v dirs parent rank) (hp : CanonicalPath p)
    (h : Descends v (components p) d) (hfirst : FirstBlocks v (components p)) :
    wp anyStop e (sysChDir p) (fun r w => SameVolume v w ∧ ∀ c, r = some c → c = d) v := by
  apply wp_call (wp_and (wp_searchFile_holding hv.steady) (wp_searchFile_tree hv hp h hfirst))
  rintro ⟨ino, record⟩ w ⟨hheld, hino⟩
  apply wp_bind
  apply wp_dirClose_eq
  apply wp_ite
  · intro _
    apply wp_pure.mpr
    refine ⟨hheld.same, fun c hc => ?_⟩
    rcases hino with hnone | hsome
    · exact absurd (hc.symm.trans hnone) (by simp)
    · exact Option.some.inj (hc.symm.trans hsome)
  · intro _
    apply wp_pure.mpr
    exact ⟨hheld.same, fun c hc => absurd hc (by simp)⟩

theorem wp_sysGetCwd_tree {fuel : ℕ} (hv : DirTree v dirs parent rank) (hp : CanonicalPath p)
    (h : Descends v (components p) d) (hs : SameVolume v u) (he : ∀ t, e.sysMalloc t = true)
    (hfuel : (components p).length < fuel) :
    wp noStop e (sysGetCwd fuel d 512) (fun r _ => r = some p) u := by
  have hord : ∀ c ∈ components p, Ordinary c := fun c hc => (hp.names c hc).1
  unfold sysGetCwd sysMalloc
  apply wp_ask_bind
  intro t
  rw [he t, if_neg (by decide), wp_assert_pos (hv.number d (h.mem hv)).1]
  by_cases hne : components p = []
  · rw [hne] at h
    rw [if_pos h.eq_zero, wp_pure, ← hp.bare hne]
  · rw [if_neg (h.ne_zero hv hord hne)]
    apply wp_call (wp_cwdLoop hv he h fuel [] u hord hs hfuel)
    rintro r w rfl
    have hlen : (joined (components p).reverse).length = p.length := by
      rw [length_joined, pathLength_reverse, ← length_joined, ← hp.eq_joined hne]
    have hturn : turnLoop (joined (components p).reverse).length (joined (components p).reverse)
        [] = p := by
      rw [turnLoop_joined, List.nil_append, List.reverse_reverse, ← hp.eq_joined hne]
      · intro c hc
        exact (mem_components (List.mem_reverse.mp hc)).2.1
      · rw [length_joined]
        exact length_le_pathLength
    have hsize := hp.length_lt
    rw [List.nil_append]
    dsimp only
    rw [wp_assert_pos (by omega), wp_pure, hturn]

/-- A path whose names lie in the first blocks comes back. -/
theorem restores_of_first (hv : DirTree v dirs parent rank) (hp : CanonicalPath p)
    (h : Descends v (components p) d) (hfirst : FirstBlocks v (components p)) : Restores v p := by
  intro e e' t t' s w c fuel he hfuel hrun
  have hret : Returns e (sysChDir p) v (some c) w := ⟨t, t', hrun⟩
  obtain ⟨hs, hc⟩ := hret.of_wp (wp_sysChDir_tree hv hp h hfirst)
  rw [hc c rfl]
  obtain ⟨r, s', w', hcwd, rfl⟩ := ends_of_wp (wp_sysGetCwd_tree hv hp h hs he hfuel) s
  exact ⟨s', w', hcwd⟩

end Restoring

section Misleading

variable {next : List UInt8 × Option (List UInt8)} {record : PathSearchRecord} {de : DirEntry}
  {pre : List (List UInt8)} {fuel parentIno deIno : ℕ}

/-- The buffer of a search: the sector and what lies behind it in memory. -/
def searchBuf (e : Heap) (t : ℕ) (sector : ℕ → UInt8) : ℕ → UInt8 :=
  fun j => if j < 512 then sector j else e.behind t (j - 512)

/-- A machine with memory on which this entry lies behind the sector buffers, in slot 22. Slot 21
has the same number and type. -/
structure Misleads (e : Heap) (de : DirEntry) : Prop where
  memory : ∀ t, e.sysMalloc t = true
  between : ∀ t sector, (slot (searchBuf e t sector) 21).ino = de.ino ∧
    (slot (searchBuf e t sector) 21).fileType = de.fileType
  entry : ∀ t sector, slot (searchBuf e t sector) 22 = de

/-- A machine with memory on which an entry with this name and the number of the root lies behind
the sector buffers, in slot 22. Slot 21 has this number, too. -/
def misleading (name : List UInt8) : Heap where
  sysMalloc _ := true
  behind _ := memcpy (fun j => if j = 12 then 2 else 0) 16
    (DirEntry.bytes ⟨name, 0, FileType.directory⟩) 24
  junk _ := 0

theorem searchBuf_behind {sector : ℕ → UInt8} {t j : ℕ} (hj : 512 ≤ j) :
    searchBuf (misleading c) t sector j = if 528 ≤ j ∧ j < 552 then
      DirEntry.bytes ⟨c, 0, FileType.directory⟩ (j - 528) else if j = 524 then 2 else 0 := by
  have h1 : ¬j < 512 := by omega
  have h2 : j - 512 - 16 = j - 528 := by omega
  have h3 : (16 ≤ j - 512 ∧ j - 512 < 16 + 24) ↔ (528 ≤ j ∧ j < 552) := by omega
  have h4 : j - 512 = 12 ↔ j = 524 := by omega
  simp only [searchBuf, misleading, memcpy, h1, if_false, h2, h3, h4]

theorem fits_misleading (hc : ValidName c) :
    (⟨c, 0, FileType.directory⟩ : DirEntry).Fits :=
  ⟨hc, (by norm_num : 0 < 2 ^ 32), (by decide : FileType.directory < 2 ^ 32)⟩

theorem slot_misled {sector : ℕ → UInt8} {t : ℕ} (hc : ValidName c) :
    slot (searchBuf (misleading c) t sector) 22 = ⟨c, 0, FileType.directory⟩ := by
  have hbytes : ∀ k < 24, searchBuf (misleading c) t sector (24 * 22 + k) =
      DirEntry.bytes ⟨c, 0, FileType.directory⟩ (0 + k) := by
    intro k hk
    have hoff : 24 * 22 + k - 528 = 0 + k := by omega
    rw [searchBuf_behind (by omega), if_pos (by omega), hoff]
  unfold slot
  rw [DirEntry.ofBytes_congr hbytes, DirEntry.ofBytes_bytes (fits_misleading hc)]

theorem slot_between {sector : ℕ → UInt8} {t : ℕ} :
    (slot (searchBuf (misleading c) t sector) 21).ino = 0 ∧
    (slot (searchBuf (misleading c) t sector) 21).fileType = FileType.directory := by
  have hzero : ∀ j, 520 ≤ j → j < 528 → j ≠ 524 → searchBuf (misleading c) t sector j = 0 := by
    intro j h1 h2 h3
    rw [searchBuf_behind (by omega), if_neg (by omega), if_neg h3]
  have htwo : searchBuf (misleading c) t sector 524 = 2 := by
    rw [searchBuf_behind (by norm_num), if_neg (by norm_num), if_pos rfl]
  constructor
  · change getWord (searchBuf (misleading c) t sector) 520 = 0
    unfold getWord
    rw [hzero 520 (by norm_num) (by norm_num) (by norm_num),
      hzero 521 (by norm_num) (by norm_num) (by norm_num),
      hzero 522 (by norm_num) (by norm_num) (by norm_num),
      hzero 523 (by norm_num) (by norm_num) (by norm_num)]
    rfl
  · change getWord (searchBuf (misleading c) t sector) 524 = 2
    unfold getWord
    rw [htwo, hzero 525 (by norm_num) (by norm_num) (by norm_num),
      hzero 526 (by norm_num) (by norm_num) (by norm_num),
      hzero 527 (by norm_num) (by norm_num) (by norm_num)]
    rfl

theorem misleads_misleading (hc : ValidName c) :
    Misleads (misleading c) ⟨c, 0, FileType.directory⟩ :=
  ⟨fun _ => rfl, fun _ _ => slot_between, fun _ _ => slot_misled hc⟩

/-- In a first block without the name the search runs on to slot 21 or 22. -/
theorem searchSlots_misled {buf : ℕ → UInt8} (hv : DirTree v dirs parent rank) (hd : d ∈ dirs)
    (hc : ValidName de.fileName) (hne : de.fileName ≠ [])
    (hnot : ¬FirstBlockHas v (v.inodeNo d) de.fileName)
    (hbuf : ∀ k < 512, buf k = v.disk (v.blockAt (v.inodeNo d) 0) k)
    (h21 : (slot buf 21).ino = de.ino ∧ (slot buf 21).fileType = de.fileType)
    (h22 : slot buf 22 = de) :
    ∃ j, searchSlots buf de.fileName 24 0 = some j ∧ (slot buf j).ino = de.ino ∧
      (slot buf j).fileType = de.fileType := by
  have hmatch : ∀ j, strEqAt buf (24 * j) de.fileName = true ↔
      (slot buf j).fileName = de.fileName := fun j => strEqAt_eq_fileName hc
  have hslot : ∀ j < 21, slot buf j = slot (v.disk (v.blockAt (v.inodeNo d) 0)) j :=
    fun j hj => slot_congr hj hbuf
  cases hscan : searchSlots buf de.fileName 24 0 with
  | none =>
    have hmiss := searchSlots_none hscan 22 (by norm_num) (by norm_num)
    rw [Bool.eq_false_iff, Ne, hmatch, h22] at hmiss
    exact absurd rfl hmiss
  | some j =>
    obtain ⟨-, hlt, heq, hbefore⟩ := searchSlots_some hscan
    refine ⟨j, rfl, ?_⟩
    have hge : 21 ≤ j := by
      by_contra hj
      have hj21 : j < 21 := by omega
      have hname := (hmatch j).mp heq
      rw [hslot j hj21] at hname
      have h0 := hv.blockAt_zero hd
      have htype : (slot (v.disk (v.blockAt (v.inodeNo d) 0)) j).fileType ≠ FileType.unknown := by
        intro hfree
        rw [hv.free d hd 0 (by norm_num) j hj21 h0 hfree] at hname
        exact hne hname.symm
      apply hnot
      refine ⟨hc.length_le, j, hj21, ⟨_, entryAt_eq_some.mpr ⟨h0, rfl, htype⟩, hname⟩, ?_⟩
      intro j' hj' hname'
      have hmiss := hbefore j' (Nat.zero_le _) hj'
      rw [Bool.eq_false_iff, Ne, hmatch, hslot j' (by omega)] at hmiss
      exact hmiss hname'
    have hle : j ≤ 22 := by
      by_contra hj
      have hmiss := hbefore 22 (Nat.zero_le _) (by omega)
      rw [Bool.eq_false_iff, Ne, hmatch, h22] at hmiss
      exact hmiss rfl
    obtain rfl | rfl : j = 21 ∨ j = 22 := by omega
    · exact h21
    · rw [h22]
      exact ⟨rfl, rfl⟩

theorem wp_searchDirEntry_misled (he : Misleads e de) (hv : DirTree v dirs parent rank)
    (hd : d ∈ dirs) (hc : ValidName de.fileName) (hne : de.fileName ≠ [])
    (hnot : ¬FirstBlockHas v (v.inodeNo d) de.fileName) (h : SearchAt v w d next pre cs record) :
    wp noStop e (searchDirEntry record.parentDir de.fileName) (fun r x => x = w ∧
      ∃ de', r = some de' ∧ de'.fileType = de.fileType ∧ de'.ino = de.ino) w := by
  have hdisk := h.held.sameDisk.disk
  have hblock : w.blockAt (w.inodes record.parentDir.inode) = v.blockAt (v.inodeNo d) :=
    blockAt_of_disk hdisk h.block
  have htable := hv.below d hd 140
  rw [ref_table, ← h.block] at htable
  unfold searchDirEntry sysMalloc
  apply wp_ask_bind
  intro t
  rw [he.memory t, if_neg (by decide), wp_get_bind, wp_loadAllBlocks_bind]
  refine ⟨fun _ => ?_, fun hnot => absurd (.inl htable) hnot⟩
  apply wp_sysMallocUnchecked_supplied (.inr he.memory)
  rw [hblock]
  unfold searchBlocks
  rw [if_neg (hv.blockAt_zero hd)]
  apply wp_ideRead_total (hv.blockAt_lt hd (by norm_num)) (by norm_num) (by norm_num)
  apply wp_ask_bind
  intro t
  rw [wp_get_bind, h.held.sameDisk.superBlock, hv.layout.dirEntrySize]
  have hbuf : ∀ k < 512, searchBuf e t (w.sector (v.blockAt (v.inodeNo d) 0)) k =
      v.disk (v.blockAt (v.inodeNo d) 0) k := by
    intro k hk
    rw [← hdisk, ← sector_apply w _ hk]
    exact if_pos hk
  obtain ⟨j, hscan, hino, htype⟩ :=
    searchSlots_misled hv hd hc hne hnot hbuf (he.between t _) (he.entry t _)
  dsimp only
  split
  · rename_i j' hfound
    obtain rfl : j = j' := Option.some.inj (hscan.symm.trans hfound)
    exact wp_pure.mpr ⟨rfl, _, rfl, htype, hino⟩
  · rename_i hnone
    exact absurd (hscan.symm.trans hnone) (Option.some_ne_none j)

/-- The last name of a path leads to the root. -/
theorem wp_searchLoop_misled (hv : DirTree v dirs parent rank) (hd : d ∈ dirs)
    (hc : ValidName c) (hne : c ≠ []) (hnot : ¬FirstBlockHas v (v.inodeNo d) c)
    (hlen : pathLength pre < 512) (h : SearchAt v w d next pre [c] record) :
    wp noStop (misleading c) (searchLoop (fuel + 2) next.1 next.2 record parentIno deIno)
      (fun r _ => r.1 = some 0 ∧ r.2.fileType = FileType.directory) w := by
  have he : Supplied noStop (misleading c) := .inr fun _ => rfl
  have hname : next.1 = c := h.ahead.name
  unfold searchLoop
  rw [hname, if_neg hne, wp_assert_pos (by rw [h.path, length_joined]; exact hlen)]
  apply wp_call (wp_searchDirEntry_misled (misleads_misleading hc) hv hd hc hne hnot h)
  rintro r x ⟨rfl, de, rfl, htype, hino⟩
  dsimp only
  rw [if_pos htype, wp_get_bind, h.ino, hino]
  apply wp_enter hv hv.root.1 he h.held
  intro q y hy
  apply wp_mono (wp_searchLoop_end hv he hd (by norm_num) (h.onward hv hv.root.1 hy))
  exact fun r _ hr => ⟨hr.1, hr.2.1⟩

/-- `chdir` goes to the root instead. -/
theorem wp_sysChDir_misled (hv : DirTree v dirs parent rank) (hp : CanonicalPath p)
    (hsplit : components p = cs ++ [c]) (h : Descends v cs d) (hfirst : FirstBlocks v cs)
    (hnot : ¬FirstBlockHas v (v.inodeNo d) c) :
    wp noStop (misleading c) (sysChDir p) (fun r _ => r = some 0) v := by
  have he : Supplied noStop (misleading c) := .inr fun _ => rfl
  have hne : components p ≠ [] := by
    rw [hsplit]
    simp
  have hmem : c ∈ components p := by simp [hsplit]
  obtain ⟨-, hc, hzero⟩ := hp.name hmem
  have hvalid : ValidName c := ⟨(hp.names c hmem).2, hzero⟩
  have hd := h.mem hv
  have hlen := pathLength_absolute (hp.sought hne).1
  have hlt := hp.length_lt
  rw [hsplit, pathLength_append] at hlen
  have hcs : cs.length ≤ pathLength cs := length_le_pathLength
  have hone : pathLength [c] = c.length + 1 := by simp [pathLength]
  have hfound : wp noStop (misleading c) (searchFile p)
      (fun r _ => r.1 = some 0 ∧ r.2.fileType = FileType.directory) v := by
    apply wp_searchFile_descends hv he (hp.sought hne) hp.length_lt hp.nonzero hsplit h hfirst
    · rintro ⟨t, ht⟩
      cases ht
    · intro next record parentIno deIno x _ _ hx
      have hfuel : p.length - cs.length + 1 = p.length - cs.length - 1 + 2 := by omega
      rw [hfuel]
      exact wp_searchLoop_misled hv hd hvalid hc hnot (by omega) hx
  apply wp_call hfound
  rintro ⟨ino, record⟩ w ⟨hino, htype⟩
  apply wp_call (wp_dirClose_any record.parentDir)
  intro _ x _
  rw [if_pos htype]
  exact wp_pure.mpr hino

theorem not_restores (hv : DirTree v dirs parent rank) (hp : CanonicalPath p)
    (hsplit : components p = cs ++ [c]) (h : Descends v cs d) (hfirst : FirstBlocks v cs)
    (hnot : ¬FirstBlockHas v (v.inodeNo d) c) : ¬Restores v p := by
  intro hrestores
  obtain ⟨r, t', w, hrun, rfl⟩ :=
    ends_of_wp (wp_sysChDir_misled hv hp hsplit h hfirst hnot) 0
  obtain ⟨s', w', hcwd⟩ := hrestores (misleading c) (misleading c) 0 t' 0 w 0
    ((components p).length + 1) (fun _ => rfl) (Nat.lt_succ_self _) hrun
  have hroot : sysGetCwd ((components p).length + 1) 0 512 (misleading c) 0 w =
      .returned (some [slash]) 1 w := rfl
  rw [hroot] at hcwd
  obtain ⟨hp', -, -⟩ := Outcome.returned.inj hcwd
  have hbare : p = [slash] := (Option.some.inj hp').symm
  rw [hbare] at hsplit
  simp at hsplit

end Misleading

section Law

/-- The first name that does not lie in the first block of its directory. -/
theorem exists_deep (h : ¬FirstBlocks v cs) : ∃ pre c post d, cs = pre ++ c :: post ∧
    Descends v pre d ∧ FirstBlocks v pre ∧ ¬FirstBlockHas v (v.inodeNo d) c := by
  induction hlen : cs.length using Nat.strong_induction_on generalizing cs with
  | _ n ih =>
    subst hlen
    unfold FirstBlocks at h
    push Not at h
    obtain ⟨pre, c, post, d, hsplit, hpre, hdeep⟩ := h
    by_cases hfirst : FirstBlocks v pre
    · exact ⟨pre, c, post, d, hsplit, hpre, hfirst, hdeep⟩
    · have hlt : pre.length < cs.length := by
        rw [hsplit, List.length_append, List.length_cons]
        omega
      obtain ⟨pre', c', post', d', hsplit', hrest⟩ := ih pre.length hlt hfirst rfl
      refine ⟨pre', c', post' ++ c :: post, d', ?_, hrest⟩
      rw [hsplit, hsplit']
      simp

theorem Descends.shorter : ∀ {d}, Descends v (cs ++ rest) d → ∃ d', Descends v cs d' := by
  induction rest using List.reverseRecOn with
  | nil =>
    intro d h
    rw [List.append_nil] at h
    exact ⟨d, h⟩
  | append_singleton rest c ih =>
    intro d h
    rw [← List.append_assoc] at h
    generalize hall : cs ++ rest ++ [c] = all at h
    cases h with
    | root => simp at hall
    | @down cs' c' d₀ _ h hdir =>
      obtain ⟨rfl, -⟩ := List.append_inj' hall rfl
      exact ih h

/-- `getcwd` undoes `chdir` on all the directories of a tree exactly when the names of their paths
lie in the first blocks. -/
theorem cwd_law (hv : DirTree v dirs parent rank) :
    (∀ p d, CanonicalPath p → Descends v (components p) d → Restores v p) ↔
      ∀ p d, CanonicalPath p → Descends v (components p) d → FirstBlocks v (components p) := by
  constructor
  · intro h p d hp hd
    by_contra hnot
    obtain ⟨pre, c, post, d₀, hsplit, hpre, hfirst, hdeep⟩ := exists_deep hnot
    have hcut : components p = (pre ++ [c]) ++ post := by rw [hsplit]; simp
    obtain ⟨hshort, hcomp⟩ := hp.shorter hcut (by simp)
    rw [hcut] at hd
    obtain ⟨d', hd'⟩ := hd.shorter
    rw [← hcomp] at hd'
    exact not_restores hv hshort hcomp hpre hfirst hdeep (h _ d' hshort hd')
  · exact fun h p d hp hd => restores_of_first hv hp hd (h p d hp hd)

end Law

section Sample

/-- The root, with `"b"` in its first block and `"a"` in its second, and the two directories. -/
def treeBlock (lba : ℕ) : List DirEntry :=
  if lba = 675 then [⟨dotName, 0, FileType.directory⟩, ⟨dotDotName, 0, FileType.directory⟩,
    ⟨[98], 1, FileType.directory⟩]
  else if lba = 676 then [⟨[97], 2, FileType.directory⟩]
  else if lba = 677 then
    [⟨dotName, 1, FileType.directory⟩, ⟨dotDotName, 0, FileType.directory⟩]
  else if lba = 678 then
    [⟨dotName, 2, FileType.directory⟩, ⟨dotDotName, 0, FileType.directory⟩]
  else []

def treeInode (p : ℕ) : Inode :=
  if p = 0 then ⟨0, 96, 1, false, fun k => if k = 0 then 675 else if k = 1 then 676 else 0⟩
  else if p = 1 then ⟨1, 48, 1, false, fun k => if k = 0 then 677 else 0⟩
  else ⟨2, 48, 1, false, fun k => if k = 0 then 678 else 0⟩

def treeVolume : Volume :=
  { sampleVolume with
    disk := fun lba i => ((treeBlock lba).getD (i / 24) DirEntry.empty).bytes (i % 24)
    inodes := treeInode
    nextInode := 3
    openInodes := [0, 1, 2] }

/-- The blocks of the three directories. -/
def treeRef (d k : ℕ) : ℕ :=
  if k = 0 then (if d = 0 then 675 else if d = 1 then 677 else 678)
  else if d = 0 ∧ k = 1 then 676 else 0

theorem treeBlock_fits {lba : ℕ} {de : DirEntry} (h : de ∈ treeBlock lba) :
    de.Fits ∧ de.fileType = FileType.directory := by
  have hall : ∀ lba ∈ [675, 676, 677, 678], ∀ de ∈ treeBlock lba,
      de.fileName.length ≤ 15 ∧ (0 : UInt8) ∉ de.fileName ∧ de.ino < 3 ∧
        de.fileType = FileType.directory := by decide
  have hlba : lba ∈ [675, 676, 677, 678] := by
    by_contra hnot
    simp only [List.mem_cons, List.not_mem_nil, or_false, not_or] at hnot
    obtain ⟨h1, h2, h3, h4⟩ := hnot
    simp [treeBlock, h1, h2, h3, h4] at h
  obtain ⟨hlen, hzero, hino, htype⟩ := hall lba hlba de h
  refine ⟨⟨⟨hlen, hzero⟩, by omega, ?_⟩, htype⟩
  rw [htype]
  decide

theorem getD_cases {l : List DirEntry} {j : ℕ} :
    l.getD j DirEntry.empty = DirEntry.empty ∨ l.getD j DirEntry.empty ∈ l := by
  rw [List.getD_eq_getElem?_getD]
  cases hj : l[j]? with
  | none => exact Or.inl rfl
  | some de => exact Or.inr (List.mem_of_getElem? hj)

/-- The slots of a disk that holds these lists of entries. -/
theorem slot_listed {f : ℕ → List DirEntry} {disk : ℕ → ℕ → UInt8} {lba : ℕ}
    (hdisk : ∀ i, disk lba i = ((f lba).getD (i / 24) DirEntry.empty).bytes (i % 24))
    (hfits : ∀ de ∈ f lba, de.Fits) (j : ℕ) :
    slot (disk lba) j = (f lba).getD j DirEntry.empty := by
  set de := (f lba).getD j DirEntry.empty with hde
  have hfit : de.Fits := by
    rcases getD_cases (l := f lba) (j := j) with hempty | hmem
    · rw [hde, hempty]
      exact ⟨⟨by decide, by decide⟩, by decide, by decide⟩
    · exact hfits _ hmem
  have hbytes : ∀ k < 24, disk lba (24 * j + k) = de.bytes (0 + k) := by
    intro k hk
    have hdiv : (24 * j + k) / 24 = j := by omega
    have hmod : (24 * j + k) % 24 = 0 + k := by omega
    rw [hdisk, hdiv, hmod]
  unfold slot
  rw [DirEntry.ofBytes_congr hbytes, DirEntry.ofBytes_bytes hfit]

theorem slot_treeVolume (lba j : ℕ) :
    slot (treeVolume.disk lba) j = (treeBlock lba).getD j DirEntry.empty :=
  slot_listed (fun _ => rfl) (fun _ hde => (treeBlock_fits hde).1) j

theorem treeVolume_inodeNo (hd : d ≤ 2) : treeVolume.inodeNo d = treeInode d := by
  interval_cases d <;> rfl

theorem treeVolume_blockAt (hd : d ≤ 2) (k : ℕ) :
    treeVolume.blockAt (treeVolume.inodeNo d) k = treeRef d k := by
  rw [treeVolume_inodeNo hd]
  have hdirect : ∀ k, (treeInode d).block k = treeRef d k := by
    intro k
    unfold treeInode treeRef
    interval_cases d <;> simp
  by_cases hk : k < 12
  · rw [blockAt_direct _ _ hk, hdirect]
  · have htable : (treeInode d).block 12 = 0 := by
      rw [hdirect]
      simp [treeRef]
    rw [blockAt_noTable _ htable (by omega), ← hdirect, hdirect]
    have h0 : k ≠ 0 := by omega
    have h1 : k ≠ 1 := by omega
    simp [treeRef, h0, h1]

/-- The entries of a directory. -/
def treeEntries (d : ℕ) : List DirEntry := treeBlock (treeRef d 0) ++ treeBlock (treeRef d 1)

theorem treeVolume_entry {k j : ℕ} {de : DirEntry} (hd : d ≤ 2)
    (h : treeVolume.entryAt (treeVolume.inodeNo d) k j = some de) :
    de ∈ treeBlock (treeRef d k) ∧ de ∈ treeEntries d := by
  obtain ⟨h0, hslot, htype⟩ := entryAt_eq_some.mp h
  rw [slot_treeVolume, treeVolume_blockAt hd] at hslot
  rw [treeVolume_blockAt hd] at h0
  have hmem : de ∈ treeBlock (treeRef d k) := by
    rcases getD_cases (l := treeBlock (treeRef d k)) (j := j) with hempty | hmem
    · rw [← hslot, hempty] at htype
      exact absurd rfl htype
    · rwa [hslot] at hmem
  refine ⟨hmem, ?_⟩
  by_cases hk0 : k = 0
  · subst hk0
    exact List.mem_append_left _ hmem
  by_cases hk1 : k = 1
  · subst hk1
    exact List.mem_append_right _ hmem
  · exact absurd (by simp [treeRef, hk0, hk1]) h0

instance (name : List UInt8) : Decidable (Ordinary name) := inferInstanceAs (Decidable (_ ∧ _))

theorem treeVolume_tree : DirTree treeVolume {d | d ≤ 2} (fun _ => 0)
    (fun d => if d = 0 then 0 else 1) := by
  have hname : ∀ d ≤ 2, ∀ de ∈ treeEntries d, ∀ de' ∈ treeEntries d,
      de.fileName = de'.fileName → de = de' := by decide
  have hino : ∀ d ≤ 2, ∀ de ∈ treeEntries d, ∀ de' ∈ treeEntries d, Ordinary de.fileName →
      Ordinary de'.fileName → de.ino = de'.ino → de = de' := by decide
  have hchild : ∀ d ≤ 2, ∀ de ∈ treeEntries d, Ordinary de.fileName →
      de.ino ≤ 2 ∧ de.ino ≠ 0 ∧ 0 = d := by decide
  have hblock : ∀ d ≤ 2, (treeVolume.inodeNo d).block 0 = treeRef d 0 := by
    intro d hd
    rw [← treeVolume_blockAt hd, blockAt_direct _ _ (by norm_num)]
  constructor
  · exact sampleVolume_newDirectory.layout.congr rfl rfl rfl rfl rfl
  · exact ⟨by decide, by decide, by decide, by decide⟩
  · rfl
  · exact ⟨Nat.zero_le 2, rfl⟩
  · intro d (hd : d ≤ 2)
    rw [treeVolume_inodeNo hd]
    interval_cases d <;> exact ⟨by norm_num, rfl⟩
  · intro d (hd : d ≤ 2)
    rw [hblock d hd]
    interval_cases d <;> decide
  · intro d (hd : d ≤ 2) k
    by_cases hk : k = 140
    · rw [hk, ref_table, treeVolume_inodeNo hd]
      interval_cases d <;> decide
    · rcases Nat.lt_or_gt_of_ne hk with hlt | hgt
      · rw [ref_of_lt hlt, treeVolume_blockAt hd]
        unfold treeRef maxLba
        split_ifs <;> norm_num
      · rw [ref_of_gt hgt]
        decide
  · intro d (hd : d ≤ 2)
    rw [hblock d hd, slot_treeVolume]
    interval_cases d <;> rfl
  · intro d (hd : d ≤ 2)
    rw [hblock d hd, slot_treeVolume]
    interval_cases d <;> rfl
  · intro d _ k _ j _ _ hfree
    rw [slot_treeVolume] at hfree ⊢
    rcases getD_cases (l := treeBlock (treeVolume.blockAt (treeVolume.inodeNo d) k)) (j := j)
      with hempty | hmem
    · exact hempty
    · rw [(treeBlock_fits hmem).2] at hfree
      exact absurd hfree (by decide)
  · intro d hd k _ j _ k' _ j' _ de de' hde hde'
    exact hname d hd de (treeVolume_entry hd hde).2 de' (treeVolume_entry hd hde').2
  · intro d hd k _ j _ k' _ j' _ de de' hde hde'
    exact hino d hd de (treeVolume_entry hd hde).2 de' (treeVolume_entry hd hde').2
  · rintro d hd c d' hc ⟨k, -, j, -, de, hde, rfl, -, rfl⟩
    exact hchild d hd de (treeVolume_entry hd hde).2 hc
  · exact fun _ _ => Nat.zero_le 2
  · intro d _ hd0
    simp [hd0]

/-- `"a"` is an entry of the second block of the root, -/
theorem treeVolume_hasDir : treeVolume.HasDir 0 [97] 2 := by
  have hentry : treeVolume.entryAt (treeVolume.inodeNo 0) 1 0 =
      some ⟨[97], 2, FileType.directory⟩ := by
    rw [entryAt_eq_some, slot_treeVolume, treeVolume_blockAt (by norm_num)]
    exact ⟨by decide, rfl, (by decide : FileType.directory ≠ FileType.unknown)⟩
  exact ⟨1, by norm_num, 0, by norm_num, _, hentry, rfl, rfl, rfl⟩

/-- and there is none in its first. -/
theorem treeVolume_deep : ¬FirstBlockHas treeVolume (treeVolume.inodeNo 0) [97] := by
  rintro ⟨-, j, -, ⟨de, hde, hname⟩, -⟩
  have hnames : ∀ de ∈ treeBlock (treeRef 0 0), de.fileName ≠ [97] := by decide
  exact hnames de (treeVolume_entry (by norm_num) hde).1 hname

theorem canonical_a : CanonicalPath [47, 97] := ⟨by decide, by decide, by decide, by decide⟩

theorem cwd_law_sample : ¬∀ p d, CanonicalPath p → Descends treeVolume (components p) d →
    Restores treeVolume p := by
  intro h
  have hfirst := (cwd_law treeVolume_tree).mp h [47, 97] 2 canonical_a
    (.down .root treeVolume_hasDir)
  exact treeVolume_deep (hfirst [] [97] [] 0 rfl .root)

/-- After a `chdir` to `"/a"` that succeeds the working directory may be the root. -/
theorem cwd_law_fails : ¬∀ (v : Volume) (dirs : Set ℕ) (parent rank : ℕ → ℕ) (p : List UInt8)
    (d : ℕ), DirTree v dirs parent rank → CanonicalPath p → Descends v (components p) d →
      Restores v p := by
  intro h
  have hfirst : FirstBlocks treeVolume [] := by
    rintro pre c post d hsplit
    simp at hsplit
  exact not_restores treeVolume_tree canonical_a rfl .root hfirst treeVolume_deep
    (h treeVolume _ _ _ [47, 97] 2 treeVolume_tree canonical_a (.down .root treeVolume_hasDir))

end Sample

end Gogoos
