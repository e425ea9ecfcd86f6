import Gogoos.Kernel.Exec

/-!
# The image of a program

What `load` leaves in memory when it returns: every segment has its first page and the bytes of
the file that were there, and everything else is as before.
-/

namespace Gogoos.Image

open Program

variable {s s' r : Image} {e : HeapCalls} {g : Elf32Phdr} {gs : List Elf32Phdr} {c : List UInt8}
  {H : Set ℕ}

section Effect

/-- The file part of a segment. -/
def InFile (g : Elf32Phdr) (a : ℕ) : Prop := g.vaddr ≤ a ∧ a < g.vaddr + g.filesz

/-- The change that loading some segments makes, all of them in the file, away from the pages `H`
of the heap. -/
structure Effect (H : Set ℕ) (s s' : Image) (gs : List Elf32Phdr) : Prop where
  content : s'.content = s.content
  fresh : s'.fresh = s.fresh
  mapped : ∀ p, p ∉ H → (s'.mapped p = true ↔ s.mapped p = true ∨ ∃ g ∈ gs, g.vaddr / 4096 = p)
  file : ∀ g ∈ gs, ∀ i < g.filesz, s'.bytes (g.vaddr + i) = s.content.getD (g.offset + i) 0
  there : ∀ a, a / 4096 ∉ H → (∀ g ∈ gs, ¬InFile g a) → s.mapped (a / 4096) = true →
    s'.bytes a = s.bytes a
  new : ∀ a, a / 4096 ∉ H → (∀ g ∈ gs, ¬InFile g a) → s.mapped (a / 4096) ≠ true →
    s'.mapped (a / 4096) = true → s'.bytes a = s.fresh a

theorem Effect.nil : Effect H s s [] where
  content := rfl
  fresh := rfl
  mapped := by simp
  file := by simp
  there _ _ _ _ := rfl
  new _ _ _ hn hm := absurd hm hn

/-- The position of the descriptor does not matter. -/
theorem Effect.moved {pos pos' : ℕ}
    (h : Effect H { s with fdPos := pos } { s' with fdPos := pos' } gs) : Effect H s s' gs :=
  ⟨h.content, h.fresh, h.mapped, h.file, h.there, h.new⟩

/-- The segments of the first change are on pages that are mapped then, apart from the heap and
from the later ones. -/
theorem Effect.trans {gs' : List Elf32Phdr} (h : Effect H s r gs) (hr : Effect H r s' gs')
    (hpages : ∀ g ∈ gs, ∀ i < g.filesz,
      r.mapped ((g.vaddr + i) / 4096) = true ∧ (g.vaddr + i) / 4096 ∉ H)
    (hapart : ∀ g ∈ gs, ∀ g' ∈ gs', ∀ a, InFile g a → ¬InFile g' a) :
    Effect H s s' (gs ++ gs') := by
  refine ⟨hr.content.trans h.content, hr.fresh.trans h.fresh, ?_, ?_, ?_, ?_⟩
  · intro p hp
    rw [hr.mapped p hp, h.mapped p hp]
    simp only [List.mem_append, or_and_right, exists_or, or_assoc]
  · intro g hg i hi
    obtain hg | hg := List.mem_append.mp hg
    · obtain ⟨hm, hH⟩ := hpages g hg i hi
      have hin : InFile g (g.vaddr + i) := ⟨by omega, by omega⟩
      rw [hr.there _ hH (fun g' hg' => hapart g hg g' hg' _ hin) hm]
      exact h.file g hg i hi
    · rw [hr.file g hg i hi, h.content]
  · intro a ha hout hm
    have hm' : r.mapped (a / 4096) = true := (h.mapped _ ha).mpr (.inl hm)
    rw [hr.there a ha (fun g hg => hout g (List.mem_append_right _ hg)) hm',
      h.there a ha (fun g hg => hout g (List.mem_append_left _ hg)) hm]
  · intro a ha hout hn hm
    have hout' : ∀ g ∈ gs, ¬InFile g a := fun g hg => hout g (List.mem_append_left _ hg)
    have hout'' : ∀ g ∈ gs', ¬InFile g a := fun g hg => hout g (List.mem_append_right _ hg)
    by_cases hr' : r.mapped (a / 4096) = true
    · rw [hr.there a ha hout'' hr', h.new a ha hout' hn hr']
    · rw [hr.new a ha hout'' hr' hm, h.fresh]

/-- What the heap does before some segments are loaded. -/
theorem Effect.after (h : Effect H s r []) (hr : Effect H r s' gs) : Effect H s s' gs :=
  h.trans hr (by simp) (by simp)

theorem effect_grow {c : HeapCall} {t : ℕ} (hc : e t = some c) :
    Effect (heapPages e) s (s.grow c) [] := by
  have hpage : ∀ {p}, p ∉ heapPages e → c.page ≠ some p :=
    fun hp hc' => hp ⟨t, c, hc, .inl hc'⟩
  have hbyte : ∀ {a}, a / 4096 ∉ heapPages e → (s.grow c).bytes a = s.bytes a := by
    intro a ha
    have hnone : c.bytes a = none := by
      by_contra hne
      exact ha ⟨t, c, hc, .inr ⟨a, rfl, hne⟩⟩
    simp [grow, hnone, hpage ha]
  refine ⟨rfl, rfl, fun p hp => ?_, by simp, fun a ha _ _ => hbyte ha, fun a ha _ hn hm => ?_⟩
  · simp [grow, hpage hp]
  · simp only [grow, hpage ha, decide_false, Bool.false_or] at hm
    exact absurd hm hn

/-- One segment is loaded, onto pages that are mapped then. -/
structure OneLoaded (H : Set ℕ) (s s' : Image) (g : Elf32Phdr) : Prop where
  effect : Effect H s s' [g]
  pages : ∀ i < g.filesz, s'.mapped ((g.vaddr + i) / 4096) = true

theorem Effect.cons (h : OneLoaded H s r g) (hr : Effect H r s' gs)
    (hclear : ∀ i < g.filesz, (g.vaddr + i) / 4096 ∉ H)
    (hapart : ∀ g' ∈ gs, ∀ a, InFile g a → ¬InFile g' a) : Effect H s s' (g :: gs) := by
  refine h.effect.trans hr (fun g' hg' i hi => ?_) fun g' hg' => ?_
  · obtain rfl := List.mem_singleton.mp hg'
    exact ⟨h.pages i hi, hclear i hi⟩
  · obtain rfl := List.mem_singleton.mp hg'
    exact hapart

end Effect

section Specs

/-- When the first page is mapped the loop does nothing more. -/
theorem mapSegment_mapped {vaddr : ℕ} (h : s.mapped (vaddr / 4096) = true) : ∀ left page t,
    mapSegment vaddr left page e t s = .returned true t s := by
  intro left
  induction left with
  | zero => exact fun _ _ => rfl
  | succ left ih =>
    intro page t
    change (if s.mapped (vaddr / 4096) = true then mapSegment vaddr left (page + 1)
      else _) e t s = _
    rw [if_pos h]
    exact ih _ t

theorem wp_mapSegment_mapped {vaddr left page : ℕ} (h : s.mapped (vaddr / 4096) = true) :
    wp noStop e (mapSegment vaddr left page) (fun ok r => ok = true ∧ r = s) s := by
  intro t
  rw [mapSegment_mapped h]
  exact ⟨rfl, rfl⟩

/-- The first page of a segment gets a frame unless it has one. -/
def withFirst (s : Image) (vaddr : ℕ) : Image :=
  if s.mapped (vaddr / 4096) = true then s else s.mapPage (vaddr / 4096)

theorem occupyPages_pos (fileSize vaddr : ℕ) : ∃ k, occupyPages fileSize vaddr = k + 1 := by
  unfold occupyPages
  dsimp only
  split_ifs
  · exact ⟨_, rfl⟩
  · exact ⟨0, rfl⟩

theorem wp_mapSegment {fileSize vaddr : ℕ} :
    wp anyStop e (mapSegment vaddr (occupyPages fileSize vaddr) (vaddr / 4096))
      (fun ok r => ok = true → r = s.withFirst vaddr) s := by
  obtain ⟨k, hk⟩ := occupyPages_pos fileSize vaddr
  by_cases hm : s.mapped (vaddr / 4096) = true
  · unfold withFirst
    rw [if_pos hm]
    exact wp_of_noStop (wp_mono (wp_mapSegment_mapped hm) fun _ _ h _ => h.2)
  · unfold withFirst
    rw [hk, if_neg hm]
    unfold mapSegment
    rw [wp_get_bind, if_neg hm]
    unfold getOnePage
    rw [wp_bind_assoc, wp_get_bind]
    by_cases hf : s.frames = 0
    · rw [if_pos hf]
      exact wp_pure.mpr (by simp)
    · rw [if_neg hf, wp_bind_assoc, wp_assert_bind]
      refine ⟨fun _ => ?_, fun _ => trivial⟩
      rw [wp_bind_assoc, wp_modify_bind, wp_pure_bind, if_pos rfl]
      have hfirst : (s.mapPage (vaddr / 4096)).mapped (vaddr / 4096) = true := by simp [mapPage]
      exact wp_of_noStop (wp_mono (wp_mapSegment_mapped hfirst) fun _ _ h _ => h.2)

theorem wp_sysMalloc : wp noStop e sysMalloc (fun ok r => Effect (heapPages e) s r [] ∧
    r.fdPos = s.fdPos ∧ (Ample e → ok = true)) s := by
  unfold sysMalloc
  apply wp_ask_bind
  intro t
  cases hc : e t with
  | none => exact wp_pure.mpr ⟨.nil, rfl, fun he => absurd hc (he t)⟩
  | some c =>
    dsimp only
    rw [wp_modify_bind]
    exact wp_pure.mpr ⟨effect_grow hc, rfl, fun _ => rfl⟩

/-- The size that `fileRead` computes; its second test is about the same sum. -/
def readSize (s : Image) (count : ℕ) : ℕ :=
  if s.fdPos + count > s.content.length then s.content.length - s.fdPos else count

/-- A read changes the heap and the position. -/
theorem wp_fileRead {count : ℕ} : wp anyStop e (fileRead count) (fun d r =>
    Effect (heapPages e) s r [] ∧
      (d = none ∨ d = some ((s.content.drop s.fdPos).take (s.readSize count)) ∧
        r.fdPos = s.fdPos + s.readSize count) ∧
      (Ample e → s.fdPos + count ≤ s.content.length → d ≠ none)) s := by
  unfold fileRead
  rw [wp_get_bind]
  apply wp_ite
  · exact fun hend => wp_pure.mpr ⟨.nil, .inl rfl, fun _ hle => absurd hend.1 (by omega)⟩
  intro _
  apply wp_call (wp_of_noStop wp_sysMalloc)
  rintro ok r ⟨hr, hfd, hok⟩
  cases ok with
  | false => exact wp_pure.mpr ⟨hr, .inl rfl, fun he => absurd (hok he) (by simp)⟩
  | true =>
    rw [if_pos rfl]
    apply wp_call (wp_of_noStop wp_sysMalloc)
    rintro ok r' ⟨hr', hfd', hok'⟩
    cases ok with
    | false => exact wp_pure.mpr ⟨hr.after hr', .inl rfl, fun he => absurd (hok' he) (by simp)⟩
    | true =>
      rw [if_pos rfl, wp_assert_bind]
      refine ⟨fun _ => ?_, fun _ => trivial⟩
      rw [wp_modify_bind]
      have heff := hr.after hr'
      refine wp_pure.mpr ⟨⟨heff.content, heff.fresh, heff.mapped, heff.file, heff.there, heff.new⟩,
        .inr ⟨rfl, ?_⟩, fun _ _ => by simp⟩
      exact congrArg (· + s.readSize count) (hfd'.trans hfd)

/-- A read of bytes that are all there. -/
theorem wp_fileRead_present {count : ℕ} (he : Ample e)
    (h : s.fdPos + count ≤ s.content.length) :
    wp anyStop e (fileRead count) (fun d r => d = some ((s.content.drop s.fdPos).take count) ∧
      Effect (heapPages e) s r [] ∧ r.fdPos = s.fdPos + count) s := by
  have hsize : s.readSize count = count := if_neg (by omega)
  refine wp_mono wp_fileRead fun d r ⟨heff, hd, hne⟩ => ?_
  obtain hd | ⟨hd, hfd⟩ := hd
  · exact absurd hd (hne he h)
  · rw [hsize] at hd hfd
    exact ⟨hd, heff, hfd⟩

theorem wp_sysLseek (offset : ℕ) (h : offset < s.content.length) (hlt : s.content.length < 2 ^ 31) :
    wp noStop e (sysLseek offset) (fun _ r => r = { s with fdPos := offset }) s := by
  unfold sysLseek
  rw [wp_get_bind, if_pos ⟨by omega, h⟩, wp_modify_bind]
  exact wp_pure.mpr rfl

/-- A seek moves the position only. -/
theorem wp_sysLseek_any {offset : ℕ} :
    wp noStop e (sysLseek offset) (fun _ r => ∃ pos, r = { s with fdPos := pos }) s := by
  unfold sysLseek
  rw [wp_get_bind]
  exact wp_ite (fun _ => wp_modify_bind.mpr (wp_pure.mpr ⟨_, rfl⟩)) fun _ => wp_pure.mpr ⟨s.fdPos, rfl⟩

theorem wp_fileRead_zero : wp anyStop e (fileRead 0)
    (fun d r => (d = none ∨ d = some []) ∧ Effect (heapPages e) s r []) s := by
  refine wp_mono wp_fileRead fun d r ⟨heff, hd, _⟩ => ⟨?_, heff⟩
  have hsize : s.readSize 0 = 0 := by
    unfold readSize
    split_ifs <;> omega
  rw [hsize, List.take_zero] at hd
  exact hd.imp id And.left

@[simp] theorem withFirst_content {vaddr : ℕ} : (s.withFirst vaddr).content = s.content := by
  unfold withFirst
  split_ifs <;> rfl

@[simp] theorem withFirst_fresh {vaddr : ℕ} : (s.withFirst vaddr).fresh = s.fresh := by
  unfold withFirst
  split_ifs <;> rfl

theorem withFirst_mapped {vaddr p : ℕ} : (s.withFirst vaddr).mapped p = true ↔
    s.mapped p = true ∨ vaddr / 4096 = p := by
  unfold withFirst
  split_ifs with h
  · constructor
    · exact .inl
    · rintro (hp | rfl)
      · exact hp
      · exact h
  · simp only [mapPage, Bool.or_eq_true, decide_eq_true_eq]
    constructor
    · rintro (rfl | hp)
      · exact .inr rfl
      · exact .inl hp
    · rintro (hp | rfl)
      · exact .inr hp
      · exact .inl rfl

theorem withFirst_bytes_there {vaddr a : ℕ} (h : s.mapped (a / 4096) = true) :
    (s.withFirst vaddr).bytes a = s.bytes a := by
  unfold withFirst
  split_ifs with hm
  · rfl
  · have hne : a / 4096 ≠ vaddr / 4096 := fun hc => hm (hc ▸ h)
    simp [mapPage, hne]

theorem withFirst_bytes_new {vaddr a : ℕ} (h : s.mapped (a / 4096) ≠ true)
    (h' : (s.withFirst vaddr).mapped (a / 4096) = true) :
    (s.withFirst vaddr).bytes a = s.fresh a := by
  have hfirst : vaddr / 4096 = a / 4096 := (withFirst_mapped.mp h').resolve_left h
  unfold withFirst
  rw [if_neg (by rwa [hfirst])]
  simp [mapPage, hfirst]

theorem write_nil {vaddr : ℕ} : s.write vaddr [] = s := by
  unfold write
  have hb : (fun a => if vaddr ≤ a ∧ a < vaddr + ([] : List UInt8).length then
      ([] : List UInt8).getD (a - vaddr) 0 else s.bytes a) = s.bytes := by
    funext a
    rw [if_neg (by simp)]
  rw [hb]

/-- The bytes of a segment are stored after its first page was mapped and the heap was used. -/
theorem OneLoaded.of_write (data : List UInt8) (hr : Effect H (s.withFirst g.vaddr) r [])
    (hpages : ∀ i < g.filesz, r.mapped ((g.vaddr + i) / 4096) = true)
    (hlen : data.length = g.filesz)
    (hdata : ∀ i < g.filesz, data.getD i 0 = s.content.getD (g.offset + i) 0) :
    OneLoaded H s (r.write g.vaddr data) g := by
  have hout : ∀ {a}, (∀ g' ∈ [g], ¬InFile g' a) → ¬(g.vaddr ≤ a ∧ a < g.vaddr + data.length) :=
    fun h => hlen ▸ h g (by simp)
  refine ⟨⟨hr.content.trans withFirst_content, hr.fresh.trans withFirst_fresh, ?_, ?_, ?_, ?_⟩,
    hpages⟩
  · intro p hp
    have hiff := hr.mapped p hp
    simp only [List.not_mem_nil, false_and, exists_false, or_false] at hiff
    simpa [write, hiff] using withFirst_mapped
  · intro g' hg' i hi
    obtain rfl : g' = g := by simpa using hg'
    have hin : g'.vaddr ≤ g'.vaddr + i ∧ g'.vaddr + i < g'.vaddr + data.length := by omega
    simp only [write, if_pos hin, Nat.add_sub_cancel_left]
    exact hdata i hi
  · intro a ha hg hm
    have hm' : (s.withFirst g.vaddr).mapped (a / 4096) = true := withFirst_mapped.mpr (.inl hm)
    simp only [write, if_neg (hout hg)]
    rw [hr.there a ha (by simp) hm', withFirst_bytes_there hm]
  · intro a ha hg hn hm
    have hm' : (s.withFirst g.vaddr).mapped (a / 4096) = true := by
      have hiff := (hr.mapped _ ha).mp hm
      simpa using hiff
    simp only [write, if_neg (hout hg)]
    rw [hr.there a ha (by simp) hm', withFirst_bytes_new hn hm']

theorem getD_take_drop (c : List UInt8) (off n i : ℕ) (hi : i < n) :
    ((c.drop off).take n).getD i 0 = c.getD (off + i) 0 := by
  simp [List.getD_eq_getElem?_getD, hi, List.getElem?_drop]

theorem wp_readUser_zero {vaddr : ℕ} : wp anyStop e (readUser vaddr 0)
    (fun _ r => Effect (heapPages e) s r []) s := by
  unfold readUser
  rw [wp_assert_bind]
  refine ⟨fun _ => ?_, fun _ => trivial⟩
  apply wp_call wp_fileRead_zero
  rintro d r ⟨rfl | rfl, hr⟩
  · exact wp_pure.mpr hr
  · dsimp only
    rw [wp_get_bind, wp_assert_bind]
    refine ⟨fun _ => ?_, fun _ => trivial⟩
    rw [wp_modify_bind, write_nil]
    exact wp_pure.mpr hr

theorem wp_readUser_present {vaddr count : ℕ} (he : Ample e)
    (h : s.fdPos + count ≤ s.content.length) :
    wp anyStop e (readUser vaddr count) (fun _ r => ∃ r', Effect (heapPages e) s r' [] ∧
      (∀ i < count, r'.mapped ((vaddr + i) / 4096) = true) ∧
      r = r'.write vaddr ((s.content.drop s.fdPos).take count)) s := by
  have hlen : ((s.content.drop s.fdPos).take count).length = count := by
    rw [List.length_take, List.length_drop]
    omega
  unfold readUser
  rw [wp_assert_bind]
  refine ⟨fun _ => ?_, fun _ => trivial⟩
  apply wp_call (wp_fileRead_present he h)
  rintro d r ⟨rfl, hr, -⟩
  dsimp only
  rw [wp_get_bind, wp_assert_bind]
  refine ⟨fun hpages => ?_, fun _ => trivial⟩
  rw [hlen] at hpages
  rw [wp_modify_bind]
  exact wp_pure.mpr ⟨r, hr, hpages, rfl⟩

theorem wp_segmentLoad (he : Ample e) (hp : Present s g) (hlt : s.content.length < 2 ^ 31) :
    wp anyStop e (segmentLoad g.offset g.filesz g.vaddr)
      (fun ok r => ok = true → OneLoaded (heapPages e) s r g) s := by
  unfold segmentLoad
  apply wp_call wp_mapSegment
  intro ok r hr
  cases ok with
  | false => exact wp_pure.mpr (by simp)
  | true =>
    obtain rfl := hr rfl
    rw [if_pos rfl]
    unfold Present at hp
    by_cases hz : g.filesz = 0
    · -- nothing is read, wherever the position is
      apply wp_call (wp_of_noStop wp_sysLseek_any)
      rintro _ _ ⟨pos, rfl⟩
      rw [hz]
      apply wp_call wp_readUser_zero
      intro _ r hr
      refine wp_pure.mpr fun _ => ?_
      have heff : Effect (heapPages e) (s.withFirst g.vaddr) r [] :=
        ⟨hr.content, hr.fresh, hr.mapped, hr.file, hr.there, hr.new⟩
      have h := OneLoaded.of_write (g := g) [] heff (by omega) (by simp [hz]) (by omega)
      rwa [write_nil] at h
    · apply wp_call (wp_of_noStop (wp_sysLseek g.offset (by simp; omega) (by simpa)))
      rintro _ _ rfl
      apply wp_call (wp_readUser_present he (by simpa using hp))
      rintro _ _ ⟨r, hr, hpages, rfl⟩
      have heff : Effect (heapPages e) (s.withFirst g.vaddr) r [] :=
        ⟨hr.content, hr.fresh, hr.mapped, hr.file, hr.there, hr.new⟩
      refine wp_pure.mpr fun _ => .of_write _ heff hpages ?_ fun i hi => ?_
      · rw [List.length_take, List.length_drop]
        dsimp only
        rw [withFirst_content]
        omega
      · rw [getD_take_drop _ _ _ _ hi, withFirst_content]

/-- Every segment of some headers is in the file and lies apart from the heap and the later ones. -/
structure Fits (H : Set ℕ) (s : Image) (gs : List Elf32Phdr) : Prop where
  present : ∀ g ∈ loads gs, Present s g
  clear : ∀ g ∈ loads gs, ∀ i < g.filesz, (g.vaddr + i) / 4096 ∉ H
  apart : (loads gs).Pairwise Apart

/-- What is left after the first header. -/
theorem Fits.tail {g : Elf32Phdr} {gs : List Elf32Phdr} (h : Fits H s (g :: gs))
    (hc : r.content = s.content) : Fits H r gs := by
  have hsub : ∀ g' ∈ loads gs, g' ∈ loads (g :: gs) := by
    intro g' hg'
    obtain ⟨hmem, ht⟩ := List.mem_filter.mp hg'
    exact List.mem_filter.mpr ⟨List.mem_cons_of_mem _ hmem, ht⟩
  refine ⟨fun g' hg' => ?_, fun g' hg' => h.clear g' (hsub g' hg'), ?_⟩
  · unfold Present
    rw [hc]
    exact h.present g' (hsub g' hg')
  · refine h.apart.sublist ?_
    exact (List.sublist_cons_self _ _).filter _

theorem wp_loadHeaders (he : Ample e) : ∀ left off s, off + 32 * left ≤ s.content.length →
    s.content.length < 2 ^ 31 → Fits (heapPages e) s (table s.content left off) →
    wp anyStop e (loadHeaders left off)
      (fun ok r => ok = true → Effect (heapPages e) s r (loads (table s.content left off))) s := by
  intro left
  induction left with
  | zero =>
    intro off s _ _ _
    exact wp_pure.mpr fun _ => .nil
  | succ left ih =>
    intro off s hoff hlt hfits
    unfold loadHeaders
    apply wp_call (wp_of_noStop (wp_sysLseek off (by omega) hlt))
    rintro _ _ rfl
    apply wp_call (wp_fileRead_present he (by simp; omega))
    rintro _ r ⟨rfl, hr, -⟩
    replace hr : Effect (heapPages e) s r [] :=
      ⟨hr.content, hr.fresh, hr.mapped, hr.file, hr.there, hr.new⟩
    dsimp only [Option.getD_some]
    set data := (s.content.drop off).take 32 with hdata
    have hlen : data.length = 32 := by
      rw [hdata, List.length_take, List.length_drop]
      omega
    rw [if_neg (by simp [hlen])]
    have hmod : (off + 32) % 2 ^ 32 = off + 32 := Nat.mod_eq_of_lt (by omega)
    rw [hmod]
    have htable : table s.content (left + 1) off = header data :: table s.content left (off + 32) :=
      rfl
    rw [htable] at hfits ⊢
    by_cases hl : (header data).type = ptLoad
    · have hcons : loads (header data :: table s.content left (off + 32)) =
          header data :: loads (table s.content left (off + 32)) := by
        unfold loads
        rw [List.filter_cons_of_pos (by simpa using hl)]
      have hfirst : header data ∈ loads (header data :: table s.content left (off + 32)) := by
        rw [hcons]
        exact List.mem_cons_self
      have hap := hfits.apart
      rw [hcons] at hap ⊢
      have hpres : Present r (header data) := by
        unfold Present
        rw [hr.content]
        exact hfits.present _ hfirst
      rw [if_pos hl]
      apply wp_call (wp_segmentLoad he hpres (by rwa [hr.content]))
      intro ok r' hr'
      cases ok with
      | false => exact wp_pure.mpr (by simp)
      | true =>
        have hone : OneLoaded (heapPages e) s r' (header data) :=
          ⟨hr.after (hr' rfl).effect, (hr' rfl).pages⟩
        have hc : r'.content = s.content := hone.effect.content
        rw [if_pos rfl]
        have hrest := ih (off + 32) r' (by rw [hc]; omega) (by rwa [hc])
          (by rw [hc]; exact hfits.tail hc)
        rw [hc] at hrest
        refine wp_mono hrest fun _ _ h ht =>
          .cons hone (h ht) (hfits.clear _ hfirst) fun g hg a hin hin' => ?_
        obtain h' | h' := List.rel_of_pairwise_cons hap hg <;>
          (unfold InFile at hin hin'; omega)
    · rw [if_neg hl, wp_pure_bind, if_pos rfl]
      have hcons : loads (header data :: table s.content left (off + 32)) =
          loads (table s.content left (off + 32)) := by
        unfold loads
        rw [List.filter_cons_of_neg (by simpa using hl)]
      rw [hcons]
      have hc : r.content = s.content := hr.content
      have hrest := ih (off + 32) r (by rw [hc]; omega) (by rwa [hc])
        (by rw [hc]; exact hfits.tail hc)
      rw [hc] at hrest
      exact wp_mono hrest fun _ _ h ht => hr.after (h ht)

theorem field_take {n : ℕ} : ∀ len off, off + len ≤ n →
    field (c.take n) off len = field c off len := by
  intro len
  induction len with
  | zero => exact fun _ _ => rfl
  | succ len ih =>
    intro off hoff
    have hget : (c.take n).getD off 0 = c.getD off 0 := by
      rw [List.getD_eq_getElem?_getD, List.getElem?_take_of_lt (by omega),
        List.getD_eq_getElem?_getD]
    unfold field
    rw [hget, ih (off + 1) (by omega)]

/-- A call that does not return -1 has loaded all segments, if they are in the file. -/
theorem wp_load (he : Ample e) (h : Loadable s) (hclear : Clear e s)
    (hp : ∀ g ∈ segments s.content, Present s g) :
    wp anyStop e load (fun ret r => ret ≠ -1 → Effect (heapPages e) s r (segments s.content))
      s := by
  unfold load
  by_cases hlen : s.content.length < 52
  · -- the header is not there
    apply wp_call wp_fileRead
    rintro d r ⟨-, hd, -⟩
    have hshort : (d.getD []).length ≠ 52 := by
      obtain rfl | ⟨rfl, -⟩ := hd
      · simp
      · simp only [Option.getD_some, List.length_take, List.length_drop]
        omega
    dsimp only
    rw [if_pos hshort]
    exact wp_pure.mpr fun hc => absurd rfl hc
  · apply wp_call (wp_fileRead_present he (by rw [h.pos]; omega))
    rintro _ r ⟨rfl, hr, -⟩
    dsimp only [Option.getD_some]
    rw [h.pos, List.drop_zero]
    have hl : (s.content.take 52).length = 52 := by
      rw [List.length_take]
      omega
    rw [if_neg (by simp [hl])]
    apply wp_ite
    · exact fun _ => wp_pure.mpr fun hc => absurd rfl hc
    intro _
    rw [field_take 2 44 (by omega), field_take 4 28 (by omega)]
    have hsize := h.size
    have hc : r.content = s.content := hr.content
    have hfits : Fits (heapPages e) r
        (table r.content (field s.content 44 2) (field s.content 28 4)) := by
      rw [hc]
      refine ⟨fun g hg => ?_, fun g hg i hi => hclear g hg i (by omega), h.apart⟩
      unfold Present
      rw [hc]
      exact hp g hg
    have hload := wp_loadHeaders he (field s.content 44 2) (field s.content 28 4) r
      (by rw [hc]; exact h.table) (by rw [hc]; omega) hfits
    rw [hc] at hload
    apply wp_call hload
    intro ok r' hr'
    cases ok with
    | false => exact wp_pure.mpr fun hc => absurd rfl hc
    | true => exact wp_pure.mpr fun _ => hr.after (hr' rfl)

end Specs

section Law

instance : Std.Symm Apart := ⟨fun _ _ h => h.elim .inr .inl⟩

/-- The rest of a segment lies in no file part. -/
theorem rest_not_inFile {i : ℕ} (hap : gs.Pairwise Apart) (hg : g ∈ gs) (hi : g.filesz ≤ i)
    (him : i < g.memsz) : ∀ g' ∈ gs, ¬InFile g' (g.vaddr + i) := by
  intro g' hg' hin
  unfold InFile at hin
  by_cases heq : g' = g
  · subst heq
    omega
  · have h : Apart g' g := hap.forall hg' hg heq
    unfold Apart at h
    omega

/-- What the rest of a segment shows, on pages that are mapped now. -/
theorem Effect.rest {a : ℕ} (h : Effect H s s' gs) (ha : a / 4096 ∉ H)
    (hout : ∀ g ∈ gs, ¬InFile g a) (hm : s'.mapped (a / 4096) = true) :
    s'.bytes a = s.shows a := by
  unfold shows
  by_cases ht : s.mapped (a / 4096) = true
  · rw [if_pos ht, h.there a ha hout ht]
  · rw [if_neg ht, h.new a ha hout ht hm]

theorem Effect.loaded_iff (h : Effect (heapPages e) s s' (segments s.content)) (hs : Loadable s)
    (hclear : Clear e s) (hg : g ∈ segments s.content) (hp : Present s g) :
    Loaded s s' g ↔ Prepared s g := by
  have hH : ∀ i < g.memsz, (g.vaddr + i) / 4096 ∉ heapPages e :=
    fun i hi => hclear g hg i (by omega)
  have hrest : ∀ i, g.filesz ≤ i → i < g.memsz → s'.mapped ((g.vaddr + i) / 4096) = true →
      s'.bytes (g.vaddr + i) = s.shows (g.vaddr + i) := fun i hi him hm =>
    h.rest (hH i him) (rest_not_inFile hs.apart hg hi him) hm
  constructor
  · intro hl
    refine ⟨hp, fun i hi => (h.mapped _ (hH i hi)).mp (hl.mapped i hi), fun i hi him => ?_⟩
    rw [← hrest i hi him (hl.mapped i him)]
    exact hl.zero i hi him
  · intro hl
    have hm : ∀ i < g.memsz, s'.mapped ((g.vaddr + i) / 4096) = true := fun i hi =>
      (h.mapped _ (hH i hi)).mpr (hl.mapped i hi)
    refine ⟨hp, hm, h.file g hg, fun i hi him => ?_⟩
    rw [hrest i hi him (hm i him)]
    exact hl.zero i hi him

/-- All blocks of the heap are on page 8, which the first call adds to it. -/
def lowHeap : HeapCalls := fun t =>
  some ⟨if t = 0 then some 8 else none, fun a => if a / 4096 = 8 then some 0 else none⟩

theorem heapPages_lowHeap {p : ℕ} (h : p ∈ heapPages lowHeap) : p = 8 := by
  obtain ⟨t, c, hc, h⟩ := h
  obtain rfl := Option.some.inj hc
  obtain hp | ⟨a, rfl, ha⟩ := h
  · dsimp only at hp
    split_ifs at hp
    exact (Option.some.inj hp).symm
  · by_contra hne
    exact ha (if_neg hne)

/-- A file of 84 bytes with one segment, which takes `filesz` bytes from its beginning to
address `0x10000`. -/
def oneSegment (filesz : UInt8) : Image where
  content := [127, 69, 76, 70, 1, 1, 1, 0, 0, 0, 0, 0, 0, 0, 0, 0, 2, 0, 3, 0, 1, 0, 0, 0,
    0, 0, 1, 0, 52, 0, 0, 0, 0, 0, 0, 0, 0, 0, 0, 0, 52, 0, 32, 0, 1, 0, 0, 0, 0, 0, 0, 0,
    1, 0, 0, 0, 0, 0, 0, 0, 0, 0, 1, 0, 0, 0, 0, 0, filesz, 0, 0, 0, filesz, 0, 0, 0,
    5, 0, 0, 0, 0, 16, 0, 0]
  fdPos := 0
  mapped _ := false
  bytes _ := 0
  fresh _ := 165
  frames := 10

theorem oneSegment_segments (filesz : UInt8) :
    segments (oneSegment filesz).content = [⟨1, 0, 0x10000, filesz.toNat, filesz.toNat⟩] := by
  simp [segments, table, loads, oneSegment, field, header, ptLoad]

theorem oneSegment_loadable (filesz : UInt8) : Loadable (oneSegment filesz) := by
  have hlt := filesz.toNat_lt
  refine ⟨rfl, ?_, ?_, ?_, ?_⟩
  · simp [oneSegment]
  · simp [oneSegment, field]
  · intro g hg
    rw [oneSegment_segments] at hg
    obtain rfl : g = _ := by simpa using hg
    simp only [max_self]
    omega
  · rw [oneSegment_segments]
    exact List.pairwise_singleton _ _

theorem oneSegment_clear (filesz : UInt8) : Clear lowHeap (oneSegment filesz) := by
  intro g hg i _ hp
  rw [oneSegment_segments] at hg
  obtain rfl : g = _ := by simpa using hg
  have hpage := heapPages_lowHeap hp
  simp only at hpage
  omega

end Law

end Gogoos.Image
