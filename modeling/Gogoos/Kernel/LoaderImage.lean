import Gogoos.Kernel.ExecRun
import Gogoos.Kernel.LoaderRun
import Gogoos.Logic.Simulate

/-!
# The loader and the image

`Loader` and `Image` are two pictures of one process. When the loader returns, so does the image,
with the same result and the same pages, and every byte that has changed away from the heap was
stored by the loader.
-/

namespace Gogoos.Loader

open Program
open Image (header field Acceptable ptLoad heapPages)

variable {e : HeapCalls} {s₀ s : Image} {l r : Loader} {n t a dst buf count offset : ℕ}

section Pictures

/-- What a call of `sysMalloc` adds to the heap and where it stores. -/
def grantOf (c : HeapCall) : Grant := ⟨c.page.toList, fun a => (c.bytes a).isSome⟩

/-- The heap grows in user space. -/
def GrowsInUser (e : HeapCalls) : Prop :=
  ∀ t c p, e t = some c → c.page = some p → userPage p = true

/-- The loader `l` and the image `s`, which began as `s₀`, show one process, for which the next `n`
calls of `sysMalloc` are the same. -/
structure Depicts (e : HeapCalls) (s₀ : Image) (n : ℕ) (l : Loader) (s : Image) (t : ℕ) :
    Prop where
  content : s.content = s₀.content
  file : l.content = s₀.content
  pos : l.fdPos = s.fdPos
  le : s.fdPos ≤ s₀.content.length
  mapped : l.mapped = s.mapped
  frames : l.frames = s.frames
  heap : ∀ k < n, (e (t + k)).map grantOf = l.heap.getD k none
  stored : ∀ a, a / 4096 ∉ heapPages e → s.shows a ≠ s₀.shows a → l.stored a = true

/-- Bytes were stored, and nothing else was done but moving in the file. -/
structure Kept (l r : Loader) : Prop where
  content : r.content = l.content
  mapped : r.mapped = l.mapped
  frames : r.frames = l.frames
  heap : r.heap = l.heap
  stored : ∀ a, l.stored a = true → r.stored a = true

/-- The addresses from `dst` on were stored to. -/
def Filled (l : Loader) (dst n : ℕ) : Prop :=
  dst + n ≤ 2 ^ 32 → ∀ i < n, l.mapped ((dst + i) / 4096) = true ∧ l.stored (dst + i) = true

theorem Kept.refl : Kept l l := ⟨rfl, rfl, rfl, rfl, fun _ h => h⟩

theorem Kept.trans {l' : Loader} (h : Kept l r) (h' : Kept r l') : Kept l l' :=
  ⟨h'.content.trans h.content, h'.mapped.trans h.mapped, h'.frames.trans h.frames,
    h'.heap.trans h.heap, fun a ha => h'.stored a (h.stored a ha)⟩

theorem Filled.append {m : ℕ} (h : Filled l dst n) (hk : Kept l r)
    (h' : Filled r ((dst + n) % 2 ^ 32) m) : Filled r dst (n + m) := by
  intro hle i hi
  by_cases hin : i < n
  · obtain ⟨hm, hs⟩ := h (by omega) i hin
    exact ⟨hk.mapped ▸ hm, hk.stored _ hs⟩
  · rw [Nat.mod_eq_of_lt (by omega)] at h'
    have := h' (by omega) (i - n) (by omega)
    rwa [show dst + n + (i - n) = dst + i by omega] at this

theorem Depicts.fewer {k : ℕ} (h : Depicts e s₀ n l s t) (hk : k ≤ n) : Depicts e s₀ k l s t :=
  { h with heap := fun j hj => h.heap j (by omega) }

theorem Depicts.kept {pos : ℕ} (h : Depicts e s₀ n l s t) (hk : Kept l r) (hpos : r.fdPos = pos)
    (hle : pos ≤ s₀.content.length) : Depicts e s₀ n r { s with fdPos := pos } t :=
  ⟨h.content, hk.content.trans h.file, hpos, hle, hk.mapped.trans h.mapped,
    hk.frames.trans h.frames, hk.heap ▸ h.heap, fun a ha hne => hk.stored a (h.stored a ha hne)⟩

theorem shows_grow {c : HeapCall} (hc : e t = some c) (ha : a / 4096 ∉ heapPages e) :
    (s.grow c).shows a = s.shows a := by
  have hpage : c.page ≠ some (a / 4096) := fun hp => ha ⟨t, c, hc, .inl hp⟩
  have hbyte : c.bytes a = none := by
    by_contra hne
    exact ha ⟨t, c, hc, .inr ⟨a, rfl, hne⟩⟩
  simp [Image.shows, Image.grow, hpage, hbyte]

theorem shows_mapPage {page : ℕ} (hm : s.mapped page = false) :
    (s.mapPage page).shows a = s.shows a := by
  by_cases hp : a / 4096 = page
  · simp [Image.shows, Image.mapPage, hp, hm]
  · simp [Image.shows, Image.mapPage, hp]

theorem shows_write {data : List UInt8} (hne : (s.write dst data).shows a ≠ s.shows a) :
    dst ≤ a ∧ a < dst + data.length := by
  by_contra hout
  exact hne (by simp [Image.shows, Image.write, hout])

/-- The block is given in both pictures. -/
theorem Depicts.grow {c : HeapCall} {g : Grant} {heap : List (Option Grant)}
    (hu : GrowsInUser e) (h : Depicts e s₀ (n + 1) l s t) (hc : e t = some c)
    (hg : l.heap = some g :: heap) :
    Depicts e s₀ n { l.grant g with heap := heap } (s.grow c) (t + 1) := by
  have hfirst := h.heap 0 (by omega)
  rw [Nat.add_zero, hc, hg] at hfirst
  obtain rfl : grantOf c = g := by simpa using hfirst
  refine ⟨h.content, h.file, h.pos, h.le, ?_, ?_, ?_, ?_⟩
  · funext p
    by_cases hp : c.page = some p
    · have huser := hu t c p hc hp
      cases hm : s.mapped p <;>
        simp [Loader.grant, added, grantOf, Image.grow, h.mapped, hp, huser, hm]
    · simp [Loader.grant, added, grantOf, Image.grow, h.mapped, hp]
  · cases hp : c.page <;> simp [Loader.grant, grantOf, Image.grow, h.frames, hp]
  · intro k hk
    have := h.heap (k + 1) (by omega)
    rw [hg] at this
    rw [show t + 1 + k = t + (k + 1) by omega]
    simpa using this
  · intro a ha hne
    rw [shows_grow hc ha] at hne
    simp [Loader.grant, h.stored a ha hne]

end Pictures

section Calls

theorem matched_sysMalloc (hu : GrowsInUser e) (h : Depicts e s₀ (n + 1) l s t) :
    Matched () e sysMalloc Image.sysMalloc
      (fun a b r s' t' => a = b ∧ Depicts e s₀ n r s' t' ∧ s'.fdPos = s.fdPos) l s t := by
  have hfirst := h.heap 0 (by omega)
  rw [Nat.add_zero] at hfirst
  unfold sysMalloc Image.sysMalloc
  apply matched_get_bind
  apply Matched.skip rfl
  dsimp only
  cases hc : e t with
  | none =>
    rw [hc, Option.map_none] at hfirst
    cases hl : l.heap with
    | nil =>
      refine matched_pure ⟨rfl, ⟨h.content, h.file, h.pos, h.le, h.mapped, h.frames,
        fun k hk => ?_, h.stored⟩, rfl⟩
      rw [show t + 1 + k = t + (k + 1) by omega, h.heap (k + 1) (by omega), hl]
      rfl
    | cons g heap =>
      rw [hl] at hfirst
      obtain rfl : none = g := by simpa using hfirst
      apply matched_modify_bind
      refine matched_pure ⟨rfl, ⟨h.content, h.file, h.pos, h.le, h.mapped, h.frames,
        fun k hk => ?_, h.stored⟩, rfl⟩
      rw [show t + 1 + k = t + (k + 1) by omega, h.heap (k + 1) (by omega), hl]
      rfl
  | some c =>
    rw [hc, Option.map_some] at hfirst
    cases hl : l.heap with
    | nil => simp [hl] at hfirst
    | cons g heap =>
      rw [hl] at hfirst
      obtain rfl : some (grantOf c) = g := by simpa using hfirst
      apply matched_modify_bind
      apply Matched.skip rfl
      exact matched_pure ⟨rfl, h.grow hu hc hl, rfl⟩

theorem wp_storeBytes_filled : ∀ count dst l, wp anyStop () (storeBytes count dst)
    (fun _ r => Kept l r ∧ r.fdPos = l.fdPos ∧ Filled r dst count) l := by
  intro count
  induction count with
  | zero => exact fun dst l => wp_pure.mpr ⟨.refl, rfl, fun _ i hi => absurd hi (by omega)⟩
  | succ count ih =>
    intro dst l
    unfold storeBytes
    rw [wp_get_bind, wp_assert_bind]
    refine ⟨fun hm => ?_, fun _ => trivial⟩
    rw [wp_modify_bind]
    have hk : Kept l (l.store dst) :=
      ⟨rfl, rfl, rfl, rfl, fun a ha => by simp [store, ha]⟩
    have hone : Filled (l.store dst) dst 1 := by
      intro _ i hi
      obtain rfl : i = 0 := by omega
      exact ⟨hm, by simp [store]⟩
    refine wp_mono (ih _ _) ?_
    rintro _ r ⟨hk', hfd, hf⟩
    refine ⟨hk.trans hk', hfd, ?_⟩
    rw [Nat.add_comm]
    exact hone.append hk' hf

theorem wp_readSectors_filled {inFile : Bool} : ∀ rounds sizeLeft dst l, sizeLeft ≤ rounds →
    l.fdPos + sizeLeft < 2 ^ 32 → wp anyStop () (readSectors inFile rounds sizeLeft dst)
      (fun _ r => Kept l r ∧ r.fdPos = l.fdPos + sizeLeft ∧ Filled r dst sizeLeft) l := by
  intro rounds
  induction rounds with
  | zero =>
    intro sizeLeft dst l hle _
    obtain rfl : sizeLeft = 0 := by omega
    exact wp_pure.mpr ⟨.refl, rfl, fun _ i hi => absurd hi (by omega)⟩
  | succ rounds ih =>
    intro sizeLeft dst l hle hpos
    unfold readSectors
    apply wp_ite
    · rintro rfl
      exact wp_pure.mpr ⟨.refl, rfl, fun _ i hi => absurd hi (by omega)⟩
    intro hne
    rw [wp_get_bind, wp_assert_bind]
    refine ⟨fun _ => ?_, fun _ => trivial⟩
    dsimp only
    set chunkSize := min sizeLeft (512 - l.fdPos % 512) with hchunk
    apply wp_call (wp_storeBytes_filled chunkSize dst l)
    rintro _ r ⟨hk, hfd, hf⟩
    rw [wp_modify_bind, hfd, Nat.mod_eq_of_lt (by omega : l.fdPos + chunkSize < 2 ^ 32)]
    have hmoved : Kept r { r with fdPos := l.fdPos + chunkSize } :=
      ⟨rfl, rfl, rfl, rfl, fun _ ha => ha⟩
    refine wp_mono (ih (sizeLeft - chunkSize) _ _ (by omega) (by dsimp only; omega)) ?_
    rintro _ r' ⟨hk', hfd', hf'⟩
    refine ⟨hk.trans (hmoved.trans hk'), ?_, ?_⟩
    · dsimp only at hfd'
      omega
    · have hall := hf.append (hmoved.trans hk') hf'
      rwa [show chunkSize + (sizeLeft - chunkSize) = sizeLeft by omega] at hall

/-- What a read delivers in the two pictures. -/
def SameRead (c : List UInt8) (pos buf count : ℕ) (a : Option ℕ) (b : Option (List UInt8))
    (r : Loader) : Prop :=
  (a = none ∧ b = none) ∨ ∃ size ≤ count, a = some size ∧ pos + size ≤ c.length ∧
    b = some ((c.drop pos).take size) ∧ Filled r buf size

theorem readCount_eq (hle : s.fdPos ≤ s.content.length) (hlen : s.content.length < 2 ^ 32)
    (hcount : s.fdPos + count < 2 ^ 32) : readCount s.content.length s.fdPos count =
      if s.fdPos + count > s.content.length ∧ s.readSize count = 0 then none
      else some (s.readSize count) := by
  unfold readCount Image.readSize
  rw [Nat.mod_eq_of_lt hcount,
    show s.content.length + 2 ^ 32 - s.fdPos = (s.content.length - s.fdPos) + 2 ^ 32 by omega,
    Nat.add_mod_right, Nat.mod_eq_of_lt (by omega : s.content.length - s.fdPos < 2 ^ 32)]
  by_cases hover : s.fdPos + count > s.content.length
  · simp only [hover, true_and, if_true]
  · rw [if_neg hover, if_neg hover, if_neg fun hc => hover hc.1]

theorem matched_fileRead (hu : GrowsInUser e) (h : Depicts e s₀ (n + 2) l s t)
    (hlen : s₀.content.length < 2 ^ 32) (hcount : s.fdPos + count < 2 ^ 32) :
    Matched () e (fileRead buf count) (Image.fileRead count) (fun a b r s' t' =>
      Depicts e s₀ n r s' t' ∧ SameRead s₀.content s.fdPos buf count a b r) l s t := by
  have hread := readCount_eq (h.content ▸ h.le) (h.content ▸ hlen) hcount
  unfold fileRead Image.fileRead
  apply matched_get_bind
  apply Matched.skip rfl
  rw [h.file, h.pos, ← h.content, hread]
  change Matched () e _ (if s.fdPos + count > s.content.length ∧ s.readSize count = 0 then _
    else _) _ l s t
  by_cases hend : s.fdPos + count > s.content.length ∧ s.readSize count = 0
  · rw [if_pos hend, if_pos hend]
    exact matched_pure ⟨h.fewer (by omega), .inl ⟨rfl, rfl⟩⟩
  rw [if_neg hend, if_neg hend]
  have hsize : s.readSize count ≤ count ∧ s.fdPos + s.readSize count ≤ s.content.length := by
    have hle := h.content ▸ h.le
    unfold Image.readSize
    split_ifs <;> omega
  apply (matched_sysMalloc hu h).bind
  rintro a _ r s' t' ⟨rfl, hr, hpos⟩
  apply Matched.ite Iff.rfl
  · intro _
    apply (matched_sysMalloc hu hr).bind
    rintro a _ r' s'' t'' ⟨rfl, hr', hpos'⟩
    apply Matched.ite Iff.rfl
    · intro _
      apply matched_assert_bind
      intro hg
      rw [Nat.mod_eq_of_lt (by omega)] at hg
      have hfd : r'.fdPos = s.fdPos := hr'.pos.trans (hpos'.trans hpos)
      have hle : s.fdPos + s.readSize count ≤ s₀.content.length := h.content ▸ hsize.2
      apply Matched.call (wp_readSectors_filled _ _ buf r' le_rfl (by omega))
      rintro _ r'' ⟨hk, hfd', hf⟩
      apply Matched.assert hg
      apply Matched.skip rfl
      refine matched_pure ⟨hr'.kept hk ?_ ?_, .inr ⟨_, hsize.1, rfl, hsize.2, rfl, hf⟩⟩
      · change r''.fdPos = s''.fdPos + s.readSize count
        omega
      · change s''.fdPos + s.readSize count ≤ s₀.content.length
        omega
    · exact fun _ => matched_pure ⟨hr'.fewer (by omega), .inl ⟨rfl, rfl⟩⟩
  · exact fun _ => matched_pure ⟨hr.fewer (by omega), .inl ⟨rfl, rfl⟩⟩

/-- A read into a variable of `load`. -/
theorem matched_sysRead (hu : GrowsInUser e) (h : Depicts e s₀ (n + 2) l s t)
    (hlen : s₀.content.length < 2 ^ 32) (hcount : s.fdPos + count < 2 ^ 32) :
    Matched () e (sysRead buf count) (Image.fileRead count) (fun a b r s' t' =>
      Depicts e s₀ n r s' t' ∧ SameRead s₀.content s.fdPos buf count a b r) l s t := by
  unfold sysRead
  exact matched_assert_bind fun _ => matched_fileRead hu h hlen hcount

theorem Depicts.write {data : List UInt8} (h : Depicts e s₀ n l s t)
    (hs : ∀ i < data.length, l.stored (dst + i) = true) :
    Depicts e s₀ n l (s.write dst data) t := by
  refine ⟨h.content, h.file, h.pos, h.le, h.mapped, h.frames, h.heap,
    fun a ha hne => ?_⟩
  by_cases hin : (s.write dst data).shows a = s.shows a
  · rw [hin] at hne
    exact h.stored a ha hne
  · obtain ⟨hle, hlt⟩ := shows_write hin
    have hst := hs (a - dst) (by omega)
    rwa [show dst + (a - dst) = a by omega] at hst

/-- A read into user memory. -/
theorem matched_readUser (hu : GrowsInUser e) (h : Depicts e s₀ (n + 2) l s t)
    (hlen : s₀.content.length < 2 ^ 32) (hcount : s.fdPos + count < 2 ^ 32)
    (hbuf : buf + count ≤ 2 ^ 32) :
    Matched () e (sysRead buf count) (Image.readUser buf count) (fun _ _ r s' t' =>
      Depicts e s₀ n r s' t') l s t := by
  unfold sysRead Image.readUser
  apply matched_assert_bind
  intro hne
  apply Matched.assert hne
  apply (matched_fileRead hu h hlen hcount).tail
  rintro a b r s' t' ⟨hr, ⟨rfl, rfl⟩ | ⟨size, hle, rfl, hin, rfl, hf⟩⟩
  · exact matched_pure hr
  have hsize : ((s₀.content.drop s.fdPos).take size).length = size := by
    rw [List.length_take, List.length_drop]
    omega
  have hall := hf (by omega)
  dsimp only
  apply Matched.skip rfl
  rw [← hr.mapped]
  apply Matched.assert
  · intro i hi
    exact (hall i (hsize ▸ hi)).1
  · apply Matched.skip rfl
    exact matched_pure (hr.write fun i hi => (hall i (hsize ▸ hi)).2)

theorem matched_sysLseek (h : Depicts e s₀ n l s t) :
    Matched () e (sysLseek offset) (Image.sysLseek offset) (fun _ _ r s' t' =>
      Depicts e s₀ n r s' t' ∧ s'.fdPos = seek s₀.content s.fdPos offset) l s t := by
  have hle : seek s₀.content s.fdPos offset ≤ s₀.content.length := seek_le h.le
  have hseek : seek l.content l.fdPos offset = seek s₀.content s.fdPos offset := by
    rw [h.file, h.pos]
  have hmoved : Kept l { l with fdPos := seek l.content l.fdPos offset } :=
    ⟨rfl, rfl, rfl, rfl, fun _ ha => ha⟩
  have hr := h.kept hmoved hseek hle
  refine wp_modify.mpr ?_
  by_cases hc : offset < 2 ^ 31 ∧ offset < s.content.length
  · have hto : seek s₀.content s.fdPos offset = offset := if_pos (h.content ▸ hc)
    refine ⟨offset, t, { s with fdPos := offset }, ?_, ?_⟩
    · unfold Image.sysLseek
      change (if offset < 2 ^ 31 ∧ offset < s.content.length then _ else _ : ImageM ℤ) e t s = _
      rw [if_pos hc]
      rfl
    · rw [hto] at hr
      exact ⟨hr, hto.symm⟩
  · have hto : seek s₀.content s.fdPos offset = s.fdPos := if_neg (h.content ▸ hc)
    refine ⟨-1, t, s, ?_, ?_⟩
    · unfold Image.sysLseek
      change (if offset < 2 ^ 31 ∧ offset < s.content.length then _ else _ : ImageM ℤ) e t s = _
      rw [if_neg hc]
      rfl
    · rw [hto] at hr
      exact ⟨hr, hto.symm⟩

end Calls

section Load

variable {vaddr fileSize : ℕ}

theorem matched_getOnePage {page : ℕ} (h : Depicts e s₀ n l s t) :
    Matched () e (getOnePage page) (Image.getOnePage page) (fun a b r s' t' => a = b ∧
      Depicts e s₀ n r s' t' ∧ (a = true → s'.mapped page = true)) l s t := by
  have hbit : Depicts e s₀ n (l.mark page) s t :=
    ⟨h.content, h.file, h.pos, h.le, h.mapped, h.frames, h.heap, h.stored⟩
  unfold getOnePage Image.getOnePage
  apply matched_modify_bind
  apply matched_get_bind
  apply Matched.skip rfl
  rw [hbit.frames, hbit.mapped]
  apply Matched.ite Iff.rfl
  · exact fun _ => matched_pure ⟨rfl, hbit, by simp⟩
  intro _
  apply matched_assert_bind
  intro hfree
  apply Matched.assert hfree
  apply matched_modify_bind
  apply Matched.skip rfl
  refine matched_pure ⟨rfl, ⟨h.content, h.file, h.pos, h.le, ?_, ?_, h.heap, ?_⟩, ?_⟩
  · funext p
    simp [Loader.mapPage, Image.mapPage, hbit.mapped]
  · simp [Loader.mapPage, Image.mapPage, hbit.frames]
  · intro a ha hne
    rw [shows_mapPage hfree] at hne
    exact h.stored a ha hne
  · intro _
    simp [Image.mapPage]

theorem matched_mapSegment (h : Depicts e s₀ n l s t) :
    Matched () e (mapSegment vaddr (occupyPages fileSize vaddr) (vaddr / 4096))
      (Image.mapSegment vaddr (Image.occupyPages fileSize vaddr) (vaddr / 4096))
      (fun a b r s' t' => a = b ∧ Depicts e s₀ n r s' t') l s t := by
  have hthere : ∀ {left page left' page' l s t}, Depicts e s₀ n l s t →
      s.mapped (vaddr / 4096) = true →
      Matched () e (mapSegment vaddr left page) (Image.mapSegment vaddr left' page')
        (fun a b r s' t' => a = b ∧ Depicts e s₀ n r s' t') l s t := by
    intro left page left' page' l s t h hm t'
    rw [mapSegment_mapped (h.mapped ▸ hm)]
    exact ⟨true, t, s, Image.mapSegment_mapped hm _ _ t, rfl, h⟩
  by_cases hm : s.mapped (vaddr / 4096) = true
  · exact hthere h hm
  obtain ⟨k, hk⟩ := occupyPages_pos fileSize vaddr
  obtain ⟨j, hj⟩ := Image.occupyPages_pos fileSize vaddr
  rw [hk, hj]
  unfold mapSegment Image.mapSegment
  apply matched_get_bind
  apply Matched.skip rfl
  rw [h.mapped, if_neg hm, if_neg hm]
  apply (matched_getOnePage h).bind
  rintro a _ r s' t' ⟨rfl, hr, hnow⟩
  apply Matched.ite Iff.rfl
  · exact fun ha => hthere hr (hnow ha)
  · exact fun _ => matched_pure ⟨rfl, hr⟩

theorem matched_segmentLoad (hu : GrowsInUser e) (h : Depicts e s₀ (n + 2) l s t)
    (hsize : s₀.content.length + fileSize < 2 ^ 32) (hvaddr : vaddr + fileSize ≤ 2 ^ 32) :
    Matched () e (segmentLoad offset fileSize vaddr) (Image.segmentLoad offset fileSize vaddr)
      (fun a b r s' t' => a = b ∧ Depicts e s₀ n r s' t') l s t := by
  unfold segmentLoad Image.segmentLoad
  apply (matched_mapSegment h).bind
  rintro a _ r s' t' ⟨rfl, hr⟩
  apply Matched.ite Iff.rfl
  · intro _
    apply (matched_sysLseek hr).bind
    rintro _ _ r' s'' t'' ⟨hr', -⟩
    have hle := hr'.le
    apply (matched_readUser hu hr' (by omega) (by omega) hvaddr).bind
    exact fun _ _ _ _ _ hend => matched_pure ⟨rfl, hend⟩
  · exact fun _ => matched_pure ⟨rfl, hr.fewer (by omega)⟩

/-- What a read into a variable of `load` delivers is all there or it is not, in both pictures. -/
theorem SameRead.whole_iff {c : List UInt8} {pos : ℕ} {x : Option ℕ} {y : Option (List UInt8)}
    (h : SameRead c pos buf count x y r) (hcount : 0 < count) :
    x ≠ some count ↔ (y.getD []).length ≠ count := by
  obtain ⟨rfl, rfl⟩ | ⟨size, -, rfl, hin, rfl, -⟩ := h
  · simp
    omega
  · simp only [Option.getD_some, List.length_take, List.length_drop, ne_eq, Option.some.injEq]
    omega

theorem SameRead.data {c : List UInt8} {pos : ℕ} {y : Option (List UInt8)}
    (h : SameRead c pos buf count (some count) y r) : y = some ((c.drop pos).take count) := by
  obtain ⟨hn, -⟩ | ⟨size, -, hs, -, rfl, -⟩ := h
  · simp at hn
  · rw [Option.some.inj hs]

theorem matched_loadHeaders (hu : GrowsInUser e) (hsize : s₀.content.length < 140 * 512) :
    ∀ left off n l s t, Depicts e s₀ (n + 4 * left) l s t →
      off + 32 * left ≤ s₀.content.length →
      (∀ g ∈ Image.table s₀.content left off, g.type = ptLoad →
        g.vaddr + g.filesz ≤ 0xc0000000) →
      Matched () e (loadHeaders left off) (Image.loadHeaders left off)
        (fun a b r s' t' => a = b ∧ Depicts e s₀ n r s' t') l s t := by
  intro left
  induction left with
  | zero => exact fun _ _ _ _ _ h _ _ => matched_pure ⟨rfl, h⟩
  | succ left ih =>
    intro off n l s t h hoff hsegs
    unfold loadHeaders Image.loadHeaders
    apply matched_get_bind
    apply Matched.call (wp_storeBytes_filled _ _ l)
    rintro _ l₁ ⟨hk, hfd, -⟩
    have h₁ : Depicts e s₀ (n + 4 * (left + 1)) l₁ s t := h.kept hk (hfd.trans h.pos) h.le
    apply (matched_sysLseek h₁).bind
    rintro _ _ l₂ s₂ t₂ ⟨h₂, hseek⟩
    have hpos : s₂.fdPos = off := hseek.trans (if_pos ⟨by omega, by omega⟩)
    apply matched_get_bind
    apply (matched_sysRead hu (h₂.fewer (k := n + 4 * left + 2 + 2) (by omega)) (by omega)
      (by omega)).bind
    rintro x y l₃ s₃ t₃ ⟨h₃, hread⟩
    apply Matched.ite (hread.whole_iff (by omega))
    · exact fun _ => matched_pure ⟨rfl, h₃.fewer (by omega)⟩
    intro hx
    obtain rfl : x = some 32 := not_not.mp hx
    obtain rfl := hread.data
    dsimp only [Option.getD_some]
    rw [h₂.pos, h₂.file, hpos]
    have hrest : ∀ {ok l₄ s₄ t₄}, Depicts e s₀ (n + 4 * left) l₄ s₄ t₄ →
        Matched () e (if ok = true then loadHeaders left ((off + 32) % 2 ^ 32) else pure false)
          (if ok = true then Image.loadHeaders left ((off + 32) % 2 ^ 32) else pure false)
          (fun a b r s' t' => a = b ∧ Depicts e s₀ n r s' t') l₄ s₄ t₄ := by
      intro ok l₄ s₄ t₄ h₄
      apply Matched.ite Iff.rfl
      · intro _
        rw [Nat.mod_eq_of_lt (by omega : off + 32 < 2 ^ 32)]
        exact ih (off + 32) n l₄ s₄ t₄ h₄ (by omega)
          fun g hg => hsegs g (List.mem_cons_of_mem _ hg)
      · exact fun _ => matched_pure ⟨rfl, h₄.fewer (by omega)⟩
    apply Matched.ite Iff.rfl
    · intro ht
      have hfits := hsegs (headerAt s₀.content off) List.mem_cons_self ht
      apply (matched_segmentLoad hu h₃ (by omega) (by omega)).bind
      rintro ok _ l₄ s₄ t₄ ⟨rfl, h₄⟩
      exact hrest h₄
    · exact fun _ => Matched.skip rfl (hrest (h₃.fewer (by omega)))

/-- `load` asks the heap for two blocks, and for four more with each of at most 1024 headers. -/
def loadCalls : ℕ := 2 + 4 * 1024

theorem matched_load (hu : GrowsInUser e) (hs : s.Loadable) (h : Depicts e s loadCalls l s t) :
    Matched () e load Image.load (fun v w r s' t' => v = w ∧ Depicts e s 0 r s' t') l s t := by
  have hsize := hs.size
  have hzero := hs.pos
  unfold load Image.load
  apply matched_get_bind
  apply Matched.call (wp_storeBytes_filled _ _ l)
  rintro _ l₁ ⟨hk, hfd, -⟩
  have h₁ : Depicts e s loadCalls l₁ s t := h.kept hk (hfd.trans h.pos) h.le
  apply (matched_sysRead hu (h₁.fewer (k := 4 * 1024 + 2) (by decide)) (by omega) (by omega)).bind
  rintro x y l₂ s₂ t₂ ⟨h₂, hread⟩
  apply Matched.ite (hread.whole_iff (by omega))
  · exact fun _ => matched_pure ⟨rfl, h₂.fewer (by omega)⟩
  intro hx
  obtain rfl : x = some 52 := not_not.mp hx
  have hlen : 52 ≤ s.content.length := by
    obtain ⟨hn, -⟩ | ⟨size, -, hsome, hle, -⟩ := hread
    · simp at hn
    · have := Option.some.inj hsome
      omega
  obtain rfl := hread.data
  dsimp only [Option.getD_some]
  rw [h.pos, h.file, hzero, List.drop_zero]
  apply Matched.ite Iff.rfl
  · exact fun _ => matched_pure ⟨rfl, h₂.fewer (by omega)⟩
  intro hacc
  have hcount : field (s.content.take 52) 44 2 ≤ 1024 := (not_not.mp hacc).2.2.2.2.1
  have hsegs : ∀ g ∈ Image.table s.content (field s.content 44 2) (field s.content 28 4),
      g.type = ptLoad → g.vaddr + g.filesz ≤ 0xc0000000 := by
    intro g hg ht
    have := hs.user g (List.mem_filter.mpr ⟨hg, by simpa using ht⟩)
    omega
  rw [Image.field_take 2 44 (by omega)] at hcount ⊢
  rw [Image.field_take 4 28 (by omega)]
  apply (matched_loadHeaders hu hsize _ _ 0 l₂ s₂ t₂ (h₂.fewer (by omega)) hs.table hsegs).bind
  rintro ok _ l₃ s₃ t₃ ⟨rfl, h₃⟩
  apply Matched.ite Iff.rfl
  · exact fun _ => matched_pure ⟨rfl, h₃⟩
  · exact fun _ => matched_pure ⟨rfl, h₃⟩

/-- A loader that returns has made the image: with the same result and the same pages, and away
from the heap only bytes that it stored are new. -/
theorem load_image (hu : GrowsInUser e) (hs : s.Loadable) (hfile : l.content = s.content)
    (hpos : l.fdPos = 0) (hmapped : l.mapped = s.mapped) (hframes : l.frames = s.frames)
    (hheap : ∀ k < loadCalls, (e k).map grantOf = l.heap.getD k none) :
    wp anyStop () load (fun v r => ∃ s', Returns e Image.load s v s' ∧ r.mapped = s'.mapped ∧
      ∀ a, a / 4096 ∉ heapPages e → s'.shows a ≠ s.shows a → r.stored a = true) l := by
  have hstart : Depicts e s loadCalls l s 0 := by
    refine ⟨rfl, hfile, hpos.trans hs.pos.symm, ?_, hmapped, hframes, fun k hk => ?_,
      fun _ _ hne => absurd rfl hne⟩
    · rw [hs.pos]
      exact Nat.zero_le _
    · rw [Nat.zero_add]
      exact hheap k hk
  apply wp_mono (matched_load hu hs hstart)
  rintro v r ⟨_, t', s', hret, rfl, hend⟩
  exact ⟨s', ⟨0, t', hret⟩, hend.mapped, hend.stored⟩

end Load

end Gogoos.Loader
