import Gogoos.Kernel.Loader

/-!
# What the loader can reach

A file is safe to execute when every segment that `load` comes to lies in user space, and one that
may be stored over a link of the caller's heap is the last thing that is read.
-/

namespace Gogoos.Loader

open Program
open Image (header field Acceptable ptLoad)

variable {s s' r s₀ : Loader} {c : List UInt8} {e : Unit} {n left off pos dst count buf : ℕ}
  {g : Elf32Phdr}

section Counts

/-- A read stays inside of the file, or the sum of the position and the count has wrapped. -/
theorem amount_cases (hpos : pos ≤ c.length) (hlen : c.length < 2 ^ 32) (hcount : count < 2 ^ 32)
    (h : amount c pos count = some n) :
    (pos + n ≤ c.length ∧ n ≤ count) ∨ (n = count ∧ 2 ^ 32 ≤ pos + count ∧ pos < 140 * 512) := by
  unfold amount readCount at h
  dsimp only at h
  split_ifs at h with hover hzero
  · obtain rfl : n = 0 := by simpa using h.symm
    exact .inl ⟨hpos, Nat.zero_le _⟩
  · dsimp only at h
    split_ifs at h with hg
    obtain rfl := Option.some.inj h
    rw [show c.length + 2 ^ 32 - pos = (c.length - pos) + 2 ^ 32 by omega, Nat.add_mod_right,
      Nat.mod_eq_of_lt (by omega : c.length - pos < 2 ^ 32)]
    left
    constructor
    · omega
    · by_cases hw : pos + count < 2 ^ 32
      · rw [Nat.mod_eq_of_lt hw] at hover
        omega
      · omega
  · dsimp only at h
    split_ifs at h with hg
    obtain rfl : count = n := by simpa using h
    by_cases hw : pos + count < 2 ^ 32
    · rw [Nat.mod_eq_of_lt hw] at hover
      exact .inl ⟨by omega, le_rfl⟩
    · exact .inr ⟨rfl, by omega, by omega⟩

theorem amount_small (hpos : pos ≤ c.length) (hlen : c.length < 2 ^ 32) (hcount : count ≤ 4096)
    (h : amount c pos count = some n) : pos + n ≤ c.length ∧ n ≤ count := by
  obtain h' | ⟨rfl, hw, hlt⟩ := amount_cases hpos hlen (by omega) h
  · exact h'
  · omega

theorem InUserSpace.amount_le (h : InUserSpace c g pos) (hpos : pos ≤ c.length)
    (hlen : c.length < 2 ^ 32) (hsize : g.filesz < 2 ^ 32) (hn : amount c pos g.filesz = some n) :
    pos + n ≤ c.length := by
  obtain h' | ⟨rfl, hw, hlt⟩ := amount_cases hpos hlen hsize hn
  · exact h'.1
  · have hb := h.bytes _ hn
    omega

theorem field_lt (data : List UInt8) : ∀ len off, field data off len < 256 ^ len := by
  intro len
  induction len with
  | zero => simp [field]
  | succ len ih =>
    intro off
    have h := ih (off + 1)
    have hb := (data.getD off 0).toNat_lt
    unfold field
    rw [Nat.pow_succ]
    omega

theorem headerAt_vaddr_lt (c : List UInt8) (off : ℕ) : (headerAt c off).vaddr < 2 ^ 32 :=
  field_lt _ 4 _

theorem headerAt_filesz_lt (c : List UInt8) (off : ℕ) : (headerAt c off).filesz < 2 ^ 32 :=
  field_lt _ 4 _

theorem seek_le (hpos : pos ≤ c.length) : seek c pos off ≤ c.length := by
  unfold seek
  split_ifs <;> omega

theorem readCount_whole (h : Whole c pos) :
    readCount c.length pos 32 = some 32 ∧ pos / 512 < 140 ∧ (pos + 32) % 2 ^ 32 / 512 < 140 := by
  obtain ⟨hle, hlt⟩ := h
  unfold readCount
  rw [Nat.mod_eq_of_lt (by omega), if_neg (by omega)]
  exact ⟨rfl, by omega, by omega⟩

/-- Reading 32 bytes finds a whole header, or it gives less. -/
theorem whole_of_amount (hpos : pos ≤ c.length) (hlen : c.length < 2 ^ 32)
    (hr : readCount c.length pos 32 = some 32) (h : amount c pos 32 = some 32) : Whole c pos := by
  obtain ⟨hle, -⟩ := amount_small hpos hlen (by omega) h
  refine ⟨hle, ?_⟩
  unfold amount at h
  rw [hr] at h
  dsimp only at h
  split_ifs at h with hg
  rw [Nat.mod_eq_of_lt (by omega)] at hg
  omega

end Counts

section Confinement

/-- A state of the run between which and the first one only allowed changes lie. -/
structure Within (s₀ s : Loader) : Prop where
  content : s.content = s₀.content
  stackPage : s.stackPage = s₀.stackPage
  elfHeader : s.elfHeader = s₀.elfHeader
  programHeader : s.programHeader = s₀.programHeader
  there : ∀ p, s₀.mapped p = true → s.mapped p = true
  heapPage : ∀ p, s.heapPage p = true → userPage p = true
  confined : Confined s₀ s

/-- Besides, the caller's heap is in order. -/
structure Calm (s₀ s : Loader) : Prop extends Within s₀ s where
  intact : s.disturbed = false

/-- Stores at the addresses of `P` keep `I`, and so do seeks. -/
structure Stable (s₀ : Loader) (I : Loader → Prop) (P : ℕ → Prop) : Prop where
  store : ∀ s a, I s → P a → I (s.store a)
  moved : ∀ s pos, I s → I { s with fdPos := pos }
  confined : ∀ s, I s → Confined s₀ s

theorem Caller.calm (h : Caller s) : Calm s s :=
  ⟨⟨rfl, rfl, rfl, rfl, fun _ h => h, h.heapPage, ⟨fun _ => .inl, fun _ => .inl, fun _ => .inl⟩⟩,
    h.intact⟩

theorem Within.store (h : Within s₀ s) (ha : Allowed s₀ dst) : Within s₀ (s.store dst) := by
  refine ⟨h.content, h.stackPage, h.elfHeader, h.programHeader, h.there, h.heapPage,
    h.confined.pages, ?_, h.confined.bits⟩
  intro a hs
  simp only [Loader.store, Bool.or_eq_true, decide_eq_true_eq] at hs
  obtain rfl | hs := hs
  · exact .inr ha
  · exact h.confined.bytes a hs

theorem Within.moved (h : Within s₀ s) : Within s₀ { s with fdPos := pos } :=
  ⟨h.content, h.stackPage, h.elfHeader, h.programHeader, h.there, h.heapPage, h.confined.pages,
    h.confined.bytes, h.confined.bits⟩

/-- The bit of a user page is one of the bitmap. -/
theorem Within.mark {page : ℕ} (h : Within s₀ s) (hu : userPage page = true) :
    Within s₀ (s.mark page) := by
  refine ⟨h.content, h.stackPage, h.elfHeader, h.programHeader, h.there, h.heapPage,
    h.confined.pages, h.confined.bytes, fun b hb => ?_⟩
  simp only [userPage, Bool.and_eq_true, decide_eq_true_eq] at hu
  simp only [Loader.mark, Bool.or_eq_true, decide_eq_true_eq] at hb
  obtain hb | hb := hb
  · right
    unfold bitMapLength
    omega
  · exact h.confined.bits b hb

theorem Within.mapPage {page : ℕ} (h : Within s₀ s) (hu : userPage page = true) :
    Within s₀ (s.mapPage page) := by
  simp only [userPage, Bool.and_eq_true, decide_eq_true_eq] at hu
  refine ⟨h.content, h.stackPage, h.elfHeader, h.programHeader, fun p hp => ?_, h.heapPage,
    fun p hp => ?_, h.confined.bytes, h.confined.bits⟩
  · simp [Loader.mapPage, h.there p hp]
  · simp only [Loader.mapPage, Bool.or_eq_true, decide_eq_true_eq] at hp
    obtain rfl | hp := hp
    · exact .inr hu.2
    · exact h.confined.pages p hp

theorem stable_within : Stable s₀ (Within s₀) (Allowed s₀) :=
  ⟨fun _ _ h ha => h.store ha, fun _ _ h => h.moved, fun _ h => h.confined⟩

/-- The kernel stack is not on a page of the heap. -/
theorem stable_stack (hs : Caller s₀) : Stable s₀ (Calm s₀) fun a => a / 4096 = s₀.stackPage := by
  refine ⟨fun s a h ha => ⟨h.store (.inr ha), ?_⟩, fun s pos h => ⟨h.moved, h.intact⟩,
    fun s h => h.confined⟩
  have hlow := hs.low
  have hpage : s.heapPage (a / 4096) = false := by
    rw [Bool.eq_false_iff]
    intro hp
    have hu := h.heapPage _ hp
    simp only [userPage, Bool.and_eq_true, decide_eq_true_eq] at hu
    omega
  simp [Loader.store, h.intact, hpage]

/-- Away from the links the heap stays in order. -/
theorem stable_linkless :
    Stable s₀ (Calm s₀) fun a => Allowed s₀ a ∧ isLink (a % 4096) = false := by
  refine ⟨fun s a h ha => ⟨h.store ha.1, ?_⟩, fun s pos h => ⟨h.moved, h.intact⟩,
    fun s h => h.confined⟩
  simp [Loader.store, h.intact, ha.2]

theorem wp_sysLseek (h : Within s₀ s) :
    wp (Confined s₀) e (sysLseek off)
      (fun _ r => Within s₀ r ∧ r.fdPos = seek s₀.content s.fdPos off ∧
        r.disturbed = s.disturbed) s := by
  unfold sysLseek
  exact wp_modify.mpr ⟨h.moved, by rw [← h.content], rfl⟩

variable {I : Loader → Prop} {P : ℕ → Prop}

theorem wp_storeBytes (hI : Stable s₀ I P) : ∀ count dst s, I s → dst + count ≤ 2 ^ 32 →
    (∀ i < count, P (dst + i)) →
    wp (Confined s₀) e (storeBytes count dst) (fun _ r => I r ∧ r.fdPos = s.fdPos) s := by
  intro count
  induction count with
  | zero => exact fun dst s h _ _ => wp_pure.mpr ⟨h, rfl⟩
  | succ count ih =>
    intro dst s h hle ha
    unfold storeBytes
    rw [wp_get_bind, wp_assert_bind]
    refine ⟨fun _ => ?_, fun _ => hI.confined s h⟩
    rw [wp_modify_bind]
    have h' : I (s.store dst) := hI.store s dst h (ha 0 (by omega))
    obtain rfl | hc := Nat.eq_zero_or_pos count
    · exact wp_pure.mpr ⟨h', rfl⟩
    · rw [Nat.mod_eq_of_lt (by omega)]
      refine ih (dst + 1) _ h' (by omega) fun i hi => ?_
      have := ha (i + 1) (by omega)
      rwa [show dst + 1 + i = dst + (i + 1) by omega]

theorem wp_readSectors (hI : Stable s₀ I P) {inFile : Bool} : ∀ rounds sizeLeft dst s, I s →
    sizeLeft ≤ rounds → dst + sizeLeft ≤ 2 ^ 32 → s.fdPos + sizeLeft < 2 ^ 32 →
    (∀ i < sizeLeft, P (dst + i)) →
    wp (Confined s₀) e (readSectors inFile rounds sizeLeft dst)
      (fun _ r => I r ∧ r.fdPos = s.fdPos + sizeLeft) s := by
  intro rounds
  induction rounds with
  | zero =>
    intro sizeLeft dst s h hle _ _ _
    obtain rfl : sizeLeft = 0 := by omega
    exact wp_pure.mpr ⟨h, rfl⟩
  | succ rounds ih =>
    intro sizeLeft dst s h hle hdst hpos ha
    unfold readSectors
    apply wp_ite
    · rintro rfl
      exact wp_pure.mpr ⟨h, rfl⟩
    intro hne
    rw [wp_get_bind, wp_assert_bind]
    refine ⟨fun _ => ?_, fun _ => hI.confined s h⟩
    dsimp only
    set chunkSize := min sizeLeft (512 - s.fdPos % 512) with hchunk
    have hpos' : 0 < chunkSize := by omega
    have hle' : chunkSize ≤ sizeLeft := by omega
    apply wp_call (wp_storeBytes hI chunkSize dst s h (by omega) fun i hi => ha i (by omega))
    rintro _ r ⟨hr, hfd⟩
    rw [wp_modify_bind, hfd, Nat.mod_eq_of_lt (by omega : s.fdPos + chunkSize < 2 ^ 32)]
    obtain heq | hlt := hle'.eq_or_lt
    · rw [← heq, Nat.sub_self]
      cases rounds with
      | zero => exact wp_pure.mpr ⟨hI.moved _ _ hr, rfl⟩
      | succ rounds => exact wp_pure.mpr ⟨hI.moved _ _ hr, rfl⟩
    · rw [Nat.mod_eq_of_lt (by omega : dst + chunkSize < 2 ^ 32)]
      refine wp_mono (ih _ _ _ (hI.moved _ _ hr) (by omega) (by omega) ?_ fun i hi => ?_) ?_
      · dsimp only
        omega
      · have := ha (chunkSize + i) (by omega)
        rwa [Nat.add_assoc]
      · rintro _ r' ⟨hr', hfd'⟩
        refine ⟨hr', ?_⟩
        dsimp only at hfd'
        omega

/-- A heap in order is only stored to on its own pages and in the PCB. -/
theorem Calm.grant {g : Grant} (h : Calm s₀ s) : Calm s₀ (s.grant g) := by
  have hadded : ∀ p, s.added g p = true → userPage p = true := by
    intro p hp
    simp only [added, Bool.and_eq_true] at hp
    exact hp.1.1
  refine ⟨⟨h.content, h.stackPage, h.elfHeader, h.programHeader, ?_, ?_, ?_, ?_, h.confined.bits⟩,
    h.intact⟩
  · intro p hp
    simp [Loader.grant, h.there p hp]
  · intro p hp
    simp only [Loader.grant, Bool.or_eq_true] at hp
    exact hp.elim (h.heapPage p) (hadded p)
  · intro p hp
    simp only [Loader.grant, Bool.or_eq_true] at hp
    obtain hp | hp := hp
    · exact h.confined.pages p hp
    · have hu := hadded p hp
      simp only [userPage, Bool.and_eq_true, decide_eq_true_eq] at hu
      exact .inr hu.2
  · intro a ha
    simp only [Loader.grant, h.intact, Bool.false_or, Bool.or_eq_true, Bool.and_eq_true,
      decide_eq_true_eq] at ha
    obtain ha | ⟨-, (hp | hp) | hp⟩ := ha
    · exact h.confined.bytes a ha
    · have hu := h.heapPage _ hp
      simp only [userPage, Bool.and_eq_true, decide_eq_true_eq] at hu
      exact .inr (.inl (by omega))
    · have hu := hadded _ hp
      simp only [userPage, Bool.and_eq_true, decide_eq_true_eq] at hu
      exact .inr (.inl (by omega))
    · exact .inr (.inr (hp.trans h.stackPage))

theorem Calm.withHeap {heap : List (Option Grant)} (h : Calm s₀ s) :
    Calm s₀ { s with heap := heap } :=
  ⟨⟨h.content, h.stackPage, h.elfHeader, h.programHeader, h.there, h.heapPage, h.confined.pages,
    h.confined.bytes, h.confined.bits⟩, h.intact⟩

theorem wp_sysMalloc (h : Calm s₀ s) :
    wp (Confined s₀) e sysMalloc (fun _ r => Calm s₀ r ∧ r.fdPos = s.fdPos) s := by
  unfold sysMalloc
  rw [wp_get_bind]
  split
  · exact wp_pure.mpr ⟨h, rfl⟩
  · rw [wp_modify_bind]
    exact wp_pure.mpr ⟨h.withHeap, rfl⟩
  · rw [wp_modify_bind]
    exact wp_pure.mpr ⟨h.grant.withHeap, rfl⟩

/-- What `fileRead` does to the descriptor. -/
def Moved (c : List UInt8) (pos count : ℕ) (a : Option ℕ) (pos' : ℕ) : Prop :=
  (a = none ∧ pos' = pos) ∨
    ∃ n, a = some n ∧ readCount c.length pos count = some n ∧ amount c pos count = some n ∧
      pos' = pos + n

/-- The blocks come before the first byte is stored, so a read that delivers nothing leaves the
heap in order. -/
theorem wp_fileRead (hI : Stable s₀ I P) (hcalm : ∀ r, Calm s₀ r → I r) (h : Calm s₀ s)
    (hbuf : buf < 2 ^ 32) (hlen : s₀.content.length < 2 ^ 32)
    (ha : ∀ n, amount s₀.content s.fdPos count = some n → s.fdPos + n ≤ s₀.content.length ∧
      (n = 0 ∨ buf + n ≤ 2 ^ 32) ∧ ∀ i < n, P (buf + i)) :
    wp (Confined s₀) e (fileRead buf count)
      (fun a r => I r ∧ Moved s₀.content s.fdPos count a r.fdPos ∧ (a = none → Calm s₀ r)) s := by
  unfold fileRead
  rw [wp_get_bind, h.content]
  cases hsize : readCount s₀.content.length s.fdPos count with
  | none => exact wp_pure.mpr ⟨hcalm s h, .inl ⟨rfl, rfl⟩, fun _ => h⟩
  | some size =>
    dsimp only
    apply wp_call (wp_sysMalloc h)
    rintro ok r ⟨hr, hfd⟩
    cases ok with
    | false => exact wp_pure.mpr ⟨hcalm r hr, .inl ⟨rfl, hfd⟩, fun _ => hr⟩
    | true =>
      rw [if_pos rfl]
      apply wp_call (wp_sysMalloc hr)
      rintro ok r' ⟨hr', hfd'⟩
      cases ok with
      | false => exact wp_pure.mpr ⟨hcalm r' hr', .inl ⟨rfl, hfd'.trans hfd⟩, fun _ => hr'⟩
      | true =>
        rw [if_pos rfl, wp_assert_bind]
        refine ⟨fun hg => ?_, fun _ => hr'.confined⟩
        have hamount : amount s₀.content s.fdPos count = some size := by
          unfold amount
          rw [hsize]
          exact if_pos hg
        obtain ⟨hle, hdst, hall⟩ := ha size hamount
        have hpos : r'.fdPos = s.fdPos := hfd'.trans hfd
        apply wp_call (wp_readSectors hI size size buf r' (hcalm r' hr') le_rfl (by omega)
          (by omega) hall)
        rintro _ r'' ⟨hr'', hfd''⟩
        exact wp_pure.mpr ⟨hr'', .inr ⟨size, rfl, hsize, hamount, by rw [hfd'', hpos]⟩, by simp⟩

theorem wp_sysRead (hI : Stable s₀ I P) (hcalm : ∀ r, Calm s₀ r → I r) (h : Calm s₀ s)
    (hbuf : buf < 2 ^ 32) (hlen : s₀.content.length < 2 ^ 32)
    (ha : ∀ n, amount s₀.content s.fdPos count = some n → s.fdPos + n ≤ s₀.content.length ∧
      (n = 0 ∨ buf + n ≤ 2 ^ 32) ∧ ∀ i < n, P (buf + i)) :
    wp (Confined s₀) e (sysRead buf count)
      (fun a r => I r ∧ Moved s₀.content s.fdPos count a r.fdPos ∧ (a = none → Calm s₀ r)) s := by
  unfold sysRead
  rw [wp_assert_bind]
  exact ⟨fun _ => wp_fileRead hI hcalm h hbuf hlen ha, fun _ => h.confined⟩

/-- At the end of the file nothing is asked of the heap. -/
theorem wp_sysRead_end (h : Within s₀ s)
    (hend : readCount s₀.content.length s.fdPos count = none) :
    wp (Confined s₀) e (sysRead buf count) (fun a r => a = none ∧ Within s₀ r) s := by
  unfold sysRead
  rw [wp_assert_bind]
  refine ⟨fun _ => ?_, fun _ => h.confined⟩
  unfold fileRead
  rw [wp_get_bind, h.content, hend]
  exact wp_pure.mpr ⟨rfl, h⟩

/-- A local variable of `load` lies on the stack page. -/
theorem onStack {i len var : ℕ} (hvar : var + len ≤ 4096) (hi : i < len) :
    (s₀.stackPage * 4096 + var + i) / 4096 = s₀.stackPage := by
  omega

/-- When the first page is present the loop does nothing. -/
theorem mapSegment_mapped {vaddr : ℕ} (h : s.mapped (vaddr / 4096) = true) : ∀ left page t,
    mapSegment vaddr left page e t s = .returned true t s := by
  intro left
  induction left with
  | zero => exact fun _ _ => rfl
  | succ left ih =>
    intro page t
    change (if s.mapped (vaddr / 4096) = true then mapSegment vaddr left ((page + 1) % 2 ^ 20)
      else _) e t s = _
    rw [if_pos h]
    exact ih _ t

theorem occupyPages_pos (fileSize vaddr : ℕ) : ∃ k, occupyPages fileSize vaddr = k + 1 := by
  unfold occupyPages
  dsimp only
  split_ifs
  · exact ⟨_, rfl⟩
  · exact ⟨0, rfl⟩

theorem wp_mapSegment {fileSize vaddr : ℕ} (h : Calm s₀ s)
    (hpage : s₀.mapped (vaddr / 4096) = true ∨ userPage (vaddr / 4096) = true) :
    wp (Confined s₀) e (mapSegment vaddr (occupyPages fileSize vaddr) (vaddr / 4096))
      (fun _ r => Calm s₀ r ∧ r.fdPos = s.fdPos) s := by
  by_cases hm : s.mapped (vaddr / 4096) = true
  · intro t
    rw [mapSegment_mapped hm]
    exact ⟨h, rfl⟩
  obtain ⟨k, hk⟩ := occupyPages_pos fileSize vaddr
  have hu : userPage (vaddr / 4096) = true := hpage.resolve_left fun hc => hm (h.there _ hc)
  have hbit : Within s₀ (s.mark (vaddr / 4096)) := h.mark hu
  rw [hk]
  unfold mapSegment
  rw [wp_get_bind, if_neg hm]
  unfold getOnePage
  rw [wp_bind_assoc, wp_modify_bind, wp_bind_assoc, wp_get_bind]
  apply wp_bind
  apply wp_ite
  · exact fun _ => wp_pure.mpr (wp_pure.mpr ⟨⟨hbit, h.intact⟩, rfl⟩)
  intro _
  rw [wp_assert_bind]
  refine ⟨fun _ => ?_, fun _ => hbit.confined⟩
  rw [wp_modify_bind, wp_pure, if_pos rfl]
  intro t
  rw [mapSegment_mapped (by simp [mapPage])]
  exact ⟨⟨hbit.mapPage hu, h.intact⟩, rfl⟩

/-- The position of the descriptor behind a segment. -/
def Passed (c : List UInt8) (q : ℕ) (g : Elf32Phdr) (pos : ℕ) : Prop :=
  pos = q ∨ ∃ n, amount c q g.filesz = some n ∧ pos = q + n

theorem wp_segmentLoad (hI : Stable s₀ I P) (hcalm : ∀ r, Calm s₀ r → I r) (hs : Caller s₀)
    (h : Calm s₀ s) (hlen : s₀.content.length < 2 ^ 32) (hpos : s.fdPos ≤ s₀.content.length)
    (hv : g.vaddr < 2 ^ 32) (hsize : g.filesz < 2 ^ 32)
    (hg : InUserSpace s₀.content g (seek s₀.content s.fdPos g.offset))
    (hP : ∀ n, amount s₀.content (seek s₀.content s.fdPos g.offset) g.filesz = some n →
      ∀ i < n, P (g.vaddr + i)) :
    wp (Confined s₀) e (segmentLoad g.offset g.filesz g.vaddr)
      (fun ok r => I r ∧ (ok = true →
        (r.fdPos = seek s₀.content s.fdPos g.offset ∧ Calm s₀ r) ∨
          ∃ n, amount s₀.content (seek s₀.content s.fdPos g.offset) g.filesz = some n ∧
            r.fdPos = seek s₀.content s.fdPos g.offset + n)) s := by
  unfold segmentLoad
  apply wp_call (wp_mapSegment h (hg.page.elim .inr fun hp => .inl (hs.resident _ hp)))
  rintro ok r ⟨hr, hfd⟩
  cases ok with
  | false => exact wp_pure.mpr ⟨hcalm r hr, by simp⟩
  | true =>
    rw [if_pos rfl]
    apply wp_call (wp_sysLseek hr.toWithin)
    rintro _ r₁ ⟨hr₁, hfd₁, hd₁⟩
    rw [hfd] at hfd₁
    have hq : seek s₀.content s.fdPos g.offset ≤ s₀.content.length := seek_le hpos
    have hread := @wp_sysRead _ _ e g.filesz _ _ _ hI hcalm ⟨hr₁, hd₁.trans hr.intact⟩ hv hlen
    rw [hfd₁] at hread
    apply wp_call (hread ?_)
    · rintro a r' ⟨hr', hmoved, hnone⟩
      refine wp_pure.mpr ⟨hr', fun _ => ?_⟩
      obtain ⟨ha, hp⟩ | ⟨n, -, -, hn, hp⟩ := hmoved
      · exact .inl ⟨hp, hnone ha⟩
      · exact .inr ⟨n, hn, hp⟩
    · intro n hn
      refine ⟨hg.amount_le hq hlen hsize hn, ?_, hP n hn⟩
      obtain rfl | hb := hg.bytes n hn
      · exact .inl rfl
      · exact .inr (by omega)

/-- A header that is at the end of the file ends the loop without a call of `sysMalloc`. -/
theorem wp_loadHeaders_end (hs : Caller s₀) (h : Within s₀ s)
    (hend : readCount s₀.content.length (seek s₀.content s.fdPos off) 32 = none) :
    wp (Confined s₀) e (loadHeaders (left + 1) off) (fun _ r => Within s₀ r) s := by
  have hlow := hs.low
  have hhigh := hs.high
  have hstack := hs.programHeader
  unfold loadHeaders
  rw [wp_get_bind, h.stackPage, h.programHeader]
  apply wp_call (wp_storeBytes stable_within 32 _ s h (by omega)
    fun i hi => .inr (onStack hstack hi))
  rintro _ r ⟨hr, hfd⟩
  apply wp_call (wp_sysLseek hr)
  rintro _ r₁ ⟨hr₁, hfd₁, -⟩
  rw [wp_get_bind]
  rw [← hfd, ← hfd₁] at hend
  apply wp_call (wp_sysRead_end hr₁ hend)
  rintro got r' ⟨rfl, hr'⟩
  rw [if_pos (by simp)]
  exact wp_pure.mpr hr'

/-- A segment in user space and what follows it. The heap stays in order unless a byte was stored
over the place of a link. -/
theorem wp_segment_bind {q : ℕ} {k : LoaderM Bool} (hs : Caller s₀) (h : Calm s₀ s)
    (hlen : s₀.content.length < 2 ^ 32) (hpos : s.fdPos ≤ s₀.content.length)
    (hv : g.vaddr < 2 ^ 32) (hsize : g.filesz < 2 ^ 32)
    (hq : seek s₀.content s.fdPos g.offset = q) (hg : InUserSpace s₀.content g q)
    (hcalm : ∀ r, Calm s₀ r → Passed s₀.content q g r.fdPos →
      wp (Confined s₀) e k (fun _ r => Within s₀ r) r)
    (hlink : ∀ n r, amount s₀.content q g.filesz = some n →
      ¬(∀ i < n, isLink ((g.vaddr + i) % 4096) = false) → Within s₀ r → r.fdPos = q + n →
      wp (Confined s₀) e k (fun _ r => Within s₀ r) r) :
    wp (Confined s₀) e (segmentLoad g.offset g.filesz g.vaddr >>= fun loaded =>
      if loaded = true then k else pure false) (fun _ r => Within s₀ r) s := by
  subst hq
  have hallowed : ∀ n, amount s₀.content (seek s₀.content s.fdPos g.offset) g.filesz = some n →
      ∀ i < n, Allowed s₀ (g.vaddr + i) := by
    intro n hn i hi
    have hb := hg.bytes n hn
    exact .inl (by omega)
  by_cases hfree : ∀ n, amount s₀.content (seek s₀.content s.fdPos g.offset) g.filesz = some n →
      ∀ i < n, isLink ((g.vaddr + i) % 4096) = false
  · apply wp_call (wp_segmentLoad stable_linkless (fun _ hr => hr) hs h hlen hpos hv hsize hg
      fun n hn i hi => ⟨hallowed n hn i hi, hfree n hn i hi⟩)
    rintro ok r ⟨hr, hpassed⟩
    cases ok with
    | false => exact wp_pure.mpr hr.toWithin
    | true => exact hcalm r hr ((hpassed rfl).imp And.left fun ⟨n, hn, heq⟩ => ⟨n, hn, heq⟩)
  · apply wp_call (wp_segmentLoad stable_within (fun _ hr => hr.toWithin) hs h hlen hpos hv hsize hg
      hallowed)
    rintro ok r ⟨hr, hpassed⟩
    cases ok with
    | false => exact wp_pure.mpr hr
    | true =>
      obtain ⟨heq, hr'⟩ | ⟨n, hn, heq⟩ := hpassed rfl
      · exact hcalm r hr' (.inl heq)
      · refine hlink n r hn (fun hall => hfree fun n' hn' => ?_) hr heq
        obtain rfl := Option.some.inj (hn.symm.trans hn')
        exact hall

theorem wp_loadHeaders (hs : Caller s₀) (hlen : s₀.content.length < 2 ^ 32)
    (hall : Harmless s₀.content) (hund : Undisturbing s₀.content) : ∀ left off s, Calm s₀ s →
    s.fdPos ≤ s₀.content.length → Comes s₀.content left off s.fdPos →
    wp (Confined s₀) e (loadHeaders left off) (fun _ r => Within s₀ r) s := by
  have hlow := hs.low
  have hhigh := hs.high
  intro left
  induction left with
  | zero => exact fun _ s h _ _ => wp_pure.mpr h.toWithin
  | succ left ih =>
    intro off s h hpos hcomes
    have hstack := hs.programHeader
    have hall' : ∀ i < 32, (s₀.stackPage * 4096 + s₀.programHeader + i) / 4096 = s₀.stackPage :=
      fun i hi => onStack hstack hi
    unfold loadHeaders
    rw [wp_get_bind, h.stackPage, h.programHeader]
    apply wp_call (wp_storeBytes (stable_stack hs) 32 _ s h (by omega) hall')
    rintro _ r ⟨hr, hfd⟩
    apply wp_call (wp_sysLseek hr.toWithin)
    rintro _ r₁ ⟨hr₁, hfd₁, hd₁⟩
    rw [hfd] at hfd₁
    rw [wp_get_bind, hr₁.content, hr₁.stackPage, hr₁.programHeader, hfd₁]
    have hp : seek s₀.content s.fdPos off ≤ s₀.content.length := seek_le hpos
    have hread := @wp_sysRead _ _ e 32 (s₀.stackPage * 4096 + s₀.programHeader) _ _
      (stable_stack hs) (fun _ hr => hr) ⟨hr₁, hd₁.trans hr.intact⟩ (by omega) hlen
    rw [hfd₁] at hread
    apply wp_call (hread ?_)
    rotate_left
    · intro n hn
      obtain ⟨hle, hn'⟩ := amount_small hp hlen (by omega) hn
      exact ⟨hle, .inr (by omega), fun i hi => hall' i (by omega)⟩
    rintro got r' ⟨hr', hmoved, -⟩
    apply wp_ite
    · exact fun _ => wp_pure.mpr hr'.toWithin
    intro hgot
    obtain rfl : got = some 32 := by simpa using hgot
    obtain ⟨hc, -⟩ | ⟨n, hn, hread, hamount, hfd'⟩ := hmoved
    · exact absurd hc (by simp)
    obtain rfl : 32 = n := by simpa using hn
    have hwhole : Whole s₀.content (seek s₀.content s.fdPos off) :=
      whole_of_amount hp hlen hread hamount
    dsimp only at hfd' ⊢
    set p := seek s₀.content s.fdPos off with hpdef
    have hp32 : p + 32 ≤ s₀.content.length := hwhole.1
    by_cases hload : (headerAt s₀.content p).type = ptLoad
    · rw [if_pos hload]
      have hgood := hall left off s.fdPos hcomes hwhole hload
      refine wp_segment_bind hs hr' hlen (by omega) (headerAt_vaddr_lt _ _) (headerAt_filesz_lt _ _)
        (by rw [hfd']) hgood (fun r hr hpassed => ?_) fun n r hn hover hr heq => ?_
      · have hq : seek s₀.content (p + 32) (headerAt s₀.content p).offset ≤ s₀.content.length :=
          seek_le (by omega)
        obtain heq | ⟨n, hn, heq⟩ := hpassed
        · refine ih _ _ hr (by rw [heq]; exact hq) ?_
          rw [heq]
          exact .unread hcomes hwhole rfl hload
        · have hle := hgood.amount_le hq hlen (headerAt_filesz_lt _ _) hn
          refine ih _ _ hr (by rw [heq]; exact hle) ?_
          rw [heq]
          exact .read hcomes hwhole rfl hload hn
      · -- the segment is the last thing that is read
        obtain hfree | rfl | hend := hund left off s.fdPos n hcomes hwhole hload hn
        · exact absurd hfree hover
        · exact wp_pure.mpr hr
        · rw [← hpdef, ← heq] at hend
          cases left with
          | zero => exact wp_pure.mpr hr
          | succ left => exact wp_loadHeaders_end hs hr hend
    · rw [if_neg hload, wp_pure_bind, if_pos rfl]
      refine ih _ _ hr' (by omega) ?_
      rw [hfd']
      exact .other hcomes hwhole hload

theorem wp_storeWords {start : ℕ} : ∀ offs s, Within s₀ s →
    (∀ o ∈ offs, start + o + 4 ≤ 2 ^ 32 ∧ ∀ i < 4, Allowed s₀ (start + o + i)) →
    wp (Confined s₀) e (storeWords start offs) (fun _ r => Within s₀ r) s := by
  intro offs
  induction offs with
  | nil => exact fun s h _ => wp_pure.mpr h
  | cons o offs ih =>
    intro s h ha
    obtain ⟨hle, hall⟩ := ha o (by simp)
    unfold storeWords
    apply wp_call (wp_storeBytes stable_within 4 _ s h hle hall)
    rintro _ r ⟨hr, -⟩
    exact ih r hr fun o' ho' => ha o' (by simp [ho'])

theorem wp_setIntrStack (hs : Caller s₀) (h : Within s₀ s) (entryPoint : ℤ) :
    wp (Confined s₀) e (setIntrStack entryPoint) (fun _ s' => Confined s₀ s') s := by
  have hhigh := hs.high
  unfold setIntrStack
  apply wp_ite
  · exact fun _ => wp_pure.mpr h.confined
  · intro _
    rw [wp_get_bind, h.stackPage]
    apply wp_call (wp_storeWords intrStackFields s h ?_)
    · exact fun _ r hr => wp_pure.mpr hr.confined
    · intro o ho
      have ho' : o ≤ 68 := by
        simp only [intrStackFields, List.mem_cons, List.not_mem_nil, or_false] at ho
        omega
      refine ⟨?_, fun i hi => ?_⟩
      · omega
      · right
        omega

theorem safe_of_harmless (hlen : c.length < 2 ^ 32) (h : Harmless c) (hund : Undisturbing c) :
    Safe c := by
  rintro s hs rfl
  have hlow := hs.low
  have hhigh := hs.high
  have hvar := hs.elfHeader
  have hall : ∀ i < 52, (s.stackPage * 4096 + s.elfHeader + i) / 4096 = s.stackPage :=
    fun i hi => onStack hvar hi
  unfold sysExecv load
  rw [wp_bind_assoc, wp_get_bind, wp_bind_assoc]
  apply wp_call (wp_storeBytes (stable_stack hs) 52 _ s hs.calm (by omega) hall)
  rintro _ r ⟨hr, hfd⟩
  rw [hs.pos] at hfd
  rw [wp_bind_assoc]
  apply wp_call (@wp_sysRead _ _ () 52 _ _ _ (stable_stack hs) (fun _ hr => hr) hr (by omega) hlen ?_)
  rotate_left
  · intro n hn
    obtain ⟨hle, hn'⟩ := amount_small (by omega) hlen (by omega) hn
    exact ⟨hle, .inr (by omega), fun i hi => hall i (by omega)⟩
  rintro got r' ⟨hr', hmoved, -⟩
  dsimp only
  by_cases hgot : got = some 52
  · obtain ⟨hc, -⟩ | ⟨n, hn, hread, hamount, hfd'⟩ := hmoved
    · exact absurd (hgot.symm.trans hc) (by simp)
    obtain rfl : 52 = n := by simpa [hgot] using hn
    rw [hfd] at hfd' hamount
    obtain ⟨hle, -⟩ := amount_small (by omega) hlen (by omega) hamount
    rw [if_neg (by simpa using hgot), hs.pos, List.drop_zero]
    by_cases hacc : Acceptable (s.content.take 52)
    · rw [if_neg (by simpa using hacc), wp_bind_assoc]
      apply wp_call (@wp_loadHeaders _ () hs hlen h hund _ _ r' hr' (by omega) (by
        rw [hfd']
        exact .start (by omega) hacc))
      intro ok r'' hr''
      cases ok with
      | false => exact wp_setIntrStack hs hr'' (-1)
      | true =>
        rw [if_pos rfl, wp_pure_bind]
        exact wp_setIntrStack hs hr'' _
    · rw [if_pos (by simpa using hacc)]
      exact wp_pure.mpr hr'.confined
  · rw [if_pos (by simpa using hgot)]
    exact wp_pure.mpr hr'.confined

end Confinement

end Gogoos.Loader
