import Gogoos.Kernel.LoaderRun
import Gogoos.Logic.Keeps

/-!
# A segment outside of user space

Every segment that the loop of `load` can come to is reached by some process, one that has all of
user space mapped and gets memory for the headers, and there a segment outside of user space sets
a bit behind the bitmap or stores a byte in the kernel.
-/

namespace Gogoos.Loader

open Program
open Image (header field Acceptable ptLoad)

variable {s s' r : Loader} {c : List UInt8} {n left off pos dst count buf a stackPage : ℕ}
  {g : Elf32Phdr} {heap rest : List (Option Grant)} {α β : Type}

section Counts

/-- The assertion of `fileRead` holds where `amount` is defined. -/
theorem amount_guard (h : readCount c.length pos count = some n)
    (hn : amount c pos count = some n) : pos / 512 < 140 ∧ (pos + n) % 2 ^ 32 / 512 < 140 := by
  by_contra hc
  unfold amount at hn
  rw [h] at hn
  dsimp only at hn
  rw [if_neg hc] at hn
  simp at hn

theorem amount_of_none (h : readCount c.length pos count = none) (hn : amount c pos count = some n) :
    n = 0 := by
  unfold amount at hn
  rw [h] at hn
  exact (Option.some.inj hn).symm

theorem amount_of_some {size : ℕ} (h : readCount c.length pos count = some size)
    (hn : amount c pos count = some n) : size = n := by
  unfold amount at hn
  rw [h] at hn
  dsimp only at hn
  split_ifs at hn
  exact Option.some.inj hn

end Counts

section Runs

/-- The loader asks nothing, so a run is the same whatever was asked before. -/
def Runs (m : LoaderM α) (s : Loader) (v : α) (s' : Loader) : Prop :=
  ∀ t, m () t s = .returned v t s'

theorem bind_runs {m : LoaderM α} {f : α → LoaderM β} {v : α} (h : Runs m s v s') (t : ℕ) :
    (m >>= f) () t s = f v () t s' :=
  bind_returned (h t)

theorem get_runs : Runs get s s s := fun _ => rfl

theorem modify_runs {k : Loader → Loader} : Runs (modify k) s () (k s) := fun _ => rfl

theorem assert_runs {p : Prop} [Decidable p] (h : p) : Runs (assert p) s () s := by
  intro t
  unfold assert
  rw [if_pos h]
  rfl

theorem storeBytes_runs : ∀ count dst s, (∀ i < count, s.mapped ((dst + i) / 4096) = true) →
    dst + count ≤ 2 ^ 32 →
    ∃ st di, Runs (storeBytes count dst) s () { s with stored := st, disturbed := di } := by
  intro count
  induction count with
  | zero => exact fun _ s _ _ => ⟨s.stored, s.disturbed, fun _ => rfl⟩
  | succ count ih =>
    intro dst s hm hle
    have hfirst : s.mapped (dst / 4096) = true := hm 0 (by omega)
    obtain rfl | hc := Nat.eq_zero_or_pos count
    · refine ⟨(s.store dst).stored, (s.store dst).disturbed, fun t => ?_⟩
      unfold storeBytes
      rw [bind_runs get_runs, bind_runs (assert_runs hfirst)]
      rfl
    · obtain ⟨st, di, hst⟩ := ih (dst + 1) (s.store dst) (fun i hi => by
        rw [show dst + 1 + i = dst + (i + 1) by omega]
        exact hm (i + 1) (by omega)) (by omega)
      refine ⟨st, di, fun t => ?_⟩
      unfold storeBytes
      rw [bind_runs get_runs, bind_runs (assert_runs hfirst), bind_runs modify_runs,
        Nat.mod_eq_of_lt (by omega)]
      exact hst t

theorem readSectors_runs (inFile : Bool) : ∀ rounds sizeLeft dst s, sizeLeft ≤ rounds →
    (∀ i < sizeLeft, s.mapped ((dst + i) / 4096) = true) → dst + sizeLeft ≤ 2 ^ 32 →
    s.fdPos + sizeLeft < 2 ^ 32 → (∀ i, s.behind i = true) →
    ∃ st di, Runs (readSectors inFile rounds sizeLeft dst) s ()
      { s with stored := st, disturbed := di, fdPos := s.fdPos + sizeLeft } := by
  intro rounds
  induction rounds with
  | zero =>
    intro sizeLeft dst s hle _ _ _ _
    obtain rfl : sizeLeft = 0 := by omega
    exact ⟨s.stored, s.disturbed, fun _ => rfl⟩
  | succ rounds ih =>
    intro sizeLeft dst s hle hm hdst hpos hb
    obtain rfl | hne := Nat.eq_zero_or_pos sizeLeft
    · exact ⟨s.stored, s.disturbed, fun _ => rfl⟩
    set chunkSize := min sizeLeft (512 - s.fdPos % 512) with hchunk
    have hpos' : 0 < chunkSize := by omega
    obtain ⟨st, di, hst⟩ := storeBytes_runs chunkSize dst s (fun i hi => hm i (by omega))
      (by omega)
    have hrest : ∃ st' di', Runs (readSectors inFile rounds (sizeLeft - chunkSize)
        ((dst + chunkSize) % 2 ^ 32))
        { s with stored := st, disturbed := di, fdPos := (s.fdPos + chunkSize) % 2 ^ 32 } ()
        { s with stored := st', disturbed := di', fdPos := s.fdPos + sizeLeft } := by
      rw [Nat.mod_eq_of_lt (by omega : s.fdPos + chunkSize < 2 ^ 32)]
      obtain heq | hlt : sizeLeft = chunkSize ∨ chunkSize < sizeLeft := by omega
      · rw [← heq, Nat.sub_self]
        refine ⟨st, di, fun t => ?_⟩
        cases rounds <;> rfl
      · rw [Nat.mod_eq_of_lt (by omega : dst + chunkSize < 2 ^ 32)]
        obtain ⟨st', di', hst'⟩ := ih (sizeLeft - chunkSize) (dst + chunkSize)
          { s with stored := st, disturbed := di, fdPos := s.fdPos + chunkSize } (by omega)
          (fun i hi => by
            rw [Nat.add_assoc]
            exact hm (chunkSize + i) (by omega)) (by omega) (by
            dsimp only
            omega) hb
        refine ⟨st', di', fun t => (hst' t).trans ?_⟩
        rw [show s.fdPos + chunkSize + (sizeLeft - chunkSize) = s.fdPos + sizeLeft by omega]
    obtain ⟨st', di', hst'⟩ := hrest
    refine ⟨st', di', fun t => ?_⟩
    unfold readSectors
    rw [if_neg (by omega)]
    rw [bind_runs get_runs, bind_runs (assert_runs (.inr (hb _)))]
    change (storeBytes chunkSize dst >>= _) () t s = _
    rw [bind_runs hst, bind_runs modify_runs]
    exact hst' t

/-- Both buffers are on page 8, which belongs to the heap. -/
def block : Grant := ⟨[], fun a => a / 4096 = 8⟩

theorem sysMalloc_runs (h : s.heap = some block :: rest) :
    ∃ st, Runs sysMalloc s true { s with heap := rest, stored := st } := by
  have hadded : ∀ p, s.added block p = false := by
    intro p
    simp [added, block]
  have hgrant : s.grant block = { s with stored := (s.grant block).stored } := by
    have hmapped : (s.grant block).mapped = s.mapped := by
      funext p
      simp [grant, hadded]
    have hpages : (s.grant block).heapPage = s.heapPage := by
      funext p
      simp [grant, hadded]
    have hrest : s.grant block = { s with
      mapped := (s.grant block).mapped
      heapPage := (s.grant block).heapPage
      stored := (s.grant block).stored } := rfl
    rw [hmapped, hpages] at hrest
    exact hrest
  refine ⟨(s.grant block).stored, fun t => ?_⟩
  unfold sysMalloc
  rw [bind_runs get_runs, h]
  dsimp only
  rw [bind_runs modify_runs, hgrant]
  rfl

theorem sysMalloc_fails (h : s.heap = none :: rest) :
    Runs sysMalloc s false { s with heap := rest } := by
  intro t
  unfold sysMalloc
  rw [bind_runs get_runs, h]
  rfl

/-- The two blocks of a read. -/
theorem blocks_runs (h : s.heap = some block :: some block :: rest) :
    ∃ st st', Runs sysMalloc s true { s with heap := some block :: rest, stored := st } ∧
      Runs sysMalloc { s with heap := some block :: rest, stored := st } true
        { s with heap := rest, stored := st' } := by
  obtain ⟨st, h₁⟩ := sysMalloc_runs h
  obtain ⟨st', h₂⟩ := sysMalloc_runs (s := { s with heap := some block :: rest, stored := st }) rfl
  exact ⟨st, st', h₁, h₂⟩

/-- A read for which there is memory and that stays in the file. -/
theorem sysRead_runs (hbuf : buf ≠ 0) (hheap : s.heap = some block :: some block :: rest)
    (hsize : readCount s.content.length s.fdPos count = some n)
    (hn : amount s.content s.fdPos count = some n) (hle : s.fdPos + n ≤ s.content.length)
    (hlen : s.content.length < 2 ^ 32) (hdst : buf + n ≤ 2 ^ 32) (hb : ∀ i, s.behind i = true)
    (hm : ∀ i < n, s.mapped ((buf + i) / 4096) = true) :
    ∃ st di, Runs (sysRead buf count) s (some n)
      { s with stored := st, disturbed := di, fdPos := s.fdPos + n, heap := rest } := by
  obtain ⟨st₁, st₂, h₁, h₂⟩ := blocks_runs hheap
  obtain ⟨st, di, hst⟩ := readSectors_runs (s.fdPos + n ≤ s.content.length) n n buf
    { s with heap := rest, stored := st₂ } le_rfl hm hdst (by
      dsimp only
      omega) hb
  have hg := amount_guard hsize hn
  refine ⟨st, di, fun t => ?_⟩
  unfold sysRead
  rw [bind_runs (assert_runs hbuf)]
  unfold fileRead
  rw [bind_runs get_runs, hsize]
  dsimp only
  rw [bind_runs h₁, if_pos rfl, bind_runs h₂, if_pos rfl, bind_runs (assert_runs hg), bind_runs hst]
  rfl

theorem sysRead_end (hbuf : buf ≠ 0) (hsize : readCount s.content.length s.fdPos count = none) :
    Runs (sysRead buf count) s none s := by
  intro t
  unfold sysRead
  rw [bind_runs (assert_runs hbuf)]
  unfold fileRead
  rw [bind_runs get_runs, hsize]
  rfl

theorem sysRead_fails (hbuf : buf ≠ 0) (hheap : s.heap = none :: rest)
    (hsize : readCount s.content.length s.fdPos count = some n) :
    Runs (sysRead buf count) s none { s with heap := rest } := by
  intro t
  unfold sysRead
  rw [bind_runs (assert_runs hbuf)]
  unfold fileRead
  rw [bind_runs get_runs, hsize]
  dsimp only
  rw [bind_runs (sysMalloc_fails hheap)]
  rfl

end Runs

section Stored

/-- A byte was stored at `a`. -/
def StoredAt (a : ℕ) (s : Loader) : Prop := s.stored a = true

theorem StoredAt.store (h : StoredAt a s) : StoredAt a (s.store dst) := by
  unfold StoredAt at h ⊢
  simp [Loader.store, h]

theorem storeBytes_preserves : ∀ count dst, Preserves (StoredAt a) (storeBytes count dst) := by
  intro count
  induction count with
  | zero => exact fun _ => preserves_pure ()
  | succ count ih =>
    exact fun dst => preserves_get.bind fun s => preserves_assert.bind fun _ =>
      .bind (.modify fun _ h => h.store) fun _ => ih _

theorem readSectors_preserves {inFile : Bool} : ∀ rounds sizeLeft dst,
    Preserves (StoredAt a) (readSectors inFile rounds sizeLeft dst) := by
  intro rounds
  induction rounds with
  | zero => exact fun _ _ => preserves_pure ()
  | succ rounds ih =>
    intro sizeLeft dst
    unfold readSectors
    exact (preserves_pure ()).ite (preserves_get.bind fun s => preserves_assert.bind fun _ =>
      (storeBytes_preserves _ _).bind fun _ => .bind (.modify fun _ h => h) fun _ => ih _ _)

theorem StoredAt.grant {g : Grant} (h : StoredAt a s) : StoredAt a (s.grant g) := by
  unfold StoredAt at h ⊢
  simp [Loader.grant, h]

theorem sysMalloc_preserves : Preserves (StoredAt a) sysMalloc := by
  unfold sysMalloc
  refine preserves_get.bind fun s => ?_
  split
  · exact preserves_pure _
  · exact .bind (.modify fun _ h => h) fun _ => preserves_pure _
  · exact .bind (.modify fun _ h => h.grant) fun _ => preserves_pure _

theorem sysRead_preserves : Preserves (StoredAt a) (sysRead buf count) := by
  unfold sysRead fileRead
  refine preserves_assert.bind fun _ => preserves_get.bind fun s => ?_
  split
  · exact preserves_pure _
  · exact sysMalloc_preserves.bind fun _ => (sysMalloc_preserves.bind fun _ =>
      (preserves_assert.bind fun _ => (readSectors_preserves _ _ _).bind fun _ =>
        preserves_pure _).ite (preserves_pure _)).ite (preserves_pure _)

theorem sysLseek_preserves : Preserves (StoredAt a) (sysLseek off) :=
  Preserves.modify fun _ h => h

theorem mapSegment_preserves {vaddr : ℕ} : ∀ left page,
    Preserves (StoredAt a) (mapSegment vaddr left page) := by
  intro left
  induction left with
  | zero => exact fun _ => preserves_pure _
  | succ left ih =>
    intro page
    unfold mapSegment getOnePage
    refine preserves_get.bind fun s => (ih _).ite (.bind ?_ fun _ => (ih _).ite (preserves_pure _))
    exact .bind (.modify fun _ h => h) fun _ => preserves_get.bind fun _ =>
      (preserves_pure _).ite (preserves_assert.bind fun _ =>
        .bind (.modify fun _ h => h) fun _ => preserves_pure _)

theorem segmentLoad_preserves {offset fileSize vaddr : ℕ} :
    Preserves (StoredAt a) (segmentLoad offset fileSize vaddr) := by
  unfold segmentLoad
  exact (mapSegment_preserves _ _).bind fun _ => (sysLseek_preserves.bind fun _ =>
    sysRead_preserves.bind fun _ => preserves_pure _).ite (preserves_pure _)

theorem loadHeaders_preserves : ∀ left off, Preserves (StoredAt a) (loadHeaders left off) := by
  intro left
  induction left with
  | zero => exact fun _ => preserves_pure _
  | succ left ih =>
    intro off
    unfold loadHeaders
    exact preserves_get.bind fun _ => (storeBytes_preserves _ _).bind fun _ =>
      sysLseek_preserves.bind fun _ => preserves_get.bind fun _ => sysRead_preserves.bind fun _ =>
        (preserves_pure _).ite ((segmentLoad_preserves.bind fun _ =>
          (ih _).ite (preserves_pure _)).ite ((ih _).ite (preserves_pure _)))

theorem storeWords_preserves {start : ℕ} : ∀ offs,
    Preserves (StoredAt a) (storeWords start offs) := by
  intro offs
  induction offs with
  | nil => exact preserves_pure _
  | cons o offs ih => exact (storeBytes_preserves _ _).bind fun _ => ih

theorem setIntrStack_preserves {entryPoint : ℤ} :
    Preserves (StoredAt a) (setIntrStack entryPoint) := by
  unfold setIntrStack
  exact (preserves_pure _).ite (preserves_get.bind fun _ => (storeWords_preserves _).bind fun _ =>
    preserves_pure _)

/-- The loop stores a byte at every address up to the first page that is not present. -/
theorem wp_storeBytes_stored : ∀ count dst s, dst ≤ a → a < dst + count → a < 2 ^ 32 →
    (∀ x, dst ≤ x → x ≤ a → s.mapped (x / 4096) = true) →
    wp (StoredAt a) () (storeBytes count dst) (fun _ r => StoredAt a r) s := by
  intro count
  induction count with
  | zero =>
    intro dst s hle hlt
    omega
  | succ count ih =>
    intro dst s hle hlt ha hm
    unfold storeBytes
    rw [wp_get_bind, wp_assert_pos (hm dst le_rfl hle), wp_modify_bind]
    obtain rfl | hne := Nat.eq_or_lt_of_le hle
    · exact storeBytes_preserves _ _ _ _ (by simp [StoredAt, store])
    · rw [Nat.mod_eq_of_lt (by omega)]
      exact ih _ _ (by omega) (by omega) ha fun x hx hxa => hm x (by omega) hxa

theorem wp_readSectors_stored (inFile : Bool) : ∀ rounds sizeLeft dst s, sizeLeft ≤ rounds →
    dst ≤ a → a < dst + sizeLeft → a < 2 ^ 32 → (∀ i, s.behind i = true) →
    (∀ x, dst ≤ x → x ≤ a → s.mapped (x / 4096) = true) →
    wp (StoredAt a) () (readSectors inFile rounds sizeLeft dst) (fun _ r => StoredAt a r) s := by
  intro rounds
  induction rounds with
  | zero =>
    intro sizeLeft dst s hle hda hlt
    omega
  | succ rounds ih =>
    intro sizeLeft dst s hle hda hlt ha hb hm
    unfold readSectors
    rw [if_neg (by omega), wp_get_bind, wp_assert_pos (.inr (hb _))]
    dsimp only
    set chunkSize := min sizeLeft (512 - s.fdPos % 512) with hchunk
    have hpos : 0 < chunkSize := by omega
    by_cases hin : a < dst + chunkSize
    · apply wp_call (wp_storeBytes_stored chunkSize dst s hda hin ha hm)
      intro _ r hr
      refine Preserves.bind ?_ (fun _ => readSectors_preserves _ _ _) _ r hr
      exact .modify fun _ h => h
    · obtain ⟨st, di, hst⟩ := storeBytes_runs chunkSize dst s
        (fun i hi => hm _ (by omega) (by omega)) (by omega)
      intro t
      rw [bind_runs hst, bind_runs modify_runs]
      have := ih (sizeLeft - chunkSize) (dst + chunkSize) { s with
        stored := st, disturbed := di, fdPos := (s.fdPos + chunkSize) % 2 ^ 32 } (by omega) (by omega)
        (by omega) ha hb (fun x hx hxa => hm x (by omega) hxa) t
      rw [← Nat.mod_eq_of_lt (by omega : dst + chunkSize < 2 ^ 32)] at this
      exact this

theorem wp_sysRead_stored (hbuf : buf ≠ 0) (hheap : s.heap = some block :: some block :: rest)
    (hsize : readCount s.content.length s.fdPos count = some n)
    (hn : amount s.content s.fdPos count = some n) (hda : buf ≤ a) (hlt : a < buf + n)
    (ha : a < 2 ^ 32) (hb : ∀ i, s.behind i = true)
    (hm : ∀ x, buf ≤ x → x ≤ a → s.mapped (x / 4096) = true) :
    wp (StoredAt a) () (sysRead buf count) (fun _ r => StoredAt a r) s := by
  obtain ⟨st₁, st₂, h₁, h₂⟩ := blocks_runs hheap
  have hstore := wp_readSectors_stored (s.fdPos + n ≤ s.content.length) n n buf
    { s with heap := rest, stored := st₂ } le_rfl hda hlt ha hb hm
  intro t
  unfold sysRead
  rw [bind_runs (assert_runs hbuf)]
  unfold fileRead
  rw [bind_runs get_runs, hsize]
  dsimp only
  rw [bind_runs h₁, if_pos rfl, bind_runs h₂, if_pos rfl,
    bind_runs (assert_runs (amount_guard hsize hn))]
  exact wp_call (f := fun _ => pure (some n)) hstore (fun _ r hr => wp_pure.mpr hr) t

end Stored

section Reached

/-- All of user space, what is always there and the page of the PCB. -/
def pagesOf (stackPage p : ℕ) : Bool := userPage p || resident p || p = stackPage

/-- A process in front of the file. -/
def process (c : List UInt8) (stackPage : ℕ) (heap : List (Option Grant)) (pos : ℕ)
    (stored : ℕ → Bool) (disturbed : Bool) : Loader where
  content := c
  fdPos := pos
  mapped := pagesOf stackPage
  stackPage := stackPage
  elfHeader := 0
  programHeader := 64
  heap := heap
  heapPage p := p = 8
  disturbed := disturbed
  frames := 0
  behind _ := true
  stored := stored
  marked _ := false

/-- A page of the kernel heap. -/
def HeapPage (p : ℕ) : Prop := 0xc0100 ≤ p ∧ p < 0xfff00

theorem process_caller (h : HeapPage stackPage) {st : ℕ → Bool} :
    Caller (process c stackPage heap 0 st false) := by
  refine ⟨fun p hp => ?_, rfl, rfl, h.1, h.2, ?_, fun p hp => ?_, ?_, ?_⟩
  · obtain rfl : p = 8 := by simpa [process] using hp
    rfl
  · simp [process, pagesOf]
  · simp [process, pagesOf, hp]
  · simp [process]
  · simp [process]

theorem stack_pages {var len : ℕ} (hvar : var + len ≤ 4096) :
    ∀ i < len, pagesOf stackPage ((stackPage * 4096 + var + i) / 4096) = true := by
  intro i hi
  rw [show (stackPage * 4096 + var + i) / 4096 = stackPage by omega]
  simp [pagesOf]

/-- The pages of a segment in user space. -/
theorem InUserSpace.pages (h : InUserSpace c g pos) (hn : amount c pos g.filesz = some n) :
    ∀ i < n, pagesOf stackPage ((g.vaddr + i) / 4096) = true := by
  intro i hi
  have hb := h.bytes n hn
  have hpage := h.page
  have hu : userPage ((g.vaddr + i) / 4096) = true := by
    simp only [userPage, resident, Bool.or_eq_true, Bool.and_eq_true, decide_eq_true_eq] at hpage ⊢
    omega
  simp [pagesOf, hu]

/-- Up to its read `segmentLoad` changes the position only. -/
theorem segmentLoad_read {st : ℕ → Bool} {di : Bool} {v : Option ℕ} {offset fileSize vaddr : ℕ}
    (hpage : userPage (vaddr / 4096) = true ∨ resident (vaddr / 4096) = true)
    (h : Runs (sysRead vaddr fileSize) (process c stackPage heap (seek c pos offset) st di) v s') :
    Runs (segmentLoad offset fileSize vaddr) (process c stackPage heap pos st di) true s' := by
  have hfirst : (process c stackPage heap pos st di).mapped (vaddr / 4096) = true := by
    obtain hu | hu := hpage <;> simp [process, pagesOf, hu]
  intro t
  unfold segmentLoad
  rw [bind_returned (mapSegment_mapped hfirst _ _ t), if_pos rfl]
  unfold sysLseek
  rw [bind_runs modify_runs]
  change (sysRead vaddr fileSize >>= fun _ => pure true) () t
    (process c stackPage heap (seek c pos offset) st di) = _
  rw [bind_runs h]
  rfl

/-- A segment in user space is passed, with any of the two positions behind it. -/
theorem segmentLoad_runs (h : InUserSpace c g (seek c pos g.offset)) (hlen : c.length < 2 ^ 32)
    (hpos : pos ≤ c.length) (hv : g.vaddr < 2 ^ 32) (hsize : g.filesz < 2 ^ 32) {pos' : ℕ}
    (hp : Passed c (seek c pos g.offset) g pos') (rest : List (Option Grant)) :
    ∃ heap, ∀ stackPage st di, ∃ st' di', Runs (segmentLoad g.offset g.filesz g.vaddr)
      (process c stackPage heap pos st di) true (process c stackPage rest pos' st' di') := by
  have hle : seek c pos g.offset ≤ c.length := seek_le hpos
  have hpage := h.page
  have hne : g.vaddr ≠ 0 := by
    intro h0
    rw [h0] at hpage
    simp [userPage, resident] at hpage
  cases hread : readCount c.length (seek c pos g.offset) g.filesz with
  | none =>
    obtain rfl : pos' = seek c pos g.offset := by
      obtain hp | ⟨n, hn, hp⟩ := hp
      · exact hp
      · rw [hp, amount_of_none hread hn, Nat.add_zero]
    exact ⟨rest, fun stackPage st di => ⟨st, di, segmentLoad_read hpage (sysRead_end hne hread)⟩⟩
  | some size =>
    obtain rfl | ⟨n, hn, rfl⟩ := hp
    · exact ⟨none :: rest, fun stackPage st di =>
        ⟨st, di, segmentLoad_read hpage (sysRead_fails hne rfl hread)⟩⟩
    · obtain rfl := amount_of_some hread hn
      refine ⟨some block :: some block :: rest, fun stackPage st di => ?_⟩
      have hfile := h.amount_le hle hlen hsize hn
      have hb := h.bytes _ hn
      obtain ⟨st', di', hst'⟩ := sysRead_runs
        (s := process c stackPage (some block :: some block :: rest) (seek c pos g.offset) st di)
        hne rfl hread hn hfile hlen (by omega) (fun _ => rfl) (h.pages hn)
      exact ⟨st', di', segmentLoad_read hpage hst'⟩

/-- The rest of a round of `load`. -/
def round (left off : ℕ) (g : Elf32Phdr) : LoaderM Bool :=
  if g.type = ptLoad then do
    let loaded ← segmentLoad g.offset g.filesz g.vaddr
    if loaded then loadHeaders left ((off + 32) % 2 ^ 32) else return false
  else loadHeaders left ((off + 32) % 2 ^ 32)

/-- A header that is in the file is read when there is memory. -/
theorem loadHeaders_runs (left off : ℕ) (rest : List (Option Grant))
    (hlen : c.length < 2 ^ 32) (hP : HeapPage stackPage)
    (hw : Whole c (seek c pos off)) (st : ℕ → Bool) (di : Bool) : ∃ st' di', ∀ t,
      loadHeaders (left + 1) off () t
          (process c stackPage (some block :: some block :: rest) pos st di) =
        round left off (headerAt c (seek c pos off)) () t
          (process c stackPage rest (seek c pos off + 32) st' di') := by
  obtain ⟨hlow, hhigh⟩ := hP
  have hw32 := hw.1
  obtain ⟨st₁, di₁, h₁⟩ := storeBytes_runs 32 (stackPage * 4096 + 64)
    (process c stackPage (some block :: some block :: rest) pos st di) (stack_pages (by omega))
    (by omega)
  have hread := readCount_whole hw
  have hamount : amount c (seek c pos off) 32 = some 32 := by
    unfold amount
    rw [hread.1]
    exact if_pos hread.2
  have hbuf : stackPage * 4096 + 64 ≠ 0 := by omega
  obtain ⟨st₂, di₂, h₂⟩ := sysRead_runs
    (s := process c stackPage (some block :: some block :: rest) (seek c pos off) st₁ di₁)
    hbuf rfl hread.1 hamount hw32 hlen (by omega) (fun _ => rfl) (stack_pages (by omega))
  refine ⟨st₂, di₂, fun t => ?_⟩
  conv_lhs => unfold loadHeaders
  rw [bind_runs get_runs]
  change (storeBytes 32 (stackPage * 4096 + 64) >>= _) () t _ = _
  rw [bind_runs h₁]
  unfold sysLseek
  rw [bind_runs modify_runs, bind_runs get_runs]
  change (sysRead (stackPage * 4096 + 64) 32 >>= _) () t
    (process c stackPage (some block :: some block :: rest) (seek c pos off) st₁ di₁) = _
  rw [bind_runs h₂, if_neg (by simp)]
  rfl

/-- What `sysExecv` does with the result of the loop. -/
def finish (c : List UInt8) (loaded : Bool) : LoaderM ℤ :=
  (if loaded = true then pure (Int.bmod (field (c.take 52) 24 4) (2 ^ 32)) else pure (-1)) >>=
    setIntrStack

/-- Some process comes to the loop in this state, wherever its PCB is and whatever the next calls
of `sysMalloc` are to give. -/
def Arrives (c : List UInt8) (left off pos : ℕ) : Prop :=
  ∀ stackPage, HeapPage stackPage → ∀ rest, ∃ heap st di, ∀ t,
    sysExecv () t (process c stackPage heap 0 (fun _ => false) false) =
      (loadHeaders left off >>= finish c) () t (process c stackPage rest pos st di)

theorem arrives_start (hlen : c.length < 2 ^ 32) (hsize : 52 ≤ c.length)
    (hacc : Acceptable (c.take 52)) :
    Arrives c (field (c.take 52) 44 2) (field (c.take 52) 28 4) 52 := by
  rintro stackPage ⟨hlow, hhigh⟩ rest
  have hread : readCount c.length 0 52 = some 52 := by
    unfold readCount
    rw [if_neg (by omega)]
  have hamount : amount c 0 52 = some 52 := by
    unfold amount
    rw [hread]
    exact if_pos (by omega)
  obtain ⟨st₁, di₁, h₁⟩ := storeBytes_runs 52 (stackPage * 4096 + 0)
    (process c stackPage (some block :: some block :: rest) 0 (fun _ => false) false)
    (stack_pages (by omega)) (by omega)
  have hbuf : stackPage * 4096 + 0 ≠ 0 := by omega
  have hle : 0 + 52 ≤ c.length := by omega
  obtain ⟨st₂, di₂, h₂⟩ := sysRead_runs
    (s := process c stackPage (some block :: some block :: rest) 0 st₁ di₁)
    hbuf rfl hread hamount hle hlen (by omega) (fun _ => rfl) (stack_pages (by omega))
  refine ⟨some block :: some block :: rest, st₂, di₂, fun t => ?_⟩
  unfold sysExecv load
  rw [bind_bind, bind_runs get_runs, bind_bind]
  change (storeBytes 52 (stackPage * 4096 + 0) >>= _) () t _ = _
  rw [bind_runs h₁, bind_bind]
  change (sysRead (stackPage * 4096 + 0) 52 >>= _) () t
    (process c stackPage (some block :: some block :: rest) 0 st₁ di₁) = _
  rw [bind_runs h₂]
  change ((if some 52 ≠ some 52 then (pure (-1) : LoaderM ℤ)
    else if ¬Acceptable (c.take 52) then pure (-1)
    else loadHeaders (field (c.take 52) 44 2) (field (c.take 52) 28 4) >>= fun loaded =>
      if loaded = true then pure (Int.bmod (field (c.take 52) 24 4) (2 ^ 32)) else pure (-1)) >>=
        setIntrStack) () t (process c stackPage rest 52 st₂ di₂) = _
  have hfinish : finish c = fun loaded =>
      (if loaded = true then pure (Int.bmod (field (c.take 52) 24 4) (2 ^ 32))
        else pure (-1)) >>= setIntrStack := by
    funext loaded
    unfold finish
    rfl
  rw [if_neg (by simp), if_neg (by simpa using hacc), bind_bind, hfinish]

theorem Arrives.other (h : Arrives c (left + 1) off pos) (hlen : c.length < 2 ^ 32)
    (hw : Whole c (seek c pos off)) (ht : (headerAt c (seek c pos off)).type ≠ ptLoad) :
    Arrives c left ((off + 32) % 2 ^ 32) (seek c pos off + 32) := by
  intro stackPage hP rest
  obtain ⟨heap, st, di, hrun⟩ := h stackPage hP (some block :: some block :: rest)
  obtain ⟨st', di', hst'⟩ := loadHeaders_runs left off rest hlen hP hw st di
  refine ⟨heap, st', di', fun t => ?_⟩
  rw [hrun t]
  apply bind_congr_end
  rw [hst' t]
  unfold round
  rw [if_neg ht]

theorem Arrives.segment (h : Arrives c (left + 1) off pos) (hlen : c.length < 2 ^ 32)
    (hw : Whole c (seek c pos off)) (ht : (headerAt c (seek c pos off)).type = ptLoad)
    (hg : InUserSpace c (headerAt c (seek c pos off))
      (seek c (seek c pos off + 32) (headerAt c (seek c pos off)).offset)) {pos' : ℕ}
    (hp : Passed c (seek c (seek c pos off + 32) (headerAt c (seek c pos off)).offset)
      (headerAt c (seek c pos off)) pos') : Arrives c left ((off + 32) % 2 ^ 32) pos' := by
  intro stackPage hP rest
  obtain ⟨heap₁, hseg⟩ := segmentLoad_runs hg hlen hw.1 (headerAt_vaddr_lt _ _)
    (headerAt_filesz_lt _ _) hp rest
  obtain ⟨heap, st, di, hrun⟩ := h stackPage hP (some block :: some block :: heap₁)
  obtain ⟨st₁, di₁, hst₁⟩ := loadHeaders_runs left off heap₁ hlen hP hw st di
  obtain ⟨st₂, di₂, hst₂⟩ := hseg stackPage st₁ di₁
  refine ⟨heap, st₂, di₂, fun t => ?_⟩
  rw [hrun t]
  apply bind_congr_end
  rw [hst₁ t]
  unfold round
  rw [if_pos ht, bind_runs hst₂]
  rfl

/-- A run that comes to the loop ends as the loop and the rest end. -/
theorem not_safe_of_arrives (hP : HeapPage stackPage) {heap rest : List (Option Grant)}
    {st : ℕ → Bool} {di : Bool} {Q : Loader → Prop} (hsafe : Safe c)
    (hrun : ∀ t, sysExecv () t (process c stackPage heap 0 (fun _ => false) false) =
      (loadHeaders left off >>= finish c) () t (process c stackPage rest pos st di))
    (hw : wp Q () (loadHeaders left off >>= finish c) (fun _ r => Q r)
      (process c stackPage rest pos st di)) :
    ∃ r, Q r ∧ Confined (process c stackPage heap 0 (fun _ => false) false) r := by
  have hs := hsafe (process c stackPage heap 0 (fun _ => false) false) (process_caller hP) rfl 0
  have hq := hw 0
  rw [hrun 0] at hs
  cases hm : (loadHeaders left off >>= finish c) () 0 (process c stackPage rest pos st di) with
  | returned v t r =>
    rw [hm] at hs hq
    exact ⟨r, hq, hs⟩
  | stopped r =>
    rw [hm] at hs hq
    exact ⟨r, hq, hs⟩

/-- Without frames the first page gets its bit only. -/
theorem segmentLoad_no_frame {offset fileSize vaddr : ℕ} (hm : s.mapped (vaddr / 4096) = false)
    (hf : s.frames = 0) :
    Runs (segmentLoad offset fileSize vaddr) s false (s.mark (vaddr / 4096)) := by
  obtain ⟨k, hk⟩ := occupyPages_pos fileSize vaddr
  have hmap : Runs (mapSegment vaddr (k + 1) (vaddr / 4096)) s false (s.mark (vaddr / 4096)) := by
    intro t
    unfold mapSegment getOnePage
    rw [bind_runs get_runs, if_neg (by simp [hm]), bind_bind, bind_runs modify_runs, bind_bind,
      bind_runs get_runs, if_pos (show (s.mark (vaddr / 4096)).frames = 0 from hf)]
    rfl
  intro t
  unfold segmentLoad
  rw [hk, bind_runs hmap]
  rfl

/-- When a segment cannot be loaded the call returns -1. -/
theorem loadHeaders_fails (hrun : ∀ t, loadHeaders (left + 1) off () t s = round left off g () t s')
    (ht : g.type = ptLoad) (hfail : Runs (segmentLoad g.offset g.filesz g.vaddr) s' false r) :
    Runs (loadHeaders (left + 1) off >>= finish c) s (-1) r := by
  intro t
  rw [bind_congr_end (hrun t)]
  have hround : Runs (round left off g) s' false r := by
    intro t
    unfold round
    rw [if_pos ht, bind_runs hfail]
    rfl
  rw [bind_runs hround]
  rfl

/-- A segment that is read for which the address `a` is one of those it is stored at. -/
theorem wp_round_stored (left off : ℕ) (st : ℕ → Bool) (di : Bool) (ht : g.type = ptLoad)
    (hpage : userPage (g.vaddr / 4096) = true ∨ resident (g.vaddr / 4096) = true)
    (hsize : readCount c.length (seek c pos g.offset) g.filesz = some n)
    (hn : amount c (seek c pos g.offset) g.filesz = some n) (hda : g.vaddr ≤ a)
    (hlt : a < g.vaddr + n) (ha : a < 2 ^ 32)
    (hm : ∀ x, g.vaddr ≤ x → x ≤ a → pagesOf stackPage (x / 4096) = true) :
    wp (StoredAt a) () (round left off g >>= finish c) (fun _ r => StoredAt a r)
      (process c stackPage [some block, some block] pos st di) := by
  have hne : g.vaddr ≠ 0 := by
    intro h0
    rw [h0] at hpage
    simp [userPage, resident] at hpage
  have hfirst : (process c stackPage [some block, some block] pos st di).mapped (g.vaddr / 4096) = true := by
    obtain hu | hu := hpage <;> simp [process, pagesOf, hu]
  have hsegment : wp (StoredAt a) () (segmentLoad g.offset g.filesz g.vaddr)
      (fun _ r => StoredAt a r) (process c stackPage [some block, some block] pos st di) := by
    intro t
    unfold segmentLoad
    rw [bind_returned (mapSegment_mapped hfirst _ _ t), if_pos rfl]
    unfold sysLseek
    rw [bind_runs modify_runs]
    refine wp_call (wp_sysRead_stored hne rfl ?_ ?_ hda hlt ha ?_ hm) (fun _ r hr => ?_) t
    · exact hsize
    · exact hn
    · exact fun _ => rfl
    · exact wp_pure.mpr hr
  apply wp_call (R := fun _ r => StoredAt a r)
  · unfold round
    rw [if_pos ht]
    exact wp_call hsegment fun loaded r hr =>
      ((loadHeaders_preserves _ _).ite (preserves_pure _)) () r hr
  · intro loaded r hr
    unfold finish
    exact Preserves.bind ((preserves_pure _).ite (preserves_pure _))
      (fun _ => setIntrStack_preserves) () r hr

/-- A safe file has the segments that the loop comes to in user space. -/
theorem Arrives.inUserSpace (h : Arrives c (left + 1) off pos) (hsafe : Safe c)
    (hlen : c.length < 2 ^ 32) (hw : Whole c (seek c pos off))
    (ht : (headerAt c (seek c pos off)).type = ptLoad) :
    InUserSpace c (headerAt c (seek c pos off))
      (seek c (seek c pos off + 32) (headerAt c (seek c pos off)).offset) := by
  set g := headerAt c (seek c pos off) with hg
  have hv : g.vaddr < 2 ^ 32 := headerAt_vaddr_lt _ _
  have hq : seek c (seek c pos off + 32) g.offset ≤ c.length := seek_le hw.1
  have hpage : userPage (g.vaddr / 4096) = true ∨ resident (g.vaddr / 4096) = true := by
    by_contra hc
    obtain ⟨hu, hr⟩ := not_or.mp hc
    -- the PCB is on another page, so that the page of the segment is not present
    obtain ⟨stackPage, hP, hne⟩ : ∃ P, HeapPage P ∧ g.vaddr / 4096 ≠ P := by
      by_cases h0 : g.vaddr / 4096 = 0xc0100
      · exact ⟨0xc0101, ⟨by omega, by omega⟩, by omega⟩
      · exact ⟨0xc0100, ⟨by omega, by omega⟩, h0⟩
    obtain ⟨heap, st, di, hrun⟩ := h stackPage hP [some block, some block]
    obtain ⟨st₁, di₁, hst₁⟩ := loadHeaders_runs left off [] hlen hP hw st di
    rw [← hg] at hst₁
    have hfail := loadHeaders_fails (c := c) hst₁ ht (segmentLoad_no_frame
      (by simp [process, pagesOf, hu, hr, hne]) rfl)
    set b := (g.vaddr / 4096 + 2 ^ 20 - 8) % 2 ^ 20 with hb
    obtain ⟨r, hmarked, hconf⟩ := @not_safe_of_arrives _ _ _ _ _ hP _ _ _ _
      (fun r => r.marked b = true) hsafe hrun (fun t => by
        rw [hfail t]
        simp [mark, hb])
    obtain hm | hm := hconf.bits b hmarked
    · simp [process] at hm
    · simp only [userPage, resident, Bool.or_eq_true, Bool.and_eq_true, decide_eq_true_eq] at hu hr
      unfold bitMapLength at hm
      omega
  refine ⟨hpage, fun n hn => ?_⟩
  by_contra hc
  obtain ⟨hn0, hover⟩ := not_or.mp hc
  have hP : HeapPage 0xc0100 := ⟨by omega, by omega⟩
  obtain ⟨heap, st, di, hrun⟩ := h 0xc0100 hP [some block, some block, some block, some block]
  obtain ⟨st₁, di₁, hst₁⟩ := loadHeaders_runs left off [some block, some block] hlen hP hw st di
  rw [← hg] at hst₁
  obtain ⟨size, hsize⟩ : ∃ size,
      readCount c.length (seek c (seek c pos off + 32) g.offset) g.filesz = some size := by
    cases hr : readCount c.length (seek c (seek c pos off + 32) g.offset) g.filesz with
    | none => exact absurd (amount_of_none hr hn) hn0
    | some size => exact ⟨size, rfl⟩
  obtain rfl := amount_of_some hsize hn
  -- the first byte of the kernel that the segment covers
  set a := max g.vaddr 0xc0000000 with ha
  have hkernel : resident (a / 4096) = true := by
    simp only [userPage, resident, Bool.or_eq_true, Bool.and_eq_true, decide_eq_true_eq] at hpage ⊢
    omega
  have hpages : ∀ x, g.vaddr ≤ x → x ≤ a → pagesOf 0xc0100 (x / 4096) = true := by
    intro x hx hxa
    simp only [pagesOf, userPage, resident, Bool.or_eq_true, Bool.and_eq_true,
      decide_eq_true_eq] at hpage hkernel ⊢
    omega
  have hstore := wp_round_stored left off st₁ di₁ ht hpage hsize hn
    (le_max_left _ _ : g.vaddr ≤ a) (by omega) (by omega) hpages
  obtain ⟨r, hstored, hconf⟩ := @not_safe_of_arrives _ _ _ _ _ hP _ _ _ _ (StoredAt a) hsafe hrun
    (fun t => by
      rw [bind_congr_end (hst₁ t)]
      exact hstore t)
  obtain hs | hs := hconf.bytes a hstored
  · simp [process] at hs
  · simp only [resident, Bool.or_eq_true, Bool.and_eq_true, decide_eq_true_eq] at hkernel
    obtain hs | hs := hs
    · omega
    · have : a / 4096 = 0xc0100 := hs
      omega

theorem Comes.arrives (hlen : c.length < 2 ^ 32) (hsafe : Safe c) (h : Comes c left off pos) :
    Arrives c left off pos := by
  induction h with
  | start hsize hacc => exact arrives_start hlen hsize hacc
  | other _ hw ht ih => exact ih.other hlen hw ht
  | read _ hw hg ht hn ih =>
    subst hg
    exact ih.segment hlen hw ht (ih.inUserSpace hsafe hlen hw ht) (.inr ⟨_, hn, rfl⟩)
  | unread _ hw hg ht ih =>
    subst hg
    exact ih.segment hlen hw ht (ih.inUserSpace hsafe hlen hw ht) (.inl rfl)

theorem harmless_of_safe (hlen : c.length < 2 ^ 32) (h : Safe c) : Harmless c :=
  fun _ _ _ hcomes hw ht => (hcomes.arrives hlen h).inUserSpace h hlen hw ht

end Reached

section Law

theorem Comes.left_le (h : Comes c left off pos) : left ≤ field (c.take 52) 44 2 ∧
    (left = field (c.take 52) 44 2 → off = field (c.take 52) 28 4 ∧ pos = 52) := by
  induction h with
  | start => exact ⟨le_rfl, fun _ => ⟨rfl, rfl⟩⟩
  | other _ _ _ ih => exact ⟨by omega, by omega⟩
  | read _ _ _ _ _ ih => exact ⟨by omega, by omega⟩
  | unread _ _ _ _ ih => exact ⟨by omega, by omega⟩

/-- A file of 84 bytes whose segment is the whole file and goes to address `0x10000` of the 16 MiB
that `high` is the number of. -/
def segmentFile (high : UInt8) : List UInt8 :=
  [127, 69, 76, 70, 1, 1, 1, 0, 0, 0, 0, 0, 0, 0, 0, 0, 2, 0, 3, 0, 1, 0, 0, 0,
    0, 0, 1, high, 52, 0, 0, 0, 0, 0, 0, 0, 0, 0, 0, 0, 52, 0, 32, 0, 1, 0, 0, 0, 0, 0, 0, 0,
    1, 0, 0, 0, 0, 0, 0, 0, 0, 0, 1, high, 0, 0, 0, 0, 84, 0, 0, 0, 84, 0, 0, 0,
    5, 0, 0, 0, 0, 16, 0, 0]

theorem segmentFile_comes (h : Comes (segmentFile 0) (left + 1) off pos) :
    left = 0 ∧ off = field ((segmentFile 0).take 52) 28 4 ∧ pos = 52 := by
  have hnum : field ((segmentFile 0).take 52) 44 2 = 1 := by decide
  obtain ⟨hle, hfirst⟩ := h.left_le
  obtain ⟨rfl, rfl⟩ := hfirst (by omega)
  exact ⟨by omega, rfl, rfl⟩

/-- The process that executes a file for the kernel's memory, with memory for the three reads. -/
def intruder : Loader :=
  process (segmentFile 192) 0xc0100 (List.replicate 6 (some block)) 0 (fun _ => false) false

theorem intruder_returns : (sysExecv () 0 intruder).value = some 0 := by decide +kernel

theorem intruder_stores : (sysExecv () 0 intruder).state.stored 0xc0010000 = true := by
  decide +kernel

theorem intruder_run : ∃ s', Returns () sysExecv intruder 0 s' ∧ s'.stored 0xc0010000 = true :=
  ⟨(sysExecv () 0 intruder).state, .of_value intruder_returns, intruder_stores⟩

theorem intruder_caller : Caller intruder := process_caller ⟨by decide, by decide⟩

/-- One run that stores a byte elsewhere shows that a file is not safe. -/
theorem not_safe_of_run {v : ℤ} (hs : Caller s)
    (hrun : ∃ s', Returns () sysExecv s v s' ∧ s'.stored a = true) (h0 : s.stored a = false)
    (ha : ¬Allowed s a) : ¬Safe s.content := by
  intro hsafe
  obtain ⟨s', hret, hstored⟩ := hrun
  obtain h | h := (hret.of_wp (hsafe s hs rfl)).bytes a hstored
  · simp [h0] at h
  · exact ha h

theorem intruder_not_allowed : ¬Allowed intruder 0xc0010000 := by
  have hpage : intruder.stackPage = 0xc0100 := by simp [intruder, process]
  unfold Allowed
  rw [hpage]
  omega

end Law

end Gogoos.Loader
