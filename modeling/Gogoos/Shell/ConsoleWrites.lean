import Gogoos.Fs.Contents
import Gogoos.Kernel.Positions

/-!
# Writes to the console

`sysWrite` on `stdout` copies its bytes to a buffer of 1024 bytes on the stack and shows them as a
string; the loop of `buildinRf` shows a file in this way.
-/

namespace Gogoos.Console

open Program

variable {e : Heap} {stack : ℕ → ℕ → UInt8} {string : ℕ → UInt8} {buf content : List UInt8}
  {keys : ℕ → UInt8} {fd : ℤ} {slot pos fuel : ℕ}

section Programs

structure Terminal where
  fs : Fs
  screen : List UInt8
  /-- The writes to the console so far. -/
  writes : ℕ

abbrev TermM (α : Type) : Type := Program Heap Terminal α

def Terminal.add (s : Terminal) (l : List UInt8) : Terminal := { s with screen := s.screen ++ l }

def Terminal.next (s : Terminal) : Terminal := { s with writes := s.writes + 1 }

def Terminal.setFs (s : Terminal) (fs : Fs) : Terminal := { s with fs := fs }

def sysPutChar (c : UInt8) : TermM Unit := modify fun s => s.add [c]

/-- A run that needs more than `fuel` characters does not return. -/
def putString (string : ℕ → UInt8) : (fuel i : ℕ) → TermM Unit
  | 0, _ => halt
  | fuel + 1, i =>
    if string i = 0 then pure ()
    else do
      sysPutChar (string i)
      putString string fuel (i + 1)

/-- The memory from `tmpBuf` on, over what the stack held there. -/
def tmpBuf (stack : ℕ → UInt8) (buf : List UInt8) : ℕ → UInt8 :=
  memcpy (memset stack 0 0 1024) 0 (fun i => buf.getD i 0) buf.length

/-- `sysWrite(stdout, buf, count)`; `stack n` is the memory on the stack at the write number `n`. -/
def sysWrite (stack : ℕ → ℕ → UInt8) (fuel : ℕ) (buf : List UInt8) : TermM ℤ := do
  assert (buf.length ≤ 1024)
  let s ← get
  modify Terminal.next
  putString (tmpBuf (stack s.writes) buf) fuel 0
  return buf.length

/-- The loop of `buildinRf`. -/
def rfLoop (stack : ℕ → ℕ → UInt8) (fuel : ℕ) (keys : ℕ → UInt8) (fd : ℤ) : (rounds : ℕ) → TermM Unit
  | 0 => halt
  | rounds + 1 => do
    let cnt ← zoom Terminal.fs (fun fs s => s.setFs fs) (sysRead keys fd 1024)
    match cnt with
    | none => pure ()
    | some bytes => do
      let _ ← sysWrite stack fuel bytes
      rfLoop stack fuel keys fd rounds

end Programs

section Strings

variable {s : Terminal}

theorem wp_putString : ∀ n i fuel s, n < fuel → string (i + n) = 0 →
    (∀ k < n, string (i + k) ≠ 0) →
    wp noStop e (putString string fuel i)
      (fun _ s' => s' = s.add ((List.range' i n).map string)) s := by
  intro n
  induction n with
  | zero =>
    intro i fuel s hfuel hend _
    cases fuel with
    | zero => exact absurd hfuel (Nat.not_lt_zero _)
    | succ fuel =>
      unfold putString
      rw [Nat.add_zero] at hend
      rw [if_pos hend, wp_pure]
      unfold Terminal.add
      rw [List.range'_zero, List.map_nil, List.append_nil]
  | succ n ih =>
    intro i fuel s hfuel hend hne
    cases fuel with
    | zero => exact absurd hfuel (Nat.not_lt_zero _)
    | succ fuel =>
      unfold putString sysPutChar
      have hfirst : string i ≠ 0 := hne 0 (Nat.succ_pos n)
      rw [if_neg hfirst, wp_modify_bind]
      apply wp_mono (ih (i + 1) fuel _ (by omega) (by rw [← hend]; congr 1; omega) ?_)
      · rintro _ s' rfl
        unfold Terminal.add
        rw [List.range'_succ, List.map_cons, List.append_assoc]
        rfl
      · intro k hk
        have hk' := hne (k + 1) (by omega)
        rwa [show i + (k + 1) = i + 1 + k by omega] at hk'

/-- A string that was shown has an end. -/
theorem wp_putString_any : ∀ fuel i s, wp anyStop e (putString string fuel i)
    (fun _ s' => ∃ n, string (i + n) = 0 ∧ (∀ k < n, string (i + k) ≠ 0) ∧
      s' = s.add ((List.range' i n).map string)) s := by
  intro fuel
  induction fuel with
  | zero =>
    intro i s
    unfold putString
    rw [wp_halt]
    trivial
  | succ fuel ih =>
    intro i s
    unfold putString
    by_cases h0 : string i = 0
    · rw [if_pos h0, wp_pure]
      refine ⟨0, h0, fun k hk => absurd hk (Nat.not_lt_zero k), ?_⟩
      unfold Terminal.add
      rw [List.range'_zero, List.map_nil, List.append_nil]
    · unfold sysPutChar
      rw [if_neg h0, wp_modify_bind]
      apply wp_mono (ih (i + 1) _)
      rintro _ s' ⟨n, hend, hne, rfl⟩
      refine ⟨n + 1, ?_, fun k hk => ?_, ?_⟩
      · rwa [show i + (n + 1) = i + 1 + n by omega]
      · cases k with
        | zero => exact h0
        | succ k =>
          have hk' := hne k (by omega)
          rwa [show i + (k + 1) = i + 1 + k by omega]
      · unfold Terminal.add
        rw [List.range'_succ, List.map_cons, List.append_assoc]
        rfl

theorem tmpBuf_inside {stack : ℕ → UInt8} {i : ℕ} (hi : i < buf.length) :
    tmpBuf stack buf i = buf.getD i 0 := by
  unfold tmpBuf memcpy
  rw [if_pos (by omega), Nat.sub_zero]

/-- The bytes of `tmpBuf` behind those that were copied. -/
theorem tmpBuf_end {stack : ℕ → UInt8} (hlen : buf.length ≤ 1024) :
    tmpBuf stack buf buf.length = if buf.length = 1024 then stack 1024 else 0 := by
  unfold tmpBuf memcpy memset
  rw [if_neg (by omega)]
  split_ifs with h1 h2 h2
  · omega
  · rfl
  · rw [h2]
  · omega

theorem tmpBuf_map {stack : ℕ → UInt8} :
    (List.range' 0 buf.length).map (tmpBuf stack buf) = buf := by
  apply List.ext_getElem
  · rw [List.length_map, List.length_range']
  · intro i h1 h2
    rw [List.getElem_map, List.getElem_range', tmpBuf_inside (by omega), List.getD_eq_getElem?_getD,
      List.getElem?_eq_getElem (by omega)]
    simp

end Strings

section Writes

variable {s : Terminal}

theorem wp_sysWrite (hlen : buf.length ≤ 1024) (hzero : (0 : UInt8) ∉ buf)
    (hstack : buf.length = 1024 → stack s.writes 1024 = 0) (hfuel : 1024 < fuel) :
    wp noStop e (sysWrite stack fuel buf) (fun r s' => r = buf.length ∧ s' = s.next.add buf) s := by
  have hend : tmpBuf (stack s.writes) buf (0 + buf.length) = 0 := by
    rw [Nat.zero_add, tmpBuf_end hlen]
    split_ifs with h
    · exact hstack h
    · rfl
  have hne : ∀ k < buf.length, tmpBuf (stack s.writes) buf (0 + k) ≠ 0 := by
    intro k hk h0
    rw [Nat.zero_add, tmpBuf_inside hk, List.getD_eq_getElem?_getD, List.getElem?_eq_getElem hk] at h0
    exact hzero (h0 ▸ List.getElem_mem hk)
  unfold sysWrite
  rw [wp_assert_pos hlen, wp_get_bind, wp_modify_bind]
  apply wp_call (wp_putString buf.length 0 fuel s.next (by omega) hend hne)
  rintro _ s' rfl
  rw [wp_pure, tmpBuf_map]
  exact ⟨rfl, rfl⟩

/-- What is shown has no zero, and is at least as long as bytes without a zero; where it is not
longer, the stack ends it. -/
structure Shown (stack : ℕ → ℕ → UInt8) (first full : ℕ) (bytes shown : List UInt8) : Prop where
  noZero : (0 : UInt8) ∉ shown
  length : (0 : UInt8) ∉ bytes → bytes.length ≤ shown.length
  ends : (0 : UInt8) ∉ bytes → shown.length = bytes.length →
    ∀ k < full, stack (first + k) 1024 = 0

theorem wp_sysWrite_any (hlen : buf.length ≤ 1024) :
    wp anyStop e (sysWrite stack fuel buf) (fun r s' => r = buf.length ∧ ∃ shown,
      s' = s.next.add shown ∧ Shown stack s.writes (buf.length / 1024) buf shown) s := by
  unfold sysWrite
  rw [wp_assert_pos hlen, wp_get_bind, wp_modify_bind]
  apply wp_call (wp_putString_any fuel 0 s.next)
  rintro _ s' ⟨n, hend, hne, rfl⟩
  rw [wp_pure]
  simp only [Nat.zero_add] at hend hne
  refine ⟨rfl, _, rfl, ?_⟩
  have hle : (0 : UInt8) ∉ buf → buf.length ≤ n := by
    intro hzero
    by_contra hlt
    rw [tmpBuf_inside (not_le.mp hlt), List.getD_eq_getElem?_getD,
      List.getElem?_eq_getElem (not_le.mp hlt)] at hend
    exact hzero (hend ▸ List.getElem_mem _)
  constructor
  · intro hmem
    obtain ⟨k, hk, h0⟩ := List.mem_map.mp hmem
    have hkn := (List.mem_range'_1.mp hk).2
    exact hne k (by omega) h0
  · intro hzero
    rw [List.length_map, List.length_range']
    exact hle hzero
  · intro hzero heq k hk
    rw [List.length_map, List.length_range'] at heq
    have hfull : buf.length = 1024 := by omega
    obtain rfl : k = 0 := by omega
    rw [heq, tmpBuf_end hlen, if_pos hfull] at hend
    exact hend

end Writes

section Reads

variable {s : Terminal} {fs : Fs}

/-- The file is open under `fd`, at `pos`. -/
structure Reading (fd : ℤ) (slot : ℕ) (content : List UInt8) (pos : ℕ) (fs : Fs) : Prop where
  entry : fs.fdTable fd.toNat = slot
  file : ∃ p, (fs.fileTable slot).fdInode = some p ∧ FileOk fs.vol (fs.vol.inodes p) content
  current : (fs.fileTable slot).fdPos = pos
  le : pos ≤ content.length

theorem wp_sysRead (he : ∀ t, e.sysMalloc t = true) (hfd : 2 < fd) (hslot : slot < 32)
    (h : Reading fd slot content pos fs) :
    wp noStop e (sysRead keys fd 1024) (fun r fs' =>
      r = (if pos = content.length then none else some (part content pos 1024)) ∧
      Reading fd slot content (pos + (part content pos 1024).length) fs') fs := by
  obtain ⟨p, hinode, hok⟩ := h.file
  have hpos := h.current
  have hle := h.le
  have hentry := h.entry
  unfold sysRead
  rw [if_neg (by omega), if_neg (by omega)]
  unfold fdLocalToGlobal
  simp only [wp_bind_assoc, wp_get_bind]
  rw [wp_assert_pos (by rw [hentry]; omega), wp_pure_bind, hentry, Int.toNat_natCast]
  apply wp_mono (wp_fileRead_ok he hok hinode (by omega) (by decide))
  rintro r fs' ⟨hr, rfl⟩
  rw [hpos] at hr ⊢
  refine ⟨?_, hentry, ⟨p, ?_, hok⟩, ?_, ?_⟩
  · rw [hr]
    congr 1
    exact propext ⟨fun h => h.2, fun h => ⟨by decide, h⟩⟩
  · simpa using hinode
  · simp
  · unfold part
    rw [List.length_take, List.length_drop]
    omega

theorem part_append_drop : part content pos 1024 ++
    content.drop (pos + (part content pos 1024).length) = content.drop pos := by
  have hprefix : part content pos 1024 <+: content.drop pos := List.take_prefix _ _
  rw [← List.drop_drop]
  exact List.prefix_iff_eq_append.mp hprefix

theorem length_chunk : (part content pos 1024).length = min 1024 (content.length - pos) := by
  unfold part
  rw [List.length_take, List.length_drop]

end Reads

section Loop

theorem wp_rfLoop (he : ∀ t, e.sysMalloc t = true) (hfd : 2 < fd) (hslot : slot < 32)
    (hfuel : 1024 < fuel) : ∀ n pos s, content.length - pos ≤ 1024 * n →
    Reading fd slot content pos s.fs → (0 : UInt8) ∉ content.drop pos →
    (∀ k < (content.length - pos) / 1024, stack (s.writes + k) 1024 = 0) →
    wp noStop e (rfLoop stack fuel keys fd (n + 1))
      (fun _ s' => s'.screen = s.screen ++ content.drop pos) s := by
  intro n
  induction n with
  | zero =>
    intro pos s hn hread _ _
    have hle := hread.le
    have hend : pos = content.length := by omega
    unfold rfLoop
    apply wp_bind
    apply wp_zoom
    apply wp_mono (wp_sysRead he hfd hslot hread)
    rintro r fs' ⟨hr, -⟩
    rw [if_pos hend] at hr
    rw [hr]
    change wp noStop e (pure ()) _ _
    rw [wp_pure, hend, List.drop_length, List.append_nil]
    rfl
  | succ n ih =>
    intro pos s hn hread hzero hstack
    have hle := hread.le
    unfold rfLoop
    apply wp_bind
    apply wp_zoom
    apply wp_mono (wp_sysRead he hfd hslot hread)
    rintro r fs' ⟨hr, hread'⟩
    by_cases hend : pos = content.length
    · rw [if_pos hend] at hr
      rw [hr]
      change wp noStop e (pure ()) _ _
      rw [wp_pure, hend, List.drop_length, List.append_nil]
      rfl
    rw [if_neg hend] at hr
    rw [hr]
    have happ : part content pos 1024 ++ _ = content.drop pos := part_append_drop
    have hlen : (part content pos 1024).length = _ := length_chunk
    have hchunk : (0 : UInt8) ∉ part content pos 1024 :=
      fun hmem => hzero (happ ▸ List.mem_append_left _ hmem)
    have hrest : (0 : UInt8) ∉ content.drop (pos + (part content pos 1024).length) :=
      fun hmem => hzero (happ ▸ List.mem_append_right _ hmem)
    change wp noStop e (sysWrite stack fuel (part content pos 1024) >>= fun _ =>
      rfLoop stack fuel keys fd (n + 1)) _ (s.setFs fs')
    have hfirst : (part content pos 1024).length = 1024 → stack (s.setFs fs').writes 1024 = 0 :=
      fun hfull => hstack 0 (by omega)
    apply wp_call (wp_sysWrite (by omega) hchunk hfirst hfuel)
    rintro _ s' ⟨-, rfl⟩
    apply wp_mono (ih _ _ (by omega) hread' hrest ?_)
    · intro _ s' hs'
      rw [hs', ← happ, ← List.append_assoc]
      rfl
    · intro k hk
      have hk' := hstack (k + 1) (by omega)
      rw [show s.writes + (k + 1) = s.writes + 1 + k by omega] at hk'
      exact hk'

theorem wp_rfLoop_any (he : ∀ t, e.sysMalloc t = true) (hfd : 2 < fd) (hslot : slot < 32) :
    ∀ rounds pos s, Reading fd slot content pos s.fs →
    wp anyStop e (rfLoop stack fuel keys fd rounds) (fun _ s' => ∃ shown,
      s'.screen = s.screen ++ shown ∧
      Shown stack s.writes ((content.length - pos) / 1024) (content.drop pos) shown) s := by
  intro rounds
  induction rounds with
  | zero =>
    intro pos s _
    unfold rfLoop
    rw [wp_halt]
    trivial
  | succ rounds ih =>
    intro pos s hread
    have hle := hread.le
    unfold rfLoop
    apply wp_bind
    apply wp_zoom
    apply wp_mono (wp_of_noStop (wp_sysRead he hfd hslot hread))
    rintro r fs' ⟨hr, hread'⟩
    by_cases hend : pos = content.length
    · rw [if_pos hend] at hr
      rw [hr]
      change wp anyStop e (pure ()) _ _
      rw [wp_pure, hend]
      refine ⟨[], (List.append_nil _).symm, List.not_mem_nil, fun _ => ?_, fun _ _ k hk => ?_⟩
      · rw [List.drop_length]
      · omega
    rw [if_neg hend] at hr
    rw [hr]
    have happ : part content pos 1024 ++ _ = content.drop pos := part_append_drop
    have hlen : (part content pos 1024).length = _ := length_chunk
    have hdrop : (content.drop (pos + (part content pos 1024).length)).length = _ :=
      List.length_drop
    have hall : (content.drop pos).length = _ := List.length_drop
    change wp anyStop e (sysWrite stack fuel (part content pos 1024) >>= fun _ =>
      rfLoop stack fuel keys fd rounds) _ (s.setFs fs')
    apply wp_call (wp_sysWrite_any (by omega))
    rintro _ s' ⟨-, shown₁, rfl, h₁⟩
    apply wp_mono (ih _ _ hread')
    rintro _ s' ⟨shown₂, hs', h₂⟩
    have hsplit : (0 : UInt8) ∉ content.drop pos → (0 : UInt8) ∉ part content pos 1024 ∧
        (0 : UInt8) ∉ content.drop (pos + (part content pos 1024).length) := by
      intro hzero
      rw [← happ] at hzero
      exact ⟨fun hm => hzero (List.mem_append_left _ hm), fun hm => hzero (List.mem_append_right _ hm)⟩
    refine ⟨shown₁ ++ shown₂, ?_, ?_, fun hzero => ?_, fun hzero heq k hk => ?_⟩
    · rw [hs', ← List.append_assoc]
      rfl
    · intro hmem
      rcases List.mem_append.mp hmem with hmem | hmem
      · exact h₁.noZero hmem
      · exact h₂.noZero hmem
    · have hl₁ := h₁.length (hsplit hzero).1
      have hl₂ := h₂.length (hsplit hzero).2
      rw [List.length_append]
      omega
    · have hl₁ := h₁.length (hsplit hzero).1
      have hl₂ := h₂.length (hsplit hzero).2
      rw [List.length_append] at heq
      cases k with
      | zero => exact h₁.ends (hsplit hzero).1 (by omega) 0 (by omega)
      | succ k =>
        have hk' := h₂.ends (hsplit hzero).2 (by omega) k (by omega)
        rw [show s.writes + (k + 1) = s.writes + 1 + k by omega]
        exact hk'

end Loop

section Law

variable {s : Terminal}

/-- A write is exact when its bytes have no zero and either `tmpBuf` has room for the terminating
zero or the stack has one behind it; a file is shown exactly when this is so of each write. -/
theorem console_law (he : ∀ t, e.sysMalloc t = true) (hfd : 2 < fd) (hslot : slot < 32)
    (hread : Reading fd slot content 0 s.fs) :
    (∀ s : Terminal, ∀ buf, buf.length ≤ 1024 →
      ((∃ fuel s', Returns e (sysWrite stack fuel buf) s buf.length s' ∧
        s'.screen = s.screen ++ buf) ↔
        (0 : UInt8) ∉ buf ∧ (buf.length = 1024 → stack s.writes 1024 = 0))) ∧
    ((∃ fuel rounds s', Returns e (rfLoop stack fuel keys fd rounds) s () s' ∧
      s'.screen = s.screen ++ content) ↔
      (0 : UInt8) ∉ content ∧ ∀ k < content.length / 1024, stack (s.writes + k) 1024 = 0) := by
  refine ⟨fun s buf hlen => ⟨?_, ?_⟩, ?_, ?_⟩
  · rintro ⟨fuel, s', hret, hscreen⟩
    obtain ⟨-, shown, rfl, hshown⟩ := hret.of_wp (wp_sysWrite_any hlen)
    obtain rfl : shown = buf := List.append_cancel_left hscreen
    exact ⟨hshown.noZero, fun hfull => hshown.ends hshown.noZero rfl 0 (by omega)⟩
  · rintro ⟨hzero, hstack⟩
    obtain ⟨r, s', hret, rfl, rfl⟩ := wp_noStop_returns
      (@wp_sysWrite e stack buf 1025 s hlen hzero hstack (Nat.lt_succ_self 1024))
    exact ⟨1025, _, hret, rfl⟩
  · rintro ⟨fuel, rounds, s', hret, hscreen⟩
    obtain ⟨shown, hs', hshown⟩ := hret.of_wp (wp_rfLoop_any he hfd hslot rounds 0 s hread)
    obtain rfl : shown = content := List.append_cancel_left (hs'.symm.trans hscreen)
    exact ⟨hshown.noZero, hshown.ends hshown.noZero rfl⟩
  · rintro ⟨hzero, hstack⟩
    obtain ⟨_, s', hret, hs'⟩ := wp_noStop_returns
      (wp_rfLoop he hfd hslot (Nat.lt_succ_self 1024) content.length 0 s (by omega) hread hzero
        hstack)
    exact ⟨1025, _, s', hret, hs'⟩

/-- The file `"hi"` in block 676, open in slot 3 under descriptor 3. -/
def openFs : Fs where
  vol := { sampleVolume with
    disk := fun l i => if l = 676 then (if i = 0 then 104 else if i = 1 then 105 else 0) else 0
    inodes := fun _ => ⟨2, 2, 1, false, fun k => if k = 0 then 676 else 0⟩ }
  fileTable i := ⟨0, 1, if i = 3 then some 1 else none⟩
  fdTable i := if i = 3 then 3 else -1

theorem openFs_block {k : ℕ} : openFs.vol.blockAt (openFs.vol.inodes 1) k =
    if k = 0 then 676 else 0 := by
  by_cases h : k < 12
  · rw [blockAt_direct _ _ h]
    rfl
  · unfold Volume.blockAt
    rw [if_neg h, if_neg fun hb => hb.1 rfl, if_neg (by omega)]

theorem openFs_reading : Reading 3 3 [104, 105] 0 openFs := by
  refine ⟨rfl, ⟨1, rfl, rfl, by decide, .inr ⟨by decide, fun k _ => ?_, by decide⟩, ?_, ?_⟩, rfl,
    Nat.zero_le _⟩
  · rw [openFs_block]
    change _ ↔ k ≤ 0
    split_ifs with h
    · exact ⟨fun _ => h.le, fun _ => by decide⟩
    · exact ⟨fun hne => absurd rfl hne, fun hle => absurd (Nat.le_zero.mp hle) h⟩
  · intro j hj
    have hj2 : j < 2 := hj
    rw [openFs_block]
    interval_cases j <;> rfl
  · intro k
    unfold Volume.ref
    split_ifs
    · decide
    · rw [openFs_block]
      split_ifs <;> decide

def openTerminal : Terminal := ⟨openFs, [], 0⟩

theorem console_law_sample :
    (∀ s : Terminal, ∀ buf, buf.length ≤ 1024 →
      ((∃ fuel s', Returns sampleHeap (sysWrite (fun _ _ => 7) fuel buf) s buf.length s' ∧
        s'.screen = s.screen ++ buf) ↔
        (0 : UInt8) ∉ buf ∧ (buf.length = 1024 → (7 : UInt8) = 0))) ∧
    ((∃ fuel rounds s', Returns sampleHeap (rfLoop (fun _ _ => 7) fuel (fun _ => 0) 3 rounds)
      openTerminal () s' ∧ s'.screen = openTerminal.screen ++ [104, 105]) ↔
      (0 : UInt8) ∉ ([104, 105] : List UInt8) ∧
        ∀ k < ([104, 105] : List UInt8).length / 1024, (7 : UInt8) = 0) :=
  console_law (fun _ => rfl) (by decide) (by decide) openFs_reading

/-- The zero byte ends what is shown. -/
theorem sysWrite_cuts : ¬ ∃ fuel s', Returns sampleHeap (sysWrite (fun _ _ => 0) fuel [104, 0, 105])
    openTerminal 3 s' ∧ s'.screen = openTerminal.screen ++ [104, 0, 105] := by
  rintro ⟨fuel, s', hret, hscreen⟩
  obtain ⟨-, shown, rfl, hshown⟩ := hret.of_wp (wp_sysWrite_any (by decide))
  obtain rfl : shown = [104, 0, 105] := List.append_cancel_left hscreen
  exact hshown.noZero (by decide)

end Law

end Gogoos.Console
