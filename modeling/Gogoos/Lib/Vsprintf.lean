import Gogoos.Lib.Numerals

/-!
# Formatted output

`vsprintf` of `lib/user/stdio.c` on the characters of the format, which are followed by other
memory behind the terminating zero. Every character of the format that is read is on record.
-/

namespace Gogoos.Stdio

variable {old junk : ℕ → UInt8} {text done : List UInt8}

section Programs

/-- An argument that `va_arg` delivers: 32 bits, or a pointer to a string. -/
inductive Arg where
  | word (w : BitVec 32)
  | str (s : List UInt8)

structure Format where
  curChar : UInt8
  fmtPtr : ℕ
  /-- The last one first. -/
  reads : List ℕ
  args : List Arg
  out : Out

/-- `curChar = *(++fmtPtr)`. -/
def Format.advance (fmt : ℕ → UInt8) (s : Format) : Format :=
  { s with
    curChar := fmt (s.fmtPtr + 1), fmtPtr := s.fmtPtr + 1, reads := (s.fmtPtr + 1) :: s.reads }

def strcpy (src : List UInt8) (dst : ℕ) (buf : ℕ → UInt8) : ℕ → UInt8 :=
  match src with
  | [] => fun k => if k = dst then 0 else buf k
  | c :: src => strcpy src (dst + 1) fun k => if k = dst then c else buf k

/-- The argument of `%d` is negated as a 32-bit value. -/
def putSigned (argInt : BitVec 32) (o : Out) : Out :=
  if argInt.toInt < 0 then itoa (0 - argInt).toNat (o.put 45) else itoa argInt.toNat o

def putString (argStr : List UInt8) (o : Out) : Out :=
  ⟨strcpy argStr o.ptr o.buf, o.ptr + argStr.length⟩

/-- `'%'`. -/
def percent : UInt8 := 37

/-- The switch, `none` when the next argument is of the wrong kind. -/
def directive (s : Format) : Option Format :=
  if s.curChar = 100 then
    match s.args with
    | .word w :: args => some { s with args := args, out := putSigned w s.out }
    | _ => none
  else if s.curChar = 120 then
    match s.args with
    | .word w :: args => some { s with args := args, out := itoha w.toNat s.out }
    | _ => none
  else if s.curChar = 99 then
    match s.args with
    | .word w :: args => some { s with args := args, out := s.out.put (UInt8.ofNat w.toNat) }
    | _ => none
  else if s.curChar = 115 then
    match s.args with
    | .str t :: args => some { s with args := args, out := putString t s.out }
    | _ => none
  else some { s with out := s.out.put s.curChar }

/-- The main loop, `none` when the rounds do not suffice. -/
def formatLoop (fmt : ℕ → UInt8) : (fuel : ℕ) → Format → Option Format
  | 0, _ => none
  | fuel + 1, s =>
    if s.curChar = 0 then some s
    else if s.curChar ≠ percent then
      formatLoop fmt fuel (Format.advance fmt { s with out := s.out.put s.curChar })
    else
      match directive (s.advance fmt) with
      | none => none
      | some s => formatLoop fmt fuel (s.advance fmt)

/-- Up to the last line, which measures `buf`. -/
def vsprintf (fuel : ℕ) (buf fmt : ℕ → UInt8) (ap : List Arg) : Option Format :=
  formatLoop fmt fuel ⟨fmt 0, 0, [0], ap, ⟨buf, 0⟩⟩

end Programs

section Specification

/-- The format with its terminating zero; `junk` is what lies behind it. -/
def formatOf (text : List UInt8) (junk : ℕ → UInt8) : ℕ → UInt8 :=
  fun i => if i ≤ text.length then text.getD i 0 else junk i

inductive Piece where
  | literal (c : UInt8)
  | directive (c : UInt8)

def pieces : List UInt8 → List Piece
  | [] => []
  | c :: rest =>
    if c ≠ percent then .literal c :: pieces rest
    else
      match rest with
      | [] => []
      | d :: rest => .directive d :: pieces rest

/-- No directive is cut off by the end of the format. -/
def complete : List UInt8 → Bool
  | [] => true
  | c :: rest =>
    if c ≠ percent then complete rest
    else
      match rest with
      | [] => false
      | _ :: rest => complete rest

def signedNumeral (i : ℤ) : List UInt8 :=
  if i < 0 then 45 :: numeral 10 i.natAbs else numeral 10 i.natAbs

/-- What a directive stands for, and the arguments that are left. -/
def directiveText (c : UInt8) (args : List Arg) : Option (List UInt8 × List Arg) :=
  if c = 100 then
    match args with
    | .word w :: args => some (signedNumeral w.toInt, args)
    | _ => none
  else if c = 120 then
    match args with
    | .word w :: args => some (48 :: 120 :: numeral 16 w.toNat, args)
    | _ => none
  else if c = 99 then
    match args with
    | .word w :: args => some ([UInt8.ofNat w.toNat], args)
    | _ => none
  else if c = 115 then
    match args with
    | .str t :: args => some (t, args)
    | _ => none
  else some ([c], args)

/-- The concatenation, `none` when the arguments do not match. -/
def rendered : List Piece → List Arg → Option (List UInt8)
  | [], _ => some []
  | .literal c :: rest, args => (rendered rest args).map (c :: ·)
  | .directive c :: rest, args =>
    match directiveText c args with
    | none => none
    | some (t, args) => (rendered rest args).map (t ++ ·)

/-- `out` was written, and no character behind the terminating zero of the format was read. -/
structure Formatted (buf : ℕ → UInt8) (text out : List UInt8) (r : Format) : Prop where
  wrote : Wrote buf r.out out
  reads : ∀ i ∈ r.reads, i ≤ text.length

end Specification

section Directives

variable {o : Out}

theorem Wrote.putSigned (h : Wrote old o done) (w : BitVec 32) :
    Wrote old (putSigned w o) (done ++ signedNumeral w.toInt) := by
  unfold Stdio.putSigned signedNumeral
  split_ifs with hneg
  · have habs : (0 - w).toNat = w.toInt.natAbs := by
      rw [BitVec.toInt_eq_toNat_cond] at hneg ⊢
      have hlt := w.isLt
      have hzero : (0 : BitVec 32).toNat = 0 := rfl
      rw [BitVec.toNat_sub, hzero]
      split_ifs at hneg ⊢ <;> omega
    have hput := (h.put 45).itoa (0 - w).isLt
    rw [List.append_assoc, List.singleton_append, habs] at hput
    rw [habs]
    exact hput
  · have habs : w.toNat = w.toInt.natAbs := by
      rw [BitVec.toInt_eq_toNat_cond] at hneg ⊢
      have hlt := w.isLt
      split_ifs at hneg ⊢ <;> omega
    rw [← habs]
    exact h.itoa w.isLt

theorem strcpy_spec : ∀ (src : List UInt8) dst buf,
    (∀ k < src.length, strcpy src dst buf (dst + k) = src.getD k 0) ∧
    strcpy src dst buf (dst + src.length) = 0 ∧
    ∀ k, k < dst ∨ dst + src.length < k → strcpy src dst buf k = buf k := by
  intro src
  induction src with
  | nil =>
    intro dst buf
    refine ⟨fun k hk => absurd hk (Nat.not_lt_zero k), if_pos rfl, fun k hk => if_neg ?_⟩
    rw [List.length_nil] at hk
    omega
  | cons c src ih =>
    intro dst buf
    obtain ⟨h1, h2, h3⟩ := ih (dst + 1) fun k => if k = dst then c else buf k
    unfold strcpy
    rw [List.length_cons]
    refine ⟨fun k hk => ?_, ?_, fun k hk => ?_⟩
    · cases k with
      | zero => exact (h3 dst (by omega)).trans (if_pos rfl)
      | succ k =>
        have hk' := h1 k (by omega)
        rw [show dst + 1 + k = dst + (k + 1) by omega] at hk'
        exact hk'
    · rw [show dst + 1 + src.length = dst + (src.length + 1) by omega] at h2
      exact h2
    · exact (h3 k (by omega)).trans (if_neg (by omega))

theorem Wrote.putString (h : Wrote old o done) (t : List UInt8) :
    Wrote old (putString t o) (done ++ t) := by
  obtain ⟨h1, h2, h3⟩ := strcpy_spec t o.ptr o.buf
  have hptr := h.ptr
  have hlen : (done ++ t).length = done.length + t.length := List.length_append
  constructor
  · rw [hlen, ← hptr]
    rfl
  · intro k hk
    change strcpy t o.ptr o.buf k = _
    rw [hlen] at hk
    by_cases hk' : k < done.length
    · rw [h3 k (by omega), h.text k hk', List.getD_eq_getElem?_getD, List.getD_eq_getElem?_getD,
        List.getElem?_append_left hk']
    · have ht := h1 (k - done.length) (by omega)
      rw [show o.ptr + (k - done.length) = k by omega] at ht
      rw [ht, List.getD_eq_getElem?_getD, List.getD_eq_getElem?_getD,
        List.getElem?_append_right (by omega)]
  · right
    rw [hlen, ← hptr]
    exact h2
  · intro k hk
    rw [hlen] at hk
    exact (h3 k (by omega)).trans (h.rest k (by omega))

/-- A directive writes what it stands for. -/
theorem directive_spec {s : Format} {t : List UInt8} {args : List Arg}
    (h : Wrote old s.out done) (ht : directiveText s.curChar s.args = some (t, args)) :
    ∃ s', directive s = some s' ∧ s'.args = args ∧ s'.fmtPtr = s.fmtPtr ∧ s'.reads = s.reads ∧
      Wrote old s'.out (done ++ t) := by
  unfold directiveText at ht
  unfold directive
  split_ifs at ht ⊢
  · split at ht
    · cases ht
      exact ⟨_, rfl, rfl, rfl, rfl, h.putSigned _⟩
    · cases ht
  · split at ht
    · cases ht
      exact ⟨_, rfl, rfl, rfl, rfl, h.itoha (BitVec.isLt _)⟩
    · cases ht
  · split at ht
    · cases ht
      exact ⟨_, rfl, rfl, rfl, rfl, h.put _⟩
    · cases ht
  · split at ht
    · cases ht
      exact ⟨_, rfl, rfl, rfl, rfl, h.putString _⟩
    · cases ht
  · cases ht
    exact ⟨_, rfl, rfl, rfl, rfl, h.put _⟩

theorem directive_reads {s s' : Format} (h : directive s = some s') : s'.reads = s.reads := by
  unfold directive at h
  split_ifs at h
  all_goals first
    | (split at h <;> cases h <;> rfl)
    | (cases h; rfl)

theorem directive_fmtPtr {s s' : Format} (h : directive s = some s') : s'.fmtPtr = s.fmtPtr := by
  unfold directive at h
  split_ifs at h
  all_goals first
    | (split at h <;> cases h <;> rfl)
    | (cases h; rfl)

/-- The terminating zero is taken for a character to be copied. -/
theorem directive_end {s : Format} (h : s.curChar = 0) :
    ∃ o, directive s = some { s with out := o } := by
  unfold directive
  rw [if_neg (by rw [h]; decide), if_neg (by rw [h]; decide), if_neg (by rw [h]; decide),
    if_neg (by rw [h]; decide)]
  exact ⟨_, rfl⟩

end Directives

section Reading

variable {s : Format} {rest : List UInt8} {c : UInt8}

/-- The cursor stands before `rest`. -/
structure Reading (text : List UInt8) (s : Format) (rest : List UInt8) : Prop where
  drop : text.drop s.fmtPtr = rest
  le : s.fmtPtr ≤ text.length
  cur : s.curChar = rest.headD 0
  reads : ∀ i ∈ s.reads, i ≤ text.length

theorem formatOf_eq {p : ℕ} (hp : p ≤ text.length) :
    formatOf text junk p = (text.drop p).headD 0 := by
  unfold formatOf
  rw [if_pos hp, List.headD_eq_head?_getD, List.head?_drop, List.getD_eq_getElem?_getD]

theorem reading_start (old : ℕ → UInt8) (args : List Arg) :
    Reading text ⟨formatOf text junk 0, 0, [0], args, ⟨old, 0⟩⟩ text := by
  have hfirst : formatOf text junk 0 = text.headD 0 := by
    rw [formatOf_eq (Nat.zero_le _), List.drop_zero]
  refine ⟨rfl, Nat.zero_le _, hfirst, fun i hi => ?_⟩
  obtain rfl := List.mem_singleton.mp hi
  exact Nat.zero_le _

theorem reading_advance (hdrop : text.drop s.fmtPtr = c :: rest)
    (hreads : ∀ i ∈ s.reads, i ≤ text.length) :
    Reading text (s.advance (formatOf text junk)) rest := by
  have hlt : s.fmtPtr < text.length := by
    by_contra hge
    rw [List.drop_eq_nil_of_le (not_lt.mp hge)] at hdrop
    cases hdrop
  have hrest : text.drop (s.fmtPtr + 1) = rest := by
    rw [← List.tail_drop, hdrop]
    rfl
  constructor
  · exact hrest
  · exact hlt
  · exact (formatOf_eq hlt).trans (by rw [hrest])
  · intro i hi
    rcases List.mem_cons.mp hi with rfl | hi
    · exact hlt
    · exact hreads i hi

theorem formatLoop_reads {fmt : ℕ → UInt8} : ∀ fuel s r, formatLoop fmt fuel s = some r →
    ∀ i ∈ s.reads, i ∈ r.reads := by
  intro fuel
  induction fuel with
  | zero => exact fun _ _ h => by cases h
  | succ fuel ih =>
    intro s r h i hi
    unfold formatLoop at h
    split_ifs at h with h0 hc
    · cases h
      exact hi
    · exact ih _ r h i (List.mem_cons_of_mem _ hi)
    · split at h
      · cases h
      · rename_i s' hs'
        refine ih _ r h i (List.mem_cons_of_mem _ ?_)
        rw [directive_reads hs']
        exact List.mem_cons_of_mem _ hi

end Reading

section Runs

/-- The rest of a format without a cut-off directive. -/
theorem formatLoop_complete (rest : List UInt8) : ∀ s done t, complete rest = true →
    Reading text s rest → (0 : UInt8) ∉ rest → rendered (pieces rest) s.args = some t →
    Wrote old s.out done → ∃ fuel r, formatLoop (formatOf text junk) fuel s = some r ∧
      Formatted old text (done ++ t) r := by
  fun_induction pieces rest with
  | case1 =>
    intro s done t _ hs _ ht h
    cases ht
    have h0 : s.curChar = 0 := hs.cur
    refine ⟨1, s, ?_, ?_, hs.reads⟩
    · unfold formatLoop
      rw [if_pos h0]
    · rw [List.append_nil]
      exact h
  | case2 c rest hc ih =>
    intro s done t hcomplete hs hzero ht h
    have hcur : s.curChar = c := hs.cur
    unfold complete at hcomplete
    rw [if_pos hc] at hcomplete
    rw [rendered, Option.map_eq_some_iff] at ht
    obtain ⟨t, ht, rfl⟩ := ht
    have hne : c ≠ 0 := fun h0 => hzero (h0 ▸ List.mem_cons_self)
    have hput := h.put s.curChar
    obtain ⟨fuel, r, hr, hf⟩ := ih
      (Format.advance (formatOf text junk) { s with out := s.out.put s.curChar })
      _ t hcomplete (reading_advance hs.drop hs.reads)
      (fun hmem => hzero (List.mem_cons_of_mem _ hmem)) ht hput
    refine ⟨fuel + 1, r, ?_, ?_⟩
    · unfold formatLoop
      rw [if_neg (by rw [hcur]; exact hne), if_pos (by rw [hcur]; exact hc)]
      exact hr
    · rw [hcur, List.append_assoc] at hf
      exact hf
  | case3 c hc =>
    intro s done t hcomplete
    unfold complete at hcomplete
    rw [if_neg hc] at hcomplete
    cases hcomplete
  | case4 c hc d rest ih =>
    intro s done t hcomplete hs hzero ht h
    obtain rfl := not_not.mp hc
    have hcur : s.curChar = percent := hs.cur
    unfold complete at hcomplete
    rw [if_neg hc] at hcomplete
    have hadv : Reading text (s.advance (formatOf text junk)) (d :: rest) :=
      reading_advance hs.drop hs.reads
    have hd : (s.advance (formatOf text junk)).curChar = d := hadv.cur
    rw [rendered] at ht
    split at ht
    · cases ht
    rename_i u args hu
    rw [Option.map_eq_some_iff] at ht
    obtain ⟨t, ht, rfl⟩ := ht
    rw [← hd] at hu
    have hout : Wrote old (s.advance (formatOf text junk)).out done := h
    obtain ⟨s', hs', hargs, hptr, hreads, hw⟩ := directive_spec hout hu
    obtain ⟨fuel, r, hr, hf⟩ := ih (s'.advance (formatOf text junk)) _ t hcomplete
      (reading_advance (hptr ▸ hadv.drop) (hreads ▸ hadv.reads))
      (fun hmem => hzero (List.mem_cons_of_mem _ (List.mem_cons_of_mem _ hmem)))
      (by rw [← ht, ← hargs]; rfl) hw
    refine ⟨fuel + 1, r, ?_, ?_⟩
    · unfold formatLoop
      rw [hcur, if_neg (by decide), if_neg (not_not.mpr rfl), hs']
      exact hr
    · rw [List.append_assoc] at hf
      exact hf

/-- A format with a cut-off directive is read behind its end. -/
theorem formatLoop_incomplete (rest : List UInt8) : ∀ s fuel r, complete rest = false →
    Reading text s rest → (0 : UInt8) ∉ rest →
    formatLoop (formatOf text junk) fuel s = some r → text.length + 1 ∈ r.reads := by
  fun_induction complete rest with
  | case1 => exact fun _ _ _ h => by cases h
  | case2 c rest hc ih =>
    intro s fuel r hcomplete hs hzero h
    have hcur : s.curChar = c := hs.cur
    have hne : c ≠ 0 := fun h0 => hzero (h0 ▸ List.mem_cons_self)
    cases fuel with
    | zero => cases h
    | succ fuel =>
      unfold formatLoop at h
      rw [hcur, if_neg hne, if_pos hc] at h
      have hadv : Reading text
          (Format.advance (formatOf text junk) { s with curChar := c, out := s.out.put c }) rest :=
        reading_advance hs.drop hs.reads
      exact ih _ fuel r hcomplete hadv (fun hmem => hzero (List.mem_cons_of_mem _ hmem)) h
  | case3 c hc =>
    intro s fuel r _ hs _ h
    obtain rfl := not_not.mp hc
    have hcur : s.curChar = percent := hs.cur
    have hadv : Reading text (s.advance (formatOf text junk)) [] :=
      reading_advance hs.drop hs.reads
    have hend : (s.advance (formatOf text junk)).fmtPtr = text.length := by
      have hle := List.drop_eq_nil_iff.mp hadv.drop
      exact le_antisymm hadv.le hle
    cases fuel with
    | zero => cases h
    | succ fuel =>
      unfold formatLoop at h
      rw [hcur, if_neg (by decide), if_neg (not_not.mpr rfl)] at h
      obtain ⟨o, hlast⟩ := directive_end hadv.cur
      rw [hlast] at h
      refine formatLoop_reads fuel _ r h _ ?_
      rw [← hend]
      exact List.mem_cons_self
  | case4 c hc d rest ih =>
    intro s fuel r hcomplete hs hzero h
    obtain rfl := not_not.mp hc
    have hcur : s.curChar = percent := hs.cur
    have hadv : Reading text (s.advance (formatOf text junk)) (d :: rest) :=
      reading_advance hs.drop hs.reads
    cases fuel with
    | zero => cases h
    | succ fuel =>
      unfold formatLoop at h
      rw [hcur, if_neg (by decide), if_neg (not_not.mpr rfl)] at h
      split at h
      · cases h
      rename_i s' hs'
      have hreads := directive_reads hs'
      have hptr := directive_fmtPtr hs'
      exact ih _ fuel r hcomplete (reading_advance (hptr ▸ hadv.drop) (hreads ▸ hadv.reads))
        (fun hmem => hzero (List.mem_cons_of_mem _ (List.mem_cons_of_mem _ hmem))) h

end Runs

section Law

variable {out : List UInt8} {args : List Arg}

/-- The output is as meant exactly when no directive is cut off by the end of the format. -/
theorem vsprintf_law (hzero : (0 : UInt8) ∉ text)
    (hmatch : rendered (pieces text) args = some out) (buf junk : ℕ → UInt8) :
    (∃ fuel r, vsprintf fuel buf (formatOf text junk) args = some r ∧ Formatted buf text out r) ↔
      complete text = true := by
  have hs : Reading text ⟨formatOf text junk 0, 0, [0], args, ⟨buf, 0⟩⟩ text :=
    reading_start buf args
  constructor
  · rintro ⟨fuel, r, hr, hf⟩
    by_contra hcut
    have hpast := formatLoop_incomplete text _ fuel r (Bool.eq_false_of_not_eq_true hcut) hs hzero hr
    exact absurd (hf.reads _ hpast) (Nat.not_succ_le_self _)
  · intro hcomplete
    exact formatLoop_complete text _ [] out hcomplete hs hzero hmatch (wrote_start buf)

/-- `"a%d:%x%%%s"`. -/
def sampleFormat : List UInt8 := [97, 37, 100, 58, 37, 120, 37, 37, 37, 115]

/-- The smallest number, `0xBEEF` and `"hi"`. -/
def sampleArgs : List Arg := [.word 0x80000000, .word 0xBEEF, .str [104, 105]]

theorem vsprintf_law_sample : (∃ fuel r, vsprintf fuel (fun _ => 7)
    (formatOf sampleFormat fun _ => 9) sampleArgs = some r ∧
    Formatted (fun _ => 7) sampleFormat (97 :: signedNumeral (-2147483648) ++ [58, 48, 120] ++
      numeral 16 48879 ++ [37, 104, 105]) r) ↔ complete sampleFormat = true := by
  apply vsprintf_law (by decide)
  rfl

/-- `"50%"`. -/
def cutFormat : List UInt8 := [53, 48, 37]

theorem vsprintf_overreads : ¬ ∃ fuel r, vsprintf fuel (fun _ => 0)
    (formatOf cutFormat fun _ => 0) [] = some r ∧ Formatted (fun _ => 0) cutFormat [53, 48] r := by
  rintro ⟨fuel, r, hr, hf⟩
  have hs : Reading cutFormat ⟨formatOf cutFormat (fun _ => 0) 0, 0, [0], [], ⟨fun _ => 0, 0⟩⟩
      cutFormat := reading_start _ _
  have hpast := formatLoop_incomplete cutFormat _ fuel r rfl hs (by decide) hr
  exact absurd (hf.reads _ hpast) (by decide)

end Law

end Gogoos.Stdio
