import Mathlib.Tactic

/-!
# The screen

`lib/kernel/asm/print.asm`: the text of the screen in video memory, a character and an attribute
for each of the 25 rows of 80 places, and the cursor in two registers of the controller. What it
shows is the last part of an endless sheet of paper; a backspace that would leave this part writes
behind the end of the segment, which stops the machine.
-/

namespace Gogoos.Screen

/-- The segment `SELECTOR_VIDEO`, by the offset in it, and the registers `0x0e` and `0x0f`. -/
structure Video where
  mem : ℕ → UInt8
  high : UInt8
  low : UInt8

variable {v v' : Video} {m : ℕ → UInt8} {a b i bx n ecx ebx esi edi : ℕ} {c : UInt8} {cs : List UInt8}

section Program

/-- Eight pages. -/
def segmentLimit : ℕ := 0x7fff

def Video.cursor (v : Video) : ℕ := v.high.toNat * 256 + v.low.toNat

/-- `mov byte [gs:bx],b` -/
def Video.store (v : Video) (bx : ℕ) (b : UInt8) : Option Video :=
  if bx ≤ segmentLimit then some { v with mem := Function.update v.mem bx b } else none

def setCursor (bx : ℕ) (v : Video) : Video :=
  { v with high := UInt8.ofNat (bx / 256), low := UInt8.ofNat bx }

/-- A blank and its attribute, as `mov word [gs:ebx],0x0720`. -/
def putBlank (m : ℕ → UInt8) (ebx : ℕ) : ℕ → UInt8 :=
  Function.update (Function.update m ebx 0x20) (ebx + 1) 0x07

/-- `.cls` -/
def cls : (ecx ebx : ℕ) → (ℕ → UInt8) → ℕ → UInt8
  | 0, _, m => m
  | ecx + 1, ebx, m => cls ecx (ebx + 2) (putBlank m ebx)

def sysClear (v : Video) : Video := setCursor 0 { v with mem := cls (80 * 25) 0 v.mem }

/-- `rep movsd` -/
def movsd : (ecx esi edi : ℕ) → (ℕ → UInt8) → ℕ → UInt8
  | 0, _, _, m => m
  | ecx + 1, esi, edi, m =>
    movsd ecx (esi + 4) (edi + 4) fun a => if edi ≤ a ∧ a < edi + 4 then m (esi + (a - edi)) else m a

/-- `.clear_the_last_line` -/
def clearTheLastLine : (ecx ebx : ℕ) → (ℕ → UInt8) → ℕ → UInt8
  | 0, _, m => m
  | ecx + 1, ebx, m => clearTheLastLine ecx (ebx + 4) (putBlank (putBlank m ebx) (ebx + 2))

/-- `.roll_screen` -/
def rollScreen (v : Video) : Video :=
  setCursor 1920 { v with mem := clearTheLastLine 40 3840 (movsd 960 160 0 v.mem) }

/-- `.is_line_feed` -/
def lineFeed (bx : ℕ) (v : Video) : Video :=
  let bx := (bx - bx % 80 + 80) % 2 ^ 16
  if bx < 2000 then setCursor bx v else rollScreen v

def sysPutChar (c : UInt8) (v : Video) : Option Video :=
  let bx := v.cursor
  if c = 0x0d ∨ c = 0x0a then some (lineFeed bx v)
  else if c = 0x08 then do
    -- `dec bx` wraps around at the first place of the screen
    let bx := (bx + (2 ^ 16 - 1)) % 2 ^ 16
    let bx := 2 * bx % 2 ^ 16
    let v ← v.store bx 0x20
    let bx := (bx + 1) % 2 ^ 16
    let v ← v.store bx 0x07
    return setCursor (bx / 2) v
  else do
    let bx := 2 * bx % 2 ^ 16
    let v ← v.store bx c
    let bx := (bx + 1) % 2 ^ 16
    let v ← v.store bx 0x07
    let bx := bx / 2 + 1
    if bx < 2000 then return setCursor bx v else return lineFeed bx v

def putChars : List UInt8 → Video → Option Video
  | [], v => some v
  | c :: cs, v => sysPutChar c v >>= putChars cs

end Program

section Sheet

/-- Places of an endless sheet, 80 in a row, from the place `80 * top` on in sight. -/
structure Sheet where
  text : ℕ → UInt8
  pos : ℕ
  top : ℕ

namespace Sheet

variable {t t' : Sheet}

/-- The sheet moves when the place would come below the 25 rows. -/
def goto (t : Sheet) (pos : ℕ) : Sheet := { t with pos, top := max t.top (pos / 80 - 24) }

def type (t : Sheet) (c : UInt8) : Option Sheet :=
  if c = 0x0d ∨ c = 0x0a then some (t.goto (80 * (t.pos / 80 + 1)))
  else if c = 0x08 then
    if t.pos = 80 * t.top then none
    else some { t with text := Function.update t.text (t.pos - 1) 0x20, pos := t.pos - 1 }
  else some ({ t with text := Function.update t.text t.pos c }.goto (t.pos + 1))

def types (t : Sheet) : List UInt8 → Option Sheet
  | [] => some t
  | c :: cs => t.type c >>= fun t => t.types cs

def blank : Sheet := ⟨fun _ => 0x20, 0, 0⟩

/-- The place is in sight, and what is below is blank. -/
structure Inv (t : Sheet) : Prop where
  low : 80 * t.top ≤ t.pos
  high : t.pos < 80 * (t.top + 25)
  clean : ∀ i, 80 * (t.top + 25) ≤ i → t.text i = 0x20

theorem blank_inv : blank.Inv := ⟨le_rfl, by decide, fun _ _ => rfl⟩

theorem Inv.goto (h : t.Inv) (hlow : t.pos ≤ n) (hhigh : n ≤ 80 * (t.top + 25)) : (t.goto n).Inv := by
  have hl := h.low
  refine ⟨?_, ?_, fun i hi => h.clean i ?_⟩
  · change 80 * max t.top (n / 80 - 24) ≤ n
    omega
  · change n < 80 * (max t.top (n / 80 - 24) + 25)
    omega
  · change 80 * (max t.top (n / 80 - 24) + 25) ≤ i at hi
    omega

theorem Inv.update (h : t.Inv) (hlow : 80 * t.top ≤ n) (hhigh : n < 80 * (t.top + 25)) (c : UInt8) :
    Inv { t with text := Function.update t.text n c, pos := n } := by
  refine ⟨hlow, hhigh, fun i hi => ?_⟩
  change 80 * (t.top + 25) ≤ i at hi
  exact (Function.update_of_ne (by omega) _ _).trans (h.clean i hi)

theorem Inv.type (h : t.Inv) (ht : t.type c = some t') : t'.Inv := by
  have hl := h.low
  have hh := h.high
  unfold Sheet.type at ht
  split_ifs at ht with hline hback hfirst
  · obtain rfl := Option.some.inj ht
    exact h.goto (by omega) (by omega)
  · obtain rfl := Option.some.inj ht
    exact h.update (by omega) (by omega) _
  · obtain rfl := Option.some.inj ht
    have hput := h.update hl hh c
    have hnext : t.pos + 1 ≤ 80 * (t.top + 25) := hh
    exact hput.goto (Nat.le_succ t.pos) hnext

end Sheet

end Sheet

section Loops

theorem putBlank_apply : putBlank m ebx a =
    if a = ebx then 0x20 else if a = ebx + 1 then 0x07 else m a := by
  unfold putBlank
  by_cases h : a = ebx + 1
  · simp [h]
  · by_cases h' : a = ebx <;> simp [h, h']

theorem cls_apply : ∀ (ecx ebx : ℕ) (m : ℕ → UInt8), cls ecx ebx m a =
    if ebx ≤ a ∧ a < ebx + 2 * ecx then if (a - ebx) % 2 = 0 then 0x20 else 0x07 else m a := by
  intro ecx
  induction ecx with
  | zero =>
    intro ebx m
    rw [if_neg (by omega)]
    rfl
  | succ ecx ih =>
    intro ebx m
    rw [cls, ih, putBlank_apply]
    split_ifs <;> first | rfl | omega

theorem clearTheLastLine_eq : ∀ (ecx ebx : ℕ) (m : ℕ → UInt8),
    clearTheLastLine ecx ebx m = cls (2 * ecx) ebx m := by
  intro ecx
  induction ecx with
  | zero => exact fun _ _ => rfl
  | succ ecx ih =>
    intro ebx m
    rw [clearTheLastLine, ih]
    rfl

/-- Copying downwards is right although the two ranges overlap. -/
theorem movsd_apply : ∀ (ecx esi edi : ℕ) (m : ℕ → UInt8), edi ≤ esi → movsd ecx esi edi m a =
    if edi ≤ a ∧ a < edi + 4 * ecx then m (a + (esi - edi)) else m a := by
  intro ecx
  induction ecx with
  | zero =>
    intro esi edi m _
    rw [if_neg (by omega)]
    rfl
  | succ ecx ih =>
    intro esi edi m h
    have hgap : esi + 4 - (edi + 4) = esi - edi := by omega
    rw [movsd, ih _ _ _ (by omega), hgap]
    by_cases hfirst : edi ≤ a ∧ a < edi + 4
    · have haddr : esi + (a - edi) = a + (esi - edi) := by omega
      rw [if_neg (by omega), if_pos hfirst, if_pos (by omega), haddr]
    · by_cases hrest : edi + 4 ≤ a ∧ a < edi + 4 + 4 * ecx
      · rw [if_pos hrest, if_neg (by omega), if_pos (by omega)]
      · rw [if_neg hrest, if_neg hfirst, if_neg (by omega)]

theorem cursor_setCursor (h : bx < 2 ^ 16) : (setCursor bx v).cursor = bx := by
  unfold setCursor Video.cursor
  simp only [UInt8.toNat_ofNat']
  omega

@[simp] theorem setCursor_mem : (setCursor bx v).mem = v.mem := rfl

theorem sysClear_mem : (sysClear v).mem a =
    if a < 4000 then if a % 2 = 0 then 0x20 else 0x07 else v.mem a := by
  rw [sysClear, setCursor_mem]
  dsimp only
  rw [cls_apply]
  split_ifs <;> first | rfl | omega

theorem rollScreen_mem : (rollScreen v).mem a =
    if a < 3840 then v.mem (a + 160)
    else if a < 4000 then if a % 2 = 0 then 0x20 else 0x07 else v.mem a := by
  rw [rollScreen, setCursor_mem]
  dsimp only
  rw [clearTheLastLine_eq, cls_apply, movsd_apply _ _ _ _ (by norm_num)]
  split_ifs <;> first | rfl | omega

end Loops

section Option

variable {α β : Type} {r s : α → β → Prop} {x : Option α} {y : Option β} {a : α}

theorem rel_imp (h : Option.Rel r x y) (hrs : ∀ {a b}, r a b → s a b) : Option.Rel s x y := by
  cases h with
  | some h => exact .some (hrs h)
  | none => exact .none

theorem rel_isSome (h : Option.Rel r x y) : x.isSome = y.isSome := by
  cases h <;> rfl

theorem rel_some (h : Option.Rel r x y) (hx : x = some a) : ∃ b, y = some b ∧ r a b := by
  cases h with
  | some h =>
    obtain rfl := Option.some.inj hx
    exact ⟨_, rfl, h⟩
  | none => nomatch hx

end Option

section Refinement

variable {t t' : Sheet}

/-- The video memory has the part of the sheet that is in sight. -/
structure Pictures (v : Video) (t : Sheet) : Prop where
  text : ∀ i < 2000, v.mem (2 * i) = t.text (80 * t.top + i)
  colour : ∀ i < 2000, v.mem (2 * i + 1) = 0x07

structure Shows (v : Video) (t : Sheet) : Prop extends Pictures v t where
  inv : t.Inv
  cursor : v.cursor = t.pos - 80 * t.top

/-- What is behind the 25 rows is not touched. -/
def Same (v v' : Video) : Prop := ∀ a, 4000 ≤ a → v'.mem a = v.mem a

theorem Shows.cursor_lt (h : Shows v t) : v.cursor < 2000 := by
  have hhigh := h.inv.high
  have hcursor := h.cursor
  omega

theorem shows_sysClear : Shows (sysClear v) .blank where
  text i hi := by
    rw [sysClear_mem, if_pos (by omega), if_pos (by omega)]
    rfl
  colour i hi := by rw [sysClear_mem, if_pos (by omega), if_neg (by omega)]
  inv := Sheet.blank_inv
  cursor := cursor_setCursor (by norm_num)

theorem Pictures.rollScreen (h : Pictures v t) (hclean : ∀ i, 80 * (t.top + 25) ≤ i → t.text i = 0x20) :
    Pictures (rollScreen v) { t with top := t.top + 1 } := by
  refine ⟨fun i hi => ?_, fun i hi => ?_⟩
  · change _ = t.text (80 * (t.top + 1) + i)
    rw [rollScreen_mem]
    by_cases hlast : 2 * i < 3840
    · have hsrc : 2 * i + 160 = 2 * (i + 80) := by ring
      have hplace : 80 * t.top + (i + 80) = 80 * (t.top + 1) + i := by ring
      rw [if_pos hlast, hsrc, h.text _ (by omega), hplace]
    · rw [if_neg hlast, if_pos (by omega), if_pos (by omega), hclean _ (by omega)]
  · rw [rollScreen_mem]
    by_cases hlast : 2 * i + 1 < 3840
    · have hsrc : 2 * i + 1 + 160 = 2 * (i + 80) + 1 := by ring
      rw [if_pos hlast, hsrc, h.colour _ (by omega)]
    · rw [if_neg hlast, if_pos (by omega), if_neg (by omega)]

theorem same_rollScreen : Same v (rollScreen v) := by
  intro a ha
  rw [rollScreen_mem, if_neg (by omega), if_neg (by omega)]

theorem Sheet.goto_of_lt (h : n < 80 * (t.top + 25)) :
    t.goto n = { t with pos := n } := by
  unfold Sheet.goto
  rw [max_eq_left (by omega)]

theorem Sheet.goto_end : t.goto (80 * (t.top + 25)) =
    { t with pos := 80 * (t.top + 25), top := t.top + 1 } := by
  unfold Sheet.goto
  rw [show 80 * (t.top + 25) / 80 - 24 = t.top + 1 by omega, max_eq_right (by omega)]

theorem shows_setCursor (h : Pictures v t) (hinv : t.Inv) (hlow : t.pos ≤ n)
    (hhigh : n < 80 * (t.top + 25)) (hbx : bx = n - 80 * t.top) :
    Shows (setCursor bx v) (t.goto n) := by
  have hgoto := hinv.goto hlow hhigh.le
  rw [Sheet.goto_of_lt hhigh] at hgoto ⊢
  exact ⟨⟨h.text, h.colour⟩, hgoto, (cursor_setCursor (by omega)).trans hbx⟩

theorem shows_rollScreen (h : Pictures v t) (hinv : t.Inv) :
    Shows (rollScreen v) (t.goto (80 * (t.top + 25))) := by
  have hgoto := hinv.goto hinv.high.le le_rfl
  rw [Sheet.goto_end] at hgoto ⊢
  have hroll := h.rollScreen hinv.clean
  refine ⟨⟨hroll.text, hroll.colour⟩, hgoto, ?_⟩
  change (setCursor 1920 _).cursor = 80 * (t.top + 25) - 80 * (t.top + 1)
  rw [cursor_setCursor (by norm_num)]
  omega

/-- The line feed of a place in sight. -/
theorem shows_lineFeed (h : Pictures v t) (hinv : t.Inv) (hbx : bx = t.pos - 80 * t.top) :
    Shows (lineFeed bx v) (t.goto (80 * (t.pos / 80 + 1))) ∧ Same v (lineFeed bx v) := by
  have hlow := hinv.low
  have hhigh := hinv.high
  have hnext : (bx - bx % 80 + 80) % 2 ^ 16 = 80 * (t.pos / 80 + 1) - 80 * t.top := by omega
  unfold lineFeed
  simp only [hnext]
  by_cases hlast : 80 * (t.pos / 80 + 1) - 80 * t.top < 2000
  · rw [if_pos hlast]
    exact ⟨shows_setCursor h hinv (by omega) (by omega) rfl, fun _ _ => rfl⟩
  · have hend : 80 * (t.pos / 80 + 1) = 80 * (t.top + 25) := by omega
    rw [if_neg hlast, hend]
    exact ⟨shows_rollScreen h hinv, same_rollScreen⟩

/-- A character at a place, with the attribute. -/
def Video.put (v : Video) (i : ℕ) (c : UInt8) : Video :=
  { v with mem := Function.update (Function.update v.mem (2 * i) c) (2 * i + 1) 0x07 }

theorem store_store (hi : i < 2000) (c : UInt8) :
    ((v.store (2 * i) c).bind fun w => w.store (2 * i + 1) 0x07) = some (v.put i c) := by
  have hchar : 2 * i ≤ segmentLimit := by unfold segmentLimit; omega
  have hcolour : 2 * i + 1 ≤ segmentLimit := by unfold segmentLimit; omega
  rw [Video.store, if_pos hchar, Option.bind_some, Video.store, if_pos hcolour]
  rfl

theorem Pictures.put (h : Pictures v t) (hn : n = 80 * t.top + i) (c : UInt8) :
    Pictures (v.put i c) { t with text := Function.update t.text n c, pos := n } := by
  refine ⟨fun k hk => ?_, fun k hk => ?_⟩
  · change Function.update (Function.update v.mem (2 * i) c) (2 * i + 1) 0x07 (2 * k) =
      Function.update t.text n c (80 * t.top + k)
    rw [Function.update_of_ne (by omega)]
    by_cases hki : k = i
    · rw [hki, hn, Function.update_self, Function.update_self]
    · rw [Function.update_of_ne (by omega), Function.update_of_ne (by omega), h.text k hk]
  · change Function.update (Function.update v.mem (2 * i) c) (2 * i + 1) 0x07 (2 * k + 1) = _
    by_cases hki : k = i
    · rw [hki, Function.update_self]
    · rw [Function.update_of_ne (by omega), Function.update_of_ne (by omega), h.colour k hk]

theorem same_put (hi : i < 2000) (c : UInt8) : Same v (v.put i c) := by
  intro a ha
  change Function.update (Function.update v.mem (2 * i) c) (2 * i + 1) 0x07 a = v.mem a
  rw [Function.update_of_ne (by omega), Function.update_of_ne (by omega)]

theorem sysPutChar_other (hline : ¬(c = 0x0d ∨ c = 0x0a)) (hback : c ≠ 0x08) (hbx : v.cursor < 2000) :
    sysPutChar c v = some (if v.cursor + 1 < 2000
      then setCursor (v.cursor + 1) (v.put v.cursor c)
      else lineFeed (v.cursor + 1) (v.put v.cursor c)) := by
  have hchar : 2 * v.cursor % 2 ^ 16 = 2 * v.cursor := by omega
  have hcolour : (2 * v.cursor + 1) % 2 ^ 16 = 2 * v.cursor + 1 := by omega
  have hnext : (2 * v.cursor + 1) / 2 = v.cursor := by omega
  have hstore := store_store (v := v) hbx c
  unfold sysPutChar
  rw [if_neg hline, if_neg hback]
  simp only [hchar, hcolour, hnext, bind, pure]
  rw [← Option.bind_assoc, hstore, Option.bind_some, apply_ite some]

theorem sysPutChar_backspace (hbx : v.cursor < 2000) (hfirst : v.cursor ≠ 0) :
    sysPutChar 0x08 v = some (setCursor (v.cursor - 1) (v.put (v.cursor - 1) 0x20)) := by
  have hdec : (v.cursor + (2 ^ 16 - 1)) % 2 ^ 16 = v.cursor - 1 := by omega
  have hchar : 2 * (v.cursor - 1) % 2 ^ 16 = 2 * (v.cursor - 1) := by omega
  have hcolour : (2 * (v.cursor - 1) + 1) % 2 ^ 16 = 2 * (v.cursor - 1) + 1 := by omega
  have hnext : (2 * (v.cursor - 1) + 1) / 2 = v.cursor - 1 := by omega
  have hstore := store_store (v := v) (i := v.cursor - 1) (by omega) 0x20
  unfold sysPutChar
  rw [if_neg (by decide), if_pos rfl]
  simp only [hdec, hchar, hcolour, hnext, bind, pure]
  rw [← Option.bind_assoc, hstore, Option.bind_some]

/-- `0xfffe` is behind the segment. -/
theorem sysPutChar_backspace_zero (hbx : v.cursor = 0) : sysPutChar 0x08 v = none := by
  unfold sysPutChar
  rw [if_neg (by decide), if_pos rfl, hbx]
  rfl

theorem Shows.feed (h : Shows v t) (hline : c = 0x0d ∨ c = 0x0a) (ht : t.type c = some t') :
    ∃ v', sysPutChar c v = some v' ∧ Shows v' t' ∧ Same v v' := by
  unfold Sheet.type at ht
  rw [if_pos hline] at ht
  obtain rfl := Option.some.inj ht
  refine ⟨lineFeed v.cursor v, ?_, shows_lineFeed h.toPictures h.inv h.cursor⟩
  unfold sysPutChar
  rw [if_pos hline]

theorem Shows.backspace (h : Shows v t) (ht : t.type 0x08 = some t') :
    ∃ v', sysPutChar 0x08 v = some v' ∧ Shows v' t' ∧ Same v v' := by
  have hlow := h.inv.low
  have hhigh := h.inv.high
  have hcursor := h.cursor
  have hinv := h.inv.type ht
  unfold Sheet.type at ht
  rw [if_neg (by decide), if_pos rfl] at ht
  split_ifs at ht with hfirst
  obtain rfl := Option.some.inj ht
  have hpic := h.toPictures.put (show t.pos - 1 = 80 * t.top + (v.cursor - 1) by omega) 0x20
  refine ⟨_, sysPutChar_backspace h.cursor_lt (by omega), ⟨⟨hpic.text, hpic.colour⟩, hinv, ?_⟩,
    same_put (by omega) _⟩
  change (setCursor _ _).cursor = t.pos - 1 - 80 * t.top
  rw [cursor_setCursor (by omega)]
  omega

theorem Shows.other (h : Shows v t) (hline : ¬(c = 0x0d ∨ c = 0x0a)) (hback : c ≠ 0x08)
    (ht : t.type c = some t') : ∃ v', sysPutChar c v = some v' ∧ Shows v' t' ∧ Same v v' := by
  have hlow := h.inv.low
  have hhigh := h.inv.high
  have hcursor := h.cursor
  have hlt := h.cursor_lt
  unfold Sheet.type at ht
  rw [if_neg hline, if_neg hback] at ht
  obtain rfl := Option.some.inj ht
  have hpic := h.toPictures.put (show t.pos = 80 * t.top + v.cursor by omega) c
  have hput := h.inv.update hlow hhigh c
  refine ⟨_, sysPutChar_other hline hback hlt, ?_⟩
  by_cases hlast : v.cursor + 1 < 2000
  · have hseen : t.pos + 1 < 80 * (t.top + 25) := by omega
    have hbx : v.cursor + 1 = t.pos + 1 - 80 * t.top := by omega
    rw [if_pos hlast]
    exact ⟨shows_setCursor hpic hput (Nat.le_succ _) hseen hbx, same_put hlt c⟩
  · -- the place behind the last one is the first of a row of its own
    have hend : t.pos + 1 = 80 * (t.top + 25) := by omega
    have hbx : v.cursor + 1 = 2000 := by omega
    rw [if_neg hlast, hbx, hend]
    exact ⟨shows_rollScreen hpic hput, fun a ha => (same_rollScreen a ha).trans (same_put hlt c a ha)⟩

theorem Shows.sysPutChar (h : Shows v t) (ht : t.type c = some t') :
    ∃ v', Screen.sysPutChar c v = some v' ∧ Shows v' t' ∧ Same v v' := by
  by_cases hline : c = 0x0d ∨ c = 0x0a
  · exact h.feed hline ht
  by_cases hback : c = 0x08
  · subst hback
    exact h.backspace ht
  · exact h.other hline hback ht

theorem Shows.fault (h : Shows v t) (ht : t.type c = none) : Screen.sysPutChar c v = none := by
  have hcursor := h.cursor
  unfold Sheet.type at ht
  split_ifs at ht with hline hback hfirst
  rw [hback]
  exact sysPutChar_backspace_zero (by omega)

/-- A text that the sheet takes is shown, and one that it does not take stops the machine. -/
theorem Shows.putChars : ∀ {v t}, Shows v t → ∀ cs,
    Option.Rel (fun v' t' => Shows v' t' ∧ Same v v') (Screen.putChars cs v) (t.types cs)
  | v, t, h, [] => .some ⟨h, fun _ _ => rfl⟩
  | v, t, h, c :: cs => by
    rw [Screen.putChars, Sheet.types]
    cases ht : t.type c with
    | none =>
      rw [h.fault ht]
      exact .none
    | some t₁ =>
      obtain ⟨v₁, hput, h₁, hsame⟩ := h.sysPutChar ht
      rw [hput]
      exact rel_imp (h₁.putChars cs) fun h' => ⟨h'.1, fun a ha => (h'.2 a ha).trans (hsame a ha)⟩

/-- Only a backspace can leave the screen. -/
theorem Sheet.types_isSome : ∀ {t : Sheet}, ∀ cs, 0x08 ∉ cs → (t.types cs).isSome
  | _, [], _ => rfl
  | t, c :: cs, h => by
    have hc : c ≠ 0x08 := fun hc => h (hc ▸ List.mem_cons_self)
    have htype : ∃ t', t.type c = some t' := by
      unfold Sheet.type
      rw [if_neg hc]
      split <;> exact ⟨_, rfl⟩
    obtain ⟨t', ht'⟩ := htype
    rw [Sheet.types, ht']
    exact Sheet.types_isSome cs fun hcs => h (List.mem_cons_of_mem c hcs)

def Plain (cs : List UInt8) : Prop := ∀ c ∈ cs, c ≠ 0x0d ∧ c ≠ 0x0a ∧ c ≠ 0x08

/-- The characters of a plain text follow each other. -/
theorem Sheet.types_plain : ∀ {t : Sheet} {cs}, t.Inv → Plain cs → t.types cs = some t' →
    t'.pos = t.pos + cs.length ∧ t'.top = max t.top ((t.pos + cs.length) / 80 - 24) ∧
    (∀ i < t.pos, t'.text i = t.text i) ∧ (∀ i, t.pos + cs.length ≤ i → t'.text i = t.text i) ∧
    ∀ i, (hi : i < cs.length) → t'.text (t.pos + i) = cs[i]
  | t, [], hinv, _, h => by
    obtain rfl := Option.some.inj h
    have htop : t.pos / 80 - 24 ≤ t.top := by have hhigh := hinv.high; omega
    exact ⟨rfl, (max_eq_left htop).symm, fun _ _ => rfl, fun _ _ => rfl, fun _ hi => nomatch hi⟩
  | t, c :: cs, hinv, hplain, h => by
    obtain ⟨hcr, hlf, hback⟩ := hplain c List.mem_cons_self
    obtain ⟨t₁, ht₁, h⟩ := Option.bind_eq_some_iff.mp h
    have hinv₁ := hinv.type ht₁
    unfold Sheet.type at ht₁
    rw [if_neg (not_or.mpr ⟨hcr, hlf⟩), if_neg hback] at ht₁
    obtain rfl := Option.some.inj ht₁
    obtain ⟨hpos, htop, hbefore, hafter, htext⟩ :=
      Sheet.types_plain hinv₁ (fun d hd => hplain d (List.mem_cons_of_mem c hd)) h
    change t'.pos = t.pos + 1 + cs.length at hpos
    change t'.top = max (max t.top ((t.pos + 1) / 80 - 24)) ((t.pos + 1 + cs.length) / 80 - 24) at htop
    change ∀ i < t.pos + 1, t'.text i = Function.update t.text t.pos c i at hbefore
    change ∀ i, t.pos + 1 + cs.length ≤ i → t'.text i = Function.update t.text t.pos c i at hafter
    change ∀ i, (hi : i < cs.length) → t'.text (t.pos + 1 + i) = cs[i] at htext
    have hlen := @List.length_cons _ c cs
    refine ⟨by omega, by omega, fun i hi => ?_, fun i hi => ?_, fun i hi => ?_⟩
    · rw [hbefore i (by omega), Function.update_of_ne (by omega)]
    · rw [hafter i (by omega), Function.update_of_ne (by omega)]
    · cases i with
      | zero => exact (hbefore t.pos (by omega)).trans (Function.update_self ..)
      | succ i =>
        have hplace : t.pos + (i + 1) = t.pos + 1 + i := by ring
        rw [hplace, htext i (by omega), List.getElem_cons_succ]

/-- The rows of a plain text that are above the screen. -/
def rowsGone (cs : List UInt8) : ℕ := cs.length / 80 - 24

theorem Sheet.blank_types_plain (hplain : Plain cs) (h : blank.types cs = some t) :
    t.pos = cs.length ∧ t.top = rowsGone cs ∧ ∀ i, t.text i = cs.getD i 0x20 := by
  obtain ⟨hpos, htop, -, hafter, htext⟩ := Sheet.types_plain blank_inv hplain h
  simp only [blank, zero_add, zero_max] at hpos htop hafter htext
  refine ⟨hpos, htop, fun i => ?_⟩
  rw [List.getD_eq_getElem?_getD]
  by_cases hi : i < cs.length
  · rw [htext i hi, List.getElem?_eq_getElem hi]
    rfl
  · rw [hafter i (by omega), List.getElem?_eq_none (by omega)]
    rfl

/-- What is printed on a cleared screen is the end of what is typed on a blank sheet; only a
backspace that leaves the screen stops the machine, and a plain text is all there up to the rows
that have gone. -/
theorem screen_law (v : Video) (cs : List UInt8) :
    Option.Rel (fun v' t' => Shows v' t' ∧ Same v v') (putChars cs (sysClear v)) (Sheet.blank.types cs) ∧
    (0x08 ∉ cs → (putChars cs (sysClear v)).isSome) ∧
    (Plain cs → ∀ v', putChars cs (sysClear v) = some v' →
      v'.cursor = cs.length - 80 * rowsGone cs ∧
      ∀ i < 2000, v'.mem (2 * i) = cs.getD (80 * rowsGone cs + i) 0x20) := by
  have hclear : Same v (sysClear v) := fun a ha => by rw [sysClear_mem, if_neg (by omega)]
  have hshows : Option.Rel (fun v' t' => Shows v' t' ∧ Same v v') (putChars cs (sysClear v))
      (Sheet.blank.types cs) :=
    rel_imp (shows_sysClear.putChars cs) fun h => ⟨h.1, fun a ha => (h.2 a ha).trans (hclear a ha)⟩
  refine ⟨hshows, fun hback => ?_, fun hplain v' hv' => ?_⟩
  · have hsome := Sheet.types_isSome (t := .blank) cs hback
    rwa [rel_isSome hshows]
  · obtain ⟨t, ht, h, -⟩ := rel_some hshows hv'
    obtain ⟨hpos, htop, htext⟩ := Sheet.blank_types_plain hplain ht
    refine ⟨by rw [h.cursor, hpos, htop], fun i hi => ?_⟩
    rw [h.text i hi, htext, htop]

end Refinement

end Gogoos.Screen
