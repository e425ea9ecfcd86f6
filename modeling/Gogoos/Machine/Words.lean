import Mathlib.Data.BitVec
import Mathlib.Tactic

/-!
# Words in a memory of bytes

A memory gives the byte at each 32-bit address. A word is four bytes, the lowest one first, at any
address; addresses wrap around.
-/

namespace Gogoos.X86

abbrev Word := BitVec 32

abbrev Memory := Word → BitVec 8

variable {m m' : Memory} {a b w : Word} {l l' : List Word}

def word (m : Memory) (a : Word) : Word := m (a + 3) ++ m (a + 2) ++ m (a + 1) ++ m a

def setWord (m : Memory) (a w : Word) : Memory := fun b =>
  if (b - a).toNat < 4 then w.extractLsb' (8 * (b - a).toNat) 8 else m b

theorem setWord_apart (h : 4 ≤ (b - a).toNat) : setWord m a w b = m b :=
  if_neg (by omega)

@[simp] theorem word_setWord : word (setWord m a w) a = w := by
  have h (k : ℕ) (hk : k < 4) :
      setWord m a w (a + BitVec.ofNat 32 k) = w.extractLsb' (8 * k) 8 := by
    have hsub : a + BitVec.ofNat 32 k - a = BitVec.ofNat 32 k := by rw [add_sub_cancel_left]
    have hnat : (BitVec.ofNat 32 k).toNat = k := by simp; omega
    unfold setWord
    rw [hsub, hnat, if_pos hk]
  have h0 : setWord m a w a = w.extractLsb' 0 8 := by simpa using h 0 (by norm_num)
  have h1 : setWord m a w (a + 1) = w.extractLsb' 8 8 := h 1 (by norm_num)
  have h2 : setWord m a w (a + 2) = w.extractLsb' 16 8 := h 2 (by norm_num)
  have h3 : setWord m a w (a + 3) = w.extractLsb' 24 8 := h 3 (by norm_num)
  unfold word
  rw [h0, h1, h2, h3]
  apply BitVec.eq_of_getLsbD_eq
  intro i hi
  simp only [BitVec.getLsbD_append, BitVec.getLsbD_extractLsb']
  split_ifs with hi0 hi1 hi2
  · rw [Nat.zero_add]
    simp [hi0]
  · have hup : 8 + (i - 8) = i := by omega
    simp [hup, hi1]
  · have hup : 16 + (i - 8 - 8) = i := by omega
    simp [hup, hi2]
  · have hup : 24 + (i - 8 - 8 - 8) = i := by omega
    have hlast : i - 8 - 8 - 8 < 8 := by omega
    simp [hup, hlast]

/-- A store leaves the words that do not meet it. -/
theorem word_setWord_apart (h : 4 ≤ (b - a).toNat) (h' : 4 ≤ (a - b).toNat) :
    word (setWord m a w) b = word m b := by
  unfold word
  rw [setWord_apart (b := b) h, setWord_apart (b := b + 1), setWord_apart (b := b + 2),
    setWord_apart (b := b + 3)]
  all_goals bv_omega

theorem word_congr (h : ∀ k < 4, m' (b + BitVec.ofNat 32 k) = m (a + BitVec.ofNat 32 k)) :
    word m' b = word m a := by
  have h0 : m' b = m a := by simpa using h 0 (by norm_num)
  have h1 : m' (b + 1) = m (a + 1) := h 1 (by norm_num)
  have h2 : m' (b + 2) = m (a + 2) := h 2 (by norm_num)
  have h3 : m' (b + 3) = m (a + 3) := h 3 (by norm_num)
  unfold word
  rw [h0, h1, h2, h3]

/-- The words from an address on. -/
def Holds (m : Memory) (a : Word) : List Word → Prop
  | [] => True
  | w :: l => word m a = w ∧ Holds m (a + 4) l

/-- What `n` words from `a` on need of the address space to be apart from the word at `b`. -/
theorem Holds.setWord_apart : ∀ {l : List Word} {a : Word}, Holds m a l → 4 ≤ (a - b).toNat →
    (a - b).toNat + 4 * l.length ≤ 2 ^ 32 → Holds (setWord m b w) a l
  | [], _, _, _, _ => trivial
  | v :: l, a, h, hlow, hhigh => by
    have hlen : (v :: l).length = l.length + 1 := rfl
    rw [hlen] at hhigh
    refine ⟨?_, ?_⟩
    · rw [word_setWord_apart hlow (by bv_omega)]
      exact h.1
    · cases l with
      | nil => trivial
      | cons v' l =>
        have hlen' : (v' :: l).length = l.length + 1 := rfl
        rw [hlen'] at hhigh
        have hnext : (a + 4 - b).toNat = (a - b).toNat + 4 := by bv_omega
        exact h.2.setWord_apart (by omega) (by rw [hlen']; omega)

theorem Holds.push (h : Holds m a l) (hl : 4 * (l.length + 1) ≤ 2 ^ 32) :
    Holds (setWord m (a - 4) w) (a - 4) (w :: l) := by
  refine ⟨word_setWord, ?_⟩
  have hup : a - 4 + 4 = a := by rw [sub_add_cancel]
  have hdist : (a - (a - 4)).toNat = 4 := by
    rw [sub_sub_cancel]
    rfl
  rw [hup]
  exact h.setWord_apart (by omega) (by omega)

/-- A store to one of the words. -/
theorem Holds.set : ∀ {l : List Word} {a : Word} {i : ℕ}, Holds m a l → i < l.length →
    4 * l.length ≤ 2 ^ 32 → Holds (setWord m (a + BitVec.ofNat 32 (4 * i)) w) a (l.set i w)
  | [], _, _, _, hi, _ => absurd hi (Nat.not_lt_zero _)
  | v :: l, a, 0, h, _, hl => by
    have hlen : (v :: l).length = l.length + 1 := rfl
    rw [hlen] at hl
    have hzero : a + BitVec.ofNat 32 (4 * 0) = a := by simp
    have hdist : (a + 4 - a).toNat = 4 := by
      rw [add_sub_cancel_left]
      rfl
    rw [hzero]
    exact ⟨word_setWord, h.2.setWord_apart (by omega) (by omega)⟩
  | v :: l, a, i + 1, h, hi, hl => by
    have hlen : (v :: l).length = l.length + 1 := rfl
    rw [hlen] at hl hi
    have hup : a + BitVec.ofNat 32 (4 * (i + 1)) = a + 4 + BitVec.ofNat 32 (4 * i) := by
      bv_omega
    have htail := h.2.set (i := i) (by omega) (by omega)
    rw [hup]
    refine ⟨?_, htail⟩
    rw [word_setWord_apart (by bv_omega) (by bv_omega)]
    exact h.1

/-- Words of which every byte is there, in another memory or at another address. -/
theorem Holds.congr : ∀ {l : List Word} {a b : Word}, Holds m a l →
    (∀ k < 4 * l.length, m' (b + BitVec.ofNat 32 k) = m (a + BitVec.ofNat 32 k)) → Holds m' b l
  | [], _, _, _, _ => trivial
  | v :: l, a, b, h, hsame => by
    have hlen : (v :: l).length = l.length + 1 := rfl
    rw [hlen] at hsame
    refine ⟨?_, ?_⟩
    · rw [word_congr fun k hk => hsame k (by omega)]
      exact h.1
    · apply h.2.congr
      intro k hk
      have hup : ∀ c : Word, c + 4 + BitVec.ofNat 32 k = c + BitVec.ofNat 32 (k + 4) := by
        intro c
        bv_omega
      rw [hup, hup]
      exact hsame (k + 4) (by omega)

theorem Holds.append : ∀ {l : List Word} {a : Word},
    Holds m a (l ++ l') → Holds m (a + BitVec.ofNat 32 (4 * l.length)) l'
  | [], a, h => by simpa using h
  | v :: l, a, h => by
    have hup : a + BitVec.ofNat 32 (4 * (v :: l).length) =
        a + 4 + BitVec.ofNat 32 (4 * l.length) := by
      have hlen : (v :: l).length = l.length + 1 := rfl
      rw [hlen]
      bv_omega
    rw [hup]
    exact h.2.append

/-- The first `n` words from `a` on. -/
def wordsAt (m : Memory) (a : Word) : ℕ → List Word
  | 0 => []
  | n + 1 => word m a :: wordsAt m (a + 4) n

@[simp] theorem wordsAt_length : ∀ (n : ℕ) (a : Word), (wordsAt m a n).length = n
  | 0, _ => rfl
  | n + 1, a => congrArg (· + 1) (wordsAt_length n (a + 4))

theorem holds_wordsAt : ∀ (n : ℕ) (a : Word), Holds m a (wordsAt m a n)
  | 0, _ => trivial
  | n + 1, a => ⟨rfl, holds_wordsAt n (a + 4)⟩

/-- Stores to some of the words from `a` on, each by its index. -/
def stores (a : Word) (l : List (ℕ × Word)) (m : Memory) : Memory :=
  l.foldl (fun m x => setWord m (a + BitVec.ofNat 32 (4 * x.1)) x.2) m

def replaced (l : List (ℕ × Word)) (ws : List Word) : List Word :=
  l.foldl (fun ws x => ws.set x.1 x.2) ws

theorem Holds.stores : ∀ {l : List (ℕ × Word)} {ws : List Word} {m : Memory}, Holds m a ws →
    (∀ x ∈ l, x.1 < ws.length) → 4 * ws.length ≤ 2 ^ 32 → Holds (stores a l m) a (replaced l ws)
  | [], _, _, h, _, _ => h
  | x :: l, ws, m, h, hl, hlen => by
    have hset := h.set (w := x.2) (hl x List.mem_cons_self) hlen
    refine Holds.stores (l := l) hset ?_ ?_
    · intro y hy
      rw [List.length_set]
      exact hl y (List.mem_cons_of_mem _ hy)
    · rwa [List.length_set]

theorem stores_apart {n : ℕ} : ∀ {l : List (ℕ × Word)} {m : Memory}, (∀ x ∈ l, x.1 < n) →
    4 * n ≤ (b - a).toNat → stores a l m b = m b
  | [], _, _, _ => rfl
  | x :: l, m, hl, hb => by
    have hx := hl x List.mem_cons_self
    have hlt := (b - a).isLt
    refine (stores_apart (l := l) (fun y hy => hl y (List.mem_cons_of_mem _ hy)) hb).trans ?_
    apply setWord_apart
    bv_omega

end Gogoos.X86
