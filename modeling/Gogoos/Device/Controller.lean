import Gogoos.Fs.Volume
import Gogoos.Logic.Loop

/-!
# The disk controller

One channel with its two drives, as far as the driver sees it: the registers of a command, the data
register through which the bytes of the sectors pass two by two, and the interrupt when the
controller has data or has taken them. A command with the count 0 is one for 256 sectors.

The record of the commands and of the string instructions at the data register is no part of the
machine; it is here for the statements about them.
-/

namespace Gogoos.Ata

section Machine

abbrev Addr : Type := BitVec 32

/-- A command that was begun, and how many of its bytes have passed. -/
structure Transfer where
  write : Bool
  slave : Bool
  lba : ℕ
  sectors : ℕ
  done : ℕ

structure Command where
  write : Bool
  slave : Bool
  lba : ℕ
  sectors : ℕ
  deriving DecidableEq

/-- A string instruction with its address and its count of words. -/
structure Move where
  addr : Addr
  words : ℕ
  deriving DecidableEq

structure Channel where
  sectCnt : UInt8
  lbaL : UInt8
  lbaM : UInt8
  lbaH : UInt8
  dev : UInt8
  transfer : Option Transfer
  /-- The sectors of the master and of the slave. -/
  drives : Bool → ℕ → ℕ → UInt8
  expectingIntr : Bool
  diskDone : ℕ
  memory : Addr → UInt8
  commands : List Command
  moves : List Move

inductive Register where
  | sectCnt
  | lbaL
  | lbaM
  | lbaH
  | dev
  | cmd

/-- With `semaUp(&channel->diskDone)`. -/
def Channel.intrHdHandler (c : Channel) : Channel :=
  if c.expectingIntr then { c with expectingIntr := false, diskDone := c.diskDone + 1 } else c

/-- The 28 bits of the sector number. -/
def Channel.lba (c : Channel) : ℕ :=
  c.lbaL.toNat + 2 ^ 8 * c.lbaM.toNat + 2 ^ 16 * c.lbaH.toNat + 2 ^ 24 * (c.dev.toNat % 16)

def Channel.slave (c : Channel) : Bool := c.dev &&& 0x10 ≠ 0

def countOf (sectCnt : UInt8) : ℕ := if sectCnt = 0 then 256 else sectCnt.toNat

/-- The data of a read are announced by an interrupt. -/
def Channel.start (c : Channel) (write : Bool) : Channel :=
  let c' : Channel :=
    { c with
      transfer := some ⟨write, c.slave, c.lba, countOf c.sectCnt, 0⟩
      commands := c.commands ++ [⟨write, c.slave, c.lba, countOf c.sectCnt⟩] }
  if write then c' else c'.intrHdHandler

def outb (r : Register) (data : UInt8) (c : Channel) : Channel :=
  match r with
  | .sectCnt => { c with sectCnt := data }
  | .lbaL => { c with lbaL := data }
  | .lbaM => { c with lbaM := data }
  | .lbaH => { c with lbaH := data }
  | .dev => { c with dev := data }
  | .cmd =>
    if data = 0x20 then c.start false
    else if data = 0x30 then c.start true
    else c

/-- `BIT_STAT_DRDY`, and `BIT_STAT_DRQ` while bytes are to pass. -/
def Channel.status (c : Channel) : UInt8 :=
  match c.transfer with
  | some t => if t.done < 512 * t.sectors then 0x48 else 0x40
  | none => 0x40

/-- Byte `i` from the beginning of sector `lba` on. -/
def byteAt (sectors : ℕ → ℕ → UInt8) (lba i : ℕ) : UInt8 := sectors (lba + i / 512) (i % 512)

/-- One word from the data register to the memory; without data it is the idle bus. -/
def inw (a : Addr) (c : Channel) : Channel :=
  match c.transfer with
  | some t =>
    if t.write = false ∧ t.done < 512 * t.sectors then
      { c with
        memory := fun x =>
          if x = a then byteAt (c.drives t.slave) t.lba t.done
          else if x = a + 1 then byteAt (c.drives t.slave) t.lba (t.done + 1)
          else c.memory x
        transfer := some { t with done := t.done + 2 } }
    else { c with memory := fun x => if x = a ∨ x = a + 1 then 0xff else c.memory x }
  | none => { c with memory := fun x => if x = a ∨ x = a + 1 then 0xff else c.memory x }

/-- One word from the memory to the data register. -/
def outw (a : Addr) (c : Channel) : Channel :=
  match c.transfer with
  | some t =>
    if t.write = true ∧ t.done < 512 * t.sectors then
      { c with
        drives := fun sl l j =>
          if sl = t.slave ∧ l = t.lba + t.done / 512 ∧ j = t.done % 512 then c.memory a
          else if sl = t.slave ∧ l = t.lba + t.done / 512 ∧ j = t.done % 512 + 1 then
            c.memory (a + 1)
          else c.drives sl l j
        transfer := some { t with done := t.done + 2 } }
    else c
  | none => c

def inwRep : (wordCnt : ℕ) → Addr → Channel → Channel
  | 0, _, c => c
  | n + 1, a, c => inwRep n (a + 2) (inw a c)

def outwRep : (wordCnt : ℕ) → Addr → Channel → Channel
  | 0, _, c => c
  | n + 1, a, c => outwRep n (a + 2) (outw a c)

def insw (a : Addr) (wordCnt : ℕ) (c : Channel) : Channel :=
  { inwRep wordCnt a c with moves := c.moves ++ [⟨a, wordCnt⟩] }

/-- The controller answers with an interrupt when it has all bytes. -/
def outsw (a : Addr) (wordCnt : ℕ) (c : Channel) : Channel :=
  let c' : Channel := { outwRep wordCnt a c with moves := c.moves ++ [⟨a, wordCnt⟩] }
  match c'.transfer with
  | some t => if 512 * t.sectors ≤ t.done then c'.intrHdHandler else c'
  | none => c'

end Machine

section Strings

variable {a x : Addr} {c : Channel} {t : Transfer} {n : ℕ}

theorem sub_eq_zero_of (h : (x - a).toNat = 0) : x = a := by
  bv_omega

theorem sub_eq_one_of (h : (x - a).toNat = 1) : x = a + 1 := by
  bv_omega

/-- From `n` addresses further on the distance is `n` less, or it wraps around. -/
theorem sub_add_ofNat (x a : Addr) {n : ℕ} (hn : n < 2 ^ 32) :
    n ≤ (x - a).toNat ∧ (x - (a + BitVec.ofNat 32 n)).toNat = (x - a).toNat - n ∨
      (x - a).toNat < n ∧ (x - (a + BitVec.ofNat 32 n)).toNat = (x - a).toNat + 2 ^ 32 - n := by
  bv_omega

theorem sub_add_two (x a : Addr) :
    2 ≤ (x - a).toNat ∧ (x - (a + 2)).toNat = (x - a).toNat - 2 ∨
      (x - a).toNat < 2 ∧ (x - (a + 2)).toNat = (x - a).toNat + 2 ^ 32 - 2 :=
  sub_add_ofNat x a (by norm_num)

/-- The bytes that the next `n` words bring. -/
theorem inwRep_eq (n : ℕ) (a : Addr) (c : Channel) (t : Transfer) (ht : c.transfer = some t)
    (hread : t.write = false) (hdone : t.done + 2 * n ≤ 512 * t.sectors)
    (hn : 2 * n ≤ 2 ^ 32) :
    inwRep n a c =
      { c with
        memory := fun x =>
          if (x - a).toNat < 2 * n then
            byteAt (c.drives t.slave) t.lba (t.done + (x - a).toNat)
          else c.memory x
        transfer := some { t with done := t.done + 2 * n } } := by
  induction n generalizing a c t with
  | zero =>
    simp only [inwRep, Nat.mul_zero, Nat.not_lt_zero, if_false, Nat.add_zero]
    rw [← ht]
  | succ n ih =>
    have hmore : t.write = false ∧ t.done < 512 * t.sectors := ⟨hread, by omega⟩
    have hword : inw a c =
        { c with
          memory := fun x =>
            if x = a then byteAt (c.drives t.slave) t.lba t.done
            else if x = a + 1 then byteAt (c.drives t.slave) t.lba (t.done + 1)
            else c.memory x
          transfer := some { t with done := t.done + 2 } } := by
      unfold inw
      rw [ht]
      exact if_pos hmore
    rw [inwRep, hword]
    rw [ih (a + 2) _ { t with done := t.done + 2 } rfl hread (by dsimp only; omega) (by omega)]
    congr 1
    · congr 2
      dsimp only
      omega
    · funext x
      dsimp only
      rcases sub_add_two x a with ⟨hge, hsub⟩ | ⟨hlt, hwrap⟩
      · have hne : x ≠ a := by
          rintro rfl
          simp at hge
        have hne' : x ≠ a + 1 := by
          rintro rfl
          bv_omega
        rw [hsub, if_neg hne, if_neg hne']
        have hpos : t.done + 2 + ((x - a).toNat - 2) = t.done + (x - a).toNat := by omega
        rw [hpos]
        split_ifs <;> first | rfl | omega
      · have hout : ¬(x - (a + 2)).toNat < 2 * n := by omega
        have hin : (x - a).toNat < 2 * (n + 1) := by omega
        rw [if_neg hout, if_pos hin]
        by_cases h0 : (x - a).toNat = 0
        · rw [if_pos (sub_eq_zero_of h0), h0]
          rfl
        · have h1 : (x - a).toNat = 1 := by omega
          have hx := sub_eq_one_of h1
          have hne : x ≠ a := by
            rintro rfl
            simp at h0
          rw [if_neg hne, if_pos hx, h1]

/-- The byte at `p` bytes from the beginning of the command, when the word at `done` and the `n`
words behind it have passed. -/
theorem word_then_words (memory : Addr → UInt8) (a : Addr) (done n p : ℕ) (old : UInt8) :
    (if done + 2 ≤ p ∧ p < done + 2 + 2 * n then
        memory (a + 2 + BitVec.ofNat 32 (p - (done + 2)))
      else if p = done then memory a
      else if p = done + 1 then memory (a + 1)
      else old) =
    if done ≤ p ∧ p < done + 2 * (n + 1) then memory (a + BitVec.ofNat 32 (p - done))
    else old := by
  rcases Nat.lt_or_ge p (done + 2) with hlow | hhigh
  · have hbefore : ¬(done + 2 ≤ p ∧ p < done + 2 + 2 * n) := by omega
    rw [if_neg hbefore]
    by_cases h0 : p = done
    · rw [if_pos h0, if_pos (by omega), h0, Nat.sub_self]
      simp
    · rw [if_neg h0]
      by_cases h1 : p = done + 1
      · rw [if_pos h1, if_pos (by omega), h1, Nat.add_sub_cancel_left]
        rfl
      · rw [if_neg h1, if_neg (by omega)]
  · have h0 : ¬p = done := by omega
    have h1 : ¬p = done + 1 := by omega
    rw [if_neg h0, if_neg h1]
    by_cases hlt : p < done + 2 * (n + 1)
    · have hoff : p - done = 2 + (p - (done + 2)) := by omega
      rw [if_pos ⟨hhigh, by omega⟩, if_pos ⟨by omega, hlt⟩, hoff, BitVec.ofNat_add,
        BitVec.add_assoc]
      rfl
    · rw [if_neg (fun h => hlt (by omega)), if_neg (fun h => hlt h.2)]

/-- The two places of the word at `done`. -/
theorem place_iff {lba l j done k : ℕ} (hl : lba ≤ l) (hj : j < 512) (heven : done % 2 = 0)
    (hk : k < 2) :
    l = lba + done / 512 ∧ j = done % 512 + k ↔ 512 * (l - lba) + j = done + k := by
  constructor
  · rintro ⟨h1, h2⟩
    omega
  · intro h
    exact ⟨by omega, by omega⟩

/-- The drives after the next `n` words: byte `512 * (l - lba) + j` is byte `j` of sector `l`. -/
theorem outwRep_eq (n : ℕ) (a : Addr) (c : Channel) (t : Transfer) (ht : c.transfer = some t)
    (hwrite : t.write = true) (hdone : t.done + 2 * n ≤ 512 * t.sectors)
    (heven : t.done % 2 = 0) :
    outwRep n a c =
      { c with
        drives := fun sl l j =>
          if sl = t.slave ∧ t.lba ≤ l ∧ j < 512 ∧ t.done ≤ 512 * (l - t.lba) + j ∧
              512 * (l - t.lba) + j < t.done + 2 * n then
            c.memory (a + BitVec.ofNat 32 (512 * (l - t.lba) + j - t.done))
          else c.drives sl l j
        transfer := some { t with done := t.done + 2 * n } } := by
  induction n generalizing a c t with
  | zero =>
    have hnone : ∀ sl l j, ¬(sl = t.slave ∧ t.lba ≤ l ∧ j < 512 ∧
        t.done ≤ 512 * (l - t.lba) + j ∧ 512 * (l - t.lba) + j < t.done + 2 * 0) := by
      rintro sl l j ⟨-, -, -, h1, h2⟩
      omega
    simp only [outwRep, hnone, if_false]
    rw [Nat.mul_zero, Nat.add_zero, ← ht]
  | succ n ih =>
    have hmore : t.write = true ∧ t.done < 512 * t.sectors := ⟨hwrite, by omega⟩
    have hword : outw a c =
        { c with
          drives := fun sl l j =>
            if sl = t.slave ∧ l = t.lba + t.done / 512 ∧ j = t.done % 512 then c.memory a
            else if sl = t.slave ∧ l = t.lba + t.done / 512 ∧ j = t.done % 512 + 1 then
              c.memory (a + 1)
            else c.drives sl l j
          transfer := some { t with done := t.done + 2 } } := by
      unfold outw
      rw [ht]
      exact if_pos hmore
    rw [outwRep, hword]
    rw [ih (a + 2) _ { t with done := t.done + 2 } rfl hwrite (by dsimp only; omega)
      (by dsimp only; omega)]
    congr 1
    · congr 2
      dsimp only
      omega
    · funext sl l j
      dsimp only
      by_cases hin : sl = t.slave ∧ t.lba ≤ l ∧ j < 512
      · obtain ⟨hsl, hl, hj⟩ := hin
        have hfirst := place_iff hl hj heven (by norm_num : 0 < 2)
        have hsecond := place_iff hl hj heven (by norm_num : 1 < 2)
        simp only [Nat.add_zero] at hfirst
        simp only [hsl, hl, hj, true_and, hfirst, hsecond]
        exact word_then_words c.memory a t.done n _ _
      · have hrest : ∀ q, ¬(sl = t.slave ∧ t.lba ≤ l ∧ j < 512 ∧ q) :=
          fun q h => hin ⟨h.1, h.2.1, h.2.2.1⟩
        have hword₀ : ¬(sl = t.slave ∧ l = t.lba + t.done / 512 ∧ j = t.done % 512) :=
          fun h => hin ⟨h.1, by omega, by omega⟩
        have hword₁ : ¬(sl = t.slave ∧ l = t.lba + t.done / 512 ∧ j = t.done % 512 + 1) :=
          fun h => hin ⟨h.1, by omega, by omega⟩
        rw [if_neg (hrest _), if_neg hword₀, if_neg hword₁, if_neg (hrest _)]

end Strings

end Gogoos.Ata
