import Gogoos.Logic.Loop
import Gogoos.Structure.BitMap

/-!
# The bytes that the bitmap operations touch

The functions of `lib/structure/bitmap.c` once more, in 32-bit arithmetic and with a record of the
bytes that they read and write, for bitmaps of any length. Where the number of bits is below 2^32
they return what the functions on bitmaps return. An index is the distance from `startAddr`.
-/

namespace Gogoos.BitMapAccess

open Looping

variable {length cnt i : ℕ} {m : Bytes} {bytes : ℕ → UInt8} {val : Bool}

section Programs

structure Bytes where
  startAddr : ℕ → UInt8
  reads : List ℕ
  writes : List ℕ

abbrev Access (α : Type) : Type := Looping Bytes α

def Bytes.read (m : Bytes) (i : ℕ) : Bytes := { m with reads := i :: m.reads }

def Bytes.write (m : Bytes) (i : ℕ) (b : UInt8) : Bytes :=
  { m with startAddr := fun k => if k = i then b else m.startAddr k, writes := i :: m.writes }

def readByte (i : ℕ) : Access UInt8 := do
  let m ← get
  modify fun m => m.read i
  return m.startAddr i

def writeByte (i : ℕ) (b : UInt8) : Access Unit := modify fun m => m.write i b

/-- `-1`. -/
def minusOne : ℕ := 2 ^ 32 - 1

def sub32 (a b : ℕ) : ℕ := (a + (2 ^ 32 - b % 2 ^ 32)) % 2 ^ 32

def bitMapTest (length bitIdx : ℕ) : Access Bool := do
  if bitIdx ≥ length * 8 % 2 ^ 32 then return false
  else
    let b ← readByte (bitIdx / 8)
    return decide ((b.toNat >>> (bitIdx % 8)) % 2 = 1)

/-- The byte is read first, and `byteIdx` compared afterwards. -/
def skipFullRound (length byteIdx : ℕ) : Access (ℕ ⊕ ℕ) := do
  let b ← readByte byteIdx
  if b = 0xff ∧ byteIdx < length then return .inl ((byteIdx + 1) % 2 ^ 32)
  else return .inr byteIdx

def skipSetRound (byteIdx bitIdx : ℕ) : Access (ℕ ⊕ ℕ) := do
  let b ← readByte byteIdx
  if (b.toNat >>> bitIdx) % 2 = 1 then return .inl ((bitIdx + 1) % 2 ^ 32)
  else return .inr bitIdx

/-- The variables of the third loop of `bitMapScan`. -/
structure Run where
  leftBit : ℕ
  nextBit : ℕ
  fdCnt : ℕ

def scanRound (length cnt : ℕ) (r : Run) : Access (Run ⊕ ℕ) := do
  if r.leftBit = 0 then return .inr minusOne
  else
    let taken ← bitMapTest length r.nextBit
    let fdCnt := if taken then 0 else (r.fdCnt + 1) % 2 ^ 32
    if fdCnt = cnt then return .inr ((sub32 r.nextBit cnt + 1) % 2 ^ 32)
    else return .inl ⟨r.leftBit - 1, (r.nextBit + 1) % 2 ^ 32, fdCnt⟩

def bitMapScan (length cnt : ℕ) : Access ℕ := do
  let byteIdx ← loop (skipFullRound length) 0
  if byteIdx = length then return minusOne
  else
    let bitIdx ← loop (skipSetRound byteIdx) 0
    let bitIdxStart := (8 * byteIdx + bitIdx) % 2 ^ 32
    if cnt = 1 then return bitIdxStart
    else
      loop (scanRound length cnt)
        ⟨sub32 (sub32 (length * 8) bitIdxStart) 1, (bitIdxStart + 1) % 2 ^ 32, 1⟩

def bitMapSet (bitIdx : ℕ) (val : Bool) : Access Unit := do
  let mask : UInt8 := 1 <<< (UInt8.ofNat (bitIdx % 8))
  let b ← readByte (bitIdx / 8)
  writeByte (bitIdx / 8) (if val then b ||| mask else b &&& ~~~mask)

/-- `cnt` and `idx`. -/
def setRound (bitIdxStart : ℕ) (val : Bool) (r : ℕ × ℕ) : Access ((ℕ × ℕ) ⊕ ℕ) := do
  if r.1 = 0 then return .inr bitIdxStart
  else
    bitMapSet r.2 val
    return .inl (r.1 - 1, (r.2 + 1) % 2 ^ 32)

def bitMapScanAndSet (length cnt : ℕ) (val : Bool) : Access ℕ := do
  let bitIdxStart ← bitMapScan length cnt
  if bitIdxStart = minusOne then return minusOne
  else loop (setRound bitIdxStart val) (cnt, bitIdxStart)

end Programs

section Inside

/-- Every byte that was read or written is one of the first `length`. -/
structure Inside (length : ℕ) (m : Bytes) : Prop where
  reads : ∀ i ∈ m.reads, i < length
  writes : ∀ i ∈ m.writes, i < length

theorem Inside.read (h : Inside length m) (hi : i < length) : Inside length (m.read i) := by
  refine ⟨fun k hk => ?_, h.writes⟩
  rcases List.mem_cons.mp hk with rfl | hk
  · exact hi
  · exact h.reads k hk

theorem Inside.write (h : Inside length m) (hi : i < length) (b : UInt8) :
    Inside length (m.write i b) := by
  refine ⟨h.reads, fun k hk => ?_⟩
  rcases List.mem_cons.mp hk with rfl | hk
  · exact hi
  · exact h.writes k hk

theorem total_readByte {Q : UInt8 → Bytes → Prop} (h : Q (m.startAddr i) (m.read i)) :
    Total (readByte i) m Q :=
  total_bind (total_get (total_bind (total_modify (total_pure h))))

/-- The test never leaves the bitmap, and it is the one on bitmaps. -/
theorem total_bitMapTest {Q : Bool → Bytes → Prop} (hin : Inside length m)
    (h : ∀ m', m'.startAddr = m.startAddr → Inside length m' →
      Q (Gogoos.bitMapTest ⟨length, m.startAddr⟩ i) m') :
    Total (bitMapTest length i) m Q := by
  unfold bitMapTest Gogoos.bitMapTest at *
  dsimp only at h
  split_ifs at h ⊢ with hi
  · exact total_pure (h m rfl hin)
  · apply total_bind
    apply total_readByte
    exact total_pure (h _ rfl (hin.read (by omega)))

end Inside

section Loops

/-- The first loop ends behind the full bytes. It stays inside unless all bytes are full: then it
reads the one behind the last. -/
theorem skipFull_total (hlen : length < 2 ^ 32) (hbytes : m.startAddr = bytes)
    (hin : Inside length m) :
    Total (loop (skipFullRound length) 0) m fun byteIdx m' => m'.startAddr = bytes ∧
      byteIdx = skipFullBytes ⟨length, bytes⟩ length 0 ∧
      (byteIdx < length → Inside length m') ∧ (byteIdx = length → length ∈ m'.reads) := by
  apply total_loop
    (fun byteIdx m' => m'.startAddr = bytes ∧ byteIdx ≤ length ∧ Inside length m' ∧
      skipFullBytes ⟨length, bytes⟩ (length - byteIdx) byteIdx =
        skipFullBytes ⟨length, bytes⟩ length 0)
    (fun byteIdx => length - byteIdx)
  · rintro byteIdx m' ⟨hb, hle, hin', hrest⟩
    unfold skipFullRound
    apply total_bind
    apply total_readByte
    rw [hb]
    by_cases hgo : bytes byteIdx = 0xff ∧ byteIdx < length
    · rw [if_pos hgo]
      apply total_pure
      have hlt := hgo.2
      have hwrap : (byteIdx + 1) % 2 ^ 32 = byteIdx + 1 := Nat.mod_eq_of_lt (by omega)
      obtain ⟨left, hleft⟩ : ∃ left, length - byteIdx = left + 1 :=
        ⟨length - byteIdx - 1, by omega⟩
      have hnext : length - (byteIdx + 1) = left := by omega
      rw [hleft, skipFullBytes, if_pos hgo] at hrest
      rw [hwrap]
      refine ⟨⟨hb, by omega, hin'.read hlt, ?_⟩, by omega⟩
      rw [hnext]
      exact hrest
    · rw [if_neg hgo]
      apply total_pure
      refine ⟨hb, ?_, fun hlt => hin'.read hlt, fun heq => ?_⟩
      · rw [← hrest]
        cases length - byteIdx with
        | zero => rfl
        | succ left => rw [skipFullBytes, if_neg hgo]
      · rw [← heq]
        exact List.mem_cons_self ..
  · exact ⟨hbytes, Nat.zero_le _, hin, rfl⟩

/-- The second loop reads one byte, again and again, for a clear bit in it. -/
theorem skipSet_total (hbytes : m.startAddr = bytes) (hin : Inside length m) (hi : i < length) :
    Total (loop (skipSetRound i) 0) m fun bitIdx m' => m'.startAddr = bytes ∧
      bitIdx = skipSetBits (bytes i) 8 0 ∧ Inside length m' := by
  apply total_loop
    (fun bitIdx m' => m'.startAddr = bytes ∧ bitIdx ≤ 8 ∧ Inside length m' ∧
      skipSetBits (bytes i) (8 - bitIdx) bitIdx = skipSetBits (bytes i) 8 0)
    (fun bitIdx => 8 - bitIdx)
  · rintro bitIdx m' ⟨hb, hle, hin', hrest⟩
    unfold skipSetRound
    apply total_bind
    apply total_readByte
    rw [hb]
    by_cases hset : ((bytes i).toNat >>> bitIdx) % 2 = 1
    · rw [if_pos hset]
      apply total_pure
      -- A byte has no bit 8.
      have hlt : bitIdx < 8 := by
        by_contra hge
        obtain rfl : bitIdx = 8 := by omega
        rw [Nat.shiftRight_eq_div_pow, Nat.div_eq_of_lt (bytes i).toNat_lt] at hset
        exact absurd hset (by decide)
      obtain ⟨left, hleft⟩ : ∃ left, 8 - bitIdx = left + 1 := ⟨7 - bitIdx, by omega⟩
      have hnext : 8 - (bitIdx + 1) = left := by omega
      have hwrap : (bitIdx + 1) % 2 ^ 32 = bitIdx + 1 := Nat.mod_eq_of_lt (by omega)
      rw [hleft, skipSetBits, if_pos hset] at hrest
      rw [hwrap]
      refine ⟨⟨hb, by omega, hin'.read hi, ?_⟩, by omega⟩
      rw [hnext]
      exact hrest
    · rw [if_neg hset]
      apply total_pure
      refine ⟨hb, ?_, hin'.read hi⟩
      rw [← hrest]
      cases 8 - bitIdx with
      | zero => rfl
      | succ left => rw [skipSetBits, if_neg hset]
  · exact ⟨hbytes, by omega, hin, rfl⟩

/-- An index as the 32-bit number that C returns. -/
def code : Option ℕ → ℕ
  | none => minusOne
  | some i => i

theorem sub32_succ {a b : ℕ} (hle : b ≤ a + 1) (ha : a + 1 < 2 ^ 32) :
    (sub32 a b + 1) % 2 ^ 32 = a + 1 - b := by
  unfold sub32
  rw [Nat.mod_eq_of_lt (by omega : b < 2 ^ 32)]
  omega

/-- The third loop counts down, whatever it finds. -/
theorem scanRun_total (hbytes : m.startAddr = bytes) (hin : Inside length m) (r : Run)
    (hr : length * 8 < 2 ^ 32 → r.nextBit + r.leftBit = length * 8 ∧ r.fdCnt ≤ r.nextBit) :
    Total (loop (scanRound length cnt) r) m fun k m' => m'.startAddr = bytes ∧
      Inside length m' ∧ k < 2 ^ 32 ∧ (length * 8 < 2 ^ 32 →
        k = code (scanRun ⟨length, bytes⟩ cnt r.leftBit r.nextBit r.fdCnt)) := by
  apply total_loop
    (fun (r' : Run) m' => m'.startAddr = bytes ∧ Inside length m' ∧ (length * 8 < 2 ^ 32 →
      r'.nextBit + r'.leftBit = length * 8 ∧ r'.fdCnt ≤ r'.nextBit ∧
      scanRun ⟨length, bytes⟩ cnt r'.leftBit r'.nextBit r'.fdCnt =
        scanRun ⟨length, bytes⟩ cnt r.leftBit r.nextBit r.fdCnt))
    (fun r' => r'.leftBit)
  · rintro ⟨leftBit, nextBit, fdCnt⟩ m' ⟨hb, hin', hrest⟩
    unfold scanRound
    dsimp only at hrest ⊢
    by_cases h0 : leftBit = 0
    · rw [if_pos h0]
      apply total_pure
      refine ⟨hb, hin', by decide, fun hsmall => ?_⟩
      rw [← (hrest hsmall).2.2, h0]
      rfl
    · rw [if_neg h0]
      obtain ⟨left, rfl⟩ : ∃ left, leftBit = left + 1 := ⟨leftBit - 1, by omega⟩
      apply total_bind
      apply total_bitMapTest hin'
      intro m'' hb' hin''
      rw [hb] at hb' ⊢
      simp only [scanRun] at hrest
      -- What the loop on bitmaps counts is what this one counts, as nothing wraps around.
      have hcount : length * 8 < 2 ^ 32 → (fdCnt + 1) % 2 ^ 32 = fdCnt + 1 := fun hsmall => by
        have h := hrest hsmall
        exact Nat.mod_eq_of_lt (by omega)
      generalize Gogoos.bitMapTest ⟨length, bytes⟩ nextBit = taken at hrest ⊢
      by_cases hfound : (if taken = true then 0 else (fdCnt + 1) % 2 ^ 32) = cnt
      · rw [if_pos hfound]
        apply total_pure
        refine ⟨hb', hin'', Nat.mod_lt _ (by norm_num), fun hsmall => ?_⟩
        obtain ⟨hsum, hle, heq⟩ := hrest hsmall
        rw [hcount hsmall] at hfound
        rw [if_pos hfound] at heq
        rw [← heq]
        have hcnt : cnt ≤ nextBit + 1 := by
          rw [← hfound]
          split_ifs <;> omega
        exact sub32_succ hcnt (by omega)
      · rw [if_neg hfound]
        apply total_pure
        refine ⟨⟨hb', hin'', fun hsmall => ?_⟩, by simp⟩
        obtain ⟨hsum, hle, heq⟩ := hrest hsmall
        have hwrap : (nextBit + 1) % 2 ^ 32 = nextBit + 1 := Nat.mod_eq_of_lt (by omega)
        rw [hcount hsmall] at hfound ⊢
        rw [if_neg hfound] at heq
        rw [hwrap]
        refine ⟨?_, ?_, heq⟩
        · dsimp only
          omega
        · dsimp only
          split_ifs <;> omega
  · exact ⟨hbytes, hin, fun hsmall => ⟨(hr hsmall).1, (hr hsmall).2, rfl⟩⟩

end Loops

section Scan

/-- All bytes are full. -/
def Full (length : ℕ) (bytes : ℕ → UInt8) : Prop := ∀ i < length, bytes i = 0xff

/-- What a scan leaves behind. On a bitmap that is not full it stays inside; on a full one it has
read the byte behind the last and returns `-1`. -/
structure Scanned (length cnt : ℕ) (bytes : ℕ → UInt8) (k : ℕ) (m : Bytes) : Prop where
  same : m.startAddr = bytes
  index : k < 2 ^ 32
  inside : ¬Full length bytes → Inside length m
  behind : Full length bytes → length ∈ m.reads ∧ k = minusOne
  value : length * 8 < 2 ^ 32 → k = code (Gogoos.bitMapScan ⟨length, bytes⟩ cnt)

theorem bitMapScan_total (cnt : ℕ) (hlen : length < 2 ^ 32) (hbytes : m.startAddr = bytes)
    (hin : Inside length m) : Total (bitMapScan length cnt) m (Scanned length cnt bytes) := by
  obtain ⟨hle, hfull, hnot⟩ := skipFullBytes_spec ⟨length, bytes⟩ length 0 (by simp) (by omega)
  unfold bitMapScan
  apply (skipFull_total hlen hbytes hin).call
  rintro byteIdx m₁ ⟨hb₁, hidx, hinside, hbehind⟩
  rw [← hidx] at hle hfull hnot
  dsimp only at hle hfull hnot
  by_cases hend : byteIdx = length
  · rw [if_pos hend]
    apply total_pure
    have hall : Full length bytes := fun i hi => hfull i (by omega)
    refine ⟨hb₁, by decide, fun h => absurd hall h, fun _ => ⟨hbehind hend, rfl⟩, fun _ => ?_⟩
    unfold Gogoos.bitMapScan
    dsimp only
    rw [← hidx, if_pos hend]
    rfl
  · rw [if_neg hend]
    have hlt : byteIdx < length := by omega
    have hnotfull : ¬Full length bytes := fun h => hnot hlt (h byteIdx hlt)
    apply (skipSet_total hb₁ (hinside hlt) hlt).call
    rintro bitIdx m₂ ⟨hb₂, hbit, hin₂⟩
    obtain ⟨hbit8, hset, -⟩ := skipSetBits_spec (bytes byteIdx) 8 0 (by omega) (by omega)
    rw [← hbit] at hbit8 hset
    have hbit_lt : bitIdx < 8 := by
      by_contra hge
      obtain rfl : bitIdx = 8 := by omega
      exact hnot hlt ((byte_eq_ff_iff _).mpr hset)
    have hscan : Gogoos.bitMapScan ⟨length, bytes⟩ cnt =
        if cnt = 1 then some (8 * byteIdx + bitIdx)
        else scanRun ⟨length, bytes⟩ cnt (length * 8 - (8 * byteIdx + bitIdx) - 1)
          (8 * byteIdx + bitIdx + 1) 1 := by
      unfold Gogoos.bitMapScan
      dsimp only
      rw [← hidx, if_neg hend, ← hbit]
    dsimp only
    by_cases hone : cnt = 1
    · rw [if_pos hone]
      apply total_pure
      refine ⟨hb₂, Nat.mod_lt _ (by norm_num), fun _ => hin₂, fun h => absurd h hnotfull, ?_⟩
      intro hsmall
      rw [hscan, if_pos hone]
      exact Nat.mod_eq_of_lt (by omega)
    · rw [if_neg hone]
      have hstart : length * 8 < 2 ^ 32 →
          (8 * byteIdx + bitIdx) % 2 ^ 32 = 8 * byteIdx + bitIdx ∧
          (8 * byteIdx + bitIdx + 1) % 2 ^ 32 = 8 * byteIdx + bitIdx + 1 ∧
          sub32 (sub32 (length * 8) (8 * byteIdx + bitIdx)) 1 =
            length * 8 - (8 * byteIdx + bitIdx) - 1 := by
        intro hsmall
        unfold sub32
        omega
      apply (scanRun_total hb₂ hin₂ _ ?_).mono
      · rintro k m₃ ⟨hb₃, hin₃, hlt, hk⟩
        refine ⟨hb₃, hlt, fun _ => hin₃, fun h => absurd h hnotfull, fun hsmall => ?_⟩
        obtain ⟨h₁, h₂, h₃⟩ := hstart hsmall
        rw [hscan, if_neg hone, hk hsmall]
        dsimp only
        rw [h₁, h₂, h₃]
      · intro hsmall
        obtain ⟨h₁, h₂, h₃⟩ := hstart hsmall
        dsimp only
        rw [h₁, h₂, h₃]
        omega

end Scan

section SetBits

theorem total_bitMapSet (length : ℕ) {Q : Unit → Bytes → Prop}
    (h : Q () ((m.read (i / 8)).write (i / 8)
      ((Gogoos.bitMapSet ⟨length, m.startAddr⟩ i val).startAddr (i / 8)))) :
    Total (bitMapSet i val) m Q := by
  unfold bitMapSet
  apply total_bind
  apply total_readByte
  apply total_modify
  simpa [Gogoos.bitMapSet] using h

theorem write_bitMapSet (length : ℕ) (m : Bytes) (i : ℕ) (val : Bool) :
    (⟨length, ((m.read (i / 8)).write (i / 8)
      ((Gogoos.bitMapSet ⟨length, m.startAddr⟩ i val).startAddr (i / 8))).startAddr⟩ : BitMap) =
        Gogoos.bitMapSet ⟨length, m.startAddr⟩ i val := by
  unfold Gogoos.bitMapSet Bytes.write Bytes.read
  congr 1
  funext k
  by_cases hk : k = i / 8 <;> simp [hk]

/-- The bits that are set lie inside: they were found there, or every 32-bit index does. -/
theorem setBits_total (hbytes : m.startAddr = bytes) (hin : Inside length m) {k : ℕ}
    (hk : length * 8 < 2 ^ 32 → k + cnt ≤ length * 8) (hwrap : k < 2 ^ 32) :
    Total (loop (setRound k val) (cnt, k)) m fun r m' => r = k ∧ Inside length m' ∧
      (length * 8 < 2 ^ 32 →
        (⟨length, m'.startAddr⟩ : BitMap) = bitMapSetRun ⟨length, bytes⟩ val cnt k) := by
  apply total_loop
    (fun (r : ℕ × ℕ) m' => Inside length m' ∧ r.2 < 2 ^ 32 ∧ (length * 8 < 2 ^ 32 →
      r.2 + r.1 ≤ length * 8 ∧ bitMapSetRun ⟨length, m'.startAddr⟩ val r.1 r.2 =
        bitMapSetRun ⟨length, bytes⟩ val cnt k))
    (fun r => r.1)
  · rintro ⟨left, idx⟩ m' ⟨hin', hidx, hrest⟩
    unfold setRound
    dsimp only at hidx hrest ⊢
    by_cases h0 : left = 0
    · rw [if_pos h0]
      apply total_pure
      refine ⟨rfl, hin', fun hsmall => ?_⟩
      rw [← (hrest hsmall).2, h0]
      rfl
    · rw [if_neg h0]
      obtain ⟨left, rfl⟩ : ∃ n, left = n + 1 := ⟨left - 1, by omega⟩
      have hbyte : idx / 8 < length := by
        by_cases hsmall : length * 8 < 2 ^ 32
        · have h := (hrest hsmall).1
          omega
        · omega
      apply total_bind
      apply total_bitMapSet length
      apply total_pure
      refine ⟨⟨(hin'.read hbyte).write hbyte _, Nat.mod_lt _ (by norm_num), fun hsmall => ?_⟩,
        by simp⟩
      obtain ⟨hsum, hrun⟩ := hrest hsmall
      have hnext : (idx + 1) % 2 ^ 32 = idx + 1 := Nat.mod_eq_of_lt (by omega)
      rw [bitMapSetRun, ← write_bitMapSet] at hrun
      dsimp only
      rw [hnext]
      exact ⟨by omega, hrun⟩
  · refine ⟨hin, hwrap, fun hsmall => ⟨hk hsmall, ?_⟩⟩
    rw [hbytes]

end SetBits

section Law

theorem bitMapScanAndSet_total (val : Bool) (hlen : length < 2 ^ 32) (hcnt : 0 < cnt)
    (hbytes : m.startAddr = bytes) (hin : Inside length m) :
    Total (bitMapScanAndSet length cnt val) m fun k m' =>
      (¬Full length bytes → Inside length m') ∧ (Full length bytes → length ∈ m'.reads) ∧
      (length * 8 < 2 ^ 32 →
        k = code (Gogoos.bitMapScanAndSet ⟨length, bytes⟩ cnt val).1 ∧
        (⟨length, m'.startAddr⟩ : BitMap) =
          (Gogoos.bitMapScanAndSet ⟨length, bytes⟩ cnt val).2) := by
  unfold bitMapScanAndSet
  apply (bitMapScan_total cnt hlen hbytes hin).call
  intro k m₁ hscan
  have hvalue := hscan.value
  -- What was found is an index of the bitmap, and never `-1`.
  have hfound : ∀ i, Gogoos.bitMapScan ⟨length, bytes⟩ cnt = some i →
      length * 8 < 2 ^ 32 → i + cnt ≤ length * 8 := by
    intro i hi hsmall
    have hbits : (⟨length, bytes⟩ : BitMap).bits = length * 8 := Nat.mul_comm _ _
    have h := (bitMapScan_eq_some (by omega) hcnt hi).1
    omega
  by_cases hnone : k = minusOne
  · rw [if_pos hnone]
    apply total_pure
    refine ⟨hscan.inside, fun h => (hscan.behind h).1, fun hsmall => ?_⟩
    unfold Gogoos.bitMapScanAndSet
    cases hg : Gogoos.bitMapScan ⟨length, bytes⟩ cnt with
    | none => exact ⟨rfl, by rw [hscan.same]⟩
    | some i =>
      have hi := hfound i hg hsmall
      have hk : k = i := by rw [hvalue hsmall, hg]; rfl
      unfold minusOne at hnone
      omega
  · rw [if_neg hnone]
    have hnotfull : ¬Full length bytes := fun h => hnone (hscan.behind h).2
    have hsome : length * 8 < 2 ^ 32 → Gogoos.bitMapScan ⟨length, bytes⟩ cnt = some k := by
      intro hsmall
      cases hg : Gogoos.bitMapScan ⟨length, bytes⟩ cnt with
      | none =>
        have hk := hvalue hsmall
        rw [hg] at hk
        exact absurd hk hnone
      | some i =>
        have hk := hvalue hsmall
        rw [hg] at hk
        exact congrArg some hk.symm
    have hend : length * 8 < 2 ^ 32 → k + cnt ≤ length * 8 := fun hsmall =>
      hfound k (hsome hsmall) hsmall
    apply (setBits_total hscan.same (hscan.inside hnotfull) hend hscan.index).mono
    rintro r m' ⟨rfl, hin', hset⟩
    refine ⟨fun _ => hin', fun h => absurd h hnotfull, fun hsmall => ?_⟩
    unfold Gogoos.bitMapScanAndSet
    rw [hsome hsmall]
    exact ⟨rfl, hset hsmall⟩

/-- The program returns and has read and written no byte but the first `length`. -/
def Stays {α : Type} (p : Access α) (length : ℕ) (bytes : ℕ → UInt8) : Prop :=
  Total p ⟨bytes, [], []⟩ fun _ m => Inside length m

def Terminates {α : Type} (p : Access α) (bytes : ℕ → UInt8) : Prop :=
  Total p ⟨bytes, [], []⟩ fun _ _ => True

theorem stays_iff {α : Type} {p : Access α} {R : α → Bytes → Prop}
    (h : Total p ⟨bytes, [], []⟩ R)
    (hinside : ∀ a m, R a m → ¬Full length bytes → Inside length m)
    (hbehind : ∀ a m, R a m → Full length bytes → length ∈ m.reads) :
    Stays p length bytes ↔ ¬Full length bytes := by
  constructor
  · intro hstays hfull
    exact hstays.absurd h fun a m hin hr =>
      absurd (hin.reads length (hbehind a m hr hfull)) (lt_irrefl length)
  · intro hnot
    exact h.mono fun a m hr => hinside a m hr hnot

/-- Both functions always return. They stay inside the bitmap exactly when it has a byte that is
not full. -/
theorem bitmap_access_law (length cnt : ℕ) (bytes : ℕ → UInt8) (hlen : length < 2 ^ 32)
    (hcnt : 1 ≤ cnt) :
    (Terminates (bitMapScan length cnt) bytes ∧
      ∀ val, Terminates (bitMapScanAndSet length cnt val) bytes) ∧
    ((Stays (bitMapScan length cnt) length bytes ∧
      ∀ val, Stays (bitMapScanAndSet length cnt val) length bytes) ↔
        ∃ i < length, bytes i ≠ 0xff) := by
  have hin : Inside length ⟨bytes, [], []⟩ := ⟨by simp, by simp⟩
  have hscan := bitMapScan_total cnt hlen rfl hin
  have hset := fun val => bitMapScanAndSet_total val hlen hcnt rfl hin
  have hnot : ¬Full length bytes ↔ ∃ i < length, bytes i ≠ 0xff := by
    simp [Full]
  constructor
  · exact ⟨hscan.mono fun _ _ _ => trivial, fun val => (hset val).mono fun _ _ _ => trivial⟩
  · rw [← hnot, stays_iff hscan (fun _ _ h => h.inside) fun _ _ h hf => (h.behind hf).1]
    constructor
    · exact fun h => h.1
    · intro h
      exact ⟨h, fun val => (stays_iff (hset val) (fun _ _ h => h.1) fun _ _ h => h.2.1).mpr h⟩

theorem bitmap_access_law_sample :
    (Terminates (bitMapScan 2 3) (fun _ => 0xf0) ∧
      ∀ val, Terminates (bitMapScanAndSet 2 3 val) (fun _ => 0xf0)) ∧
    ((Stays (bitMapScan 2 3) 2 (fun _ => 0xf0) ∧
      ∀ val, Stays (bitMapScanAndSet 2 3 val) 2 (fun _ => 0xf0)) ↔
        ∃ i < 2, (fun _ => 0xf0 : ℕ → UInt8) i ≠ 0xff) :=
  bitmap_access_law 2 3 (fun _ => 0xf0) (by norm_num) (by norm_num)

/-- On one full byte the scan reads the byte behind it. -/
theorem bitMapScan_reads_behind : ¬Stays (bitMapScan 1 1) 1 (fun _ => 0xff) := by
  intro hstays
  have hread : Total (bitMapScan 1 1) ⟨fun _ => 0xff, [], []⟩ fun _ m => 1 ∈ m.reads :=
    ⟨2, minusOne, ⟨fun _ => 0xff, [1, 0], []⟩, rfl, by simp⟩
  exact hstays.absurd hread fun _ _ h h' => absurd (h.reads 1 h') (by decide)

end Law

end Gogoos.BitMapAccess
