import Gogoos.Device.Controller

/-!
# Sector transfers

`ideRead` and `ideWrite` of `device/ide.c`, down to the registers. The lock of the channel keeps
all other commands away while one of them runs, so a call is a program that runs alone. A wait for
an interrupt that does not come, and `PANIC`, do not return.
-/

namespace Gogoos.Ata

open Looping

section Programs

abbrev Io (α : Type) : Type := Looping Channel α

structure Disk where
  devNo : ℕ

/-- `BIT_DEV_SLAVE`. -/
def Disk.slaveBit (hd : Disk) : UInt8 := if hd.devNo = 1 then 0x10 else 0

def out (r : Register) (data : UInt8) : Io Unit := modify (outb r data)

/-- With `BIT_DEV_MBS` and `BIT_DEV_LBA`. -/
def selectDisk (hd : Disk) : Io Unit := out .dev (0xa0 ||| 0x40 ||| hd.slaveBit)

def selectSector (hd : Disk) (lba : ℕ) (secCnt : UInt8) : Io Unit := do
  assert (lba < maxLba)
  out .sectCnt secCnt
  out .lbaL (UInt8.ofNat lba)
  out .lbaM (UInt8.ofNat (lba / 2 ^ 8))
  out .lbaH (UInt8.ofNat (lba / 2 ^ 16))
  out .dev (UInt8.ofNat (lba / 2 ^ 24) ||| 0xa0 ||| 0x40 ||| hd.slaveBit)

def cmdOut (cmd : UInt8) : Io Unit := do
  modify fun c => { c with expectingIntr := true }
  out .cmd cmd

def sizeInByte (secCnt : UInt8) : ℕ := if secCnt = 0 then 256 * 512 else secCnt.toNat * 512

def readSector (buf : Addr) (secCnt : UInt8) : Io Unit := modify (insw buf (sizeInByte secCnt / 2))

def writeSector (buf : Addr) (secCnt : UInt8) : Io Unit :=
  modify (outsw buf (sizeInByte secCnt / 2))

/-- `semaDown(&channel->diskDone)`. -/
def semaDown : Io Unit := do
  let c ← get
  if c.diskDone = 0 then halt
  else modify fun c => { c with diskDone := c.diskDone - 1 }

/-- `BIT_STAT_BSY` and `BIT_STAT_DRQ`. -/
def busyRound (timeLimit : ℕ) : Io (ℕ ⊕ Bool) := do
  if timeLimit = 0 then return .inr false
  else
    let c ← get
    if c.status &&& 0x80 = 0 then return .inr (decide (c.status &&& 0x8 ≠ 0))
    else return .inl (timeLimit - 10)

def busyWait : Io Bool := loop busyRound (30 * 1000)

/-- `(void*) ((uint32) buf + secsDone * 512)`. -/
def sectorAddr (buf : Addr) (secsDone : ℕ) : Addr := buf + BitVec.ofNat 32 (secsDone * 512)

def secsPerLoop (secCnt secsDone : ℕ) : ℕ :=
  if (secsDone + 256) % 2 ^ 32 ≤ secCnt then 256 else secCnt - secsDone

def readRound (hd : Disk) (lba : ℕ) (buf : Addr) (secCnt secsDone : ℕ) : Io (ℕ ⊕ Unit) := do
  if secsDone < secCnt then
    selectSector hd ((lba + secsDone) % 2 ^ 32) (UInt8.ofNat (secsPerLoop secCnt secsDone))
    cmdOut 0x20
    semaDown
    let ready ← busyWait
    assert (ready = true)
    readSector (sectorAddr buf secsDone) (UInt8.ofNat (secsPerLoop secCnt secsDone))
    return .inl ((secsDone + secsPerLoop secCnt secsDone) % 2 ^ 32)
  else return .inr ()

def ideRead (hd : Disk) (lba : ℕ) (buf : Addr) (secCnt : ℕ) : Io Unit := do
  assert (lba < maxLba)
  assert (0 < secCnt)
  selectDisk hd
  loop (readRound hd lba buf secCnt) 0

def writeRound (hd : Disk) (lba : ℕ) (buf : Addr) (secCnt secsDone : ℕ) : Io (ℕ ⊕ Unit) := do
  if secsDone < secCnt then
    selectSector hd ((lba + secsDone) % 2 ^ 32) (UInt8.ofNat (secsPerLoop secCnt secsDone))
    cmdOut 0x30
    let ready ← busyWait
    assert (ready = true)
    writeSector (sectorAddr buf secsDone) (UInt8.ofNat (secsPerLoop secCnt secsDone))
    semaDown
    return .inl ((secsDone + secsPerLoop secCnt secsDone) % 2 ^ 32)
  else return .inr ()

def ideWrite (hd : Disk) (lba : ℕ) (buf : Addr) (secCnt : ℕ) : Io Unit := do
  assert (lba < maxLba)
  assert (0 < secCnt)
  selectDisk hd
  loop (writeRound hd lba buf secCnt) 0

end Programs

section Commands

variable {hd : Disk} {c : Channel} {lba n : ℕ}

def Disk.slave (hd : Disk) : Bool := hd.devNo = 1

/-- The count register holds 0 for 256, and both sides take it so. -/
theorem countOf_ofNat (hlo : 1 ≤ n) (hhi : n ≤ 256) : countOf (UInt8.ofNat n) = n := by
  have hnat : (UInt8.ofNat n).toNat = n % 256 := UInt8.toNat_ofNat'
  unfold countOf
  split_ifs with h0
  · rw [h0] at hnat
    have hzero : (0 : UInt8).toNat = 0 := rfl
    omega
  · rw [hnat]
    by_contra hne
    obtain rfl : n = 256 := by omega
    exact h0 rfl

theorem sizeInByte_eq (secCnt : UInt8) : sizeInByte secCnt = countOf secCnt * 512 := by
  unfold sizeInByte countOf
  split_ifs <;> rfl

/-- The channel with the registers of a command for `n` sectors from `lba` on. -/
def Channel.selected (c : Channel) (hd : Disk) (lba n : ℕ) : Channel :=
  { c with
    sectCnt := UInt8.ofNat n
    lbaL := UInt8.ofNat lba
    lbaM := UInt8.ofNat (lba / 2 ^ 8)
    lbaH := UInt8.ofNat (lba / 2 ^ 16)
    dev := UInt8.ofNat (lba / 2 ^ 24) ||| 0xa0 ||| 0x40 ||| hd.slaveBit }

theorem selected_lba (c : Channel) (hd : Disk) (n : ℕ) (hlba : lba < maxLba) :
    (c.selected hd lba n).lba = lba := by
  have hhigh : lba / 2 ^ 24 = 0 := by
    unfold maxLba at hlba
    omega
  have hdev : (UInt8.ofNat 0 ||| 0xa0 ||| 0x40 ||| hd.slaveBit).toNat % 16 = 0 := by
    unfold Disk.slaveBit
    split_ifs <;> rfl
  have hL : (UInt8.ofNat lba).toNat = lba % 256 := UInt8.toNat_ofNat'
  have hM : (UInt8.ofNat (lba / 2 ^ 8)).toNat = lba / 2 ^ 8 % 256 := UInt8.toNat_ofNat'
  have hH : (UInt8.ofNat (lba / 2 ^ 16)).toNat = lba / 2 ^ 16 % 256 := UInt8.toNat_ofNat'
  unfold Channel.lba Channel.selected
  dsimp only
  rw [hhigh, hdev, hL, hM, hH]
  unfold maxLba at hlba
  omega

theorem selected_slave (c : Channel) (hd : Disk) (n : ℕ) (hlba : lba < maxLba) :
    (c.selected hd lba n).slave = hd.slave := by
  have hhigh : lba / 2 ^ 24 = 0 := by
    unfold maxLba at hlba
    omega
  unfold Channel.slave Channel.selected Disk.slave Disk.slaveBit
  dsimp only
  rw [hhigh]
  split_ifs with h <;> simp [h] <;> decide

theorem total_selectSector {Q : Unit → Channel → Prop} (hlba : lba < maxLba)
    (h : Q () (c.selected hd lba n)) :
    Total (selectSector hd lba (UInt8.ofNat n)) c Q := by
  unfold selectSector out
  apply total_bind
  apply total_assert hlba
  apply total_bind
  apply total_modify
  apply total_bind
  apply total_modify
  apply total_bind
  apply total_modify
  apply total_bind
  apply total_modify
  apply total_modify
  exact h

/-- After the command: nothing has passed yet. -/
structure Begun (write slave : Bool) (lba n : ℕ) (c c' : Channel) : Prop where
  transfer : c'.transfer = some ⟨write, slave, lba, n, 0⟩
  drives : c'.drives = c.drives
  memory : c'.memory = c.memory
  commands : c'.commands = c.commands ++ [⟨write, slave, lba, n⟩]
  moves : c'.moves = c.moves

theorem Begun.of_start (c : Channel) (hd : Disk) (write : Bool) (hlba : lba < maxLba)
    (hlo : 1 ≤ n) (hhi : n ≤ 256) {c' : Channel}
    (htransfer : c'.transfer = some ⟨write, (c.selected hd lba n).slave,
      (c.selected hd lba n).lba, countOf (c.selected hd lba n).sectCnt, 0⟩)
    (hdrives : c'.drives = c.drives) (hmemory : c'.memory = c.memory)
    (hcommands : c'.commands = c.commands ++ [⟨write, (c.selected hd lba n).slave,
      (c.selected hd lba n).lba, countOf (c.selected hd lba n).sectCnt⟩])
    (hmoves : c'.moves = c.moves) : Begun write hd.slave lba n c c' := by
  have hcount : countOf (c.selected hd lba n).sectCnt = n := countOf_ofNat hlo hhi
  rw [selected_lba c hd n hlba, selected_slave c hd n hlba, hcount] at htransfer hcommands
  exact ⟨htransfer, hdrives, hmemory, hcommands, hmoves⟩

/-- The interrupt of a read comes at once, and `semaDown` will not wait. -/
theorem total_cmdOut_read {Q : Unit → Channel → Prop} (hlba : lba < maxLba) (hlo : 1 ≤ n)
    (hhi : n ≤ 256) (h : ∀ c', Begun false hd.slave lba n c c' → 0 < c'.diskDone → Q () c') :
    Total (cmdOut 0x20) (c.selected hd lba n) Q := by
  unfold cmdOut out
  apply total_bind
  apply total_modify
  apply total_modify
  apply h
  · exact .of_start c hd false hlba hlo hhi rfl rfl rfl rfl rfl
  · exact Nat.succ_pos _

theorem total_cmdOut_write {Q : Unit → Channel → Prop} (hlba : lba < maxLba) (hlo : 1 ≤ n)
    (hhi : n ≤ 256)
    (h : ∀ c', Begun true hd.slave lba n c c' → c'.expectingIntr = true → Q () c') :
    Total (cmdOut 0x30) (c.selected hd lba n) Q := by
  unfold cmdOut out
  apply total_bind
  apply total_modify
  apply total_modify
  apply h
  · exact .of_start c hd true hlba hlo hhi rfl rfl rfl rfl rfl
  · rfl

theorem total_semaDown {Q : Unit → Channel → Prop} (hpos : 0 < c.diskDone)
    (h : Q () { c with diskDone := c.diskDone - 1 }) : Total semaDown c Q := by
  unfold semaDown
  apply total_bind
  apply total_get
  rw [if_neg (by omega)]
  exact total_modify h

theorem total_busyWait {Q : Bool → Channel → Prop} {t : Transfer} (ht : c.transfer = some t)
    (hmore : t.done < 512 * t.sectors) (h : Q true c) : Total busyWait c Q := by
  have hstatus : c.status = 0x48 := by
    unfold Channel.status
    rw [ht]
    exact if_pos hmore
  apply Total.next
  unfold busyRound
  rw [if_neg (by norm_num)]
  apply total_bind
  apply total_get
  rw [hstatus, if_pos (by decide)]
  exact total_pure h

end Commands

section Rounds

variable {hd : Disk} {c : Channel} {lba secCnt secsDone n k : ℕ} {buf : Addr}
  {write slave : Bool} {cs : List Command} {ms : List Move}

/-- The memory with `n` sectors from `lba` on at `buf`. -/
def readInto (memory : Addr → UInt8) (sectors : ℕ → ℕ → UInt8) (lba n : ℕ) (buf : Addr) :
    Addr → UInt8 :=
  fun x => if (x - buf).toNat < 512 * n then byteAt sectors lba (x - buf).toNat else memory x

/-- The drives with the bytes at `buf` in the `n` sectors from `lba` on. -/
def writtenFrom (memory : Addr → UInt8) (drives : Bool → ℕ → ℕ → UInt8) (slave : Bool)
    (lba n : ℕ) (buf : Addr) : Bool → ℕ → ℕ → UInt8 :=
  fun sl l j =>
    if sl = slave ∧ lba ≤ l ∧ l < lba + n ∧ j < 512 then
      memory (buf + BitVec.ofNat 32 (512 * (l - lba) + j))
    else drives sl l j

/-- The sectors of the commands, each with the address of its bytes. -/
def pairs (cs : List Command) (ms : List Move) : List (ℕ × Addr) :=
  (cs.zip ms).flatMap fun p =>
    (List.range p.1.sectors).map fun j => (p.1.lba + j, sectorAddr p.2.addr j)

/-- The commands `cs` with the string instructions `ms` move the sectors from `lba` on, each once
and in order, sector `lba + j` to or from the address `buf + 512 * j`. -/
structure Covers (write slave : Bool) (lba n : ℕ) (buf : Addr) (cs : List Command)
    (ms : List Move) : Prop where
  kind : ∀ cmd ∈ cs, cmd.write = write ∧ cmd.slave = slave
  words : ms.map Move.words = cs.map fun cmd => 256 * cmd.sectors
  sectors : pairs cs ms = (List.range n).map fun j => (lba + j, sectorAddr buf j)

theorem sectorAddr_add (buf : Addr) (k j : ℕ) :
    sectorAddr (sectorAddr buf k) j = sectorAddr buf (k + j) := by
  unfold sectorAddr
  rw [Nat.add_mul, BitVec.ofNat_add, BitVec.add_assoc]

theorem Covers.nil : Covers write slave lba 0 buf [] [] :=
  ⟨by simp, rfl, rfl⟩

theorem Covers.snoc (h : Covers write slave lba k buf cs ms) (n : ℕ) :
    Covers write slave lba (k + n) buf (cs ++ [⟨write, slave, lba + k, n⟩])
      (ms ++ [⟨sectorAddr buf k, 256 * n⟩]) := by
  have hlen : cs.length = ms.length := by
    have hwords := congrArg List.length h.words
    simpa using hwords.symm
  have hsectors := h.sectors
  constructor
  · intro cmd hcmd
    rcases List.mem_append.mp hcmd with hcmd | hcmd
    · exact h.kind cmd hcmd
    · rw [List.mem_singleton.mp hcmd]
      exact ⟨rfl, rfl⟩
  · rw [List.map_append, List.map_append, h.words]
    rfl
  · unfold pairs at hsectors ⊢
    rw [List.zip_append hlen, List.flatMap_append, hsectors, List.range_add, List.map_append,
      List.map_map]
    congr 1
    simp [sectorAddr_add, Nat.add_assoc, Function.comp_def]

theorem readInto_add (memory : Addr → UInt8) (sectors : ℕ → ℕ → UInt8) (lba k n : ℕ)
    (buf : Addr) (hsize : 512 * (k + n) ≤ 2 ^ 32) (hk : 512 * k < 2 ^ 32) :
    readInto (readInto memory sectors lba k buf) sectors (lba + k) n (sectorAddr buf k) =
      readInto memory sectors lba (k + n) buf := by
  funext x
  have hk' : k * 512 < 2 ^ 32 := by omega
  unfold readInto sectorAddr
  rcases sub_add_ofNat x buf hk' with ⟨hge, hsub⟩ | ⟨hlt, hwrap⟩
  · have hbyte : byteAt sectors (lba + k) ((x - buf).toNat - k * 512) =
        byteAt sectors lba (x - buf).toNat := by
      unfold byteAt
      have hdiv : lba + k + ((x - buf).toNat - k * 512) / 512 = lba + (x - buf).toNat / 512 := by
        omega
      have hmod : ((x - buf).toNat - k * 512) % 512 = (x - buf).toNat % 512 := by omega
      rw [hdiv, hmod]
    rw [hsub, hbyte]
    split_ifs <;> first | rfl | omega
  · rw [hwrap]
    split_ifs <;> first | rfl | omega

theorem writtenFrom_add (memory : Addr → UInt8) (drives : Bool → ℕ → ℕ → UInt8) (slave : Bool)
    (lba k n : ℕ) (buf : Addr) :
    writtenFrom memory (writtenFrom memory drives slave lba k buf) slave (lba + k) n
        (sectorAddr buf k) =
      writtenFrom memory drives slave lba (k + n) buf := by
  funext sl l j
  unfold writtenFrom sectorAddr
  by_cases hnew : sl = slave ∧ lba + k ≤ l ∧ l < lba + k + n ∧ j < 512
  · rw [if_pos hnew, if_pos ⟨hnew.1, by omega, by omega, hnew.2.2.2⟩]
    have hoff : 512 * (l - lba) + j = k * 512 + (512 * (l - (lba + k)) + j) := by omega
    rw [hoff, BitVec.ofNat_add (k * 512), BitVec.add_assoc]
  · rw [if_neg hnew]
    by_cases hold : sl = slave ∧ lba ≤ l ∧ l < lba + k ∧ j < 512
    · rw [if_pos hold, if_pos ⟨hold.1, hold.2.1, by omega, hold.2.2.2⟩]
    · rw [if_neg hold, if_neg]
      rintro ⟨h1, h2, h3, h4⟩
      by_cases hl : l < lba + k
      · exact hold ⟨h1, h2, hl, h4⟩
      · exact hnew ⟨h1, by omega, by omega, h4⟩

end Rounds

section Loops

variable {hd : Disk} {c c' : Channel} {lba secCnt secsDone k : ℕ} {buf : Addr}

/-- `c'` comes from `c` by one command and one string instruction that move `n` sectors. -/
structure Chunk (write slave : Bool) (lba n : ℕ) (buf : Addr) (c c' : Channel) : Prop where
  commands : c'.commands = c.commands ++ [⟨write, slave, lba, n⟩]
  moves : c'.moves = c.moves ++ [⟨buf, 256 * n⟩]
  drives : c'.drives =
    if write then writtenFrom c.memory c.drives slave lba n buf else c.drives
  memory : c'.memory =
    if write then c.memory else readInto c.memory (c.drives slave) lba n buf

/-- The commands and the string instructions between `c` and `c'` move `n` sectors. -/
def Recorded (write slave : Bool) (lba n : ℕ) (buf : Addr) (c c' : Channel) : Prop :=
  ∃ cs ms, c'.commands = c.commands ++ cs ∧ c'.moves = c.moves ++ ms ∧
    Covers write slave lba n buf cs ms

/-- `c'` comes from `c` by commands that together move `n` sectors. -/
structure Moved (write slave : Bool) (lba n : ℕ) (buf : Addr) (c c' : Channel) : Prop where
  record : Recorded write slave lba n buf c c'
  drives : c'.drives =
    if write then writtenFrom c.memory c.drives slave lba n buf else c.drives
  memory : c'.memory =
    if write then c.memory else readInto c.memory (c.drives slave) lba n buf

theorem readInto_zero (memory : Addr → UInt8) (sectors : ℕ → ℕ → UInt8) (lba : ℕ) (buf : Addr) :
    readInto memory sectors lba 0 buf = memory := by
  funext x
  exact if_neg (Nat.not_lt_zero _)

theorem writtenFrom_zero (memory : Addr → UInt8) (drives : Bool → ℕ → ℕ → UInt8) (slave : Bool)
    (lba : ℕ) (buf : Addr) : writtenFrom memory drives slave lba 0 buf = drives := by
  funext sl l j
  apply if_neg
  rintro ⟨-, hge, hlt, -⟩
  omega

theorem Moved.zero {write slave : Bool} (hdrives : c'.drives = c.drives)
    (hmemory : c'.memory = c.memory) (hcommands : c'.commands = c.commands)
    (hmoves : c'.moves = c.moves) : Moved write slave lba 0 buf c c' := by
  constructor
  · exact ⟨[], [], by rw [hcommands, List.append_nil], by rw [hmoves, List.append_nil], .nil⟩
  · rw [writtenFrom_zero, hdrives, ite_self]
  · rw [readInto_zero, hmemory, ite_self]

theorem Moved.snoc {write slave : Bool} {n : ℕ} {c'' : Channel}
    (h : Moved write slave lba k buf c c')
    (hchunk : Chunk write slave (lba + k) n (sectorAddr buf k) c' c'')
    (hk : 512 * k < 2 ^ 32) (hsize : 512 * (k + n) ≤ 2 ^ 32) :
    Moved write slave lba (k + n) buf c c'' := by
  obtain ⟨cs, ms, hcs, hms, hcovers⟩ := h.record
  constructor
  · use cs ++ [⟨write, slave, lba + k, n⟩], ms ++ [⟨sectorAddr buf k, 256 * n⟩]
    rw [hchunk.commands, hchunk.moves, hcs, hms, List.append_assoc, List.append_assoc]
    exact ⟨rfl, rfl, hcovers.snoc n⟩
  · rw [hchunk.drives, h.drives, h.memory]
    cases write with
    | true => exact writtenFrom_add c.memory c.drives slave lba k n buf
    | false => rfl
  · rw [hchunk.memory, h.drives, h.memory]
    cases write with
    | true => rfl
    | false => exact readInto_add c.memory (c.drives slave) lba k n buf hsize hk

theorem secsPerLoop_bounds (hlt : secsDone < secCnt) (hcnt : secCnt ≤ maxLba) :
    1 ≤ secsPerLoop secCnt secsDone ∧ secsPerLoop secCnt secsDone ≤ 256 ∧
      secsDone + secsPerLoop secCnt secsDone ≤ secCnt := by
  unfold maxLba at hcnt
  unfold secsPerLoop
  split_ifs <;> omega

/-- The words of a string instruction for `n` sectors. -/
theorem words_eq {n : ℕ} (hlo : 1 ≤ n) (hhi : n ≤ 256) :
    sizeInByte (UInt8.ofNat n) / 2 = 256 * n := by
  rw [sizeInByte_eq, countOf_ofNat hlo hhi]
  omega

/-- Only the drives and the memory count from here on. -/
theorem Begun.semaDown {write slave : Bool} {n : ℕ} (h : Begun write slave lba n c c')
    (diskDone : ℕ) : Begun write slave lba n c { c' with diskDone } :=
  ⟨h.transfer, h.drives, h.memory, h.commands, h.moves⟩

theorem Begun.insw {n : ℕ} {slave : Bool} (h : Begun false slave lba n c c') (hhi : n ≤ 256)
    (a : Addr) : Chunk false slave lba n a c (insw a (256 * n) c') := by
  have hrep := inwRep_eq (256 * n) a c' _ h.transfer rfl (by dsimp only; omega) (by omega)
  have hsize : 2 * (256 * n) = 512 * n := by omega
  unfold Ata.insw
  rw [hrep]
  constructor
  · exact h.commands
  · dsimp only
    rw [h.moves]
  · exact h.drives
  · funext x
    dsimp only
    rw [h.drives, h.memory, hsize, Nat.zero_add]
    rfl

/-- The interrupt for the last word is there when the driver waits for it. -/
theorem Begun.outsw {n : ℕ} {slave : Bool} (h : Begun true slave lba n c c')
    (hintr : c'.expectingIntr = true) (a : Addr) :
    Chunk true slave lba n a c (outsw a (256 * n) c') ∧
      0 < (outsw a (256 * n) c').diskDone := by
  have hrep := outwRep_eq (256 * n) a c' _ h.transfer rfl (by dsimp only; omega) rfl
  have hdrives : (outwRep (256 * n) a c').drives =
      writtenFrom c.memory c.drives slave lba n a := by
    rw [hrep]
    funext sl l j
    unfold writtenFrom
    dsimp only
    rw [h.drives, h.memory]
    by_cases hin : sl = slave ∧ lba ≤ l ∧ l < lba + n ∧ j < 512
    · rw [if_pos ⟨hin.1, hin.2.1, hin.2.2.2, by omega, by omega⟩, if_pos hin]
      rfl
    · rw [if_neg hin, if_neg]
      rintro ⟨h1, h2, h3, -, h4⟩
      exact hin ⟨h1, h2, by omega, h3⟩
  have hdone : (outwRep (256 * n) a c').transfer = some ⟨true, slave, lba, n, 512 * n⟩ := by
    rw [hrep]
    dsimp only
    congr 2
    omega
  have hexpect : (outwRep (256 * n) a c').expectingIntr = true := by
    rw [hrep]
    exact hintr
  have hmemory : (outwRep (256 * n) a c').memory = c.memory := by
    rw [hrep]
    exact h.memory
  have hcommands : (outwRep (256 * n) a c').commands =
      c.commands ++ [⟨true, slave, lba, n⟩] := by
    rw [hrep]
    exact h.commands
  unfold Ata.outsw
  simp only [hdone, le_refl, if_true, Channel.intrHdHandler, hexpect]
  constructor
  · constructor
    · exact hcommands
    · dsimp only
      rw [h.moves]
    · exact hdrives
    · exact hmemory
  · exact Nat.succ_pos _

theorem readRound_total (hlt : secsDone < secCnt) (hend : lba + secCnt ≤ maxLba) :
    Total (readRound hd lba buf secCnt secsDone) c fun x c' =>
      x = .inl (secsDone + secsPerLoop secCnt secsDone) ∧
      Chunk false hd.slave (lba + secsDone) (secsPerLoop secCnt secsDone)
        (sectorAddr buf secsDone) c c' := by
  obtain ⟨hlo, hhi, hsum⟩ := secsPerLoop_bounds hlt (by omega : secCnt ≤ maxLba)
  have hmax : maxLba < 2 ^ 32 := by decide
  have hlba : (lba + secsDone) % 2 ^ 32 = lba + secsDone := Nat.mod_eq_of_lt (by omega)
  have hnext : (secsDone + secsPerLoop secCnt secsDone) % 2 ^ 32 =
      secsDone + secsPerLoop secCnt secsDone := Nat.mod_eq_of_lt (by omega)
  unfold readRound
  rw [if_pos hlt, hlba, hnext]
  generalize secsPerLoop secCnt secsDone = n at *
  apply total_bind
  apply total_selectSector (by omega)
  apply total_bind
  apply total_cmdOut_read (by omega) hlo hhi
  intro c₁ hbegun hpos
  apply total_bind
  apply total_semaDown hpos
  have hready := hbegun.semaDown (c₁.diskDone - 1)
  apply total_bind
  apply total_busyWait hready.transfer (by dsimp only; omega)
  apply total_bind
  apply total_assert rfl
  apply total_bind
  apply total_modify
  apply total_pure
  rw [words_eq hlo hhi]
  exact ⟨rfl, hready.insw hhi _⟩

theorem writeRound_total (hlt : secsDone < secCnt) (hend : lba + secCnt ≤ maxLba) :
    Total (writeRound hd lba buf secCnt secsDone) c fun x c' =>
      x = .inl (secsDone + secsPerLoop secCnt secsDone) ∧
      Chunk true hd.slave (lba + secsDone) (secsPerLoop secCnt secsDone)
        (sectorAddr buf secsDone) c c' := by
  obtain ⟨hlo, hhi, hsum⟩ := secsPerLoop_bounds hlt (by omega : secCnt ≤ maxLba)
  have hmax : maxLba < 2 ^ 32 := by decide
  have hlba : (lba + secsDone) % 2 ^ 32 = lba + secsDone := Nat.mod_eq_of_lt (by omega)
  have hnext : (secsDone + secsPerLoop secCnt secsDone) % 2 ^ 32 =
      secsDone + secsPerLoop secCnt secsDone := Nat.mod_eq_of_lt (by omega)
  unfold writeRound
  rw [if_pos hlt, hlba, hnext]
  generalize secsPerLoop secCnt secsDone = n at *
  apply total_bind
  apply total_selectSector (by omega)
  apply total_bind
  apply total_cmdOut_write (by omega) hlo hhi
  intro c₁ hbegun hintr
  apply total_bind
  apply total_busyWait hbegun.transfer (by dsimp only; omega)
  apply total_bind
  apply total_assert rfl
  apply total_bind
  apply total_modify
  rw [words_eq hlo hhi]
  obtain ⟨hchunk, hpos⟩ := hbegun.outsw hintr (sectorAddr buf secsDone)
  apply total_bind
  apply total_semaDown hpos
  apply total_pure
  exact ⟨rfl, hchunk.commands, hchunk.moves, hchunk.drives, hchunk.memory⟩

/-- The loop of the two functions, over what one round does. -/
theorem rounds_total {write slave : Bool} {round : ℕ → Io (ℕ ⊕ Unit)} (hcnt : secCnt ≤ maxLba)
    (hround : ∀ c secsDone, secsDone < secCnt → Total (round secsDone) c fun x c' =>
      x = .inl (secsDone + secsPerLoop secCnt secsDone) ∧
      Chunk write slave (lba + secsDone) (secsPerLoop secCnt secsDone)
        (sectorAddr buf secsDone) c c')
    (hlast : round secCnt = pure (.inr ())) (h : Moved write slave lba 0 buf c c') :
    Total (loop round 0) c' fun _ c' => Moved write slave lba secCnt buf c c' := by
  have hmax : maxLba = 163839 := rfl
  apply total_loop (fun k c' => k ≤ secCnt ∧ Moved write slave lba k buf c c')
    (fun k => secCnt - k) ?_ ⟨Nat.zero_le _, h⟩
  rintro k c₁ ⟨hle, hmoved⟩
  rcases Nat.lt_or_ge k secCnt with hlt | hge
  · obtain ⟨hlo, -, hsum⟩ := secsPerLoop_bounds hlt hcnt
    apply (hround c₁ k hlt).mono
    rintro x c₂ ⟨rfl, hchunk⟩
    have hstep := hmoved.snoc hchunk (by omega) (by omega)
    exact ⟨⟨hsum, hstep⟩, by omega⟩
  · obtain rfl : k = secCnt := by omega
    rw [hlast]
    exact total_pure hmoved

theorem ideRead_total (hd : Disk) (lba secCnt : ℕ) (buf : Addr) (c : Channel)
    (hpos : 1 ≤ secCnt) (hend : lba + secCnt ≤ maxLba) :
    Total (ideRead hd lba buf secCnt) c fun _ c' =>
      Moved false hd.slave lba secCnt buf c c' := by
  unfold ideRead selectDisk out
  apply total_bind
  apply total_assert (by omega)
  apply total_bind
  apply total_assert hpos
  apply total_bind
  apply total_modify
  apply rounds_total (by omega)
  · intro c₁ secsDone hlt
    exact readRound_total hlt hend
  · unfold readRound
    rw [if_neg (Nat.lt_irrefl _)]
  · exact .zero rfl rfl rfl rfl

theorem ideWrite_total (hd : Disk) (lba secCnt : ℕ) (buf : Addr) (c : Channel)
    (hpos : 1 ≤ secCnt) (hend : lba + secCnt ≤ maxLba) :
    Total (ideWrite hd lba buf secCnt) c fun _ c' =>
      Moved true hd.slave lba secCnt buf c c' := by
  unfold ideWrite selectDisk out
  apply total_bind
  apply total_assert (by omega)
  apply total_bind
  apply total_assert hpos
  apply total_bind
  apply total_modify
  apply rounds_total (by omega)
  · intro c₁ secsDone hlt
    exact writeRound_total hlt hend
  · unfold writeRound
    rw [if_neg (Nat.lt_irrefl _)]
  · exact .zero rfl rfl rfl rfl

end Loops

section Law

variable {lba n i k : ℕ} {buf : Addr}

theorem toNat_add_sub (buf : Addr) (hi : i < 2 ^ 32) :
    (buf + BitVec.ofNat 32 i - buf).toNat = i := by
  rw [BitVec.add_comm, BitVec.add_sub_cancel, BitVec.toNat_ofNat]
  exact Nat.mod_eq_of_lt hi

theorem readInto_at (memory : Addr → UInt8) (sectors : ℕ → ℕ → UInt8) (hi : i < 512 * n)
    (hsize : 512 * n ≤ 2 ^ 32) :
    readInto memory sectors lba n buf (buf + BitVec.ofNat 32 i) = byteAt sectors lba i := by
  unfold readInto
  rw [toNat_add_sub buf (by omega), if_pos hi]

theorem writtenFrom_at (memory : Addr → UInt8) (drives : Bool → ℕ → ℕ → UInt8) (slave : Bool)
    (lba : ℕ) (hi : i < 512 * n) :
    byteAt (writtenFrom memory drives slave lba n buf slave) lba i =
      memory (buf + BitVec.ofNat 32 i) := by
  have hin : slave = slave ∧ lba ≤ lba + i / 512 ∧ lba + i / 512 < lba + n ∧ i % 512 < 512 :=
    ⟨rfl, by omega, by omega, by omega⟩
  have hoff : 512 * (lba + i / 512 - lba) + i % 512 = i := by omega
  unfold byteAt writtenFrom
  rw [if_pos hin, hoff]

theorem writtenFrom_frame (memory : Addr → UInt8) (drives : Bool → ℕ → ℕ → UInt8)
    {slave sl : Bool} {l : ℕ} (j : ℕ) (hout : ¬(sl = slave ∧ lba ≤ l ∧ l < lba + n)) :
    writtenFrom memory drives slave lba n buf sl l j = drives sl l j :=
  if_neg fun h => hout ⟨h.1, h.2.1, h.2.2.1⟩

theorem byteAt_sector (sectors : ℕ → ℕ → UInt8) (hi : i < 512) :
    byteAt sectors lba (k * 512 + i) = sectors (lba + k) i := by
  have hdiv : (k * 512 + i) / 512 = k := by omega
  have hmod : (k * 512 + i) % 512 = i := by omega
  unfold byteAt
  rw [hdiv, hmod]

theorem sectorAddr_ofNat (buf : Addr) (k i : ℕ) :
    sectorAddr buf k + BitVec.ofNat 32 i = buf + BitVec.ofNat 32 (k * 512 + i) := by
  unfold sectorAddr
  rw [BitVec.ofNat_add, BitVec.add_assoc]

/-- Both functions return. The commands with their string instructions move each sector of the
range once and in order, sector `lba + k` from or to the address `buf + 512 * k`. What was written
is read back, and no other sector changes. -/
theorem sector_transfer_law (hd : Disk) (lba secCnt : ℕ) (buf : Addr) (c : Channel)
    (hpos : 1 ≤ secCnt) (hend : lba + secCnt ≤ maxLba) :
    Total (ideRead hd lba buf secCnt) c (fun _ c' =>
      Recorded false hd.slave lba secCnt buf c c' ∧ c'.drives = c.drives ∧
      (∀ k < secCnt, ∀ i < 512,
        c'.memory (sectorAddr buf k + BitVec.ofNat 32 i) = c.drives hd.slave (lba + k) i) ∧
      ∀ x, 512 * secCnt ≤ (x - buf).toNat → c'.memory x = c.memory x) ∧
    Total (ideWrite hd lba buf secCnt) c (fun _ c' =>
      Recorded true hd.slave lba secCnt buf c c' ∧ c'.memory = c.memory ∧
      (∀ k < secCnt, ∀ i < 512,
        c'.drives hd.slave (lba + k) i = c.memory (sectorAddr buf k + BitVec.ofNat 32 i)) ∧
      ∀ sl l j, ¬(sl = hd.slave ∧ lba ≤ l ∧ l < lba + secCnt) →
        c'.drives sl l j = c.drives sl l j) ∧
    ∀ buf', Total (do ideWrite hd lba buf secCnt; ideRead hd lba buf' secCnt) c fun _ c' =>
      (∀ i < 512 * secCnt,
        c'.memory (buf' + BitVec.ofNat 32 i) = c.memory (buf + BitVec.ofNat 32 i)) ∧
      ∀ sl l j, ¬(sl = hd.slave ∧ lba ≤ l ∧ l < lba + secCnt) →
        c'.drives sl l j = c.drives sl l j := by
  have hmax : maxLba = 163839 := rfl
  have hwrite := ideWrite_total hd lba secCnt buf c hpos hend
  refine ⟨?_, ?_, ?_⟩
  · apply (ideRead_total hd lba secCnt buf c hpos hend).mono
    intro _ c' hmoved
    have hmemory : c'.memory = readInto c.memory (c.drives hd.slave) lba secCnt buf :=
      hmoved.memory
    refine ⟨hmoved.record, hmoved.drives, ?_, ?_⟩
    · intro k hk i hi
      rw [hmemory, sectorAddr_ofNat, readInto_at _ _ (by omega) (by omega), byteAt_sector _ hi]
    · intro x hx
      rw [hmemory]
      exact if_neg (by omega)
  · apply hwrite.mono
    intro _ c' hmoved
    have hdrives : c'.drives = writtenFrom c.memory c.drives hd.slave lba secCnt buf :=
      hmoved.drives
    refine ⟨hmoved.record, hmoved.memory, ?_, ?_⟩
    · intro k hk i hi
      have hin : k * 512 + i < 512 * secCnt := by omega
      rw [hdrives, sectorAddr_ofNat, ← writtenFrom_at c.memory c.drives hd.slave lba hin,
        byteAt_sector _ hi]
    · intro sl l j hout
      rw [hdrives]
      exact writtenFrom_frame _ _ _ hout
  · intro buf'
    apply hwrite.call
    intro _ c₁ hwritten
    apply (ideRead_total hd lba secCnt buf' c₁ hpos hend).mono
    intro _ c₂ hread
    have hdrives : c₁.drives = writtenFrom c.memory c.drives hd.slave lba secCnt buf :=
      hwritten.drives
    have hmemory : c₂.memory = readInto c₁.memory (c₁.drives hd.slave) lba secCnt buf' :=
      hread.memory
    have hkept : c₂.drives = c₁.drives := hread.drives
    constructor
    · intro i hi
      rw [hmemory, readInto_at _ _ hi (by omega), hdrives, writtenFrom_at _ _ _ _ hi]
    · intro sl l j hout
      rw [hkept, hdrives]
      exact writtenFrom_frame _ _ _ hout

/-- As `ideInit` leaves the channel, with no command given. -/
def Channel.init (drives : Bool → ℕ → ℕ → UInt8) (memory : Addr → UInt8) : Channel :=
  ⟨0, 0, 0, 0, 0, none, drives, false, 0, memory, [], []⟩

/-- Three hundred sectors of the slave, in a chunk of 256 and one of 44. -/
theorem sector_transfer_law_sample :
    let c := Channel.init (fun _ l j => UInt8.ofNat (l + j)) (fun x => UInt8.ofNat x.toNat)
    Total (ideRead ⟨1⟩ 5 0x10000#32 300) c (fun _ c' =>
      Recorded false true 5 300 0x10000#32 c c' ∧ c'.drives = c.drives ∧
      (∀ k < 300, ∀ i < 512,
        c'.memory (sectorAddr 0x10000#32 k + BitVec.ofNat 32 i) = c.drives true (5 + k) i) ∧
      ∀ x, 512 * 300 ≤ (x - 0x10000#32).toNat → c'.memory x = c.memory x) ∧
    Total (ideWrite ⟨1⟩ 5 0x10000#32 300) c (fun _ c' =>
      Recorded true true 5 300 0x10000#32 c c' ∧ c'.memory = c.memory ∧
      (∀ k < 300, ∀ i < 512,
        c'.drives true (5 + k) i = c.memory (sectorAddr 0x10000#32 k + BitVec.ofNat 32 i)) ∧
      ∀ sl l j, ¬(sl = true ∧ 5 ≤ l ∧ l < 5 + 300) → c'.drives sl l j = c.drives sl l j) ∧
    ∀ buf', Total (do ideWrite ⟨1⟩ 5 0x10000#32 300; ideRead ⟨1⟩ 5 buf' 300) c fun _ c' =>
      (∀ i < 512 * 300,
        c'.memory (buf' + BitVec.ofNat 32 i) = c.memory (0x10000#32 + BitVec.ofNat 32 i)) ∧
      ∀ sl l j, ¬(sl = true ∧ 5 ≤ l ∧ l < 5 + 300) → c'.drives sl l j = c.drives sl l j :=
  sector_transfer_law ⟨1⟩ 5 300 0x10000#32
    (.init (fun _ l j => UInt8.ofNat (l + j)) (fun x => UInt8.ofNat x.toNat))
    (by norm_num) (by norm_num [maxLba])

end Law

section Requests

variable {hd : Disk} {c c' : Channel} {v : Volume} {e : Heap}

/-- What the file system takes `ideRead` for. -/
theorem ideRead_refines (hd : Disk) (lba secCnt : ℕ) (buf : Addr) (c : Channel) (v : Volume)
    (e : Heap) (hpos : 1 ≤ secCnt) (hend : lba + secCnt ≤ maxLba)
    (hdisk : v.disk = c.drives hd.slave) :
    Total (ideRead hd lba buf secCnt) c fun _ c' =>
      Program.wp Program.noStop e (Gogoos.ideRead lba secCnt)
        (fun data v' => v' = v ∧ v'.disk = c'.drives hd.slave ∧
          ∀ i < 512 * secCnt, c'.memory (buf + BitVec.ofNat 32 i) = data i) v := by
  have hmax : maxLba = 163839 := rfl
  apply (ideRead_total hd lba secCnt buf c hpos hend).mono
  intro _ c' hmoved
  unfold Gogoos.ideRead
  rw [Program.wp_assert_pos ⟨by omega, by omega⟩, Program.wp_assert_pos (by omega),
    Program.wp_get_bind, Program.wp_pure]
  have hdrives : c'.drives = c.drives := hmoved.drives
  have hmemory : c'.memory = readInto c.memory (c.drives hd.slave) lba secCnt buf :=
    hmoved.memory
  rw [hdrives, hmemory, hdisk]
  exact ⟨rfl, rfl, fun i hi => readInto_at _ _ hi (by omega)⟩

/-- What the file system takes `ideWrite` for. -/
theorem ideWrite_refines (hd : Disk) (lba secCnt : ℕ) (buf : Addr) (c : Channel) (v : Volume)
    (e : Heap) (hpos : 1 ≤ secCnt) (hend : lba + secCnt ≤ maxLba)
    (hdisk : v.disk = c.drives hd.slave) :
    Total (ideWrite hd lba buf secCnt) c fun _ c' =>
      Program.wp Program.noStop e
        (Gogoos.ideWrite lba (fun i => c.memory (buf + BitVec.ofNat 32 i)) secCnt)
        (fun _ v' => v'.disk = c'.drives hd.slave) v := by
  have hmax : maxLba = 163839 := rfl
  apply (ideWrite_total hd lba secCnt buf c hpos hend).mono
  intro _ c' hmoved
  unfold Gogoos.ideWrite
  rw [Program.wp_assert_pos ⟨by omega, by omega⟩, Program.wp_assert_pos (by omega),
    Program.wp_modify]
  have hdrives : c'.drives = writtenFrom c.memory c.drives hd.slave lba secCnt buf :=
    hmoved.drives
  rw [hdrives]
  funext l j
  unfold writtenFrom Volume.write
  simp only [hdisk, true_and]

/-- A call of the file system: it stores to the disk or loads from it. -/
structure Request where
  store : Bool
  lba : ℕ
  secCnt : ℕ
  buf : Addr

def Request.Fits (r : Request) : Prop := 1 ≤ r.secCnt ∧ r.lba + r.secCnt ≤ maxLba

def Request.drive (hd : Disk) (r : Request) : Io Unit :=
  if r.store then ideWrite hd r.lba r.buf r.secCnt else ideRead hd r.lba r.buf r.secCnt

/-- The call of the volume that stores what the buffer holds, or that loads what it holds then. -/
def Request.Served (r : Request) (e : Heap) (c c' : Channel) (v v' : Volume) : Prop :=
  if r.store then
    Program.Returns e
      (Gogoos.ideWrite r.lba (fun i => c.memory (r.buf + BitVec.ofNat 32 i)) r.secCnt) v () v'
  else
    ∃ data, Program.Returns e (Gogoos.ideRead r.lba r.secCnt) v data v' ∧
      ∀ i < 512 * r.secCnt, c'.memory (r.buf + BitVec.ofNat 32 i) = data i

theorem Request.refines {r : Request} (e : Heap) (hr : r.Fits)
    (hdisk : v.disk = c.drives hd.slave) :
    Total (r.drive hd) c fun _ c' =>
      ∃ v', r.Served e c c' v v' ∧ v'.disk = c'.drives hd.slave := by
  unfold Request.drive Request.Served
  split_ifs
  · apply (ideWrite_refines hd r.lba r.secCnt r.buf c v e hr.1 hr.2 hdisk).mono
    intro _ c' hwp
    obtain ⟨_, v', hret, hdisk'⟩ := Program.wp_noStop_returns hwp
    exact ⟨v', hret, hdisk'⟩
  · apply (ideRead_refines hd r.lba r.secCnt r.buf c v e hr.1 hr.2 hdisk).mono
    intro _ c' hwp
    obtain ⟨data, v', hret, -, hdisk', hdata⟩ := Program.wp_noStop_returns hwp
    exact ⟨v', ⟨data, hret, hdata⟩, hdisk'⟩

/-- The calls of the volume, one after the other. -/
inductive Transfers (e : Heap) : List Request → Channel → Volume → Channel → Volume → Prop
  | nil (c : Channel) (v : Volume) : Transfers e [] c v c v
  | cons {r : Request} {rs : List Request} {c c' c'' : Channel} {v v' v'' : Volume}
      (h : r.Served e c c' v v') (hrs : Transfers e rs c' v' c'' v'') :
      Transfers e (r :: rs) c v c'' v''

/-- The driver serves any sequence of calls as the disk of the volume does. -/
theorem transfers_refine (e : Heap) : ∀ (rs : List Request) (c : Channel) (v : Volume),
    (∀ r ∈ rs, r.Fits) → v.disk = c.drives hd.slave →
      Total (rs.forM (Request.drive hd)) c fun _ c' =>
        ∃ v', Transfers e rs c v c' v' ∧ v'.disk = c'.drives hd.slave := by
  intro rs
  induction rs with
  | nil => exact fun c v _ hdisk => total_pure ⟨v, .nil c v, hdisk⟩
  | cons r rs ih =>
    intro c v hfits hdisk
    obtain ⟨hr, hrs⟩ := List.forall_mem_cons.mp hfits
    change Total (r.drive hd >>= fun _ => rs.forM (Request.drive hd)) c _
    apply (Request.refines e hr hdisk).call
    rintro _ c₁ ⟨v₁, hserved, hdisk₁⟩
    apply (ih c₁ v₁ hrs hdisk₁).mono
    rintro _ c₂ ⟨v₂, hrest, hdisk₂⟩
    exact ⟨v₂, .cons hserved hrest, hdisk₂⟩

end Requests

end Gogoos.Ata
