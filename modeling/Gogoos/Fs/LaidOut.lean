import Gogoos.Fs.Reboot

/-!
# The layout of a formatted partition

`partitionFormat` and then `mountPartition`, on any partition: the areas lie one behind the other
inside the partition, what is mounted is what was written, and nothing but the root directory is
there.
-/

namespace Gogoos

open Program

variable {p : Partition} {v w : Volume} {c c' : Computer} {e : Heap}

section Areas

namespace Partition

/-- The size of the buffer in which `partitionFormat` puts the tables together. -/
def bufSize (p : Partition) : ℕ :=
  max (max p.superBlock.blockBitMapSecCnt p.superBlock.inodeBitMapSecCnt)
    p.superBlock.inodeTableSecCnt * 512

/-- The areas behind the boot sector: first sector and number of sectors. -/
def areas (p : Partition) : List (ℕ × ℕ) :=
  [(p.lbaStart, 1), (p.lbaStart + 1, 1),
    (p.superBlock.blockBitMapLbaStart, p.superBlock.blockBitMapSecCnt),
    (p.superBlock.inodeBitMapLbaStart, p.superBlock.inodeBitMapSecCnt),
    (p.superBlock.inodeTableLbaStart, p.superBlock.inodeTableSecCnt),
    (p.superBlock.dataLbaStart, p.blockBitMapBitCnt)]

/-- Each area begins where the one before it ends. -/
theorem areas_consecutive (p : Partition) :
    p.areas.IsChain fun a b => 0 < a.2 ∧ a.1 + a.2 = b.1 := by
  have hsecs := p.secs_le
  have hcnt : p.superBlock.blockBitMapSecCnt = p.blockBitMapSecCnt := rfl
  have hpos : 0 < p.superBlock.blockBitMapSecCnt := by omega
  have htable : 0 < p.superBlock.inodeTableSecCnt := by
    have h608 : p.superBlock.inodeTableSecCnt = 608 := rfl
    omega
  exact .cons_cons ⟨one_pos, rfl⟩ (.cons_cons ⟨one_pos, rfl⟩ (.cons_cons ⟨hpos, rfl⟩
    (.cons_cons ⟨one_pos, rfl⟩ (.cons_cons ⟨htable, rfl⟩ (.singleton _)))))

/-- The last area ends with the partition or before, however the two divisions are rounded. -/
theorem data_le (p : Partition) :
    p.superBlock.dataLbaStart + p.blockBitMapBitCnt ≤ p.lbaStart + p.secCnt := by
  have hroom := p.room
  have hdata := p.dataLbaStart_eq
  have hsecs : p.blockBitMapSecCnt = (p.blockBitMapBitCnt + 4095) / 4096 := rfl
  have hcnt : p.blockBitMapBitCnt = p.freeSecCnt - (p.freeSecCnt + 4095) / 4096 := rfl
  rw [p.freeSecCnt_eq] at hcnt
  omega

/-- The bytes that are set behind the last block are in the buffer. -/
theorem tail_le (p : Partition) :
    p.blockBitMapBitCnt / 8 + (512 - p.blockBitMapBitCnt / 8 % 512) ≤ p.bufSize := by
  have hdisk := p.onDisk
  have hdata := p.data_le
  have hdata' := p.dataLbaStart_eq
  have hmax : maxLba = 163839 := rfl
  have htable : p.superBlock.inodeTableSecCnt = 608 := rfl
  have hbuf : 608 * 512 ≤ p.bufSize := Nat.mul_le_mul_right _ (htable ▸ le_max_right _ _)
  omega

end Partition

end Areas

section Through

variable {α : Type} {stop : Volume → Prop} {Q : α → Volume → Prop} {lba cnt : ℕ}

/-- A transfer that ends before the end of the disk goes through, however long it is. -/
theorem wp_ideWrite_through {buf : ℕ → UInt8} {f : Unit → VolM α} (hcnt : 0 < cnt)
    (hlba : lba + cnt ≤ maxLba) (h : wp stop e (f ()) Q (v.write lba buf cnt)) :
    wp stop e (ideWrite lba buf cnt >>= f) Q v := by
  unfold ideWrite
  rw [wp_bind_assoc, wp_assert_pos ⟨by omega, hcnt⟩, wp_bind_assoc, wp_assert_pos (by omega),
    wp_modify_bind]
  exact h

theorem wp_ideRead_through {f : (ℕ → UInt8) → VolM α} (hcnt : 0 < cnt)
    (hlba : lba + cnt ≤ maxLba) (h : wp stop e (f (v.sector lba)) Q v) :
    wp stop e (ideRead lba cnt >>= f) Q v := by
  unfold ideRead
  rw [wp_bind_assoc, wp_assert_pos ⟨by omega, hcnt⟩, wp_bind_assoc, wp_assert_pos (by omega),
    wp_bind_assoc, wp_get_bind, wp_pure_bind]
  exact h

theorem wp_sysMallocUnchecked_through {f : Unit → VolM α} (he : ∀ t, e.sysMalloc t = true)
    (h : wp stop e (f ()) Q v) : wp stop e (sysMallocUnchecked >>= f) Q v := by
  unfold sysMallocUnchecked sysMalloc
  rw [wp_bind_assoc]
  apply wp_ask_bind
  intro t
  rw [wp_assert_pos (he t)]
  exact h

/-- With enough memory, formatting goes through. -/
theorem partitionFormat_through (he : ∀ t, e.sysMalloc t = true) :
    wp noStop e (partitionFormat p) (fun _ _ => True) v := by
  have hdisk := p.onDisk
  have hsecs := p.secs_le
  have hdata := p.dataLbaStart_eq
  have hcnt : p.superBlock.blockBitMapSecCnt = p.blockBitMapSecCnt := rfl
  have hblocks : p.superBlock.blockBitMapLbaStart = p.lbaStart + 2 := rfl
  have hbm := p.inodeBitMap_eq
  have hcnt' : p.superBlock.inodeBitMapSecCnt = 1 := rfl
  have htable := p.inodeTable_eq
  have hcnt'' : p.superBlock.inodeTableSecCnt = 608 := rfl
  unfold partitionFormat
  rw [hcnt', hcnt'']
  apply wp_ask_bind
  intro t
  apply wp_ideWrite_through (by omega) (by omega)
  apply wp_sysMallocUnchecked_through he
  apply wp_ideWrite_through (by omega) (by omega)
  apply wp_ideWrite_through (by omega) (by omega)
  apply wp_ideWrite_through (by omega) (by omega)
  rw [wp_ideWrite]
  exact ⟨fun _ => trivial, fun hlba => absurd hlba (by omega)⟩

/-- So does reading the tables. -/
theorem readTables_through (hf : Formatted p v.disk) (he : ∀ t, e.sysMalloc t = true) :
    wp noStop e (readTables p) (fun _ _ => True) v := by
  have hdisk := p.onDisk
  have hsecs := p.secs_le
  have hcnt : p.superBlock.blockBitMapSecCnt = p.blockBitMapSecCnt := rfl
  have hblocks : p.superBlock.blockBitMapLbaStart = p.lbaStart + 2 := rfl
  have hbm := p.inodeBitMap_eq
  have hcnt' : p.superBlock.inodeBitMapSecCnt = 1 := rfl
  unfold readTables
  apply wp_sysMallocUnchecked_through he
  apply wp_sysMallocUnchecked_through he
  apply wp_ideRead_through (by omega) (by omega)
  have hsb : SuperBlock.ofBytes (v.sector (p.lbaStart + 1)) = p.superBlock :=
    (SuperBlock.ofBytes_congr fun i hi => sector_apply v _ (by omega)).trans hf.superBlock
  rw [hsb]
  apply wp_sysMallocUnchecked_through he
  apply wp_ideRead_through (by omega) (by omega)
  apply wp_sysMallocUnchecked_through he
  apply wp_ideRead_through (by omega) (by omega)
  exact wp_pure.mpr trivial

end Through

section Law

/-- `partitionFormat` and then `mountPartition`, whatever is on the disks. -/
def Computer.formatAndMount (p : Partition) : ComputerM Unit := do
  modify fun c => { c with disks := c.image }
  onDisk p.hd (partitionFormat p)
  mountPartition p

/-- A volume that is empty and laid out for the partition `p`. -/
structure LaidOut (p : Partition) (v : Volume) : Prop where
  superBlock : v.superBlock = p.superBlock ∧
    SuperBlock.ofBytes (v.disk (p.lbaStart + 1)) = p.superBlock
  blockBytes : v.blockBitMap.length = 512 * p.superBlock.blockBitMapSecCnt ∧
    ∀ i < v.blockBitMap.length, v.blockBitMap.startAddr i =
      v.disk (p.superBlock.blockBitMapLbaStart + i / 512) (i % 512)
  inodeBytes : v.inodeBitMap.length = 512 * p.superBlock.inodeBitMapSecCnt ∧
    ∀ i < v.inodeBitMap.length, v.inodeBitMap.startAddr i =
      v.disk (p.superBlock.inodeBitMapLbaStart + i / 512) (i % 512)
  blocks : ∀ i < v.blockBitMap.bits,
    (v.blockBitMap.bit i = false ↔ 0 < i ∧ i < p.blockBitMapBitCnt)
  inodes : ∀ i < v.inodeBitMap.bits, (v.inodeBitMap.bit i = true ↔ i = 0)
  root : (v.inodeOf 0).ino = 0 ∧ (v.inodeOf 0).size = 48 ∧
    (v.inodeOf 0).block 0 = p.superBlock.dataLbaStart ∧
      ∀ k, 1 ≤ k → k ≤ 12 → (v.inodeOf 0).block k = 0
  rootDir : slot (v.disk p.superBlock.dataLbaStart) 0 = rootDot ∧
    slot (v.disk p.superBlock.dataLbaStart) 1 = rootDotDot ∧
      ∀ j, 2 ≤ j → j < 21 → slot (v.disk p.superBlock.dataLbaStart) j = DirEntry.empty

/-- The bits behind the last block are set. -/
def TailSet (p : Partition) (v : Volume) : Prop :=
  v.superBlock = p.superBlock ∧
    ∀ i < v.blockBitMap.bits, p.blockBitMapBitCnt ≤ i → v.blockBitMap.bit i = true

theorem LaidOut.tailSet (h : LaidOut p v) : TailSet p v := by
  refine ⟨h.superBlock.1, fun i hi htail => ?_⟩
  by_contra hbit
  have hclear := (h.blocks i hi).mp (Bool.eq_false_iff.mpr hbit)
  omega

/-- As long as they are, `blockBitMapAlloc` stays inside the partition. -/
theorem TailSet.alloc {lba : ℕ} (h : TailSet p v)
    (hret : Returns e blockBitMapAlloc v (some lba) w) :
    p.superBlock.dataLbaStart ≤ lba ∧ lba < p.lbaStart + p.secCnt := by
  have hdata := p.data_le
  have hw : wp anyStop e blockBitMapAlloc (fun r _ => ∀ lba, r = some lba →
      p.superBlock.dataLbaStart ≤ lba ∧ lba < p.lbaStart + p.secCnt) v := by
    unfold blockBitMapAlloc
    rw [wp_get_bind]
    cases hscan : bitMapScan v.blockBitMap 1 with
    | none => exact wp_pure.mpr (by simp)
    | some i =>
      obtain ⟨hi, hclear, -⟩ := bitMapScan_one_eq_some hscan
      have hlt : i < p.blockBitMapBitCnt := by
        by_contra hle
        rw [h.2 i hi (not_lt.mp hle)] at hclear
        cases hclear
      refine wp_modify_bind.mpr (wp_pure.mpr ?_)
      rintro lba' hlba
      obtain rfl := Option.some.inj hlba
      rw [h.1]
      omega
  exact hret.of_wp hw lba rfl

/-- They stay set. -/
theorem TailSet.keeps {r : Option ℕ} (h : TailSet p v) (hret : Returns e blockBitMapAlloc v r w) :
    TailSet p w := by
  have hw : wp anyStop e blockBitMapAlloc (fun _ w => TailSet p w) v := by
    unfold blockBitMapAlloc
    rw [wp_get_bind]
    cases hscan : bitMapScan v.blockBitMap 1 with
    | none => exact wp_pure.mpr h
    | some n =>
      refine wp_modify_bind.mpr (wp_pure.mpr ⟨h.1, fun i hi htail => ?_⟩)
      have hset := h.2 i hi htail
      change (bitMapSet v.blockBitMap n true).bit i = true
      rw [bitMapSet_bit]
      split_ifs
      · rfl
      · exact hset
  exact hret.of_wp hw

/-- All blocks that are allocated one after the other behind a mount are inside the partition. -/
theorem LaidOut.allocs {lba : ℕ} {u : Volume} (h : LaidOut p u)
    (hrun : Relation.ReflTransGen (fun v w => ∃ e r, Returns e blockBitMapAlloc v r w) u v)
    (hret : Returns e blockBitMapAlloc v (some lba) w) :
    p.superBlock.dataLbaStart ≤ lba ∧ lba < p.lbaStart + p.secCnt := by
  have htail : TailSet p v := by
    clear hret
    induction hrun with
    | refl => exact h.tailSet
    | tail _ hst ih =>
      obtain ⟨e', r, hst⟩ := hst
      exact ih.keeps hst
  exact htail.alloc hret

namespace Computer

/-- Mounting takes the tables as they are on the disk. -/
theorem wp_mountBytes (hf : Formatted p (c.disks p.hd)) :
    wp anyStop e (mountPartition p) (fun _ c' =>
      (∀ i, c'.fs.vol.blockBitMap.startAddr i =
        c'.fs.vol.disk (p.superBlock.blockBitMapLbaStart + i / 512) (i % 512)) ∧
      ∀ i, c'.fs.vol.inodeBitMap.startAddr i =
        c'.fs.vol.disk (p.superBlock.inodeBitMapLbaStart + i / 512) (i % 512)) c := by
  have hsb : SuperBlock.ofBytes (Volume.sector { c.fs.vol with disk := c.disks p.hd }
      (p.lbaStart + 1)) = p.superBlock :=
    (SuperBlock.ofBytes_congr fun i hi => sector_apply _ _ (by omega)).trans hf.superBlock
  unfold mountPartition
  apply wp_call (R := fun r c' => c'.disks p.hd = c.disks p.hd ∧
    (∀ i, r.2.1.startAddr i = c.disks p.hd (p.superBlock.blockBitMapLbaStart + i / 512) (i % 512)) ∧
      ∀ i, r.2.2.startAddr i = c.disks p.hd (p.superBlock.inodeBitMapLbaStart + i / 512) (i % 512))
  · apply wp_onDisk (R := fun r v => v.disk = c.disks p.hd ∧
      (∀ i, r.2.1.startAddr i = c.disks p.hd (p.superBlock.blockBitMapLbaStart + i / 512) (i % 512)) ∧
        ∀ i, r.2.2.startAddr i = c.disks p.hd (p.superBlock.inodeBitMapLbaStart + i / 512) (i % 512))
    · unfold readTables
      refine wp_sysMallocUnchecked_bind trivial (wp_sysMallocUnchecked_bind trivial ?_)
      refine wp_ideRead_of trivial ?_
      rw [hsb]
      refine wp_sysMallocUnchecked_bind trivial (wp_ideRead_of trivial ?_)
      refine wp_sysMallocUnchecked_bind trivial (wp_ideRead_of trivial ?_)
      exact wp_pure.mpr ⟨rfl, fun _ => rfl, fun _ => rfl⟩
    · rintro r v ⟨hv, hr⟩
      exact ⟨(if_pos rfl).trans hv, hr⟩
  · rintro ⟨sb, blockBitMap, inodeBitMap⟩ c₁ ⟨hd, hb, hi⟩
    apply wp_modify.mpr
    change (∀ i, blockBitMap.startAddr i = c₁.disks p.hd _ _) ∧
      ∀ i, inodeBitMap.startAddr i = c₁.disks p.hd _ _
    rw [hd]
    exact ⟨hb, hi⟩

end Computer

theorem Mounted.laidOut (h : Mounted p v) (hclosed : v.openInodes = [])
    (hblocks : ∀ i, v.blockBitMap.startAddr i =
      v.disk (p.superBlock.blockBitMapLbaStart + i / 512) (i % 512))
    (hinodes : ∀ i, v.inodeBitMap.startAddr i =
      v.disk (p.superBlock.inodeBitMapLbaStart + i / 512) (i % 512)) : LaidOut p v := by
  have hslot : ∀ j < 21, slot (v.disk p.superBlock.dataLbaStart) j = slot (newDirSector 0 0) j :=
    fun j hj => slot_congr hj h.formatted.rootDir
  refine ⟨⟨h.superBlock, h.formatted.superBlock⟩, ⟨h.blockLength, fun i _ => hblocks i⟩,
    ⟨h.inodeLength, fun i _ => hinodes i⟩, fun i hi => ?_, fun i hi => ?_, ?_, ?_, ?_,
    fun j hj hj' => ?_⟩
  · unfold BitMap.bits at hi
    rw [h.blockLength] at hi
    rw [h.blockBits i hi, Bool.eq_false_iff, Ne, blockBitMap_bit hi]
    omega
  · unfold BitMap.bits at hi
    rw [h.inodeLength] at hi
    rw [h.inodeBits i hi, decide_eq_true_eq]
  · have hfind : v.findOpen 0 = none := by
      unfold Volume.findOpen
      rw [hclosed]
      rfl
    unfold Volume.inodeOf
    rw [hfind, h.superBlock]
    apply h.rootInode
    intro k hk
    have hk' : (0 * 76 % 512 + k) / 512 = 0 ∧ (0 * 76 % 512 + k) % 512 = k := by omega
    rw [hk'.1, hk'.2]
    rfl
  · rw [hslot 0 (by omega), newDirSector_slot]
    rfl
  · rw [hslot 1 (by omega), newDirSector_slot]
    rfl
  · rw [hslot j hj', newDirSector_slot, if_neg (by omega), if_neg (by omega)]

namespace Computer

theorem wp_formatAndMount : wp anyStop e (formatAndMount p) (fun _ c' => LaidOut p c'.fs.vol) c := by
  unfold formatAndMount
  rw [wp_modify_bind]
  apply wp_call (wp_onDisk (Q := fun _ c' => Formatted p (c'.disks p.hd)) wp_partitionFormat ?_)
  · intro _ c₁ h₁
    apply wp_mono (wp_and (wp_mountPartition h₁) (wp_mountBytes h₁))
    rintro _ c₂ ⟨⟨hm, hclosed⟩, hb, hi⟩
    exact hm.laidOut hclosed hb hi
  · intro _ v hv
    change Formatted p (if p.hd = p.hd then v.disk else _)
    rw [if_pos rfl]
    exact hv.formatted

theorem formatAndMount_through (he : ∀ t, e.sysMalloc t = true) :
    wp noStop e (formatAndMount p) (fun _ _ => True) c := by
  unfold formatAndMount
  rw [wp_modify_bind]
  apply wp_call (R := fun _ c' => Formatted p (c'.disks p.hd))
  · apply wp_zoom
    apply wp_mono (wp_and (partitionFormat_through he) wp_partitionFormat)
    rintro _ v ⟨-, hv⟩
    change Formatted p (if p.hd = p.hd then v.disk else _)
    rw [if_pos rfl]
    exact hv.formatted
  · intro _ c₁ h₁
    unfold mountPartition
    apply wp_call (R := fun _ _ => True)
    · exact wp_zoom (readTables_through h₁ he)
    · exact fun _ _ _ => wp_modify.mpr trivial

end Computer

/-- The areas are consecutive and inside the partition, and its buffer is large enough; every run
of formatting and mounting that returns leaves an empty volume; and with enough memory it
returns. -/
theorem format_law (p : Partition) (c : Computer) (e : Heap) :
    (p.areas.IsChain (fun a b => 0 < a.2 ∧ a.1 + a.2 = b.1) ∧
      p.superBlock.dataLbaStart + p.blockBitMapBitCnt ≤ p.lbaStart + p.secCnt ∧
      p.blockBitMapBitCnt / 8 + (512 - p.blockBitMapBitCnt / 8 % 512) ≤ p.bufSize) ∧
    (∀ c', Returns e (Computer.formatAndMount p) c () c' → LaidOut p c'.fs.vol ∧
      ∀ e v lba w, TailSet p v → Returns e blockBitMapAlloc v (some lba) w →
        p.superBlock.dataLbaStart ≤ lba ∧ lba < p.lbaStart + p.secCnt) ∧
    ((∀ t, e.sysMalloc t = true) → ∃ c', Returns e (Computer.formatAndMount p) c () c') := by
  refine ⟨⟨p.areas_consecutive, p.data_le, p.tail_le⟩, fun c' hret => ?_, fun he => ?_⟩
  · refine ⟨?_, fun e v lba w hv hret => hv.alloc hret⟩
    exact hret.of_wp Computer.wp_formatAndMount
  · obtain ⟨_, c', hret, -⟩ := wp_noStop_returns (Computer.formatAndMount_through he)
    exact ⟨c', hret⟩

end Law

end Gogoos
