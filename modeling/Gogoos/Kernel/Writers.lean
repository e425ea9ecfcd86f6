import Gogoos.Kernel.Positions

/-!
# Writers of a file

`writeDeny` of an inode is to keep a second writer away. What the calls make of it: the flags of
all other inodes stay as they are, and for the inode that is opened or closed it is compared with
the slots of `fileTable` that refer to it.
-/

namespace Gogoos

open Program

variable {e : Heap} {v w : Volume} {fs fs' : Fs} {root p q k slot ino flag : ℕ} {x x' : ℕ → ℕ}

section Deny

/-- The flags of the inodes in memory are as they were. -/
structure SameDeny (v w : Volume) : Prop where
  nextInode : v.nextInode ≤ w.nextInode
  writeDeny : ∀ p < v.nextInode, (w.inodes p).writeDeny = (v.inodes p).writeDeny

theorem SameDeny.trans {u : Volume} (h : SameDeny u v) (h' : SameDeny v w) : SameDeny u w :=
  ⟨h.nextInode.trans h'.nextInode,
    fun p hp => (h'.writeDeny p (hp.trans_le h.nextInode)).trans (h.writeDeny p hp)⟩

theorem sameDeny_setInode {g : Inode → Inode} (hg : ∀ i, (g i).writeDeny = i.writeDeny) :
    SameDeny v (v.setInode p g) := by
  refine ⟨le_rfl, fun q _ => ?_⟩
  by_cases hq : q = p
  · simp [hq, hg]
  · simp [hq]

theorem SameDeny.addInode (v : Volume) (i : Inode) : SameDeny v (v.addInode i) := by
  refine ⟨Nat.le_succ _, fun q hq => ?_⟩
  have hne : q ≠ v.nextInode := by omega
  simp [hne]

/-- The flag of an inode that was not in memory does not count. -/
theorem SameDeny.setFresh (h : SameDeny v w) (hp : v.nextInode ≤ p) (g : Inode → Inode) :
    SameDeny v (w.setInode p g) := by
  refine ⟨h.nextInode, fun q hq => ?_⟩
  have hne : q ≠ p := by omega
  simpa [hne] using h.writeDeny q hq

instance : Opening SameDeny where
  refl _ := ⟨le_rfl, fun _ _ => rfl⟩
  trans _ _ _ := SameDeny.trans
  stores v w hi _ hn _ := ⟨hn.ge, fun p _ => by rw [hi]⟩
  grows _ _ _ hg := sameDeny_setInode fun i => (hg i).2.1
  adds := SameDeny.addInode
  links v i := ⟨(SameDeny.addInode v i).nextInode, (SameDeny.addInode v i).writeDeny⟩
  unlinks _ _ := ⟨le_rfl, fun _ _ => rfl⟩
  counts _ _ _ := sameDeny_setInode fun _ => rfl

/-- `writeDeny` in the inode table on the disk. -/
def Volume.storedDeny (v : Volume) (ino : ℕ) : Bool :=
  v.sector (v.superBlock.inodeTableLbaStart + ino * 76 / 512) (ino * 76 % 512 + 12) ≠ 0

/-- The flag that `inodeOpen` finds. -/
def Volume.denies (v : Volume) (ino : ℕ) : Bool :=
  match v.findOpen ino with
  | some p => (v.inodes p).writeDeny
  | none => v.storedDeny ino

theorem wp_inodeOpen_denies (ino : ℕ) (v : Volume) :
    wp anyStop e (inodeOpen ino) (fun p w => (w.inodes p).writeDeny = v.denies ino ∧
      (v.findOpen ino = some p ∨ v.findOpen ino = none ∧ p = v.nextInode)) v := by
  unfold inodeOpen Volume.denies
  rw [wp_get_bind]
  cases hfind : v.findOpen ino with
  | some p =>
    dsimp only
    rw [wp_modifyInode_bind, wp_pure]
    exact ⟨by simp, .inl rfl⟩
  | none =>
    dsimp only
    unfold inodeLocate
    simp only [wp_bind_assoc, wp_assert_bind, wp_get_bind, wp_pure_bind]
    refine ⟨fun _ => ?_, fun _ => trivial⟩
    apply wp_call (keeps_sysMallocUnchecked (R := Eq) e v)
    rintro _ _ rfl
    apply wp_call (keeps_sysMallocUnchecked (R := Eq) e v)
    rintro _ _ rfl
    apply wp_ideRead_of trivial
    unfold newInode
    simp only [wp_bind_assoc, wp_get_bind, wp_modify_bind, wp_pure_bind, wp_pure]
    exact ⟨by simp [Inode.ofBytes, Volume.storedDeny], .inr ⟨trivial, trivial⟩⟩

end Deny

section Slots

variable {t t' : ℕ → File} {f : File}

/-- The handle that a slot is. -/
def File.holds (f : File) : ℕ → ℕ :=
  match f.fdInode with
  | none => 0
  | some p => Pi.single p 1

/-- How many slots hold each inode, with one handle more for `rootDir`. -/
def held (root : ℕ) (t : ℕ → File) : ℕ → ℕ :=
  ∑ k ∈ Finset.range 32, (t k).holds + Pi.single root 1

/-- Slot `k` is in use and its file was opened for writing. -/
def WritesTo (t : ℕ → File) (k p : ℕ) : Prop :=
  k < 32 ∧ (t k).fdInode = some p ∧ writes (t k).fdFlag = true

theorem holds_of_none (h : f.fdInode = none) : f.holds = 0 := by
  unfold File.holds
  rw [h]

theorem holds_of_some (h : f.fdInode = some p) : f.holds = Pi.single p 1 := by
  unfold File.holds
  rw [h]

theorem held_set (root : ℕ) (hk : k < 32) (t : ℕ → File) (f : File) :
    held root (fun j => if j = k then f else t j) + (t k).holds = held root t + f.holds := by
  have hmem : k ∈ Finset.range 32 := Finset.mem_range.mpr hk
  have hrest : ∑ j ∈ (Finset.range 32).erase k, (if j = k then f else t j).holds =
      ∑ j ∈ (Finset.range 32).erase k, (t j).holds := by
    apply Finset.sum_congr rfl
    intro j hj
    rw [if_neg (Finset.ne_of_mem_erase hj)]
  unfold held
  rw [← Finset.sum_erase_add _ _ hmem, ← Finset.sum_erase_add _ _ hmem, hrest]
  simp only [if_true]
  abel

theorem held_pos (hk : k < 32) (hp : (t k).fdInode = some p) : 0 < held root t p := by
  have hone : (t k).holds p = 1 := by
    rw [holds_of_some hp]
    simp
  have hle := Finset.single_le_sum (f := fun j => (t j).holds p) (fun _ _ => Nat.zero_le _)
    (Finset.mem_range.mpr hk)
  unfold held
  rw [Pi.add_apply, Finset.sum_apply]
  omega

theorem WritesTo.held_pos (h : WritesTo t k p) : 0 < held root t p := Gogoos.held_pos h.1 h.2.1

theorem writesTo_set_ne {j : ℕ} (hj : j ≠ k) :
    WritesTo (fun j => if j = k then f else t j) j p ↔ WritesTo t j p := by
  unfold WritesTo
  simp only [if_neg hj]

/-- The slots in use are the same, for the same inodes and in the same mode. -/
structure SameUse (t t' : ℕ → File) : Prop where
  inode : ∀ k, (t' k).fdInode = (t k).fdInode
  flag : ∀ k, (t k).fdInode ≠ none → (t' k).fdFlag = (t k).fdFlag

theorem SameUse.refl (t : ℕ → File) : SameUse t t := ⟨fun _ => rfl, fun _ _ => rfl⟩

theorem SameUse.held (h : SameUse t t') : held root t' = held root t := by
  unfold Gogoos.held File.holds
  simp only [h.inode]

theorem SameUse.writesTo_iff (h : SameUse t t') : WritesTo t' k p ↔ WritesTo t k p := by
  unfold WritesTo
  rw [h.inode]
  constructor
  · rintro ⟨hk, hp, hw⟩
    exact ⟨hk, hp, by rwa [← h.flag k (by simp [hp])]⟩
  · rintro ⟨hk, hp, hw⟩
    exact ⟨hk, hp, by rwa [h.flag k (by simp [hp])]⟩

/-- A free slot stays free, whatever else is stored in it. -/
theorem SameUse.of_free (hfree : (t k).fdInode = none) (hfree' : (t' k).fdInode = none)
    (hne : ∀ j, j ≠ k → t' j = t j) : SameUse t t' := by
  constructor
  · intro j
    by_cases hj : j = k
    · rw [hj, hfree, hfree']
    · rw [hne j hj]
  · intro j hj
    have hjk : j ≠ k := by
      rintro rfl
      exact hj hfree
    rw [hne j hjk]

end Slots

section Guarded

/-- The handles on the open inodes are the slots, `rootDir` and `x` others, no inode has two
writers, and the flags say which have one. -/
structure Guarded (root : ℕ) (x : ℕ → ℕ) (fs : Fs) : Prop where
  tallied : Tallied root fs.vol (held root fs.fileTable + x)
  alone : ∀ k k' p, WritesTo fs.fileTable k p → WritesTo fs.fileTable k' p → k = k'
  deny : ∀ p, 0 < held root fs.fileTable p →
    ((fs.vol.inodes p).writeDeny = true ↔ ∃ k, WritesTo fs.fileTable k p)

theorem Guarded.lt (h : Guarded root x fs) (hp : 0 < held root fs.fileTable p) :
    p < fs.vol.nextInode := by
  apply h.tallied.fresh
  rw [Pi.add_apply]
  omega

theorem Guarded.same (h : Guarded root x fs) (hs : SameUse fs.fileTable fs'.fileTable)
    (ht : Tallied root fs'.vol (held root fs.fileTable + x')) (hd : SameDeny fs.vol fs'.vol) :
    Guarded root x' fs' := by
  constructor
  · rw [hs.held]
    exact ht
  · intro k k' p hk hk'
    exact h.alone k k' p (hs.writesTo_iff.mp hk) (hs.writesTo_iff.mp hk')
  · intro p hp
    rw [hs.held] at hp
    rw [hd.writeDeny p (h.lt hp)]
    simp only [hs.writesTo_iff]
    exact h.deny p hp

/-- A free slot is given to the inode `p`, which is marked when the slot writes to it. -/
theorem Guarded.bind {f : File} (h : Guarded root x fs) (hk : k < 32)
    (hfree : (fs.fileTable k).fdInode = none) (hf : f.fdInode = some p)
    (htable : fs'.fileTable = fun j => if j = k then f else fs.fileTable j)
    (ht : Tallied root fs'.vol (held root fs.fileTable + x + Pi.single p 1))
    (hd : ∀ q, q ≠ p → q < fs.vol.nextInode →
      (fs'.vol.inodes q).writeDeny = (fs.vol.inodes q).writeDeny)
    (hwrites : writes f.fdFlag = true → (fs'.vol.inodes p).writeDeny = true ∧
      ∀ j, ¬WritesTo fs.fileTable j p)
    (hreads : writes f.fdFlag = false →
      ((fs'.vol.inodes p).writeDeny = true ↔ ∃ j, WritesTo fs.fileTable j p)) :
    Guarded root x fs' := by
  have hheld : held root fs'.fileTable = held root fs.fileTable + Pi.single p 1 := by
    have hset := held_set root hk fs.fileTable f
    rw [holds_of_none hfree, holds_of_some hf, add_zero] at hset
    rw [htable, hset]
  have hself : ∀ q, WritesTo fs'.fileTable k q ↔ q = p ∧ writes f.fdFlag = true := by
    intro q
    unfold WritesTo
    simp only [htable, if_true, hf, Option.some.injEq]
    exact ⟨fun hw => ⟨hw.2.1.symm, hw.2.2⟩, fun hw => ⟨hk, hw.1.symm, hw.2⟩⟩
  have hother : ∀ j q, j ≠ k → (WritesTo fs'.fileTable j q ↔ WritesTo fs.fileTable j q) := by
    intro j q hj
    rw [htable]
    exact writesTo_set_ne hj
  have hnot : ∀ q, ¬WritesTo fs.fileTable k q := by
    rintro q ⟨-, hq, -⟩
    rw [hfree] at hq
    cases hq
  constructor
  · rw [hheld, add_right_comm]
    exact ht
  · intro j j' q hj hj'
    by_cases hjk : j = k <;> by_cases hjk' : j' = k
    · rw [hjk, hjk']
    · subst hjk
      obtain ⟨rfl, hw⟩ := (hself q).mp hj
      exact absurd ((hother j' q hjk').mp hj') ((hwrites hw).2 j')
    · subst hjk'
      obtain ⟨rfl, hw⟩ := (hself q).mp hj'
      exact absurd ((hother j q hjk).mp hj) ((hwrites hw).2 j)
    · exact h.alone j j' q ((hother j q hjk).mp hj) ((hother j' q hjk').mp hj')
  · intro q hq
    have hiff : (∃ j, WritesTo fs'.fileTable j q) ↔
        (q = p ∧ writes f.fdFlag = true) ∨ ∃ j, WritesTo fs.fileTable j q := by
      constructor
      · rintro ⟨j, hj⟩
        by_cases hjk : j = k
        · subst hjk
          exact .inl ((hself q).mp hj)
        · exact .inr ⟨j, (hother j q hjk).mp hj⟩
      · rintro (hw | ⟨j, hj⟩)
        · exact ⟨k, (hself q).mpr hw⟩
        · have hjk : j ≠ k := by
            rintro rfl
            exact hnot q hj
          exact ⟨j, (hother j q hjk).mpr hj⟩
    rw [hiff]
    by_cases hqp : q = p
    · subst hqp
      cases hw : writes f.fdFlag with
      | true => simp [(hwrites hw).1]
      | false => simpa using hreads hw
    · have hq' : 0 < held root fs.fileTable q := by simpa [hheld, hqp] using hq
      rw [hd q hqp (h.lt hq'), h.deny q hq']
      simp [hqp]

end Guarded

section Calls

variable {α β : Type}

theorem wp_onVol_guarded_bind {m : VolM β} {f : β → FsM α} {Q : α → Fs → Prop}
    (h : Guarded root x fs) (ho : Keeps SameOpen m) (hd : Keeps SameDeny m)
    (hf : ∀ b w, Guarded root x (fs.setVol w) → wp anyStop e (f b) Q (fs.setVol w)) :
    wp anyStop e (onVol m >>= f) Q fs := by
  apply wp_onVol_call (wp_and (ho e fs.vol) (hd e fs.vol))
  rintro b w ⟨hwo, hwd⟩
  exact hf b w (h.same (.refl _) (h.tallied.same hwo) hwd)

theorem wp_pcbFdInstall_same : wp anyStop e (pcbFdInstall slot)
    (fun _ f => f.vol = fs.vol ∧ f.fileTable = fs.fileTable) fs := by
  unfold pcbFdInstall
  rw [wp_get_bind]
  cases freeFdFrom fs.fdTable 4 3 with
  | none => exact wp_pure.mpr ⟨rfl, rfl⟩
  | some k => exact wp_modify_bind.mpr (wp_pure.mpr ⟨rfl, rfl⟩)

/-- The inode that is opened is marked, and nobody writes to it. -/
def Fs.Stale (fs : Fs) (ino : ℕ) : Prop :=
  fs.vol.denies ino = true ∧ ∀ k p, fs.vol.findOpen ino = some p → ¬WritesTo fs.fileTable k p

theorem wp_fileOpen_guarded (h : Guarded root x fs)
    (hc : freeSlotFrom fs.fileTable 29 3 ≠ none → writes flag = true ∨ ¬fs.Stale ino) :
    wp anyStop e (fileOpen ino flag) (fun _ => Guarded root x) fs := by
  unfold fileOpen getFreeSlotInGlobal
  simp only [wp_bind_assoc, wp_get_bind, wp_pure_bind]
  cases hscan : freeSlotFrom fs.fileTable 29 3 with
  | none => exact wp_pure.mpr h
  | some slot =>
    dsimp only
    obtain ⟨-, hslot, hfree⟩ := freeSlotFrom_some hscan
    have hcond := hc (by simp [hscan])
    apply wp_onVol_call (wp_and (wp_and (wp_inodeOpen h.tallied)
      (keeps_inodeOpen (T := SameDeny) ino e fs.vol)) (wp_inodeOpen_denies ino fs.vol))
    rintro p w ⟨⟨ht, hd⟩, hdeny, hfrom⟩
    -- a writer of the inode has left its mark
    have hmark : ∀ j, WritesTo fs.fileTable j p → (w.inodes p).writeDeny = true := by
      intro j hj
      rw [hd.writeDeny p (h.lt hj.held_pos)]
      exact (h.deny p hj.held_pos).mpr ⟨j, hj⟩
    rw [wp_setFile_bind]
    apply wp_ite
    · intro hwrites
      rw [wp_get_bind]
      apply wp_ite
      · intro hno
        apply wp_onVol_bind
        rw [wp_modifyInode]
        apply wp_mono wp_pcbFdInstall_same
        rintro r f ⟨hvol, htable⟩
        apply h.bind (f := ⟨0, flag, some p⟩) (by omega) hfree rfl htable
        · have hsame : SameOpen w (w.setInode p fun i => { i with writeDeny := true }) :=
            sameOpen_setInode fun _ => rfl
          rw [hvol]
          exact ht.same hsame
        · intro q hqp hq
          rw [hvol]
          simpa [hqp] using hd.writeDeny q hq
        · intro _
          refine ⟨by simp [hvol], fun j hj => ?_⟩
          have hyes := hmark j hj
          simp [hyes] at hno
        · intro hreads
          exact absurd (hwrites.symm.trans hreads) (by decide)
      · intro _
        apply wp_onVol_call (wp_and (wp_inodeClose ht) (keeps_inodeClose (T := SameDeny) p e w))
        rintro _ w' ⟨ht', hd'⟩
        apply wp_setFile_bind.mpr
        apply wp_pure.mpr
        apply h.same (.of_free hfree (by simp) fun j hj => by simp [hj]) ht' (hd.trans hd')
    · intro hreads
      apply wp_mono wp_pcbFdInstall_same
      rintro r f ⟨hvol, htable⟩
      apply h.bind (f := ⟨0, flag, some p⟩) (by omega) hfree rfl htable
      · rw [hvol]
        exact ht
      · intro q _ hq
        rw [hvol]
        exact hd.writeDeny q hq
      · exact fun hw => absurd hw hreads
      · intro _
        rw [hvol]
        constructor
        · intro hw
          have hnot : ¬fs.Stale ino := hcond.resolve_left hreads
          by_contra hnone
          refine hnot ⟨hdeny.symm.trans hw, fun j q hq hj => hnone ⟨j, ?_⟩⟩
          rcases hfrom with hfind | ⟨hfind, -⟩
          · obtain rfl : q = p := Option.some.inj (hq.symm.trans hfind)
            exact hj
          · rw [hfind] at hq
            cases hq
        · rintro ⟨j, hj⟩
          exact hmark j hj

/-- The inode `p` is in memory but not yet linked, it was not there in `v`, and it is not
marked. -/
structure Unmarked (root : ℕ) (n : ℕ → ℕ) (v : Volume) (p : ℕ) (w : Volume) : Prop where
  spare : Spare root w n p
  same : SameDeny v w
  fresh : v.nextInode ≤ p
  writeDeny : (w.inodes p).writeDeny = false

theorem Unmarked.trans {n : ℕ → ℕ} {w' : Volume} (h : Unmarked root n v p w) (ho : SameOpen w w')
    (hd : SameDeny w w') : Unmarked root n v p w' :=
  ⟨h.spare.same ho, h.same.trans hd, h.fresh, (hd.writeDeny p h.spare.lt).trans h.writeDeny⟩

theorem wp_onVol_unmarked_bind {n : ℕ → ℕ} {m : VolM β} {f : β → FsM α} {Q : α → Fs → Prop}
    (h : Unmarked root n v p fs.vol) (ho : Keeps SameOpen m) (hd : Keeps SameDeny m)
    (hf : ∀ b w, Unmarked root n v p w → wp anyStop e (f b) Q (fs.setVol w)) :
    wp anyStop e (onVol m >>= f) Q fs := by
  apply wp_onVol_call (wp_and (ho e fs.vol) (hd e fs.vol))
  rintro b w ⟨hwo, hwd⟩
  exact hf b w (h.trans hwo hwd)

theorem wp_newInode_unmarked {n : ℕ → ℕ} (h : Tallied root v n) (ino : ℕ) :
    wp anyStop e (newInode (inodeInit ino)) (fun p w => Unmarked root n v p w) v := by
  unfold newInode
  simp only [wp_get_bind, wp_modify_bind, wp_pure]
  exact ⟨h.spare _, .addInode v _, le_rfl, by simp [inodeInit]⟩

theorem wp_inodeBitMapAlloc_scan : wp anyStop e inodeBitMapAlloc
    (fun r _ => r ≠ none → bitMapScan v.inodeBitMap 1 ≠ none) v := by
  unfold inodeBitMapAlloc
  rw [wp_get_bind]
  cases bitMapScan v.inodeBitMap 1 with
  | none => exact wp_pure.mpr fun h => absurd rfl h
  | some i => exact wp_setInodeBit_bind.mpr (wp_pure.mpr fun _ => Option.some_ne_none i)

/-- The new file must not be opened for writing, for it is not marked. -/
theorem wp_fileCreate_guarded {dir : Dir} {name : List UInt8} (h : Guarded root x fs)
    (hc : freeSlotFrom fs.fileTable 29 3 ≠ none → bitMapScan fs.vol.inodeBitMap 1 ≠ none →
      writes flag = false) :
    wp anyStop e (fileCreate dir name flag) (fun _ => Guarded root x) fs := by
  have hfail : ∀ ino (f : Fs), Guarded root x f → wp anyStop e (do
      onVol (setInodeBit ino false)
      return (-1 : ℤ)) (fun _ => Guarded root x) f := fun ino f hf =>
    wp_onVol_guarded_bind hf (keeps_setInodeBit _ _) (keeps_setInodeBit _ _) fun _ _ hf' =>
      wp_pure.mpr hf'
  unfold fileCreate
  apply wp_onVol_call (keeps_sysMalloc (R := Eq) e fs.vol)
  rintro ok _ rfl
  apply wp_ite
  · exact fun _ => wp_pure.mpr h
  intro _
  apply wp_onVol_call (wp_and (wp_and (keeps_inodeBitMapAlloc (S := SameOpen) e fs.vol)
    (keeps_inodeBitMapAlloc (S := SameDeny) e fs.vol)) wp_inodeBitMapAlloc_scan)
  rintro r v₁ ⟨⟨ho₁, hd₁⟩, hscan⟩
  have h₁ : Guarded root x (fs.setVol v₁) := h.same (.refl _) (h.tallied.same ho₁) hd₁
  cases r with
  | none => exact wp_pure.mpr h₁
  | some ino =>
    have hbit := hscan (Option.some_ne_none ino)
    refine wp_onVol_guarded_bind h₁ keeps_sysMalloc keeps_sysMalloc fun ok v₂ h₂ => ?_
    apply wp_ite
    · exact fun _ => hfail ino _ h₂
    intro _
    apply wp_onVol_call (wp_newInode_unmarked h₂.tallied ino)
    intro p v₃ h₃
    have hkept : ∀ f : Fs, SameUse fs.fileTable f.fileTable → Unmarked root
        (held root fs.fileTable + x) v₂ p f.vol → Guarded root x f := fun f hs hf =>
      h₂.same hs hf.spare.tallied hf.same
    unfold getFreeSlotInGlobal
    simp only [wp_bind_assoc, wp_get_bind, wp_pure_bind, Fs.setVol_fileTable]
    cases hslot : freeSlotFrom fs.fileTable 29 3 with
    | none => exact hfail ino _ (hkept _ (.refl _) h₃)
    | some slot =>
      dsimp only
      obtain ⟨-, hlt, hfree⟩ := freeSlotFrom_some hslot
      have hreads : writes flag = false := hc (by simp [hslot]) hbit
      rw [wp_setFile_bind]
      apply wp_onVol_bind
      rw [wp_modifyInode]
      have hmarked : SameOpen v₃ (v₃.setInode p fun i => { i with writeDeny := false }) :=
        sameOpen_setInode fun _ => rfl
      have h₄ : Unmarked root (held root fs.fileTable + x) v₂ p
          (v₃.setInode p fun i => { i with writeDeny := false }) :=
        ⟨h₃.spare.same hmarked, h₃.same.setFresh h₃.fresh _, h₃.fresh, by simp⟩
      refine wp_onVol_unmarked_bind h₄ (keeps_createDirEntry _ _ _) (keeps_createDirEntry _ _ _) ?_
      intro de v₅ h₅
      refine wp_onVol_unmarked_bind h₅ (keeps_syncDirEntry _ _) (keeps_syncDirEntry _ _) ?_
      intro ok v₆ h₆
      apply wp_ite
      · intro _
        rw [wp_setFile_bind]
        exact hfail ino _ (hkept _ (.of_free hfree (by simp) fun j hj => by simp [hj]) h₆)
      intro _
      rw [wp_get_bind]
      refine wp_onVol_unmarked_bind h₆ (keeps_inodeSync _) (keeps_inodeSync _) ?_
      intro _ v₇ h₇
      refine wp_onVol_unmarked_bind h₇ (keeps_inodeSync _) (keeps_inodeSync _) ?_
      intro _ v₈ h₈
      refine wp_onVol_unmarked_bind h₈ (keeps_bitMapSync _ _) (keeps_bitMapSync _ _) ?_
      intro _ v₉ h₉
      apply wp_onVol_bind
      rw [wp_modify]
      apply wp_onVol_bind
      rw [wp_modifyInode]
      apply wp_mono wp_pcbFdInstall_same
      rintro r f ⟨hvol, htable⟩
      apply h₂.bind (f := ⟨0, flag, some p⟩) (by omega) hfree rfl htable
      · rw [hvol]
        exact h₉.spare.tallied.link h₉.spare.unlinked h₉.spare.lt rfl rfl rfl (by simp)
          fun q hq => by simp [hq]
      · intro q hqp hq
        rw [hvol]
        simpa [hqp] using h₉.same.writeDeny q hq
      · exact fun hw => absurd (hw.symm.trans hreads) (by decide)
      · intro _
        have hdeny := h₉.writeDeny
        have hnone : ¬∃ j, WritesTo fs.fileTable j p := by
          rintro ⟨j, hj⟩
          have hold := h₂.lt hj.held_pos
          exact absurd h₉.fresh (not_le.mpr hold)
        simp [hvol, hdeny, hnone]

/-- A slot that only reads is not closed while another one writes. -/
def Fs.Unmarks (fs : Fs) (k : ℕ) : Prop :=
  ∃ p, (fs.fileTable k).fdInode = some p ∧ writes (fs.fileTable k).fdFlag = false ∧
    ∃ j, WritesTo fs.fileTable j p

theorem wp_fileClose_guarded (h : Guarded root 0 fs) (hk : k < 32) (hc : ¬fs.Unmarks k) :
    wp anyStop e (fileClose k) (fun _ => Guarded root 0) fs := by
  unfold fileClose
  apply wp_bind
  apply wp_slotInode
  intro p hp
  obtain ⟨t', ht'⟩ : ∃ t', t' = fun j =>
      if j = k then { fs.fileTable k with fdInode := none } else fs.fileTable j := ⟨_, rfl⟩
  have hheld : held root fs.fileTable = held root t' + Pi.single p 1 := by
    have hset := held_set root hk fs.fileTable { fs.fileTable k with fdInode := none }
    rw [holds_of_some hp, holds_of_none rfl, add_zero, ← ht'] at hset
    exact hset.symm
  have hwrites : ∀ j q, WritesTo t' j q ↔ j ≠ k ∧ WritesTo fs.fileTable j q := by
    intro j q
    by_cases hj : j = k
    · simp [WritesTo, ht', hj]
    · rw [ht', writesTo_set_ne hj]
      simp [hj]
  -- the slot that is closed was the only one that could write
  have hnone : ∀ j, ¬WritesTo t' j p := by
    intro j hj
    obtain ⟨hjk, hj⟩ := (hwrites j p).mp hj
    cases hw : writes (fs.fileTable k).fdFlag with
    | true => exact hjk (h.alone j k p hj ⟨hk, hp, hw⟩)
    | false => exact hc ⟨p, hp, hw, j, hj⟩
  apply wp_onVol_bind
  rw [wp_modifyInode]
  have hmarked : SameOpen fs.vol (fs.vol.setInode p fun i => { i with writeDeny := false }) :=
    sameOpen_setInode fun _ => rfl
  have htallied := h.tallied.same hmarked
  rw [hheld, add_zero] at htallied
  apply wp_onVol_call (wp_and (wp_inodeClose htallied) (keeps_inodeClose (T := SameDeny) p e _))
  rintro _ w ⟨hw, hd⟩
  have hend : ∀ f : Fs, f.vol = w → f.fileTable = t' → Guarded root 0 f := by
    intro f hvol htable
    constructor
    · rw [hvol, htable, add_zero]
      exact hw
    · intro j j' q hj hj'
      rw [htable] at hj hj'
      exact h.alone j j' q ((hwrites j q).mp hj).2 ((hwrites j' q).mp hj').2
    · intro q hq
      rw [htable] at hq ⊢
      have hold : 0 < held root fs.fileTable q := by
        rw [hheld, Pi.add_apply]
        omega
      have hdeny : (w.inodes q).writeDeny =
          ((fs.vol.setInode p fun i => { i with writeDeny := false }).inodes q).writeDeny :=
        hd.writeDeny q (h.lt hold)
      rw [hvol, hdeny]
      by_cases hqp : q = p
      · subst hqp
        simp [hnone]
      · have hiff := h.deny q hold
        simp only [Volume.setInode_inodes, if_neg hqp, hiff, hwrites]
        constructor
        · rintro ⟨j, hj⟩
          have hjk : j ≠ k := by
            rintro rfl
            exact hqp (Option.some.inj (hj.2.1.symm.trans hp))
          exact ⟨j, hjk, hj⟩
        · rintro ⟨j, -, hj⟩
          exact ⟨j, hj⟩
  simp only [wp_get_bind, wp_setFile_bind, wp_pure]
  exact hend _ rfl ht'.symm

theorem wp_sysClose_guarded {fd : ℤ} (h : Guarded root 0 fs)
    (hc : ∀ k : ℕ, 2 < fd → fs.fdTable fd.toNat = k → ¬fs.Unmarks k) :
    wp anyStop e (sysClose fd) (fun _ => Guarded root 0) fs := by
  unfold sysClose
  apply wp_ite
  · intro hfd
    apply wp_bind
    apply wp_fdLocalToGlobal
    intro k hk hlt
    apply wp_call (wp_fileClose_guarded h hlt (hc k hfd hk))
    intro r f hf
    rw [wp_modify_bind, wp_pure]
    exact ⟨hf.tallied, hf.alone, hf.deny⟩
  · exact fun _ => wp_pure.mpr h

/-- The call gets as far as to open `r` or to create it. -/
structure Reaches (e : Heap) (path : List UInt8) (flags : ℕ) (fs : Fs)
    (r : Option ℕ × PathSearchRecord) (w : Volume) : Prop where
  last : path.getLast? ≠ some slash
  slot : freeSlotFrom fs.fileTable 29 3 ≠ none
  found : Returns e (searchFile path) fs.vol r w
  file : r.2.fileType ≠ FileType.directory
  depth : ∃ depth, Returns e (pathDepthCnt path) fs.vol depth fs.vol ∧
    Returns e (pathDepthCnt r.2.searchPath) w depth w
  create : r.1 = none ↔ flags &&& OFlags.creat ≠ 0

/-- The call creates a file for writing, or opens one that is marked although nobody writes to
it. -/
def Fs.Mistakes (e : Heap) (path : List UInt8) (flags : ℕ) (fs : Fs) : Prop :=
  ∃ r w, Reaches e path flags fs r w ∧
    match r.1 with
    | none => writes flags = true ∧ bitMapScan w.inodeBitMap 1 ≠ none
    | some ino => writes flags = false ∧ (fs.setVol w).Stale ino

theorem wp_sysOpen_guarded {path : List UInt8} {flags : ℕ} (h : Guarded root 0 fs)
    (hc : ¬fs.Mistakes e path flags) :
    wp anyStop e (sysOpen path flags) (fun _ => Guarded root 0) fs := by
  have hclose : ∀ (dir : Dir) (r : ℤ) (f : Fs), Guarded root dir.handles f → wp anyStop e (do
      onVol (dirClose dir)
      return r) (fun _ => Guarded root 0) f := by
    intro dir r f hf
    apply wp_onVol_call (wp_and (wp_dirClose (n := held root f.fileTable + 0)
      (by simpa using hf.tallied)) (keeps_dirClose (T := SameDeny) dir e f.vol))
    rintro _ w ⟨hw, hd⟩
    exact wp_pure.mpr (hf.same (.refl _) hw hd)
  unfold sysOpen
  apply wp_ite
  · exact fun _ => wp_pure.mpr h
  intro hlast
  rw [wp_assert_bind]
  refine ⟨fun _ => ?_, fun _ => trivial⟩
  apply wp_onVol_call (wp_and_returns (keeps_pathDepthCnt (R := Eq) path e fs.vol))
  rintro depth _ ⟨rfl, hdepth⟩
  apply wp_onVol_call (wp_and_returns (wp_and (wp_searchFile h.tallied)
    (keeps_searchFile (T := SameDeny) path e fs.vol)))
  rintro ⟨ino, record⟩ w ⟨⟨hw, hd⟩, hret⟩
  have h₁ : Guarded root record.parentDir.handles (fs.setVol w) :=
    h.same (.refl _) (by simpa using hw) hd
  dsimp only
  apply wp_ite
  · exact fun _ => hclose _ _ _ h₁
  intro hfile
  apply wp_onVol_call (wp_and_returns (keeps_pathDepthCnt (R := Eq) record.searchPath e w))
  rintro depth' _ ⟨rfl, hdepth'⟩
  apply wp_ite
  · exact fun _ => hclose _ _ _ h₁
  intro heq
  obtain rfl : depth = depth' := not_not.mp heq
  apply wp_onVol_call (keeps_lastName (R := Eq) record.searchPath e w)
  rintro fileName _ rfl
  have hreach : (ino = none ↔ flags &&& OFlags.creat ≠ 0) →
      freeSlotFrom fs.fileTable 29 3 ≠ none → Reaches e path flags fs (ino, record) w :=
    fun hcreate hslot => ⟨hlast, hslot, hret, hfile, ⟨depth, hdepth, hdepth'⟩, hcreate⟩
  cases ino with
  | none =>
    apply wp_ite
    · exact fun _ => hclose _ _ _ h₁
    · intro hcreate
      apply wp_call (wp_fileCreate_guarded h₁ ?_)
      · exact fun r f hf => hclose _ _ _ hf
      · intro hslot hscan
        by_contra hw
        exact hc ⟨_, w, hreach (by simpa using hcreate) hslot, by simpa using hw, hscan⟩
  | some ino =>
    apply wp_ite
    · exact fun _ => hclose _ _ _ h₁
    · intro hcreate
      apply wp_call (wp_fileOpen_guarded h₁ ?_)
      · exact fun r f hf => hclose _ _ _ hf
      · intro hslot
        by_contra hw
        push Not at hw
        exact hc ⟨_, w, hreach (by simpa using hcreate) hslot, by simpa using hw.1, hw.2⟩

end Calls

namespace FileUsers

variable {s s' : FileUsers}

section Law

/-- The calls that open and close files. -/
def OpensOrCloses : FileUsers → ℕ → Heap → FsCall → Prop
  | _, _, _, .open _ _ => True
  | _, _, _, .close _ => True
  | _, _, _, _ => False

/-- The call opens or closes a file and leaves the marks right. -/
def Marks (s : FileUsers) (q : ℕ) (e : Heap) : FsCall → Prop
  | .open pathName flags => ¬(s.fs q).Mistakes e pathName flags
  | .close fd => ∀ k : ℕ, 2 < fd → s.fdTable q fd.toNat = k → ¬(s.fs q).Unmarks k
  | _ => False

/-- No slot is in use, `rootDir` is the only handle, and its inode is not marked. -/
structure Unused (s : FileUsers) : Prop where
  free : ∀ k < 32, (s.fileTable k).fdInode = none
  root : Tallied s.vol.rootInode s.vol (Pi.single s.vol.rootInode 1)
  deny : (s.vol.inodes s.vol.rootInode).writeDeny = false

/-- No inode has two writers, and an inode that is open is marked if and only if it has one. -/
structure OneWriter (s : FileUsers) : Prop where
  alone : ∀ k k' p, WritesTo s.fileTable k p → WritesTo s.fileTable k' p → k = k'
  listed : ∀ k < 32, ∀ p, (s.fileTable k).fdInode = some p → p ∈ s.vol.openInodes
  deny : ∀ p ∈ s.vol.openInodes,
    ((s.vol.inodes p).writeDeny = true ↔ ∃ k, WritesTo s.fileTable k p)

theorem Unused.guarded (h : Unused s) (q : ℕ) : Guarded s.vol.rootInode 0 (s.fs q) := by
  have hnone : ∀ k p, ¬WritesTo s.fileTable k p := by
    rintro k p ⟨hk, hp, -⟩
    rw [h.free k hk] at hp
    cases hp
  have hheld : held s.vol.rootInode s.fileTable = Pi.single s.vol.rootInode 1 := by
    unfold held
    rw [Finset.sum_eq_zero fun k hk => holds_of_none (h.free k (Finset.mem_range.mp hk)), zero_add]
  constructor
  · change Tallied s.vol.rootInode s.vol (held s.vol.rootInode s.fileTable + 0)
    rw [hheld, add_zero]
    exact h.root
  · exact fun k _ p hk _ => absurd hk (hnone k p)
  · intro p hp
    change 0 < held s.vol.rootInode s.fileTable p at hp
    rw [hheld] at hp
    have hroot : p = s.vol.rootInode := by
      by_contra hne
      simp [hne] at hp
    subst hroot
    change (s.vol.inodes s.vol.rootInode).writeDeny = true ↔ ∃ k, WritesTo s.fileTable k _
    simp [h.deny, hnone]

theorem guarded_setFs {f : Fs} (h : Guarded root 0 f) (q r : ℕ) :
    Guarded root 0 ((s.setFs q f).fs r) := ⟨h.tallied, h.alone, h.deny⟩

theorem guarded_step (h : ∀ q, Guarded root 0 (s.fs q)) (hst : Step Marks s s') (r : ℕ) :
    Guarded root 0 (s'.fs r) := by
  cases hst with
  | «open» _ hc hret => exact guarded_setFs (hret.of_wp (wp_sysOpen_guarded (h _) hc)) _ _
  | close _ hc hret => exact guarded_setFs (hret.of_wp (wp_sysClose_guarded (h _) hc)) _ _
  | openDir _ hc => exact hc.elim
  | closeDir _ hc => exact hc.elim
  | mkdir _ hc => exact hc.elim
  | rmdir _ hc => exact hc.elim
  | unlink _ hc => exact hc.elim
  | stat _ hc => exact hc.elim
  | chDir _ hc => exact hc.elim

theorem oneWriter_of_guarded (h : Guarded root 0 (s.fs q)) : OneWriter s := by
  have hmem : ∀ p, p ∈ s.vol.openInodes ↔ 0 < held root s.fileTable p := by
    intro p
    have hp := h.tallied.mem p
    rwa [add_zero] at hp
  constructor
  · exact h.alone
  · exact fun k hk p hp => (hmem p).mpr (held_pos hk hp)
  · exact fun p hp => h.deny p ((hmem p).mp hp)

/-- In every state of a run. -/
theorem writer_law (h : Unused s) (hrun : Run (Step Marks) s s') : OneWriter s' :=
  oneWriter_of_guarded (hrun.invariant (I := fun s' => ∀ q, Guarded s.vol.rootInode 0 (s'.fs q))
    (fun _ _ hI hst => guarded_step hI hst) h.guarded 0)

theorem startUsers_unused : Unused startUsers :=
  ⟨fun _ _ => rfl, startUsers_start.root, by decide⟩

/-- Process 1 has created `/a` and may read it. -/
def readUsers : FileUsers :=
  startUsers.setFs 1 (sysOpen [47, 97] 4 sampleHeap 0 (startUsers.fs 1)).state

/-- Now it may also write it, through a second descriptor. -/
def writeUsers : FileUsers :=
  readUsers.setFs 1 (sysOpen [47, 97] 2 sampleHeap 0 (readUsers.fs 1)).state

theorem writer_law_sample : Run (Step Marks) startUsers writeUsers ∧ OneWriter writeUsers ∧
    WritesTo writeUsers.fileTable 4 1 ∧ (writeUsers.vol.inodes 1).writeDeny = true := by
  have hread : Step Marks startUsers readUsers := by
    apply Step.open (e := sampleHeap) (q := 1) (r := 3) (by decide) ?_
      (.of_value (by decide +kernel))
    rintro ⟨⟨_ | ino, record⟩, w, hreach, hmatch⟩
    · exact absurd hmatch.1 (by decide)
    · exact absurd (hreach.create.mpr (by decide)) (by simp)
  have hwrite : Step Marks readUsers writeUsers := by
    apply Step.open (e := sampleHeap) (q := 1) (r := 4) (by decide) ?_
      (.of_value (by decide +kernel))
    rintro ⟨⟨_ | ino, record⟩, w, hreach, hmatch⟩
    · exact absurd (hreach.create.mp rfl) (by decide)
    · exact absurd hmatch.1 (by decide)
  have hrun : Run (Step Marks) startUsers writeUsers :=
    (Relation.ReflTransGen.single hread).tail hwrite
  exact ⟨hrun, writer_law startUsers_unused hrun, ⟨by decide, by decide +kernel, by decide +kernel⟩,
    by decide +kernel⟩

/-- The file that is created for reading and writing is not marked. -/
theorem writer_law_fails : Unused startUsers ∧
    Run (Step OpensOrCloses) startUsers openUsers ∧ WritesTo openUsers.fileTable 3 1 ∧
      (openUsers.vol.inodes 1).writeDeny = false ∧ ¬OneWriter openUsers := by
  have hopen : Step OpensOrCloses startUsers openUsers :=
    .open (e := sampleHeap) (q := 1) (r := 3) (by decide) trivial (.of_value (by decide +kernel))
  have hwrites : WritesTo openUsers.fileTable 3 1 :=
    ⟨by decide, by decide +kernel, by decide +kernel⟩
  have hdeny : (openUsers.vol.inodes 1).writeDeny = false := by decide +kernel
  refine ⟨startUsers_unused, .single hopen, hwrites, hdeny, fun h => ?_⟩
  have hyes := (h.deny 1 (h.listed 3 hwrites.1 1 hwrites.2.1)).mpr ⟨3, hwrites⟩
  rw [hdeny] at hyes
  cases hyes

end Law

end FileUsers

end Gogoos
