import Gogoos.Fs.FileWrite
import Gogoos.Fs.DirectoryRun

/-!
# File contents

A file is the list of its bytes. `Files` says that the open files in the slots `S` hold the
lists `content`, each in blocks of its own; `fileWrite` appends its buffer to one of them,
`fileRead` returns a part of one, and neither touches another.
-/

namespace Gogoos

open Program

variable {u v w : Volume} {e : Heap} {p fd : ℕ} {sync : ℕ → VolM Unit} {c : List UInt8}
  {S : Finset ℕ} {fs fs' : Fs} {content : ℕ → List UInt8}

/-- The inode holds the bytes `c`, and the block of the next byte is there. -/
structure FileOk (v : Volume) (i : Inode) (c : List UInt8) : Prop where
  size : i.size = c.length
  lt : c.length < 71680
  shape : (c = [] ∧ ∀ k ≤ 12, i.block k = 0) ∨ Shaped v i (c.length / 512)
  stored : Stored v i c
  below : ∀ k, v.ref i k < maxLba

/-- The inode of a slot; 0 for a free slot. -/
def Fs.inodeAt (fs : Fs) (fd : ℕ) : ℕ := (fs.fileTable fd).fdInode.getD 0

/-- The references of the files in the slots `S`. -/
def Fs.refs (fs : Fs) (S : Finset ℕ) (y : ℕ × ℕ) : ℕ :=
  if y.1 ∈ S then fs.vol.ref (fs.vol.inodes (fs.inodeAt y.1)) y.2 else 0

/-- The slots `S` are different files, with the given contents. -/
structure Files (u : Volume) (S : Finset ℕ) (fs : Fs) (content : ℕ → List UInt8) : Prop where
  within : Within u fs.vol
  inode : ∀ fd ∈ S, (fs.fileTable fd).fdInode ≠ none
  inj : ∀ fd ∈ S, ∀ fd' ∈ S, fs.inodeAt fd = fs.inodeAt fd' → fd = fd'
  ino : ∀ fd ∈ S, (fs.vol.inodes (fs.inodeAt fd)).ino < 4096
  ok : ∀ fd ∈ S, FileOk fs.vol (fs.vol.inodes (fs.inodeAt fd)) (content fd)
  owns : Owns fs.vol.superBlock.dataLbaStart fs.vol.blockBitMap.bits fs.vol.blockBitMap.bit
    (fs.refs S)

section Frame

/-- One file grew to `c`, in blocks it had and blocks that were free. -/
structure Appended (u v w : Volume) (p fd : ℕ) (c : List UInt8) : Prop where
  within : Within u w
  frame : WriteFrame p v w
  ok : FileOk w (w.inodes p) c
  disk : ∀ s, v.superBlock.dataLbaStart ≤ s → (∀ k, s ≠ w.ref (w.inodes p) k) →
    w.disk s = v.disk s
  owns : ∀ R : ℕ × ℕ → ℕ, (∀ k, R (fd, k) = v.ref (v.inodes p) k) →
    Owns v.superBlock.dataLbaStart v.blockBitMap.bits v.blockBitMap.bit R →
    Owns v.superBlock.dataLbaStart v.blockBitMap.bits w.blockBitMap.bit
      (fun y => if y.1 = fd then w.ref (w.inodes p) y.2 else R y)

theorem FileOk.congr {i : Inode} (h : FileOk v i c) (hd : ∀ k, v.ref i k ≠ 0 →
    w.disk (v.ref i k) = v.disk (v.ref i k)) : FileOk w i c := by
  have href : w.ref i = v.ref i := by
    apply ref_congr fun _ _ => rfl
    intro h12
    have := hd 140 (by rwa [ref_table])
    rwa [ref_table] at this
  have hblock : ∀ k < 140, w.blockAt i k = v.blockAt i k := by
    intro k hk
    rw [← ref_of_lt hk, ← ref_of_lt hk, href]
  refine ⟨h.size, h.lt, h.shape.imp id fun hs => ?_, fun j hj => ?_, fun k => ?_⟩
  · exact ⟨hs.lt, fun k hk => by rw [hblock k hk]; exact hs.block k hk, hs.table⟩
  · have hlt := h.lt
    have hne : v.ref i (j / 512) ≠ 0 := by
      rcases h.shape with ⟨hnil, -⟩ | hs
      · simp [hnil] at hj
      · rw [ref_of_lt (by omega)]
        exact (hs.block _ (by omega)).mpr (by omega)
    have hdj := hd _ hne
    rw [ref_of_lt (by omega)] at hdj
    rw [hblock _ (by omega), hdj]
    exact h.stored j hj
  · rw [href]
    exact h.below k

/-- The other files keep their contents. -/
theorem Files.append (h : Files u S fs content) (hfd : fd ∈ S)
    (ha : Appended u fs.vol w (fs.inodeAt fd) fd c) (hvol : fs'.vol = w)
    (hslot : ∀ x, (fs'.fileTable x).fdInode = (fs.fileTable x).fdInode) :
    Files u S fs' (Function.update content fd c) := by
  have hat : ∀ x, fs'.inodeAt x = fs.inodeAt x := fun x => by simp [Fs.inodeAt, hslot]
  have hother : ∀ x ∈ S, x ≠ fd → w.inodes (fs.inodeAt x) = fs.vol.inodes (fs.inodeAt x) :=
    fun x hx hne => ha.frame.inodes _ fun heq => hne (h.inj x hx fd hfd heq)
  have hown := ha.owns (fs.refs S) (fun k => by simp [Fs.refs, hfd]) h.owns
  have hdisk : ∀ x ∈ S, x ≠ fd → ∀ k, fs.refs S (x, k) ≠ 0 →
      w.disk (fs.refs S (x, k)) = fs.vol.disk (fs.refs S (x, k)) := by
    intro x hx hne k hk
    refine ha.disk _ (h.owns.base_le hk) fun j heq => ?_
    have := hown.inj (x, k) (fd, j) (by simpa [hne] using heq) (by simpa [hne] using hk)
    exact hne (congrArg Prod.fst this)
  have hok : ∀ x ∈ S, x ≠ fd → FileOk w (fs.vol.inodes (fs.inodeAt x)) (content x) := by
    intro x hx hne
    apply (h.ok x hx).congr
    intro k hk
    have := hdisk x hx hne k (by simpa [Fs.refs, hx] using hk)
    simpa [Fs.refs, hx] using this
  refine ⟨by rw [hvol]; exact ha.within, fun x hx => by rw [hslot]; exact h.inode x hx,
    fun x hx y hy heq => h.inj x hx y hy (by rwa [hat, hat] at heq), fun x hx => ?_,
    fun x hx => ?_, ?_⟩
  · rw [hvol, hat]
    by_cases hne : x = fd
    · rw [hne, ha.frame.ino]
      exact h.ino fd hfd
    · rw [hother x hx hne]
      exact h.ino x hx
  · rw [hvol, hat]
    by_cases hne : x = fd
    · rw [hne, Function.update_self]
      exact ha.ok
    · rw [hother x hx hne, Function.update_of_ne hne]
      exact hok x hx hne
  · rw [hvol, ha.frame.superBlock, ha.frame.bits]
    convert hown using 1
    funext ⟨x, k⟩
    by_cases hne : x = fd
    · subst hne
      simp [Fs.refs, hfd, hvol, hat]
    · by_cases hx : x ∈ S
      · have href : w.ref (fs.vol.inodes (fs.inodeAt x)) = fs.vol.ref (fs.vol.inodes (fs.inodeAt x)) := by
          apply ref_congr fun _ _ => rfl
          intro h12
          have := hdisk x hx hne 140 (by simpa [Fs.refs, hx] using h12)
          simpa [Fs.refs, hx] using this
        simp [Fs.refs, hx, hne, hvol, hat, hother x hx hne, href]
      · simp [Fs.refs, hx, hne]

end Frame

section Phases

/-- The block of the next byte is there. -/
structure Started (u v w : Volume) (p fd : ℕ) (c : List UInt8) : Prop where
  within : Within u w
  frame : WriteFrame p v w
  size : (w.inodes p).size = (v.inodes p).size
  shaped : Shaped w (w.inodes p) (c.length / 512)
  stored : Stored w (w.inodes p) c
  below : ∀ k, w.ref (w.inodes p) k < maxLba
  disk : ∀ s, v.superBlock.dataLbaStart ≤ s → w.disk s = v.disk s
  owns : ∀ R : ℕ × ℕ → ℕ, (∀ k, R (fd, k) = v.ref (v.inodes p) k) →
    Owns v.superBlock.dataLbaStart v.blockBitMap.bits v.blockBitMap.bit R →
    Owns v.superBlock.dataLbaStart v.blockBitMap.bits w.blockBitMap.bit
      (fun y => if y.1 = fd then w.ref (w.inodes p) y.2 else R y)

theorem started_there (hu : Within u v) (h : FileOk v (v.inodes p) c)
    (h0 : (v.inodes p).block 0 ≠ 0) : Started u v v p fd c := by
  have hshape : Shaped v (v.inodes p) (c.length / 512) := by
    rcases h.shape with ⟨-, hz⟩ | hs
    · exact absurd (hz 0 (by norm_num)) h0
    · exact hs
  refine ⟨hu, .refl p v, rfl, hshape, h.stored, h.below, fun _ _ => rfl, fun R hR hown => ?_⟩
  have hfun : (fun y : ℕ × ℕ => if y.1 = fd then v.ref (v.inodes p) y.2 else R y) = R := by
    funext ⟨x, k⟩
    split_ifs with hx
    · obtain rfl : x = fd := hx
      exact (hR k).symm
    · rfl
  rwa [hfun]

theorem started_first {all all' : ℕ → ℕ} (hu : Within u v) (hfree : FreeInside u)
    (h : FileOk v (v.inodes p) c) (h0 : (v.inodes p).block 0 = 0)
    (ha : Alloc v w p fd 0 1 all all') : Started u v w p fd c := by
  obtain ⟨hnil, hz⟩ : c = [] ∧ ∀ k ≤ 12, (v.inodes p).block k = 0 := by
    rcases h.shape with hz | hs
    · exact hz
    · have := (hs.block 0 (by norm_num)).mpr (Nat.zero_le _)
      rw [blockAt_direct v _ (by norm_num)] at this
      exact absurd h0 this
  have hnew := ha.new_lt hu hfree (j := 0) le_rfl (by norm_num)
  have hblock : ∀ k ≤ 12, (w.inodes p).block k = if k = 0 then all' 0 else 0 := by
    intro k hk
    rw [ha.block k hk, hz k hk]
    by_cases hk0 : k = 0
    · simp [hk0]
    · rw [if_neg (by omega), if_neg hk0]
  have h12 : (w.inodes p).block 12 = 0 := by rw [hblock 12 le_rfl, if_neg (by norm_num)]
  have href : ∀ k, w.ref (w.inodes p) k = if k = 0 then all' 0 else 0 := by
    intro k
    rw [ref_noTable h12]
    split_ifs with hk hk0 hk0
    · rw [hblock k hk.le, if_pos hk0]
    · rw [hblock k hk.le, if_neg hk0]
    · omega
    · rfl
  have hvref : ∀ k, v.ref (v.inodes p) k = 0 := by
    intro k
    rw [ref_noTable (hz 12 le_rfl)]
    split_ifs with hk
    · exact hz k hk.le
    · rfl
  refine ⟨ha.within hu, ha.frame, ha.size, ⟨by simp [hnil], fun k hk => ?_, ?_⟩, ?_, fun k => ?_,
    ha.disk, fun R hR hown => ?_⟩
  · rw [← ref_of_lt hk, href k, hnil]
    by_cases hk0 : k = 0
    · simp [hk0, hnew.1]
    · simp [hk0]
  · simp [h12, hnil]
  · intro j hj
    simp [hnil] at hj
  · rw [href k]
    split_ifs
    · exact hnew.2
    · decide
  · convert ha.owns R hown using 1
    funext ⟨x, k⟩
    by_cases hx : x = fd
    · subst hx
      by_cases hk : k = 0
      · simp [hk, href]
      · simp [hk, href, hR, hvref]
    · simp [hx]

theorem Prepared.distinct {has will : ℕ} {all : ℕ → ℕ} {R : ℕ × ℕ → ℕ}
    (h : Prepared u v w p fd has will all) (hR : ∀ k, R (fd, k) = v.ref (v.inodes p) k)
    (hown : Owns v.superBlock.dataLbaStart v.blockBitMap.bits v.blockBitMap.bit R) :
    Distinct w (w.inodes p) will := by
  have hinj := (h.owns R hR hown).inj
  have hlt := h.shaped.lt
  have hpair : ∀ k k', k ≤ will → w.ref (w.inodes p) k = w.ref (w.inodes p) k' → k = k' := by
    intro k k' hk heq
    have hne : w.ref (w.inodes p) k ≠ 0 := by
      rw [ref_of_lt (by omega)]
      exact (h.shaped.block k (by omega)).mpr hk
    have := hinj (fd, k) (fd, k') (by simpa using heq) (by simpa using hne)
    exact congrArg Prod.snd this
  refine ⟨fun k k' hk hk' heq => ?_, fun k hk heq => ?_, fun k hk => ?_⟩
  · apply hpair k k' hk
    rw [ref_of_lt (by omega), ref_of_lt (by omega), heq]
  · have := hpair k 140 hk (by rw [ref_of_lt (by omega), ref_table, heq])
    omega
  · rw [← ref_of_lt (by omega)]
    exact h.below k

variable {v₁ v₂ v₃ : Volume} {all : ℕ → ℕ} {buf : List UInt8} {R : ℕ × ℕ → ℕ}

/-- The old bytes are where they were after the blocks were prepared. -/
theorem Started.stored_prepared (h₁ : Started u v v₁ p fd c)
    (h₂ : Prepared u v₁ v₂ p fd (c.length / 512) ((c ++ buf).length / 512) all)
    (hdis : Distinct v₂ (v₂.inodes p) ((c ++ buf).length / 512))
    (hbase : ∀ k, v₂.ref (v₂.inodes p) k ≠ 0 →
      v₁.superBlock.dataLbaStart ≤ v₂.ref (v₂.inodes p) k) : Stored v₂ (v₂.inodes p) c := by
  intro j hj
  have hlt := h₂.shaped.lt
  have hle : j / 512 ≤ (c ++ buf).length / 512 := by
    rw [List.length_append]
    omega
  have hb : v₂.blockAt (v₂.inodes p) (j / 512) ≠ 0 := (h₂.shaped.block _ (by omega)).mpr hle
  rw [h₂.disk _ _ (hdis.table _ hle), h₂.keep _ (by omega)]
  · exact h₁.stored j hj
  · rw [← ref_of_lt (by omega)] at hb ⊢
    exact hbase _ hb

theorem appended_of (hlen : (c ++ buf).length < 71680) (hino : (v.inodes p).ino < 4096)
    (h₁ : Started u v v₁ p fd c)
    (h₂ : Prepared u v₁ v₂ p fd (c.length / 512) ((c ++ buf).length / 512) all)
    (h₃ : Written v₂ v₃ p (c.length / 512) ((c ++ buf).length / 512) (c ++ buf))
    (hdis : Distinct v₂ (v₂.inodes p) ((c ++ buf).length / 512))
    (hbase : ∀ k, v₂.ref (v₂.inodes p) k ≠ 0 →
      v.superBlock.dataLbaStart ≤ v₂.ref (v₂.inodes p) k) :
    Appended u v (v₃.storeInode (v₃.inodes p)) p fd (c ++ buf) := by
  set w := v₃.storeInode (v₃.inodes p) with hw
  have hsb₃ : v₃.superBlock = v₂.superBlock := by rw [h₃.same]
  have hbm : w.blockBitMap = v₂.blockBitMap := by
    change v₃.blockBitMap = _
    rw [h₃.same]
  have hframe₃ : WriteFrame p v₂ w := by
    refine ⟨hsb₃, ?_, ?_, by rw [hbm], ?_, fun q hq => h₃.inodes q hq, ?_⟩
    · change v₃.lbaStart = _
      rw [h₃.same]
    · change v₃.secCnt = _
      rw [h₃.same]
    · change v₃.inodeBitMap = _
      rw [h₃.same]
    · change (v₃.inodes p).ino = _
      rw [h₃.inode]
      rfl
  have hframe : WriteFrame p v w := (h₁.frame.trans h₂.frame).trans hframe₃
  have hlayout₃ : Layout v₃ :=
    hframe₃.layout h₂.within.layout |>.congr rfl rfl rfl rfl rfl
  have hsup : w.superBlock.dataLbaStart = v.superBlock.dataLbaStart := by rw [hframe.superBlock]
  have hino₃ : (v₃.inodes p).ino < 4096 := by
    have : (v₃.inodes p).ino = (v.inodes p).ino := hframe.ino
    omega
  have hdisk₃ : ∀ s, v.superBlock.dataLbaStart ≤ s → w.disk s = v₃.disk s := by
    intro s hs
    apply storeInode_disk hlayout₃ hino₃
    rwa [← hsup] at hs
  have hinode : w.inodes p = (v₂.inodes p).setSize (c ++ buf).length := h₃.inode
  have href : w.ref (w.inodes p) = v₂.ref (v₂.inodes p) := by
    apply ref_congr fun k _ => by rw [hinode]; rfl
    intro h12
    have hge := hbase 140 (by rwa [ref_table])
    rw [ref_table] at hge
    rw [hdisk₃ _ hge]
    exact h₃.disk _ fun j _ hj => (hdis.table j hj).symm
  have hblock : ∀ k < 140, w.blockAt (w.inodes p) k = v₂.blockAt (v₂.inodes p) k := by
    intro k hk
    rw [← ref_of_lt hk, ← ref_of_lt hk, href]
  have h12 : (w.inodes p).block 12 = (v₂.inodes p).block 12 := by
    rw [← ref_table (v := w), ← ref_table (v := v₂), href]
  have hlt := h₂.shaped.lt
  refine ⟨?_, hframe, ⟨by rw [hinode]; rfl, hlen, Or.inr ?_, fun j hj => ?_, fun k => ?_⟩,
    fun s hs hne => ?_, fun R hR hown => ?_⟩
  · exact ⟨hframe₃.layout h₂.within.layout, hframe₃.superBlock.trans h₂.within.superBlock,
      hframe₃.bits.trans h₂.within.bits, by rw [hbm]; exact h₂.within.mono,
      by rw [hbm]; exact h₂.within.root⟩
  · exact ⟨hlt, fun k hk => by rw [hblock k hk]; exact h₂.shaped.block k hk,
      by rw [h12]; exact h₂.shaped.table⟩
  · have hj512 : j / 512 ≤ (c ++ buf).length / 512 := by omega
    have hb : v₂.ref (v₂.inodes p) (j / 512) ≠ 0 := by
      rw [ref_of_lt (by omega)]
      exact (h₂.shaped.block _ (by omega)).mpr hj512
    have hge := hbase _ hb
    rw [ref_of_lt (by omega)] at hge
    rw [hblock _ (by omega), hdisk₃ _ hge]
    exact h₃.bytes j hj
  · rw [href]
    exact h₂.below k
  · have hne' : ∀ k, s ≠ v₂.ref (v₂.inodes p) k := fun k => by rw [← href]; exact hne k
    have h140 := hne' 140
    rw [ref_table] at h140
    rw [hdisk₃ s hs, h₃.disk s fun j _ hj => ?_, h₂.disk s (by rwa [h₁.frame.superBlock]) h140,
      h₁.disk s hs]
    have := hne' j
    rwa [ref_of_lt (by omega)] at this
  · have hown₁ := h₁.owns R hR hown
    have hsup₁ := h₁.frame.superBlock
    have hbits₁ := h₁.frame.bits
    have hown₂ := h₂.owns _ (fun k => if_pos rfl) (by rwa [hsup₁, hbits₁])
    rw [hsup₁, hbits₁] at hown₂
    rw [hbm, href]
    convert hown₂ using 1
    funext y
    split_ifs <;> rfl

end Phases

section Write

variable {buf : List UInt8}

/-- The number of free blocks that a write of `count` bytes needs. -/
def writeNeeds (i : Inode) (count : ℕ) : ℕ :=
  (if i.block 0 = 0 then 1 else 0) + blocksNeeded (i.size / 512) ((i.size + count) / 512)

theorem wp_inodeSync_total {i : Inode} {Q : Unit → Volume → Prop} (hl : Layout v)
    (hino : i.ino < 4096) (h : Q () (v.storeInode i)) : wp noStop e (inodeSync i) Q v := by
  have hdata := hl.data_start
  have hle := hl.data_le
  have hlt := hl.data_lt
  have hn : (if 512 - i.ino * 76 % 512 < 76 then 2 else 1) ≤ 2 := by split_ifs <;> omega
  have hn' : 0 < (if 512 - i.ino * 76 % 512 < 76 then 2 else 1) := by split_ifs <;> omega
  unfold inodeSync inodeLocate
  rw [wp_bind_assoc, wp_assert_pos hino]
  simp only [wp_bind_assoc, wp_get_bind, wp_pure_bind, decide_eq_true_eq]
  rw [wp_assert_pos (by omega)]
  apply wp_ideRead_total (by omega) hn' (by omega)
  exact wp_ideWrite_total (by omega) hn' (by omega) h

variable (fd) in
theorem started {Q : Bool → Volume → Prop} (hsync : SyncInside sync u) (hu : Within u v)
    (hfree : FreeInside u) (h : FileOk v (v.inodes p) c)
    (hclear : (v.inodes p).block 0 = 0 → 1 ≤ v.blockBitMap.clearBits)
    (hQ : ∀ w, Started u v w p fd c →
      w.blockBitMap.clearBits + (if (v.inodes p).block 0 = 0 then 1 else 0) =
        v.blockBitMap.clearBits → Q true w) :
    wp noStop e (allocFirstBlock sync p) Q v := by
  apply wp_allocFirstBlock fd hsync hu hclear
  · intro h0
    exact hQ v (started_there hu h h0) (by simp [h0])
  · intro h0 w all' ha
    exact hQ w (started_first hu hfree h h0 ha) (by simpa [h0] using ha.clear)

/-- `fileWrite` appends its buffer to one file and returns its length. -/
theorem wp_fileWriteWith (he : ∀ t, e.sysMalloc t = true) (hsync : SyncInside sync u)
    (hfree : FreeInside u) (h : Files u S fs content) (hfd : fd ∈ S)
    (htotal : (content fd ++ buf).length < 71680)
    (hclear : writeNeeds (fs.vol.inodes (fs.inodeAt fd)) buf.length ≤
      fs.vol.blockBitMap.clearBits) :
    wp noStop e (fileWriteWith sync fd buf) (fun r fs' => r = buf.length ∧
      Files u S fs' (Function.update content fd (content fd ++ buf)) ∧
      (∀ x, x ≠ fd → fs'.fileTable x = fs.fileTable x) ∧ fs'.fdTable = fs.fdTable) fs := by
  set p := fs.inodeAt fd with hp
  set c := content fd with hc
  have hok : FileOk fs.vol (fs.vol.inodes p) c := h.ok fd hfd
  have hinode : (fs.fileTable fd).fdInode = some p := by
    obtain ⟨q, hq⟩ := Option.ne_none_iff_exists'.mp (h.inode fd hfd)
    rw [hp, Fs.inodeAt, hq]
    rfl
  have hsize := hok.size
  have hlen : (c ++ buf).length = c.length + buf.length := List.length_append
  rw [writeNeeds, hsize, ← hlen] at hclear
  unfold fileWriteWith
  apply wp_slotInode_bind hinode
  rw [wp_get_bind]
  simp only [hsize, ← hlen, Nat.mod_eq_of_lt (show (c ++ buf).length < 2 ^ 32 by omega)]
  rw [if_neg (by omega)]
  apply wp_onVol_sysMalloc_ok he
  simp only [Bool.not_true, Bool.false_eq_true, if_false]
  apply wp_onVol_sysMalloc_ok he
  simp only [Bool.not_true, Bool.false_eq_true, if_false]
  apply wp_onVol_bind
  apply started fd hsync h.within hfree hok
  · intro h0
    rw [if_pos h0] at hclear
    omega
  intro v₁ h₁ hc₁
  simp only [Bool.not_true, Bool.false_eq_true, if_false]
  rw [wp_assert_pos (by omega)]
  apply wp_onVol_bind
  apply wp_prepareBlocks fd hsync h₁.within hfree (by omega) (by omega) h₁.shaped h₁.below
  · omega
  intro v₂ all h₂
  have hR : ∀ k, fs.refs S (fd, k) = fs.vol.ref (fs.vol.inodes p) k :=
    fun k => by simp [Fs.refs, hfd, hp]
  have hown₁ := h₁.owns (fs.refs S) hR h.owns
  rw [← h₁.frame.superBlock, ← h₁.frame.bits] at hown₁
  have hdis := h₂.distinct (fun k => if_pos rfl) hown₁
  have hown₂ := h₂.owns _ (fun k => if_pos rfl) hown₁
  have hbase : ∀ k, v₂.ref (v₂.inodes p) k ≠ 0 →
      v₁.superBlock.dataLbaStart ≤ v₂.ref (v₂.inodes p) k := by
    intro k hk
    have := hown₂.base_le (x := (fd, k)) (by simpa using hk)
    simpa using this
  apply wp_onVol_bind
  apply wp_writeChunks (m := (c ++ buf).length / 512) buf.length buf c true v₂
  · exact h₂.size.trans (h₁.size.trans hsize)
  · exact le_rfl
  · rw [← hlen]
  · exact h₂.shaped.lt
  · exact hdis
  · exact h₂.all
  · exact h₁.stored_prepared h₂ hdis hbase
  · exact fun h => absurd h (by simp)
  intro v₃ h₃
  rw [h₁.frame.superBlock] at hbase
  have happ := appended_of htotal (h.ino fd hfd) h₁ h₂ h₃ hdis hbase
  have hlayout₃ : Layout v₃ := happ.within.layout.congr rfl rfl rfl rfl rfl
  have hino₃ : (v₃.inodes p).ino < 4096 := by
    have hsame : (v₃.inodes p).ino = (fs.vol.inodes p).ino := happ.frame.ino
    rw [hsame]
    exact h.ino fd hfd
  rw [wp_get_bind, wp_setFile_bind]
  apply wp_onVol_bind
  apply wp_inodeSync_total hlayout₃ hino₃
  rw [wp_pure]
  refine ⟨rfl, h.append hfd happ rfl fun x => ?_, fun x hx => ?_, rfl⟩
  · by_cases hx : x = fd
    · simp [hx]
    · simp [hx]
  · simp [hx]

end Write

section Read

/-- The `n` bytes of the file from position `pos` on. -/
def part (c : List UInt8) (pos n : ℕ) : List UInt8 := (c.drop pos).take n

theorem part_append (c : List UInt8) (pos n m : ℕ) :
    part c pos n ++ part c (pos + n) m = part c pos (n + m) := by
  unfold part
  rw [List.take_add, List.drop_drop]

theorem part_eq_map (c : List UInt8) {pos n : ℕ} (h : pos + n ≤ c.length) :
    part c pos n = (List.range n).map fun k => c.getD (pos + k) 0 := by
  apply List.ext_getElem
  · simp only [part, List.length_take, List.length_drop, List.length_map, List.length_range]
    omega
  · intro k h1 h2
    simp only [List.length_map, List.length_range] at h2
    have hk : pos + k < c.length := by omega
    simp [part, List.getD_eq_getElem?_getD, hk]

theorem length_part (c : List UInt8) {pos n : ℕ} (h : pos + n ≤ c.length) :
    (part c pos n).length = n := by
  simp only [part, List.length_take, List.length_drop]
  omega

variable {i : Inode} {all : ℕ → ℕ}

/-- Induction on the number of rounds. -/
theorem wp_readChunks (h : FileOk v i c) : ∀ fuel pos n Q,
    n ≤ fuel → pos + n ≤ c.length →
    (∀ k, pos / 512 ≤ k → 512 * k < pos + n → all k = v.blockAt i k) →
    Q (part c pos n) v → wp noStop e (readChunks all fuel pos n) Q v := by
  intro fuel
  induction fuel with
  | zero =>
    intro pos n Q hn _ _ hQ
    obtain rfl : n = 0 := by omega
    unfold readChunks
    rw [wp_pure]
    simpa [part] using hQ
  | succ fuel ih =>
    intro pos n Q hn hle hall hQ
    unfold readChunks
    by_cases hn0 : n = 0
    · rw [if_pos hn0, wp_pure]
      rw [hn0] at hQ
      simpa [part] using hQ
    · rw [if_neg hn0]
      set m := min n (512 - pos % 512) with hm
      have hlt := h.lt
      have hblock := hall (pos / 512) le_rfl (by omega)
      have hbelow := h.below (pos / 512)
      rw [ref_of_lt (by omega)] at hbelow
      simp only [hblock]
      rw [wp_ideRead_bind]
      refine ⟨fun _ => ?_, fun hge => absurd hbelow hge⟩
      have hbytes : (List.range m).map
          (fun k => v.sector (v.blockAt i (pos / 512)) (pos % 512 + k)) = part c pos m := by
        rw [part_eq_map c (by omega)]
        apply List.map_congr_left
        intro k hk
        have hkm := List.mem_range.mp hk
        rw [sector_apply _ _ (by omega), ← h.stored _ (by omega),
          show (pos + k) / 512 = pos / 512 by omega, show (pos + k) % 512 = pos % 512 + k by omega]
      apply wp_bind
      apply ih (pos + m) (n - m) _ (by omega) (by omega)
      · exact fun k hk hk' => hall k (by omega) (by omega)
      · rw [wp_pure, hbytes, part_append, show m + (n - m) = n by omega]
        exact hQ

theorem wp_readBlocks {Q : (ℕ → ℕ) → Volume → Prop} {first last : ℕ} (h : FileOk v i c)
    (hle : first ≤ last) (hlast : last ≤ c.length / 512)
    (hQ : ∀ all, (∀ k, first ≤ k → k ≤ last → all k = v.blockAt i k) → Q all v) :
    wp noStop e (readBlocks i.block first last) Q v := by
  have hlt := h.lt
  unfold readBlocks
  by_cases h12 : last < 12
  · rw [if_pos h12, wp_pure]
    apply hQ
    intro k hk hk'
    rw [if_pos ⟨hk, hk', by omega⟩, blockAt_direct v _ (by omega)]
  · have htable : i.block 12 ≠ 0 := by
      rcases h.shape with ⟨hnil, -⟩ | hs
      · simp only [hnil, List.length_nil] at hlast
        omega
      · exact hs.table.mpr (by omega)
    have htlt := h.below 140
    rw [ref_table] at htlt
    rw [if_neg h12, wp_assert_pos (.inr htable)]
    apply wp_readTable htable htlt
    intro all hall hdirect
    apply hQ
    intro k hk hk'
    by_cases hk12 : k < 12
    · rw [hdirect k hk12, if_pos ⟨hk, hk', hk12⟩, blockAt_direct v _ hk12]
    · exact hall k (by omega) (by omega)

/-- `fileRead` of the file `c` returns the bytes from `fdPos` on, as many as asked for and there, and
moves `fdPos` behind them; it fails exactly when something is asked for at the end of the file. -/
theorem wp_fileRead_ok {count : ℕ} (he : ∀ t, e.sysMalloc t = true)
    (hok : FileOk fs.vol (fs.vol.inodes p) c) (hinode : (fs.fileTable fd).fdInode = some p)
    (hpos : (fs.fileTable fd).fdPos ≤ c.length) (hcount : count ≤ 71680) :
    wp noStop e (fileRead fd count) (fun r fs' =>
      (r = if 0 < count ∧ (fs.fileTable fd).fdPos = c.length then none
        else some (part c (fs.fileTable fd).fdPos count)) ∧
      fs' = fs.setFile fd { fs.fileTable fd with
        fdPos := (fs.fileTable fd).fdPos + (part c (fs.fileTable fd).fdPos count).length }) fs := by
  set pos := (fs.fileTable fd).fdPos with hposdef
  have hlt := hok.lt
  have hsize := hok.size
  set n := min count (c.length - pos) with hn
  have hpart : part c pos count = part c pos n := by
    unfold part
    rw [List.take_eq_take_iff]
    simp [hn]
  have hlen : (part c pos n).length = n := length_part c (by omega)
  have hmod : (pos + count) % 2 ^ 32 = pos + count := Nat.mod_eq_of_lt (by omega)
  have hrest : (if pos + count > c.length then (c.length + 2 ^ 32 - pos) % 2 ^ 32 else count) = n := by
    split_ifs <;> omega
  unfold fileRead
  apply wp_slotInode_bind hinode
  rw [wp_get_bind]
  simp only [← hposdef, hsize, hmod, hrest, hpart, hlen]
  by_cases hend : pos + count > c.length ∧ n = 0
  · have hnone : 0 < count ∧ pos = c.length := by omega
    rw [if_pos hend, wp_pure, if_pos hnone]
    refine ⟨rfl, ?_⟩
    have hfile : ({ fs.fileTable fd with fdPos := pos + n } : File) = fs.fileTable fd := by
      rw [hend.2, Nat.add_zero]
    rw [hfile, setFile_self]
  · have hsome : ¬(0 < count ∧ pos = c.length) := by omega
    rw [if_neg hend, if_neg hsome]
    apply wp_onVol_sysMalloc_ok he
    simp only [Bool.not_true, Bool.false_eq_true, if_false]
    apply wp_onVol_sysMalloc_ok he
    simp only [Bool.not_true, Bool.false_eq_true, if_false]
    have hmod' : (pos + n) % 2 ^ 32 = pos + n := Nat.mod_eq_of_lt (by omega)
    rw [wp_assert_pos (by simp only [← hposdef, hsize, hmod, hrest]; omega), hmod']
    apply wp_onVol_bind
    apply wp_readBlocks hok (by omega) (by omega)
    intro all hall
    apply wp_onVol_bind
    apply wp_readChunks hok n pos n _ le_rfl (by omega) fun k hk hk' => hall k hk (by omega)
    rw [wp_setFile_bind, wp_pure]
    exact ⟨rfl, rfl⟩

theorem wp_fileRead {count : ℕ} (he : ∀ t, e.sysMalloc t = true) (h : Files u S fs content)
    (hfd : fd ∈ S) (hpos : (fs.fileTable fd).fdPos ≤ (content fd).length) (hcount : count ≤ 71680) :
    wp noStop e (fileRead fd count) (fun r fs' =>
      (r = if 0 < count ∧ (fs.fileTable fd).fdPos = (content fd).length then none
        else some (part (content fd) (fs.fileTable fd).fdPos count)) ∧
      fs' = fs.setFile fd { fs.fileTable fd with
        fdPos := (fs.fileTable fd).fdPos +
          (part (content fd) (fs.fileTable fd).fdPos count).length }) fs := by
  have hinode : (fs.fileTable fd).fdInode = some (fs.inodeAt fd) := by
    obtain ⟨q, hq⟩ := Option.ne_none_iff_exists'.mp (h.inode fd hfd)
    rw [Fs.inodeAt, hq]
    rfl
  exact wp_fileRead_ok he (h.ok fd hfd) hinode hpos hcount

end Read

section Run

/-- The slots `S` hold different files that are empty and have no block. -/
structure EmptyFiles (S : Finset ℕ) (fs : Fs) : Prop where
  layout : Layout fs.vol
  root : fs.vol.blockBitMap.bit 0 = true
  inode : ∀ fd ∈ S, (fs.fileTable fd).fdInode ≠ none
  inj : ∀ fd ∈ S, ∀ fd' ∈ S, fs.inodeAt fd = fs.inodeAt fd' → fd = fd'
  ino : ∀ fd ∈ S, (fs.vol.inodes (fs.inodeAt fd)).ino < 4096
  size : ∀ fd ∈ S, (fs.vol.inodes (fs.inodeAt fd)).size = 0
  block : ∀ fd ∈ S, ∀ k ≤ 12, (fs.vol.inodes (fs.inodeAt fd)).block k = 0

theorem EmptyFiles.files (h : EmptyFiles S fs) : Files fs.vol S fs fun _ => [] := by
  have href : ∀ fd ∈ S, ∀ k, fs.vol.ref (fs.vol.inodes (fs.inodeAt fd)) k = 0 := by
    intro fd hfd k
    rw [ref_noTable (h.block fd hfd 12 le_rfl)]
    split_ifs with hk
    · exact h.block fd hfd k hk.le
    · rfl
  refine ⟨⟨h.layout, rfl, rfl, fun _ hn => hn, h.root⟩, h.inode, h.inj, h.ino, fun fd hfd => ?_, ?_⟩
  · refine ⟨h.size fd hfd, by simp, .inl ⟨rfl, h.block fd hfd⟩, fun j hj => by simp at hj,
      fun k => ?_⟩
    rw [href fd hfd k]
    decide
  · have hzero : ∀ y, fs.refs S y = 0 := by
      intro y
      unfold Fs.refs
      split_ifs with hy
      · exact href _ hy _
      · rfl
    exact ⟨fun y hy => absurd (hzero y) hy, fun y _ _ hy => absurd (hzero y) hy⟩

/-- The buffers written to each file so far, in order. -/
abbrev Buffers := ℕ → List (List UInt8)

/-- The free blocks suffice and the file stays below its largest size. -/
structure WriteFits (fs : Fs) (fd : ℕ) (buf : List UInt8) : Prop where
  total : (fs.vol.inodes (fs.inodeAt fd)).size + buf.length < 71680
  clear : writeNeeds (fs.vol.inodes (fs.inodeAt fd)) buf.length ≤ fs.vol.blockBitMap.clearBits

/-- The read starts inside the file. -/
structure ReadFits (fs : Fs) (fd count : ℕ) : Prop where
  pos : (fs.fileTable fd).fdPos ≤ (fs.vol.inodes (fs.inodeAt fd)).size
  count : count ≤ 71680

inductive FileStep (sync : ℕ → VolM Unit) (S : Finset ℕ) : Fs × Buffers → Fs × Buffers → Prop
  | write {fs fs' : Fs} {bufs : Buffers} {e : Heap} {fd : ℕ} {buf : List UInt8} {r : ℤ}
      (hfd : fd ∈ S) (he : ∀ t, e.sysMalloc t = true) (hfit : WriteFits fs fd buf)
      (h : Returns e (fileWriteWith sync fd buf) fs r fs') :
      FileStep sync S (fs, bufs) (fs', Function.update bufs fd (bufs fd ++ [buf]))
  | read {fs fs' : Fs} {bufs : Buffers} {e : Heap} {fd count : ℕ} {r : Option (List UInt8)}
      (hfd : fd ∈ S) (he : ∀ t, e.sysMalloc t = true) (hfit : ReadFits fs fd count)
      (h : Returns e (fileRead fd count) fs r fs') : FileStep sync S (fs, bufs) (fs', bufs)
  | seek {fs : Fs} {bufs : Buffers} {fd pos : ℕ} (hfd : fd ∈ S)
      (hpos : pos ≤ (fs.vol.inodes (fs.inodeAt fd)).size) :
      FileStep sync S (fs, bufs)
        (fs.setFile fd { fs.fileTable fd with fdPos := pos }, bufs)

/-- Moving `fdPos` does not touch the contents. -/
theorem Files.setPos (h : Files u S fs content) (fd pos : ℕ) :
    Files u S (fs.setFile fd { fs.fileTable fd with fdPos := pos }) content := by
  have hslot : ∀ x, ((fs.setFile fd { fs.fileTable fd with fdPos := pos }).fileTable x).fdInode =
      (fs.fileTable x).fdInode := by
    intro x
    by_cases hx : x = fd <;> simp [hx]
  have hat : (fs.setFile fd { fs.fileTable fd with fdPos := pos }).inodeAt = fs.inodeAt := by
    funext x
    simp only [Fs.inodeAt, hslot]
  have hrefs : (fs.setFile fd { fs.fileTable fd with fdPos := pos }).refs S = fs.refs S := by
    funext y
    simp only [Fs.refs, hat, Fs.setFile_vol]
  refine ⟨h.within, fun x hx => by rw [hslot]; exact h.inode x hx, ?_, ?_, ?_, ?_⟩
  · rw [hat]
    exact h.inj
  · rw [hat]
    exact h.ino
  · rw [hat]
    exact h.ok
  · rw [hrefs]
    exact h.owns

/-- In every state reached by writes, reads and moves of `fdPos`, each file holds the
concatenation of the buffers written to it. A write that fits appends its buffer and changes
no other file; a read returns the bytes from `fdPos` on and moves `fdPos` behind them, and
fails exactly when something is asked for at the end of the file. No assertion fails. -/
theorem file_contents {bufs : Buffers} (hempty : EmptyFiles S fs) (hfree : FreeInside fs.vol)
    (hsync : SyncInside sync fs.vol)
    (hrun : Run (FileStep sync S) (fs, fun _ => []) (fs', bufs)) :
    (∀ fd ∈ S, FileOk fs'.vol (fs'.vol.inodes (fs'.inodeAt fd)) (bufs fd).flatten) ∧
      (∀ e fd buf, (∀ t, e.sysMalloc t = true) → fd ∈ S → WriteFits fs' fd buf →
        wp noStop e (fileWriteWith sync fd buf) (fun r w => r = buf.length ∧
          (∀ x ∈ S, FileOk w.vol (w.vol.inodes (w.inodeAt x))
            (if x = fd then (bufs fd).flatten ++ buf else (bufs x).flatten))) fs') ∧
      ∀ e fd count, (∀ t, e.sysMalloc t = true) → fd ∈ S → ReadFits fs' fd count →
        wp noStop e (fileRead fd count) (fun r w =>
          (r = if 0 < count ∧ (fs'.fileTable fd).fdPos = ((bufs fd).flatten).length then none
            else some (part (bufs fd).flatten (fs'.fileTable fd).fdPos count)) ∧
          w = fs'.setFile fd { fs'.fileTable fd with
            fdPos := (fs'.fileTable fd).fdPos +
              (part (bufs fd).flatten (fs'.fileTable fd).fdPos count).length }) fs' := by
  have hwrite : ∀ {fs' : Fs} {bufs : Buffers} {fd : ℕ} {buf : List UInt8} {e : Heap},
      Files fs.vol S fs' (fun x => (bufs x).flatten) → fd ∈ S → (∀ t, e.sysMalloc t = true) →
      WriteFits fs' fd buf → wp noStop e (fileWriteWith sync fd buf) (fun r w => r = buf.length ∧
        Files fs.vol S w (fun x => (Function.update bufs fd (bufs fd ++ [buf]) x).flatten)) fs' := by
    intro fs' bufs fd buf e h hfd he hfit
    have hlen : ((bufs fd).flatten ++ buf).length < 71680 := by
      rw [List.length_append, ← (h.ok fd hfd).size]
      exact hfit.total
    apply wp_mono (wp_fileWriteWith he hsync hfree h hfd hlen hfit.clear)
    rintro r w ⟨hr, hw, -⟩
    refine ⟨hr, ?_⟩
    convert hw using 1
    funext x
    by_cases hx : x = fd
    · subst hx
      simp
    · simp [hx]
  have hinv : Files fs.vol S fs' fun x => (bufs x).flatten := by
    apply hrun.invariant (I := fun s => Files fs.vol S s.1 fun x => (s.2 x).flatten) _
      (by simpa using hempty.files)
    rintro s t h hstep
    cases hstep with
    | write hfd he hfit hret => exact (hret.of_wp (hwrite h hfd he hfit)).2
    | read hfd he hfit hret =>
      have hpos := hfit.pos
      rw [(h.ok _ hfd).size] at hpos
      obtain ⟨-, rfl⟩ := hret.of_wp (wp_fileRead he h hfd hpos hfit.count)
      exact h.setPos _ _
    | seek hfd hpos => exact h.setPos _ _
  refine ⟨hinv.ok, fun e fd buf he hfd hfit => ?_, fun e fd count he hfd hfit => ?_⟩
  · apply wp_mono (hwrite hinv hfd he hfit)
    rintro r w ⟨hr, hw⟩
    refine ⟨hr, fun x hx => ?_⟩
    have hok := hw.ok x hx
    by_cases hxfd : x = fd
    · subst hxfd
      simpa using hok
    · simpa [hxfd] using hok
  · have hpos := hfit.pos
    rw [(hinv.ok fd hfd).size] at hpos
    exact wp_fileRead he hinv hfd hpos hfit.count

end Run

section Sample

/-- The sample volume with the first 512 data blocks only, block 0 in use; slot 3 holds an
empty file whose inode lies at address 1. -/
def sampleFs : Fs where
  vol := { sampleVolume with
    blockBitMap := ⟨512, fun i => if i = 0 then 1 else if i < 64 then 0 else 0xff⟩
    inodes := fun p => if p = 0 then sampleVolume.inodes 0 else inodeInit p
    nextInode := 2 }
  fileTable i := ⟨0, 1, if i = 3 then some 1 else none⟩
  fdTable _ := -1

theorem sampleFs_free {n : ℕ} (hn : n < 4096)
    (hbit : sampleFs.vol.blockBitMap.bit n = false) : n < 512 := by
  by_contra hge
  have h0 : n / 8 ≠ 0 := by omega
  have h64 : ¬n / 8 < 64 := by omega
  have hff : sampleFs.vol.blockBitMap.startAddr (n / 8) = 0xff := by
    change (if n / 8 = 0 then (1 : UInt8) else if n / 8 < 64 then 0 else 0xff) = 0xff
    rw [if_neg h0, if_neg h64]
  have hset := (byte_eq_ff_iff _).mp hff (n % 8) (Nat.mod_lt _ (by norm_num))
  unfold BitMap.bit at hbit
  rw [hset] at hbit
  exact absurd hbit (by simp)

theorem sampleFs_empty : EmptyFiles {3} sampleFs := by
  refine ⟨?_, by decide, by decide, by decide, by decide, by decide, ?_⟩
  · exact sampleVolume_newDirectory.layout.congr rfl rfl rfl rfl rfl
  · intro fd hfd k _
    obtain rfl := Finset.mem_singleton.mp hfd
    rfl

/-- Three bytes are written to the file, with `bitMapSync` itself as the routine. -/
theorem file_contents_sample :
    let w := (fileWrite 3 [7, 8, 9] sampleHeap 0 sampleFs).state
    FileOk w.vol (w.vol.inodes (w.inodeAt 3)) [7, 8, 9] := by
  have hfree : FreeInside sampleFs.vol := by
    intro n hn _
    have hn' : n < 4096 := hn
    change 675 + n < maxLba
    unfold maxLba
    omega
  have hsync : SyncInside (fun n => bitMapSync n .blockBitmap) sampleFs.vol :=
    bitMapSync_inside fun n hn hbit => sampleFs_free hn hbit
  have hclear : 1 ≤ sampleFs.vol.blockBitMap.clearBits :=
    Finset.card_pos.mpr ⟨1, Finset.mem_filter.mpr ⟨Finset.mem_range.mpr (by decide), by decide⟩⟩
  have hret : Returns sampleHeap (fileWrite 3 [7, 8, 9]) sampleFs 3
      (fileWrite 3 [7, 8, 9] sampleHeap 0 sampleFs).state := ⟨0, _, rfl⟩
  have hfit : WriteFits sampleFs 3 [7, 8, 9] := ⟨by decide, hclear⟩
  exact (file_contents sampleFs_empty hfree hsync
    (.single (.write (by decide) (fun _ => rfl) hfit hret))).1 3 (by decide)

end Sample

end Gogoos
