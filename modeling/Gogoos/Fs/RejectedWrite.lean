import Gogoos.Fs.LiveHeap

/-!
# Writes that fail

`fileWrite` fails in two ways that leave no trace, before anything is allocated. Every other
failure keeps the first of its two buffers.
-/

namespace Gogoos

open Program

namespace Alive

variable {e : Heap} {t : ℕ} {s s' : Alive} {fs fs' : Fs} {fd p : ℕ} {buf : List UInt8}

section Body

/-- The blocks that a write of `count` bytes takes are there. A write that ends at the limit
does not get further than the first of them. -/
def BlocksThere (v : Volume) (i : Inode) (count : ℕ) : Prop :=
  (i.block 0 = 0 → 1 ≤ v.blockBitMap.clearBits) ∧
    (i.size + count < 71680 → writeNeeds i count ≤ v.blockBitMap.clearBits)

/-- A write that goes ahead without wrapping leaves the file as writes leave it, if it does not
stop at a first block that is not on the disk. -/
theorem wp_writeTail_grows {stop : Fs → Prop} (hp : (fs.fileTable fd).fdInode = some p) {v : Volume}
    (hv : FirstReady v fs.vol p) (hfile : FileInode (v.inodes p))
    (hfit : (v.inodes p).size + buf.length < 71680)
    (hclear : blocksNeeded ((v.inodes p).size / 512) (((v.inodes p).size + buf.length) / 512) ≤
      fs.vol.blockBitMap.clearBits)
    (hfirst : (0 < buf.length → v.blockAt (v.inodes p) ((v.inodes p).size / 512) < maxLba) ∨
      ∀ x, stop x) :
    wp stop e (writeTail fd p (v.inodes p).size buf)
      (fun r fs' => r = buf.length ∧ WrittenFile fd fs') fs := by
  have hmod : ((v.inodes p).size + buf.length) % 2 ^ 32 = (v.inodes p).size + buf.length :=
    Nat.mod_eq_of_lt (by omega)
  unfold writeTail
  simp only [hmod]
  rw [wp_assert_pos (by rw [hmod]; omega)]
  apply wp_onVol_bind
  apply wp_of_noStop
  apply wp_prepareBlocks_ready hv.mounted (by omega) (by omega) hv.blocks hclear
  intro w all hw
  have hsize : (w.inodes p).size = (v.inodes p).size := hw.size.trans hv.size
  apply wp_onVol_bind
  apply wp_writeChunks_size _ _ _ _ le_rfl
  · intro k hpos hk hk'
    rcases hfirst with hlt | hstop
    · left
      change (w.inodes p).size / 512 ≤ k at hk
      change 512 * k < (w.inodes p).size + buf.length at hk'
      rw [hsize] at hk hk'
      rcases hk.eq_or_lt with rfl | hk
      · rw [hw.first]
        exact hv.first.mpr (hlt hpos)
      · exact hw.new k hk (by omega)
    · exact .inr fun x => hstop (fs.setVol x)
  intro w' hw'
  have hinode : w'.inodes p = (w.inodes p).setSize ((v.inodes p).size + buf.length) := by
    rw [hw', ← hsize]
    simp
  have hmounted : MountedVol w' := hw'.mounted (hw.mounted.setInode _ _)
  have hino : (w'.inodes p).ino < 4096 := by
    rw [hinode]
    change (w.inodes p).ino < 4096
    rw [hw.frame.ino, hv.frame.ino]
    exact hfile.ino
  have hend : (w'.inodes p).size < 71680 := by
    rw [hinode]
    exact hfit
  have hblocks : HasBlocks (w'.inodes p) ((w'.inodes p).size / 512) := by
    rw [hinode]
    exact ⟨hw.blocks.direct, hw.blocks.table, hw.blocks.below⟩
  have hslot : (((fs.setVol w).setVol w').fileTable fd).fdInode = some p := hp
  apply wp_of_noStop
  apply wp_mono (wp_endWrite hslot hmounted hino hend hblocks)
  rintro r fs' ⟨rfl, -, hwritten⟩
  exact ⟨rfl, hwritten⟩

/-- At the limit the assertion fails. -/
theorem wp_writeTail_exact {size : ℕ} (h : size + buf.length = 71680) :
    wp anyStop e (writeTail fd p size buf) (fun _ _ => False) fs := by
  unfold writeTail
  refine wp_assert_bind.mpr ⟨fun hlt => absurd hlt ?_, fun _ => trivial⟩
  omega

/-- A sum that wraps takes no block. -/
theorem wp_writeTail_wraps {size : ℕ} (hsize : size < 71680) (hbuf : buf.length < 2 ^ 32)
    (h : 2 ^ 32 ≤ size + buf.length) :
    wp anyStop e (writeTail fd p size buf) (fun r _ => r ≠ -1) fs := by
  unfold writeTail
  refine wp_assert_bind.mpr ⟨fun _ => ?_, fun _ => trivial⟩
  apply wp_onVol_bind
  apply wp_prepareBlocks_back (by omega)
  intro w all _
  apply wp_onVol_bind
  apply wp_iff.mpr
  refine ⟨fun _ w' _ => ?_, fun _ _ => trivial⟩
  rw [wp_get_bind, wp_setFile_bind]
  apply wp_onVol_bind
  apply wp_mono (wp_inodeSync_inodes _ _)
  intro _ w'' _
  rw [wp_pure]
  omega

/-- With its blocks there, a write does not fail once it has its buffers. -/
theorem wp_writeBody_there (hp : (fs.fileTable fd).fdInode = some p) (hv : MountedVol fs.vol)
    (hfile : FileInode (fs.vol.inodes p)) (hbuf : buf.length < 2 ^ 32)
    (hguard : ¬((fs.vol.inodes p).size + buf.length) % 2 ^ 32 > 512 * 140)
    (hthere : BlocksThere fs.vol (fs.vol.inodes p) buf.length) :
    wp anyStop e (writeBody fd p (fs.vol.inodes p).size buf) (fun r fs' => r ≠ -1 ∧
      ((fs.vol.inodes p).size + buf.length < 2 ^ 32 → WrittenFile fd fs')) fs := by
  have hsize := hfile.size
  unfold writeBody
  apply wp_onVol_bind
  apply wp_of_noStop
  apply wp_allocFirstBlock_ready hv hfile hthere.1
  intro v₁ h₁ hc
  simp only [Bool.not_true, Bool.false_eq_true, if_false]
  by_cases hfit : (fs.vol.inodes p).size + buf.length < 71680
  · have hclear := hthere.2 hfit
    unfold writeNeeds at hclear
    have hclear₁ : blocksNeeded ((fs.vol.inodes p).size / 512)
        (((fs.vol.inodes p).size + buf.length) / 512) ≤ v₁.blockBitMap.clearBits := by omega
    have hp₁ : ((fs.setVol v₁).fileTable fd).fdInode = some p := hp
    apply wp_mono (wp_writeTail_grows hp₁ h₁ hfile hfit hclear₁ (.inr fun _ => trivial))
    rintro r fs' ⟨rfl, hw⟩
    exact ⟨by omega, fun _ => hw⟩
  · by_cases hexact : (fs.vol.inodes p).size + buf.length = 71680
    · exact wp_mono (wp_writeTail_exact hexact) fun _ _ hf => hf.elim
    · apply wp_mono (wp_writeTail_wraps hsize hbuf (by omega))
      exact fun r _ hr => ⟨hr, fun hlt => absurd hlt (by omega)⟩

/-- With too few blocks it fails, and does not stop the machine. -/
theorem wp_writeBody_short (hv : MountedVol fs.vol) (hfile : FileInode (fs.vol.inodes p))
    (hshort : ¬BlocksThere fs.vol (fs.vol.inodes p) buf.length) :
    wp noStop e (writeBody fd p (fs.vol.inodes p).size buf) (fun r _ => r = -1) fs := by
  unfold writeBody
  apply wp_onVol_bind
  by_cases hfirst : (fs.vol.inodes p).block 0 = 0 → 1 ≤ fs.vol.blockBitMap.clearBits
  · have hfit : (fs.vol.inodes p).size + buf.length < 71680 := by
      by_contra hge
      exact hshort ⟨hfirst, fun hlt => absurd hlt hge⟩
    have hneeds : ¬writeNeeds (fs.vol.inodes p) buf.length ≤ fs.vol.blockBitMap.clearBits :=
      fun hle => hshort ⟨hfirst, fun _ => hle⟩
    apply wp_allocFirstBlock_ready hv hfile hfirst
    intro v₁ h₁ hc
    have hmod : ((fs.vol.inodes p).size + buf.length) % 2 ^ 32 =
        (fs.vol.inodes p).size + buf.length := Nat.mod_eq_of_lt (by omega)
    unfold writeNeeds at hneeds
    simp only [Bool.not_true, Bool.false_eq_true, if_false]
    unfold writeTail
    simp only [hmod]
    rw [wp_assert_pos (by rw [hmod]; omega)]
    apply wp_onVol_bind
    have hfull : v₁.blockBitMap.clearBits < blocksNeeded ((fs.vol.inodes p).size / 512)
        (((fs.vol.inodes p).size + buf.length) / 512) := by omega
    apply wp_mono (wp_prepareBlocks_full h₁.mounted (by omega) h₁.blocks hfull)
    rintro _ w rfl
    exact wp_pure.mpr rfl
  · obtain ⟨h0, hfull⟩ := Classical.not_imp.mp hfirst
    have hnone : bitMapScan fs.vol.blockBitMap 1 = none := by
      by_contra hsome
      obtain ⟨n, hn⟩ := Option.ne_none_iff_exists'.mp hsome
      have hc := clearBits_set (bitMapScan_one_eq_some hn).1 (bitMapScan_one_eq_some hn).2.1
      omega
    unfold allocFirstBlock
    rw [wp_get_bind, if_pos h0]
    apply wp_blockBitMapAlloc_bind
    · exact fun _ => wp_pure.mpr (wp_pure.mpr rfl)
    · intro n hn
      simp [hnone] at hn

end Body

section Runs

/-- The condition under which a write fails at once. -/
def Rejects (fs : Fs) (fd count : ℕ) : Prop :=
  ((fs.vol.inodes (fs.inodeAt fd)).size + count) % 2 ^ 32 > 512 * 140

theorem run_slot (hp : (s.fs.fileTable fd).fdInode = some p) {α : Type} {f : ℕ → AliveM α} :
    (onFs (slotInode fd) >>= f) e t s = f p e t s := by
  have hslot : slotInode fd e t s.fs = .returned p t s.fs := by
    unfold slotInode
    rw [bind_returned (rfl : get e t s.fs = .returned s.fs t s.fs), hp]
    rfl
  exact bind_returned (zoom_returned hslot)

theorem run_get {α : Type} {f : Alive → AliveM α} : (get >>= f) e t s = f s e t s := rfl

variable (hp : (s.fs.fileTable fd).fdInode = some (s.fs.inodeAt fd))
include hp

theorem run_rejected (hrej : Rejects s.fs fd buf.length) :
    fileWrite fd buf e t s = .returned (-1) t s := by
  unfold fileWrite
  rw [run_slot hp, run_get]
  simp only [if_pos (show (_ + _) % 2 ^ 32 > 512 * 140 from hrej)]
  rfl

theorem run_no_ioBuf (hrej : ¬Rejects s.fs fd buf.length) (h₀ : e.sysMalloc t = false) :
    fileWrite fd buf e t s = .returned (-1) (t + 1) s := by
  unfold fileWrite
  rw [run_slot hp, run_get]
  simp only [if_neg (show ¬(_ + _) % 2 ^ 32 > 512 * 140 from hrej)]
  rw [bind_returned (by rw [sysMalloc_run, h₀]; rfl)]
  rfl

theorem run_no_allBlocks (hrej : ¬Rejects s.fs fd buf.length) (h₀ : e.sysMalloc t = true)
    (h₁ : e.sysMalloc (t + 1) = false) :
    fileWrite fd buf e t s = .returned (-1) (t + 2) (s.take s.fresh) := by
  unfold fileWrite
  rw [run_slot hp, run_get]
  simp only [if_neg (show ¬(_ + _) % 2 ^ 32 > 512 * 140 from hrej)]
  rw [bind_returned (by rw [sysMalloc_run, h₀]; rfl)]
  simp only
  rw [bind_returned (by rw [sysMalloc_run, h₁]; rfl)]
  rfl

/-- The state in which both buffers are there. -/
def buffered (s : Alive) : Alive := (s.take s.fresh).take (s.take s.fresh).fresh

theorem run_buffered (hrej : ¬Rejects s.fs fd buf.length) (h₀ : e.sysMalloc t = true)
    (h₁ : e.sysMalloc (t + 1) = true) : fileWrite fd buf e t s = (do
      let r ← onFs (writeBody fd (s.fs.inodeAt fd) (s.fs.vol.inodes (s.fs.inodeAt fd)).size buf)
      if r = -1 then return -1
      sysFree s.fresh
      sysFree (s.take s.fresh).fresh
      return r : AliveM ℤ) e (t + 2) s.buffered := by
  unfold fileWrite
  rw [run_slot hp, run_get]
  simp only [if_neg (show ¬(_ + _) % 2 ^ 32 > 512 * 140 from hrej)]
  rw [bind_returned (by rw [sysMalloc_run, h₀]; rfl)]
  simp only
  rw [bind_returned (by rw [sysMalloc_run, h₁]; rfl)]
  rfl

/-- A write with its buffers returns what its body returns. -/
theorem returned_buffered (hrej : ¬Rejects s.fs fd buf.length) (h₀ : e.sysMalloc t = true)
    (h₁ : e.sysMalloc (t + 1) = true) {r : ℤ} {t' : ℕ}
    (h : fileWrite fd buf e t s = .returned r t' s') : Returns e
      (writeBody fd (s.fs.inodeAt fd) (s.fs.vol.inodes (s.fs.inodeAt fd)).size buf) s.fs r s'.fs := by
  rw [run_buffered hp hrej h₀ h₁] at h
  obtain ⟨r', t₁, s₁, hbody, hrest⟩ := bind_eq_returned h
  obtain ⟨x, hx, rfl⟩ := zoom_eq_returned hbody
  split_ifs at hrest with hr
  · cases hrest
    exact ⟨t + 2, _, hr ▸ hx⟩
  · cases hrest
    exact ⟨t + 2, _, hx⟩

omit hp in
theorem buffered_ne (s : Alive) : s.buffered.bufs ≠ s.bufs := by
  intro h
  apply s.fresh_notMem
  rw [← h]
  simp [buffered]

end Runs

section Law

/-- What a write that fails must leave as it was: the file, its indirect table, the block
bitmap in memory and on the disk, and the heap. -/
structure Untouched (fd : ℕ) (s s' : Alive) : Prop where
  inode : s'.fs.vol.inodes (s.fs.inodeAt fd) = s.fs.vol.inodes (s.fs.inodeAt fd)
  table : s'.fs.vol.disk ((s.fs.vol.inodes (s.fs.inodeAt fd)).block 12) =
    s.fs.vol.disk ((s.fs.vol.inodes (s.fs.inodeAt fd)).block 12)
  blockBitMap : s'.fs.vol.blockBitMap = s.fs.vol.blockBitMap
  sectors : ∀ k < s.fs.vol.superBlock.blockBitMapSecCnt,
    s'.fs.vol.disk (s.fs.vol.superBlock.blockBitMapLbaStart + k) =
      s.fs.vol.disk (s.fs.vol.superBlock.blockBitMapLbaStart + k)
  bufs : s'.bufs = s.bufs
  inodeBufs : s'.inodeBufs = s.inodeBufs

theorem Untouched.refl (fd : ℕ) (s : Alive) : Untouched fd s s :=
  ⟨rfl, rfl, rfl, fun _ _ => rfl, rfl, rfl⟩

/-- A write that ends before the limit, starts in a block on the disk and has its blocks. -/
def Fits (fs : Fs) (fd count : ℕ) : Prop :=
  let i := fs.vol.inodes (fs.inodeAt fd)
  i.size + count < 71680 ∧ (0 < count → fs.vol.blockAt i (i.size / 512) < maxLba) ∧
    writeNeeds i count ≤ fs.vol.blockBitMap.clearBits

/-- The write is rejected at once, or it gets no buffer, or it gets both buffers and its
blocks. Question `t` to the heap is the first one it asks. -/
def RejectOk (e : Heap) (t : ℕ) (fs : Fs) (fd count : ℕ) : Prop :=
  Rejects fs fd count ∨ e.sysMalloc t = false ∨
    (e.sysMalloc (t + 1) = true ∧ BlocksThere fs.vol (fs.vol.inodes (fs.inodeAt fd)) count)

/-- A write to the file that is `RejectOk` and does not wrap, or anything else. -/
inductive RejectStep (fd : ℕ) : Alive → Alive → Prop
  | write {s s' : Alive} {e : Heap} {t t' : ℕ} {buf : List UInt8} {r : ℤ}
      (hok : RejectOk e t s.fs fd buf.length)
      (hlt : (s.fs.vol.inodes (s.fs.inodeAt fd)).size + buf.length < 2 ^ 32)
      (h : fileWrite fd buf e t s = .returned r t' s') : RejectStep fd s s'
  | other {s s' : Alive} (h : LeavesFile fd s.fs s'.fs) : RejectStep fd s s'

/-- If the write fails, then nothing has changed, and every write that fits succeeds later. -/
def RejectsCleanly (e : Heap) (t : ℕ) (s : Alive) (fd : ℕ) (buf : List UInt8) : Prop :=
  ∀ t' s', fileWrite fd buf e t s = .returned (-1) t' s' → Untouched fd s s' ∧
    ∀ s'' e' buf', Run (RejectStep fd) s' s'' → (∀ t, e'.sysMalloc t = true) →
      Fits s''.fs fd buf'.length →
        wp noStop e' (fileWrite fd buf') (fun r _ => r = buf'.length) s''

/-- A write that is `RejectOk` fails without a trace, or it succeeds. -/
theorem RejectOk.returned {r : ℤ} {t' : ℕ} (hok : RejectOk e t s.fs fd buf.length)
    (h : WrittenFile fd s.fs) (hbuf : buf.length < 2 ^ 32)
    (hret : fileWrite fd buf e t s = .returned r t' s') :
    (r = -1 ∧ s' = s) ∨ (r ≠ -1 ∧ ((s.fs.vol.inodes (s.fs.inodeAt fd)).size + buf.length < 2 ^ 32 →
      WrittenFile fd s'.fs)) := by
  have hp := h.fdInode
  by_cases hrej : Rejects s.fs fd buf.length
  · rw [run_rejected hp hrej] at hret
    cases hret
    exact .inl ⟨rfl, rfl⟩
  cases h₀ : e.sysMalloc t with
  | false =>
    rw [run_no_ioBuf hp hrej h₀] at hret
    cases hret
    exact .inl ⟨rfl, rfl⟩
  | true =>
    rcases hok with hrej' | h₀' | ⟨h₁, hthere⟩
    · exact absurd hrej' hrej
    · rw [h₀] at h₀'
      cases h₀'
    · have hbody := returned_buffered hp hrej h₀ h₁ hret
      exact .inr (hbody.of_wp (wp_writeBody_there hp h.mounted h.inode hbuf hrej hthere))

/-- Any other write fails with a buffer left over. -/
theorem exists_leak (h : WrittenFile fd s.fs) (hbad : ¬RejectOk e t s.fs fd buf.length) :
    ∃ t' s', fileWrite fd buf e t s = .returned (-1) t' s' ∧ s'.bufs ≠ s.bufs := by
  have hp := h.fdInode
  unfold RejectOk at hbad
  push Not at hbad
  obtain ⟨hrej, hgot, hshort⟩ := hbad
  have h₀ : e.sysMalloc t = true := by simpa using hgot
  cases h₁ : e.sysMalloc (t + 1) with
  | false =>
    refine ⟨_, _, run_no_allBlocks hp hrej h₀ h₁, fun hkept => s.fresh_notMem ?_⟩
    rw [← hkept]
    exact Finset.mem_insert_self _ _
  | true =>
    have hshorts : wp noStop e
        (writeBody fd (s.fs.inodeAt fd) (s.fs.vol.inodes (s.fs.inodeAt fd)).size buf)
        (fun r _ => r = -1) s.fs := wp_writeBody_short h.mounted h.inode (hshort h₁)
    have hbody := hshorts (t + 2)
    cases hm : writeBody fd (s.fs.inodeAt fd) (s.fs.vol.inodes (s.fs.inodeAt fd)).size buf e (t + 2)
      s.fs with
    | stopped x =>
      rw [hm] at hbody
      exact absurd hbody id
    | returned r t' x =>
      rw [hm] at hbody
      obtain rfl : r = -1 := hbody
      refine ⟨t', s.buffered.setFs x, ?_, s.buffered_ne⟩
      have hzoom : onFs _ e (t + 2) s.buffered = .returned (-1) t' (s.buffered.setFs x) :=
        zoom_returned hm
      rw [run_buffered hp hrej h₀ h₁, bind_returned hzoom]
      rfl

theorem RejectStep.written (hstep : RejectStep fd s s') (h : WrittenFile fd s.fs) :
    WrittenFile fd s'.fs := by
  cases hstep with
  | other ho => exact ⟨ho.mounted, ho.slot, h.inode.congr ho.ino ho.size ho.block⟩
  | write hok hlt hret =>
    rcases hok.returned h (by omega) hret with ⟨-, rfl⟩ | ⟨-, hw⟩
    · exact h
    · exact hw hlt

theorem written_of_run (hrun : Run (RejectStep fd) s s') (h : WrittenFile fd s.fs) :
    WrittenFile fd s'.fs :=
  hrun.invariant (I := fun s => WrittenFile fd s.fs) (fun _ _ hI hstep => hstep.written hI) h

/-- A write that fits succeeds. -/
theorem wp_fileWrite_fits (h : WrittenFile fd s.fs) (he : ∀ t, e.sysMalloc t = true)
    (hfits : Fits s.fs fd buf.length) :
    wp noStop e (fileWrite fd buf) (fun r _ => r = buf.length) s := by
  obtain ⟨hfit, hfirst, hclear⟩ := hfits
  apply wp_mono ((erases_fileWrite fd buf).wp (wp_fileWrite_grows h he hfit hfirst hclear))
  exact fun _ _ hr => hr.1

/-- A file that was empty and then written to, with anything else in between: a write that
fails has changed nothing, exactly when it does not get as far as to keep a buffer. -/
theorem rejected_law {s₀ : Alive} (h₀ : NewFile fd s₀.fs) (hrun : Run (RejectStep fd) s₀ s)
    (hbuf : buf.length < 2 ^ 32) :
    RejectsCleanly e t s fd buf ↔ RejectOk e t s.fs fd buf.length := by
  have h : WrittenFile fd s.fs := written_of_run hrun h₀.written
  constructor
  · intro hclean
    by_contra hbad
    obtain ⟨t', s', hret, hbufs⟩ := exists_leak h hbad
    exact hbufs (hclean t' s' hret).1.bufs
  · intro hok t' s' hret
    rcases hok.returned h hbuf hret with ⟨-, rfl⟩ | ⟨hr, -⟩
    · exact ⟨.refl fd _, fun s'' e' buf' hlater he' hfits =>
        wp_fileWrite_fits (written_of_run hlater h) he' hfits⟩
    · exact absurd rfl hr

/-- The volume without open files, the slot 3 of an empty file, and an empty heap. -/
def sampleAlive : Alive := ⟨sampleFs, ∅, ∅⟩

/-- A write of 71681 bytes to the empty file fails, and leaves no trace. -/
theorem rejected_law_sample : ∃ buf : List UInt8,
    RejectsCleanly sampleHeap 0 sampleAlive 3 buf ∧
      fileWrite 3 buf sampleHeap 0 sampleAlive = .returned (-1) 0 sampleAlive := by
  have hlen : (List.replicate 71681 (0 : UInt8)).length = 71681 := List.length_replicate
  have hsize : (sampleFs.vol.inodes (sampleFs.inodeAt 3)).size = 0 := rfl
  have hrej : Rejects sampleAlive.fs 3 (List.replicate 71681 (0 : UInt8)).length := by
    rw [hlen]
    change ((sampleFs.vol.inodes (sampleFs.inodeAt 3)).size + 71681) % 2 ^ 32 > 512 * 140
    rw [hsize]
    norm_num
  exact ⟨_, (rejected_law sampleFs_newFile .refl (by rw [hlen]; norm_num)).mpr (.inl hrej),
    run_rejected sampleFs_newFile.written.fdInode hrej⟩

/-- The volume of `sampleFs` with every block in use. -/
def fullAlive : Alive := ⟨sampleFs.setVol { sampleFs.vol with
  blockBitMap := { sampleFs.vol.blockBitMap with startAddr := fun _ => 255 } }, ∅, ∅⟩

theorem fullAlive_bit (n : ℕ) : fullAlive.fs.vol.blockBitMap.bit n = true := by
  have hall : ∀ k < 8, Nat.testBit (255 : UInt8).toNat k = true := by decide
  exact hall (n % 8) (Nat.mod_lt _ (by norm_num))

theorem fullAlive_newFile : NewFile 3 fullAlive.fs :=
  ⟨⟨sampleFs_mounted.layout.congr rfl rfl rfl rfl rfl, fullAlive_bit 0,
    fun n _ h => by simp [fullAlive_bit] at h⟩, by decide, by decide, rfl, fun _ _ => rfl⟩

/-- A byte does not fit in a full volume, and the write keeps both of its buffers. -/
theorem rejected_law_fails : ¬∀ (e : Heap) (t : ℕ) (s₀ s : Alive) (fd : ℕ) (buf : List UInt8),
    NewFile fd s₀.fs → Run (RejectStep fd) s₀ s → buf.length < 2 ^ 32 →
    RejectsCleanly e t s fd buf := by
  intro hall
  have hclean := hall sampleHeap 0 fullAlive fullAlive 3 [7] fullAlive_newFile .refl (by decide)
  have hbad : ¬RejectOk sampleHeap 0 fullAlive.fs 3 [(7 : UInt8)].length := by
    rintro (hrej | hnone | ⟨-, hfirst, -⟩)
    · revert hrej
      unfold Rejects
      decide
    · cases hnone
    · have hone := hfirst rfl
      have hzero : fullAlive.fs.vol.blockBitMap.clearBits = 0 :=
        by
        unfold BitMap.clearBits
        simp [fullAlive_bit]
      omega
  obtain ⟨t', s', hret, hbufs⟩ := exists_leak fullAlive_newFile.written hbad
  exact hbufs (hclean t' s' hret).1.bufs

end Law

end Alive

end Gogoos
