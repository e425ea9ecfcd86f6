import Gogoos.Kernel.Positions
import Gogoos.Fs.RejectedWrite

/-!
# Operations on open files that never stop the machine

Closing and seeking never do. A write does at the size limit, where an assertion fails, and where
it starts in a block that is not on the disk, a read where it meets such a block.
-/

namespace Gogoos

open Program

variable {α : Type} {e : Heap} {fs : Fs} {slot p count : ℕ} {buf : List UInt8} {v : Volume}
  {m m' : FsM α}

section Never

def SameRuns (m m' : FsM α) (fs : Fs) : Prop := ∀ e t, m e t fs = m' e t fs

/-- No run stops, whatever memory and disk answer. -/
def NeverStops (m : FsM α) (fs : Fs) : Prop := ∀ e, wp noStop e m (fun _ _ => True) fs

theorem NeverStops.congr (hm : NeverStops m' fs) (h : SameRuns m m' fs) : NeverStops m fs := by
  intro e t
  rw [h e t]
  exact hm e t

theorem SameRuns.symm (h : SameRuns m m' fs) : SameRuns m' m fs := fun e t => (h e t).symm

theorem neverStops_fileClose (h : (fs.fileTable slot).fdInode ≠ none) :
    NeverStops (fileClose slot) fs := by
  intro e
  obtain ⟨p, hp⟩ := Option.ne_none_iff_exists'.mp h
  have hclose : ∀ w, wp noStop e (inodeClose p) (fun _ _ => True) w := by
    intro w
    unfold inodeClose
    rw [wp_modifyInode_bind, wp_get_bind]
    apply wp_ite
    · exact fun _ => wp_modify.mpr trivial
    · exact fun _ => wp_pure.mpr trivial
  unfold fileClose
  apply wp_slotInode_bind hp
  apply wp_onVol_bind
  unfold modifyInode
  rw [wp_modify]
  apply wp_onVol_bind
  apply wp_mono (hclose _)
  intro _ _ _
  rw [wp_get_bind, wp_setFile_bind, wp_pure]
  trivial

end Never

section Write

/-- The write is rejected, fails for want of blocks, or ends before the limit and starts in a block
on the disk. -/
def WriteRuns (fs : Fs) (slot count : ℕ) : Prop :=
  let i := fs.vol.inodes (fs.inodeAt slot)
  71680 < i.size + count ∨ ¬Alive.BlocksThere fs.vol i count ∨
    (i.size + count < 71680 ∧ (0 < count → fs.vol.blockAt i (i.size / 512) < maxLba))

/-- A write that is not rejected fails, or goes on with its two buffers. -/
theorem wp_fileWrite_buffered {stop : Fs → Prop} {Q : ℤ → Fs → Prop}
    (hp : (fs.fileTable slot).fdInode = some p)
    (hguard : ¬((fs.vol.inodes p).size + buf.length) % 2 ^ 32 > 512 * 140)
    (hnone : ¬(∀ t, e.sysMalloc t = true) → Q (-1) fs)
    (hbody : wp stop e (Alive.writeBody slot p (fs.vol.inodes p).size buf) Q fs) :
    wp stop e (fileWrite slot buf) Q fs := by
  unfold fileWrite fileWriteWith
  apply wp_slotInode_bind hp
  rw [wp_get_bind]
  simp only
  rw [if_neg hguard]
  apply wp_onVol_bind
  apply wp_ask
  intro t
  apply wp_ite
  · intro h
    refine wp_pure.mpr (hnone fun he => ?_)
    simp [he t] at h
  intro _
  apply wp_onVol_bind
  apply wp_ask
  intro t'
  apply wp_ite
  · intro h
    refine wp_pure.mpr (hnone fun he => ?_)
    simp [he t'] at h
  intro _
  exact hbody

/-- A write that has its blocks and ends before the limit. -/
theorem wp_writeBody_runs (h : WrittenFile slot fs)
    (hfit : (fs.vol.inodes (fs.inodeAt slot)).size + buf.length < 71680)
    (hfirst : 0 < buf.length → fs.vol.blockAt (fs.vol.inodes (fs.inodeAt slot))
      ((fs.vol.inodes (fs.inodeAt slot)).size / 512) < maxLba)
    (hthere : Alive.BlocksThere fs.vol (fs.vol.inodes (fs.inodeAt slot)) buf.length) :
    wp noStop e (Alive.writeBody slot (fs.inodeAt slot) (fs.vol.inodes (fs.inodeAt slot)).size buf)
      (fun _ _ => True) fs := by
  unfold Alive.writeBody
  apply wp_onVol_bind
  apply wp_allocFirstBlock_ready h.mounted h.inode hthere.1
  intro v₁ h₁ hc
  simp only [Bool.not_true, Bool.false_eq_true, if_false]
  have hclear := hthere.2 hfit
  unfold writeNeeds at hclear
  have hclear₁ : blocksNeeded ((fs.vol.inodes (fs.inodeAt slot)).size / 512)
      (((fs.vol.inodes (fs.inodeAt slot)).size + buf.length) / 512) ≤
        v₁.blockBitMap.clearBits := by omega
  have hslot : ((fs.setVol v₁).fileTable slot).fdInode = some (fs.inodeAt slot) := h.fdInode
  exact wp_mono (Alive.wp_writeTail_grows hslot h₁ h.inode hfit hclear₁ (.inl hfirst))
    fun _ _ _ => trivial

theorem neverStops_fileWrite (h : WrittenFile slot fs)
    (hsum : (fs.vol.inodes (fs.inodeAt slot)).size + buf.length < 2 ^ 32) :
    NeverStops (fileWrite slot buf) fs ↔ WriteRuns fs slot buf.length := by
  have hp := h.fdInode
  have hmod := Nat.mod_eq_of_lt hsum
  unfold WriteRuns
  constructor
  · intro hnever
    by_contra hbad
    obtain ⟨hle, hthere, hlost⟩ := not_or.mp hbad |>.imp_right not_or.mp
    rw [not_not] at hthere
    have he : ∀ t, sampleHeap.sysMalloc t = true := fun _ => rfl
    obtain ⟨r, fs', hret, -⟩ := wp_noStop_returns (hnever sampleHeap)
    by_cases hexact : (fs.vol.inodes (fs.inodeAt slot)).size + buf.length = 71680
    · -- the blocks are there, so the write gets as far as the assertion
      have hfail := hret.of_wp (wp_fileWrite_exact h hexact)
      have hnot : r ≠ -1 ∧ _ := hret.of_wp (wp_fileWrite_buffered hp (by rw [hmod]; omega)
        (fun hno => absurd he hno)
        (Alive.wp_writeBody_there hp h.mounted h.inode (by omega) (by rw [hmod]; omega) hthere))
      exact hnot.1 hfail
    · have hfit : (fs.vol.inodes (fs.inodeAt slot)).size + buf.length < 71680 := by omega
      have hfirst := not_and.mp hlost hfit
      obtain ⟨hpos, hlost⟩ := Classical.not_imp.mp hfirst
      exact hret.of_wp (wp_fileWrite_lost h he hfit hpos hlost (hthere.2 hfit))
  · rintro (hgt | hshort | ⟨hfit, hfirst⟩) e
    · exact wp_mono (wp_fileWrite_rejected h rfl hgt hsum) fun _ _ _ => trivial
    · by_cases hguard : ((fs.vol.inodes (fs.inodeAt slot)).size + buf.length) % 2 ^ 32 > 512 * 140
      · rw [hmod] at hguard
        exact wp_mono (wp_fileWrite_rejected h rfl hguard hsum) fun _ _ _ => trivial
      · exact wp_fileWrite_buffered hp hguard (fun _ => trivial)
          (wp_mono (Alive.wp_writeBody_short h.mounted h.inode hshort) fun _ _ _ => trivial)
    · by_cases hthere : Alive.BlocksThere fs.vol (fs.vol.inodes (fs.inodeAt slot)) buf.length
      · exact wp_fileWrite_buffered hp (by rw [hmod]; omega) (fun _ => trivial)
          (wp_writeBody_runs h hfit hfirst hthere)
      · exact wp_fileWrite_buffered hp (by rw [hmod]; omega) (fun _ => trivial)
          (wp_mono (Alive.wp_writeBody_short h.mounted h.inode hthere) fun _ _ _ => trivial)

end Write

section Read

/-- Every block that bytes are read from is on the disk. -/
def ReadRuns (fs : Fs) (slot count : ℕ) : Prop :=
  let i := fs.vol.inodes (fs.inodeAt slot)
  let pos := (fs.fileTable slot).fdPos
  0 < min count (i.size - pos) →
    ∀ j, pos / 512 ≤ j → 512 * j < pos + min count (i.size - pos) → fs.vol.blockAt i j < maxLba

/-- The blocks of a copy loop that returns are on the disk. Induction on the number of rounds. -/
theorem wp_readChunks_below {all : ℕ → ℕ} : ∀ fuel pos n, n ≤ fuel →
    wp anyStop e (readChunks all fuel pos n) (fun _ _ => 0 < n →
      ∀ j, pos / 512 ≤ j → 512 * j < pos + n → all j < maxLba) v := by
  intro fuel
  induction fuel with
  | zero => exact fun pos n hn => wp_pure.mpr fun hpos => absurd hpos (by omega)
  | succ fuel ih =>
    intro pos n hn
    unfold readChunks
    by_cases hn0 : n = 0
    · rw [if_pos hn0, wp_pure]
      exact fun hpos => absurd hpos (by omega)
    · rw [if_neg hn0, wp_ideRead_bind]
      refine ⟨fun hlt => ?_, fun _ => trivial⟩
      apply wp_call (ih (pos + min n (512 - pos % 512)) (n - min n (512 - pos % 512)) (by omega))
      intro rest _ hrest
      rw [wp_pure]
      intro _ j hj hj'
      rcases hj.eq_or_lt with rfl | hj
      · exact hlt
      · exact hrest (by omega) j (by omega) (by omega)

theorem WrittenFile.readInside (h : WrittenFile slot fs) {n : ℕ}
    (hn : n ≤ (fs.vol.inodes (fs.inodeAt slot)).size) : n < 71680 ∧ (12 ≤ n / 512 →
      (fs.vol.inodes (fs.inodeAt slot)).block 12 ≠ 0 ∧
        (fs.vol.inodes (fs.inodeAt slot)).block 12 < maxLba) := by
  have hsize := h.inode.size
  refine ⟨by omega, fun h12 => ?_⟩
  rcases h.inode.blocks with ⟨hzero, -⟩ | hb
  · omega
  · exact ⟨hb.table.mpr (by omega), hb.below 12 le_rfl⟩

theorem neverStops_fileRead (h : WrittenFile slot fs)
    (hpos : (fs.fileTable slot).fdPos ≤ (fs.vol.inodes (fs.inodeAt slot)).size)
    (hsum : (fs.fileTable slot).fdPos + count < 2 ^ 32) :
    NeverStops (fileRead slot count) fs ↔ ReadRuns fs slot count := by
  have hp := h.fdInode
  have hin := h.readInside (n := (fs.fileTable slot).fdPos +
    min count ((fs.vol.inodes (fs.inodeAt slot)).size - (fs.fileTable slot).fdPos)) (by omega)
  constructor
  · intro hnever hlen
    obtain ⟨r, fs', hret, -⟩ := wp_noStop_returns (hnever sampleHeap)
    have hbelow : wp anyStop sampleHeap (fileRead slot count) (fun _ _ =>
        ∀ j, (fs.fileTable slot).fdPos / 512 ≤ j → 512 * j < (fs.fileTable slot).fdPos +
          min count ((fs.vol.inodes (fs.inodeAt slot)).size - (fs.fileTable slot).fdPos) →
          fs.vol.blockAt (fs.vol.inodes (fs.inodeAt slot)) j < maxLba) fs := by
      apply wp_fileRead_ready hp hpos hsum fun _ => hin
      · intro hnone
        have hzero := hnone fun _ => rfl
        omega
      intro _ all hall
      apply wp_onVol_bind
      apply wp_mono (wp_readChunks_below _ _ _ le_rfl)
      intro bytes _ hbelow
      rw [wp_setFile_bind, wp_pure]
      intro j hj hj'
      rw [← hall j hj hj']
      exact hbelow hlen j hj hj'
    exact hret.of_wp hbelow
  · intro hbelow e
    refine wp_mono (wp_fileRead_min hp hpos ⟨hsum, fun q hq _ => ?_⟩) fun _ _ _ => trivial
    obtain rfl : fs.inodeAt slot = q := Option.some.inj (hp.symm.trans hq)
    exact ⟨hin.1, hin.2, hbelow⟩

end Read

end Gogoos
