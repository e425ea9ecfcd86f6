import Gogoos.Fs.PathOverrun

/-!
# When paths stay inside their arrays
-/

namespace Gogoos

open Program

variable {p : List UInt8} {call : PathCall}

section Law

theorem parents_eq_nil (h : ¬1 < (components p).length) : parents p = [] := by
  have hlen : (parents p).length = (components p).length - 1 := List.length_dropLast
  exact List.length_eq_zero_iff.mp (by omega)

theorem room_open {flags : ℕ} (hlt : p.length < 512) (hzero : (0 : UInt8) ∉ p)
    (h : (PathCall.open flags).Safe p) : (PathCall.open flags).HasRoom p := by
  dsimp only [PathCall.HasRoom]
  by_cases hlast : p.getLast? = some slash
  · rw [if_pos hlast]
    by_contra hlong
    exact overrun_open_slash hlast hlong h
  rw [if_neg hlast]
  intro hflags
  have hshort : Short (components p) := by
    by_contra hname
    exact overrun_open_name hlast hflags hname h
  refine ⟨hshort, fun hs => ?_⟩
  have hcant : (cantOpen p).length < 512 := by
    by_contra hlong
    exact overrun_cantOpen hs hlt hzero hlast hflags hshort hlong h
  refine ⟨hcant, ?_⟩
  by_cases hp : 1 < (components p).length
  · by_contra hlong
    exact overrun_cannotAccess hs hlt hzero hlast hflags hshort hp hlong h
  · rw [parents_eq_nil hp]
    rw [length_cantOpen] at hcant
    rw [length_cannotAccess, length_joined]
    have hnil : pathLength [] = 0 := rfl
    omega

theorem room_mkdir (hlt : p.length < 512) (hzero : (0 : UInt8) ∉ p) (h : PathCall.mkdir.Safe p) :
    PathCall.mkdir.HasRoom p := by
  intro hs
  have hshort : Short (components p) := by
    by_contra hname
    exact overrun_mkdir_name hs hlt hzero hname h
  refine ⟨hshort, ?_, fun hone => ?_⟩
  · by_contra hlong
    exact overrun_mkdirExist hs hlt hzero hshort hlong h
  · by_contra hlong
    by_cases hp : 1 < (components p).length
    · exact overrun_cantMake hs hlt hzero hshort hp hlong h
    · have hnil : components p = [] := List.length_eq_zero_iff.mp (by omega)
      exact overrun_cantMake_bare hs hlt hnil hlong h

theorem room_unlink (hlt : p.length < 512) (hzero : (0 : UInt8) ∉ p)
    (h : PathCall.unlink.Safe p) : PathCall.unlink.HasRoom p := by
  intro hs
  have hshort : Short (components p) := by
    by_contra hname
    exact overrun_unlink_name hs hlt hzero hname h
  refine ⟨hshort, ?_⟩
  by_cases hp : components p = []
  · rw [if_pos hp]
    by_contra hlong
    exact overrun_notFound hs hlt hp hlong h
  · rw [if_neg hp]
    by_contra hlong
    exact overrun_isInUse hs hlt hzero hshort hp hlong h

theorem room_rmdir (hlt : p.length < 512) (hzero : (0 : UInt8) ∉ p) (h : PathCall.rmdir.Safe p) :
    PathCall.rmdir.HasRoom p := by
  intro hs
  have hshort : Short (components p) := by
    by_contra hname
    exact overrun_rmdir_name hs hlt hzero hname h
  refine ⟨hshort, ?_⟩
  by_contra hlong
  exact overrun_notEmpty hs hlt hzero hshort hlong h

/-- A call that is inside its arrays on every machine has room. -/
theorem room_of_safe (hlt : p.length < 512) (hzero : (0 : UInt8) ∉ p) (h : call.Safe p) :
    call.HasRoom p := by
  cases call with
  | «open» flags => exact room_open hlt hzero h
  | mkdir => exact room_mkdir hlt hzero h
  | unlink => exact room_unlink hlt hzero h
  | rmdir => exact room_rmdir hlt hzero h
  | chDir =>
    intro hs
    by_contra hname
    exact overrun_chDir hs hlt hzero hname h
  | stat =>
    intro hs
    by_contra hname
    exact overrun_stat hs hlt hzero hname h
  | openDir =>
    intro hs hdot
    by_contra hname
    exact overrun_openDir hs hlt hzero hdot hname h

/-- A call on a path stays inside its arrays, on every volume and every machine, exactly when the
names and the messages that it may come to have room. -/
theorem path_room_law (hlt : p.length < 512) (hzero : (0 : UInt8) ∉ p) :
    call.Safe p ↔ call.HasRoom p := by
  constructor
  · exact room_of_safe hlt hzero
  · exact safe_of_room

theorem path_room_law_sample : (PathCall.open 0).Safe [47, 97] := by
  apply (path_room_law (by decide) (by decide)).mpr
  have hlast : [47, 97].getLast? ≠ some slash := by decide
  rw [PathCall.HasRoom, if_neg hlast]
  exact fun _ => ⟨by decide, fun _ => ⟨by decide, by decide⟩⟩

/-- A slash and a name of 16 characters. -/
def longPath : List UInt8 := slash :: List.replicate 16 97

/-- `pathParse` fills the array of 16 bytes with the name, and there is no room for its zero. -/
theorem path_room_fails : ¬∀ (call : PathCall) (p : List UInt8) (e : Heap) (t : ℕ) (fs : Fs),
    p.length < 512 → 0 ∉ p → Contained (call.run p e t ⟨fs, []⟩) := by
  intro h
  have hcontained := h .chDir longPath { sampleHeap with sysMalloc := fun _ => false } 0 sampleFs
    (by decide) (by decide)
  have hfits := hcontained (.name (List.replicate 16 97)) (by
    apply List.mem_cons_of_mem
    exact List.mem_cons_self)
  have hlen : (List.replicate 16 (97 : UInt8)).length < 16 := hfits
  exact absurd hlen (by decide)

end Law

end Gogoos
