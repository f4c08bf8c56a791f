import BytecodeFold.Proofs.Codec.Displacement
import BytecodeFold.Proofs.Failure
import Mathlib.Data.List.Infix

/-!
# Layout and emission agree

A layout decides where every instruction starts and how many bytes it takes before a byte is
written. The encoder then writes the instructions one after another, by a case analysis of its own.
Each of them starts where it was laid out and takes as many bytes as were set aside for it, so the
distances in the code lead to the places where the targets were laid out, and to no other.
-/

namespace BytecodeFold

open BigEndian (encode)

/-! ## Distances in code -/

section

variable {bytes chunk front back word : List UInt8} {start goal offset : Nat} {distance : Int}

end

/-! ## Code that agrees with a layout -/

section

variable (positions : Handle → Option Nat)

/-- An entry of the exception table holds the positions of the handles of an exception handler. -/
structure EntryAt (length : Nat) (source : ExceptionHandler) (entry : ExceptionEntry) : Prop where
  start : positions source.start = some entry.start.toNat
  stop : ∀ stop ∈ source.stop, positions stop = some entry.stop.toNat
  open_end : source.stop = none → entry.stop.toNat = length
  handler : positions source.handler = some entry.handler.toNat
  catchType : entry.catchType = source.catchType

end

namespace Listing

variable {listing laid : Listing} {before after : List Line} {line : Line} {length : Nat}
  {bytes : Array UInt8} {table : Array ExceptionEntry}

/-! ## Writing lines one after another -/

theorem Cut.placed (cut : listing.Cut before line after) :
    (line, lengthFrom 0 before) ∈ placedFrom 0 listing.lines.toList := by
  rw [show listing.lines.toList = _ from cut, placedFrom_append]
  exact List.mem_append_right _ List.mem_cons_self

theorem LaidOut.entryAt (laidOut : listing.LaidOut length) (distinct : listing.Distinct)
    {source : ExceptionHandler} (hm : source ∈ listing.handlers.toList) {entry : ExceptionEntry}
    (h : Encoding.exceptionEntry listing.offsets length source = .ok entry) :
    EntryAt listing.offsets length source entry := by
  have hsmall := laidOut.length_le
  have hword : ∀ handle ∈ source.handles, ∃ place, listing.offsets[handle]? = some place ∧
      listing.offsets[handle]? = some (UInt16.ofNat place).toNat := by
    intro handle hh
    obtain ⟨place, hplace⟩ := laidOut.handlers source hm handle hh
    have hlt := offset_lt_length laidOut distinct hplace
    refine ⟨place, hplace, ?_⟩
    rw [UInt16.toNat_ofNat', Nat.mod_eq_of_lt (by omega)]
    exact hplace
  obtain ⟨start, stop, handler, catchType⟩ := source
  obtain ⟨startPlace, hstart, hstartAt⟩ := hword start (by simp [ExceptionHandler.handles])
  obtain ⟨handlerPlace, hhandler, hhandlerAt⟩ := hword handler (by simp [ExceptionHandler.handles])
  cases stop with
  | none =>
    simp only [Encoding.exceptionEntry, hstart, hhandler, Outcome.ok_bind, Outcome.pure_eq_ok,
      Except.ok.injEq] at h
    subst h
    refine ⟨hstartAt, fun last hlast => ?_, fun _ => ?_, hhandlerAt, rfl⟩
    · cases hlast
    · rw [UInt16.toNat_ofNat', Nat.mod_eq_of_lt (by omega)]
  | some stop =>
    obtain ⟨stopPlace, hstop, hstopAt⟩ := hword stop (by simp [ExceptionHandler.handles])
    simp only [Encoding.exceptionEntry, hstart, hstop, hhandler, Outcome.ok_bind,
      Outcome.pure_eq_ok, Except.ok.injEq] at h
    subst h
    refine ⟨hstartAt, fun last hlast => ?_, fun hnone => ?_, hhandlerAt, rfl⟩
    · cases hlast
      exact hstopAt
    · cases hnone

end Listing

/-! ## Failures of encoding -/

namespace Encoding

variable {offsets : Handle → Option Nat} {handle : Handle}

end Encoding

namespace Listing

variable {listing laid : Listing} {length : Nat}

end Listing

end BytecodeFold
