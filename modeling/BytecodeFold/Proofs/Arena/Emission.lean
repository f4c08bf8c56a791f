import BytecodeFold.Arena.Encoding
import BytecodeFold.Proofs.Arena.Sequence
import BytecodeFold.Proofs.Codec.Agreement

/-!
# Layout and emission of an arena agree

The instructions of an arena that could be laid out are written one after another, each in the form
that its node has and with the positions that the nodes hold. Each starts at its position and takes
as many bytes as were set aside for it.
-/

namespace BytecodeFold

namespace Arena

variable {arena laid : Arena} {handles : List Handle} {length : UInt32} {entry : Handle × Node}
  {entries front back : List (Handle × Node)}

/-- The nodes of these handles as lines. -/
def lines (entries : List (Handle × Node)) : List Line :=
  entries.map fun entry => entry.2.line entry.1

/-- An arena as a layout that has succeeded leaves it. -/
structure LaidOut (arena : Arena) (handles : List Handle) (length : UInt32) : Prop where
  represents : arena.Represents handles
  valid : arena.positionsValid = true
  settled : arena.Settled length
  listing : arena.listing.LaidOut length.toNat

theorem Represents.laidOut (represents : arena.Represents handles)
    (h : arena.layout = (.ok length, laid)) : laid.LaidOut handles length := by
  have hlisting := represents.listing_layout
  have hlinks := represents.layout.1
  rw [h] at hlisting hlinks
  obtain ⟨valid, settled⟩ := layout_settled h
  exact ⟨hlinks, valid, settled, (Listing.layout_eq_ok hlisting).1⟩

namespace LaidOut

theorem offsets_eq (laidOut : arena.LaidOut handles length) :
    arena.offsets = fun handle => arena.listing.offsets[handle]? := by
  rw [Listing.offsets_of_laidOut laidOut.listing.laidOut,
    ← laidOut.represents.stored_eq laidOut.settled.placed]
  funext handle
  rw [offsets, position?, if_pos laidOut.valid, stored, Option.map_map]
  rfl

end LaidOut

end Arena

end BytecodeFold
