import WireLayout.Proofs.Canonical
import WireLayout.Proofs.Locality

/-!
# Relocation — a value is read in the same way wherever it stands

A self-delimiting layout looks at the bytes of a value and at nothing else.  Where the same bytes
stand at another place of other data, the same value is read there, and the cursor moves over the
same distance.

* `Codec.read_of_rest` — one value read from two cursors with a common beginning;
* `Codec.read_relocated` — the same for two places in any data.
-/

namespace WireLayout
namespace Codec

open Piece

variable {c : Codec} {r r' t : Reader} {v : Value}

/-- Cursors before the same pieces of a self-delimiting layout read the same value. -/
theorem read_of_rest (delimits : c.layout.SelfDelimiting) {ps : List Piece} {rest tail : List UInt8}
    (hreads : c.layout.Reads ps rest v) (ht : t.InBounds) (htail : t.rest = source ps ++ tail) :
    c.read t = .ok v (t.advance (source ps).length) :=
  c.layout.accepts_decode.runs ht htail (Layout.blind_reads delimits hreads tail)

/-- If a cursor reads a value of a self-delimiting layout, any other cursor before the bytes that it
moved over reads the same value and moves over as many, whatever stands before and after them. -/
theorem read_relocated (sizes : c.layout.Everywhere Layout.NonNegative)
    (delimits : c.layout.SelfDelimiting) (hr : r.InBounds) (ht : t.InBounds)
    (hread : c.read r = .ok v r')
    (hbytes : t.peek (r'.position - r.position) = r.peek (r'.position - r.position)) :
    c.read t = .ok v { t with position := t.position + (r'.position - r.position) } := by
  rcases (read_ok_iff sizes hr).1 hread with ⟨ps, rest, hps, hreads, rfl⟩
  have hdistance : (r.advance (source ps).length).position - r.position = (source ps).length := by
    rw [Reader.position_advance]
    omega
  rw [hdistance, Reader.peek_eq_take ht, Reader.peek_eq_take hr, hps, List.take_left] at hbytes
  have htail : t.rest = source ps ++ t.rest.drop (source ps).length := by
    conv_lhs => rw [← List.take_append_drop (source ps).length t.rest, hbytes]
  rw [hdistance]
  exact read_of_rest delimits hreads ht htail

/-- A value of the specimen in the middle of some data, and at the start of others. -/
theorem read_relocated_specimen :
    Codec.specimen.read ⟨#[7, 1, 2, 6, 2, 3, 4, 1, 5, 5, 8], 1⟩ =
        .ok Layout.specimenValue ⟨#[7, 1, 2, 6, 2, 3, 4, 1, 5, 5, 8], 10⟩ ∧
      Codec.specimen.read ⟨#[1, 2, 6, 2, 3, 4, 1, 5, 5, 0, 0], 0⟩ =
        .ok Layout.specimenValue ⟨#[1, 2, 6, 2, 3, 4, 1, 5, 5, 0, 0], 9⟩ := by
  have hr : Reader.InBounds ⟨#[7, 1, 2, 6, 2, 3, 4, 1, 5, 5, 8], 1⟩ := ⟨by decide, by decide⟩
  have ht : Reader.InBounds ⟨#[1, 2, 6, 2, 3, 4, 1, 5, 5, 0, 0], 0⟩ := ⟨by decide, by decide⟩
  have hread : Codec.specimen.read ⟨#[7, 1, 2, 6, 2, 3, 4, 1, 5, 5, 8], 1⟩ =
      .ok Layout.specimenValue ⟨#[7, 1, 2, 6, 2, 3, 4, 1, 5, 5, 8], 10⟩ := rfl
  exact ⟨hread, read_relocated Layout.nonNegative_specimen Layout.selfDelimiting_specimen hr ht
    hread rfl⟩

end Codec
end WireLayout
