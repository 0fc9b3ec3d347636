import Mathlib.Data.List.Chain
import WireLayout.Proofs.Confinement
import WireLayout.Proofs.Construction
import WireLayout.Proofs.Registration

/-!
# Progress — one cursor over a sequence of reads

Several values can be read with one cursor.  A read that fails leaves the cursor where it stood at
that moment, and the next read starts there.

* `Codec.stops` — where the reads of a sequence leave their cursor;
* `Codec.isChain_stops` — a read never moves the cursor back or out of the data, if blocks and the
  counts of arrays ask for no negative number of bytes;
* `Layout.position_of_negative` — a block of negative size does move it back.

The constructors refuse integers without a width, but leave the sizes of blocks open.
-/

namespace WireLayout

open Decoding

namespace Layout

/-- The constructors see to the widths of integers: a switch has a case, whose number has to fit. -/
theorem integersForward_of_wellMade {l : Layout} (h : l.WellMade) : l.IntegersForward := by
  cases l with
  | uint size custom omission => exact Int.le_of_lt h.1
  | switch idSize idTag cases custom =>
    rcases h with ⟨hne, _, _, hcases⟩
    rcases List.exists_mem_of_ne_nil cases hne with ⟨c, hc⟩
    rcases Uint.fits_ok_true_iff.1 (hcases c hc).1 with ⟨_, _, hfits⟩
    exact hfits.1
  | _ => trivial

end Layout

namespace Codec

/-- Where reads one after the other leave their cursor, those that fail among them. -/
def stops : List Codec → Reader → List Reader
  | [], _ => []
  | c :: cs, r => stop (c.read r) :: stops cs (stop (c.read r))

theorem reaches_stop {c : Codec} (built : c.layout.Built)
    (frames : c.layout.Everywhere Layout.FramesForward) {r : Reader} (hr : r.InBounds) :
    r.Reaches (stop (c.read r)) := by
  have integers := built.everywhere_wellMade.mono fun _ => Layout.integersForward_of_wellMade
  exact Layout.confined_decode_of_forward integers frames hr

/-- Whatever the input and however many reads fail, each read leaves the cursor inside the data and
no further back than it found it. -/
theorem isChain_stops {cs : List Codec} (built : ∀ c ∈ cs, c.layout.Built)
    (frames : ∀ c ∈ cs, c.layout.Everywhere Layout.FramesForward) {r : Reader}
    (hr : r.InBounds) : (r :: stops cs r).IsChain Reader.Reaches := by
  -- on the reads that are left; what carries over is that the cursor stands inside its data
  induction cs generalizing r with
  | nil => exact .singleton r
  | cons c cs ih =>
    rcases List.forall_mem_cons.1 built with ⟨hbuilt, hlater⟩
    rcases List.forall_mem_cons.1 frames with ⟨hframes, hrest⟩
    have hstep : r.Reaches (stop (c.read r)) := reaches_stop hbuilt hframes hr
    exact .cons_cons hstep (ih hlater hrest (hstep.inBounds hr))

end Codec

/-- A block behind its length. -/
def Layout.countedBlock : Layout := .blob (.counted 1) .plain .off

/-- An array of negative length; it has no elements. -/
def Layout.lengthless : Layout := .array (.fixed (.plain (-1))) .countedBlock .plain

def Codec.lengthless : Codec := ⟨.lengthless, none, rfl⟩

def Codec.countedBlock : Codec := ⟨.countedBlock, none, rfl⟩

/-- The array reads nothing; then both bytes are read as lengths of blocks that are not there. -/
theorem Codec.isChain_stops_failing :
    (Reader.ofBytes [2, 7] ::
        stops [.lengthless, .countedBlock, .countedBlock, .countedBlock]
          (Reader.ofBytes [2, 7])).IsChain Reader.Reaches ∧
      (stops [.lengthless, .countedBlock, .countedBlock, .countedBlock]
        (Reader.ofBytes [2, 7])).map Reader.position = [0, 1, 2, 2] := by
  have hblock : Layout.countedBlock.Built :=
    @Layout.Built.bytes none (some 1) none .none .off _ nofun rfl
  have harray : Layout.lengthless.Built :=
    @Layout.Built.array _ (some (.plain (-1))) none .none _ hblock rfl
  have hwidth : (0 : Int) ≤ (1 : Numeral).value := by decide
  have hframes : Layout.countedBlock.Everywhere Layout.FramesForward := by
    simpa [Layout.countedBlock, Layout.FramesForward, Framing.NonNegative] using hwidth
  have hopen : Layout.lengthless.Everywhere Layout.FramesForward :=
    Layout.everywhere_array.2 ⟨nofun, hframes⟩
  refine ⟨isChain_stops ?_ ?_ (Reader.inBounds_ofBytes [2, 7]), rfl⟩
  · simpa using ⟨harray, hblock⟩
  · simpa using ⟨hopen, hframes⟩

/-! ## Blocks of negative size -/

namespace Layout

/-- A block of negative size is read from before the cursor, which moves back. -/
theorem position_of_negative {size : Numeral} (hsize : size.value < 0) (omission : Omission)
    {r : Reader} (hr : r.InBounds) :
    (stop ((blob (.fixed size) .plain omission).decode r)).position = r.position + size.value := by
  have henough : ¬ r.remaining < size.value := by
    unfold Reader.remaining
    have := hr.2
    omega
  have hread : Reader.read size r =
      .ok (r.peek size.value) { r with position := r.position + size.value } := if_neg henough
  have hdecode : (blob (.fixed size) .plain omission).decode r =
      .ok (.raw (r.peek size.value)) { r with position := r.position + size.value } :=
    EStateM.bind_ok_iff.2 ⟨_, _, hread, rfl⟩
  rw [hdecode]
  rfl

/-- A block of one byte less than nothing. -/
def negativeBlock : Layout := .blob (.fixed (.plain (-1))) .plain .off

theorem built_negativeBlock : negativeBlock.Built :=
  @Built.bytes (some (.plain (-1))) none none .none .off _ nofun rfl

end Layout

def Codec.negativeBlock : Codec := ⟨.negativeBlock, some (.plain (-1)), rfl⟩

/-- The first read of such a block leaves the cursor before the first byte. -/
theorem Codec.stops_negativeBlock :
    Layout.negativeBlock.Built ∧ compile .negativeBlock = .ok .negativeBlock ∧
      stops [.negativeBlock] (Reader.ofBytes [1, 2]) = [⟨#[1, 2], -1⟩] ∧
      ¬ (Reader.ofBytes [1, 2] :: stops [.negativeBlock] (Reader.ofBytes [1, 2])).IsChain
        Reader.Reaches := by
  have hreport : Codec.negativeBlock.report = .ok () := if_pos (optionSpellable_of_lt (by decide))
  have hstops : stops [.negativeBlock] (Reader.ofBytes [1, 2]) = [⟨#[1, 2], -1⟩] := rfl
  refine ⟨Layout.built_negativeBlock, compile_ok_iff.2 ⟨rfl, rfl, hreport⟩, hstops, ?_⟩
  rw [hstops]
  intro hchain
  have hforward : (0 : Int) ≤ -1 := (List.isChain_pair.1 hchain).forward
  exact absurd hforward (by decide)

end WireLayout
