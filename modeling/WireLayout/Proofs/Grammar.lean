import WireLayout.Codec.Decode
import WireLayout.Proofs.Cursor
import WireLayout.Proofs.Digits
import WireLayout.Proofs.Parts

/-!
# Grammar — the inputs that a layout accepts

`Layout.Reads l ps rest v` says without any cursor what `Layout.decode` accepts: the input falls
into the pieces `ps`, which are read as the value `v`, and the bytes `rest` after them.  What
follows matters only for items without a frame, which run to the end.

* `Piece` — bytes of the input; where they were read by an omitted constant, that constant stands
  beside them;
* `Piece.source`, `Piece.restored` — the bytes of several pieces, as they were found and with the
  omitted constants in place of what was found there;
* `Decoding.Accepts` — a computation succeeds exactly on the inputs of a grammar;
* `Layout.Reads` — the grammar of a layout.

The main statement, in `Proofs/Acceptance`, is that decoding a layout accepts its grammar.
-/

namespace WireLayout

/-! ## Pieces of input -/

/-- A stretch of the input, and the omitted constant that was read there, if it was one. -/
structure Piece where
  found : List UInt8
  constant : Option (List UInt8)
  length_constant : ∀ content, constant = some content → content.length = found.length

namespace Piece

/-- Bytes that count as they are. -/
def plain (bs : List UInt8) : Piece := ⟨bs, none, by simp⟩

/-- Bytes that were skipped for an omitted constant of the same length. -/
def skipped (content bs : List UInt8) (h : bs.length = content.length) : Piece :=
  ⟨bs, some content, by
    rintro _ ⟨⟩
    exact h.symm⟩

/-- The bytes of a piece, or the omitted constant that was read there. -/
def kept (p : Piece) : List UInt8 := p.constant.getD p.found

/-- The bytes that were found. -/
def source (ps : List Piece) : List UInt8 := ps.flatMap found

/-- The bytes that were found, with omitted constants in the places where they were read. -/
def restored (ps : List Piece) : List UInt8 := ps.flatMap kept

@[simp] theorem found_plain (bs : List UInt8) : (plain bs).found = bs := rfl

@[simp] theorem kept_plain (bs : List UInt8) : (plain bs).kept = bs := rfl

@[simp] theorem source_nil : source [] = [] := rfl

@[simp] theorem source_cons (p : Piece) (ps : List Piece) :
    source (p :: ps) = p.found ++ source ps := rfl

@[simp] theorem source_append (ps qs : List Piece) :
    source (ps ++ qs) = source ps ++ source qs := by
  simp [source]

@[simp] theorem restored_nil : restored [] = [] := rfl

@[simp] theorem restored_cons (p : Piece) (ps : List Piece) :
    restored (p :: ps) = p.kept ++ restored ps := rfl

@[simp] theorem restored_append (ps qs : List Piece) :
    restored (ps ++ qs) = restored ps ++ restored qs := by
  simp [restored]

theorem length_kept (p : Piece) : p.kept.length = p.found.length := by
  unfold kept
  cases h : p.constant with
  | none => rfl
  | some content => exact p.length_constant content h

/-- Putting constants back changes no length. -/
theorem length_restored (ps : List Piece) : (restored ps).length = (source ps).length := by
  induction ps with
  | nil => rfl
  | cons p ps ih => simp [ih, length_kept]

end Piece

open Piece

/-! ## Grammars of items -/

/-- A constant: one that is omitted is skipped, any other has to be found. -/
def ReadsConstant (expected : Value) (content : List UInt8) (omission : Omission)
    (ps : List Piece) (v : Value) : Prop :=
  if omission.isOn then
    ∃ bs, ∃ h : bs.length = content.length, ps = [skipped content bs h] ∧ v = .none
  else ps = [plain content] ∧ v = expected

namespace Framing

/-- What stands before a payload to announce its size, or before elements to announce their
number. -/
def Opens : Framing → (head : List Piece) → (count : Nat) → (rest : List UInt8) → Prop
  | .fixed size, head, count, _ => head = [] ∧ (count : Int) = size.value
  | .counted width, head, count, _ =>
    ∃ bs, head = [plain bs] ∧ (bs.length : Int) = width.value ∧ BigEndian.decode bs = count
  | .unframed, head, _, rest => head = [] ∧ rest = []

/-- A framed layout ends with its frame; one without a frame sees what follows. -/
def Encloses (framing : Framing) (G : List Piece → List UInt8 → Value → Prop)
    (ps : List Piece) (rest : List UInt8) (v : Value) : Prop :=
  match framing with
  | .unframed => G ps rest v
  | framing =>
    ∃ head body, ps = head ++ body ∧ framing.Opens head (source body).length rest ∧ G body [] v

end Framing

/-- Elements one after the other, each before the input of those that follow. -/
def ReadsEach (G : List Piece → List UInt8 → Value → Prop) :
    List Piece → List UInt8 → List Value → Prop
  | ps, _, [] => ps = []
  | ps, rest, v :: vs => ∃ p q, ps = p ++ q ∧ G p (source q ++ rest) v ∧ ReadsEach G q rest vs

/-! ## Grammars of layouts -/

namespace Layout

mutual

/-- The grammar of a layout. -/
def Reads : Layout → List Piece → List UInt8 → Value → Prop
  | .uint size custom omission, ps, _, v =>
    match custom with
    | .constant n => ∃ content, Uint.encode (.ofNumeral n) size = .ok content ∧
        ReadsConstant (.ofNumeral n) content omission ps v
    | custom => ∃ bs, ps = [plain bs] ∧ (bs.length : Int) = size.value ∧
        custom.afterDecode (.int (BigEndian.decode bs)) = .ok v
  | .blob framing custom omission, ps, rest, v =>
    match custom with
    | .constant content => ReadsConstant (.raw content) content omission ps v
    | custom => ∃ head payload, ps = head ++ [plain payload] ∧
        framing.Opens head payload.length rest ∧ custom.afterDecode (.raw payload) = .ok v
  | .nested framing inner custom _, ps, rest, v =>
    ∃ raw, framing.Encloses (Reads inner) ps rest raw ∧ custom.afterDecode raw = .ok v
  | .array framing element custom, ps, rest, v =>
    -- without a count, elements that use up nothing would never end
    ∃ head body items, ps = head ++ body ∧ framing.Opens head items.length rest ∧
      ReadsEach (fun p tail w => (framing = .unframed → source p ≠ []) ∧ Reads element p tail w)
        body rest items ∧
      custom.afterDecode (.list items) = .ok v
  | .switch idSize idTag cases custom, ps, rest, v =>
    ∃ id body entries, ps = plain id :: body ∧ (id.length : Int) = idSize.value ∧
      ReadsCase idTag cases (BigEndian.decode id) body rest entries ∧
      custom.afterDecode (.dict entries) = .ok v
  | .record fields, ps, rest, v => ∃ entries, ReadsFields fields ps rest entries ∧ v = .dict entries
  | _, _, _, _ => False
termination_by structural l => l

/-- The grammar of a record's fields. -/
def ReadsFields : List Field → List Piece → List UInt8 → List (Label × Value) → Prop
  | [], ps, _, entries => ps = [] ∧ entries = []
  | .mk name item :: fields, ps, rest, entries =>
    -- an omitted item is read, but leaves no entry
    ∃ p q v more, ps = p ++ q ∧ Reads item p (source q ++ rest) v ∧ ReadsFields fields q rest more ∧
      entries = if item.isOmitted then more else (name, v) :: more
termination_by structural fields => fields

/-- The grammar of the case with a number. -/
def ReadsCase (idTag : Label) :
    List Case → Nat → List Piece → List UInt8 → List (Label × Value) → Prop
  | [], _, _, _, _ => False
  | .mk caseId name fields :: cases, id, ps, rest, entries =>
    -- as in the decoder, the first case with the number counts
    if caseId.value = id then
      ∃ more, ReadsFields fields ps rest more ∧ entries = (idTag, .ofLabel name) :: more
    else ReadsCase idTag cases id ps rest entries
termination_by structural cases => cases

end

theorem reads_uint_iff {size : Numeral} {custom : Custom Numeral} {omission : Omission}
    (h : ∀ n, custom ≠ .constant n) {ps : List Piece} {rest : List UInt8} {v : Value} :
    Reads (.uint size custom omission) ps rest v ↔
      ∃ bs, ps = [plain bs] ∧ (bs.length : Int) = size.value ∧
        custom.afterDecode (.int (BigEndian.decode bs)) = .ok v := by
  cases custom with
  | constant n => exact absurd rfl (h n)
  | _ => rfl

theorem reads_blob_iff {framing : Framing} {custom : Custom (List UInt8)} {omission : Omission}
    (h : ∀ content, custom ≠ .constant content) {ps : List Piece} {rest : List UInt8} {v : Value} :
    Reads (.blob framing custom omission) ps rest v ↔
      ∃ head payload, ps = head ++ [plain payload] ∧ framing.Opens head payload.length rest ∧
        custom.afterDecode (.raw payload) = .ok v := by
  cases custom with
  | constant content => exact absurd rfl (h content)
  | _ => rfl

end Layout

end WireLayout
