import WireLayout.Proofs.Emission

/-!
# Delimiting — where layouts end

An item without a frame runs to the end of the surrounding frame, so what follows it there is lost.

* `Layout.SelfDelimiting` — every item without a frame stands inside one;
* `Layout.TailSafe` — in every frame, the whole message among them, items without a frame come last;
* `Layout.NeverEmpty` — every value takes at least one byte.

Both conditions are on the layout alone, apart from the elements of arrays without a frame, of which
none may be empty.
-/

namespace WireLayout
namespace Layout

mutual

/-- Items without a frame stand inside frames only. -/
def SelfDelimiting : Layout → Prop
  | .blob framing custom _ => framing = .unframed → ∃ content, custom = .constant content
  -- a frame tells where its content ends, whatever that is
  | .nested framing inner _ _ => framing = .unframed → SelfDelimiting inner
  | .array framing element _ => framing ≠ .unframed ∧ SelfDelimiting element
  | .switch _ _ cases _ => CasesSelfDelimiting cases
  | .record fields => FieldsSelfDelimiting fields
  | _ => True
termination_by structural l => l

/-- All fields are self-delimiting. -/
def FieldsSelfDelimiting : List Field → Prop
  | [] => True
  | .mk _ item :: fields => SelfDelimiting item ∧ FieldsSelfDelimiting fields
termination_by structural fields => fields

/-- The fields of all cases are self-delimiting. -/
def CasesSelfDelimiting : List Case → Prop
  | [] => True
  | .mk _ _ fields :: cases => FieldsSelfDelimiting fields ∧ CasesSelfDelimiting cases
termination_by structural cases => cases

end

/-- Every value takes at least one byte. -/
def NeverEmpty (l : Layout) : Prop := ∀ v b, l.bytesOf v = .ok b → b ≠ []

mutual

/-- In every frame, items without a frame come last. -/
def TailSafe : Layout → Prop
  -- the end of a nested layout is that of its frame, or of the item itself
  | .nested _ inner _ _ => TailSafe inner
  | .array framing element _ =>
    -- elements are followed by others, so their ends have to show
    element.SelfDelimiting ∧ TailSafe element ∧ (framing = .unframed → element.NeverEmpty)
  | .switch _ _ cases _ => CasesTailSafe cases
  | .record fields => FieldsTailSafe fields
  | _ => True
termination_by structural l => l

/-- All fields but the last are self-delimiting. -/
def FieldsTailSafe : List Field → Prop
  | [] => True
  | .mk _ item :: fields =>
    TailSafe item ∧ (fields ≠ [] → item.SelfDelimiting) ∧ FieldsTailSafe fields
termination_by structural fields => fields

/-- In every case, all fields but the last are self-delimiting. -/
def CasesTailSafe : List Case → Prop
  | [] => True
  | .mk _ _ fields :: cases => FieldsTailSafe fields ∧ CasesTailSafe cases
termination_by structural cases => cases

end

theorem casesSelfDelimiting_iff {cases : List Case} :
    CasesSelfDelimiting cases ↔ ∀ c ∈ cases, FieldsSelfDelimiting c.fields := by
  induction cases with
  | nil => simp [CasesSelfDelimiting]
  | cons c cases ih =>
    rcases c with ⟨id, name, fields⟩
    simp [CasesSelfDelimiting, ih, Case.fields]

theorem casesTailSafe_iff {cases : List Case} :
    CasesTailSafe cases ↔ ∀ c ∈ cases, FieldsTailSafe c.fields := by
  induction cases with
  | nil => simp [CasesTailSafe]
  | cons c cases ih =>
    rcases c with ⟨id, name, fields⟩
    simp [CasesTailSafe, ih, Case.fields]

end Layout
end WireLayout
