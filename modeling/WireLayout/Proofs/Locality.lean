import WireLayout.Proofs.Acceptance
import WireLayout.Proofs.Delimiting

/-!
# Locality — self-delimiting layouts do not look at what follows

The grammar of an item without a frame depends on the bytes after it, since there must be none.  The
grammar of a self-delimiting layout does not, and so the pieces of one value are never the beginning
of the pieces of a longer one.

* `Blind` — a grammar that describes its pieces whatever follows them;
* `Layout.blind_reads` — the grammar of a self-delimiting layout is blind;
* `Decoding.Accepts.prefix_free` — what a blind grammar describes is not continued by more of it.
-/

namespace WireLayout

open Piece

variable {α : Type}

/-- A grammar describes the same pieces whatever follows them. -/
def Blind (G : List Piece → List UInt8 → α → Prop) : Prop :=
  ∀ ⦃ps rest a⦄, G ps rest a → ∀ tail, G ps tail a

theorem Framing.Opens.blind {framing : Framing} (h : framing ≠ .unframed) {head : List Piece}
    {count : Nat} {rest : List UInt8} (hopens : framing.Opens head count rest)
    (tail : List UInt8) : framing.Opens head count tail := by
  cases framing with
  | unframed => exact absurd rfl h
  | _ => exact hopens

theorem blind_readsEach {G : List Piece → List UInt8 → Value → Prop} (h : Blind G) :
    Blind (ReadsEach G) := by
  intro ps rest vs heach tail
  induction vs generalizing ps with
  | nil => exact heach
  | cons v vs ih =>
    rcases heach with ⟨p, q, rfl, hp, hq⟩
    exact ⟨p, q, rfl, h hp _, ih hq⟩

/-- Bytes that are read alike whatever follows them can stand one behind the other. -/
theorem readsEach_of_forall₂ {G : List Piece → List UInt8 → Value → Prop}
    {E : List UInt8 → Value → Prop}
    (h : ∀ part v, E part v → ∃ ps, source ps = part ∧ ∀ tail, G ps tail v)
    {parts : List (List UInt8)} {vs : List Value} (hparts : List.Forall₂ E parts vs)
    (rest : List UInt8) : ∃ ps, source ps = parts.flatten ∧ ReadsEach G ps rest vs := by
  induction hparts with
  | nil => exact ⟨[], rfl, rfl⟩
  | cons hv _ ih =>
    rcases h _ _ hv with ⟨p, rfl, hp⟩
    rcases ih with ⟨q, hq, heach⟩
    refine ⟨p ++ q, ?_, p, q, rfl, hp _, heach⟩
    rw [source_append, hq, List.flatten_cons]

namespace Layout

theorem blind_readsFields {fields : List Field}
    (h : ∀ f ∈ fields, f.item.SelfDelimiting → Blind f.item.Reads)
    (delimits : FieldsSelfDelimiting fields) : Blind (ReadsFields fields) := by
  intro ps rest entries hreads tail
  induction fields generalizing ps entries with
  | nil => exact hreads
  | cons f fields ih =>
    rcases f with ⟨name, item⟩
    rcases delimits with ⟨hitem, hfields⟩
    rcases List.forall_mem_cons.1 h with ⟨hblind, hlater⟩
    rcases hreads with ⟨p, q, v, more, rfl, hp, hq, rfl⟩
    exact ⟨p, q, v, more, rfl, hblind hitem hp _, ih hlater hfields hq, rfl⟩

theorem blind_readsCase {idTag : Label} {id : Nat} {cases : List Case}
    (h : ∀ c ∈ cases, Blind (ReadsFields c.fields)) : Blind (ReadsCase idTag cases id) := by
  intro ps rest entries hreads tail
  induction cases with
  | nil => exact hreads
  | cons c cases ih =>
    rcases c with ⟨caseId, name, fields⟩
    rcases List.forall_mem_cons.1 h with ⟨hfields, hcases⟩
    unfold ReadsCase at hreads ⊢
    split
    · rename_i hid
      rw [if_pos hid] at hreads
      rcases hreads with ⟨more, hmore, rfl⟩
      exact ⟨more, hfields hmore tail, rfl⟩
    · rename_i hid
      rw [if_neg hid] at hreads
      exact ih hcases hreads

/-- The grammar of a self-delimiting layout does not depend on what follows. -/
theorem blind_reads {l : Layout} (delimits : l.SelfDelimiting) : Blind l.Reads := by
  induction l with
  | uint size custom omission =>
    intro ps rest v hreads tail
    cases custom <;> exact hreads
  | blob framing custom omission =>
    intro ps rest v hreads tail
    by_cases hconstant : ∃ content, custom = .constant content
    · rcases hconstant with ⟨content, rfl⟩
      exact hreads
    · have hplain : ∀ content, custom ≠ .constant content := fun n hn => hconstant ⟨n, hn⟩
      have hframing : framing ≠ .unframed := fun hu => hconstant (delimits hu)
      rcases (reads_blob_iff hplain).1 hreads with ⟨head, payload, rfl, hopens, hv⟩
      exact (reads_blob_iff hplain).2 ⟨head, payload, rfl, hopens.blind hframing tail, hv⟩
  | nested framing inner custom omission ih =>
    intro ps rest v hreads tail
    rcases hreads with ⟨raw, hraw, hv⟩
    cases framing with
    | unframed => exact ⟨raw, ih (delimits rfl) hraw tail, hv⟩
    | _ =>
      rcases hraw with ⟨head, body, rfl, hopens, hbody⟩
      exact ⟨raw, ⟨head, body, rfl, hopens, hbody⟩, hv⟩
  | array framing element custom ih =>
    intro ps rest v hreads tail
    rcases delimits with ⟨hframing, helement⟩
    rcases hreads with ⟨head, body, items, rfl, hopens, heach, hv⟩
    have hblind : Blind fun p tail w =>
        (framing = .unframed → source p ≠ []) ∧ element.Reads p tail w :=
      fun p _ w hw tail => ⟨hw.1, ih helement hw.2 tail⟩
    have heach := blind_readsEach hblind heach tail
    exact ⟨head, body, items, rfl, hopens.blind hframing tail, heach, hv⟩
  | switch idSize idTag cases custom ih =>
    intro ps rest v hreads tail
    have hcases : ∀ c ∈ cases, Blind (ReadsFields c.fields) := fun c hc =>
      blind_readsFields (ih c hc) (casesSelfDelimiting_iff.1 delimits c hc)
    rcases hreads with ⟨bs, body, entries, rfl, hwidth, hentries, hv⟩
    exact ⟨bs, body, entries, rfl, hwidth, blind_readsCase hcases hentries tail, hv⟩
  | record fields ih =>
    intro ps rest v hreads tail
    rcases hreads with ⟨entries, hentries, rfl⟩
    exact ⟨entries, blind_readsFields ih delimits hentries tail, rfl⟩
  | _ =>
    intro ps rest v hreads
    exact hreads.elim

end Layout

/-! ## No value begins another -/

/-- What a blind grammar describes ends where a computation that accepts it stops, so it is not
continued by more of the same. -/
theorem Decoding.Accepts.prefix_free {x : Decoding α} {P : Prop}
    {G : List Piece → List UInt8 → α → Prop} (hx : x.Accepts P G) (blind : Blind G)
    {ps qs : List Piece} {rest tail more : List UInt8} {a b : α} (hps : G ps rest a)
    (hqs : G qs tail b) (h : source qs = source ps ++ more) : more = [] := by
  have hstart := Reader.inBounds_ofBytes (source qs)
  have hshort := hx.runs hstart ((Reader.rest_ofBytes _).trans h) (blind hps more)
  have hend : (Reader.ofBytes (source qs)).rest = source qs ++ [] := by simp
  have hlong := hx.runs hstart hend (blind hqs [])
  -- one computation on one reader stops in one place
  rw [hshort, EStateM.Result.ok.injEq] at hlong
  have hplace := congrArg Reader.position hlong.2
  have hlength := congrArg List.length h
  simp only [Reader.position_advance] at hplace
  rw [List.length_append] at hlength
  exact List.length_eq_zero_iff.1 (by omega)

end WireLayout
