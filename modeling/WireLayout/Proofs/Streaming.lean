import WireLayout.Proofs.Canonical

/-!
# Streaming — values one behind the other

A self-delimiting layout shows where each of its values ends, whatever follows.  So several values
can be written to one writer, behind and in front of other content, and read again one by one.

* `Codec.readRun` — reads a number of values from one cursor;
* `Layout.FrameTailSafe` — inside a frame, items without a frame of their own come last;
* `Codec.readRun_writeEach` — a run of values is read as their canonical forms, up to its own end.
-/

namespace WireLayout

open Piece

/-- Reads a number of values one after the other from one cursor. -/
def Codec.readRun (c : Codec) : Nat → Decoding (List Value)
  | 0 => pure []
  | n + 1 => do
    let v ← c.read
    let vs ← readRun c n
    return v :: vs

/-- A run of values is read in pieces that each stand before the rest of the run. -/
theorem Codec.accepts_readRun (c : Codec) (n : Nat) :
    (c.readRun n).Accepts (c.layout.Everywhere Layout.NonNegative) fun ps rest vs =>
      vs.length = n ∧ ReadsEach c.layout.Reads ps rest vs := by
  induction n with
  | zero =>
    refine (Decoding.accepts_pure []).congr fun ps rest vs => ?_
    cases vs <;> simp [ReadsEach]
  | succ n ih =>
    have hall := c.layout.accepts_decode.bind fun v => ih.bind_pure (v :: ·)
    refine hall.congr fun ps rest vs => ?_
    constructor
    · intro hvs
      rcases hvs with ⟨p, q, v, rfl, hv, later, ⟨rfl, heach⟩, rfl⟩
      exact ⟨rfl, p, q, rfl, hv, heach⟩
    · intro hvs
      rcases hvs with ⟨hlength, heach⟩
      cases vs with
      | nil => cases hlength
      | cons v later =>
        rcases heach with ⟨p, q, rfl, hv, heach⟩
        exact ⟨p, q, v, rfl, hv, later, ⟨Nat.succ.inj hlength, heach⟩, rfl⟩

/-! ## Writing on a writer that holds something -/

/-- What an encoder writes on its own it appends to any writer. -/
theorem Encoding.AppendOnly.run_of_collect {x : Encoding Unit} (hx : x.AppendOnly)
    {b : List UInt8} (h : Writer.collect x = .ok b) (w : Writer) : x w = .ok () (w.push b) := by
  rw [hx w]
  unfold Writer.collect at h
  split at h
  · rename_i t ht
    cases h
    rw [ht]
    rfl
  · cases h

/-- Values that can each be encoded can be written in a row. -/
theorem collect_writeEach_of_forall {element : Value → Encoding Unit}
    (h : ∀ v, (element v).AppendOnly) {items : List Value}
    (hitems : ∀ v ∈ items, ∃ b, Writer.collect (element v) = .ok b) :
    ∃ body, Writer.collect (writeEach element items) = .ok body := by
  induction items with
  | nil => exact ⟨[], rfl⟩
  | cons v items ih =>
    rcases List.forall_mem_cons.1 hitems with ⟨⟨first, hfirst⟩, hlater⟩
    rcases ih hlater with ⟨later, hlater⟩
    exact ⟨first ++ later, (collect_writeEach_cons_ok_iff h).2 ⟨first, later, hfirst, hlater, rfl⟩⟩

/-- A cursor between two parts of the content of a writer stands before the second. -/
theorem Writer.reader_between {w : Writer} {before after : List UInt8}
    (h : w.bytes = before ++ after) :
    (Reader.mk w.content before.length).InBounds ∧
      (Reader.mk w.content before.length).rest = after := by
  have hbytes : (Reader.mk w.content before.length).bytes = before ++ after := h
  constructor
  · have hlength := congrArg List.length hbytes
    rw [Reader.length_bytes, List.length_append] at hlength
    have hle : before.length ≤ (Reader.mk w.content before.length).size := by omega
    exact ⟨Int.natCast_nonneg _, Int.ofNat_le.2 hle⟩
  · rw [Reader.rest, hbytes, Int.toNat_natCast, List.drop_left]

namespace Layout

/-! ## Frames inside self-delimiting layouts -/

/-- Inside a frame, items without a frame of their own come last. -/
def FrameTailSafe : Layout → Prop
  | .nested framing inner _ _ => framing ≠ .unframed → inner.TailSafe
  | _ => True

theorem fieldsTailSafe_of_selfDelimiting {fields : List Field}
    (h : ∀ f ∈ fields, f.item.SelfDelimiting → f.item.TailSafe)
    (delimits : FieldsSelfDelimiting fields) : FieldsTailSafe fields := by
  induction fields with
  | nil => trivial
  | cons f fields ih =>
    rcases f with ⟨name, item⟩
    rcases delimits with ⟨hitem, hfields⟩
    rcases List.forall_mem_cons.1 h with ⟨hsafe, hlater⟩
    exact ⟨hsafe hitem, fun _ => hitem, ih hlater hfields⟩

/-- In a self-delimiting layout, items without a frame can be out of place only inside frames. -/
theorem tailSafe_of_selfDelimiting {l : Layout} (delimits : l.SelfDelimiting)
    (frames : l.Everywhere FrameTailSafe) : l.TailSafe := by
  induction l with
  | nested framing inner custom omission ih =>
    rcases everywhere_nested.1 frames with ⟨hframe, hinner⟩
    by_cases hframing : framing = .unframed
    · exact ih (delimits hframing) hinner
    · exact hframe hframing
  | array framing element custom ih =>
    rcases delimits with ⟨hframing, helement⟩
    exact ⟨helement, ih helement (everywhere_array.1 frames).2, fun h => absurd h hframing⟩
  | switch idSize idTag cases custom ih =>
    have hcases := casesSelfDelimiting_iff.1 delimits
    refine casesTailSafe_iff.2 fun c hc => ?_
    exact fieldsTailSafe_of_selfDelimiting (fun f hf hitem =>
      ih c hc f hf hitem ((everywhere_switch.1 frames).2 c hc f hf)) (hcases c hc)
  | record fields ih =>
    exact fieldsTailSafe_of_selfDelimiting (fun f hf hitem =>
      ih f hf hitem ((everywhere_record.1 frames).2 f hf)) delimits
  | _ => trivial

end Layout

/-! ## Runs of values -/

namespace Codec

/-- Values of a self-delimiting layout that are written one behind the other, with other content
before and after them, are read one by one as their canonical forms; the cursor stops at the end of
the last one.  There are such forms unless a conversion refuses what was encoded. -/
theorem readRun_writeEach {c : Codec} (built : c.layout.Built) (delimits : c.layout.SelfDelimiting)
    (frames : c.layout.Everywhere Layout.FrameTailSafe) {vs : List Value}
    (hencode : ∀ v ∈ vs, ∃ b, c.encode v = .ok b) (before after : List UInt8) :
    ∃ body w,
      (do
        Writer.write before
        writeEach c.write vs
        Writer.write after) Writer.empty = .ok () w ∧
      w.bytes = before ++ body ++ after ∧
      (∀ ws, vs.mapM c.layout.canonical = .ok ws →
        c.readRun vs.length ⟨w.content, before.length⟩ =
          .ok ws ⟨w.content, (before ++ body).length⟩) ∧
      ∀ e, vs.mapM c.layout.canonical = .error e → c.layout.Refuses e := by
  have happend := c.layout.appendOnly_encode
  rcases collect_writeEach_of_forall happend hencode with ⟨body, hbody⟩
  let w := ((Writer.empty.push before).push body).push after
  have hcontent : w.bytes = before ++ body ++ after := by simp [w]
  refine ⟨body, w, ?_, hcontent, ?_, ?_⟩
  · have hrun := (appendOnly_writeEach happend vs).run_of_collect hbody
      (Writer.empty.push before)
    exact EStateM.bind_ok_iff.2 ⟨(), _, rfl, EStateM.bind_ok_iff.2 ⟨(), _, hrun, rfl⟩⟩
  · intro ws hws
    have hsafe := Layout.tailSafe_of_selfDelimiting delimits frames
    have hrereads := Layout.rereads built.everywhere_wellMade hsafe
    -- each value is read in front of the later ones and of what was appended
    rcases @Layout.readsEach_of_collect (.fixed 0) _ hrereads delimits nofun _ _ _ hbody hws after
      with ⟨hlength, ps, rfl, heach⟩
    rw [List.append_assoc] at hcontent
    rcases Writer.reader_between hcontent with ⟨hstart, hrest⟩
    have hread := (c.accepts_readRun vs.length).runs hstart hrest ⟨hlength, by simpa using heach⟩
    rw [hread, List.length_append]
    rfl
  · intro e herror
    exact Layout.refuses_of_each (fun v b => Layout.refuses_of_canonical) hbody herror

end Codec

/-- A value of the specimen without identifiers and data. -/
def Layout.specimenEmpty : Value :=
  .dict [("body", .dict [("ids", .tuple []), ("choice", .dict [("kind", .text "empty")])])]

/-- Two values behind one byte, and in front of bytes that look like the start of a third. -/
theorem Codec.readRun_writeEach_specimen :
    ∃ body w,
      (do
        Writer.write [7]
        writeEach Codec.specimen.write [Layout.specimenValue, Layout.specimenEmpty]
        Writer.write [1, 2, 6]) Writer.empty = .ok () w ∧
      w.bytes = [7] ++ body ++ [1, 2, 6] ∧
      Codec.specimen.readRun 2 ⟨w.content, 1⟩ =
        .ok [Layout.specimenValue, Layout.specimenEmpty] ⟨w.content, ([7] ++ body).length⟩ := by
  have hframes : Layout.specimen.Everywhere Layout.FrameTailSafe := by
    have hbody : Layout.specimenBody.TailSafe := Layout.tailSafe_specimen.2.2.1
    simpa [Layout.specimen, Layout.specimenBody, Layout.everywhere_record, Layout.everywhere_nested,
      Layout.everywhere_array, Layout.everywhere_switch, Layout.FrameTailSafe, Field.item,
      Case.fields] using hbody
  have hencode : ∀ v ∈ [Layout.specimenValue, Layout.specimenEmpty],
      ∃ b, Codec.specimen.encode v = .ok b := by
    simp only [List.forall_mem_cons]
    exact ⟨⟨[1, 2, 6, 2, 3, 4, 1, 5, 5], rfl⟩, ⟨[1, 2, 2, 0, 0], rfl⟩, by simp⟩
  rcases readRun_writeEach (c := .specimen) Layout.built_specimen Layout.selfDelimiting_specimen
    hframes hencode [7] [1, 2, 6] with ⟨body, w, hwrite, hbytes, hread, _⟩
  exact ⟨body, w, hwrite, hbytes, hread _ rfl⟩

end WireLayout
