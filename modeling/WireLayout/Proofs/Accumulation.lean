import WireLayout.Proofs.Emission

/-!
# Accumulation — what a shared writer holds

An encoder appends to a writer and never looks at what it holds.  So what an encoding adds, when it
succeeds and when it fails, is the same on every writer; and after any run of encodings a writer
holds what they added since it was last cleared.

* `Layout.contribution` — what encoding a value adds to a writer, also when it fails;
* `WriterStep`, `Writer.afterSteps` — steps on a shared writer, and the writer after a run of them;
* `contributions` — what several encodings add, one behind the other;
* `Codec.write_accumulates` — the outcome of an encoding, and the content after a run of steps.
-/

namespace WireLayout

/-- What encoding a value adds to a writer: its bytes, or those written before the failure. -/
def Layout.contribution (l : Layout) (v : Value) : List UInt8 :=
  match l.encode v .empty with
  | .ok _ w => w.bytes
  | .error _ w => w.bytes

/-! ## Runs of steps -/

/-- A step on a shared writer. -/
inductive WriterStep where
  /-- A value is encoded behind what is there. -/
  | encode (c : Codec) (v : Value)
  /-- All content is dropped. -/
  | clear

namespace Writer

/-- The writer after a step; what a failing encoding wrote stays. -/
def afterStep (w : Writer) : WriterStep → Writer
  | .encode c v =>
    match c.write v w with
    | .ok _ w' => w'
    | .error _ w' => w'
  | .clear => .empty

/-- The writer after a run of steps. -/
def afterSteps (w : Writer) (steps : List WriterStep) : Writer := steps.foldl afterStep w

theorem afterSteps_append (w : Writer) (first second : List WriterStep) :
    w.afterSteps (first ++ second) = (w.afterSteps first).afterSteps second :=
  List.foldl_append

end Writer

/-- Values to encode one behind the other, as steps. -/
def encodings (puts : List (Codec × Value)) : List WriterStep :=
  puts.map fun put => .encode put.1 put.2

/-- What several encodings add, one behind the other. -/
def contributions (puts : List (Codec × Value)) : List UInt8 :=
  puts.flatMap fun put => put.1.layout.contribution put.2

/-! ## What one step adds -/

namespace Codec

theorem write_of_encode_ok {c : Codec} {v : Value} {b : List UInt8} (h : c.encode v = .ok b)
    (w : Writer) : c.write v w = .ok () (w.push b) ∧ c.layout.contribution v = b := by
  have happend := c.layout.appendOnly_encode v w
  unfold encode write Writer.collect at h
  split at h
  · rename_i t ht
    cases h
    rw [ht] at happend
    exact ⟨happend, by simp only [Layout.contribution, ht]⟩
  · cases h

theorem write_of_encode_error {c : Codec} {v : Value} {e : Error} (h : c.encode v = .error e)
    (w : Writer) : c.write v w = .error e (w.push (c.layout.contribution v)) := by
  have happend := c.layout.appendOnly_encode v w
  unfold encode write Writer.collect at h
  split at h
  · cases h
  · rename_i t ht
    cases h
    rw [ht] at happend
    simp only [Layout.contribution, ht]
    exact happend

end Codec

namespace Writer

/-- An encoding adds its contribution, whether or not it succeeds. -/
theorem afterStep_encode (w : Writer) (c : Codec) (v : Value) :
    w.afterStep (.encode c v) = w.push (c.layout.contribution v) := by
  cases h : c.encode v with
  | ok b =>
    rcases Codec.write_of_encode_ok h w with ⟨hwrite, hcontribution⟩
    simp only [afterStep, hwrite, hcontribution]
  | error e => simp only [afterStep, Codec.write_of_encode_error h w]

/-- Encodings add their contributions one behind the other. -/
theorem bytes_afterSteps_encodings (w : Writer) (puts : List (Codec × Value)) :
    (w.afterSteps (encodings puts)).bytes = w.bytes ++ contributions puts := by
  induction puts generalizing w with
  | nil => simp [encodings, contributions, afterSteps]
  | cons put puts ih =>
    have hlater := ih (w.push (put.1.layout.contribution put.2))
    have hstep : w.afterSteps (encodings (put :: puts)) =
        (w.push (put.1.layout.contribution put.2)).afterSteps (encodings puts) := by
      rw [← afterStep_encode]
      rfl
    rw [hstep, hlater, bytes_push, List.append_assoc]
    rfl

end Writer

/-- Behind the last time that a writer was cleared, a run has encodings only. -/
theorem encodings_behind_clear (steps : List WriterStep) :
    (∃ puts, steps = encodings puts) ∨
      ∃ before puts, steps = before ++ .clear :: encodings puts := by
  induction steps with
  | nil => exact .inl ⟨[], rfl⟩
  | cons step steps ih =>
    rcases ih with ⟨puts, rfl⟩ | ⟨before, puts, rfl⟩
    · cases step with
      | encode c v => exact .inl ⟨(c, v) :: puts, rfl⟩
      | clear => exact .inr ⟨[], puts, rfl⟩
    · exact .inr ⟨step :: before, puts, rfl⟩

namespace Codec

/-- Encoding on a writer succeeds and fails as it does on a new one.  It appends the bytes of the
value, or what was written before the failure, which the layout and the value alone decide.

After a run of encodings the writer holds what it held before, followed by what each of them added;
if it was cleared, it holds what was added since then.  So bytes that are written stay as they
are. -/
theorem write_accumulates :
    (∀ (c : Codec) (v : Value) (w : Writer),
      match c.encode v with
      | .ok b => c.write v w = .ok () (w.push b) ∧ c.layout.contribution v = b
      | .error e => c.write v w = .error e (w.push (c.layout.contribution v))) ∧
    (∀ (w : Writer) (steps : List WriterStep),
      (∃ puts, steps = encodings puts ∧
        (w.afterSteps steps).bytes = w.bytes ++ contributions puts) ∨
        ∃ before puts, steps = before ++ .clear :: encodings puts ∧
          (w.afterSteps steps).bytes = contributions puts) ∧
    ∀ (w : Writer) (before : List WriterStep) (puts : List (Codec × Value)),
      (w.afterSteps before).bytes <+: (w.afterSteps (before ++ encodings puts)).bytes := by
  refine ⟨?_, ?_, ?_⟩
  · intro c v w
    cases h : c.encode v with
    | ok b => exact write_of_encode_ok h w
    | error e => exact write_of_encode_error h w
  · intro w steps
    rcases encodings_behind_clear steps with ⟨puts, rfl⟩ | ⟨before, puts, rfl⟩
    · exact .inl ⟨puts, rfl, w.bytes_afterSteps_encodings puts⟩
    · refine .inr ⟨before, puts, rfl, ?_⟩
      -- what was there before the writer was cleared is gone
      have hcleared : w.afterSteps (before ++ .clear :: encodings puts) =
          Writer.empty.afterSteps (encodings puts) := w.afterSteps_append before _
      rw [hcleared, Writer.bytes_afterSteps_encodings, Writer.bytes_empty, List.nil_append]
  · intro w before puts
    rw [Writer.afterSteps_append, Writer.bytes_afterSteps_encodings]
    exact List.prefix_append _ _

end Codec

end WireLayout
