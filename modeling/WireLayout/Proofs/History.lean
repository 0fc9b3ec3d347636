import WireLayout.Proofs.Meaning.Check
import WireLayout.Proofs.Meaning.Decode
import WireLayout.Proofs.Meaning.Encode
import WireLayout.Proofs.Registration

/-!
# History — what was compiled before has little influence

A registry gives one codec for all layouts that are equal, whichever of them came first.

* `Registry.after` — the registry after layouts were compiled one after the other;
* `Codec.Agrees` — two codecs of one size encode and decode alike;
* `Registry.compile_after` — after any history a layout gets a codec that agrees with its own.

A layout that is refused alone may be accepted if an equal one was compiled before: a truth value
equals an integer, but cannot be written as one (`Registry.compile_after_integer`).
-/

namespace WireLayout

variable {α γ : Type}

/-! ## Results that agree -/

/-- Both results are values that agree under `f`, or both are failures of one class. -/
inductive Agree (f : α → γ) : Except Error α → Except Error α → Prop where
  | ok {a b} : f a = f b → Agree f (.ok a) (.ok b)
  | error {e e'} : e.kind = e'.kind → Agree f (.error e) (.error e')

theorem agree_of_outcome {f : α → γ} {x y : Except Error α} (h : outcome f x = outcome f y) :
    Agree f x y := by
  cases x with
  | ok a =>
    cases y with
    | ok b => exact .ok (Except.ok.inj h)
    | error e => cases h
  | error e =>
    cases y with
    | ok b => cases h
    | error e' => exact .error (Error.kind_of_outline (Except.error.inj h))

namespace Codec

variable {c d : Codec}

/-- Two codecs have one size and write the same bytes.  They read the same values if neither layout
shows a truth value or a chain for an integer; otherwise values of the same meaning, as long as no
conversion looks at the spelling.  Where one fails, so does the other, in the same class. -/
structure Agrees (c d : Codec) : Prop where
  size : c.staticSize.map Numeral.value = d.staticSize.map Numeral.value
  encode : ∀ v, Agree id (c.encode v) (d.encode v)
  decode : c.layout.Everywhere View.exact.Shows → d.layout.Everywhere View.exact.Shows →
    ∀ data whole, Agree id (c.decode data whole) (d.decode data whole)
  decode_meaning : c.layout.Everywhere View.meaning.RespectedBy →
    ∀ data whole, Agree Value.meaning (c.decode data whole) (d.decode data whole)

theorem staticSize_layout (c : Codec) : c.layout.staticSize = .ok c.staticSize :=
  (Except.seq_ok_iff.1 c.accepted).2

theorem agree_decode {view : View} (h : c.layout.meaning = d.layout.meaning)
    (hshown : c.layout.Everywhere view.Shows) (hrespected : c.layout.Everywhere view.RespectedBy)
    (hshown' : d.layout.Everywhere view.Shows) (hrespected' : d.layout.Everywhere view.RespectedBy)
    (data : List UInt8) (whole : Bool) :
    Agree view.value (c.decode data whole) (d.decode data whole) := by
  have hc := Layout.alike_decode c.everywhere_checked hshown hrespected
  have hd := Layout.alike_decode d.everywhere_checked hshown' hrespected'
  rw [h] at hc
  have hread : Alike view.value c.layout.decode d.layout.decode :=
    fun r => (hc r).trans (hd r).symm
  refine agree_of_outcome ?_
  unfold Codec.decode read
  rcases hread.results (Reader.ofBytes data) with
    ⟨v, w, r, hv, hw, hvw⟩ | ⟨e, e', r, he, he', hee'⟩
  · simp only [hv, hw]
    split
    · rfl
    · exact congrArg Except.ok hvw
  · rw [he, he']
    exact congrArg Except.error hee'

/-- Layouts of the same meaning have codecs that agree. -/
theorem agrees_of_meaning (h : c.layout.meaning = d.layout.meaning) : c.Agrees d where
  size := by
    have hsizes := (c.layout.staticSize_meaning).symm.trans
      ((congrArg Layout.staticSize h).trans d.layout.staticSize_meaning)
    rw [staticSize_layout, staticSize_layout] at hsizes
    have hvalues := congrArg (Option.map Numeral.value) (Except.ok.inj hsizes)
    rw [Option.map_map, Option.map_map] at hvalues
    exact hvalues
  encode v := by
    have hc := Layout.alike_encode c.everywhere_checked v
    have hd := Layout.alike_encode d.everywhere_checked v
    rw [h] at hc
    exact agree_of_outcome (outcome_collect fun w => (hc w).trans (hd w).symm)
  decode hc hd data whole := agree_decode h hc (fun p _ => View.respectedBy_exact p) hd
    (fun p _ => View.respectedBy_exact p) data whole
  decode_meaning respected data whole := by
    have hrespected : d.layout.Everywhere View.meaning.RespectedBy := by
      rw [← Layout.everywhere_meaning View.respectedBy_meaning, ← h]
      exact (Layout.everywhere_meaning View.respectedBy_meaning).2 respected
    exact agree_decode h (fun p _ => View.shows_meaning p) respected
      (fun p _ => View.shows_meaning p) hrespected data whole

end Codec

namespace Layout

/-- Conversions that are the same in both layouts are one conversion. -/
def Coherent (m l : Layout) : Prop := ∀ c d, m.Uses c → l.Uses d → c.same d = true → c = d

/-- Every number of bytes that a layout is known to take can be spelt. -/
def SizeSpelt (l : Layout) : Prop :=
  ∀ size, l.staticSize = .ok size → optionSpellable size = true

theorem distinctive_of_everywhere_checked {l : Layout} (checked : l.Everywhere Checked) :
    l.Everywhere Distinctive :=
  checked.mono fun _ => distinctive_of_checked

end Layout

namespace Codec

variable {c : Codec} {l : Layout}

/-- A codec and a distinctive layout that are the same have the same meaning. -/
theorem meaning_of_same (coherent : c.layout.Coherent l)
    (distinctive : l.Everywhere Layout.Distinctive) (h : c.layout.same l = true) :
    c.layout.meaning = l.meaning :=
  Layout.meaning_of_same (fun _ _ => coherent _ _) (c.everywhere_checked.and c.layout.converts_uses)
    (distinctive.and l.converts_uses) h

/-- A distinctive layout that is the same as one with a codec has a codec, too. -/
theorem exists_ofLayout_of_same (coherent : c.layout.Coherent l)
    (distinctive : l.Everywhere Layout.Distinctive) (h : c.layout.same l = true) :
    ∃ d, ofLayout l = .ok d := by
  have hmeaning := meaning_of_same coherent distinctive h
  have hcheck : l.check = .ok () := by
    rw [← Layout.check_meaning distinctive, ← hmeaning,
      Layout.check_meaning (Layout.distinctive_of_everywhere_checked c.everywhere_checked)]
    exact Layout.check_ok_iff.2 c.everywhere_checked
  have hsize : l.staticSize.map (Option.map Numeral.meaning) =
      .ok (c.staticSize.map Numeral.meaning) := by
    rw [← Layout.staticSize_meaning, ← hmeaning, Layout.staticSize_meaning, staticSize_layout]
    rfl
  rcases Except.map_ok_iff.1 hsize with ⟨size, hsize, _⟩
  rcases exists_ofLayout (Except.seq_ok_iff.2 ⟨hcheck, hsize⟩) with ⟨d, hd, _⟩
  exact ⟨d, hd⟩

end Codec

/-! ## Histories -/

namespace Registry

variable {s : Registry} {history : List Layout} {l : Layout}

/-- The registry that compiling a layout leaves behind, whether it succeeds or not. -/
def next (s : Registry) (l : Layout) : Registry :=
  match compile l s with
  | .ok _ t => t
  | .error _ t => t

/-- The registry after layouts were compiled one after the other, those included that failed. -/
def after (history : List Layout) : Registry := history.foldl next empty

/-- Compiling a layout adds at most its own codec. -/
theorem mem_next {c : Codec} (h : c ∈ (s.next l).codecs) : c ∈ s.codecs ∨ c.layout = l.settle := by
  have hkeep : ∀ {d : Codec}, Codec.ofLayout l.settle = .ok d → c ∈ (s.keep d).codecs →
      c ∈ s.codecs ∨ c.layout = l.settle := by
    intro d hd hc
    rcases List.mem_append.1 hc with hc | hc
    · exact .inl hc
    · rw [List.mem_singleton.1 hc]
      exact .inr (Codec.layout_of_ofLayout hd)
  have hcompiles := compiles l s
  unfold next at h
  cases hresult : compile l s with
  | ok d t =>
    rw [hresult] at h hcompiles
    cases hcompiles with
    | found => exact .inl h
    | added _ _ hd _ => exact hkeep hd h
  | error e t =>
    rw [hresult] at h hcompiles
    cases hcompiles with
    | refused => exact .inl h
    | rejected => exact .inl h
    | unreported _ _ hd _ => exact hkeep hd h

/-- Compiling several layouts adds at most their own codecs. -/
theorem mem_foldl_next {c : Codec} (h : c ∈ (history.foldl next s).codecs) :
    c ∈ s.codecs ∨ ∃ m ∈ history, c.layout = m.settle := by
  induction history generalizing s with
  | nil => exact .inl h
  | cons m history ih =>
    rcases ih h with hnext | ⟨n, hn, hlayout⟩
    · rcases mem_next hnext with hmem | hlayout
      · exact .inl hmem
      · exact .inr ⟨m, List.mem_cons_self, hlayout⟩
    · exact .inr ⟨n, List.mem_cons_of_mem _ hn, hlayout⟩

theorem mem_after {c : Codec} (h : c ∈ (after history).codecs) :
    ∃ m ∈ history, c.layout = m.settle :=
  (mem_foldl_next h).resolve_left List.not_mem_nil

/-- A failure in a registry is the failure of the layout alone. -/
theorem compile_error {e : Error} {t : Registry} (h : compile l s = .error e t) :
    Codec.compile l = .error e := by
  have hcompiles := compiles l s
  rw [h] at hcompiles
  rw [Codec.compile_error_iff]
  cases hcompiles with
  | refused he => exact .inl he
  | rejected hform _ he => exact .inr ⟨hform, .inl he⟩
  | unreported hform _ hc he => exact .inr ⟨hform, .inr ⟨_, hc, he⟩⟩

section

variable (coherent : ∀ d ∈ s.codecs, d.layout.Coherent l.settle)
include coherent

/-- The codec from a registry agrees with the codec of the layout alone. -/
theorem agrees_of_compile {c d : Codec} {t : Registry} (hc : Codec.compile l = .ok c)
    (hd : compile l s = .ok d t) : c.Agrees d ∧ (d ∈ s.codecs ∨ d.layout = l.settle) := by
  rcases Codec.compile_ok_iff.1 hc with ⟨_, hc, _⟩
  have hlayout : c.layout = l.settle := Codec.layout_of_ofLayout hc
  have hcompiles := compiles l s
  rw [hd] at hcompiles
  cases hcompiles with
  | found _ hmem hsame =>
    have distinctive : l.settle.Everywhere Layout.Distinctive := by
      rw [← hlayout]
      exact Layout.distinctive_of_everywhere_checked c.everywhere_checked
    have hmeaning := Codec.meaning_of_same (coherent d hmem) distinctive hsame
    exact ⟨Codec.agrees_of_meaning (by rw [hlayout, hmeaning]), .inl hmem⟩
  | added _ _ hown _ =>
    have hown : d.layout = l.settle := Codec.layout_of_ofLayout hown
    exact ⟨Codec.agrees_of_meaning (by rw [hlayout, hown]), .inr hown⟩

/-- A distinctive layout that a registry compiles compiles alone, if its size can be spelt. -/
theorem exists_compile_alone (distinctive : l.settle.Everywhere Layout.Distinctive)
    (spelt : l.settle.SizeSpelt) {d : Codec} {t : Registry} (hd : compile l s = .ok d t) :
    ∃ c, Codec.compile l = .ok c := by
  have hcompiles := compiles l s
  rw [hd] at hcompiles
  cases hcompiles with
  | found hform hmem hsame =>
    rcases Codec.exists_ofLayout_of_same (coherent d hmem) distinctive hsame with ⟨c, hc⟩
    have hsize : c.layout.staticSize = .ok c.staticSize := c.staticSize_layout
    rw [Codec.layout_of_ofLayout hc] at hsize
    exact ⟨c, Codec.compile_ok_iff.2 ⟨hform, hc, if_pos (spelt _ hsize)⟩⟩
  | added hform _ hc hreport => exact ⟨d, Codec.compile_ok_iff.2 ⟨hform, hc, hreport⟩⟩

end

/-- After any history a layout that compiles alone compiles to a codec that agrees with its own; a
layout that does not compile then does not compile alone, and fails alone in the same way.  The
converse of that needs a layout that cannot be taken for another one, and a size that can be
spelt. -/
theorem compile_after (coherent : ∀ m ∈ history, m.settle.Coherent l.settle) :
    (∀ c, Codec.compile l = .ok c → ∃ d t, compile l (after history) = .ok d t ∧ c.Agrees d ∧
      ∃ m ∈ l :: history, d.layout = m.settle) ∧
    (∀ e t, compile l (after history) = .error e t → Codec.compile l = .error e) ∧
    (l.settle.Everywhere Layout.Distinctive → l.settle.SizeSpelt →
      ∀ e, Codec.compile l = .error e → ∃ t, compile l (after history) = .error e t) := by
  have hcoherent : ∀ d ∈ (after history).codecs, d.layout.Coherent l.settle := by
    intro d hd
    rcases mem_after hd with ⟨m, hm, hlayout⟩
    rw [hlayout]
    exact coherent m hm
  refine ⟨?_, fun e t => compile_error, ?_⟩
  · intro c hc
    cases hresult : compile l (after history) with
    | ok d t =>
      rcases agrees_of_compile hcoherent hc hresult with ⟨hagrees, hmem | hown⟩
      · rcases mem_after hmem with ⟨m, hm, horigin⟩
        exact ⟨d, t, rfl, hagrees, m, List.mem_cons_of_mem _ hm, horigin⟩
      · exact ⟨d, t, rfl, hagrees, l, List.mem_cons_self, hown⟩
    | error e t =>
      rw [compile_error hresult] at hc
      cases hc
  · intro distinctive spelt e he
    cases hresult : compile l (after history) with
    | ok d t =>
      rcases exists_compile_alone hcoherent distinctive spelt hresult with ⟨c, hc⟩
      rw [he] at hc
      cases hc
    | error e' t =>
      have halone := compile_error hresult
      rw [he] at halone
      cases halone
      exact ⟨t, rfl⟩

end Registry

/-! ## A layout in two spellings -/

namespace Layout

/-- Numbers of two bytes, shown one higher than they are written, behind their count. -/
def numbers (width : Numeral) : Layout :=
  .array (.counted width) (.uint 2 (.converted Conversion.addOne) .off)
    (.converted Conversion.tuple)

/-- A record that is refused. -/
def twins : Layout := .record [.mk "twin" (.uint 1 .plain .off), .mk "twin" (.uint 1 .plain .off)]

theorem uses_numbers {width : Numeral} {c : Conversion} (h : (numbers width).Uses c) :
    c = Conversion.addOne ∨ c = Conversion.tuple := by
  rcases h with ⟨p, hp, hc⟩
  cases hp with
  | self =>
    cases hc
    exact .inr rfl
  | array hp =>
    cases hp
    cases hc
    exact .inl rfl

theorem coherent_numbers (width width' : Numeral) : (numbers width).Coherent (numbers width') := by
  intro c d hc hd hsame
  rcases uses_numbers hc with rfl | rfl <;> rcases uses_numbers hd with rfl | rfl
  · rfl
  · cases hsame
  · cases hsame
  · rfl

theorem not_uses_twins {c : Conversion} : ¬ twins.Uses c := by
  rintro ⟨p, hp, hc⟩
  cases hp with
  | self => cases hc
  | record hf hp =>
    simp only [List.mem_cons, List.not_mem_nil, or_false, or_self] at hf
    cases hf
    cases hp
    cases hc

theorem shows_numbers (width : Numeral) : (numbers width).Everywhere View.exact.Shows := by
  refine everywhere_array.2 ⟨trivial, everywhere_uint.2 ?_⟩
  rintro n ⟨⟩

theorem shows_twins : twins.Everywhere View.exact.Shows := by
  refine everywhere_record.2 ⟨?_, ?_⟩ <;> simp [View.Shows, View.exact, Field.name, Field.item]

end Layout

/-- The compiled numbers, with a truth value for the width of the count. -/
def Codec.numbers : Codec := ⟨.numbers (.truth true), none, rfl⟩

/-- After a failure and the same layout in another spelling, the numbers are read as ever. -/
theorem Registry.compile_after_respelt :
    ∃ d t, compile (.numbers (.truth true)) (after [.twins, .numbers 1]) = .ok d t ∧
      d.decode [1, 0, 5] true = .ok (.tuple [.int 6]) := by
  have hcompile : Codec.compile (.numbers (.truth true)) = .ok .numbers := rfl
  have hcoherent : ∀ m ∈ [Layout.twins, .numbers 1],
      m.settle.Coherent (Layout.numbers (.truth true)).settle := by
    intro m hm
    rcases List.mem_pair.1 hm with rfl | rfl
    · exact fun c d hc => absurd hc Layout.not_uses_twins
    · exact Layout.coherent_numbers 1 (.truth true)
  rcases (compile_after hcoherent).1 .numbers hcompile with ⟨d, t, hd, hagrees, m, hm, horigin⟩
  have hshows : d.layout.Everywhere View.exact.Shows := by
    rw [horigin]
    simp only [List.mem_cons, List.not_mem_nil, or_false] at hm
    rcases hm with rfl | rfl | rfl
    · exact Layout.shows_numbers _
    · exact Layout.shows_twins
    · exact Layout.shows_numbers _
  have hdecode := hagrees.decode (Layout.shows_numbers _) hshows [1, 0, 5] true
  have halone : Codec.numbers.decode [1, 0, 5] true = .ok (.tuple [.int 6]) := rfl
  rw [halone] at hdecode
  refine ⟨d, t, hd, ?_⟩
  generalize d.decode [1, 0, 5] true = result at hdecode
  cases hdecode with
  | ok heq => exact congrArg Except.ok heq.symm

/-! ## A truth value after an integer -/

namespace Registry

variable {s : Registry} {l : Layout} {d : Codec}

/-- Where an equal layout has a codec, a layout that can be looked up is not checked. -/
theorem compile_of_mem (hform : Codec.lookUpForm l = .ok l.settle) (hd : d ∈ s.codecs)
    (hsame : d.layout.same l.settle = true) : ∃ c, compile l s = .ok c s := by
  have hcompiles := compiles l s
  have hfind : ∃ found, s.find? l.settle = some found := findFrom_of_mem hd hsame
  rcases hfind with ⟨found, hfind⟩
  cases hresult : compile l s with
  | ok c t =>
    rw [hresult] at hcompiles
    cases hcompiles with
    | found => exact ⟨c, rfl⟩
    | added _ hnone =>
      rw [hfind] at hnone
      cases hnone
  | error e t =>
    rw [hresult] at hcompiles
    cases hcompiles with
    | refused he =>
      rw [hform] at he
      cases he
    | rejected _ hnone =>
      rw [hfind] at hnone
      cases hnone
    | unreported _ hnone =>
      rw [hfind] at hnone
      cases hnone

/-- The first layout that is compiled gets its codec. -/
theorem mem_after_singleton {c : Codec} (h : Codec.compile l = .ok c) :
    c ∈ (after [l]).codecs := by
  rcases Codec.compile_ok_iff.1 h with ⟨hform, hc, hreport⟩
  have hcompiles := compiles l empty
  have hnext : after [l] = empty.next l := rfl
  rw [hnext, next]
  cases hresult : compile l empty with
  | ok d t =>
    rw [hresult] at hcompiles
    cases hcompiles with
    | found _ hd => cases hd
    | added _ _ hd =>
      rw [hc] at hd
      cases hd
      exact List.mem_append_right _ (List.mem_singleton.2 rfl)
  | error e t =>
    rw [compile_error hresult] at h
    cases h

/-- A constant that is a truth value cannot be written, and is refused; after an equal integer it is
not looked at. -/
theorem compile_after_integer :
    (∃ e, Codec.compile (.uint 1 (.constant (.truth true)) .off) = .error e ∧
      e.kind = .typeMisuse) ∧
    ∃ c t, compile (.uint 1 (.constant (.truth true)) .off)
      (after [.uint 1 (.constant 1) .off]) = .ok c t := by
  refine ⟨⟨.unexpected .integer "bool", rfl, rfl⟩, ?_⟩
  have hsize : optionSpellable (some 1) = true := by
    rw [optionSpellable, Numeral.spellable]
    exact spellable_of_lt (by decide)
  have haccept : (Layout.uint 1 (.constant 1) .off).accept = .ok (some 1) := rfl
  rcases Codec.exists_compile rfl haccept hsize with ⟨d, hd, hlayout⟩
  have hform : Codec.lookUpForm (.uint 1 (.constant (.truth true)) .off) =
      .ok (Layout.uint 1 (.constant (.truth true)) .off).settle := rfl
  have hsame : d.layout.same (Layout.uint 1 (.constant (.truth true)) .off).settle = true := by
    rw [hlayout]
    rfl
  rcases compile_of_mem hform (mem_after_singleton hd) hsame with ⟨c, hc⟩
  exact ⟨c, _, hc⟩

end Registry

end WireLayout
