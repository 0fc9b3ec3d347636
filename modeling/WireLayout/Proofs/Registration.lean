import WireLayout.Proofs.Outcome

/-!
# Registration — the codec that a layout gets

* `Codec.exists_compile` — a layout that passes its checks is compiled;
* `Registry.Compiles` — all that compiling a layout in a registry can come to;
* `Registry.compile_ok` — a registry gives the codec of the layout, or that of an equal one;
* `Registry.exists_compile` — a layout that passes its checks is compiled in any registry.
-/

namespace WireLayout

/-! ## Compiling alone -/

namespace Codec

variable {l : Layout} {c : Codec}

theorem layout_of_ofLayout (h : ofLayout l = .ok c) : c.layout = l := by
  unfold ofLayout at h
  split at h
  · cases h
    rfl
  · cases h

theorem exists_ofLayout {size : Option Numeral} (h : l.accept = .ok size) :
    ∃ c, ofLayout l = .ok c ∧ c.staticSize = size := by
  unfold ofLayout
  split
  · rename_i size' hsize
    rw [h, Except.ok.injEq] at hsize
    exact ⟨_, rfl, hsize.symm⟩
  · rename_i e he
    rw [h] at he
    cases he

/-- A description is looked up as it is, or as the sequence it becomes. -/
theorem eq_settle_of_lookUpForm {frozen : Layout} (h : lookUpForm l = .ok frozen) :
    frozen = l.settle := by
  unfold lookUpForm at h
  dsimp only at h
  split at h
  · split at h
    · cases h
      rfl
    · cases h
  · cases h

/-- Records are looked up if nothing in their fields may still change. -/
theorem lookUpForm_record_iff {fields : List Field} (h : l.settle = .record fields) :
    lookUpForm l = .ok l.settle ↔ Layout.fieldsAreKeys fields = true := by
  unfold lookUpForm
  rw [h]
  by_cases hkeys : Layout.fieldsAreKeys fields = true <;>
    simp [Layout.isRecord, Layout.isKey, hkeys]

theorem report_ok_iff : c.report = .ok () ↔ optionSpellable c.staticSize = true := by
  unfold report
  split <;> simp [*]

/-- A layout that passes its checks, and whose size can be spelt, compiles. -/
theorem exists_compile {size : Option Numeral} (hform : lookUpForm l = .ok l)
    (haccept : l.accept = .ok size) (hsize : optionSpellable size = true) :
    ∃ c, compile l = .ok c ∧ c.layout = l := by
  rcases exists_ofLayout haccept with ⟨c, hc, hcsize⟩
  have hreport : c.report = .ok () := by
    rw [report_ok_iff, hcsize, hsize]
  refine ⟨c, ?_, layout_of_ofLayout hc⟩
  unfold compile
  simp only [hform, hc, hreport, Except.ok_bind]
  rfl

/-- A layout compiles to the codec of the form in which it is looked up. -/
theorem compile_ok_iff :
    compile l = .ok c ↔
      lookUpForm l = .ok l.settle ∧ ofLayout l.settle = .ok c ∧ c.report = .ok () := by
  unfold compile
  simp only [Except.bind_ok_iff, Except.pure_ok_iff]
  constructor
  · rintro ⟨frozen, hform, d, hd, u, hreport, rfl⟩
    cases eq_settle_of_lookUpForm hform
    exact ⟨hform, hd, hreport⟩
  · rintro ⟨hform, hc, hreport⟩
    exact ⟨_, hform, c, hc, (), hreport, rfl⟩

theorem compile_error_iff {e : Error} :
    compile l = .error e ↔ lookUpForm l = .error e ∨ lookUpForm l = .ok l.settle ∧
      (ofLayout l.settle = .error e ∨ ∃ c, ofLayout l.settle = .ok c ∧ c.report = .error e) := by
  have hpure : ∀ (d : Codec), (pure d : Except Error Codec) ≠ .error e := by
    rintro d ⟨⟩
  unfold compile
  simp only [Except.bind_error_iff, hpure, and_false, exists_false, or_false]
  refine or_congr_right ⟨?_, fun h => ⟨_, h⟩⟩
  rintro ⟨frozen, hform, h⟩
  cases eq_settle_of_lookUpForm hform
  exact ⟨hform, h⟩

end Codec

/-! ## Compiling in a registry -/

namespace Registry

variable {s : Registry} {l : Layout} {c : Codec}

theorem same_of_findFrom {place found : Nat} {cs : List Codec}
    (h : findFrom place l cs = some (found, c)) : c ∈ cs ∧ c.layout.same l = true := by
  induction cs generalizing place with
  | nil => cases h
  | cons d cs ih =>
    unfold findFrom at h
    split at h
    · rename_i hsame
      cases h
      exact ⟨List.mem_cons_self, hsame⟩
    · rcases ih h with ⟨hmem, hsame⟩
      exact ⟨List.mem_cons_of_mem _ hmem, hsame⟩

theorem findFrom_of_mem {place : Nat} {cs : List Codec} (hmem : c ∈ cs)
    (hsame : c.layout.same l = true) : ∃ found, findFrom place l cs = some found := by
  induction cs generalizing place with
  | nil => cases hmem
  | cons d cs ih =>
    unfold findFrom
    split
    · exact ⟨_, rfl⟩
    · rename_i hother
      rcases List.mem_cons.1 hmem with rfl | hmem
      · exact absurd hsame hother
      · exact ih hmem

/-- The registry with one more codec. -/
def keep (s : Registry) (c : Codec) : Registry := { s with codecs := s.codecs ++ [c] }

/-- All that compiling a layout in a registry can come to. -/
inductive Compiles (s : Registry) (l : Layout) : EStateM.Result Error Registry Codec → Prop where
  /-- It cannot be looked up. -/
  | refused {e : Error} : Codec.lookUpForm l = .error e → Compiles s l (.error e s)
  /-- An equal layout was compiled before. -/
  | found {c : Codec} : Codec.lookUpForm l = .ok l.settle → c ∈ s.codecs →
      c.layout.same l.settle = true → Compiles s l (.ok c s)
  /-- It does not pass its checks. -/
  | rejected {e : Error} : Codec.lookUpForm l = .ok l.settle → s.find? l.settle = none →
      Codec.ofLayout l.settle = .error e → Compiles s l (.error e s)
  /-- Its codec is kept, but cannot be reported. -/
  | unreported {c : Codec} {e : Error} : Codec.lookUpForm l = .ok l.settle →
      s.find? l.settle = none →
      Codec.ofLayout l.settle = .ok c → c.report = .error e → Compiles s l (.error e (s.keep c))
  /-- Its codec is kept. -/
  | added {c : Codec} : Codec.lookUpForm l = .ok l.settle → s.find? l.settle = none →
      Codec.ofLayout l.settle = .ok c → c.report = .ok () → Compiles s l (.ok c (s.keep c))

theorem compiles (l : Layout) (s : Registry) : Compiles s l (compile l s) := by
  simp only [compile, bind, EStateM.bind, compileAt]
  cases hform : Codec.lookUpForm l with
  | error e => exact .refused hform
  | ok frozen =>
    cases Codec.eq_settle_of_lookUpForm hform
    cases hfind : s.find? l.settle with
    | some found =>
      rcases same_of_findFrom hfind with ⟨hmem, hsame⟩
      simp only [hfind]
      exact .found hform hmem hsame
    | none =>
      cases hc : Codec.ofLayout l.settle with
      | error e =>
        simp only [hfind, hc]
        exact .rejected hform hfind hc
      | ok c =>
        cases hreport : c.report with
        | error e =>
          simp only [hfind, hc, hreport]
          exact .unreported hform hfind hc hreport
        | ok _ =>
          simp only [hfind, hc, hreport]
          exact .added hform hfind hc hreport

/-- The codec of a layout is that of its frozen form, or an earlier one of an equal layout. -/
theorem compile_ok {s' : Registry} (h : compile l s = .ok c s') :
    ∃ frozen, Codec.lookUpForm l = .ok frozen ∧
      (c.layout = frozen ∨ c.layout.same frozen = true) := by
  have hcompiles := compiles l s
  rw [h] at hcompiles
  cases hcompiles with
  | found hform _ hsame => exact ⟨l.settle, hform, .inr hsame⟩
  | added hform _ hc _ => exact ⟨l.settle, hform, .inl (Codec.layout_of_ofLayout hc)⟩

/-- A layout that is new to a registry gets the codec that it gets alone. -/
theorem compile_new (compiled : Codec.compile l = .ok c) (new : s.find? l.settle = none) :
    compile l s = .ok c (s.keep c) := by
  rcases Codec.compile_ok_iff.1 compiled with ⟨hform, hc, hreport⟩
  simp only [compile, bind, EStateM.bind, compileAt, hform, new, hc, hreport]
  rfl

/-- A layout that passes its checks, and whose size can be spelt, compiles in any registry. -/
theorem exists_compile {size : Option Numeral} (hform : Codec.lookUpForm l = .ok l)
    (haccept : l.accept = .ok size) (hsize : optionSpellable size = true) (s : Registry) :
    ∃ c s', compile l s = .ok c s' := by
  rcases Codec.exists_compile hform haccept hsize with ⟨c, hc, _⟩
  rcases Codec.compile_ok_iff.1 hc with ⟨hform, hc, hreport⟩
  cases h : compile l s with
  | ok d s' => exact ⟨d, s', rfl⟩
  | error e s' =>
    have hcompiles := compiles l s
    rw [h] at hcompiles
    cases hcompiles with
    | refused he =>
      rw [hform] at he
      cases he
    | rejected _ _ he =>
      rw [hc] at he
      cases he
    | unreported _ _ hd he =>
      rw [hc] at hd
      cases hd
      rw [hreport] at he
      cases he

end Registry

end WireLayout
