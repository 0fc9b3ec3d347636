import WireLayout.Proofs.Defects
import WireLayout.Proofs.Equivalence
import WireLayout.Proofs.History

/-!
# Store — the registry keeps one codec for each layout

* `Registry.Apart` — no two codecs of a registry have equal layouts;
* `Registry.find?_eq_some_iff` — then a codec is found at its own place, and at no other;
* `Layout.firsts` — the layouts of a list that count as different;
* `Registry.succeeds`, `Registry.serves` — whether a layout is compiled, or has a codec at least;
* `Layout.Respelt` — a layout written again with lists for tuples, or with tuples for lists;
* `Registry.after_consistent` — after any history the registry has one codec for each layout that
  was compiled, and keeps it.

A codec whose size cannot be spelt is kept although compiling it fails
(`Registry.after_unreported`).
-/

namespace WireLayout

/-! ## Layouts that are written in two ways -/

namespace Layout

/-- A sequence written as a list or as a tuple. -/
def sequence (asList : Bool) (items : List Layout) : Layout :=
  if asList then .list items else ofItems items

/-- The same layout, with records in it written as lists instead of tuples, or the other way. -/
inductive Respelt : Layout → Layout → Prop where
  | same (l : Layout) : Respelt l l
  | record {fields : List (Label × Layout × Layout)} (asList asList' : Bool) :
      (∀ f ∈ fields, Respelt f.2.1 f.2.2) →
      Respelt (sequence asList (fields.map fun f => fieldOf f.1 f.2.1))
        (sequence asList' (fields.map fun f => fieldOf f.1 f.2.2))
  | bytes {size width inner inner' spec omission l l'} : Respelt inner inner' →
      bytes? size width (some inner) spec omission = .ok l →
      bytes? size width (some inner') spec omission = .ok l' → Respelt l l'
  | array {element element' length width spec l l'} : Respelt element element' →
      array? element length width spec = .ok l → array? element' length width spec = .ok l' →
      Respelt l l'
  | switch {idSize idTag spec l l'} {cases : List (Option Numeral × Label × Layout × Layout)} :
      (∀ c ∈ cases, Respelt c.2.2.1 c.2.2.2) →
      switch? idSize (cases.map fun c => ⟨c.1, c.2.1, c.2.2.1⟩) idTag spec = .ok l →
      switch? idSize (cases.map fun c => ⟨c.1, c.2.1, c.2.2.2⟩) idTag spec = .ok l' → Respelt l l'

theorem settle_ofItems (items : List Layout) : (ofItems items).settle = ofItems items := by
  unfold ofItems
  split <;> rfl

theorem settle_sequence (asList : Bool) (items : List Layout) :
    (sequence asList items).settle = ofItems items := by
  cases asList with
  | true => rfl
  | false => exact settle_ofItems items

/-- Only an empty value settles as one. -/
theorem innerOf?_eq (l : Layout) :
    innerOf? (some l) = match l.settle with
      | .object .none => none
      | inner => some inner := by
  cases l with
  | object v => cases v <;> rfl
  | list items =>
    simp only [innerOf?, settle, ofItems]
    split <;> rfl
  | _ => rfl

theorem case?_congr {idSize : Option Numeral} {idTag : Label} {id : Option Numeral} {name : Label}
    {l l' : Layout} (h : l.settle = l'.settle) :
    case? idSize idTag ⟨id, name, l⟩ = case? idSize idTag ⟨id, name, l'⟩ := by
  simp only [case?, h]

theorem cases?_congr {idSize : Option Numeral} {idTag : Label}
    {cases : List (Option Numeral × Label × Layout × Layout)}
    (h : ∀ c ∈ cases, c.2.2.1.settle = c.2.2.2.settle) :
    cases? idSize idTag (cases.map fun c => ⟨c.1, c.2.1, c.2.2.1⟩) =
      cases? idSize idTag (cases.map fun c => ⟨c.1, c.2.1, c.2.2.2⟩) := by
  induction cases with
  | nil => rfl
  | cons c cases ih =>
    rcases List.forall_mem_cons.1 h with ⟨hc, hcases⟩
    simp only [List.map_cons, cases?, case?_congr hc, ih hcases]

theorem switch?_congr {idSize : Option Numeral} {idTag : Label} {spec : CustomSpec}
    {cases : List (Option Numeral × Label × Layout × Layout)}
    (h : ∀ c ∈ cases, c.2.2.1.settle = c.2.2.2.settle) :
    switch? idSize (cases.map fun c => ⟨c.1, c.2.1, c.2.2.1⟩) idTag spec =
      switch? idSize (cases.map fun c => ⟨c.1, c.2.1, c.2.2.2⟩) idTag spec := by
  unfold switch?
  rw [cases?_congr h]
  simp only [List.isEmpty_map, List.map_map, Function.comp_def]

/-- Layouts that differ in lists and tuples are the same when they can no longer change. -/
theorem Respelt.settle_eq {l l' : Layout} (h : l.Respelt l') : l.settle = l'.settle := by
  -- each constructor settles what stands inside, so it cannot tell the two apart
  induction h with
  | same l => rfl
  | record asList asList' _ ih =>
    rw [settle_sequence, settle_sequence]
    exact congrArg ofItems (List.map_congr_left fun f hf => by rw [fieldOf, fieldOf, ih f hf])
  | bytes _ hl hl' ih =>
    rw [bytes?, innerOf?_eq] at hl hl'
    rw [ih, hl'] at hl
    cases hl
    rfl
  | array _ hl hl' ih =>
    rw [array?] at hl hl'
    rw [ih, hl'] at hl
    cases hl
    rfl
  | switch _ hl hl' ih =>
    rw [switch?_congr ih, hl'] at hl
    cases hl
    rfl

/-! ## Different layouts -/

/-- Adds a layout to others if it equals none of them. -/
def note (earlier : List Layout) (l : Layout) : List Layout :=
  if earlier.any (·.same l) then earlier else earlier ++ [l]

/-- The layouts of a list that equal no earlier one. -/
def firsts (ls : List Layout) : List Layout := ls.foldl note []

end Layout

namespace Registry

variable {s t : Registry} {l : Layout} {c d : Codec} {p : Nat}

/-! ## Places -/

/-- No two codecs have equal layouts. -/
def Apart (s : Registry) : Prop := s.codecs.Pairwise fun c d => c.layout.same d.layout = false

theorem getElem?_of_findFrom {place : Nat} {cs : List Codec}
    (h : findFrom place l cs = some (p, c)) : place ≤ p ∧ cs[p - place]? = some c := by
  induction cs generalizing place with
  | nil => cases h
  | cons d cs ih =>
    unfold findFrom at h
    split at h
    · cases h
      simp
    · rcases ih h with ⟨hle, hget⟩
      have hplace : p - place = p - (place + 1) + 1 := by omega
      rw [hplace, List.getElem?_cons_succ]
      exact ⟨by omega, hget⟩

/-- Where no two codecs have equal layouts, the codec of an equal layout is found at its place. -/
theorem find?_eq_some_iff (apart : s.Apart) :
    s.find? l = some (p, c) ↔ s.codecs[p]? = some c ∧ c.layout.same l = true := by
  have hfound : ∀ {q d}, s.find? l = some (q, d) →
      s.codecs[q]? = some d ∧ d.layout.same l = true :=
    fun h => ⟨(getElem?_of_findFrom h).2, (same_of_findFrom h).2⟩
  refine ⟨hfound, ?_⟩
  rintro ⟨hc, hsame⟩
  have hexists : ∃ found, s.find? l = some found :=
    findFrom_of_mem (List.mem_of_getElem? hc) hsame
  rcases hexists with ⟨⟨q, d⟩, hfind⟩
  rcases hfound hfind with ⟨hd, hsame'⟩
  rcases List.getElem?_eq_some_iff.1 hc with ⟨hp, rfl⟩
  rcases List.getElem?_eq_some_iff.1 hd with ⟨hq, rfl⟩
  -- the codec that comes first would equal the other one
  rcases Nat.lt_trichotomy p q with hlt | rfl | hlt
  · have hdiffer := List.pairwise_iff_getElem.1 apart p q hp hq hlt
    rw [Codec.same_of_same hsame hsame'] at hdiffer
    cases hdiffer
  · exact hfind
  · have hdiffer := List.pairwise_iff_getElem.1 apart q p hq hp hlt
    rw [Codec.same_of_same hsame' hsame] at hdiffer
    cases hdiffer

theorem same_eq_false_of_find? (h : s.find? l = none) (hc : c ∈ s.codecs) :
    c.layout.same l = false := by
  refine Bool.eq_false_iff.2 fun hsame => ?_
  have hexists : ∃ found, s.find? l = some found := findFrom_of_mem hc hsame
  rcases hexists with ⟨found, hfind⟩
  rw [hfind] at h
  cases h

theorem apart_keep (apart : s.Apart) (h : s.find? c.layout = none) : (s.keep c).Apart := by
  refine List.pairwise_append.2 ⟨apart, List.pairwise_singleton _ _, fun d hd e he => ?_⟩
  rw [List.mem_singleton.1 he]
  exact same_eq_false_of_find? h hd

/-! ## One more layout -/

/-- Whether a layout is compiled with success. -/
def succeeds (s : Registry) (l : Layout) : Bool :=
  match compile l s with
  | .ok _ _ => true
  | .error _ _ => false

/-- Whether there is a codec to give for a layout: it is given, or it is kept at least. -/
def serves (s : Registry) (l : Layout) : Bool :=
  match compile l s with
  | .ok _ _ => true
  | .error _ t => decide (s.codecs.length < t.codecs.length)

/-- What a layout does to a registry. -/
theorem next_cases (s : Registry) (l : Layout) :
    (s.serves l = false ∧ s.next l = s) ∨
    (s.serves l = true ∧ s.next l = s ∧ ∃ c ∈ s.codecs, c.layout.same l.settle = true) ∨
    (s.serves l = true ∧ s.find? l.settle = none ∧
      ∃ c, c.layout = l.settle ∧ s.next l = s.keep c) := by
  have hcompiles := compiles l s
  unfold serves next
  generalize compile l s = result at hcompiles
  cases hcompiles with
  | refused _ => exact .inl ⟨by simp, rfl⟩
  | rejected _ _ _ => exact .inl ⟨by simp, rfl⟩
  | found _ hmem hsame => exact .inr (.inl ⟨rfl, rfl, _, hmem, hsame⟩)
  | unreported _ hnew hc _ =>
    exact .inr (.inr ⟨by simp [keep], hnew, _, Codec.layout_of_ofLayout hc, rfl⟩)
  | added _ hnew hc _ => exact .inr (.inr ⟨rfl, hnew, _, Codec.layout_of_ofLayout hc, rfl⟩)

/-- A failure leaves a registry as it was, unless a codec cannot be reported. -/
theorem compile_error_cases {e : Error} (h : compile l s = .error e t) :
    t = s ∨
      ∃ c : Codec, c.layout = l.settle ∧ optionSpellable c.staticSize = false ∧ t = s.keep c := by
  have hcompiles := compiles l s
  rw [h] at hcompiles
  cases hcompiles with
  | refused _ => exact .inl rfl
  | rejected _ _ _ => exact .inl rfl
  | @unreported c _ _ _ hc hreport =>
    refine .inr ⟨c, Codec.layout_of_ofLayout hc, ?_, rfl⟩
    refine Bool.eq_false_iff.2 fun hspelt => ?_
    rw [Codec.report_ok_iff.2 hspelt] at hreport
    cases hreport

/-- Where sizes can be spelt, there is a codec to give exactly if it is given. -/
theorem succeeds_eq_serves (spelt : l.settle.SizeSpelt) : s.succeeds l = s.serves l := by
  unfold succeeds serves
  cases hcompile : compile l s with
  | ok c t => rfl
  | error e t =>
    rcases compile_error_cases hcompile with rfl | ⟨c, hlayout, hunspelt, _⟩
    · simp
    · have hsize : l.settle.staticSize = .ok c.staticSize := by
        rw [← hlayout, c.staticSize_layout]
      rw [spelt _ hsize] at hunspelt
      cases hunspelt

theorem getElem?_of_prefix (hgrows : s.codecs <+: t.codecs) (hc : s.codecs[p]? = some c) :
    t.codecs[p]? = some c := by
  rcases List.getElem?_eq_some_iff.1 hc with ⟨hp, rfl⟩
  exact List.prefix_iff_getElem?.1 hgrows p hp

theorem prefix_next (s : Registry) (l : Layout) : s.codecs <+: (s.next l).codecs := by
  rcases next_cases s l with ⟨_, h⟩ | ⟨_, h, _⟩ | ⟨_, _, c, _, h⟩
  · exact ⟨[], by rw [h, List.append_nil]⟩
  · exact ⟨[], by rw [h, List.append_nil]⟩
  · exact ⟨[c], congrArg Registry.codecs h.symm⟩

theorem apart_next (apart : s.Apart) (l : Layout) : (s.next l).Apart := by
  rcases next_cases s l with ⟨_, h⟩ | ⟨_, h, _⟩ | ⟨_, hnew, c, hlayout, h⟩
  · rwa [h]
  · rwa [h]
  · rw [h]
    exact apart_keep apart (by rw [hlayout, hnew])

/-- A layout that is served is noted, and no other. -/
theorem layouts_next (s : Registry) (l : Layout) :
    (s.next l).codecs.map Codec.layout =
      if s.serves l then Layout.note (s.codecs.map Codec.layout) l.settle
      else s.codecs.map Codec.layout := by
  rcases next_cases s l with
    ⟨hserves, h⟩ | ⟨hserves, h, c, hc, hsame⟩ | ⟨hserves, hnew, c, hlayout, h⟩
  · simp [h, hserves]
  · have hany : (s.codecs.map Codec.layout).any (·.same l.settle) = true :=
      List.any_eq_true.2 ⟨c.layout, List.mem_map_of_mem hc, hsame⟩
    simp [h, hserves, Layout.note, hany]
  · have hany : (s.codecs.map Codec.layout).any (·.same l.settle) = false := by
      rw [List.any_map, List.any_eq_false]
      exact fun d hd => Bool.eq_false_iff.1 (same_eq_false_of_find? hnew hd)
    simp [h, hserves, Layout.note, hany, keep, hlayout]

/-! ## Histories -/

variable {history later : List Layout}

/-- The layouts of a history that a registry chooses when their turn has come. -/
def chosen (choose : Registry → Layout → Bool) : Registry → List Layout → List Layout
  | _, [] => []
  | s, l :: rest =>
    if choose s l then l.settle :: chosen choose (s.next l) rest
    else chosen choose (s.next l) rest

theorem prefix_foldl_next (s : Registry) (history : List Layout) :
    s.codecs <+: (history.foldl next s).codecs := by
  induction history generalizing s with
  | nil => exact List.prefix_refl _
  | cons l history ih => exact (prefix_next s l).trans (ih (s.next l))

theorem apart_foldl_next (apart : s.Apart) (history : List Layout) :
    (history.foldl next s).Apart := by
  induction history generalizing s with
  | nil => exact apart
  | cons l history ih => exact ih (apart_next apart l)

theorem layouts_foldl_next (s : Registry) (history : List Layout) :
    (history.foldl next s).codecs.map Codec.layout =
      (chosen serves s history).foldl Layout.note (s.codecs.map Codec.layout) := by
  -- from the first layout on, because what a layout adds depends on the codecs before it
  induction history generalizing s with
  | nil => rfl
  | cons l history ih =>
    rw [List.foldl_cons, ih, layouts_next, chosen]
    split
    · rfl
    · rfl

theorem chosen_succeeds (spelt : ∀ l ∈ history, l.settle.SizeSpelt) :
    chosen succeeds s history = chosen serves s history := by
  induction history generalizing s with
  | nil => rfl
  | cons l history ih =>
    rcases List.forall_mem_cons.1 spelt with ⟨hl, hhistory⟩
    rw [chosen, chosen, succeeds_eq_serves hl, ih hhistory]

theorem after_append (history later : List Layout) :
    after (history ++ later) = later.foldl next (after history) :=
  List.foldl_append

theorem apart_after (history : List Layout) : (after history).Apart := by
  have hempty : empty.Apart := List.Pairwise.nil
  exact apart_foldl_next hempty history

theorem prefix_after (history later : List Layout) :
    (after history).codecs <+: (after (history ++ later)).codecs := by
  rw [after_append]
  exact prefix_foldl_next _ later

/-! ## Two layouts -/

/-- A codec that is returned stands at its place, and its layout equals the one asked for. -/
theorem compileAt_ok (h : compileAt l s = .ok (p, c) t) :
    t = s.next l ∧ t.codecs[p]? = some c ∧ c.layout.same l.settle = true := by
  have hcompile : compile l s = .ok c t := by
    simp only [compile, bind, EStateM.bind, h]
    rfl
  have hnext : t = s.next l := by
    rw [next, hcompile]
  refine ⟨hnext, ?_⟩
  unfold compileAt at h
  cases hform : Codec.lookUpForm l with
  | error e =>
    simp only [hform] at h
    cases h
  | ok frozen =>
    cases Codec.eq_settle_of_lookUpForm hform
    simp only [hform] at h
    cases hfind : s.find? l.settle with
    | some found =>
      simp only [hfind] at h
      cases h
      exact ⟨(getElem?_of_findFrom hfind).2, (same_of_findFrom hfind).2⟩
    | none =>
      simp only [hfind] at h
      split at h
      · cases h
      · rename_i d hd
        split at h
        · cases h
          refine ⟨by simp, ?_⟩
          rw [← Codec.layout_of_ofLayout hd]
          exact c.same_self
        · cases h

/-- Codecs at two places of one registry: the places are the same exactly if the layouts equal. -/
theorem place_eq_iff (apart : s.Apart) {q : Nat} {m : Layout} (hc : s.codecs[p]? = some c)
    (hl : c.layout.same l = true) (hd : s.codecs[q]? = some d) (hm : d.layout.same m = true) :
    p = q ↔ l.same m = true := by
  constructor
  · rintro rfl
    rw [hc] at hd
    cases hd
    rw [← Codec.same_eq_of_same hl, hm]
  · intro hsame
    rw [← Codec.same_eq_of_same hl] at hsame
    have hfind := (find?_eq_some_iff apart).2 ⟨hc, hsame⟩
    rw [(find?_eq_some_iff apart).2 ⟨hd, hm⟩] at hfind
    cases hfind
    rfl

/-- Where the codec of an equal layout stands, it is given again. -/
theorem compileAt_of_getElem? (apart : s.Apart) (hform : Codec.lookUpForm l = .ok l.settle)
    (hc : s.codecs[p]? = some c) (hsame : c.layout.same l.settle = true) :
    compileAt l s = .ok (p, c) s := by
  have hfind := (find?_eq_some_iff apart).2 ⟨hc, hsame⟩
  simp only [compileAt, hform, hfind]

/-- A codec that was returned is found at its place ever after. -/
theorem getElem?_after (h : compileAt l (after history) = .ok (p, c) t) (between : List Layout) :
    (after (history ++ l :: between)).codecs[p]? = some c := by
  rcases compileAt_ok h with ⟨rfl, hc, _⟩
  rw [after_append]
  exact getElem?_of_prefix (prefix_foldl_next _ between) hc

/-- The registry is a consistent store that only grows.  After any history,

* its codecs stay where they are;
* a failure leaves it as it was, or with a codec whose size cannot be spelt;
* it has one codec for each of the different layouts for which there was one to give: those that
  were compiled with success, if sizes can be spelt;
* a codec that is returned stays at its place, and an equal layout that can be looked up gets it
  again;
* a layout that is compiled later gets the codec from this place exactly if it equals the first one,
  however both are written. -/
theorem after_consistent (history : List Layout) :
    (∀ later, (after history).codecs <+: (after (history ++ later)).codecs) ∧
    (∀ l e t, compile l (after history) = .error e t → t = after history ∨
      ∃ c : Codec, c.layout = l.settle ∧ optionSpellable c.staticSize = false ∧
        t = (after history).keep c) ∧
    (after history).codecs.map Codec.layout = Layout.firsts (chosen serves empty history) ∧
    ((∀ l ∈ history, l.settle.SizeSpelt) →
      (after history).codecs.map Codec.layout = Layout.firsts (chosen succeeds empty history)) ∧
    ∀ l p c t, compileAt l (after history) = .ok (p, c) t → ∀ between l',
      (Codec.lookUpForm l' = .ok l'.settle → l.settle.same l'.settle = true →
        ∃ t', compileAt l' (after (history ++ l :: between)) = .ok (p, c) t') ∧
      ∀ p' c' t', compileAt l' (after (history ++ l :: between)) = .ok (p', c') t' →
        t'.codecs[p]? = some c ∧ t'.codecs[p']? = some c' ∧
          ∀ m m', l.Respelt m → l'.Respelt m' → (p = p' ↔ m.settle.same m'.settle = true) := by
  refine ⟨prefix_after history, fun l e t => compile_error_cases,
    layouts_foldl_next empty history, ?_, ?_⟩
  · intro spelt
    rw [chosen_succeeds spelt]
    exact layouts_foldl_next empty history
  · intro l p c t h between l'
    have hkept := getElem?_after h between
    rcases compileAt_ok h with ⟨_, _, hl⟩
    constructor
    · intro hform hsame
      rw [← Codec.same_eq_of_same hl] at hsame
      exact ⟨_, compileAt_of_getElem? (apart_after _) hform hkept hsame⟩
    · intro p' c' t' h'
      rcases compileAt_ok h' with ⟨rfl, hc', hl'⟩
      have hlast := getElem?_of_prefix (prefix_next _ l') hkept
      refine ⟨hlast, hc', fun m m' hm hm' => ?_⟩
      rw [← hm.settle_eq, ← hm'.settle_eq]
      exact place_eq_iff (apart_next (apart_after _) l') hlast hl hc' hl'

end Registry

/-! ## A record in two ways -/

/-- A record of numbers, as a list or as a tuple. -/
def Layout.numbersRecord (asList : Bool) : Layout :=
  sequence asList [fieldOf "numbers" (numbers 1)]

theorem Layout.respelt_numbersRecord (asList asList' : Bool) :
    (numbersRecord asList).Respelt (numbersRecord asList') :=
  @Respelt.record [("numbers", numbers 1, numbers 1)] asList asList' fun f hf => by
    rw [List.mem_singleton.1 hf]
    exact .same _

/-- The compiled record. -/
def Codec.numbersRecord : Codec := ⟨(Layout.numbersRecord true).settle, none, rfl⟩

namespace Registry

/-- After a failure and with other layouts in between, a record gets its codec in both ways. -/
theorem after_consistent_record :
    ∃ t t', compileAt (.numbersRecord true) (after [.twins]) = .ok (0, .numbersRecord) t ∧
      compileAt (.numbersRecord false) (after [.twins, .numbersRecord true, .numbers 1]) =
        .ok (0, .numbersRecord) t' := by
  have h : ∃ t, compileAt (.numbersRecord true) (after [.twins]) = .ok (0, .numbersRecord) t :=
    ⟨_, rfl⟩
  have h' : ∃ p c t, compileAt (.numbersRecord false)
      (after [.twins, .numbersRecord true, .numbers 1]) = .ok (p, c) t := ⟨_, _, _, rfl⟩
  rcases h with ⟨t, h⟩
  rcases h' with ⟨p', c', t', h'⟩
  rcases ((after_consistent [.twins]).2.2.2.2 _ _ _ _ h [.numbers 1] _).2 _ _ _ h' with
    ⟨hkept, hc', hplaces⟩
  have hplace := (hplaces _ _ (.same _) (Layout.respelt_numbersRecord false true)).2 rfl
  subst hplace
  rw [hkept] at hc'
  cases hc'
  exact ⟨t, t', h, h'⟩

end Registry

/-! ## A codec that is kept by a failure -/

/-- Nothing is wrong with the array of a huge size, but its size cannot be spelt. -/
theorem Codec.exists_hugeArray :
    ∃ c, ofLayout .hugeArray = .ok c ∧ optionSpellable c.staticSize = false := by
  have haccept : Layout.hugeArray.accept = .ok (some (.plain (hugeSize * hugeSize))) :=
    Except.seq_ok_iff.2 ⟨rfl, rfl⟩
  rcases exists_ofLayout haccept with ⟨c, hc, hsize⟩
  refine ⟨c, hc, ?_⟩
  rw [hsize, optionSpellable, Numeral.spellable, Numeral.value_plain, spellable,
    ← Int.natCast_mul, Int.natAbs_natCast, hugeSize_mul_self]
  exact decide_eq_false (Nat.lt_irrefl _)

/-- A failure that does not leave the registry as it was: there is a codec in it, and no layout was
compiled with success. -/
theorem Registry.after_unreported :
    ∃ e, compile .hugeArray (after []) = .error e (after [.hugeArray]) ∧ e.kind = .valueMisuse ∧
      (after [.hugeArray]).codecs.length ≠ (after []).codecs.length := by
  rcases Codec.exists_hugeArray with ⟨c, hc, hunspelt⟩
  have hcompile := compile_first_of_ok (s := after []) (l := .hugeArray) rfl rfl hc
  rw [if_neg (Bool.eq_false_iff.1 hunspelt)] at hcompile
  have hafter : after [.hugeArray] = (after []).keep c := by
    rw [after, List.foldl_cons, List.foldl_nil, next]
    rw [after, List.foldl_nil] at hcompile
    rw [hcompile]
    rfl
  rw [hafter]
  exact ⟨_, hcompile, rfl, by simp [keep]⟩

end WireLayout
