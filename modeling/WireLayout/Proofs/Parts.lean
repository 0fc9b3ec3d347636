import WireLayout.Layout

/-!
# Parts — induction over layouts, and conditions on all of their parts

`Layout` is nested: records hold lists of fields, switches lists of cases.

* `Layout.ofParts` — the induction principle with one hypothesis for every layout that stands
  directly inside; plain `induction` uses it;
* `Layout.HasPart` — the layouts inside a layout at any depth, the layout itself among them;
* `Layout.Everywhere` — a condition on the attributes of one item, asked of all parts;
* `Layout.Converts` — a condition on the conversion of one item.

The lemmas `everywhere_…` take a condition on a layout apart into that on its root and those on the
layouts directly inside.
-/

namespace WireLayout
namespace Layout

/-! ## Induction -/

/-- What holds of a layout whenever it holds of the layouts directly inside holds of all layouts. -/
@[elab_as_elim, induction_eliminator]
theorem ofParts {motive : Layout → Prop}
    (uint : ∀ size custom omission, motive (.uint size custom omission))
    (blob : ∀ framing custom omission, motive (.blob framing custom omission))
    (nested : ∀ framing inner custom omission, motive inner →
      motive (.nested framing inner custom omission))
    (array : ∀ framing element custom, motive element → motive (.array framing element custom))
    (switch : ∀ idSize idTag cases custom, (∀ c ∈ cases, ∀ f ∈ c.fields, motive f.item) →
      motive (.switch idSize idTag cases custom))
    (record : ∀ fields, (∀ f ∈ fields, motive f.item) → motive (.record fields))
    (unknownItem : motive .unknownItem)
    (field : ∀ name item, motive item → motive (.field name item))
    (tuple : ∀ items, (∀ l ∈ items, motive l) → motive (.tuple items))
    (list : ∀ items, (∀ l ∈ items, motive l) → motive (.list items))
    (object : ∀ v, motive (.object v)) :
    ∀ l, motive l := fun l =>
  @Layout.rec motive (fun f => motive f.item) (fun c => ∀ f ∈ c.fields, motive f.item)
    (fun cases => ∀ c ∈ cases, ∀ f ∈ c.fields, motive f.item)
    (fun fields => ∀ f ∈ fields, motive f.item) (fun items => ∀ l ∈ items, motive l)
    uint blob nested array switch record unknownItem field tuple list object
    (fun _ _ h => h) (fun _ _ _ h => h)
    (fun _ h => nomatch h) (fun _ _ h ih => List.forall_mem_cons.2 ⟨h, ih⟩)
    (fun _ h => nomatch h) (fun _ _ h ih => List.forall_mem_cons.2 ⟨h, ih⟩)
    (fun _ h => nomatch h) (fun _ _ h ih => List.forall_mem_cons.2 ⟨h, ih⟩)
    l

/-! ## Parts -/

/-- The layouts inside a layout at any depth, and the layout itself. -/
inductive HasPart : Layout → Layout → Prop where
  | self (l : Layout) : HasPart l l
  | nested {framing inner custom omission p} :
      HasPart inner p → HasPart (.nested framing inner custom omission) p
  | array {framing element custom p} :
      HasPart element p → HasPart (.array framing element custom) p
  | switch {idSize idTag cases custom p} {c : Case} {f : Field} :
      c ∈ cases → f ∈ c.fields → HasPart f.item p → HasPart (.switch idSize idTag cases custom) p
  | record {fields p} {f : Field} : f ∈ fields → HasPart f.item p → HasPart (.record fields) p
  | field {name item p} : HasPart item p → HasPart (.field name item) p
  | tuple {items p} {l : Layout} : l ∈ items → HasPart l p → HasPart (.tuple items) p
  | list {items p} {l : Layout} : l ∈ items → HasPart l p → HasPart (.list items) p

/-- Parts of a part are parts. -/
theorem HasPart.trans {l p q : Layout} (hp : l.HasPart p) (hq : p.HasPart q) : l.HasPart q := by
  induction hp with
  | self => exact hq
  | nested _ ih => exact .nested (ih hq)
  | array _ ih => exact .array (ih hq)
  | switch hc hf _ ih => exact .switch hc hf (ih hq)
  | record hf _ ih => exact .record hf (ih hq)
  | field _ ih => exact .field (ih hq)
  | tuple hl _ ih => exact .tuple hl (ih hq)
  | list hl _ ih => exact .list hl (ih hq)

/-- A condition on items, asked of all parts of a layout. -/
def Everywhere (P : Layout → Prop) (l : Layout) : Prop := ∀ p, l.HasPart p → P p

variable {P Q : Layout → Prop}

theorem Everywhere.here {l : Layout} (h : l.Everywhere P) : P l := h l (.self l)

theorem Everywhere.inside {l p : Layout} (h : l.Everywhere P) (hp : l.HasPart p) :
    p.Everywhere P :=
  fun q hq => h q (hp.trans hq)

theorem Everywhere.mono {l : Layout} (h : l.Everywhere P) (hPQ : ∀ p, P p → Q p) :
    l.Everywhere Q :=
  fun p hp => hPQ p (h p hp)

theorem Everywhere.and {l : Layout} (hP : l.Everywhere P) (hQ : l.Everywhere Q) :
    l.Everywhere fun p => P p ∧ Q p :=
  fun p hp => ⟨hP p hp, hQ p hp⟩

@[simp] theorem everywhere_uint {size custom omission} :
    (uint size custom omission).Everywhere P ↔ P (.uint size custom omission) := by
  refine ⟨Everywhere.here, ?_⟩
  rintro h _ ⟨⟩
  exact h

@[simp] theorem everywhere_blob {framing custom omission} :
    (blob framing custom omission).Everywhere P ↔ P (.blob framing custom omission) := by
  refine ⟨Everywhere.here, ?_⟩
  rintro h _ ⟨⟩
  exact h

theorem everywhere_nested {framing inner custom omission} :
    (nested framing inner custom omission).Everywhere P ↔
      P (.nested framing inner custom omission) ∧ inner.Everywhere P := by
  constructor
  · intro h
    exact ⟨h.here, fun p hp => h p (.nested hp)⟩
  · rintro ⟨h, hinner⟩ p hp
    cases hp with
    | self => exact h
    | nested hp => exact hinner p hp

theorem everywhere_array {framing element custom} :
    (array framing element custom).Everywhere P ↔
      P (.array framing element custom) ∧ element.Everywhere P := by
  constructor
  · intro h
    exact ⟨h.here, fun p hp => h p (.array hp)⟩
  · rintro ⟨h, helement⟩ p hp
    cases hp with
    | self => exact h
    | array hp => exact helement p hp

theorem everywhere_switch {idSize idTag cases custom} :
    (switch idSize idTag cases custom).Everywhere P ↔
      P (.switch idSize idTag cases custom) ∧
        ∀ c ∈ cases, ∀ f ∈ c.fields, f.item.Everywhere P := by
  constructor
  · intro h
    exact ⟨h.here, fun c hc f hf p hp => h p (.switch hc hf hp)⟩
  · rintro ⟨h, hcases⟩ p hp
    cases hp with
    | self => exact h
    | switch hc hf hp => exact hcases _ hc _ hf p hp

theorem everywhere_record {fields} :
    (record fields).Everywhere P ↔
      P (.record fields) ∧ ∀ f ∈ fields, f.item.Everywhere P := by
  constructor
  · intro h
    exact ⟨h.here, fun f hf p hp => h p (.record hf hp)⟩
  · rintro ⟨h, hfields⟩ p hp
    cases hp with
    | self => exact h
    | record hf hp => exact hfields _ hf p hp

theorem everywhere_field {name item} :
    (field name item).Everywhere P ↔ P (.field name item) ∧ item.Everywhere P := by
  constructor
  · intro h
    exact ⟨h.here, fun p hp => h p (.field hp)⟩
  · rintro ⟨h, hitem⟩ p hp
    cases hp with
    | self => exact h
    | field hp => exact hitem p hp

theorem everywhere_tuple {items} :
    (tuple items).Everywhere P ↔ P (.tuple items) ∧ ∀ l ∈ items, l.Everywhere P := by
  constructor
  · intro h
    exact ⟨h.here, fun l hl p hp => h p (.tuple hl hp)⟩
  · rintro ⟨h, hitems⟩ p hp
    cases hp with
    | self => exact h
    | tuple hl hp => exact hitems _ hl p hp

theorem everywhere_list {items} :
    (list items).Everywhere P ↔ P (.list items) ∧ ∀ l ∈ items, l.Everywhere P := by
  constructor
  · intro h
    exact ⟨h.here, fun l hl p hp => h p (.list hl hp)⟩
  · rintro ⟨h, hitems⟩ p hp
    cases hp with
    | self => exact h
    | list hl hp => exact hitems _ hl p hp

end Layout

/-! ## Conversions -/

/-- The conversion of an attribute, if it is one, is of a given kind. -/
def Custom.Converts {α : Type} (A : Conversion → Prop) : Custom α → Prop
  | .converted c => A c
  | _ => True

/-- The conversion of an item, if it has one, is of a given kind. -/
def Layout.Converts (A : Conversion → Prop) : Layout → Prop
  | .uint _ custom _ => custom.Converts A
  | .blob _ custom _ => custom.Converts A
  | .nested _ _ custom _ => custom.Converts A
  | .array _ _ custom => custom.Converts A
  | .switch _ _ _ custom => custom.Converts A
  | _ => True

end WireLayout
