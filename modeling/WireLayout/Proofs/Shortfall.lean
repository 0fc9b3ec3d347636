import WireLayout.Proofs.Totality
import WireLayout.Proofs.Truncation

/-!
# Shortfall — a counted array that lacks elements

An array that announces the number of its elements may be cut off inside one of them.  The elements
before the cut are read as they would be on their own, and use up exactly their own bytes; the next
one reports that input ends, and the array adds its own number and the place of that element.

* `Codec.Shortfall` — a message that announces more elements than it holds;
* `Framing.declared` — the announced number as the sentence mentions it;
* `readCounted_elements` — elements that are there in full are stepped over;
* `Codec.decode_short` — the failure of such a message;
* `Codec.decode_shortfall` — its class and its sentence, where the number can be spelt.
-/

namespace WireLayout

open Piece

/-! ## The class of truncated input -/

/-- A failure is reported as truncated input exactly if it is one and can be described. -/
theorem Error.kind_truncatedInput_iff {e : Error} :
    e.kind = .truncatedInput ↔ ∃ cause, e = .truncated cause ∧ cause.spellable = true := by
  constructor
  · intro hkind
    unfold kind at hkind
    split at hkind
    · rename_i hspelt
      cases e with
      | truncated cause => exact ⟨cause, rfl, hspelt⟩
      | misuse m => cases m <;> cases hkind
      | _ => cases hkind
    · cases hkind
  · intro h
    rcases h with ⟨cause, rfl, hspelt⟩
    exact if_pos hspelt

/-! ## Elements before the cut -/

section

variable {element : Decoding Value} {P : Prop} {G : List Piece → List UInt8 → Value → Prop}
  {r : Reader} {ps qs : List Piece} {vs : List Value} {v : Value} {tail more rest : List UInt8}

/-- Elements that are there in full are read, and the others start behind them. -/
theorem readCounted_elements (haccepts : element.Accepts P G) (blind : Blind G) (count : Numeral)
    (left index : Nat) (heach : ReadsEach G ps rest vs) (hr : r.InBounds)
    (hrest : r.rest = source ps ++ tail) :
    readCounted element count (vs.length + left) index [] r
      = Decoding.behind vs (readCounted element count left (index + vs.length) []
          (r.advance (source ps).length)) := by
  induction vs generalizing r ps index with
  | nil =>
    cases heach
    simp only [source_nil, List.length_nil, Reader.advance_zero, Nat.zero_add, Nat.add_zero,
      behind_nil]
  | cons v vs ih =>
    rcases heach with ⟨p, q, rfl, hG, heach⟩
    rw [source_append, List.append_assoc] at hrest
    have hfirst : element r = .ok v (r.advance (source p).length) :=
      haccepts.runs hr hrest (blind hG _)
    have hlater := ih (index + 1) heach (Reader.inBounds_advance hr hrest)
      (Reader.rest_advance hr hrest)
    rw [Reader.advance_advance, ← List.length_append, ← source_append] at hlater
    calc
      readCounted element count (vs.length + 1 + left) index [] r
          = readCounted element count (vs.length + left + 1) index [] r := by
            rw [Nat.add_right_comm]
      _ = readCounted element count (vs.length + left) (index + 1) [v]
            (r.advance (source p).length) := by
            simp only [readCounted, hfirst]
      _ = Decoding.behind [v] (Decoding.behind vs (readCounted element count left
            (index + 1 + vs.length) [] (r.advance (source (p ++ q)).length))) := by
            rw [readCounted_behind, hlater, List.reverse_singleton]
      _ = Decoding.behind (v :: vs) (readCounted element count left (index + (vs.length + 1)) []
            (r.advance (source (p ++ q)).length)) := by
            rw [behind_singleton_behind, Nat.add_assoc, Nat.add_comm 1]

/-- Input that ends inside an element is reported with the place of that element. -/
theorem readCounted_cut (htruncates : element.Truncates G) (haccepts : element.Accepts P G)
    (blind : Blind G) (count : Numeral) (left : Nat) (heach : ReadsEach G ps rest vs)
    (hlast : G qs [] v) (hr : r.InBounds) (hrest : r.rest = source ps ++ tail)
    (hcut : source qs = tail ++ more) (hmore : more ≠ []) (hsize : spellable r.size = true)
    (hlength : spellable (source qs).length = true) :
    ∃ cause s, cause.spellable = true ∧ readCounted element count (vs.length + (left + 1)) 0 [] r
      = .error (.truncated (.element count vs.length cause)) s := by
  have htail := Reader.rest_advance hr hrest
  have hends : (r.advance (source ps).length).EndsInside (source qs) :=
    ⟨Reader.inBounds_advance hr hrest, ⟨more, hmore, by rw [htail, hcut]⟩, hsize, hlength⟩
  rcases htruncates hlast hends with ⟨e, s, hfails, hkind⟩
  rcases Error.kind_truncatedInput_iff.1 hkind with ⟨cause, rfl, hspelt⟩
  refine ⟨cause, s, hspelt, ?_⟩
  rw [readCounted_elements haccepts blind count (left + 1) 0 heach hr hrest, Nat.zero_add]
  simp only [readCounted, hfails, Decoding.behind, Error.inElement]

end

/-! ## The announced number -/

/-- The number of elements as an array mentions it: a length as it was given, a count as a
number. -/
def Framing.declared : Framing → Nat → Numeral
  | .fixed n, _ => n
  | _, count => .plain count

namespace Framing

variable {framing : Framing} {head tail : List UInt8} {n : Nat}

theorem value_declared (h : framing.Announces head n) : (framing.declared n).value = n := by
  cases framing with
  | fixed length => exact h.2.symm
  | _ => rfl

/-- The sentence on an element that is cut off can be written if the announced number can be
spelt. -/
theorem spellable_element (h : framing.Announces head n) {cause : Truncation}
    (hcause : cause.spellable = true) (index : Nat) :
    (Error.truncated (.element (framing.declared n) index cause)).spellable = spellable n := by
  rw [Error.spellable, Truncation.spellable, hcause, Bool.and_true, Numeral.spellable,
    value_declared h]

/-- Behind the announcement the elements are counted. -/
theorem readElements_of_announces (hframing : framing ≠ .unframed)
    (h : framing.Announces head n) (element : Decoding Value) {r : Reader} (hr : r.InBounds)
    (hrest : r.rest = head ++ tail) :
    readElements framing element r
      = readCounted element (framing.declared n) n 0 [] (r.advance head.length) := by
  cases framing with
  | fixed length =>
    rcases h with ⟨rfl, hlength⟩
    rw [List.length_nil, Reader.advance_zero, readElements, declared, ← hlength, Int.toNat_natCast]
  | counted width =>
    rcases Uint.of_bytesOf_ok h with ⟨hwidth, hcount⟩
    have hpieces : r.rest = source [plain head] ++ tail := by simpa using hrest
    have hread := (accepts_readNat width).runs hr hpieces
      ⟨head, rfl, hwidth, Int.natCast_inj.1 hcount⟩
    rw [source_cons, source_nil, List.append_nil, found_plain] at hread
    simp only [readElements, Bind.bind, EStateM.bind, hread, declared]
  | unframed => exact absurd rfl hframing

end Framing

/-! ## Messages that lack elements -/

namespace Codec

/-- A message that announces more elements than it holds: some are there in full, and of the next
one there is only a proper beginning. -/
structure Shortfall (framing : Framing) (ce : Codec) (head : List UInt8) (n : Nat)
    (parts : List (List UInt8)) (w t : List UInt8) : Prop where
  announces : framing.Announces head n
  complete : ∀ part ∈ parts, ∃ v, ce.decode part true = .ok v
  fewer : parts.length < n
  last : ∃ v, ce.decode w true = .ok v
  cut : ∃ more, more ≠ [] ∧ w = t ++ more
  /-- The length has no more digits than can be spelt, as that of any block in memory. -/
  spelt : spellable (head ++ parts.flatten ++ w).length = true

variable {c ce : Codec} {framing : Framing} {custom : Custom Empty} {head w t : List UInt8}
  {parts : List (List UInt8)} {n : Nat}

theorem exists_readsEach (sizes : ce.layout.Everywhere Layout.NonNegative)
    (delimits : ce.layout.SelfDelimiting) (h : ∀ part ∈ parts, ∃ v, ce.decode part true = .ok v) :
    ∃ ps vs, source ps = parts.flatten ∧ vs.length = parts.length ∧
      ReadsEach ce.layout.Reads ps [] vs := by
  induction parts with
  | nil => exact ⟨[], [], rfl, rfl, rfl⟩
  | cons part parts ih =>
    rcases List.forall_mem_cons.1 h with ⟨⟨v, hv⟩, hlater⟩
    rcases (decode_whole_iff sizes).1 hv with ⟨p, rfl, hp⟩
    rcases ih hlater with ⟨q, vs, hq, hlength, heach⟩
    refine ⟨p ++ q, v :: vs, ?_, ?_, p, q, rfl, Layout.blind_reads delimits hp _, heach⟩
    · rw [source_append, hq, List.flatten_cons]
    · rw [List.length_cons, List.length_cons, hlength]

/-- The failure names the announced number and the place of the element that is cut off. -/
theorem decode_short (hc : c.layout = .array framing ce.layout custom)
    (hframing : framing ≠ .unframed) (sizes : ce.layout.Everywhere Layout.NonNegative)
    (delimits : ce.layout.SelfDelimiting) (h : Shortfall framing ce head n parts w t) :
    ∃ cause : Truncation, cause.spellable = true ∧ ∀ whole,
      c.decode (head ++ parts.flatten ++ t) whole
        = .error (.truncated (.element (framing.declared n) parts.length cause)) := by
  rcases h with ⟨hhead, hparts, hfewer, ⟨v, hlast⟩, ⟨more, hmore, hcut⟩, hspelt⟩
  rcases exists_readsEach sizes delimits hparts with ⟨ps, vs, hps, hlength, heach⟩
  rcases (decode_whole_iff sizes).1 hlast with ⟨qs, rfl, hqs⟩
  rcases Nat.exists_eq_add_of_lt hfewer with ⟨left, hn⟩
  -- the cursor behind the announcement
  have hstart := Reader.inBounds_ofBytes (head ++ parts.flatten ++ t)
  have hrest : (Reader.ofBytes (head ++ parts.flatten ++ t)).rest = head ++ (source ps ++ t) := by
    rw [Reader.rest_ofBytes, hps, List.append_assoc]
  have hbehind := Reader.rest_advance hstart hrest
  have hbounds := Reader.inBounds_advance hstart hrest
  simp only [List.length_append] at hspelt
  have hsize : spellable ((Reader.ofBytes (head ++ parts.flatten ++ t)).advance head.length).size
      = true := by
    have hshorter := congrArg List.length hcut
    rw [List.length_append] at hshorter
    refine spellable_of_le ?_ hspelt
    simp only [Reader.size_advance, Reader.size_ofBytes, List.length_append]
    omega
  have hwhole : spellable (source qs).length = true := spellable_of_le (by omega) hspelt
  rcases readCounted_cut (Layout.truncates_decode delimits) ce.layout.accepts_decode
      (Layout.blind_reads delimits) (framing.declared n) left heach hqs hbounds hbehind hcut hmore
      hsize hwhole with ⟨cause, s, hcause, hfails⟩
  have helements : readElements framing ce.layout.decode
      (Reader.ofBytes (head ++ parts.flatten ++ t))
      = .error (.truncated (.element (framing.declared n) parts.length cause)) s := by
    rw [Framing.readElements_of_announces hframing hhead _ hstart hrest, ← hlength, ← hfails, hn,
      hlength, Nat.add_assoc]
  refine ⟨cause, hcause, fun whole => ?_⟩
  unfold decode read
  rw [hc, Layout.decode]
  simp only [Bind.bind, EStateM.bind, helements]

/-- Input that ends inside an element of a counted array is reported as truncated, in a sentence
that names the announced number and the place of the element, unless the number has too many
digits. -/
theorem decode_shortfall (hc : c.layout = .array framing ce.layout custom)
    (hframing : framing ≠ .unframed) (sizes : ce.layout.Everywhere Layout.NonNegative)
    (delimits : ce.layout.SelfDelimiting) (h : Shortfall framing ce head n parts w t) :
    ∃ cause : Truncation, ∀ whole, ∃ e,
      c.decode (head ++ parts.flatten ++ t) whole = .error e ∧
      e = .truncated (.element (framing.declared n) parts.length cause) ∧
      (spellable n = true → e.kind = .truncatedInput ∧
        e.message? = some ("Array declares " ++ (framing.declared n).text
          ++ " elements but input ends in element " ++ toString parts.length ++ ": "
          ++ cause.message)) ∧
      (spellable n = false → e.kind = .valueMisuse) := by
  rcases decode_short hc hframing sizes delimits h with ⟨cause, hcause, hdecode⟩
  have hspelt := Framing.spellable_element h.announces hcause parts.length
  refine ⟨cause, fun whole => ⟨_, hdecode whole, rfl, fun hn => ?_, fun hn => ?_⟩⟩
  · exact ⟨if_pos (hspelt.trans hn), if_pos (hspelt.trans hn)⟩
  · rw [← hspelt] at hn
    exact if_neg (Bool.eq_false_iff.1 hn)

end Codec

/-! ## Groups that are cut off -/

/-- Two-byte numbers behind their count. -/
def Layout.group : Layout := .array (.counted 1) (.uint 2 .plain .off) .plain

def Codec.group : Codec := ⟨.group, none, rfl⟩

/-- Groups behind their count. -/
def Codec.groups : Codec := ⟨.array (.counted 1) .group .plain, none, rfl⟩

/-- Of three groups the first is there, and the second lacks its last byte. -/
theorem Codec.decode_shortfall_groups :
    ∃ e detail, Codec.groups.decode [3, 1, 0, 7, 2, 0, 1, 0] true = .error e ∧
      e.kind = .truncatedInput ∧ e.message? =
        some ("Array declares 3 elements but input ends in element 1: " ++ detail) := by
  have hone : 0 ≤ (1 : Numeral).value := by decide
  have htwo : 0 ≤ (2 : Numeral).value := by decide
  have sizes : Layout.group.Everywhere Layout.NonNegative := by
    simp [Layout.group, Layout.everywhere_array, Layout.NonNegative, Framing.NonNegative, hone,
      htwo]
  have hcounted : Framing.counted 1 ≠ .unframed := by simp
  have delimits : Layout.group.SelfDelimiting := ⟨hcounted, trivial⟩
  have hshort : Shortfall (.counted 1) .group [3] 3 [[1, 0, 7]] [2, 0, 1, 0, 2] [2, 0, 1, 0] := by
    constructor
    · rfl
    · exact List.forall_mem_singleton.2 ⟨.list [.int 7], rfl⟩
    · decide
    · exact ⟨.list [.int 1, .int 2], rfl⟩
    · exact ⟨[2], by simp, rfl⟩
    · exact spellable_of_lt (by decide)
  rcases @decode_shortfall .groups .group _ .plain _ _ _ _ _ rfl hcounted sizes delimits
    hshort with ⟨cause, hdecode⟩
  rcases hdecode true with ⟨e, he, _, hspelt, _⟩
  rcases hspelt (spellable_of_lt (by decide)) with ⟨hkind, hmessage⟩
  exact ⟨e, cause.message, he, hkind, hmessage⟩

/-! ## A number that cannot be spelt -/

/-- Bytes behind a count of 1786 bytes. -/
def Layout.wideArray : Layout := .array (.counted 1786) (.uint 1 .plain .off) .plain

theorem Layout.built_wideArray : Layout.wideArray.Built := by
  have hbyte := @Built.uint 1 .none .off _ rfl
  exact @Built.array _ none (some 1786) .none _ hbyte rfl

def Codec.wideArray : Codec := ⟨.wideArray, none, rfl⟩

/-- One byte as a number. -/
def Codec.byte : Codec := ⟨.uint 1 .plain .off, some 1, rfl⟩

/-- The count is the highest there is and the input ends behind it, but the sentence that would say
so has too many digits. -/
theorem Codec.decode_short_unspelt :
    Layout.wideArray.Built ∧ compile .wideArray = .ok .wideArray ∧
      Codec.wideArray.layout = .array (.counted 1786) Codec.byte.layout .plain ∧
      Codec.byte.layout.Everywhere Layout.NonNegative ∧ Codec.byte.layout.SelfDelimiting ∧
      ∃ n, Shortfall (.counted 1786) .byte (List.replicate 1786 255) n [] [7] [] ∧
        ∀ whole, ∃ e, Codec.wideArray.decode (List.replicate 1786 255) whole = .error e ∧
          e.kind = .valueMisuse := by
  have hone : 0 ≤ (1 : Numeral).value := by decide
  have sizes : Codec.byte.layout.Everywhere Layout.NonNegative := by
    simpa [Codec.byte, Layout.NonNegative] using hone
  have hunspelt := not_spellable_of_wideTag
  have hlength : ((List.replicate 1786 (255 : UInt8)).length : Int) = (1786 : Numeral).value := by
    rw [List.length_replicate]
    rfl
  have hshort : Shortfall (.counted 1786) .byte (List.replicate 1786 255)
      (BigEndian.decode (List.replicate 1786 255)) [] [7] [] := by
    constructor
    · exact Uint.bytesOf_decode hlength (by rw [hlength]; decide)
    · simp
    · -- zero could be spelt
      refine Nat.pos_of_ne_zero fun hzero => ?_
      rw [hzero] at hunspelt
      exact absurd (spellable_of_lt (by decide)) (Bool.eq_false_iff.1 hunspelt)
    · exact ⟨.int 7, rfl⟩
    · exact ⟨[7], by simp, rfl⟩
    · rw [List.flatten_nil, List.append_nil, List.length_append, List.length_replicate]
      exact spellable_of_lt (by decide)
  have hlayout : Codec.wideArray.layout = .array (.counted 1786) Codec.byte.layout .plain := rfl
  refine ⟨Layout.built_wideArray, compile_ok_iff.2 ⟨rfl, rfl, rfl⟩, hlayout, sizes, trivial, _,
    hshort, fun whole => ?_⟩
  have hcounted : Framing.counted 1786 ≠ .unframed := by simp
  rcases decode_short hlayout hcounted sizes trivial hshort with ⟨cause, hcause, hdecode⟩
  have hfails := hdecode whole
  have hlost := Framing.spellable_element hshort.announces hcause 0
  rw [hunspelt] at hlost
  rw [List.flatten_nil, List.append_nil, List.append_nil] at hfails
  exact ⟨_, hfails, if_neg (Bool.eq_false_iff.1 hlost)⟩

end WireLayout
