import WireLayout.Proofs.Locality

/-!
# Truncation — input that ends inside a value

A value of a self-delimiting layout that is cut off anywhere is reported as truncated input, and as
nothing else: what was read before the cut is read as before, and the first piece that reaches over
it asks for more bytes than there are.

* `Reader.EndsInside` — the data of a cursor end after a proper beginning of some bytes;
* `Decoding.Truncates` — a computation reports such ends for the pieces that a grammar describes;
* `Layout.truncates_decode` — decoding a self-delimiting layout does;
* `Codec.EndsExactly` — a message has to be given in full and on its own;
* `Codec.endsExactly` — every message that a self-delimiting layout accepts does.

The sentence for truncated input mentions counts of bytes.  So the class of the failure is the right
one as long as the number of bytes in the message can be spelt.
-/

namespace WireLayout

open Piece

variable {α β γ δ : Type}

/-! ## Ends of input -/

/-- The data end after a proper beginning of some bytes. -/
structure Reader.EndsInside (r : Reader) (bs : List UInt8) : Prop where
  inBounds : r.InBounds
  cut : ∃ more, more ≠ [] ∧ bs = r.rest ++ more
  size_spelt : spellable r.size = true
  length_spelt : spellable bs.length = true

namespace Reader.EndsInside

variable {r : Reader} {bs first later : List UInt8}

theorem ne_nil (h : r.EndsInside bs) : bs ≠ [] := by
  rcases h.cut with ⟨more, hmore, rfl⟩
  simp [hmore]

theorem not_nil (h : r.EndsInside []) : False := h.ne_nil rfl

theorem rest_lt (h : r.EndsInside bs) : r.rest.length < bs.length := by
  rcases h.cut with ⟨more, hmore, rfl⟩
  have hpos := List.length_pos_iff.2 hmore
  rw [List.length_append]
  omega

/-- Data end inside the first of two parts, or behind it and inside the second. -/
theorem append (h : r.EndsInside (first ++ later)) :
    r.EndsInside first ∨
      ∃ tail, r.rest = first ++ tail ∧ (r.advance first.length).EndsInside later := by
  rcases h.cut with ⟨more, hmore, heq⟩
  have hlength := h.length_spelt
  rw [List.length_append] at hlength
  have hfirst : spellable first.length = true := spellable_of_le (by omega) hlength
  have hlater : spellable later.length = true := spellable_of_le (by omega) hlength
  -- data that end just behind the first part end inside the second
  have hcases : (∃ tail, tail ≠ [] ∧ first = r.rest ++ tail) ∨
      ∃ tail, r.rest = first ++ tail ∧ later = tail ++ more := by
    rcases List.append_eq_append_iff.1 heq with ⟨tail, hrest, hmore⟩ | ⟨tail, hrest, rfl⟩
    · exact .inr ⟨tail, hrest, hmore⟩
    · by_cases htail : tail = []
      · subst htail
        exact .inr ⟨[], by simp [hrest], rfl⟩
      · exact .inl ⟨tail, htail, hrest⟩
  rcases hcases with hinside | ⟨tail, hrest, hcut⟩
  · exact .inl ⟨h.inBounds, hinside, h.size_spelt, hfirst⟩
  · have hadvanced := rest_advance h.inBounds hrest
    exact .inr ⟨tail, hrest, inBounds_advance h.inBounds hrest, ⟨more, hmore, by rwa [hadvanced]⟩,
      h.size_spelt, hlater⟩

end Reader.EndsInside

/-! ## Computations that report the end of their input -/

namespace Decoding

/-- A computation fails on a proper beginning of what a grammar describes, because input ends. -/
def Truncates (x : Decoding α) (G : List Piece → List UInt8 → γ → Prop) : Prop :=
  ∀ ⦃r ps rest c⦄, G ps rest c → r.EndsInside (source ps) →
    ∃ e r', x r = .error e r' ∧ e.kind = .truncatedInput

variable {x : Decoding α} {P : Prop} {G : List Piece → List UInt8 → γ → Prop}
  {H : List Piece → List UInt8 → δ → Prop}

theorem truncates_of_nil (x : Decoding α) (h : ∀ ps rest c, G ps rest c → ps = []) :
    x.Truncates G := by
  intro r ps rest c hG hends
  rw [h ps rest c hG] at hends
  exact hends.not_nil.elim

/-- What matters of a grammar is the bytes that it describes. -/
theorem Truncates.recast (hx : x.Truncates G)
    (h : ∀ ps rest c, H ps rest c → ∃ qs tail d, source qs = source ps ∧ G qs tail d) :
    x.Truncates H := by
  intro r ps rest c hH hends
  rcases h ps rest c hH with ⟨qs, tail, d, hqs, hG⟩
  rw [← hqs] at hends
  exact hx hG hends

/-- A first computation that reads everything reports the end already. -/
theorem Truncates.first (hx : x.Truncates G) (f : α → Decoding β) : (x >>= f).Truncates G := by
  intro r ps rest c hG hends
  rcases hx hG hends with ⟨e, r', hfails, he⟩
  refine ⟨e, r', ?_, he⟩
  show EStateM.bind x f r = _
  rw [EStateM.bind, hfails]

/-- Input ends in the first of two computations, or in the second behind all that the first read. -/
theorem Truncates.bind {G : List Piece → List UInt8 → α → Prop} (hx : x.Truncates G)
    (haccepts : x.Accepts P G) (blind : Blind G) {f : α → Decoding β}
    {K : α → List Piece → List UInt8 → γ → Prop} (hf : ∀ a, (f a).Truncates (K a)) :
    (x >>= f).Truncates fun ps rest c =>
      ∃ p q a, ps = p ++ q ∧ G p (source q ++ rest) a ∧ K a q rest c := by
  intro r ps rest c hc hends
  rcases hc with ⟨p, q, a, rfl, hG, hK⟩
  rw [source_append] at hends
  rcases hends.append with hends | ⟨tail, hrest, hends'⟩
  · exact hx.first f hG hends
  · have hrun := haccepts.runs hends.inBounds hrest (blind hG tail)
    rcases hf a hK hends' with ⟨e, r', hfails, he⟩
    refine ⟨e, r', ?_, he⟩
    show EStateM.bind x f r = _
    rw [EStateM.bind, hrun]
    exact hfails

end Decoding

open Decoding

/-! ## Reading bytes -/

theorem truncates_read (n : Numeral) :
    (Reader.read n).Truncates fun ps _ bs => ps = [plain bs] ∧ (bs.length : Int) = n.value := by
  intro r ps rest bs h hends
  rcases h with ⟨rfl, hlength⟩
  rw [source_cons, source_nil, List.append_nil, found_plain] at hends
  have hshort := hends.rest_lt
  have hremaining := Reader.remaining_eq hends.inBounds
  have hfails : r.remaining < n.value := by omega
  refine ⟨_, r, if_pos hfails, ?_⟩
  -- wanted are the bytes of the piece; offset and remainder are within the data
  have hwanted : n.spellable = true := spellable_of_le (by omega) hends.length_spelt
  have hoffset : spellable r.position = true := by
    have hbounds := hends.inBounds
    exact spellable_of_le (by unfold Reader.InBounds at hbounds; omega) hends.size_spelt
  have hleft : spellable r.remaining = true := spellable_of_le (by omega) hends.length_spelt
  refine Error.kind_of_spellable ?_
  simp [Error.spellable, Truncation.spellable, hwanted, hoffset, hleft]

theorem truncates_readNat (width : Numeral) :
    (readNat width).Truncates fun ps _ n =>
      ∃ bs, ps = [plain bs] ∧ (bs.length : Int) = width.value ∧ BigEndian.decode bs = n := by
  refine ((truncates_read width).first _).recast fun ps rest n h => ?_
  rcases h with ⟨bs, rfl, hwidth, _⟩
  exact ⟨_, rest, bs, rfl, rfl, hwidth⟩

theorem blind_readNat (width : Numeral) : Blind fun (ps : List Piece) _ (n : Nat) =>
    ∃ bs, ps = [plain bs] ∧ (bs.length : Int) = width.value ∧ BigEndian.decode bs = n :=
  fun _ _ _ h _ => h

theorem truncates_readConstant (expected : Value) (content : List UInt8) (omission : Omission) :
    (readConstant expected content omission).Truncates fun ps _ v =>
      ReadsConstant expected content omission ps v := by
  rw [readConstant_eq]
  refine ((truncates_read (.plain content.length)).first _).recast fun ps rest v h => ?_
  unfold ReadsConstant at h
  split at h
  · rcases h with ⟨bs, hbs, rfl, _⟩
    exact ⟨[plain bs], rest, bs, rfl, rfl, congrArg _ hbs⟩
  · rcases h with ⟨rfl, _⟩
    exact ⟨[plain content], rest, content, rfl, rfl, rfl⟩

theorem truncates_readFrame {framing : Framing} (h : framing ≠ .unframed) :
    (readFrame framing).Truncates fun ps rest payload =>
      ∃ head, ps = head ++ [plain payload] ∧ framing.Opens head payload.length rest := by
  cases framing with
  | fixed size =>
    refine (truncates_read size).recast fun ps rest payload hps => ?_
    rcases hps with ⟨_, rfl, rfl, hsize⟩
    exact ⟨_, rest, payload, rfl, rfl, hsize⟩
  | counted width =>
    have hall := (truncates_readNat width).bind (accepts_readNat width) (blind_readNat width)
      fun count => truncates_read (.plain count)
    refine hall.recast fun ps rest payload hps => ?_
    rcases hps with ⟨_, rfl, bs, rfl, hwidth, hbs⟩
    exact ⟨_, rest, payload, rfl, _, _, _, rfl, ⟨bs, rfl, hwidth, hbs⟩, rfl, rfl⟩
  | unframed => exact absurd rfl h

theorem truncates_encloses {framing : Framing} (h : framing ≠ .unframed)
    (G : List Piece → List UInt8 → Value → Prop) :
    (readFrame framing).Truncates (framing.Encloses G) := by
  refine (truncates_readFrame h).recast fun ps rest v henclosed => ?_
  cases framing with
  | unframed => exact absurd rfl h
  | _ =>
    rcases henclosed with ⟨head, body, rfl, hopens, _⟩
    exact ⟨head ++ [plain (source body)], rest, source body, by simp, head, rfl, hopens⟩

/-! ## Arrays -/

section

variable {element : Decoding Value} {P : Prop} {G : List Piece → List UInt8 → Value → Prop}

theorem truncates_namedElement (h : element.Truncates G) {count : Numeral}
    (hcount : count.spellable = true) (index : Nat) :
    (namedElement element count index).Truncates G := by
  intro r ps rest v hG hends
  rcases h hG hends with ⟨e, r', hfails, he⟩
  refine ⟨e.inElement count index, r', ?_, (Error.kind_inElement hcount).trans he⟩
  unfold namedElement
  rw [hfails]

theorem truncates_readCounted_of_spellable (h : element.Truncates G)
    (haccepts : element.Accepts P G) (blind : Blind G) {count : Numeral}
    (hcount : count.spellable = true) (left index : Nat) :
    (readCounted element count left index []).Truncates fun ps rest vs =>
      vs.length = left ∧ ReadsEach G ps rest vs := by
  induction left generalizing index with
  | zero =>
    refine truncates_of_nil _ fun ps rest vs hvs => ?_
    rcases hvs with ⟨hlength, heach⟩
    rw [List.length_eq_zero_iff.1 hlength] at heach
    exact heach
  | succ left ih =>
    rw [readCounted_succ]
    have hall := (truncates_namedElement h hcount index).bind
      (accepts_namedElement haccepts count index) blind fun v =>
        (ih (index + 1)).first fun vs => pure (v :: vs)
    refine hall.recast fun ps rest vs hvs => ?_
    rcases hvs with ⟨hlength, heach⟩
    cases vs with
    | nil => cases hlength
    | cons v later =>
      rcases heach with ⟨p, q, rfl, hG, heach⟩
      exact ⟨p ++ q, rest, later, rfl, p, q, v, rfl, hG, Nat.succ.inj hlength, heach⟩

theorem exists_nonempty_of_readsEach {ps : List Piece} {rest : List UInt8} {vs : List Value}
    (heach : ReadsEach G ps rest vs) (hne : source ps ≠ []) :
    ∃ p tail v, G p tail v ∧ source p ≠ [] := by
  induction vs generalizing ps with
  | nil =>
    cases heach
    exact absurd rfl hne
  | cons v vs ih =>
    rcases heach with ⟨p, q, rfl, hG, heach⟩
    by_cases hp : source p = []
    · rw [source_append, hp] at hne
      exact ih heach hne
    · exact ⟨p, _, v, hG, hp⟩

/-- If one element takes up input, all do, and there are no more of them than there are bytes. -/
theorem length_le_of_blind (haccepts : element.Accepts P G) (blind : Blind G) {ps : List Piece}
    {rest : List UInt8} {vs : List Value} (heach : ReadsEach G ps rest vs) (hne : source ps ≠ []) :
    vs.length ≤ (source ps).length := by
  rcases exists_nonempty_of_readsEach heach hne with ⟨p, tail, v, hp, hpne⟩
  -- an element without bytes would be the beginning of the one with some
  have hall : ∀ q tail w, G q tail w → source q ≠ [] := by
    intro q tail w hq hnil
    have hmore : source p = source q ++ source p := by rw [hnil, List.nil_append]
    exact hpne (haccepts.prefix_free blind hq hp hmore)
  have hnonempty : ReadsEach (fun p tail v => source p ≠ [] ∧ G p tail v) ps rest vs := by
    clear hne
    induction vs generalizing ps with
    | nil => exact heach
    | cons w vs ih =>
      rcases heach with ⟨p, q, rfl, hG, heach⟩
      exact ⟨p, q, rfl, ⟨hall p _ w hG, hG⟩, ih heach⟩
  exact length_le_of_readsEach hnonempty

theorem truncates_readCounted (h : element.Truncates G) (haccepts : element.Accepts P G)
    (blind : Blind G) (count : Numeral) (left : Nat) (hcount : count.value = left) :
    (readCounted element count left 0 []).Truncates fun ps rest vs =>
      vs.length = left ∧ ReadsEach G ps rest vs := by
  intro r ps rest vs hvs hends
  -- a count of elements that take up input is no larger than the number of bytes
  have hle := length_le_of_blind haccepts blind hvs.2 hends.ne_nil
  have hspelt : count.spellable = true := by
    have hlength := hvs.1
    exact spellable_of_le (by omega) hends.length_spelt
  exact truncates_readCounted_of_spellable h haccepts blind hspelt left 0 hvs hends

theorem truncates_readElements {framing : Framing} (hframing : framing ≠ .unframed)
    (h : element.Truncates G) (haccepts : element.Accepts P G) (blind : Blind G) :
    (readElements framing element).Truncates fun ps rest vs =>
      ∃ head body, ps = head ++ body ∧ framing.Opens head vs.length rest ∧
        ReadsEach G body rest vs := by
  cases framing with
  | fixed n =>
    intro r ps rest vs hvs hends
    rcases hvs with ⟨_, body, rfl, ⟨rfl, hn⟩, heach⟩
    have hcount : n.value = n.value.toNat := by omega
    exact truncates_readCounted h haccepts blind n _ hcount ⟨by omega, heach⟩ hends
  | counted width =>
    have hall := (truncates_readNat width).bind (accepts_readNat width) (blind_readNat width)
      fun count => truncates_readCounted h haccepts blind (.plain count) count rfl
    refine hall.recast fun ps rest vs hvs => ?_
    rcases hvs with ⟨_, body, rfl, ⟨bs, rfl, hwidth, hbs⟩, heach⟩
    exact ⟨_, rest, vs, rfl, _, body, vs.length, rfl, ⟨bs, rfl, hwidth, hbs⟩, rfl, heach⟩
  | unframed => exact absurd rfl hframing

end

/-! ## Layouts -/

namespace Layout

theorem truncates_decodeFields {fields : List Field}
    (h : ∀ f ∈ fields, f.item.SelfDelimiting → f.item.decode.Truncates f.item.Reads)
    (delimits : FieldsSelfDelimiting fields) :
    (decodeFields fields).Truncates (ReadsFields fields) := by
  induction fields with
  | nil => exact truncates_of_nil _ fun ps rest entries hreads => hreads.1
  | cons f fields ih =>
    rcases f with ⟨name, item⟩
    rcases delimits with ⟨hitem, hfields⟩
    rcases List.forall_mem_cons.1 h with ⟨hfirst, hlater⟩
    have hall := (hfirst hitem).bind item.accepts_decode (blind_reads hitem) fun v =>
      (ih hlater hfields).first fun entries =>
        pure (if item.isOmitted then entries else (name, v) :: entries)
    refine hall.recast fun ps rest entries hreads => ?_
    rcases hreads with ⟨p, q, v, more, rfl, hp, hq, _⟩
    exact ⟨p ++ q, rest, more, rfl, p, q, v, rfl, hp, hq⟩

theorem truncates_decodeCase (idTag : Label) (id : Nat) {cases : List Case}
    (h : ∀ c ∈ cases, (decodeFields c.fields).Truncates (ReadsFields c.fields)) :
    (decodeCase idTag cases id).Truncates (ReadsCase idTag cases id) := by
  induction cases with
  | nil => exact fun r ps rest entries hreads => hreads.elim
  | cons c cases ih =>
    rcases c with ⟨caseId, name, fields⟩
    rcases List.forall_mem_cons.1 h with ⟨hfields, hcases⟩
    unfold decodeCase
    by_cases hid : caseId.value = id
    · rw [if_pos hid]
      refine (hfields.first _).recast fun ps rest entries hreads => ?_
      rw [ReadsCase, if_pos hid] at hreads
      rcases hreads with ⟨more, hmore, _⟩
      exact ⟨ps, rest, more, rfl, hmore⟩
    · rw [if_neg hid]
      refine (ih hcases).recast fun ps rest entries hreads => ?_
      rw [ReadsCase, if_neg hid] at hreads
      exact ⟨ps, rest, entries, rfl, hreads⟩

/-- Decoding a self-delimiting layout reports the end of input wherever it is. -/
theorem truncates_decode {l : Layout} (delimits : l.SelfDelimiting) :
    l.decode.Truncates l.Reads := by
  -- checks and conversions come behind what they look at, so the end is found before them
  induction l with
  | uint size custom omission =>
    cases custom with
    | constant n =>
      intro r ps rest v hreads hends
      rcases hreads with ⟨content, hcontent, hreads⟩
      have hconstant := truncates_readConstant (.ofNumeral n) content omission
      rcases @hconstant r ps rest v hreads hends with ⟨e, r', hfails, he⟩
      refine ⟨e, r', ?_, he⟩
      show EStateM.bind (ofExcept (Uint.encode (.ofNumeral n) size)) _ r = _
      rw [hcontent]
      exact hfails
    | _ =>
      refine ((truncates_readNat size).first _).recast fun ps rest v hreads => ?_
      rcases hreads with ⟨bs, rfl, hsize, _⟩
      exact ⟨_, rest, _, rfl, bs, rfl, hsize, rfl⟩
  | blob framing custom omission =>
    cases custom with
    | constant content => exact truncates_readConstant (.raw content) content omission
    | _ =>
      have hframing : framing ≠ .unframed := by
        intro hu
        rcases delimits hu with ⟨content, hcontent⟩
        cases hcontent
      refine ((truncates_readFrame hframing).first _).recast fun ps rest v hreads => ?_
      rcases hreads with ⟨head, payload, rfl, hopens, _⟩
      exact ⟨_, rest, payload, rfl, head, rfl, hopens⟩
  | nested framing inner custom omission ih =>
    cases framing with
    | unframed =>
      refine ((ih (delimits rfl)).first _).recast fun ps rest v hreads => ?_
      rcases hreads with ⟨raw, hraw, _⟩
      exact ⟨ps, rest, raw, rfl, hraw⟩
    | _ =>
      -- a frame that is complete is read on its own, and has the same content as before
      refine ((truncates_encloses ?_ inner.Reads).first _).recast fun ps rest v hreads => ?_
      · rintro ⟨⟩
      · rcases hreads with ⟨raw, hraw, _⟩
        exact ⟨ps, rest, raw, rfl, hraw⟩
  | array framing element custom ih =>
    rcases delimits with ⟨hframing, helement⟩
    have hall := truncates_readElements hframing (ih helement) element.accepts_decode
      (blind_reads helement)
    refine (hall.first _).recast fun ps rest v hreads => ?_
    rcases hreads with ⟨head, body, items, rfl, hopens, heach, _⟩
    exact ⟨_, rest, items, rfl, head, body, rfl, hopens, by simpa [hframing] using heach⟩
  | switch idSize idTag cases custom ih =>
    have hcases : ∀ c ∈ cases, (decodeFields c.fields).Truncates (ReadsFields c.fields) :=
      fun c hc => truncates_decodeFields (ih c hc) (casesSelfDelimiting_iff.1 delimits c hc)
    have hall := (truncates_readNat idSize).bind (accepts_readNat idSize) (blind_readNat idSize)
      fun id => (truncates_decodeCase idTag id hcases).first fun entries =>
        Decoding.ofExcept (custom.afterDecode (.dict entries))
    refine hall.recast fun ps rest v hreads => ?_
    rcases hreads with ⟨bs, body, entries, rfl, hwidth, hentries, _⟩
    exact ⟨plain bs :: body, rest, entries, rfl, [plain bs], body, _, rfl, ⟨bs, rfl, hwidth, rfl⟩,
      hentries⟩
  | record fields ih =>
    refine ((truncates_decodeFields ih delimits).first _).recast fun ps rest v hreads => ?_
    rcases hreads with ⟨entries, hentries, _⟩
    exact ⟨ps, rest, entries, rfl, hentries⟩
  | _ => exact fun r ps rest v hreads => hreads.elim

end Layout

/-! ## Messages -/

namespace Codec

/-- A message is accepted in full and on its own: cut off, it is truncated input, and continued, it
leaves input behind. -/
structure EndsExactly (c : Codec) (b : List UInt8) (u : Value) : Prop where
  cut : ∀ start more, b = start ++ more → more ≠ [] → ∀ whole,
    ∃ e, c.decode start whole = .error e ∧ e.kind = .truncatedInput
  continued : ∀ more, more ≠ [] → spellable more.length = true →
    (∃ e, c.decode (b ++ more) true = .error e ∧ e.kind = .trailingBytes) ∧
      c.decode (b ++ more) false = .ok u

variable {c : Codec} {b : List UInt8} {u : Value}

/-- What the decoder does in front of further bytes. -/
theorem decode_append (delimits : c.layout.SelfDelimiting) {ps : List Piece} {rest : List UInt8}
    (h : c.layout.Reads ps rest u) {more : List UInt8} (hmore : more ≠ []) :
    c.decode (source ps ++ more) true = .error (.inputLeft more.length) ∧
      c.decode (source ps ++ more) false = .ok u := by
  have hstart := Reader.inBounds_ofBytes (source ps ++ more)
  have hrest : (Reader.ofBytes (source ps ++ more)).rest = source ps ++ more :=
    Reader.rest_ofBytes _
  have hread := c.layout.accepts_decode.runs hstart hrest (Layout.blind_reads delimits h more)
  have hleft : ((Reader.ofBytes (source ps ++ more)).advance (source ps).length).remaining =
      more.length := by
    rw [Reader.remaining_eq (Reader.inBounds_advance hstart hrest),
      Reader.rest_advance hstart hrest]
  have hsome : more.length ≠ 0 := fun h => hmore (List.length_eq_zero_iff.1 h)
  unfold decode read
  rw [hread]
  simp [hleft, hsome]

/-- A message that a self-delimiting layout accepts, whether or not an encoder made it, has to be
given in full and on its own. -/
theorem endsExactly (sizes : c.layout.Everywhere Layout.NonNegative)
    (delimits : c.layout.SelfDelimiting) (hspelt : spellable b.length = true)
    (h : c.decode b true = .ok u) : c.EndsExactly b u := by
  rcases (decode_whole_iff sizes).1 h with ⟨ps, rfl, hreads⟩
  constructor
  · intro start more hcut hmore whole
    have hsize : spellable start.length = true := by
      rw [hcut, List.length_append] at hspelt
      exact spellable_of_le (by omega) hspelt
    have hrest : source ps = (Reader.ofBytes start).rest ++ more := by
      rw [Reader.rest_ofBytes]
      exact hcut
    have hends : (Reader.ofBytes start).EndsInside (source ps) :=
      ⟨Reader.inBounds_ofBytes start, ⟨more, hmore, hrest⟩, hsize, hspelt⟩
    rcases Layout.truncates_decode delimits hreads hends with ⟨e, r', hfails, he⟩
    refine ⟨e, ?_, he⟩
    unfold decode read
    rw [hfails]
  · intro more hmore hleft
    rcases decode_append delimits hreads hmore with ⟨hwhole, hopen⟩
    exact ⟨⟨_, hwhole, Error.kind_of_spellable hleft⟩, hopen⟩

end Codec

end WireLayout
