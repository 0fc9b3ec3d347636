import WireLayout.Codec
import WireLayout.Proofs.Grammar

/-!
# Acceptance — decoding accepts the grammar of the layout

`Decoding.Accepts x P G` says that a computation on a cursor succeeds on the inputs that the
grammar `G` describes, with the values that it gives them, and moves the cursor over the pieces that
it read; and that, if `P` holds, there are no other inputs on which it succeeds.  The condition is
that sizes are not negative: a negative size describes no input, but may move a cursor back.  The
lemmas `accepts_…` build such statements along the structure of a decoder.

Main statements: `Layout.accepts_decode`, for every layout, and `Codec.decode_whole_iff`, for all
the bytes of a message.
-/

namespace WireLayout

open Piece

/-! ## Computations that accept a grammar -/

namespace Decoding

variable {α β : Type}

/-- A computation succeeds on the inputs of a grammar and, under a condition, on no others. -/
structure Accepts (x : Decoding α) (P : Prop) (G : List Piece → List UInt8 → α → Prop) :
    Prop where
  runs : ∀ ⦃r ps rest a⦄, r.InBounds → r.rest = source ps ++ rest → G ps rest a →
    x r = .ok a (r.advance (source ps).length)
  found : P → ∀ ⦃r a r'⦄, r.InBounds → x r = .ok a r' →
    ∃ ps rest, r.rest = source ps ++ rest ∧ G ps rest a ∧ r' = r.advance (source ps).length

variable {x : Decoding α} {P : Prop} {G H : List Piece → List UInt8 → α → Prop}

theorem Accepts.mono {Q : Prop} (hx : x.Accepts P G) (h : Q → P) : x.Accepts Q G :=
  ⟨hx.runs, fun hQ => hx.found (h hQ)⟩

/-- Grammars may cut the same input into different pieces. -/
theorem Accepts.recast (hx : x.Accepts P G)
    (h : ∀ bs rest a, (∃ ps, source ps = bs ∧ H ps rest a) → ∃ ps, source ps = bs ∧ G ps rest a)
    (hfound : P →
      ∀ bs rest a, (∃ ps, source ps = bs ∧ G ps rest a) → ∃ ps, source ps = bs ∧ H ps rest a) :
    x.Accepts P H := by
  constructor
  · intro r ps rest a hr hps hH
    rcases h (source ps) rest a ⟨ps, rfl, hH⟩ with ⟨qs, hqs, hG⟩
    rw [← hqs] at hps ⊢
    exact hx.runs hr hps hG
  · intro hP r a r' hr hread
    rcases hx.found hP hr hread with ⟨ps, rest, hps, hG, rfl⟩
    rcases hfound hP (source ps) rest a ⟨ps, rfl, hG⟩ with ⟨qs, hqs, hH⟩
    exact ⟨qs, rest, by rw [hqs, hps], hH, by rw [hqs]⟩

theorem Accepts.congr (hx : x.Accepts P G) (h : ∀ ps rest a, G ps rest a ↔ H ps rest a) :
    x.Accepts P H := by
  have hsame : G = H := by
    funext ps rest a
    exact propext (h ps rest a)
  rwa [← hsame]

theorem accepts_ofExcept (e : Except Error α) :
    (ofExcept e).Accepts P fun ps _ a => ps = [] ∧ e = .ok a := by
  constructor
  · intro r ps rest a _ _ h
    rcases h with ⟨rfl, rfl⟩
    rw [source_nil, List.length_nil, Reader.advance_zero]
    rfl
  · intro _ r a r' _ hread
    rcases Decoding.ofExcept_ok_iff.1 hread with ⟨he, rfl⟩
    exact ⟨[], r.rest, rfl, ⟨rfl, he⟩, by simp⟩

theorem accepts_pure (a : α) :
    (pure a : Decoding α).Accepts P fun ps _ b => ps = [] ∧ a = b := by
  have h := @accepts_ofExcept α P (Except.ok a : Except Error α)
  exact h.congr fun ps rest b => by simp

/-- One computation after the other reads one input after the other. -/
theorem Accepts.bind (hx : x.Accepts P G) {f : α → Decoding β}
    {K : α → List Piece → List UInt8 → β → Prop} (hf : ∀ a, (f a).Accepts P (K a)) :
    (x >>= f).Accepts P fun ps rest b =>
      ∃ p q a, ps = p ++ q ∧ G p (source q ++ rest) a ∧ K a q rest b := by
  constructor
  · intro r ps rest b hr hps h
    rcases h with ⟨p, q, a, rfl, hG, hK⟩
    rw [source_append, List.append_assoc] at hps
    -- the second computation starts where the first one left the cursor
    have hq := (hf a).runs (Reader.inBounds_advance hr hps) (Reader.rest_advance hr hps) hK
    rw [Reader.advance_advance] at hq
    rw [source_append, List.length_append]
    exact EStateM.bind_ok_iff.2 ⟨a, _, hx.runs hr hps hG, hq⟩
  · intro hP r b r' hr hread
    rcases EStateM.bind_ok_iff.1 hread with ⟨a, t, hat, hb⟩
    rcases hx.found hP hr hat with ⟨p, tail, hp, hG, rfl⟩
    rcases (hf a).found hP (Reader.inBounds_advance hr hp) hb with ⟨q, rest, hq, hK, rfl⟩
    -- what the first one left is what the second one read, and the rest behind that
    rw [Reader.rest_advance hr hp] at hq
    subst hq
    refine ⟨p ++ q, rest, by simp [hp], ⟨p, q, a, rfl, hG, hK⟩, ?_⟩
    rw [Reader.advance_advance, source_append, List.length_append]

/-- A check or a conversion after a computation reads nothing more. -/
theorem Accepts.bind_ofExcept (hx : x.Accepts P G) (e : α → Except Error β) :
    (x >>= fun a => ofExcept (e a)).Accepts P fun ps rest b =>
      ∃ a, G ps rest a ∧ e a = .ok b := by
  refine (hx.bind fun a => accepts_ofExcept (e a)).congr fun ps rest b => ?_
  constructor
  · intro h
    rcases h with ⟨p, q, a, rfl, hG, rfl, he⟩
    exact ⟨a, by simpa using hG, he⟩
  · intro h
    rcases h with ⟨a, hG, he⟩
    exact ⟨ps, [], a, by simp, by simpa using hG, rfl, he⟩

theorem Accepts.bind_pure (hx : x.Accepts P G) (f : α → β) :
    (x >>= fun a => pure (f a)).Accepts P fun ps rest b => ∃ a, G ps rest a ∧ f a = b := by
  have h := hx.bind_ofExcept fun a => (.ok (f a) : Except Error β)
  exact h.congr fun ps rest b => by simp

end Decoding

/-! ## Reading bytes -/

theorem accepts_read (n : Numeral) :
    (Reader.read n).Accepts (0 ≤ n.value) fun ps _ bs =>
      ps = [plain bs] ∧ (bs.length : Int) = n.value := by
  constructor
  · intro r ps rest bs hr hps h
    rcases h with ⟨rfl, hlength⟩
    have hrest : r.rest = bs ++ rest := by simpa using hps
    have hread := (Reader.read_ok_iff hr (by omega)).2 ⟨rest, hrest, hlength, rfl⟩
    simpa using hread
  · intro hn r bs r' hr hread
    rcases (Reader.read_ok_iff hr hn).1 hread with ⟨rest, hrest, hlength, rfl⟩
    exact ⟨[plain bs], rest, by simpa using hrest, ⟨rfl, hlength⟩, by simp⟩

theorem accepts_readRest {P : Prop} :
    Reader.readRest.Accepts P fun ps rest bs => ps = [plain bs] ∧ rest = [] := by
  constructor
  · intro r ps rest bs hr hps h
    rcases h with ⟨rfl, rfl⟩
    have hread := (Reader.readRest_ok_iff hr).2 ⟨rfl, rfl⟩
    have hrest : r.rest = bs := by simpa using hps
    rw [hrest] at hread
    simpa using hread
  · intro _ r bs r' hr hread
    rcases (Reader.readRest_ok_iff hr).1 hread with ⟨rfl, rfl⟩
    exact ⟨[plain r.rest], [], by simp, ⟨rfl, rfl⟩, by simp⟩

theorem accepts_readNat (width : Numeral) :
    (readNat width).Accepts (0 ≤ width.value) fun ps _ n =>
      ∃ bs, ps = [plain bs] ∧ (bs.length : Int) = width.value ∧ BigEndian.decode bs = n := by
  refine ((accepts_read width).bind_ofExcept fun bs => Uint.ofBytes bs width).congr ?_
  intro ps rest n
  constructor
  · intro h
    rcases h with ⟨bs, ⟨rfl, hlength⟩, hn⟩
    rw [Uint.ofBytes_of_length hlength] at hn
    cases hn
    exact ⟨bs, rfl, hlength, rfl⟩
  · intro h
    rcases h with ⟨bs, rfl, hlength, rfl⟩
    exact ⟨bs, ⟨rfl, hlength⟩, Uint.ofBytes_of_length hlength⟩

/-- What a constant is read as, by the bytes that stand in its place. -/
def constantAt (expected : Value) (content : List UInt8) (omission : Omission)
    (data : List UInt8) : Except Error Value :=
  if omission.isOn then .ok .none
  else if data = content then .ok expected
  else .error (.fixedBytes content data)

/-- The comparison reads nothing, so it is a check of the bytes that were read. -/
theorem readConstant_eq (expected : Value) (content : List UInt8) (omission : Omission) :
    readConstant expected content omission =
      Reader.read (.plain content.length) >>= fun data =>
        Decoding.ofExcept (constantAt expected content omission data) := by
  unfold readConstant constantAt
  congr 1
  funext data
  split
  · rfl
  · split <;> rfl

theorem accepts_readConstant {P : Prop} (expected : Value) (content : List UInt8)
    (omission : Omission) :
    (readConstant expected content omission).Accepts P fun ps _ v =>
      ReadsConstant expected content omission ps v := by
  have hread := (accepts_read (.plain content.length)).mono (Q := P) fun _ => by simp
  rw [readConstant_eq]
  unfold constantAt
  unfold ReadsConstant
  by_cases hon : omission.isOn = true
  · simp only [hon, if_true]
    -- the grammar marks skipped bytes as such, the reader takes them for plain ones
    refine (hread.bind_ofExcept _).recast ?_ ?_
    · intro bs rest v h
      rcases h with ⟨_, hps, data, hdata, rfl, rfl⟩
      have hlength : (data.length : Int) = (Numeral.plain content.length).value := by
        rw [hdata]
        rfl
      exact ⟨[plain data], by simpa [skipped] using hps, data, ⟨rfl, hlength⟩, rfl⟩
    · intro _ bs rest v h
      rcases h with ⟨_, hps, data, ⟨rfl, hlength⟩, hv⟩
      cases hv
      have hdata : data.length = content.length := by
        rw [Numeral.value_plain] at hlength
        omega
      exact ⟨[skipped content data hdata], by simpa [skipped] using hps, data, hdata, rfl, rfl⟩
  · simp only [hon]
    refine (hread.bind_ofExcept _).congr fun ps rest v => ?_
    constructor
    · intro h
      rcases h with ⟨data, ⟨rfl, _⟩, hv⟩
      by_cases hdata : data = content
      · rw [if_neg Bool.false_ne_true, if_pos hdata] at hv
        cases hv
        subst hdata
        exact ⟨rfl, rfl⟩
      · simp [hdata] at hv
    · intro h
      rcases h with ⟨rfl, rfl⟩
      exact ⟨content, ⟨rfl, by simp⟩, by simp⟩

/-! ## Frames -/

/-- The sizes and widths of a framing are not negative. -/
def Framing.NonNegative : Framing → Prop
  | .fixed size => 0 ≤ size.value
  | .counted width => 0 ≤ width.value
  | .unframed => True

theorem accepts_readFrame (framing : Framing) :
    (readFrame framing).Accepts framing.NonNegative fun ps rest payload =>
      ∃ head, ps = head ++ [plain payload] ∧ framing.Opens head payload.length rest := by
  cases framing with
  | fixed size =>
    refine (accepts_read size).congr fun ps rest payload => ?_
    simp [Framing.Opens]
  | counted width =>
    -- a count is a natural number, so only its width can be negative
    have hpayload := fun count : Nat =>
      (accepts_read (.plain count)).mono (Q := 0 ≤ width.value) fun _ => by simp
    refine ((accepts_readNat width).bind hpayload).congr ?_
    intro ps rest payload
    constructor
    · intro hps
      rcases hps with ⟨_, _, count, rfl, ⟨bs, rfl, hwidth, hbs⟩, rfl, hlength⟩
      rw [Numeral.value_plain] at hlength
      exact ⟨[plain bs], rfl, bs, rfl, hwidth, by omega⟩
    · intro hps
      rcases hps with ⟨_, rfl, bs, rfl, hwidth, hbs⟩
      exact ⟨[plain bs], [plain payload], payload.length, rfl, ⟨bs, rfl, hwidth, hbs⟩, rfl, rfl⟩
  | unframed =>
    refine accepts_readRest.congr fun ps rest payload => ?_
    simp [Framing.Opens]

section

variable {inner : Decoding Value} {P : Prop} {G : List Piece → List UInt8 → Value → Prop}
  {payload : List UInt8} {v : Value}

theorem wholeFrame_of_reads (h : inner.Accepts P G) {ps : List Piece} (hG : G ps [] v) :
    wholeFrame inner (source ps) = .ok v := by
  have hstart := Reader.inBounds_ofBytes (source ps)
  have hps : (Reader.ofBytes (source ps)).rest = source ps ++ [] := by simp
  have hnone : ((Reader.ofBytes (source ps)).advance (source ps).length).remaining = 0 := by
    rw [Reader.remaining_eq (Reader.inBounds_advance hstart hps), Reader.rest_advance hstart hps]
    rfl
  unfold wholeFrame
  rw [h.runs hstart hps hG]
  exact if_pos hnone

theorem reads_of_wholeFrame (h : inner.Accepts P G) (hP : P)
    (hwhole : wholeFrame inner payload = .ok v) : ∃ ps, source ps = payload ∧ G ps [] v := by
  have hstart := Reader.inBounds_ofBytes payload
  unfold wholeFrame at hwhole
  split at hwhole
  · rename_i w t hw
    split at hwhole
    · rename_i hnone
      cases hwhole
      rcases h.found hP hstart hw with ⟨ps, rest, hps, hG, rfl⟩
      -- nothing remains after the pieces, so they are the whole payload
      rw [Reader.remaining_eq (Reader.inBounds_advance hstart hps),
        Reader.rest_advance hstart hps] at hnone
      have hrest : rest = [] := List.length_eq_zero_iff.1 (by omega)
      subst hrest
      exact ⟨ps, by simpa using hps.symm, hG⟩
    · cases hwhole
  · cases hwhole

/-- A frame is read on its own, and nothing follows in it. -/
theorem accepts_wholeFrame (h : inner.Accepts P G) (payload : List UInt8) :
    (Decoding.ofExcept (wholeFrame inner payload)).Accepts P fun ps _ v =>
      ps = [] ∧ ∃ body, source body = payload ∧ G body [] v := by
  have hframe := @Decoding.accepts_ofExcept _ P (wholeFrame inner payload)
  refine hframe.recast ?_ ?_
  · intro bs rest v hv
    rcases hv with ⟨_, hbs, rfl, body, rfl, hbody⟩
    exact ⟨[], hbs, rfl, wholeFrame_of_reads h hbody⟩
  · intro hP bs rest v hv
    rcases hv with ⟨_, hbs, rfl, hwhole⟩
    exact ⟨[], hbs, rfl, reads_of_wholeFrame h hP hwhole⟩

end

/-! ## Arrays -/

section

variable {element : Decoding Value} {P : Prop} {G : List Piece → List UInt8 → Value → Prop}

/-- An element whose failure names its place in the array. -/
def namedElement (element : Decoding Value) (count : Numeral) (index : Nat) : Decoding Value :=
  fun r =>
    match element r with
    | .error e r' => .error (e.inElement count index) r'
    | .ok v r' => .ok v r'

theorem accepts_namedElement (h : element.Accepts P G) (count : Numeral) (index : Nat) :
    (namedElement element count index).Accepts P G := by
  have hsame : ∀ r v r', namedElement element count index r = .ok v r' ↔ element r = .ok v r' := by
    intro r v r'
    unfold namedElement
    cases element r <;> simp
  constructor
  · intro r ps rest v hr hps hG
    exact (hsame _ _ _).2 (h.runs hr hps hG)
  · intro hP r v r' hr hread
    exact h.found hP hr ((hsame _ _ _).1 hread)

theorem behind_nil (res : EStateM.Result Error Reader (List Value)) :
    Decoding.behind [] res = res := by
  cases res <;> rfl

theorem behind_singleton_behind (v : Value) (vs : List Value)
    (res : EStateM.Result Error Reader (List Value)) :
    Decoding.behind [v] (Decoding.behind vs res) = Decoding.behind (v :: vs) res := by
  cases res <;> rfl

/-- A counted array is its first element and the counted array of the others. -/
theorem readCounted_succ (element : Decoding Value) (count : Numeral) (left index : Nat) :
    readCounted element count (left + 1) index [] = (do
      let v ← namedElement element count index
      let vs ← readCounted element count left (index + 1) []
      return v :: vs) := by
  funext r
  simp only [readCounted, bind, EStateM.bind, namedElement]
  cases element r with
  | error e r' => rfl
  | ok v r' =>
    simp only [readCounted_behind element count left (index + 1) [v] r']
    cases readCounted element count left (index + 1) [] r' <;> rfl

theorem accepts_readCounted (h : element.Accepts P G) (count : Numeral) (left index : Nat) :
    (readCounted element count left index []).Accepts P fun ps rest vs =>
      vs.length = left ∧ ReadsEach G ps rest vs := by
  -- on the elements that are left; the index only names failures, so it is arbitrary
  induction left generalizing index with
  | zero =>
    have hnone := Decoding.accepts_pure (P := P) ([] : List Value)
    refine hnone.congr fun ps rest vs => ?_
    cases vs <;> simp [ReadsEach]
  | succ left ih =>
    rw [readCounted_succ]
    have hall := (accepts_namedElement h count index).bind fun v =>
      (ih (index + 1)).bind_pure (v :: ·)
    refine hall.congr fun ps rest vs => ?_
    constructor
    · intro hvs
      rcases hvs with ⟨p, q, v, rfl, hG, later, ⟨hlength, heach⟩, rfl⟩
      exact ⟨by simp [hlength], p, q, rfl, hG, heach⟩
    · intro hvs
      rcases hvs with ⟨hlength, heach⟩
      cases vs with
      | nil => simp at hlength
      | cons v later =>
        rcases heach with ⟨p, q, rfl, hG, heach⟩
        exact ⟨p, q, v, rfl, hG, later, ⟨by simpa using hlength, heach⟩, rfl⟩

theorem accepts_readMoving (h : element.Accepts P G) (index : Nat) :
    (readMoving element index).Accepts P fun ps rest v => source ps ≠ [] ∧ G ps rest v := by
  constructor
  · intro r ps rest v hr hps hv
    rcases hv with ⟨hne, hG⟩
    have hlength : 0 < (source ps).length := List.length_pos_iff.2 hne
    have hmoved : (r.advance (source ps).length).position ≠ r.position := by
      rw [Reader.position_advance]
      omega
    unfold readMoving
    rw [h.runs hr hps hG]
    exact if_neg hmoved
  · intro hP r v r' hr hread
    unfold readMoving at hread
    split at hread
    · cases hread
    · rename_i w t hw
      split at hread
      · cases hread
      · rename_i hmoved
        cases hread
        rcases h.found hP hr hw with ⟨ps, rest, hps, hG, rfl⟩
        refine ⟨ps, rest, hps, ⟨?_, hG⟩, rfl⟩
        intro hnil
        simp [hnil] at hmoved

/-- The elements up to the end are the first one and those after it, unless there are none. -/
theorem readAll_succ (element : Decoding Value) (rounds index : Nat) (r : Reader) :
    readAll element (rounds + 1) index [] r =
      if r.remaining = 0 then .ok [] r
      else (readMoving element index >>= fun v =>
        readAll element rounds (index + 1) [] >>= fun vs => pure (v :: vs)) r := by
  simp only [readAll, bind, EStateM.bind, List.reverse_nil]
  by_cases hend : r.remaining = 0
  · simp [hend]
  · simp only [hend, if_false]
    cases readMoving element index r with
    | error e r' => rfl
    | ok v r' =>
      simp only [readAll_behind element rounds (index + 1) [v] r']
      cases readAll element rounds (index + 1) [] r' <;> rfl

theorem readAll_of_no_rest {r : Reader} (hr : r.InBounds) (hrest : r.rest = [])
    (rounds index : Nat) :
    readAll element rounds index [] r = .ok [] r := by
  have hend : r.remaining = 0 := by
    rw [Reader.remaining_eq hr, hrest]
    rfl
  cases rounds <;> simp [readAll, hend]

/-- Elements up to the end of the input, as many as there are rounds at most. -/
theorem accepts_readAll (h : element.Accepts P G) (rounds index : Nat) :
    (readAll element rounds index []).Accepts P fun ps rest vs =>
      vs.length ≤ rounds ∧ rest = [] ∧
        ReadsEach (fun p tail v => source p ≠ [] ∧ G p tail v) ps rest vs := by
  induction rounds generalizing index with
  | zero =>
    -- without rounds nothing is read, and that is right only at the end of the input
    constructor
    · intro r ps rest vs hr hps hvs
      rcases hvs with ⟨hlength, rfl, heach⟩
      have hvs : vs = [] := List.length_eq_zero_iff.1 (by omega)
      subst hvs
      cases heach
      rw [readAll_of_no_rest hr hps, source_nil, List.length_nil, Reader.advance_zero]
    · intro _ r vs r' hr hread
      have hremaining := Reader.remaining_eq hr
      simp only [readAll, List.reverse_nil] at hread
      split at hread
      · rename_i hend
        cases hread
        have hrest : r.rest = [] := List.length_eq_zero_iff.1 (by omega)
        exact ⟨[], [], by simpa using hrest, ⟨Nat.le_refl _, rfl, rfl⟩, by simp⟩
      · cases hread
  | succ rounds ih =>
    have hall := (accepts_readMoving h index).bind fun v => (ih (index + 1)).bind_pure (v :: ·)
    constructor
    · intro r ps rest vs hr hps hvs
      rcases hvs with ⟨hlength, rfl, heach⟩
      cases vs with
      | nil =>
        cases heach
        rw [readAll_of_no_rest hr hps, source_nil, List.length_nil, Reader.advance_zero]
      | cons v later =>
        rcases heach with ⟨p, q, rfl, ⟨hne, hG⟩, heach⟩
        -- a first element uses up input, so the end is not reached before it
        have hend : r.remaining ≠ 0 := by
          have hlength : 0 < (source p).length := List.length_pos_iff.2 hne
          rw [Reader.remaining_eq hr, hps]
          simp only [source_append, List.length_append]
          omega
        rw [readAll_succ, if_neg hend]
        refine hall.runs hr hps ⟨p, q, v, rfl, ⟨hne, hG⟩, later, ?_, rfl⟩
        exact ⟨by simpa using hlength, rfl, heach⟩
    · intro hP r vs r' hr hread
      have hremaining := Reader.remaining_eq hr
      rw [readAll_succ] at hread
      split at hread
      · rename_i hend
        cases hread
        have hrest : r.rest = [] := List.length_eq_zero_iff.1 (by omega)
        exact ⟨[], [], by simpa using hrest, ⟨Nat.zero_le _, rfl, rfl⟩, by simp⟩
      · rcases hall.found hP hr hread with
          ⟨_, _, hps, ⟨p, q, v, rfl, hG, later, ⟨hlength, rfl, heach⟩, rfl⟩, rfl⟩
        exact ⟨p ++ q, [], hps, ⟨by simpa using hlength, rfl, p, q, rfl, hG, heach⟩, rfl⟩

/-- Elements that each use up input are no more than there are bytes. -/
theorem length_le_of_readsEach {ps : List Piece} {rest : List UInt8} {vs : List Value}
    (h : ReadsEach (fun p tail v => source p ≠ [] ∧ G p tail v) ps rest vs) :
    vs.length ≤ (source ps).length := by
  induction vs generalizing ps with
  | nil => exact Nat.zero_le _
  | cons v vs ih =>
    rcases h with ⟨p, q, rfl, ⟨hne, _⟩, heach⟩
    have hpos : 0 < (source p).length := List.length_pos_iff.2 hne
    have hle := ih heach
    rw [source_append, List.length_append, List.length_cons]
    omega

theorem accepts_readElements {framing : Framing} (hframing : P → framing.NonNegative)
    (h : element.Accepts P G) :
    (readElements framing element).Accepts P fun ps rest vs =>
      ∃ head body, ps = head ++ body ∧ framing.Opens head vs.length rest ∧
        ReadsEach (fun p tail v => (framing = .unframed → source p ≠ []) ∧ G p tail v)
          body rest vs := by
  cases framing with
  | fixed n =>
    refine (accepts_readCounted h n n.value.toNat 0).recast ?_ ?_
    · intro bs rest vs hvs
      rcases hvs with ⟨_, hbs, _, body, rfl, ⟨rfl, hlength⟩, heach⟩
      exact ⟨body, hbs, by omega, by simpa using heach⟩
    · intro hP bs rest vs hvs
      rcases hvs with ⟨ps, hbs, hlength, heach⟩
      have hn : (n.value.toNat : Int) = n.value := Int.toNat_of_nonneg (hframing hP)
      exact ⟨ps, hbs, [], ps, rfl, ⟨rfl, by rw [hlength, hn]⟩, by simpa using heach⟩
  | counted width =>
    have hall := ((accepts_readNat width).mono hframing).bind fun count =>
      accepts_readCounted h (.plain count) count 0
    refine hall.congr fun ps rest vs => ?_
    constructor
    · intro hvs
      rcases hvs with ⟨_, body, count, rfl, ⟨bs, rfl, hwidth, hbs⟩, rfl, heach⟩
      exact ⟨[plain bs], body, rfl, ⟨bs, rfl, hwidth, hbs⟩, by simpa using heach⟩
    · intro hvs
      rcases hvs with ⟨_, body, rfl, ⟨bs, rfl, hwidth, hbs⟩, heach⟩
      exact ⟨[plain bs], body, vs.length, rfl, ⟨bs, rfl, hwidth, hbs⟩, rfl, by simpa using heach⟩
  | unframed =>
    constructor
    · intro r ps rest vs hr hps hvs
      rcases hvs with ⟨_, body, rfl, ⟨rfl, rfl⟩, heach⟩
      have heach : ReadsEach (fun p tail v => source p ≠ [] ∧ G p tail v) body [] vs := by
        simpa using heach
      -- there are as many rounds as bytes, hence enough for the elements
      have hle := length_le_of_readsEach heach
      have hremaining := Reader.remaining_eq hr
      rw [hps] at hremaining
      simp only [List.nil_append, List.append_nil] at hremaining hps ⊢
      refine (accepts_readAll h r.remaining.toNat 0).runs hr (by simpa using hps) ⟨?_, rfl, heach⟩
      omega
    · intro hP r vs r' hr hread
      rcases (accepts_readAll h r.remaining.toNat 0).found hP hr hread with
        ⟨ps, _, hps, ⟨_, rfl, heach⟩, rfl⟩
      exact ⟨ps, [], hps, ⟨[], ps, rfl, ⟨rfl, rfl⟩, by simpa using heach⟩, rfl⟩

end

/-! ## Layouts -/

namespace Layout

/-- The sizes, lengths and widths of an item are not negative. -/
def NonNegative : Layout → Prop
  | .uint size _ _ => 0 ≤ size.value
  | .blob framing _ _ => framing.NonNegative
  | .nested framing _ _ _ => framing.NonNegative
  | .array framing _ _ => framing.NonNegative
  | .switch idSize _ _ _ => 0 ≤ idSize.value
  | _ => True

section

variable {P : Prop}

theorem accepts_decodeFields {fields : List Field}
    (h : ∀ f ∈ fields, f.item.decode.Accepts P f.item.Reads) :
    (decodeFields fields).Accepts P (ReadsFields fields) := by
  induction fields with
  | nil =>
    refine (Decoding.accepts_ofExcept (.ok [])).congr fun ps rest entries => ?_
    simp [ReadsFields, eq_comm]
  | cons f fields ih =>
    rcases f with ⟨name, item⟩
    rcases List.forall_mem_cons.1 h with ⟨hitem, hfields⟩
    have hall := hitem.bind fun v => (ih hfields).bind_pure fun entries =>
      if item.isOmitted then entries else (name, v) :: entries
    refine hall.congr fun ps rest entries => ?_
    constructor
    · intro hentries
      rcases hentries with ⟨p, q, v, rfl, hp, more, hq, rfl⟩
      exact ⟨p, q, v, more, rfl, hp, hq, rfl⟩
    · intro hentries
      rcases hentries with ⟨p, q, v, more, rfl, hp, hq, rfl⟩
      exact ⟨p, q, v, rfl, hp, more, hq, rfl⟩

theorem accepts_decodeCase (idTag : Label) {cases : List Case} (id : Nat)
    (h : ∀ c ∈ cases, ∀ f ∈ c.fields, f.item.decode.Accepts P f.item.Reads) :
    (decodeCase idTag cases id).Accepts P (ReadsCase idTag cases id) := by
  induction cases with
  | nil =>
    refine (Decoding.accepts_ofExcept (.error (.unknownCaseId id))).congr fun ps rest entries => ?_
    simp [ReadsCase]
  | cons c cases ih =>
    rcases c with ⟨caseId, name, fields⟩
    rcases List.forall_mem_cons.1 h with ⟨hfields, hcases⟩
    unfold decodeCase
    by_cases hid : caseId.value = id
    · have hall := (accepts_decodeFields hfields).bind_pure fun entries =>
        (idTag, Value.ofLabel name) :: entries
      rw [if_pos hid]
      refine hall.congr fun ps rest entries => ?_
      simp [ReadsCase, hid, Case.fields, eq_comm]
    · rw [if_neg hid]
      refine (ih hcases).congr fun ps rest entries => ?_
      simp [ReadsCase, hid]

end

/-- Decoding accepts the grammar of the layout, and nothing else if no size is negative. -/
theorem accepts_decode (l : Layout) : l.decode.Accepts (l.Everywhere NonNegative) l.Reads := by
  -- each decoder is built from the readers above; what is left is the order of the existentials
  induction l with
  | uint size custom omission =>
    have hsize : (uint size custom omission).Everywhere NonNegative → 0 ≤ size.value :=
      fun h => h.here
    cases custom with
    | constant n =>
      have hcontent := @Decoding.accepts_ofExcept _
        ((uint size (.constant n) omission).Everywhere NonNegative)
        (Uint.encode (.ofNumeral n) size)
      have hall := hcontent.bind fun content => accepts_readConstant (.ofNumeral n) content omission
      refine hall.congr fun ps rest v => ?_
      constructor
      · intro hv
        rcases hv with ⟨_, q, content, rfl, ⟨rfl, hcontent⟩, hv⟩
        exact ⟨content, hcontent, hv⟩
      · intro hv
        rcases hv with ⟨content, hcontent, hv⟩
        exact ⟨[], ps, content, rfl, ⟨rfl, hcontent⟩, hv⟩
    | _ =>
      have hnat := (accepts_readNat size).mono hsize
      refine (hnat.bind_ofExcept _).congr fun ps rest v => ?_
      constructor
      · intro hv
        rcases hv with ⟨_, ⟨bs, rfl, hsize, rfl⟩, hv⟩
        exact ⟨bs, rfl, hsize, hv⟩
      · intro hv
        rcases hv with ⟨bs, rfl, hsize, hv⟩
        exact ⟨_, ⟨bs, rfl, hsize, rfl⟩, hv⟩
  | blob framing custom omission =>
    have hframing : (blob framing custom omission).Everywhere NonNegative → framing.NonNegative :=
      fun h => h.here
    cases custom with
    | constant content => exact accepts_readConstant (.raw content) content omission
    | _ =>
      have hframe := (accepts_readFrame framing).mono hframing
      refine (hframe.bind_ofExcept _).congr fun ps rest v => ?_
      constructor
      · intro hv
        rcases hv with ⟨payload, ⟨head, rfl, hopens⟩, hv⟩
        exact ⟨head, payload, rfl, hopens, hv⟩
      · intro hv
        rcases hv with ⟨head, payload, rfl, hopens, hv⟩
        exact ⟨payload, ⟨head, rfl, hopens⟩, hv⟩
  | nested framing inner custom omission ih =>
    have hinner := ih.mono fun h : (nested framing inner custom omission).Everywhere NonNegative =>
      (everywhere_nested.1 h).2
    have hframe := (accepts_readFrame framing).mono
      fun h : (nested framing inner custom omission).Everywhere NonNegative => h.here
    cases framing with
    -- without a frame the inner layout reads on the same cursor
    | unframed => exact hinner.bind_ofExcept _
    | _ =>
      have hall := hframe.bind fun payload =>
        (accepts_wholeFrame hinner payload).bind_ofExcept fun raw => custom.afterDecode raw
      -- the payload of the frame is the input of the pieces that the inner layout reads
      refine hall.recast ?_ ?_
      · intro bs rest v hv
        rcases hv with ⟨_, hbs, raw, ⟨head, body, rfl, hopens, hbody⟩, hv⟩
        exact ⟨head ++ [plain (source body)], by simpa using hbs, head ++ [plain (source body)], [],
          source body, by simp, ⟨head, rfl, hopens⟩, raw, ⟨rfl, body, rfl, hbody⟩, hv⟩
      · intro _ bs rest v hv
        rcases hv with ⟨_, hbs, _, _, _, rfl, ⟨head, rfl, hopens⟩, raw, ⟨rfl, body, rfl, hbody⟩, hv⟩
        exact ⟨head ++ body, by simpa using hbs, raw, ⟨head, body, rfl, hopens, hbody⟩, hv⟩
  | array framing element custom ih =>
    have helement := ih.mono fun h : (array framing element custom).Everywhere NonNegative =>
      (everywhere_array.1 h).2
    have helements := accepts_readElements (fun h => h.here) helement
    refine (helements.bind_ofExcept fun items => custom.afterDecode (.list items)).congr ?_
    intro ps rest v
    constructor
    · intro hv
      rcases hv with ⟨items, ⟨head, body, rfl, hopens, heach⟩, hv⟩
      exact ⟨head, body, items, rfl, hopens, heach, hv⟩
    · intro hv
      rcases hv with ⟨head, body, items, rfl, hopens, heach, hv⟩
      exact ⟨items, ⟨head, body, rfl, hopens, heach⟩, hv⟩
  | switch idSize idTag cases custom ih =>
    have hsize : (switch idSize idTag cases custom).Everywhere NonNegative → 0 ≤ idSize.value :=
      fun h => h.here
    have hid := (accepts_readNat idSize).mono hsize
    have hitems := fun c hc f hf => (ih c hc f hf).mono
      fun h : (switch idSize idTag cases custom).Everywhere NonNegative =>
        (everywhere_switch.1 h).2 c hc f hf
    have hcase := fun id => accepts_decodeCase idTag id hitems
    have hall := hid.bind fun id => (hcase id).bind_ofExcept fun entries =>
      custom.afterDecode (.dict entries)
    refine hall.congr fun ps rest v => ?_
    constructor
    · intro hv
      rcases hv with ⟨_, q, _, rfl, ⟨bs, rfl, hwidth, rfl⟩, entries, hentries, hv⟩
      exact ⟨bs, q, entries, rfl, hwidth, hentries, hv⟩
    · intro hv
      rcases hv with ⟨bs, q, entries, rfl, hwidth, hentries, hv⟩
      exact ⟨[plain bs], q, _, rfl, ⟨bs, rfl, hwidth, rfl⟩, entries, hentries, hv⟩
  | record fields ih =>
    have hfields := accepts_decodeFields fun f hf =>
      (ih f hf).mono fun h : (record fields).Everywhere NonNegative =>
        (everywhere_record.1 h).2 f hf
    refine (hfields.bind_pure Value.dict).congr fun ps rest v => ?_
    simp [Reads, eq_comm]
  | _ =>
    constructor
    · intro r ps rest v _ _ hv
      exact hv.elim
    · intro _ r v r' _ hread
      cases hread

end Layout

/-! ## Codecs -/

namespace Codec

variable {c : Codec}

theorem read_ok_iff (h : c.layout.Everywhere Layout.NonNegative) {r r' : Reader} (hr : r.InBounds)
    {v : Value} :
    c.read r = .ok v r' ↔
      ∃ ps rest, r.rest = source ps ++ rest ∧ c.layout.Reads ps rest v ∧
        r' = r.advance (source ps).length := by
  constructor
  · intro hread
    exact c.layout.accepts_decode.found h hr hread
  · intro hread
    rcases hread with ⟨ps, rest, hps, hreads, rfl⟩
    exact c.layout.accepts_decode.runs hr hps hreads

theorem decode_whole_iff_wholeFrame (c : Codec) (data : List UInt8) (v : Value) :
    c.decode data true = .ok v ↔ wholeFrame c.layout.decode data = .ok v := by
  unfold decode wholeFrame read
  -- both ask that nothing be left; they name what is left differently
  cases c.layout.decode (Reader.ofBytes data) with
  | error e t => simp
  | ok w t =>
    by_cases hnone : t.remaining = 0 <;> simp [hnone]

/-- Pieces of the grammar make a message. -/
theorem decode_of_reads {ps : List Piece} {v : Value} (h : c.layout.Reads ps [] v) :
    c.decode (source ps) true = .ok v :=
  (c.decode_whole_iff_wholeFrame _ v).2 (wholeFrame_of_reads c.layout.accepts_decode h)

/-- All the bytes of a message are read exactly if they fall into pieces of the grammar. -/
theorem decode_whole_iff (h : c.layout.Everywhere Layout.NonNegative) {data : List UInt8}
    {v : Value} :
    c.decode data true = .ok v ↔ ∃ ps, source ps = data ∧ c.layout.Reads ps [] v := by
  constructor
  · intro hdecode
    exact reads_of_wholeFrame c.layout.accepts_decode h
      ((c.decode_whole_iff_wholeFrame _ v).1 hdecode)
  · intro hreads
    rcases hreads with ⟨ps, rfl, hreads⟩
    exact decode_of_reads hreads

end Codec

end WireLayout
