import WireLayout.Proofs.Confinement
import WireLayout.Proofs.Digits

/-!
# Exhaustion — an unframed array ends with its input

An array without a frame reads elements while input is left.  The loop is described here without a
bound on its turns, and the bound is what is proved.

* `Turn` — one turn of the loop: input was left, and an element used up some of it;
* `Turns` — turns one after the other, with the elements that they read;
* `Looped` — an end of the loop: no input is left, an element fails, or one uses up nothing;
* `Turns.add_le` — what a run of turns has read and what it leaves are no more than there was;
* `Codec.read_unframedArray` — an unframed array ends so, after no more elements than bytes.
-/

namespace WireLayout

open Decoding

variable {element : Decoding Value} {r s t : Reader} {v : Value} {vs : List Value}

/-! ## The loop -/

/-- Input is left, and an element is read that uses up some of it. -/
structure Turn (element : Decoding Value) (r : Reader) (v : Value) (s : Reader) : Prop where
  left : r.remaining ≠ 0
  reads : element r = .ok v s
  moves : s.position ≠ r.position

/-- Turns one after the other. -/
inductive Turns (element : Decoding Value) : Reader → List Value → Reader → Prop where
  | none (r : Reader) : Turns element r [] r
  | turn {r s t : Reader} {v : Value} {vs : List Value} :
      Turn element r v s → Turns element s vs t → Turns element r (v :: vs) t

/-- The ends of the loop, each with the number of elements that were asked for: all of the input is
used up, an element fails, or an element uses up nothing. -/
inductive Looped (element : Decoding Value) (r : Reader) :
    Nat → EStateM.Result Error Reader (List Value) → Prop where
  | spent {vs : List Value} {t : Reader} :
      Turns element r vs t → t.remaining = 0 → Looped element r vs.length (.ok vs t)
  | failed {vs : List Value} {s t : Reader} {e : Error} :
      Turns element r vs t → t.remaining ≠ 0 → element t = .error e s →
        Looped element r (vs.length + 1) (.error e s)
  | idle {vs : List Value} {s t : Reader} {v : Value} :
      Turns element r vs t → t.remaining ≠ 0 → element t = .ok v s → s.position = t.position →
        Looped element r (vs.length + 1)
          (.error (.definition (.idleElement vs.length t.position)) s)

/-! ## Progress -/

/-- A turn leaves less input than it found. -/
theorem Turn.remaining_lt (h : Turn element r v s) (forward : element.Advances)
    (hr : r.position ≤ r.size) : s.remaining < r.remaining := by
  have hreaches : r.Reaches s := forward.ok hr h.reads
  have hsize := hreaches.size
  have hforward := hreaches.forward
  have hmoves := h.moves
  unfold Reader.remaining
  omega

theorem Turns.reaches (h : Turns element r vs t) (forward : element.Advances)
    (hr : r.position ≤ r.size) : r.Reaches t := by
  induction h with
  | none r => exact .refl hr
  | turn hturn _ ih =>
    have hreaches := forward.ok hr hturn.reads
    exact hreaches.trans (ih hreaches.inside)

/-- Each turn uses up at least one byte. -/
theorem Turns.add_le (h : Turns element r vs t) (forward : element.Advances)
    (hr : r.position ≤ r.size) : (vs.length : Int) + t.remaining ≤ r.remaining := by
  induction h with
  | none r => simp
  | turn hturn _ ih =>
    have hlt := hturn.remaining_lt forward hr
    have hle := ih (forward.ok hr hturn.reads).inside
    rw [List.length_cons]
    omega

/-- The loop comes to an end. -/
theorem exists_looped (forward : element.Advances) (hr : r.position ≤ r.size) :
    ∃ asked result, Looped element r asked result := by
  -- on the number of bytes that remain, which a turn makes smaller
  generalize hn : r.remaining.toNat = n
  induction n using Nat.strongRecOn generalizing r with
  | _ n ih =>
    by_cases hleft : r.remaining = 0
    · exact ⟨_, _, .spent (.none r) hleft⟩
    · cases hv : element r with
      | error e s => exact ⟨_, _, .failed (.none r) hleft hv⟩
      | ok v s =>
        by_cases hidle : s.position = r.position
        · exact ⟨_, _, .idle (.none r) hleft hv hidle⟩
        · have hturn : Turn element r v s := ⟨hleft, hv, hidle⟩
          have hs := (forward.ok hr hv).inside
          have hpos : 0 ≤ s.remaining := Int.sub_nonneg_of_le hs
          have hlt := hturn.remaining_lt forward hr
          rcases ih s.remaining.toNat (by omega) hs rfl with ⟨_, _, hlooped⟩
          cases hlooped with
          | spent hturns hnone => exact ⟨_, _, .spent (.turn hturn hturns) hnone⟩
          | failed hturns hopen he => exact ⟨_, _, .failed (.turn hturn hturns) hopen he⟩
          | idle hturns hopen hw hstays => exact ⟨_, _, .idle (.turn hturn hturns) hopen hw hstays⟩

/-! ## The elements of an unframed array -/

/-- Rounds that read elements are turns of the loop. -/
theorem readAll_turns (h : Turns element r vs t) (rounds index : Nat) :
    readAll element (vs.length + rounds) index [] r
      = behind vs (readAll element rounds (index + vs.length) [] t) := by
  induction h generalizing index with
  | none r =>
    rw [List.length_nil, Nat.zero_add, Nat.add_zero, behind_nil]
  | @turn r s t v vs hturn _ ih =>
    have hmoving : readMoving element index r = .ok v s := by
      unfold readMoving
      rw [hturn.reads]
      exact if_neg hturn.moves
    calc
      readAll element (vs.length + 1 + rounds) index [] r
          = readAll element (vs.length + rounds + 1) index [] r := by rw [Nat.add_right_comm]
      _ = readAll element (vs.length + rounds) (index + 1) [v] s := by
          simp only [readAll, if_neg hturn.left, hmoving]
      _ = behind [v] (behind vs (readAll element rounds (index + 1 + vs.length) [] t)) := by
          rw [readAll_behind, ih, List.reverse_singleton]
      _ = behind (v :: vs) (readAll element rounds (index + (vs.length + 1)) [] t) := by
          rw [behind_singleton_behind, Nat.add_assoc, Nat.add_comm 1]

/-- An unframed array goes on behind the turns of its loop. -/
theorem readElements_turns (h : Turns element r vs t) {rounds : Nat}
    (hrounds : r.remaining.toNat = vs.length + rounds) :
    readElements .unframed element r = behind vs (readAll element rounds vs.length [] t) := by
  have hall : readElements .unframed element r = readAll element r.remaining.toNat 0 [] r := rfl
  rw [hall, hrounds, readAll_turns h, Nat.zero_add]

/-- What the loop comes to is what an unframed array reads, and it asks for no more elements than
there are bytes. -/
theorem Looped.readElements_eq {asked : Nat} {result : EStateM.Result Error Reader (List Value)}
    (h : Looped element r asked result) (forward : element.Advances) (hr : r.position ≤ r.size) :
    (asked : Int) ≤ r.remaining ∧ readElements .unframed element r = result := by
  -- where input is left there is a round for the next element
  have hround : ∀ {vs t}, Turns element r vs t → t.remaining ≠ 0 →
      ∃ rounds, r.remaining.toNat = vs.length + (rounds + 1) := by
    intro vs t hturns hleft
    have hpos : 0 ≤ t.remaining := Int.sub_nonneg_of_le (hturns.reaches forward hr).inside
    have hle := hturns.add_le forward hr
    exact ⟨r.remaining.toNat - vs.length - 1, by omega⟩
  cases h with
  | @spent vs t hturns hnone =>
    have hle := hturns.add_le forward hr
    have henough : vs.length ≤ r.remaining.toNat := by omega
    rcases Nat.exists_eq_add_of_le henough with ⟨rounds, hn⟩
    have hlast : readAll element rounds vs.length [] t = .ok [] t := by
      cases rounds <;> simp [readAll, hnone]
    refine ⟨by omega, ?_⟩
    rw [readElements_turns hturns hn, hlast, behind, List.append_nil]
  | @failed vs s t e hturns hleft he =>
    rcases hround hturns hleft with ⟨rounds, hn⟩
    have hlast : readAll element (rounds + 1) vs.length [] t = .error e s := by
      simp only [readAll, if_neg hleft, readMoving, he]
    refine ⟨by omega, ?_⟩
    rw [readElements_turns hturns hn, hlast, behind]
  | @idle vs s t v hturns hleft hv hidle =>
    rcases hround hturns hleft with ⟨rounds, hn⟩
    have hlast : readAll element (rounds + 1) vs.length [] t
        = .error (.definition (.idleElement vs.length t.position)) s := by
      simp only [readAll, if_neg hleft, readMoving, hv, if_pos hidle]
    refine ⟨by omega, ?_⟩
    rw [readElements_turns hturns hn, hlast, behind]

/-! ## Compiled arrays -/

/-- An offset that a cursor comes to can be spelt where its first offset and its end can. -/
theorem Reader.Reaches.spellable_position (h : r.Reaches t) (hfirst : spellable r.position = true)
    (hlast : spellable r.size = true) : spellable t.position = true := by
  have hforward := h.forward
  have hinside := h.inside
  rw [h.size] at hinside
  by_cases hneg : t.position < 0
  · exact spellable_of_le (by omega) hfirst
  · exact spellable_of_le (by omega) hlast

/-- What an array makes of an end of its loop. -/
def Custom.afterLoop (custom : Custom Empty) :
    EStateM.Result Error Reader (List Value) → EStateM.Result Error Reader Value
  | .ok vs t => Decoding.ofExcept (custom.afterDecode (.list vs)) t
  | .error e s => .error e s

namespace Codec

variable {c : Codec} {element : Layout} {custom : Custom Empty}

theorem read_of_looped (hc : c.layout = .array .unframed element custom)
    (sizes : element.Everywhere Layout.NonNegative) (hr : r.position ≤ r.size) {asked : Nat}
    {result : EStateM.Result Error Reader (List Value)}
    (h : Looped element.decode r asked result) :
    (asked : Int) ≤ r.remaining ∧ c.read r = custom.afterLoop result := by
  rcases h.readElements_eq (Layout.advances_decode sizes) hr with ⟨hle, heq⟩
  have hread : c.read r = (readElements .unframed element.decode >>= fun items =>
      Decoding.ofExcept (custom.afterDecode (.list items))) r := by
    rw [read, hc]
    rfl
  refine ⟨hle, ?_⟩
  rw [hread]
  simp only [Bind.bind, EStateM.bind, heq]
  cases result <;> rfl

/-- An array without a frame, over elements without negative sizes, reads elements until no input is
left, and asks for no more of them than there are bytes.  It leaves nothing if it succeeds.  The
first element that uses up nothing ends it with a failure that names the element and its offset. -/
theorem read_unframedArray (hc : c.layout = .array .unframed element custom)
    (sizes : element.Everywhere Layout.NonNegative) {n : Nat} (hr : r.remaining = n) :
    (∃ asked result, Looped element.decode r asked result) ∧
      (∀ asked result, Looped element.decode r asked result →
        asked ≤ n ∧ c.read r = custom.afterLoop result) ∧
      (∀ v t, c.read r = .ok v t → t.remaining = 0 ∧
        ∃ vs : List Value, vs.length ≤ n ∧ custom.afterDecode (.list vs) = .ok v) ∧
      ∀ vs t v s, Turns element.decode r vs t → t.remaining ≠ 0 → element.decode t = .ok v s →
        s.position = t.position →
        ∃ e, c.read r = .error e s ∧ e = .definition (.idleElement vs.length t.position) ∧
          (spellable r.position = true → spellable r.size = true →
            e.kind = .layoutDefinition ∧
              e.message? = some ("Array element " ++ toString vs.length
                ++ " consumed no input at offset " ++ toString t.position)) := by
  have forward : element.decode.Advances := Layout.advances_decode sizes
  have hinside : r.position ≤ r.size := by
    unfold Reader.remaining at hr
    omega
  have hends : ∀ asked result, Looped element.decode r asked result →
      asked ≤ n ∧ c.read r = custom.afterLoop result := by
    intro asked result hlooped
    rcases read_of_looped hc sizes hinside hlooped with ⟨hle, hread⟩
    exact ⟨by omega, hread⟩
  have hlooped := exists_looped forward hinside
  refine ⟨hlooped, hends, ?_, ?_⟩
  · intro v t hv
    rcases hlooped with ⟨_, _, hlooped⟩
    rcases hends _ _ hlooped with ⟨hle, hread⟩
    rw [hv] at hread
    cases hlooped with
    | spent _ hnone =>
      rcases Decoding.ofExcept_ok_iff.1 hread.symm with ⟨hcustom, rfl⟩
      exact ⟨hnone, _, hle, hcustom⟩
    | _ => cases hread
  · intro vs t v s hturns hleft hv hidle
    refine ⟨_, (hends _ _ (.idle hturns hleft hv hidle)).2, rfl, ?_⟩
    intro hfirst hlast
    have hspelt : spellable t.position = true :=
      (hturns.reaches forward hinside).spellable_position hfirst hlast
    exact ⟨if_pos hspelt, if_pos hspelt⟩

end Codec

/-! ## An array that ends and one that cannot go on -/

/-- Blocks behind their lengths, up to the end of the input. -/
def Layout.blocks : Layout := .array .unframed (.blob (.counted 1) .plain .off) .plain

def Codec.blocks : Codec := ⟨.blocks, none, rfl⟩

/-- Groups of bytes whose counts have no bytes, so that all groups are empty. -/
def Layout.emptyGroups : Layout :=
  .array .unframed (.array (.counted 0) (.uint 1 .plain .off) .plain) .plain

/-- The compiled groups; their size is not known, so the check lets them pass. -/
def Codec.emptyGroups : Codec := ⟨.emptyGroups, none, rfl⟩

/-- Behind the first byte there are two blocks; the first group stays where it is. -/
theorem Codec.read_unframedArray_groups :
    (Codec.blocks.read ⟨#[9, 1, 5, 0], 1⟩ =
        .ok (.list [.raw [5], .raw []]) ⟨#[9, 1, 5, 0], 4⟩ ∧
      (⟨#[9, 1, 5, 0], 4⟩ : Reader).remaining = 0) ∧
      ∃ e s, Codec.emptyGroups.read ⟨#[7, 1], 1⟩ = .error e s ∧ e.kind = .layoutDefinition ∧
        e.message? = some "Array element 0 consumed no input at offset 1" := by
  have hone : 0 ≤ (1 : Numeral).value := by decide
  have hzero : 0 ≤ (0 : Numeral).value := by decide
  constructor
  · have sizes : (Layout.blob (.counted 1) .plain .off).Everywhere Layout.NonNegative := by
      simpa [Layout.NonNegative, Framing.NonNegative] using hone
    have hrun := @read_unframedArray ⟨#[9, 1, 5, 0], 1⟩ .blocks _ _ rfl sizes 3 rfl
    rcases hrun with ⟨_, hends, hspent, _⟩
    have hfirst : Turn (Layout.blob (.counted 1) .plain .off).decode ⟨#[9, 1, 5, 0], 1⟩
        (.raw [5]) ⟨#[9, 1, 5, 0], 3⟩ := ⟨by decide, rfl, by decide⟩
    have hsecond : Turn (Layout.blob (.counted 1) .plain .off).decode ⟨#[9, 1, 5, 0], 3⟩
        (.raw []) ⟨#[9, 1, 5, 0], 4⟩ := ⟨by decide, rfl, by decide⟩
    have hturns := Turns.turn hfirst (.turn hsecond (.none _))
    have hread := (hends _ _ (.spent hturns rfl)).2
    exact ⟨hread, (hspent _ _ hread).1⟩
  · have sizes : (Layout.array (.counted 0) (.uint 1 .plain .off) .plain).Everywhere
        Layout.NonNegative := by
      simp [Layout.everywhere_array, Layout.NonNegative, Framing.NonNegative, hzero, hone]
    have hrun := @read_unframedArray ⟨#[7, 1], 1⟩ .emptyGroups _ _ rfl sizes 1 rfl
    rcases hrun.2.2.2 [] ⟨#[7, 1], 1⟩ (.list []) _ (.none _) (by decide) rfl rfl with
      ⟨e, hread, _, hreported⟩
    have hshort : ∀ n : Int, n.natAbs < 2 ^ 63 → spellable n = true := fun _ => spellable_of_lt
    exact ⟨e, _, hread, hreported (hshort 1 (by decide)) (hshort 2 (by decide))⟩

end WireLayout
