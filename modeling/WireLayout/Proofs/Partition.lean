import Mathlib.Data.List.Induction
import WireLayout.Proofs.Cursor
import WireLayout.Proofs.Digits
import WireLayout.Proofs.Totality
import WireLayout.Reader.Pool

/-!
# Partition — what readers hand out is their data, piece by piece

Readers that are cut out of one another stay apart: a step moves the cursor of one reader only, and
only over the bytes that it hands out.

* `ReaderPool.Answers` — all that a step on a pool can come to;
* `ReaderHistory` — steps with their answers, and the pool that they left behind;
* `ReaderHistory.takenFrom` — the bytes that the steps took from one reader, in order;
* `ReaderHistory.Accounted` — what the steps took from a reader is what lies before its cursor;
* `ReaderHistory.readers_partition` — this holds after all steps, and a step fails exactly if it
  asks for more than remains.

A failure says how many bytes were wanted.  A number that has too many digits cannot be said, and
the failure is lost (`ReaderHistory.slice_unspelt`).
-/

namespace WireLayout

/-! ## Steps -/

namespace ReaderStep

/-- The step has no negative count. -/
def NonNegative : ReaderStep → Prop
  | .peek n => 0 ≤ n.value
  | .read count => ∀ n, count = some n → 0 ≤ n.value
  | .slice count => ∀ n, count = some n → 0 ≤ n.value
  | _ => True

/-- The number of bytes that a step asks to take. -/
def wanted? : ReaderStep → Option Numeral
  | .read count => count
  | .slice count => count
  | _ => none

/-- Where a step leaves the cursor if it succeeds. -/
def target (r : Reader) : ReaderStep → Int
  | .read (some n) | .slice (some n) => r.position + n.value
  | .read none | .slice none => r.size
  | _ => r.position

end ReaderStep

namespace Reader

variable {r : Reader}

/-- As many bytes as are asked for stand before a tail; all of them, if no number is given. -/
structure Cuts (r : Reader) (count : Option Numeral) (bs tail : List UInt8) : Prop where
  rest : r.rest = bs ++ tail
  length : ∀ n, count = some n → (bs.length : Int) = n.value
  whole : count = none → tail = []

namespace Cuts

variable {count : Option Numeral} {bs tail : List UInt8}

theorem remaining_eq (cuts : r.Cuts count bs tail) (h : r.InBounds) :
    r.remaining = bs.length + tail.length := by
  rw [Reader.remaining_eq h, cuts.rest, List.length_append, Int.natCast_add]

theorem not_short (cuts : r.Cuts count bs tail) (h : r.InBounds) {n : Numeral}
    (hn : count = some n) : ¬ r.remaining < n.value := by
  rw [cuts.remaining_eq h, ← cuts.length n hn]
  omega

/-- The cursor moves as far as was asked for, or to the end. -/
theorem position_eq (cuts : r.Cuts count bs tail) (h : r.InBounds) :
    (r.advance bs.length).position = (ReaderStep.read count).target r := by
  rw [position_advance]
  cases count with
  | some n => rw [cuts.length n rfl, ReaderStep.target]
  | none =>
    have hremaining := cuts.remaining_eq h
    rw [cuts.whole rfl, List.length_nil, remaining] at hremaining
    rw [ReaderStep.target]
    omega

end Cuts

/-- Too few bytes are left, and the cursor stays; or it moves over the bytes that are taken. -/
theorem readUpTo_cases (h : r.InBounds) {count : Option Numeral}
    (hcount : ∀ n, count = some n → 0 ≤ n.value) :
    (∃ n, count = some n ∧ r.remaining < n.value ∧
      readUpTo count r = .error (.truncated (.read n r.position r.remaining)) r) ∨
    ∃ bs tail, r.Cuts count bs tail ∧ readUpTo count r = .ok bs (r.advance bs.length) := by
  cases count with
  | none =>
    exact .inr ⟨r.rest, [], ⟨by simp, nofun, fun _ => rfl⟩, (readRest_ok_iff h).2 ⟨rfl, rfl⟩⟩
  | some n =>
    by_cases hshort : r.remaining < n.value
    · exact .inl ⟨n, rfl, hshort, if_pos hshort⟩
    · have hn := hcount n rfl
      have hrest := (List.take_append_drop n.value.toNat r.rest).symm
      have hlength : ((r.rest.take n.value.toNat).length : Int) = n.value := by
        rw [remaining_eq h] at hshort
        rw [List.length_take]
        omega
      refine .inr ⟨_, _, ⟨hrest, ?_, nofun⟩, (read_ok_iff h hn).2 ⟨_, hrest, hlength, rfl⟩⟩
      rintro m ⟨⟩
      exact hlength

theorem readUpTo_length {data : List UInt8} {n : Numeral} (hn : (data.length : Int) = n.value) :
    readUpTo (some n) (ofBytes data) = .ok data ((ofBytes data).advance data.length) :=
  (read_ok_iff (inBounds_ofBytes data) (by omega)).2 ⟨[], by simp, hn, rfl⟩

/-- Reading that fails leaves the reader as it was. -/
theorem readUpTo_error {count : Option Numeral} {e : Error} {r' : Reader}
    (h : readUpTo count r = .error e r') : r' = r := by
  cases count with
  | none => cases h
  | some n =>
    rw [readUpTo, read] at h
    split at h
    · cases h
      rfl
    · cases h

/-- The sentence for bytes that are missing names no number above the one that was asked for, but
for the place in the data. -/
theorem kind_short (h : r.InBounds) {n : Numeral} (hshort : r.remaining < n.value) :
    (Error.truncated (.read n r.position r.remaining)).kind =
      if n.spellable && spellable r.position then .truncatedInput else .valueMisuse := by
  have hremaining : n.spellable = true → spellable r.remaining = true := by
    refine spellable_of_le ?_
    rw [remaining_eq h] at hshort ⊢
    omega
  rw [Error.kind, Error.spellable, Truncation.spellable]
  by_cases hn : n.spellable = true
  · simp [hn, hremaining hn, Error.causeKind]
  · simp [hn]

/-- The bytes before the cursor grow by those that it moves over. -/
theorem take_position_advance (h : r.InBounds) {bs tail : List UInt8}
    (hrest : r.rest = bs ++ tail) :
    (r.advance bs.length).bytes.take (r.advance bs.length).position.toNat =
      r.bytes.take r.position.toNat ++ bs := by
  have hposition : (r.position + (bs.length : Int)).toNat = r.position.toNat + bs.length := by
    have := h.1
    omega
  have hnext : (r.bytes.drop r.position.toNat).take bs.length = bs := by
    rw [← rest, hrest, List.take_left]
  rw [bytes_advance, position_advance, hposition, List.take_add, hnext]

end Reader

namespace ReaderPool

variable {pool : ReaderPool} {place : Nat} {s : ReaderStep}

/-- Every cursor stands in its data. -/
def InBounds (pool : ReaderPool) : Prop := ∀ r ∈ pool.readers, r.InBounds

/-- The data of the reader at a place; where there is no reader, there is none. -/
def content (pool : ReaderPool) (place : Nat) : List UInt8 :=
  (pool.readers[place]?.map Reader.bytes).getD []

/-- The position of the reader at a place. -/
def offset (pool : ReaderPool) (place : Nat) : Nat :=
  (pool.readers[place]?.map fun r => r.position.toNat).getD 0

/-- The pool with one more reader. -/
def add (pool : ReaderPool) (data : List UInt8) : ReaderPool :=
  ⟨pool.readers ++ [Reader.ofBytes data]⟩

/-- All that a step can come to in a pool whose cursors stand in their data. -/
inductive Answers (pool : ReaderPool) (place : Nat) (s : ReaderStep) :
    Except Error (ReaderAnswer × ReaderPool) → Prop where
  /-- There is no such reader. -/
  | missing : pool.readers[place]? = none → Answers pool place s (.error (.misuse .noKey))
  /-- The step only looks at the reader. -/
  | seen {r : Reader} {a : ReaderAnswer} : pool.readers[place]? = some r →
      (∀ count, s ≠ .read count) → (∀ count, s ≠ .slice count) → (∀ p, a ≠ .reader p) →
      Answers pool place s (.ok (a, pool))
  /-- Less remains than the step asks for. -/
  | short {r : Reader} {n : Numeral} : pool.readers[place]? = some r → s.wanted? = some n →
      r.remaining < n.value →
      Answers pool place s (.error (.truncated (.read n r.position r.remaining)))
  /-- The step takes bytes. -/
  | read {r : Reader} {count : Option Numeral} {bs tail : List UInt8} : s = .read count →
      pool.readers[place]? = some r → r.Cuts count bs tail →
      Answers pool place s (.ok (.bytes bs, pool.update place (r.advance bs.length)))
  /-- The step takes bytes and makes a reader of them. -/
  | slice {r : Reader} {count : Option Numeral} {bs tail : List UInt8} : s = .slice count →
      pool.readers[place]? = some r → r.Cuts count bs tail →
      Answers pool place s
        (.ok (.reader pool.readers.length, (pool.update place (r.advance bs.length)).add bs))

theorem answers (hpool : pool.InBounds) (place : Nat) (hs : s.NonNegative) :
    Answers pool place s (pool.step place s) := by
  unfold step
  cases hr : pool.readers[place]? with
  | none => exact .missing hr
  | some r =>
    have hbounds : r.InBounds := hpool r (List.mem_of_getElem? hr)
    cases s with
    | read count =>
      rcases Reader.readUpTo_cases hbounds hs with
        ⟨n, hn, hshort, hread⟩ | ⟨bs, tail, cuts, hread⟩
      · simp only [hread]
        exact .short hr hn hshort
      · simp only [hread]
        exact .read rfl hr cuts
    | slice count =>
      rcases Reader.readUpTo_cases hbounds hs with
        ⟨n, hn, hshort, hread⟩ | ⟨bs, tail, cuts, hread⟩
      · simp only [hread]
        exact .short hr hn hshort
      · simp only [hread]
        exact .slice rfl hr cuts
    | _ => exact .seen hr nofun nofun nofun

variable {r r' : Reader} {data : List UInt8}

/-- A step on a reader fails only if it asks for more than remains. -/
theorem of_step_error (hpool : pool.InBounds) (hs : s.NonNegative)
    (hr : pool.readers[place]? = some r) {e : Error} (h : pool.step place s = .error e) :
    ∃ n, s.wanted? = some n ∧ r.remaining < n.value ∧
      e = .truncated (.read n r.position r.remaining) := by
  have hanswers := answers hpool place hs
  rw [h] at hanswers
  cases hanswers with
  | missing hnone =>
    rw [hr] at hnone
    cases hnone
  | short hr' hn hshort =>
    rw [hr] at hr'
    cases hr'
    exact ⟨_, hn, hshort, rfl⟩

/-! ## Places of a pool -/

@[simp] theorem length_update (pool : ReaderPool) (place : Nat) (r : Reader) :
    (pool.update place r).readers.length = pool.readers.length :=
  List.length_set

theorem length_add (pool : ReaderPool) (data : List UInt8) :
    (pool.add data).readers.length = pool.readers.length + 1 :=
  List.length_append

theorem getElem?_update (hr : pool.readers[place]? = some r) (p : Nat) :
    (pool.update place r').readers[p]? = if p = place then some r' else pool.readers[p]? := by
  have hplace : place < pool.readers.length := (List.getElem?_eq_some_iff.1 hr).1
  by_cases hp : p = place
  · subst hp
    simp [update, hplace]
  · simp [update, Ne.symm hp, hp]

theorem getElem?_add (p : Nat) :
    (pool.add data).readers[p]? =
      if p = pool.readers.length then some (Reader.ofBytes data) else pool.readers[p]? := by
  by_cases hp : p = pool.readers.length
  · simp [add, hp]
  · rw [if_neg hp]
    rcases Nat.lt_or_gt_of_ne hp with hp | hp
    · exact List.getElem?_append_left hp
    · have hlength := length_add pool data
      rw [List.getElem?_eq_none (by omega), List.getElem?_eq_none (by omega)]

/-- A step that succeeds did not ask for more than remains, and leaves the cursor where it says. -/
theorem of_step_ok (hpool : pool.InBounds) (hs : s.NonNegative)
    (hr : pool.readers[place]? = some r) {a : ReaderAnswer} {pool' : ReaderPool}
    (h : pool.step place s = .ok (a, pool')) :
    (∀ n, s.wanted? = some n → ¬ r.remaining < n.value) ∧
      ∃ r', pool'.readers[place]? = some r' ∧ r'.position = s.target r := by
  have hbounds : r.InBounds := hpool r (List.mem_of_getElem? hr)
  have hplace : place < pool.readers.length := (List.getElem?_eq_some_iff.1 hr).1
  have hanswers := answers hpool place hs
  rw [h] at hanswers
  cases hanswers with
  | seen _ hread hslice _ =>
    cases s with
    | read count => exact absurd rfl (hread count)
    | slice count => exact absurd rfl (hslice count)
    | _ => exact ⟨nofun, r, hr, rfl⟩
  | read hs hr' cuts =>
    subst hs
    rw [hr] at hr'
    cases hr'
    refine ⟨fun n hn => cuts.not_short hbounds hn, _, ?_, cuts.position_eq hbounds⟩
    rw [getElem?_update hr, if_pos rfl]
  | @slice _ count _ _ hs hr' cuts =>
    subst hs
    rw [hr] at hr'
    cases hr'
    have htarget : (ReaderStep.read count).target r = (ReaderStep.slice count).target r := by
      cases count <;> rfl
    refine ⟨fun n hn => cuts.not_short hbounds hn, _, ?_,
      (cuts.position_eq hbounds).trans htarget⟩
    rw [getElem?_add, length_update, if_neg (Nat.ne_of_lt hplace), getElem?_update hr, if_pos rfl]

theorem content_of_getElem? (hr : pool.readers[place]? = some r) :
    pool.content place = r.bytes := by
  simp [content, hr]

theorem offset_of_getElem? (hr : pool.readers[place]? = some r) :
    pool.offset place = r.position.toNat := by
  simp [offset, hr]

/-- A reader that moves keeps its data. -/
theorem content_update (hr : pool.readers[place]? = some r) (hbytes : r'.bytes = r.bytes)
    (p : Nat) :
    (pool.update place r').content p = pool.content p := by
  by_cases hp : p = place
  · subst hp
    simp [content, getElem?_update hr, hr, hbytes]
  · simp [content, getElem?_update hr, hp]

theorem offset_update (hr : pool.readers[place]? = some r) (p : Nat) :
    (pool.update place r').offset p = if p = place then r'.position.toNat else pool.offset p := by
  by_cases hp : p = place
  · simp [offset, getElem?_update hr, hp]
  · simp [offset, getElem?_update hr, hp]

theorem content_add (p : Nat) :
    (pool.add data).content p = if p = pool.readers.length then data else pool.content p := by
  by_cases hp : p = pool.readers.length
  · simp [content, getElem?_add, hp]
  · simp [content, getElem?_add, hp]

/-- A new reader stands at its start, as a missing one does. -/
theorem offset_add (p : Nat) : (pool.add data).offset p = pool.offset p := by
  by_cases hp : p = pool.readers.length
  · simp [offset, getElem?_add, hp]
  · simp [offset, getElem?_add, hp]

theorem inBounds_update (hpool : pool.InBounds) (hr' : r'.InBounds) :
    (pool.update place r').InBounds := by
  intro q hq
  rcases List.mem_or_eq_of_mem_set hq with hq | rfl
  · exact hpool q hq
  · exact hr'

theorem inBounds_add (hpool : pool.InBounds) : (pool.add data).InBounds := by
  intro q hq
  rcases List.mem_append.1 hq with hq | hq
  · exact hpool q hq
  · rw [List.mem_singleton.1 hq]
    exact Reader.inBounds_ofBytes data

end ReaderPool

/-! ## Runs -/

/-- A step on one reader with its answer. -/
structure ReaderEvent where
  place : Nat
  step : ReaderStep
  answer : Except Error ReaderAnswer

namespace ReaderEvent

/-- The bytes that a step took from its reader; those of a slice are in the reader that it made. -/
def taken (pool : ReaderPool) (e : ReaderEvent) : List UInt8 :=
  match e.step, e.answer with
  | .read _, .ok (.bytes content) => content
  | .slice _, .ok (.reader place) => pool.content place
  | _, _ => []

theorem taken_congr {pool pool' : ReaderPool} {e : ReaderEvent}
    (h : ∀ place, e.answer = .ok (.reader place) → pool'.content place = pool.content place) :
    e.taken pool' = e.taken pool := by
  unfold taken
  split
  · rfl
  · rename_i place _ hanswer
    exact h place hanswer
  · rfl

end ReaderEvent

/-- Steps in their order, and the pool that they left behind. -/
structure ReaderHistory where
  events : List ReaderEvent
  pool : ReaderPool

namespace ReaderHistory

variable {h : ReaderHistory} {data : List UInt8} {place : Nat} {s : ReaderStep}

/-- One more step; if it fails, the pool stays. -/
def next (h : ReaderHistory) (place : Nat) (s : ReaderStep) : ReaderHistory :=
  match h.pool.step place s with
  | .ok (a, pool) => ⟨h.events ++ [⟨place, s, .ok a⟩], pool⟩
  | .error e => ⟨h.events ++ [⟨place, s, .error e⟩], h.pool⟩

/-- Steps on a pool that starts with one reader. -/
def ofRun (data : List UInt8) (steps : List (Nat × ReaderStep)) : ReaderHistory :=
  steps.foldl (fun h s => h.next s.1 s.2) ⟨[], .ofBytes data⟩

/-- The bytes that the steps on one reader took, in order. -/
def takenFrom (h : ReaderHistory) (place : Nat) : List UInt8 :=
  (h.events.filter (·.place == place)).flatMap (·.taken h.pool)

theorem takenFrom_append {events : List ReaderEvent} {pool : ReaderPool} (e : ReaderEvent)
    (p : Nat) :
    takenFrom ⟨events ++ [e], pool⟩ p =
      takenFrom ⟨events, pool⟩ p ++ if e.place = p then e.taken pool else [] := by
  by_cases hp : e.place = p
  · simp [takenFrom, hp]
  · simp [takenFrom, hp]

theorem takenFrom_congr {events : List ReaderEvent} {pool pool' : ReaderPool}
    (h : ∀ e ∈ events, ∀ place, e.answer = .ok (.reader place) →
      pool'.content place = pool.content place) (p : Nat) :
    takenFrom ⟨events, pool'⟩ p = takenFrom ⟨events, pool⟩ p :=
  List.flatMap_congr fun e he => ReaderEvent.taken_congr (h e (List.mem_of_mem_filter he))

/-- What was taken from a reader lies before its cursor. -/
structure Accounted (h : ReaderHistory) : Prop where
  bounds : h.pool.InBounds
  /-- The readers that were answered are there. -/
  issued : ∀ e ∈ h.events, ∀ place, e.answer = .ok (.reader place) → place < h.pool.readers.length
  /-- Also for readers that do not exist yet: from those nothing was taken. -/
  before : ∀ place, h.takenFrom place = (h.pool.content place).take (h.pool.offset place)

theorem accounted_empty (data : List UInt8) : Accounted ⟨[], .ofBytes data⟩ where
  bounds := List.forall_mem_singleton.2 (Reader.inBounds_ofBytes data)
  issued e he := absurd he List.not_mem_nil
  before p := by
    cases p with
    | zero => simp [takenFrom, ReaderPool.offset, ReaderPool.ofBytes]
    | succ p => simp [takenFrom, ReaderPool.content, ReaderPool.ofBytes]

namespace Accounted

/-- A step that takes nothing and changes nothing. -/
theorem idle (hh : h.Accounted) {e : ReaderEvent} (hnone : e.taken h.pool = [])
    (hanswer : ∀ p, e.answer ≠ .ok (.reader p)) :
    Accounted ⟨h.events ++ [e], h.pool⟩ where
  bounds := hh.bounds
  issued e' he' p hp := by
    rcases List.mem_append.1 he' with he' | he'
    · exact hh.issued e' he' p hp
    · rw [List.mem_singleton.1 he'] at hp
      exact absurd hp (hanswer p)
  before p := by
    rw [takenFrom_append, hnone, ite_self, List.append_nil]
    exact hh.before p

/-- A step that takes bytes: the pool may have more readers then. -/
theorem taking (hh : h.Accounted) {r : Reader} {bs tail : List UInt8} {e : ReaderEvent}
    {pool : ReaderPool} (hr : h.pool.readers[e.place]? = some r) (hrest : r.rest = bs ++ tail)
    (hbounds : pool.InBounds) (htaken : e.taken pool = bs)
    (hanswer : ∀ p, e.answer = .ok (.reader p) → p < pool.readers.length)
    (hlength : h.pool.readers.length ≤ pool.readers.length)
    (hcontent : ∀ p < h.pool.readers.length, pool.content p = h.pool.content p)
    (hoffset : ∀ p, pool.offset p = (h.pool.update e.place (r.advance bs.length)).offset p) :
    Accounted ⟨h.events ++ [e], pool⟩ where
  bounds := hbounds
  issued e' he' p hp := by
    rcases List.mem_append.1 he' with he' | he'
    · exact Nat.lt_of_lt_of_le (hh.issued e' he' p hp) hlength
    · rw [List.mem_singleton.1 he'] at hp
      exact hanswer p hp
  before p := by
    have hearlier : takenFrom ⟨h.events, pool⟩ p = h.takenFrom p :=
      takenFrom_congr (fun e' he' q hq => hcontent q (hh.issued e' he' q hq)) p
    rw [takenFrom_append, hearlier, hh.before, hoffset, ReaderPool.offset_update hr]
    by_cases hp : e.place = p
    · subst hp
      have hplace : e.place < h.pool.readers.length := (List.getElem?_eq_some_iff.1 hr).1
      have hmoved := Reader.take_position_advance (hh.bounds r (List.mem_of_getElem? hr)) hrest
      rw [Reader.bytes_advance] at hmoved
      rw [if_pos rfl, if_pos rfl, htaken, hcontent e.place hplace,
        ReaderPool.content_of_getElem? hr, ReaderPool.offset_of_getElem? hr, hmoved]
    · rw [if_neg hp, if_neg (Ne.symm hp), List.append_nil]
      rcases Nat.lt_or_ge p h.pool.readers.length with hlt | hge
      · rw [hcontent p hlt]
      · -- a reader that was not there has taken nothing
        have hnone : h.pool.readers[p]? = none := List.getElem?_eq_none hge
        simp [ReaderPool.offset, hnone]

theorem next (hh : h.Accounted) (hs : s.NonNegative) : (h.next place s).Accounted := by
  have hanswers := ReaderPool.answers hh.bounds place hs
  unfold ReaderHistory.next
  generalize h.pool.step place s = outcome at hanswers
  cases hanswers with
  | missing hr => exact hh.idle (by cases s <;> rfl) nofun
  | short hr hn hshort => exact hh.idle (by cases s <;> rfl) nofun
  | @seen r a hr hread hslice hreader =>
    refine hh.idle ?_ fun p hp => hreader p (Except.ok.inj hp)
    unfold ReaderEvent.taken
    split
    · rename_i hs _
      exact absurd hs (hread _)
    · rename_i hs _
      exact absurd hs (hslice _)
    · rfl
  | @read r count bs tail hs hr cuts =>
    subst hs
    have hbounds := Reader.inBounds_advance (hh.bounds r (List.mem_of_getElem? hr)) cuts.rest
    exact hh.taking hr cuts.rest (ReaderPool.inBounds_update hh.bounds hbounds) rfl nofun
      (Nat.le_of_eq (ReaderPool.length_update _ _ _).symm)
      (fun p _ => ReaderPool.content_update hr (Reader.bytes_advance r _) p) fun _ => rfl
  | @slice r count bs tail hs hr cuts =>
    subst hs
    have hbounds := Reader.inBounds_advance (hh.bounds r (List.mem_of_getElem? hr)) cuts.rest
    refine hh.taking hr cuts.rest
      (ReaderPool.inBounds_add (ReaderPool.inBounds_update hh.bounds hbounds)) ?_ ?_ ?_ ?_ ?_
    -- the bytes that were taken are those of the new reader
    · change ReaderPool.content _ h.pool.readers.length = bs
      rw [ReaderPool.content_add, ReaderPool.length_update, if_pos rfl]
    · rintro p ⟨⟩
      simp [ReaderPool.length_add]
    · simp [ReaderPool.length_add]
    · intro p hp
      rw [ReaderPool.content_add, ReaderPool.length_update, if_neg (Nat.ne_of_lt hp),
        ReaderPool.content_update hr (Reader.bytes_advance r _)]
    · exact ReaderPool.offset_add

end Accounted

/-- A step changes no data and moves no other reader. -/
theorem next_keeps (hpool : h.pool.InBounds) (place : Nat) (hs : s.NonNegative) {other : Nat}
    {q : Reader} (hq : h.pool.readers[other]? = some q) :
    ∃ q', (h.next place s).pool.readers[other]? = some q' ∧ q'.bytes = q.bytes ∧
      (other ≠ place → q' = q) := by
  have hanswers := ReaderPool.answers hpool place hs
  unfold next
  generalize h.pool.step place s = outcome at hanswers
  -- a reader that is cut out is added behind all others
  have hadded : other ≠ h.pool.readers.length :=
    Nat.ne_of_lt (List.getElem?_eq_some_iff.1 hq).1
  have moved : ∀ {r : Reader} {n : Nat}, h.pool.readers[place]? = some r →
      ∃ q', (h.pool.update place (r.advance n)).readers[other]? = some q' ∧ q'.bytes = q.bytes ∧
        (other ≠ place → q' = q) := by
    intro r n hr
    rw [ReaderPool.getElem?_update hr]
    by_cases hother : other = place
    · subst hother
      rw [hr] at hq
      cases hq
      exact ⟨_, if_pos rfl, rfl, fun hne => absurd rfl hne⟩
    · exact ⟨q, by rw [if_neg hother, hq], rfl, fun _ => rfl⟩
  cases hanswers with
  | missing _ | short _ _ _ | seen _ _ _ _ => exact ⟨q, hq, rfl, fun _ => rfl⟩
  | read _ hr _ => exact moved hr
  | @slice r count bs tail _ hr _ =>
    change ∃ q', (ReaderPool.add _ bs).readers[other]? = some q' ∧ _
    rw [ReaderPool.getElem?_add, ReaderPool.length_update, if_neg hadded]
    exact moved hr

theorem ofRun_append (data : List UInt8) (steps : List (Nat × ReaderStep)) (s : Nat × ReaderStep) :
    ofRun data (steps ++ [s]) = (ofRun data steps).next s.1 s.2 := by
  simp [ofRun]

theorem accounted_ofRun {steps : List (Nat × ReaderStep)}
    (hsteps : ∀ s ∈ steps, s.2.NonNegative) : (ofRun data steps).Accounted := by
  -- the last step is taken on the history of those before it
  induction steps using List.reverseRecOn with
  | nil => exact accounted_empty data
  | append_singleton steps s ih =>
    rw [ofRun_append]
    exact (ih fun s hs => hsteps s (by simp [hs])).next (hsteps s (by simp))

theorem origin_ofRun {steps : List (Nat × ReaderStep)} (hsteps : ∀ s ∈ steps, s.2.NonNegative) :
    ∃ r, (ofRun data steps).pool.readers[0]? = some r ∧ r.bytes = data := by
  induction steps using List.reverseRecOn with
  | nil => exact ⟨_, rfl, Reader.bytes_ofBytes data⟩
  | append_singleton steps s ih =>
    have hearlier : ∀ s ∈ steps, s.2.NonNegative := fun s hs => hsteps s (by simp [hs])
    rcases ih hearlier with ⟨r, hr, hbytes⟩
    rcases next_keeps (accounted_ofRun hearlier).bounds s.1 (hsteps s (by simp)) hr with
      ⟨r', hr', hbytes', _⟩
    rw [ofRun_append]
    exact ⟨r', hr', by rw [hbytes', hbytes]⟩

/-- What holds of a reader in a pool, and of the next step on it. -/
structure Partitioned (h : ReaderHistory) (place : Nat) (r : Reader) : Prop where
  low : 0 ≤ r.position
  high : r.position ≤ r.size
  left : r.remaining = (r.size : Int) - r.position
  /-- What the steps took from the reader is its data up to the cursor. -/
  taken : h.takenFrom place = r.bytes.take r.position.toNat
  fails_iff : ∀ s : ReaderStep, s.NonNegative →
    ((∃ e, h.pool.step place s = .error e) ↔ ∃ n, s.wanted? = some n ∧ r.remaining < n.value)
  /-- The only failure; its class is lost where the sentence has too many digits. -/
  fails_with : ∀ s : ReaderStep, s.NonNegative → ∀ e, h.pool.step place s = .error e →
    ∃ n, s.wanted? = some n ∧ e = .truncated (.read n r.position r.remaining) ∧
      e.kind = if n.spellable && spellable r.position then .truncatedInput else .valueMisuse
  fails_still : ∀ s e, h.pool.step place s = .error e → (h.next place s).pool = h.pool
  /-- The pool may keep its reader: reading that fails leaves it unchanged. -/
  reading_still : ∀ count e r', Reader.readUpTo count r = .error e r' → r' = r
  /-- A step that succeeds takes as much as it asks for. -/
  moves : ∀ s : ReaderStep, s.NonNegative → ∀ a pool', h.pool.step place s = .ok (a, pool') →
    ∃ r', pool'.readers[place]? = some r' ∧ r'.position = s.target r
  others : ∀ s : ReaderStep, s.NonNegative → ∀ other q, h.pool.readers[other]? = some q →
    ∃ q', (h.next place s).pool.readers[other]? = some q' ∧ q'.bytes = q.bytes ∧
      (other ≠ place → q' = q)

theorem Accounted.partitioned (hh : h.Accounted) {r : Reader}
    (hr : h.pool.readers[place]? = some r) : h.Partitioned place r := by
  have hbounds : r.InBounds := hh.bounds r (List.mem_of_getElem? hr)
  have htaken := hh.before place
  rw [ReaderPool.content_of_getElem? hr, ReaderPool.offset_of_getElem? hr] at htaken
  constructor
  case low => exact hbounds.1
  case high => exact hbounds.2
  case left => rfl
  case taken => exact htaken
  case fails_iff =>
    intro s hs
    constructor
    · rintro ⟨e, he⟩
      rcases ReaderPool.of_step_error hh.bounds hs hr he with ⟨n, hn, hshort, _⟩
      exact ⟨n, hn, hshort⟩
    · rintro ⟨n, hn, hshort⟩
      cases hstep : h.pool.step place s with
      | error e => exact ⟨e, rfl⟩
      | ok outcome => exact absurd hshort ((ReaderPool.of_step_ok hh.bounds hs hr hstep).1 n hn)
  case fails_with =>
    intro s hs e he
    rcases ReaderPool.of_step_error hh.bounds hs hr he with ⟨n, hn, hshort, rfl⟩
    exact ⟨n, hn, rfl, Reader.kind_short hbounds hshort⟩
  case fails_still =>
    intro s e he
    rw [ReaderHistory.next, he]
  case reading_still =>
    intro count e r' hread
    exact Reader.readUpTo_error hread
  case moves =>
    intro s hs a pool' hstep
    exact (ReaderPool.of_step_ok hh.bounds hs hr hstep).2
  case others =>
    intro s hs other q hq
    exact next_keeps hh.bounds place hs hq

/-- Readers and their slices partition the data: this holds after any steps. -/
theorem readers_partition (data : List UInt8) {steps : List (Nat × ReaderStep)}
    (hsteps : ∀ s ∈ steps, s.2.NonNegative) :
    (∃ r, (ofRun data steps).pool.readers[0]? = some r ∧ r.bytes = data) ∧
      ∀ place r, (ofRun data steps).pool.readers[place]? = some r →
        (ofRun data steps).Partitioned place r :=
  ⟨origin_ofRun hsteps, fun _ _ => (accounted_ofRun hsteps).partitioned⟩

/-- A header, a block, a step inside the block, a step that asks for too much, and the rest. -/
def sampleSteps : List (Nat × ReaderStep) :=
  [(0, .read (some 1)), (0, .slice (some 3)), (1, .read (some 2)), (0, .read (some 9)),
    (0, .read none), (1, .tell)]

theorem readers_partition_sample :
    (∀ s ∈ sampleSteps, s.2.NonNegative) ∧
      (ofRun [3, 7, 8, 9, 5] sampleSteps).Partitioned 0 ⟨#[3, 7, 8, 9, 5], 5⟩ ∧
      (ofRun [3, 7, 8, 9, 5] sampleSteps).Partitioned 1 ⟨#[7, 8, 9], 2⟩ := by
  have hsteps : ∀ s ∈ sampleSteps, s.2.NonNegative := by
    simp only [sampleSteps, List.forall_mem_cons, ReaderStep.NonNegative]
    simp +decide
  have hpartition := (readers_partition [3, 7, 8, 9, 5] hsteps).2
  exact ⟨hsteps, hpartition 0 _ (by rfl), hpartition 1 _ (by rfl)⟩

/-- The length of a block, as the highest number that 1786 bytes can announce. -/
def wideCount : Numeral := .plain (BigEndian.decode (List.replicate 1786 255))

theorem not_spellable_wideCount : wideCount.spellable = false := not_spellable_of_wideTag

theorem wideCount_pos : 0 < wideCount.value := by
  have hnonzero : wideCount.value ≠ 0 := by
    intro hzero
    have hspelt : wideCount.spellable = true := by
      rw [Numeral.spellable, hzero]
      exact spellable_of_lt (by decide)
    rw [not_spellable_wideCount] at hspelt
    cases hspelt
  have hlow : 0 ≤ wideCount.value := Int.natCast_nonneg _
  omega

/-- Where all is read, a block that is not empty is missing. -/
theorem slice_exhausted {n count : Numeral} (hn : (data.length : Int) = n.value)
    (hcount : 0 < count.value) :
    ∃ h, h = ofRun data [(0, .read (some n))] ∧
      ∃ r, h.pool.readers[0]? = some r ∧ r.remaining < count.value ∧
        h.pool.step 0 (.slice (some count)) =
          .error (.truncated (.read count data.length 0)) := by
  have hpool : (ofRun data [(0, .read (some n))]).pool =
      ⟨[(Reader.ofBytes data).advance data.length]⟩ := by
    simp [ofRun, next, ReaderPool.step, ReaderPool.ofBytes, ReaderPool.update,
      Reader.readUpTo_length hn]
  have hremaining := Reader.remaining_advance_length data
  refine ⟨_, rfl, (Reader.ofBytes data).advance data.length, by rw [hpool]; rfl, ?_, ?_⟩
  · rw [hremaining]
    exact hcount
  · simp [hpool, ReaderPool.step, Reader.readUpTo, Reader.read, hremaining, hcount]

/-- A length is read, and the block behind it is missing: the failure is not that of an input that
ends too early. -/
theorem slice_unspelt :
    (∀ s ∈ [(0, ReaderStep.read (some 1786)), (0, .slice (some wideCount))], s.2.NonNegative) ∧
      ∃ h, h = ofRun (List.replicate 1786 255) [(0, .read (some 1786))] ∧
        ∃ r, h.pool.readers[0]? = some r ∧ r.remaining < wideCount.value ∧
          ∃ e, h.pool.step 0 (.slice (some wideCount)) = .error e ∧ e.kind = .valueMisuse := by
  have hcounts : ∀ s ∈ [(0, ReaderStep.read (some 1786)), (0, .slice (some wideCount))],
      s.2.NonNegative := by
    refine List.forall_mem_cons.2 ⟨?_, List.forall_mem_singleton.2 ?_⟩
    · rintro n ⟨⟩
      decide
    · rintro n ⟨⟩
      exact Int.le_of_lt wideCount_pos
  have hlength : ((List.replicate 1786 (255 : UInt8)).length : Int) = (1786 : Numeral).value := by
    rw [List.length_replicate]
    rfl
  rcases slice_exhausted hlength wideCount_pos with ⟨h, hh, r, hr, hshort, hstep⟩
  refine ⟨hcounts, h, hh, r, hr, hshort, _, hstep, if_neg ?_⟩
  rw [Error.spellable, Truncation.spellable, not_spellable_wideCount]
  decide

end ReaderHistory

end WireLayout
