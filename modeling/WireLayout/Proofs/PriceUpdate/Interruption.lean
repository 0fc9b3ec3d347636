import WireLayout.Proofs.Atomicity
import WireLayout.Proofs.PriceUpdate.Capacity

/-!
# Interruption — updates that fail half-way

An update is written entry by entry, and each entry at once.

* `PriceUpdate.Interrupted` — how encoding an update can fail, and what it leaves on the writer;
* `PriceUpdate.write_error_iff_interrupted` — encoding fails exactly in these ways.
-/

namespace WireLayout

namespace PriceUpdate

/-- How encoding an update on a writer can fail, and the writer that it leaves. -/
inductive Interrupted (c : Codec) (w : Writer) : Value → Error → Writer → Prop where
  /-- An update is a sequence. -/
  | noSequence {x : Value} (list : ∀ items, x ≠ .list items) (tuple : ∀ items, x ≠ .tuple items) :
      Interrupted c w x (.unexpected .arrayItems x.typeName) w
  /-- The number of entries has no room in one byte. -/
  | tooMany {x : Value} {items : List Value} (sequence : x = .list items ∨ x = .tuple items)
      (many : 255 < items.length) : Interrupted c w x (.outOfRange items.length (some 1)) w
  /-- The entries before the first one that fails are complete, and nothing follows them. -/
  | atEntry {x v : Value} {before after : List Value} {entries : List (List UInt8)} {e : Error}
      (sequence : x = .list (before ++ v :: after) ∨ x = .tuple (before ++ v :: after))
      (few : (before ++ v :: after).length ≤ 255)
      (complete :
        List.Forall₂ (fun u entry => c.encode (.list [u]) = .ok (1 :: entry)) before entries)
      (fails : c.encode (.list [v]) = .error e) :
      Interrupted c w x e (w.push (UInt8.ofNat (before ++ v :: after).length :: entries.flatten))

variable {chains : List Chain} {slot : Numeral} {schemas : Schemas} {m n : Nat} {c : Codec}

section

variable (hlayout : c.layout = message chains slot m n schemas)

include hlayout

theorem encode_single (v : Value) :
    c.encode (.list [v]) = ((framedEntry chains slot m n schemas).bytesOf v).map (1 :: ·) := by
  rw [Codec.encode_eq, hlayout]
  exact bytesOf_single _ v

theorem encode_single_ok_iff {v : Value} {entry : List UInt8} :
    c.encode (.list [v]) = .ok (1 :: entry) ↔
      (framedEntry chains slot m n schemas).bytesOf v = .ok entry := by
  rw [encode_single hlayout, Except.map_ok_iff]
  simp

theorem encode_single_error_iff {v : Value} {e : Error} :
    c.encode (.list [v]) = .error e ↔
      (framedEntry chains slot m n schemas).bytesOf v = .error e := by
  rw [encode_single hlayout]
  cases (framedEntry chains slot m n schemas).bytesOf v <;> simp [Except.map]

theorem write_message_error_iff {x : Value} {w w' : Writer} {e : Error} :
    c.write x w = .error e w' ↔ Interrupted c w x e w' := by
  have honce : (framedEntry chains slot m n schemas).AtOnce := nofun
  rw [Codec.write_array_error_iff hlayout honce]
  constructor
  · rintro (⟨hitems, rfl⟩ | ⟨items, hitems, ⟨hcount, rfl⟩ |
      ⟨head, before, v, after, entries, hcount, rfl, hbefore, hv, rfl⟩⟩)
    · rcases arrayItems_error_iff.1 hitems with ⟨hlist, htuple, rfl⟩
      exact .noSequence hlist htuple
    · have hmany : 255 < items.length := by
        by_contra hfew
        rw [bytesOf_byte_iff.2 ⟨Nat.le_of_not_lt hfew, rfl⟩] at hcount
        cases hcount
      rw [bytesOf_byte_error hmany] at hcount
      cases hcount
      exact .tooMany (arrayItems_ok_iff.1 hitems) hmany
    · rcases bytesOf_byte_iff.1 hcount with ⟨hfew, rfl⟩
      exact .atEntry (arrayItems_ok_iff.1 hitems) hfew
        (hbefore.imp fun _ _ h => (encode_single_ok_iff hlayout).2 h)
        ((encode_single_error_iff hlayout).2 hv)
  · intro h
    cases h with
    | noSequence hlist htuple =>
      exact .inl ⟨arrayItems_error_iff.2 ⟨hlist, htuple, rfl⟩, rfl⟩
    | tooMany hsequence hmany =>
      exact .inr ⟨_, arrayItems_ok_iff.2 hsequence, .inl ⟨bytesOf_byte_error hmany, rfl⟩⟩
    | atEntry hsequence hfew hcomplete hfails =>
      exact .inr ⟨_, arrayItems_ok_iff.2 hsequence, .inr ⟨_, _, _, _, _,
        bytesOf_byte_iff.2 ⟨hfew, rfl⟩, rfl,
        hcomplete.imp fun _ _ h => (encode_single_ok_iff hlayout).1 h,
        (encode_single_error_iff hlayout).1 hfails, rfl⟩⟩

end

/-- Encoding an update fails because there is no sequence, or too many entries, and then writes
nothing; or at the first entry that fails on its own, with the failure of that entry, and then
leaves the count and the entries before. -/
theorem write_error_iff_interrupted {slotSize : Option Numeral} {s s' : Registry} {l : Layout}
    (hbuilt : messageLayout (chains.map .chain) slotSize s = .ok l s') :
    ∃ c, Codec.compile l = .ok c ∧ ∀ x w e w',
      c.write x w = .error e w' ↔ Interrupted c w x e w' := by
  rcases slot_of_messageLayout hbuilt with ⟨slot, rfl, hlow, hhigh⟩
  rcases form_of_messageLayout hlow hhigh hbuilt with ⟨_, schemas, m, n, _, rfl⟩
  rcases exists_codec schemas m n with ⟨c, hcompile, hlayout⟩
  exact ⟨c, hcompile, fun x w e w' => write_message_error_iff hlayout⟩

/-- The second of three entries is a text; the first one stays behind the count of all three. -/
theorem write_error_iff_interrupted_second : ∃ l s' c,
    messageLayout ([Chain.ethereum, .solana].map .chain) (some 16) .empty = .ok l s' ∧
      Codec.compile l = .ok c ∧
      c.write (.tuple [.chainCommand (.chain .solana) (.command (.text "gas_token_price") (.int 7)),
          .text "x", .none]) ⟨#[5]⟩ =
        .error (.unexpected .chainCommand "str") ⟨#[5, 3, 9, 0, 1, 3, 0, 0, 0, 0, 0, 7]⟩ := by
  have hlow : 14 ≤ (16 : Numeral).value := by decide
  have hhigh : (16 : Numeral).value ≤ 252 := by decide
  rcases @exists_messageLayout 16 _ hlow hhigh fees_of_default .empty with ⟨l, s', hbuilt⟩
  rcases messageLayout_ok hlow hhigh hbuilt with ⟨_, schemas, m, n, suits, rfl⟩
  rcases write_error_iff_interrupted hbuilt with ⟨c, hcompile, hwrite⟩
  have hlayout : c.layout = message [.ethereum, .solana] 16 m n schemas :=
    Codec.layout_of_ofLayout (Codec.compile_ok_iff.1 hcompile).2.1
  have hseven : WritesUint 6 (.int 7) [0, 0, 0, 0, 0, 7] := ⟨7, rfl, by decide, by decide⟩
  have hprice : WritesPayload .solana 16 "gas_token_price" (.int 7) 3 [0, 0, 0, 0, 0, 7] :=
    .scalar (by decide) hseven
  have hfirst : c.encode
      (.list [.chainCommand (.chain .solana) (.command (.text "gas_token_price") (.int 7))]) =
        .ok (1 :: [9, 0, 1, 3, 0, 0, 0, 0, 0, 7]) :=
    (encode_single_ok_iff hlayout).2
      ((bytesOf_framedEntry_iff suits hlow hhigh).2 (.intro (by decide) rfl hprice))
  have hsecond : c.encode (.list [.text "x"]) = .error (.unexpected .chainCommand "str") := by
    rw [encode_single_error_iff hlayout, framedEntry, Layout.bytesOf_nested]
    rfl
  exact ⟨_, s', c, hbuilt, hcompile, (hwrite _ _ _ _).2
    (.atEntry (.inr rfl) (by decide) (.cons hfirst .nil) hsecond)⟩

end PriceUpdate
end WireLayout
