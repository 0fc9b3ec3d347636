import WireLayout.Proofs.PriceUpdate.Encoding

/-!
# Capacity — the slots that an entry can carry

An entry starts with its length in one byte.  A slot makes an entry of its own size and three bytes
more, so slots of up to 252 bytes can be sent.  Layouts for larger slots are built all the same.

* `PriceUpdate.feeUpdate` — the update that sets all fee parameters of one chain;
* `PriceUpdate.encode_feeUpdate` — a layout that was built carries it exactly in slots of that size.
-/

namespace WireLayout

namespace PriceUpdate

/-- The update that sets all fee parameters of one chain. -/
def feeUpdate (chain : Chain) (kind : FeeKind) (x y z : Value) : Value :=
  .list [.chainCommand (.chain chain) (.command (.text feeParams) (kind.build x y z))]

/-- A number that has no room in one byte. -/
theorem bytesOf_byte_error {n : Nat} (h : 255 < n) :
    Uint.bytesOf n 1 = .error (.outOfRange n (some 1)) :=
  Uint.bytesOf_of_large (by decide) (by decide) h

variable {chains : List Chain} {slot : Numeral} {schemas : Schemas} {m n : Nat}
  {c : Chain} {kind : FeeKind} {x y z : Value} {p q r : List UInt8}

/-- Fee parameters fill a slot. -/
theorem exists_feePayload (hlow : 14 ≤ slot.value) (kind : FeeKind) (hp : WritesUint 4 x p)
    (hq : WritesUint 4 y q) (hr : WritesUint 6 z r) :
    ∃ payload, WritesPayload kind slot.value feeParams (kind.build x y z) 0 payload ∧
      (payload.length : Int) = slot.value := by
  refine ⟨_, .fees hp hq hr, ?_⟩
  simp only [List.length_append, length_of_writesUint hp, length_of_writesUint hq,
    length_of_writesUint hr, List.length_replicate]
  omega

section

variable (suits : Suits (slot.value - 14).toNat schemas) (hlow : 14 ≤ slot.value) (hc : c ∈ chains)
  (hkind : feesOf? c.platform = some kind) {payload : List UInt8}
  (hpayload : WritesPayload kind slot.value feeParams (kind.build x y z) 0 payload)
  (hlength : (payload.length : Int) = slot.value)

include suits hlow hc hkind hpayload hlength

/-- An entry of at most 255 bytes can be sent, and is read as it was. -/
theorem encode_feeUpdate_of_le (hchains : ∀ c ∈ chains, ∃ kind, feesOf? c.platform = some kind)
    (hhigh : slot.value ≤ 252) {codec : Codec}
    (hlayout : codec.layout = message chains slot m n schemas) :
    ∃ (length : UInt8) (body : List UInt8), (length.toNat : Int) = 3 + slot.value ∧
      codec.encode (feeUpdate c kind x y z) = .ok (1 :: length :: body) ∧
      ∃ u, codec.decode (1 :: length :: body) true = .ok u ∧
        u.same (feeUpdate c kind x y z) = true := by
  have hupdate : WritesUpdate chains slot.value (feeUpdate c kind x y z)
      (1 :: UInt8.ofNat (3 + payload.length) :: (BigEndian.encode 2 c.id ++ 0 :: payload)) := by
    have hentry := WritesEntry.intro hc hkind hpayload
    have hone := WritesUpdate.intro (.inl rfl) (Nat.le_of_ble_eq_true rfl) (.cons hentry .nil)
    rwa [List.flatten_cons, List.flatten_nil, List.append_nil] at hone
  rcases isMessage_of_writesUpdate hlow hhigh hupdate with ⟨items, u, hitems, hmessage, hsame⟩
  have hlist : feeUpdate c kind x y z = .list items := by
    rcases hitems with hitems | hitems
    · exact hitems
    · cases hitems
  refine ⟨_, _, ?_, ?_, u, (decode_message_iff suits hlow hchains hlayout).2 hmessage, ?_⟩
  · rw [toNat_ofNat_of_le (by omega)]
    omega
  · rw [Codec.encode_eq, hlayout]
    exact (bytesOf_message_iff suits hlow hhigh).2 hupdate
  · rwa [hlist]

/-- An entry of more than 255 bytes has no length byte. -/
theorem bytesOf_feeUpdate_of_lt (hhigh : 252 < slot.value) :
    (message chains slot m n schemas).bytesOf (feeUpdate c kind x y z) =
      .error (.outOfRange (3 + slot.value) (some 1)) := by
  rcases @exists_raw chains slot schemas m suits hlow _ _ _ _ _ _ hc hkind hpayload with
    ⟨raw, hraw, hbody⟩
  have hroom : Uint.bytesOf (3 + payload.length : Nat) 1 =
      .error (.outOfRange (3 + slot.value) (some 1)) := by
    have hcount : ((3 + payload.length : Nat) : Int) = 3 + slot.value := by omega
    rw [bytesOf_byte_error (by omega), hcount]
  -- the failure passes through the frame and through the array
  have hframe : (framedEntry chains slot m n schemas).bytesOf
      (.chainCommand (.chain c) (.command (.text feeParams) (kind.build x y z))) =
        .error (.outOfRange (3 + slot.value) (some 1)) := by
    rw [framedEntry, Layout.bytesOf_nested]
    have hconvert : (Custom.converted (commandConversion n schemas) : Custom Empty).beforeEncode
        (.chainCommand (.chain c) (.command (.text feeParams) (kind.build x y z))) = .ok raw := hraw
    rw [hconvert, Except.ok_bind, hbody, Except.ok_bind, writeFramed]
    simp only [Writer.collect_ofExcept_bind, length_body, hroom]
    rfl
  have hsingle : (message chains slot m n schemas).bytesOf (feeUpdate c kind x y z) =
      ((framedEntry chains slot m n schemas).bytesOf
        (.chainCommand (.chain c) (.command (.text feeParams) (kind.build x y z)))).map (1 :: ·) :=
    bytesOf_single _ _
  rw [hsingle, hframe]
  rfl

end

/-- Whatever the slot that a layout of messages was built for, fee parameters are sent and read
again exactly if the length of their entry, that of the slot and three bytes, has room in one byte.
In a larger slot they all fail. -/
theorem encode_feeUpdate {slotSize : Option Numeral} {s s' : Registry} {l : Layout}
    (hbuilt : messageLayout (chains.map .chain) slotSize s = .ok l s') :
    ∃ (slot : Numeral) (codec : Codec), slotSize = some slot ∧ Codec.compile l = .ok codec ∧
      ∀ c ∈ chains, ∃ kind, feesOf? c.platform = some kind ∧ ∀ x y z p q r,
        WritesUint 4 x p → WritesUint 4 y q → WritesUint 6 z r →
        (slot.value ≤ 252 → ∃ (length : UInt8) (body : List UInt8),
          (length.toNat : Int) = 3 + slot.value ∧
          codec.encode (feeUpdate c kind x y z) = .ok (1 :: length :: body) ∧
          ∃ u, codec.decode (1 :: length :: body) true = .ok u ∧
            u.same (feeUpdate c kind x y z) = true) ∧
        (252 < slot.value → codec.encode (feeUpdate c kind x y z) =
          .error (.outOfRange (3 + slot.value) (some 1))) := by
  rcases slot_of_messageLayout hbuilt with ⟨slot, rfl, hlow, hhigh⟩
  rcases form_of_messageLayout hlow hhigh hbuilt with ⟨hchains, schemas, m, n, suits, rfl⟩
  rcases exists_codec schemas m n with ⟨codec, hcompile, hlayout⟩
  refine ⟨slot, codec, rfl, hcompile, fun c hc => ?_⟩
  rcases hchains c hc with ⟨kind, hkind⟩
  refine ⟨kind, hkind, fun x y z p q r hp hq hr => ?_⟩
  rcases exists_feePayload hlow kind hp hq hr with ⟨payload, hpayload, hlength⟩
  constructor
  · intro hfits
    exact encode_feeUpdate_of_le suits hlow hc hkind hpayload hlength hchains hfits hlayout
  · intro hlarge
    rw [Codec.encode_eq, hlayout]
    exact bytesOf_feeUpdate_of_lt suits hlow hc hkind hpayload hlength hlarge

theorem fees_of_bsc : ∀ c ∈ [Chain.bsc], ∃ kind, feesOf? c.platform = some kind := by
  simp [Chain.platform, feesOf?]

/-- The largest slot whose entry has a length byte. -/
theorem encode_feeUpdate_largest : ∃ l s' codec,
    messageLayout ([Chain.bsc].map .chain) (some 252) .empty = .ok l s' ∧
      Codec.compile l = .ok codec ∧ ∃ body,
        codec.encode (feeUpdate .bsc .evm (.int 1) (.int 2) (.int 3)) = .ok (1 :: 255 :: body) := by
  rcases @exists_messageLayout 252 _ (by decide) (by decide) fees_of_bsc .empty with
    ⟨l, s', hbuilt⟩
  rcases encode_feeUpdate hbuilt with ⟨_, codec, ⟨⟩, hcompile, hall⟩
  rcases hall .bsc List.mem_cons_self with ⟨_, ⟨⟩, hfees⟩
  rcases (hfees (.int 1) (.int 2) (.int 3) _ _ _ ⟨1, rfl, by decide, rfl⟩ ⟨2, rfl, by decide, rfl⟩
    ⟨3, rfl, by decide, rfl⟩).1 (by decide) with ⟨length, body, hlength, hencode, _⟩
  have hbyte : length = 255 := UInt8.toNat_inj.1 (Int.ofNat_inj.1 hlength)
  rw [hbyte] at hencode
  exact ⟨l, s', codec, hbuilt, hcompile, body, hencode⟩

/-- With one byte more the layout is still built, but its entries have no length byte. -/
theorem encode_feeUpdate_tooLarge : ∃ l s' codec,
    messageLayout ([Chain.bsc].map .chain) (some 253) .empty = .ok l s' ∧
      Codec.compile l = .ok codec ∧
      codec.encode (feeUpdate .bsc .evm (.int 1) (.int 2) (.int 3)) =
        .error (.outOfRange 256 (some 1)) := by
  have hlow : 14 ≤ (253 : Numeral).value := by decide
  have hhigh : (253 : Numeral).value - 14 < blockLimit := by decide
  rcases exists_messageLayout_of_lt hlow hhigh fees_of_bsc .empty with ⟨l, s', hbuilt⟩
  rcases form_of_messageLayout hlow hhigh hbuilt with ⟨_, schemas, m, n, suits, rfl⟩
  rcases exists_codec schemas m n with ⟨codec, hcompile, hlayout⟩
  rcases @exists_feePayload 253 (.int 1) (.int 2) (.int 3) _ _ _ hlow .evm ⟨1, rfl, by decide, rfl⟩
    ⟨2, rfl, by decide, rfl⟩ ⟨3, rfl, by decide, rfl⟩ with ⟨payload, hpayload, hlength⟩
  refine ⟨_, s', codec, hbuilt, hcompile, ?_⟩
  rw [Codec.encode_eq, hlayout]
  exact bytesOf_feeUpdate_of_lt suits hlow List.mem_cons_self rfl hpayload hlength (by decide)

end PriceUpdate
end WireLayout
