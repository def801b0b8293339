import BoundedCollections.Codec.Input

/-!
# The length prefix: `Compact<u32>`

Every collection of the codec starts with its length as a `Compact<u32>`, and the
bounded map reads that prefix twice: once itself, to check it against the bound before
anything else is read, and once more through the inner map's decoder, to which it hands
a re-encoding of the length it read. Both the early rejection and the round trip of the
bounded map therefore rest on this one codec.

A compact integer spends its two low bits on a mode:

| mode | values | bytes |
|---|---|---|
| `0b00` | below `2 ^ 6` | one, `n << 2` |
| `0b01` | below `2 ^ 14` | two, `(n << 2) \| 1`, little-endian |
| `0b10` | below `2 ^ 30` | four, `(n << 2) \| 2`, little-endian |
| `0b11` | the rest of `u32` | a marker byte `3`, then the four bytes of `n` |

The decoder rejects a value written in a longer mode than it needs. The shifts and
masks are written as the arithmetic they are on these ranges: `<< 2` multiplies by
four, `>> 2` divides by four, and `| c` on a multiple of four adds `c`.

`BoundedCollections.decodeCompact_encodeCompact` is the round trip through all four
modes, with anything after the prefix left unread, and
`BoundedCollections.decodeCompact_eq_ok` its converse: the decoder accepts only the
encoding of what it returns, so each length has exactly one accepted prefix.
-/

namespace BoundedCollections

/-- The error of a prefix outside the range of its mode. -/
def compactOutOfRange : String := "out of range decoding Compact<u32>"

/-- `<Compact<u32> as Encode>::encode`. -/
def encodeCompact (n : UInt32) : List UInt8 :=
  if n.toNat ≤ 0x3f then [UInt8.ofNat (n.toNat * 4)]
  else if n.toNat ≤ 0x3fff then toLeBytes 2 (n.toNat * 4 + 1)
  else if n.toNat ≤ 0x3fffffff then toLeBytes 4 (n.toNat * 4 + 2)
  else 3 :: toLeBytes 4 n.toNat

/-- `<Compact<u32> as Decode>::decode`: the first byte names the mode; the two- and
four-byte modes read the rest of their little-endian word after it. -/
def decodeCompact (inp : Input) : Decoded UInt32 :=
  (readByte inp).bind fun p inp =>
    match p.toNat % 4 with
    | 0 => .ok (UInt32.ofNat (p.toNat / 4)) inp
    | 1 =>
      (read 1 inp).bind fun bs r =>
        let x := fromLeBytes (p :: bs) / 4
        if 0x3f < x ∧ x ≤ 0x3fff then .ok (UInt32.ofNat x) r else .err compactOutOfRange r
    | 2 =>
      (read 3 inp).bind fun bs r =>
        let x := fromLeBytes (p :: bs) / 4
        if 0x3fff < x ∧ x ≤ 0x3fffffff then .ok (UInt32.ofNat x) r
        else .err compactOutOfRange r
    | _ =>
      if p.toNat / 4 = 0 then
        (read 4 inp).bind fun bs r =>
          let x := fromLeBytes bs
          if 0x3fffffff < x then .ok (UInt32.ofNat x) r else .err compactOutOfRange r
      else .err compactOutOfRange inp

/-! ### Reading forward -/

/-- A range check at the end of a mode leaves the input where the read did. -/
theorem rest_check (c : Prop) [Decidable c] (x : UInt32) (r : Input) :
    List.IsSuffix (if c then Decoded.ok x r else .err compactOutOfRange r).rest r := by
  split_ifs <;> exact List.suffix_refl _

theorem decodeCompact_forward (inp : Input) : List.IsSuffix (decodeCompact inp).rest inp := by
  refine Decoded.suffix_bind (readByte_rest_suffix inp) fun p inp => ?_
  split
  · exact List.suffix_refl _
  · exact Decoded.suffix_bind (read_rest_suffix _ _) fun _ _ => rest_check _ _ _
  · exact Decoded.suffix_bind (read_rest_suffix _ _) fun _ _ => rest_check _ _ _
  · split_ifs
    · exact Decoded.suffix_bind (read_rest_suffix _ _) fun _ _ => rest_check _ _ _
    · exact List.suffix_refl _

/-- `Compact<u32>` as a `Decoder`. -/
def compactDecoder : Decoder UInt32 := ⟨decodeCompact, decodeCompact_forward⟩

/-! ### The round trip -/

theorem ofNat_toNat_u32 (n : UInt32) : UInt32.ofNat n.toNat = n :=
  UInt32.eq_of_toBitVec_eq (by simp [UInt32.ofNat, UInt32.toNat])

/-- The first byte of a multi-byte mode carries the mode in its low bits. -/
theorem mode_bits {x c : ℕ} (hc : c < 4) : (UInt8.ofNat ((x * 4 + c) % 256)).toNat % 4 = c := by
  rw [toNat_ofNat_mod_256]
  omega

/-- The word of a multi-byte mode, read back and shifted, is the value. -/
theorem fromLeBytes_mode {w x c : ℕ} (hc : c < 4) (hx : x * 4 + c < 256 ^ w) :
    fromLeBytes (toLeBytes w (x * 4 + c)) / 4 = x := by
  rw [fromLeBytes_toLeBytes, Nat.mod_eq_of_lt hx]
  omega

/-- **The compact round trip**: in each of its four modes, a length decodes to itself
and leaves whatever followed its encoding unread. -/
theorem decodeCompact_encodeCompact (n : UInt32) (rest : Input) :
    decodeCompact (encodeCompact n ++ rest) = .ok n rest := by
  have hn : n.toNat < 2 ^ 32 := n.toNat_lt_size
  unfold encodeCompact
  split_ifs with h1 h2 h3
  · -- one byte
    have hp : (UInt8.ofNat (n.toNat * 4)).toNat = n.toNat * 4 :=
      UInt8.toNat_ofNat_of_lt (by change _ < 256; omega)
    simp only [List.singleton_append, decodeCompact, readByte, Decoded.bind_ok, hp,
      Nat.mul_mod_left, Nat.mul_div_cancel _ (by decide : 0 < 4), ofNat_toNat_u32]
  · -- two bytes
    have hv := fromLeBytes_mode (w := 2) (x := n.toNat) (c := 1) (by decide) (by omega)
    rw [toLeBytes] at hv ⊢
    simp only [List.cons_append, decodeCompact, readByte, Decoded.bind_ok,
      mode_bits (by decide : 1 < 4), read_append (length_toLeBytes _ _), hv]
    rw [if_pos (by omega), ofNat_toNat_u32]
  · -- four bytes
    have hv := fromLeBytes_mode (w := 4) (x := n.toNat) (c := 2) (by decide) (by omega)
    rw [toLeBytes] at hv ⊢
    simp only [List.cons_append, decodeCompact, readByte, Decoded.bind_ok,
      mode_bits (by decide : 2 < 4), read_append (length_toLeBytes _ _), hv]
    rw [if_pos (by omega), ofNat_toNat_u32]
  · -- the marker byte, then the four bytes of the value
    have hv : fromLeBytes (toLeBytes 4 n.toNat) = n.toNat := by
      rw [fromLeBytes_toLeBytes, Nat.mod_eq_of_lt (by omega)]
    have h3 : (3 : UInt8).toNat = 3 := rfl
    simp only [List.cons_append, decodeCompact, readByte, Decoded.bind_ok, h3,
      read_append (length_toLeBytes _ _), hv, if_true]
    rw [if_pos (by omega), ofNat_toNat_u32]

theorem roundTrip_compact : RoundTrip encodeCompact compactDecoder :=
  decodeCompact_encodeCompact

/-- A word of a multi-byte mode is the encoding of the value it carries. -/
theorem toLeBytes_mode {p : UInt8} {bs : List UInt8} {w c : ℕ} (hw : w = bs.length + 1)
    (hc : c < 4) (hp : p.toNat % 4 = c) :
    toLeBytes w (fromLeBytes (p :: bs) / 4 * 4 + c) = p :: bs := by
  have : fromLeBytes (p :: bs) / 4 * 4 + c = fromLeBytes (p :: bs) := by
    rw [fromLeBytes]
    omega
  rw [this, hw, ← List.length_cons, toLeBytes_fromLeBytes]

/-- **The compact prefix is canonical**: what `decodeCompact` accepts is exactly the
encoding of the value it returns, so each length has one accepted prefix. -/
theorem decodeCompact_eq_ok {inp r : Input} {n : UInt32} (h : decodeCompact inp = .ok n r) :
    inp = encodeCompact n ++ r := by
  cases inp with
  | nil => cases h
  | cons p inp =>
  have hpl : p.toNat < 256 := p.toNat_lt_size
  simp only [decodeCompact, readByte, Decoded.bind_ok] at h
  split at h
  · rename_i hm
    cases h
    rw [encodeCompact, UInt32.toNat_ofNat_of_lt (by unfold UInt32.size; omega), if_pos (by omega),
      show p.toNat / 4 * 4 = p.toNat by omega, ofNat_toNat_u8]
    rfl
  · rename_i hm
    obtain ⟨bs, r', hr, hk⟩ := Decoded.bind_eq_ok h
    obtain ⟨hlen, rfl⟩ := read_eq_ok hr
    split_ifs at hk with hx
    cases hk
    have hlt := fromLeBytes_lt (p :: bs)
    rw [List.length_cons, hlen] at hlt
    rw [encodeCompact, UInt32.toNat_ofNat_of_lt (by unfold UInt32.size; omega), if_neg (by omega),
      if_pos hx.2, toLeBytes_mode (by omega) (by decide) hm]
    rfl
  · rename_i hm
    obtain ⟨bs, r', hr, hk⟩ := Decoded.bind_eq_ok h
    obtain ⟨hlen, rfl⟩ := read_eq_ok hr
    split_ifs at hk with hx
    cases hk
    have hlt := fromLeBytes_lt (p :: bs)
    rw [List.length_cons, hlen] at hlt
    rw [encodeCompact, UInt32.toNat_ofNat_of_lt (by unfold UInt32.size; omega), if_neg (by omega),
      if_neg (by omega), if_pos hx.2, toLeBytes_mode (by omega) (by decide) hm]
    rfl
  · rename_i hm0 hm1 hm2
    split_ifs at h with hp4
    obtain ⟨bs, r', hr, hk⟩ := Decoded.bind_eq_ok h
    obtain ⟨hlen, rfl⟩ := read_eq_ok hr
    split_ifs at hk with hx
    cases hk
    have hlt := fromLeBytes_lt bs
    rw [hlen] at hlt
    have hp : p = 3 := by
      have h0 : p.toNat % 4 ≠ 0 := hm0
      have h1 : p.toNat % 4 ≠ 1 := hm1
      have h2 : p.toNat % 4 ≠ 2 := hm2
      have : p.toNat = 3 := by omega
      rw [← ofNat_toNat_u8 p, this]
      rfl
    have hn : (UInt32.ofNat (fromLeBytes bs)).toNat = fromLeBytes bs :=
      UInt32.toNat_ofNat_of_lt (by unfold UInt32.size; omega)
    rw [encodeCompact, hn, if_neg (by omega), if_neg (by omega), if_neg (by omega), ← hlen,
      toLeBytes_fromLeBytes, hp]
    rfl

/-- The prefix is one, two, four or five bytes long, by the mode the length needs. -/
theorem length_encodeCompact (n : UInt32) :
    (encodeCompact n).length =
      if n.toNat ≤ 0x3f then 1 else if n.toNat ≤ 0x3fff then 2
      else if n.toNat ≤ 0x3fffffff then 4 else 5 := by
  unfold encodeCompact
  split_ifs <;> simp

theorem length_encodeCompact_le (n : UInt32) : (encodeCompact n).length ≤ 5 := by
  rw [length_encodeCompact]
  split_ifs <;> omega

/-- A longer collection never has a shorter prefix. -/
theorem length_encodeCompact_mono {m n : UInt32} (h : m.toNat ≤ n.toNat) :
    (encodeCompact m).length ≤ (encodeCompact n).length := by
  rw [length_encodeCompact, length_encodeCompact]
  split_ifs <;> omega

end BoundedCollections
