import BoundedCollections.BoundedBTreeMap.Basic
import BoundedCollections.Codec.Collection

/-!
# The bounded map on the wire

The derived `Encode` writes the inner map and nothing of the bound, so a bounded map
and its inner `BTreeMap` are byte-identical on the wire. `Decode` is where the bound is
enforced, and it is enforced early: the length prefix is read and checked against
`S::get()` before a single pair is read, and only then is the inner map's decoder run,
on a stream that puts the re-encoded prefix back in front of the rest of the input.

The main results, one per promise of the source:

* `BoundedCollections.BoundedBTreeMap.decode_encode` – the round trip: every map within
  its bound comes back from its encoding, whatever follows it;
* `BoundedCollections.BoundedBTreeMap.decode_eq_inner` – the decoder is the unbounded
  one behind a fail-fast check: past the bound it stops after the prefix, within it it
  answers exactly as `BTreeMap::decode` does, down to where it leaves the input;
* `BoundedCollections.BoundedBTreeMap.encode_le_maxEncodedLen` – on the 32- and 64-bit
  targets, `max_encoded_len` bounds every encoding a `Vec<u8>` can hold; and where nothing
  saturates the bound is attained, by a full map of keys and values at their maxima
  (`BoundedCollections.BoundedBTreeMap.encode_eq_maxEncodedLen`).

`max_encoded_len` computes in `usize`, so it is modelled on a target of any width `w`:
`S::get() as usize` keeps the low `w` bits (`BoundedCollections.BoundedBTreeMap.boundOn`,
all of them from 32 bits on), and every step saturates at `usize::MAX`. The encoding itself
is a list with no length cap, where `Encode::encode` would panic growing its `Vec` past
`isize::MAX` bytes; the bound is stated for the encodings no longer than `usize::MAX`,
which include every one a `Vec` can hold.

Two readers of the same bytes do not look at the bound: `skip`
(`BoundedCollections.BoundedBTreeMap.skip_ignores_bound`) and `DecodeLength::len`, both
handed to `BTreeMap`.
-/

namespace BoundedCollections

/-- Modelled from the spec: `PrependCompactInput`, from `codec_utils`, which is not
among the sources. The spec has it present "a stream to the inner decoder that appears
to start fresh (by re-synthesizing the prefix bytes)": the re-encoded length, then the
inner input. -/
def prependCompactInput (encodedLen : List UInt8) (inner : Input) : Input :=
  encodedLen ++ inner

/-- Modelled from the spec: where `PrependCompactInput` leaves the inner input once a
decode through it stopped with `left` unread – past every byte read beyond the
prepended ones. -/
def prependedRest (inner left : Input) : Input :=
  inner.drop (inner.length - left.length)

theorem prependedRest_of_suffix {inner left : Input} (h : List.IsSuffix left inner) :
    prependedRest inner left = left :=
  (List.suffix_iff_eq_drop.mp h).symm

namespace BoundedBTreeMap

variable {K V : Type} [LinearOrder K] {S : UInt32}

/-! ### `Decode` and `Encode` -/

/-- The error of a prefix past the bound. -/
def exceedsItsLimit : String := "BoundedBTreeMap exceeds its limit"

/-- `<BoundedBTreeMap<K, V, S> as Decode>::decode`: fail early if the length prefix is
past the bound; otherwise put the prefix back and decode a `BTreeMap`. -/
def decode (dk : Decoder K) (dv : Decoder V) (inp : Input) : Decoded (BoundedBTreeMap K V S) :=
  (decodeCompact inp).bind fun len inp =>
    if len > S then .err exceedsItsLimit inp
    else
      match BTreeMap.decode dk dv (prependCompactInput (encodeCompact len) inp) with
      | .ok inner left => .ok ⟨inner⟩ (prependedRest inp left)
      | .err e left => .err e (prependedRest inp left)

/-- `<PhantomData<S> as Encode>`: no bytes. -/
def encodePhantomData : List UInt8 := []

/-- The derived `Encode`: the fields in order, the inner map and then the marker. -/
def encode (ek : K → List UInt8) (ev : V → List UInt8) (m : BoundedBTreeMap K V S) :
    Option (List UInt8) :=
  (m.inner.encode ek ev).map (· ++ encodePhantomData)

section Decode

variable {dk : Decoder K} {dv : Decoder V}

/-- Within the bound, the inner decode runs on the very bytes the prefix was read
from, so it answers as it would have on the input itself. -/
theorem decode_of_le {inp r : Input} {n : UInt32} (hc : decodeCompact inp = .ok n r)
    (hn : n ≤ S) :
    decode (S := S) dk dv inp = (BTreeMap.decode dk dv inp).bind fun t r => .ok ⟨t⟩ r := by
  rw [decode, hc, Decoded.bind_ok, if_neg (show ¬n > S from UInt32.not_lt.mpr hn),
    prependCompactInput, BTreeMap.decode_of_decodeCompact (decodeCompact_encodeCompact n r),
    BTreeMap.decode_of_decodeCompact hc]
  have hsuf : List.IsSuffix (decodePairs dk dv n.toNat r).rest r := decodePairs_forward _ _
  cases hp : decodePairs dk dv n.toNat r with
  | ok es left =>
    replace hsuf : List.IsSuffix left r := by rw [hp] at hsuf; exact hsuf
    simp only [Decoded.bind_ok, prependedRest_of_suffix hsuf]
  | err e left =>
    replace hsuf : List.IsSuffix left r := by rw [hp] at hsuf; exact hsuf
    simp only [Decoded.bind_err, prependedRest_of_suffix hsuf]

/-- **The decoder is `BTreeMap::decode` behind a fail-fast check.** A prefix that does not
decode fails both alike; a prefix past the bound fails with the limit error, the input
left just past the prefix, which is the encoding of the length it announced; a prefix
within the bound gives exactly what
`BTreeMap::decode` gives on the same input – the same map, wrapped, or the same error –
and leaves the input where it does. -/
theorem decode_eq_inner (dk : Decoder K) (dv : Decoder V) (inp : Input) :
    (∀ e r, decodeCompact inp = .err e r →
      decode (S := S) dk dv inp = .err e r ∧ BTreeMap.decode dk dv inp = .err e r) ∧
    (∀ n r, decodeCompact inp = .ok n r → S < n →
      decode (S := S) dk dv inp = .err exceedsItsLimit r ∧ inp = encodeCompact n ++ r) ∧
    (∀ n r, decodeCompact inp = .ok n r → n ≤ S →
      decode (S := S) dk dv inp = (BTreeMap.decode dk dv inp).bind fun t r => .ok ⟨t⟩ r) := by
  refine ⟨fun e r hc => ?_, fun n r hc hn => ?_, fun n r hc hn => decode_of_le hc hn⟩
  · rw [decode, BTreeMap.decode, hc]
    exact ⟨rfl, rfl⟩
  · rw [decode, hc, Decoded.bind_ok, if_pos (show n > S from hn)]
    exact ⟨rfl, decodeCompact_eq_ok hc⟩

/-- `<BoundedBTreeMap<K, V, S> as Decode>::skip`: handed to `BTreeMap`, so the bound plays
no part. -/
def skip (dk : Decoder K) (dv : Decoder V) (inp : Input) : Decoded Unit :=
  BTreeMap.skip dk dv inp

/-- **`skip` does not enforce the bound.** The encoding of a map longer than the bound is
skipped whole, the input left after its last pair, while `decode` refuses it right after
its prefix. -/
theorem skip_ignores_bound {ek : K → List UInt8} {ev : V → List UInt8} (hk : RoundTrip ek dk)
    (hv : RoundTrip ev dv) (t : BTreeMap K V) (ht : t.len ≤ 0xffffffff) (hS : bound S < t.len)
    (rest : Input) :
    skip dk dv (encodeCompact (UInt32.ofNat t.len) ++ encodePairs ek ev t.entries ++ rest) =
      .ok () rest ∧
    decode (S := S) dk dv
        (encodeCompact (UInt32.ofNat t.len) ++ encodePairs ek ev t.entries ++ rest) =
      .err exceedsItsLimit (encodePairs ek ev t.entries ++ rest) := by
  refine ⟨by rw [skip, BTreeMap.skip, (BTreeMap.decode_encode_of_len_le hk hv t ht rest).2]; rfl,
    ?_⟩
  have hn : S < UInt32.ofNat t.len := by
    change S.toNat < (UInt32.ofNat t.len).toNat
    rw [BTreeMap.toNat_ofNat_len ht]
    exact hS
  rw [decode, List.append_assoc, decodeCompact_encodeCompact, Decoded.bind_ok, if_pos hn]

theorem skip_ignores_bound_unitKey :
    RoundTrip (fun _ : Unit => []) unitDecoder ∧ RoundTrip encodeCompact compactDecoder ∧
    (⟨[((), 5)], by decide⟩ : BTreeMap Unit UInt32).len ≤ 0xffffffff ∧
    bound 0 < (⟨[((), 5)], by decide⟩ : BTreeMap Unit UInt32).len ∧
    skip unitDecoder compactDecoder
        (encodeCompact (UInt32.ofNat (⟨[((), 5)], by decide⟩ : BTreeMap Unit UInt32).len) ++
          encodePairs (fun _ => []) encodeCompact [((), 5)] ++ []) = .ok () [] :=
  ⟨roundTrip_unit, roundTrip_compact, by decide, by decide,
    (skip_ignores_bound (S := 0) roundTrip_unit roundTrip_compact _ (by decide) (by decide) []).1⟩

/-- A decoded map is within its bound: the prefix was checked, and the pairs decoded
after it number exactly what it announced. -/
theorem withinBound_of_decode {inp r : Input} {m : BoundedBTreeMap K V S}
    (h : decode dk dv inp = .ok m r) : m.WithinBound := by
  obtain ⟨n, r', hc, h⟩ := Decoded.bind_eq_ok h
  split_ifs at h with hn
  split at h
  · rename_i t left ht
    cases h
    obtain ⟨n', r'', hc', hlen⟩ := BTreeMap.len_of_decode ht
    rw [prependCompactInput, decodeCompact_encodeCompact] at hc'
    cases hc'
    exact hlen.trans (not_lt.mp hn)
  · cases h

end Decode

/-! ### The round trip -/

/-- **The round trip of the bounded map.** A map within its bound encodes as its inner
map does – the length prefix, then the pairs in ascending key order, nothing of the
bound – and that encoding decodes back to the map, leaving whatever followed unread. -/
theorem decode_encode {ek : K → List UInt8} {ev : V → List UInt8} {dk : Decoder K}
    {dv : Decoder V} (hk : RoundTrip ek dk) (hv : RoundTrip ev dv)
    (m : BoundedBTreeMap K V S) (hm : m.WithinBound) (rest : Input) :
    m.encode ek ev = m.inner.encode ek ev ∧
    m.encode ek ev =
      some (encodeCompact (UInt32.ofNat m.len) ++ encodePairs ek ev m.inner.entries) ∧
    decode dk dv (encodeCompact (UInt32.ofNat m.len) ++ encodePairs ek ev m.inner.entries ++ rest)
      = .ok m rest := by
  have hS : m.len ≤ 0xffffffff := hm.trans (Nat.le_of_lt_succ S.toNat_lt_size)
  obtain ⟨henc, hdec⟩ := BTreeMap.decode_encode_of_len_le hk hv m.inner hS rest
  have hphantom : m.encode ek ev = m.inner.encode ek ev := by simp [encode, encodePhantomData]
  refine ⟨hphantom, hphantom.trans henc, ?_⟩
  have hc := decodeCompact_encodeCompact (UInt32.ofNat m.len)
    (encodePairs ek ev m.inner.entries ++ rest)
  rw [← List.append_assoc] at hc
  have hn : UInt32.ofNat m.len ≤ S := by
    change (UInt32.ofNat m.len).toNat ≤ S.toNat
    rw [BTreeMap.toNat_ofNat_len hS]
    exact hm
  rw [decode_of_le hc hn, len, hdec, Decoded.bind_ok]

/-- A full map of three `u8` keys and `u8` values under the bound `3` encodes as the
prefix `3` and its pairs in ascending key order, and comes back from those bytes with the
byte after them unread. -/
theorem decode_encode_threeKeys :
    (⟨⟨[(1, 10), (2, 20), (3, 30)], by decide⟩⟩ :
      BoundedBTreeMap (Fin 256) (Fin 256) 3).WithinBound ∧
    (⟨⟨[(1, 10), (2, 20), (3, 30)], by decide⟩⟩ : BoundedBTreeMap (Fin 256) (Fin 256) 3).encode
        encodeU8 encodeU8 = some [12, 1, 10, 2, 20, 3, 30] ∧
    decode u8Decoder u8Decoder [12, 1, 10, 2, 20, 3, 30, 7] =
      .ok (⟨⟨[(1, 10), (2, 20), (3, 30)], by decide⟩⟩ : BoundedBTreeMap (Fin 256) (Fin 256) 3)
        [7] :=
  have h := decode_encode roundTrip_u8 roundTrip_u8
    (⟨⟨[(1, 10), (2, 20), (3, 30)], by decide⟩⟩ : BoundedBTreeMap (Fin 256) (Fin 256) 3)
    (by decide) [7]
  ⟨by decide, h.2.1, h.2.2⟩

/-! ### `DecodeLength` -/

/-- `<BoundedBTreeMap<K, V, S> as DecodeLength>::len`: handed to `BTreeMap`, "`BoundedBTreeMap`
is stored just a `BTreeMap`". -/
def decodeLength (selfEncoded : Input) : Except String ℕ :=
  BTreeMap.decodeLength selfEncoded

/-! ### `MaxEncodedLen` -/

/-- `usize::MAX` on a target whose pointers are `w` bits wide. -/
def usizeMax (w : ℕ) : ℕ := 2 ^ w - 1

/-- `usize::saturating_add`. -/
def saturatingAdd (w a b : ℕ) : ℕ := min (a + b) (usizeMax w)

/-- `usize::saturating_mul`. -/
def saturatingMul (w a b : ℕ) : ℕ := min (a * b) (usizeMax w)

/-- `BoundedBTreeMap::bound` on a `w`-bit target: `S::get() as usize` keeps the low `w`
bits of the `u32`. -/
def boundOn (w : ℕ) (S : UInt32) : ℕ := S.toNat % 2 ^ w

/-- `<BoundedBTreeMap<K, V, S> as MaxEncodedLen>::max_encoded_len` on a `w`-bit target,
given `K::max_encoded_len()` and `V::max_encoded_len()`:
`bound * (kMax + vMax) + Compact(S::get()).encoded_size()`, every step saturating. -/
def maxEncodedLen (w kMax vMax : ℕ) (S : UInt32) : ℕ :=
  saturatingAdd w (saturatingMul w (boundOn w S) (saturatingAdd w kMax vMax))
    (encodeCompact S).length

/-- Where the bound fits in a `usize`, the cast keeps it. -/
theorem boundOn_eq_bound {w : ℕ} (h : bound S < 2 ^ w) : boundOn w S = bound S :=
  Nat.mod_eq_of_lt h

/-- On the 32- and 64-bit targets, and any wider, `as usize` is lossless. -/
theorem boundOn_of_le {w : ℕ} (hw : 32 ≤ w) (S : UInt32) : boundOn w S = bound S :=
  boundOn_eq_bound (S.toNat_lt_size.trans_le (Nat.pow_le_pow_right two_pos hw))

/-- The saturating sum bounds whatever the exact sum bounds, up to `usize::MAX`. -/
theorem min_le_saturating {w B n kMax vMax L C Cn : ℕ} (hL : L ≤ Cn + n * (kMax + vMax))
    (hn : n ≤ B) (hC : Cn ≤ C) :
    min L (usizeMax w) ≤
      saturatingAdd w (saturatingMul w B (saturatingAdd w kMax vMax)) C := by
  unfold saturatingAdd saturatingMul
  have hna : n * (kMax + vMax) ≤ B * (kMax + vMax) := Nat.mul_le_mul_right _ hn
  rcases le_or_lt (kMax + vMax) (usizeMax w) with ha | ha
  · rw [Nat.min_eq_left ha]
    omega
  · rw [Nat.min_eq_right ha.le]
    rcases Nat.eq_zero_or_pos B with rfl | hB
    · have : n = 0 := Nat.le_zero.mp hn
      subst this
      omega
    · have : usizeMax w ≤ B * usizeMax w := Nat.le_mul_of_pos_left _ hB
      omega

/-- **`max_encoded_len` bounds every encoding.** On a target of at least 32 bits, with key
and value encodings within their maxima, a map within its bound encodes, and its encoding,
if no longer than `usize::MAX` – as every encoding a `Vec<u8>` can hold is – is no longer
than `max_encoded_len()`. -/
theorem encode_le_maxEncodedLen {w : ℕ} (hw : 32 ≤ w) {ek : K → List UInt8}
    {ev : V → List UInt8} {kMax vMax : ℕ} (hk : ∀ k, (ek k).length ≤ kMax)
    (hv : ∀ v, (ev v).length ≤ vMax) (m : BoundedBTreeMap K V S) (hm : m.WithinBound) :
    ∃ bytes, m.encode ek ev = some bytes ∧
      (bytes.length ≤ usizeMax w → bytes.length ≤ maxEncodedLen w kMax vMax S) := by
  have hS : m.len ≤ 0xffffffff := hm.trans (Nat.le_of_lt_succ S.toNat_lt_size)
  have hL : (encodeCompact (UInt32.ofNat m.len) ++ encodePairs ek ev m.inner.entries ++
      encodePhantomData).length ≤
        (encodeCompact (UInt32.ofNat m.len)).length + m.len * (kMax + vMax) := by
    simp only [encodePhantomData, List.append_nil, List.length_append]
    exact Nat.add_le_add_left (length_encodePairs_le hk hv _) _
  refine ⟨_, by rw [encode, BTreeMap.encode_of_le hS]; rfl, fun hu => ?_⟩
  rw [← Nat.min_eq_left hu]
  exact min_le_saturating hL (hm.trans_eq (boundOn_of_le hw S).symm)
    (length_encodeCompact_mono ((BTreeMap.toNat_ofNat_len hS).trans_le hm))

/-- On a 64-bit target, two `u8` keys with compact values under the bound `2`. -/
theorem encode_le_maxEncodedLen_twoKeys :
    32 ≤ 64 ∧ (∀ k, (encodeU8 k).length ≤ 1) ∧ (∀ v : UInt32, (encodeCompact v).length ≤ 5) ∧
    (⟨⟨[(1, 5), (2, 70000)], by decide⟩⟩ : BoundedBTreeMap (Fin 256) UInt32 2).WithinBound ∧
    ∃ bytes, (⟨⟨[(1, 5), (2, 70000)], by decide⟩⟩ : BoundedBTreeMap (Fin 256) UInt32 2).encode
        encodeU8 encodeCompact = some bytes ∧
      (bytes.length ≤ usizeMax 64 → bytes.length ≤ maxEncodedLen 64 1 5 2) :=
  ⟨by decide, fun _ => le_rfl, length_encodeCompact_le, by decide,
    encode_le_maxEncodedLen (show 32 ≤ 64 by decide)
      (fun k => (rfl : (encodeU8 k).length = 1).le) length_encodeCompact_le _ (by decide)⟩

/-- **`max_encoded_len` is attained.** Where no step saturates, a full map whose keys and
values all encode at their maxima encodes to exactly `max_encoded_len()` bytes: the bound is
the least one for such types. -/
theorem encode_eq_maxEncodedLen (w : ℕ) {ek : K → List UInt8} {ev : V → List UInt8}
    {kMax vMax : ℕ} (m : BoundedBTreeMap K V S)
    (hkv : ∀ e ∈ m.inner.entries, (ek e.1).length = kMax ∧ (ev e.2).length = vMax)
    (hfull : m.len = bound S)
    (hw : bound S * (kMax + vMax) + (encodeCompact S).length ≤ usizeMax w) :
    ∃ bytes, m.encode ek ev = some bytes ∧ bytes.length = maxEncodedLen w kMax vMax S := by
  have hS : m.len ≤ 0xffffffff := hfull.trans_le (Nat.le_of_lt_succ S.toNat_lt_size)
  have hlen : m.inner.entries.length = bound S := hfull
  have hprefix : UInt32.ofNat m.len = S := by rw [hfull]; exact ofNat_toNat_u32 S
  have hmul : saturatingMul w (boundOn w S) (saturatingAdd w kMax vMax) =
      bound S * (kMax + vMax) := by
    unfold saturatingMul saturatingAdd
    rcases Nat.eq_zero_or_pos (kMax + vMax) with h0 | hpos
    · simp [h0]
    · have : bound S ≤ bound S * (kMax + vMax) := Nat.le_mul_of_pos_right _ hpos
      have h2 : 0 < 2 ^ w := Nat.two_pow_pos w
      rw [boundOn_eq_bound (by unfold usizeMax at hw; omega)]
      rcases Nat.eq_zero_or_pos (bound S) with hb0 | hbpos
      · simp [hb0]
      · have : kMax + vMax ≤ bound S * (kMax + vMax) := Nat.le_mul_of_pos_left _ hbpos
        rw [Nat.min_eq_left (show kMax + vMax ≤ usizeMax w by omega),
          Nat.min_eq_left (show bound S * (kMax + vMax) ≤ usizeMax w by omega)]
  refine ⟨encodeCompact (UInt32.ofNat m.len) ++ encodePairs ek ev m.inner.entries ++
    encodePhantomData, by rw [encode, BTreeMap.encode_of_le hS]; rfl, ?_⟩
  rw [maxEncodedLen, hmul, saturatingAdd, Nat.min_eq_left hw, encodePhantomData, List.append_nil,
    List.length_append, hprefix, length_encodePairs_eq hkv, hlen, Nat.add_comm]

/-- A full map of one `()` key and a one-byte value under the bound `1`, on a 32-bit
target: two bytes, exactly `max_encoded_len`. -/
theorem encode_eq_maxEncodedLen_oneByte :
    (∀ e ∈ (⟨⟨[((), (5 : UInt8))], by decide⟩⟩ : BoundedBTreeMap Unit UInt8 1).inner.entries,
      ((fun _ : Unit => ([] : List UInt8)) e.1).length = 0 ∧
        ((fun v : UInt8 => [v]) e.2).length = 1) ∧
    (⟨⟨[((), (5 : UInt8))], by decide⟩⟩ : BoundedBTreeMap Unit UInt8 1).len = bound 1 ∧
    bound 1 * (0 + 1) + (encodeCompact 1).length ≤ usizeMax 32 ∧
    ∃ bytes, (⟨⟨[((), (5 : UInt8))], by decide⟩⟩ : BoundedBTreeMap Unit UInt8 1).encode
        (fun _ => []) (fun v => [v]) = some bytes ∧
      bytes.length = maxEncodedLen 32 0 1 1 :=
  ⟨by decide, by decide, by decide,
    encode_eq_maxEncodedLen 32 _ (by decide) (by decide) (by decide)⟩

end BoundedBTreeMap

end BoundedCollections
