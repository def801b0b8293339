import BoundedCollections.BTreeMap
import BoundedCollections.Codec.Compact

/-!
# The codec of `BTreeMap`

The bounded map's `Encode` is derived, and its `Decode` ends by handing the input to
`BTreeMap::decode`, so what it puts on the wire and takes off it is the inner map's
format: the length as a `Compact<u32>`, then every pair, key first, in ascending key
order. Decoding reads the length, then that many pairs, and collects them; a repeated
key is not an error, the later pair wins, as collecting does.

Keys and values bring their own codecs, as parameters. The round trip of the map
(`BoundedCollections.BTreeMap.decode_encode_of_len_le`) needs only theirs: a pair's encoding
decodes to the pair and leaves the next pair unread, and collecting the ascending
entry list gives the map back (`BoundedCollections.BTreeMap.entries_ofList`).
-/

namespace BoundedCollections

variable {K V : Type}

/-- `compact_encode_len_to`: a collection's length as a `Compact<u32>`, refused past
`u32::MAX`. -/
def compactEncodeLen (len : ℕ) : Option (List UInt8) :=
  if len > 0xffffffff then none else some (encodeCompact (UInt32.ofNat len))

/-- The pairs, each encoded key first, one after another. -/
def encodePairs (ek : K → List UInt8) (ev : V → List UInt8) : List (K × V) → List UInt8
  | [] => []
  | e :: es => ek e.1 ++ ev e.2 ++ encodePairs ek ev es

/-- `n` decodes of `(K, V)`, collected into `Result` as `BTreeMap::decode` does: the
first error stops it. -/
def decodePairs (dk : Decoder K) (dv : Decoder V) : ℕ → Input → Decoded (List (K × V))
  | 0, inp => .ok [] inp
  | n + 1, inp =>
    (dk.run inp).bind fun k r =>
      (dv.run r).bind fun v r =>
        (decodePairs dk dv n r).bind fun es r => .ok ((k, v) :: es) r

section Pairs

variable {dk : Decoder K} {dv : Decoder V}

theorem decodePairs_forward (n : ℕ) (inp : Input) :
    List.IsSuffix (decodePairs dk dv n inp).rest inp := by
  induction n generalizing inp with
  | zero => exact List.suffix_refl _
  | succ n ih =>
    exact Decoded.suffix_bind (dk.forward inp) fun _ r =>
      Decoded.suffix_bind (dv.forward r) fun _ r =>
        Decoded.suffix_bind (ih r) fun _ _ => List.suffix_refl _

/-- A successful decode of `n` pairs has `n` pairs. -/
theorem length_of_decodePairs {n : ℕ} {inp r : Input} {es : List (K × V)}
    (h : decodePairs dk dv n inp = .ok es r) : es.length = n := by
  induction n generalizing inp es with
  | zero => cases h; rfl
  | succ n ih =>
    obtain ⟨k, r1, -, h⟩ := Decoded.bind_eq_ok h
    obtain ⟨v, r2, -, h⟩ := Decoded.bind_eq_ok h
    obtain ⟨es', r3, hp, h⟩ := Decoded.bind_eq_ok h
    cases h
    simp [ih hp]

/-- Pairs encoded one after another decode one after another. -/
theorem decodePairs_encodePairs {ek : K → List UInt8} {ev : V → List UInt8}
    (hk : RoundTrip ek dk) (hv : RoundTrip ev dv) (es : List (K × V)) (rest : Input) :
    decodePairs dk dv es.length (encodePairs ek ev es ++ rest) = .ok es rest := by
  induction es with
  | nil => rfl
  | cons e es ih =>
    rw [List.length_cons, decodePairs, encodePairs, List.append_assoc, List.append_assoc,
      hk e.1, Decoded.bind_ok, hv e.2, Decoded.bind_ok, ih, Decoded.bind_ok]

theorem length_encodePairs_le {ek : K → List UInt8} {ev : V → List UInt8} {kMax vMax : ℕ}
    (hk : ∀ k, (ek k).length ≤ kMax) (hv : ∀ v, (ev v).length ≤ vMax) (es : List (K × V)) :
    (encodePairs ek ev es).length ≤ es.length * (kMax + vMax) := by
  induction es with
  | nil => exact Nat.zero_le _
  | cons e es ih =>
    have := hk e.1
    have := hv e.2
    simp only [encodePairs, List.length_append, List.length_cons, Nat.succ_mul]
    omega

/-- Pairs whose keys and values all encode at their maxima take exactly that room. -/
theorem length_encodePairs_eq {ek : K → List UInt8} {ev : V → List UInt8} {kMax vMax : ℕ}
    {es : List (K × V)} (h : ∀ e ∈ es, (ek e.1).length = kMax ∧ (ev e.2).length = vMax) :
    (encodePairs ek ev es).length = es.length * (kMax + vMax) := by
  induction es with
  | nil => exact (Nat.zero_mul _).symm
  | cons e es ih =>
    obtain ⟨hk, hv⟩ := h e (List.mem_cons_self _ _)
    simp only [encodePairs, List.length_append, List.length_cons, Nat.succ_mul, hk, hv,
      ih fun e' he' => h e' (List.mem_cons_of_mem _ he')]
    omega

end Pairs

namespace BTreeMap

variable [LinearOrder K]

/-- `<BTreeMap<K, V> as Encode>::encode`: the length, then the pairs in ascending key
order. `none` is the panic of its `expect` on more than `u32::MAX` entries. -/
def encode (ek : K → List UInt8) (ev : V → List UInt8) (m : BTreeMap K V) :
    Option (List UInt8) :=
  (compactEncodeLen m.len).map (· ++ encodePairs ek ev m.entries)

/-- `<BTreeMap<K, V> as Decode>::decode`: the length, then that many pairs, collected. -/
def decode (dk : Decoder K) (dv : Decoder V) (inp : Input) : Decoded (BTreeMap K V) :=
  (decodeCompact inp).bind fun len r =>
    (decodePairs dk dv len.toNat r).bind fun es r => .ok (ofList es) r

/-- `<BTreeMap<K, V> as Decode>::skip`: the trait's default, a decode whose value is
dropped. -/
def skip (dk : Decoder K) (dv : Decoder V) (inp : Input) : Decoded Unit :=
  (decode dk dv inp).bind fun _ r => .ok () r

/-- `<BTreeMap<K, V> as DecodeLength>::len`: the `Compact<u32>` prefix of an encoding, as a
`usize` (a conversion that cannot fail on the 32- and 64-bit targets), read without
touching the pairs. -/
def decodeLength (selfEncoded : Input) : Except String ℕ :=
  match decodeCompact selfEncoded with
  | .ok n _ => .ok n.toNat
  | .err e _ => .error e

variable {dk : Decoder K} {dv : Decoder V}

theorem decode_forward (inp : Input) : List.IsSuffix (decode dk dv inp).rest inp :=
  Decoded.suffix_bind (decodeCompact_forward inp) fun _ r =>
    Decoded.suffix_bind (decodePairs_forward _ r) fun _ _ => List.suffix_refl _

/-- `BTreeMap<K, V>` as a `Decoder`. -/
def decoder (dk : Decoder K) (dv : Decoder V) : Decoder (BTreeMap K V) :=
  ⟨decode dk dv, decode_forward⟩

/-- Once the length is read, the map is the pairs that follow it. -/
theorem decode_of_decodeCompact {inp r : Input} {n : UInt32}
    (h : decodeCompact inp = .ok n r) :
    decode dk dv inp = (decodePairs dk dv n.toNat r).bind fun es r => .ok (ofList es) r := by
  rw [decode, h, Decoded.bind_ok]

/-- A decoded map has no more entries than its prefix announced. -/
theorem len_of_decode {inp r : Input} {m : BTreeMap K V} (h : decode dk dv inp = .ok m r) :
    ∃ n r', decodeCompact inp = .ok n r' ∧ m.len ≤ n.toNat := by
  obtain ⟨n, r', hc, h⟩ := Decoded.bind_eq_ok h
  obtain ⟨es, r'', hp, h⟩ := Decoded.bind_eq_ok h
  cases h
  exact ⟨n, r', hc, (len_ofList_le es).trans (length_of_decodePairs hp).le⟩

theorem compactEncodeLen_of_le {len : ℕ} (h : len ≤ 0xffffffff) :
    compactEncodeLen len = some (encodeCompact (UInt32.ofNat len)) :=
  if_neg (not_lt.mpr h)

theorem toNat_ofNat_len {len : ℕ} (h : len ≤ 0xffffffff) : (UInt32.ofNat len).toNat = len :=
  UInt32.toNat_ofNat_of_lt (by change len < 2 ^ 32; omega)

/-- A map of at most `u32::MAX` entries encodes: its prefix, then its pairs. -/
theorem encode_of_le {ek : K → List UInt8} {ev : V → List UInt8} {m : BTreeMap K V}
    (hm : m.len ≤ 0xffffffff) :
    m.encode ek ev = some (encodeCompact (UInt32.ofNat m.len) ++ encodePairs ek ev m.entries) := by
  rw [encode, compactEncodeLen_of_le hm]
  rfl

/-- **The round trip of `BTreeMap`**: a map of at most `u32::MAX` entries encodes, and
its encoding decodes to it, leaving whatever followed unread. -/
theorem decode_encode_of_len_le {ek : K → List UInt8} {ev : V → List UInt8}
    (hk : RoundTrip ek dk) (hv : RoundTrip ev dv) (m : BTreeMap K V)
    (hm : m.len ≤ 0xffffffff) (rest : Input) :
    m.encode ek ev =
        some (encodeCompact (UInt32.ofNat m.len) ++ encodePairs ek ev m.entries) ∧
      decode dk dv (encodeCompact (UInt32.ofNat m.len) ++ encodePairs ek ev m.entries ++ rest)
        = .ok m rest := by
  refine ⟨encode_of_le hm, ?_⟩
  rw [List.append_assoc, decode_of_decodeCompact (decodeCompact_encodeCompact _ _),
    toNat_ofNat_len hm, len, decodePairs_encodePairs hk hv, Decoded.bind_ok]
  exact congrArg (Decoded.ok · rest) (BTreeMap.ext (entries_ofList m.sorted))

end BTreeMap

end BoundedCollections
