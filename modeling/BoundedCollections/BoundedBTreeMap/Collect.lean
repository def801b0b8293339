import BoundedCollections.BoundedBTreeMap.Codec
import BoundedCollections.BoundedBTreeMap.Serde

/-!
# Building a map from a sequence of pairs

Three constructors of the API take a sequence of pairs that nothing forces to be sorted
or free of repeated keys: `try_collect` takes an iterator, `decode` a SCALE payload and
`deserialize` a serde map. All three end by collecting, `FromIterator`, which keeps the
last value of each key (`BoundedCollections.BTreeMap.get?_ofList`). What differs is how
each checks the bound.

`try_collect` checks the length the iterator reports, that is the number of pairs and not
of keys (`BoundedCollections.BoundedBTreeMap.tryCollect_spec`): an iterator of more pairs
than the bound is refused even when they share a few keys.

`decode` checks the length prefix before reading a pair, and `deserialize` checks the
size hint and then, pair after pair, the map built so far. Where the format reports the
length exactly, the two agree on every sequence of pairs
(`BoundedCollections.BoundedBTreeMap.decode_deserialize_agree`): both accept exactly the
sequences of at most `bound S` pairs, and give the same map. (Without a size hint the
visitor's running check is the one of `deserialize_ok_entries`.)

A payload `decode` accepts need not be an encoding: its pairs may be out of order or
repeat a key. Decoding normalises it – the map returned re-encodes canonically and reads
back to itself (`BoundedCollections.BoundedBTreeMap.decode_encode_of_decode`) – and the
other readers of the same bytes follow `decode` on it: `skip` stops where `decode` stops,
and `DecodeLength::len` reports the announced length, which overcounts the map exactly
when keys repeat (`BoundedCollections.BoundedBTreeMap.skip_decodeLength_of_decode`).
-/

namespace BoundedCollections

namespace BoundedBTreeMap

variable {K V : Type} [LinearOrder K] {S : UInt32}

/-! ### `try_collect` -/

/-- **`try_collect` checks the number of pairs, and keeps the last value of each key.**
An iterator reporting more pairs than the bound is refused; otherwise the map holds, under
each key, the value of the last pair with that key, and has one entry per distinct key. -/
theorem tryCollect_spec (it : ExactSizeIter (K × V)) :
    (bound S < it.len → tryCollect (S := S) it = .error "iterator length too big") ∧
    (it.len ≤ bound S → ∃ m : BoundedBTreeMap K V S, tryCollect it = .ok m ∧
      (∀ k, m.inner.get? k = (it.items.reverse.find? fun e => e.1 = k).map Prod.snd) ∧
      m.len = (it.items.map Prod.fst).toFinset.card) :=
  ⟨fun h => if_pos h, fun h => ⟨uncheckedFrom (BTreeMap.ofList it.items),
    if_neg (not_lt.mpr h), BTreeMap.get?_ofList it.items, BTreeMap.len_ofList it.items⟩⟩

/-- Three pairs of one key under the bound `2`: refused, though they collect to a map of
one entry. -/
theorem tryCollect_spec_repeatedKey :
    bound 2 < (⟨[(0, 0), (0, 1), (0, 2)], 3, rfl⟩ : ExactSizeIter (ℕ × ℕ)).len ∧
    tryCollect (S := 2) (⟨[(0, 0), (0, 1), (0, 2)], 3, rfl⟩ : ExactSizeIter (ℕ × ℕ)) =
      .error "iterator length too big" ∧
    (BTreeMap.ofList [(0, 0), (0, 1), (0, 2)]).len = 1 :=
  ⟨by decide, (tryCollect_spec _).1 (by decide), by decide⟩

/-! ### `decode` and `deserialize` -/

section Agree

variable {ek : K → List UInt8} {ev : V → List UInt8} {dk : Decoder K} {dv : Decoder V}

/-- The pairs after a prefix the bound allows decode and are collected. -/
theorem decode_encodePairs (hk : RoundTrip ek dk) (hv : RoundTrip ev dv) (es : List (K × V))
    (hes : es.length ≤ bound S) (rest : Input) :
    decode (S := S) dk dv (encodeCompact (UInt32.ofNat es.length) ++ encodePairs ek ev es ++ rest)
      = .ok ⟨BTreeMap.ofList es⟩ rest := by
  have hlen : es.length ≤ 0xffffffff := hes.trans (Nat.le_of_lt_succ S.toNat_lt_size)
  have hc := decodeCompact_encodeCompact (UInt32.ofNat es.length) (encodePairs ek ev es ++ rest)
  rw [← List.append_assoc] at hc
  have hn : UInt32.ofNat es.length ≤ S := by
    change (UInt32.ofNat es.length).toNat ≤ S.toNat
    rw [BTreeMap.toNat_ofNat_len hlen]
    exact hes
  rw [decode_of_le hc hn, BTreeMap.decode_of_decodeCompact hc, BTreeMap.toNat_ofNat_len hlen,
    decodePairs_encodePairs hk hv, Decoded.bind_ok, Decoded.bind_ok]

/-- Under a size hint the bound allows, every pair arrives while the map built so far
holds fewer keys than pairs were read, so the running check never fires. -/
theorem deserialize_exactHint (es : List (K × V)) (hes : es.length ≤ bound S) :
    deserialize (S := S) ⟨some es.length, es.map fun e => .entry e.1 (.ok e.2)⟩ =
      .ok ⟨BTreeMap.ofList es⟩ := by
  rw [deserialize_eq_map_visitMap, visitMap,
    if_neg (not_lt.mpr (show (some es.length).getD 0 ≤ bound S from hes)), visitEntries_map_ok,
    if_pos fun i hi => ?_]
  · rfl
  · calc ((es.take i).foldl (fun m e => (m.insert e.1 e.2).2) BTreeMap.new).len
        ≤ BTreeMap.new.len + (es.take i).length := BTreeMap.len_foldl_insert_le _ _
      _ = (es.take i).length := Nat.zero_add _
      _ ≤ i := List.length_take_le _ _
      _ < bound S := hi.trans_le hes

/-- **SCALE `decode` and serde `deserialize` agree on every sequence of pairs.** Given as
an encoding – the length, then the pairs – or as a serde map whose format reports its
length, a sequence of pairs in any order, keys repeated or not, is accepted by both
exactly when it has at most `bound S` pairs, and both then give the map collecting it
yields. Past the bound, `decode` stops after the prefix with "BoundedBTreeMap exceeds its
limit" and `deserialize` refuses with "map exceeds the size of the bounds". -/
theorem decode_deserialize_agree (hk : RoundTrip ek dk) (hv : RoundTrip ev dv)
    (es : List (K × V)) (hes : es.length ≤ 0xffffffff) (rest : Input) :
    (es.length ≤ bound S →
      decode (S := S) dk dv
          (encodeCompact (UInt32.ofNat es.length) ++ encodePairs ek ev es ++ rest) =
        .ok ⟨BTreeMap.ofList es⟩ rest ∧
      deserialize (S := S) ⟨some es.length, es.map fun e => .entry e.1 (.ok e.2)⟩ =
        .ok ⟨BTreeMap.ofList es⟩) ∧
    (bound S < es.length →
      decode (S := S) dk dv
          (encodeCompact (UInt32.ofNat es.length) ++ encodePairs ek ev es ++ rest) =
        .err exceedsItsLimit (encodePairs ek ev es ++ rest) ∧
      deserialize (S := S) ⟨some es.length, es.map fun e => .entry e.1 (.ok e.2)⟩ =
        .error boundsExceeded) := by
  refine ⟨fun h => ⟨decode_encodePairs hk hv es h rest, deserialize_exactHint es h⟩,
    fun h => ⟨?_, ?_⟩⟩
  · have hn : S < UInt32.ofNat es.length := by
      change S.toNat < (UInt32.ofNat es.length).toNat
      rw [BTreeMap.toNat_ofNat_len hes]
      exact h
    rw [decode, List.append_assoc, decodeCompact_encodeCompact, Decoded.bind_ok, if_pos hn]
  · rw [deserialize_eq_map_visitMap, visitMap,
      if_pos (show bound S < (some es.length).getD 0 from h)]
    rfl

/-- Two pairs of one key under the bound `2`, a `()` key and a compact value: both
decoders take them and keep the later value. -/
theorem decode_deserialize_agree_repeatedKey :
    RoundTrip (fun _ : Unit => []) unitDecoder ∧ RoundTrip encodeCompact compactDecoder ∧
    [((), (5 : UInt32)), ((), 7)].length ≤ 0xffffffff ∧
    [((), (5 : UInt32)), ((), 7)].length ≤ bound 2 ∧
    (decode (S := 2) unitDecoder compactDecoder
        (encodeCompact (UInt32.ofNat [((), (5 : UInt32)), ((), 7)].length) ++
          encodePairs (fun _ => []) encodeCompact [((), 5), ((), 7)] ++ []) =
      .ok ⟨BTreeMap.ofList [((), 5), ((), 7)]⟩ [] ∧
    deserialize (S := 2) ⟨some [((), (5 : UInt32)), ((), 7)].length,
        [((), (5 : UInt32)), ((), 7)].map fun e => .entry e.1 (.ok e.2)⟩ =
      .ok ⟨BTreeMap.ofList [((), 5), ((), 7)]⟩) ∧
    (BTreeMap.ofList [((), (5 : UInt32)), ((), 7)]).entries = [((), 7)] :=
  ⟨roundTrip_unit, roundTrip_compact, by decide, by decide,
    (decode_deserialize_agree roundTrip_unit roundTrip_compact [((), 5), ((), 7)] (by decide)
      []).1 (by decide),
    by decide⟩

/-! ### Reading an accepted payload -/

/-- **Decoding normalises.** Whatever payload `decode` accepts – pairs out of order, keys
repeated – the map it returns has an encoding, the canonical one (keys ascending, each
once), and that encoding decodes back to the map, whatever follows it. -/
theorem decode_encode_of_decode (hk : RoundTrip ek dk) (hv : RoundTrip ev dv) {inp r : Input}
    {m : BoundedBTreeMap K V S} (h : decode dk dv inp = .ok m r) (rest : Input) :
    ∃ bytes, m.encode ek ev = some bytes ∧ decode dk dv (bytes ++ rest) = .ok m rest := by
  have hm := withinBound_of_decode h
  have hlen : m.len ≤ 0xffffffff := hm.trans (Nat.le_of_lt_succ S.toNat_lt_size)
  refine ⟨encodeCompact (UInt32.ofNat m.len) ++ encodePairs ek ev m.inner.entries ++
    encodePhantomData, by rw [encode, BTreeMap.encode_of_le hlen]; rfl, ?_⟩
  rw [encodePhantomData, List.append_nil]
  have hdec := decode_encodePairs (S := S) hk hv m.inner.entries hm rest
  rwa [BTreeMap.ext (BTreeMap.entries_ofList m.inner.sorted)] at hdec

/-- A payload of two pairs of one key under the bound `2` decodes to the map of the later
pair, whose own encoding, one pair long, decodes back to it. -/
theorem decode_encode_of_decode_repeatedKey :
    RoundTrip (fun _ : Unit => []) unitDecoder ∧ RoundTrip encodeCompact compactDecoder ∧
    decode (S := 2) unitDecoder compactDecoder [8, 20, 28] =
      .ok ⟨⟨[((), 7)], by decide⟩⟩ [] ∧
    ∃ bytes, (⟨⟨[((), 7)], by decide⟩⟩ : BoundedBTreeMap Unit UInt32 2).encode (fun _ => [])
        encodeCompact = some bytes ∧
      decode (S := 2) unitDecoder compactDecoder (bytes ++ []) =
        .ok ⟨⟨[((), 7)], by decide⟩⟩ [] :=
  (fun h => ⟨roundTrip_unit, roundTrip_compact, h,
    decode_encode_of_decode roundTrip_unit roundTrip_compact h []⟩) (by decide)

/-- **`skip` and `DecodeLength::len` agree with `decode` on what it accepts.** On a payload
`decode` accepts, `skip` accepts it too and leaves the input where `decode` does; and
`DecodeLength::len` reads the announced length, within the bound: the number of pairs that
followed the prefix, of which the map keeps the last of each key, so that it is longer than
the map exactly when a key repeats. -/
theorem skip_decodeLength_of_decode {inp r : Input} {m : BoundedBTreeMap K V S}
    (h : decode dk dv inp = .ok m r) :
    skip dk dv inp = .ok () r ∧
    ∃ n r' es, decodeCompact inp = .ok n r' ∧ decodePairs dk dv n.toNat r' = .ok es r ∧
      m.inner = BTreeMap.ofList es ∧ decodeLength inp = .ok n.toNat ∧ n.toNat ≤ bound S ∧
      (m.len < n.toNat ↔ ¬(es.map Prod.fst).Nodup) := by
  obtain ⟨n, r', hc, h'⟩ := Decoded.bind_eq_ok h
  have hn : n ≤ S := UInt32.not_lt.mp fun hlt => by rw [if_pos hlt] at h'; cases h'
  rw [decode_of_le hc hn] at h
  obtain ⟨t, r'', ht, he⟩ := Decoded.bind_eq_ok h
  cases he
  have hskip : skip dk dv inp = .ok () r := by rw [skip, BTreeMap.skip, ht]; rfl
  rw [BTreeMap.decode_of_decodeCompact hc] at ht
  obtain ⟨es, r₂, hp, he⟩ := Decoded.bind_eq_ok ht
  cases he
  refine ⟨hskip, n, r', es, hc, hp, rfl, by rw [decodeLength, BTreeMap.decodeLength, hc], hn, ?_⟩
  rw [← length_of_decodePairs hp]
  exact BTreeMap.len_ofList_lt_iff es

/-- Two pairs of one key under the bound `2`: skipped whole, and announced as two against
the one entry of the map decoded. -/
theorem skip_decodeLength_of_decode_repeatedKey :
    decode (S := 2) unitDecoder compactDecoder [8, 20, 28] =
      .ok ⟨⟨[((), (7 : UInt32))], by decide⟩⟩ [] ∧
    skip unitDecoder compactDecoder [8, 20, 28] = .ok () [] ∧
    decodeLength [8, 20, 28] = .ok 2 ∧
    (⟨⟨[((), (7 : UInt32))], by decide⟩⟩ : BoundedBTreeMap Unit UInt32 2).len < 2 := by
  have h : decode (S := 2) unitDecoder compactDecoder [8, 20, 28] =
      .ok ⟨⟨[((), (7 : UInt32))], by decide⟩⟩ [] := by decide
  obtain ⟨hs, n, r', es, hc, hp, -, hl, -, hlt⟩ := skip_decodeLength_of_decode h
  rw [show decodeCompact [8, 20, 28] = .ok 2 [20, 28] by decide] at hc
  cases hc
  rw [show decodePairs unitDecoder compactDecoder (UInt32.toNat 2) [20, 28] =
    .ok [((), 5), ((), 7)] [] by decide] at hp
  cases hp
  exact ⟨h, hs, hl, hlt.2 (by decide)⟩

end Agree

end BoundedBTreeMap

end BoundedCollections
