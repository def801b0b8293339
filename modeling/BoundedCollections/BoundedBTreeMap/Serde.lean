import BoundedCollections.BoundedBTreeMap.Basic

/-!
# Deserializing with serde

`Deserialize` visits a map entry by entry. `BTreeMapVisitor::visit_map` first refuses a
size hint above the bound, then reads key after key; before reading the value of a key
it checks the running count, and refuses the entry once the map it has built holds as
many entries as the bound. What it builds is then handed to `try_from`, whose error
branch reports "failed to create a BoundedBTreeMap from the provided map".

That branch is dead: the loop inserts only below the bound, so what it returns is
always within it (`BoundedCollections.BoundedBTreeMap.deserialize_eq_visitMap`).

The count is checked whatever the key. A key already in a full map is refused, though
inserting it would not grow the map and `try_insert` accepts it
(`BoundedCollections.BoundedBTreeMap.deserialize_refuses_present_key`). On the streams
it accepts, the visitor agrees with folding `try_insert`
(`BoundedCollections.BoundedBTreeMap.foldTryInsert_of_deserialize`), and
`BoundedCollections.BoundedBTreeMap.deserialize_ok_entries` gives both acceptance
conditions exactly: they differ only on a present key in a full map. On what `Serialize`
writes, the entries of a map in ascending key order, it gives the map back exactly when
the map is within the bound
(`BoundedCollections.BoundedBTreeMap.deserialize_ascending_entries`).

The loop returns at its first error, so a refused entry ends the read: whatever follows
it in the stream is never consulted
(`BoundedCollections.BoundedBTreeMap.deserialize_append_of_error`).

The deserializer is taken to hold a map: what `deserialize_map` hands the visitor is a
`BoundedCollections.MapAccess`, its size hint and its entries, each a key that
deserialized with its value or the value's error, or the error of a key.
-/

namespace BoundedCollections

/-- One entry of a serde map, as `MapAccess` hands it out. -/
inductive MapEntry (K V : Type)
  /-- `next_key` gave a key; `next_value` gives this. -/
  | entry (k : K) (v : Except String V)
  /-- `next_key` failed. -/
  | keyError (e : String)

/-- A `MapAccess`: its `size_hint`, and what `next_key` and `next_value` yield until
`next_key` returns `None`. -/
structure MapAccess (K V : Type) where
  /-- `MapAccess::size_hint`. -/
  sizeHint : Option ℕ
  /-- The entries, in the order the format presents them. -/
  entries : List (MapEntry K V)

namespace BoundedBTreeMap

variable {K V : Type} [LinearOrder K] {S : UInt32}

/-! ### The visitor -/

/-- The error of a map past the bound. -/
def boundsExceeded : String := "map exceeds the size of the bounds"

/-- The error of the final conversion. -/
def failedToCreate : String := "failed to create a BoundedBTreeMap from the provided map"

/-- The `while let Some(key) = map.next_key()?` loop of `visit_map`. -/
def visitEntries (max : ℕ) (values : BTreeMap K V) :
    List (MapEntry K V) → Except String (BTreeMap K V)
  | [] => .ok values
  | .keyError e :: _ => .error e
  | .entry k v :: rest =>
    if values.len ≥ max then .error boundsExceeded
    else
      match v with
      | .error e => .error e
      | .ok v => visitEntries max (values.insert k v).2 rest

/-- `BTreeMapVisitor::visit_map`. -/
def visitMap (S : UInt32) (map : MapAccess K V) : Except String (BTreeMap K V) :=
  if map.sizeHint.getD 0 > bound S then .error boundsExceeded
  else visitEntries (bound S) BTreeMap.new map.entries

/-- `<BoundedBTreeMap<K, V, S> as Deserialize>::deserialize`, on a deserializer that
holds a map. -/
def deserialize (map : MapAccess K V) : Except String (BoundedBTreeMap K V S) :=
  (visitMap S map).bind fun v =>
    match tryFrom v with
    | .ok m => .ok m
    | .error () => .error failedToCreate

/-- Folding `try_insert` over pairs, in order: the map the inserts leave, or the first
pair refused. The checked path the visitor is compared with. -/
def foldTryInsert (m : BoundedBTreeMap K V S) :
    List (K × V) → Except (K × V) (BoundedBTreeMap K V S)
  | [] => .ok m
  | (k, v) :: rest =>
    match m.tryInsert k v with
    | (.ok _, m') => foldTryInsert m' rest
    | (.error p, _) => .error p

/-! ### The loop stays within the bound -/

/-- One turn of the loop: an entry is inserted only below the bound. -/
theorem len_insert_of_lt {values : BTreeMap K V} {max : ℕ} (h : values.len < max) (k : K)
    (v : V) : (values.insert k v).2.len ≤ max :=
  BTreeMap.len_insert_le.trans h

/-- The whole loop, from any map within the bound. -/
theorem len_of_visitEntries {max : ℕ} {values v : BTreeMap K V} {es : List (MapEntry K V)}
    (h : values.len ≤ max) (hv : visitEntries max values es = .ok v) : v.len ≤ max := by
  induction es generalizing values with
  | nil => cases hv; exact h
  | cons e es ih =>
    cases e with
    | keyError e => cases hv
    | entry k x =>
      simp only [visitEntries] at hv
      split_ifs at hv with hlen
      cases x with
      | error e => cases hv
      | ok x => exact ih (len_insert_of_lt (not_le.mp hlen) k x) hv

theorem len_of_visitMap {map : MapAccess K V} {v : BTreeMap K V} (h : visitMap S map = .ok v) :
    v.len ≤ bound S := by
  unfold visitMap at h
  split_ifs at h
  exact len_of_visitEntries (Nat.zero_le _) h

theorem deserialize_eq_map_visitMap (map : MapAccess K V) :
    deserialize (S := S) map = (visitMap S map).map fun v => ⟨v⟩ := by
  unfold deserialize
  cases hv : visitMap S map with
  | error e => rfl
  | ok v => simp only [Except.bind, Except.map, tryFrom, if_pos (len_of_visitMap hv)]

/-- A map `deserialize` returns is what the visitor built. -/
theorem visitMap_of_deserialize {map : MapAccess K V} {m : BoundedBTreeMap K V S}
    (h : deserialize map = .ok m) : visitMap S map = .ok m.inner := by
  rw [deserialize_eq_map_visitMap] at h
  cases hv : visitMap S map with
  | error e => rw [hv] at h; cases h
  | ok v => rw [hv] at h; cases h; rfl

theorem withinBound_of_deserialize {map : MapAccess K V} {m : BoundedBTreeMap K V S}
    (h : deserialize map = .ok m) : m.WithinBound :=
  len_of_visitMap (visitMap_of_deserialize h)

/-- **The safety net of `deserialize` is dead code.** The loop of `visit_map` keeps the
map within the bound on every turn, from any map within it; so whatever the visitor
returns passes `try_from`, and `deserialize` is the visitor's result, wrapped. -/
theorem deserialize_eq_visitMap (map : MapAccess K V) :
    (∀ (values : BTreeMap K V) (es : List (MapEntry K V)) (v : BTreeMap K V),
      values.len ≤ bound S → visitEntries (bound S) values es = .ok v → v.len ≤ bound S) ∧
    (∀ v, visitMap S map = .ok v → tryFrom (S := S) v = .ok ⟨v⟩) ∧
    deserialize (S := S) map = (visitMap S map).map fun v => ⟨v⟩ :=
  ⟨fun _ _ _ h hv => len_of_visitEntries h hv, fun _ hv => if_pos (len_of_visitMap hv),
    deserialize_eq_map_visitMap map⟩

/-! ### Errors are final -/

/-- **A key already present is refused once the map is full.** Under the bound `1`, the
stream `0: 0, 0: 1` – no size hint, every key and value deserializing – is refused by
the visitor, though its second entry only overwrites the first and folding `try_insert`
takes both. -/
theorem deserialize_refuses_present_key :
    deserialize (S := 1) (⟨none, [.entry 0 (.ok 0), .entry 0 (.ok 1)]⟩ : MapAccess ℕ ℕ) =
      .error boundsExceeded ∧
    foldTryInsert (new : BoundedBTreeMap ℕ ℕ 1) [(0, 0), (0, 1)] =
      .ok ⟨⟨[(0, 1)], by decide⟩⟩ := by
  decide

/-- The loop on a stream of entries that all deserialize: it takes them all exactly when
each arrives while the map built so far holds fewer than `max` keys, and returns what
collecting them gives. -/
theorem visitEntries_map_ok (max : ℕ) (values : BTreeMap K V) (es : List (K × V)) :
    visitEntries max values (es.map fun e => .entry e.1 (.ok e.2)) =
      if ∀ i < es.length, ((es.take i).foldl (fun m e => (m.insert e.1 e.2).2) values).len < max
      then .ok (es.foldl (fun m e => (m.insert e.1 e.2).2) values) else .error boundsExceeded := by
  induction es generalizing values with
  | nil => simp [visitEntries]
  | cons e es ih =>
    simp only [List.map_cons, visitEntries, List.length_cons, Nat.forall_lt_succ_left,
      List.take_zero, List.foldl_nil, List.take_succ_cons, List.foldl_cons, ih]
    by_cases h : max ≤ values.len
    · rw [if_pos h, if_neg fun hc => absurd hc.1 (not_lt.mpr h)]
    · rw [if_neg h]
      simp only [not_le.mp h, true_and]

/-- Folding `try_insert` takes every pair exactly when each one's key is already held, or
arrives while fewer than the bound are. -/
theorem foldTryInsert_eq_ok_iff (m : BoundedBTreeMap K V S) (es : List (K × V)) :
    foldTryInsert m es = .ok ⟨es.foldl (fun m e => (m.insert e.1 e.2).2) m.inner⟩ ↔
      ∀ i (h : i < es.length),
        ((es.take i).foldl (fun m e => (m.insert e.1 e.2).2) m.inner).containsKey
            (es.get ⟨i, h⟩).1 ∨
          ((es.take i).foldl (fun m e => (m.insert e.1 e.2).2) m.inner).len < bound S := by
  induction es generalizing m with
  | nil => simp [foldTryInsert]
  | cons e es ih =>
    simp only [List.length_cons]
    rw [Nat.forall_lt_succ_left']
    simp only [List.take_zero, List.foldl_nil, List.take_succ_cons, List.foldl_cons, List.get]
    rcases tryInsert_cases m e.1 e.2 with ⟨h, he⟩ | ⟨hk, hfull, he⟩
    · have h' : m.inner.containsKey e.1 = true ∨ m.inner.len < bound S := h
      rw [foldTryInsert, he]
      simpa only [h', true_and] using ih ⟨(m.inner.insert e.1 e.2).2⟩
    · have hfull' : bound S ≤ m.inner.len := hfull
      rw [foldTryInsert, he]
      simp [hk, not_lt.mpr hfull']

/-- **Exactly which streams each path accepts.** On entries that all deserialize, under a
size hint the bound allows, `deserialize` returns the collected map – the last value of
each key – exactly when every entry arrives while the map built so far holds fewer keys
than the bound, and otherwise fails with "map exceeds the size of the bounds"; folding
`try_insert` accepts exactly when every entry's key is already held or arrives while
fewer keys than the bound are. The two differ in one case only: a key already present in
a full map. -/
theorem deserialize_ok_entries (es : List (K × V)) (hint : Option ℕ)
    (hhint : hint.getD 0 ≤ bound S) :
    deserialize (S := S) ⟨hint, es.map fun e => .entry e.1 (.ok e.2)⟩ =
      (if ∀ i < es.length, (BTreeMap.ofList (es.take i)).len < bound S
        then .ok ⟨BTreeMap.ofList es⟩ else .error boundsExceeded) ∧
    (foldTryInsert (new : BoundedBTreeMap K V S) es = .ok ⟨BTreeMap.ofList es⟩ ↔
      ∀ i (h : i < es.length), (BTreeMap.ofList (es.take i)).containsKey (es.get ⟨i, h⟩).1 ∨
        (BTreeMap.ofList (es.take i)).len < bound S) := by
  refine ⟨?_, foldTryInsert_eq_ok_iff new es⟩
  rw [deserialize_eq_map_visitMap, visitMap, if_neg (not_lt.mpr hhint), visitEntries_map_ok]
  simp only [BTreeMap.foldl_insert_new]
  split_ifs <;> rfl

/-- The stream `0: 0, 0: 1` under the bound `1`: refused by `deserialize`, taken by the
`try_insert` fold. -/
theorem deserialize_ok_entries_repeatedKey :
    (none : Option ℕ).getD 0 ≤ bound 1 ∧
    deserialize (S := 1) ⟨none, [(0, 0), (0, 1)].map fun e => .entry e.1 (.ok e.2)⟩ =
      (.error boundsExceeded : Except String (BoundedBTreeMap ℕ ℕ 1)) ∧
    foldTryInsert (new : BoundedBTreeMap ℕ ℕ 1) [(0, 0), (0, 1)] =
      .ok ⟨BTreeMap.ofList [(0, 0), (0, 1)]⟩ :=
  ⟨by decide, ((deserialize_ok_entries _ none (by decide)).1).trans (by decide),
    (deserialize_ok_entries [(0, 0), (0, 1)] none (by decide)).2.mpr (by decide)⟩

/-- **Whatever the visitor accepts, `try_insert` accepts.** On a stream whose keys and
values all deserialize, a map `deserialize` returns is the one folding `try_insert`
over the entries gives. -/
theorem foldTryInsert_of_deserialize {hint : Option ℕ} {es : List (K × V)}
    {m : BoundedBTreeMap K V S}
    (h : deserialize ⟨hint, es.map fun e => .entry e.1 (.ok e.2)⟩ = .ok m) :
    foldTryInsert new es = .ok m := by
  obtain ⟨inner⟩ := m
  have hv := visitMap_of_deserialize h
  unfold visitMap at hv
  split_ifs at hv
  rw [visitEntries_map_ok] at hv
  split_ifs at hv with hall
  cases hv
  exact (foldTryInsert_eq_ok_iff new es).mpr fun i hi => .inr (hall i hi)

/-- Two keys under the bound `2`: deserialized, and the same map folding `try_insert`. -/
theorem foldTryInsert_of_deserialize_twoKeys :
    deserialize (S := 2) ⟨none, [(0, 0), (1, 1)].map fun e => .entry e.1 (.ok e.2)⟩ =
      .ok (⟨⟨[(0, 0), (1, 1)], by decide⟩⟩ : BoundedBTreeMap ℕ ℕ 2) ∧
    foldTryInsert (new : BoundedBTreeMap ℕ ℕ 2) [(0, 0), (1, 1)] =
      .ok ⟨⟨[(0, 0), (1, 1)], by decide⟩⟩ :=
  (fun h => ⟨h, foldTryInsert_of_deserialize h⟩) (by decide)

/-! ### Reading a map back -/

/-- **The serde round trip.** `Serialize` writes the inner map, its entries in ascending
key order. Read back under any size hint the bound allows (`serde_json` gives none), they
deserialize to the map itself when it is within the bound, and otherwise are refused with
"map exceeds the size of the bounds" when the entry past the bound arrives. -/
theorem deserialize_ascending_entries (t : BTreeMap K V) {hint : Option ℕ}
    (hhint : hint.getD 0 ≤ bound S) :
    deserialize (S := S) ⟨hint, t.entries.map fun e => .entry e.1 (.ok e.2)⟩ =
      if t.len ≤ bound S then .ok ⟨t⟩ else .error boundsExceeded := by
  have htake : ∀ i, (BTreeMap.ofList (t.entries.take i)).len = min i t.len := fun i => by
    rw [BTreeMap.len, BTreeMap.entries_ofList (t.sorted.sublist (List.take_sublist _ _)),
      List.length_take]
    rfl
  have hcond : (∀ i < t.entries.length, (BTreeMap.ofList (t.entries.take i)).len < bound S) ↔
      t.len ≤ bound S := by
    have ht : t.len = t.entries.length := rfl
    simp only [htake]
    exact ⟨fun h => not_lt.mp fun hlt => by have := h (bound S) (by omega); omega,
      fun h i hi => by omega⟩
  rw [deserialize_eq_map_visitMap, visitMap, if_neg (not_lt.mpr hhint), visitEntries_map_ok]
  simp only [BTreeMap.foldl_insert_new, hcond]
  split_ifs
  · exact congrArg (fun t => (.ok ⟨t⟩ : Except String (BoundedBTreeMap K V S)))
      (BTreeMap.ext (BTreeMap.entries_ofList t.sorted))
  · rfl

/-- The source's `test_bounded_btreemap_deserializer_failed`: five keys under the bound
`4` are refused. -/
theorem deserialize_ascending_entries_fiveKeys :
    (none : Option ℕ).getD 0 ≤ bound 4 ∧
    deserialize (S := 4) ⟨none, (⟨[(0, 100), (1, 101), (2, 102), (3, 103), (4, 104)],
        by decide⟩ : BTreeMap ℕ ℕ).entries.map fun e => .entry e.1 (.ok e.2)⟩ =
      .error boundsExceeded :=
  ⟨by decide, (deserialize_ascending_entries _ (by decide)).trans (by decide)⟩

end BoundedBTreeMap

end BoundedCollections
