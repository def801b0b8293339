import BoundedCollections.BTreeMap

/-!
# The bounded map and its checked API

`BoundedBTreeMap<K, V, S>` is a `BTreeMap<K, V>` next to a `PhantomData<S>`: the
bound is not stored but read from the type, `S::get()`. Nothing in a value says that
it is within its bound; the API keeps it there, and this file is that API, one
definition per method of `impl BoundedBTreeMap`, under the method's name.

The invariant itself is `BoundedCollections.BoundedBTreeMap.WithinBound`. The
operations split as the source's comments say:

| operation | why it keeps the bound | lemma |
|---|---|---|
| `retain`, `remove`, `remove_entry`, `clear` | only shrink the map | `WithinBound.retain`, … |
| `get_mut`, `iter_mut` | write values, never keys | `WithinBound.iterMut`, … |
| `try_insert` | grows only below the bound or over a present key | `WithinBound.tryInsert` |
| `try_from`, `try_mutate`, `try_collect` | check the length | `withinBound_of_tryFrom`, … |

`try_insert` is the one that grows a map in place, and
`BoundedCollections.BoundedBTreeMap.tryInsert_spec` says all of what it does: it is
`BTreeMap::insert` exactly when the key is present or the map is not full, and a
no-op handing the pair back otherwise.

Equality is the one place the bound is compared at run time: `PartialEq` between two
bounded maps checks `S1::get() == S2::get()` before the contents, while against a plain
`BTreeMap` it compares contents alone. The contents are compared by `K`'s and `V`'s own
`==`, which are parameters here, as `partial_cmp` takes `V`'s; only where they are
equality is `==` on maps equality
(`BoundedCollections.BoundedBTreeMap.eq_iff_of_lawful`).

Rust closures are modelled by functions of their arguments, except `try_map`'s. Whether
`try_map` calls its `FnMut` closure at all past a failing key is part of what it promises,
so that closure is a function of a state `σ` as well, returning the next state, and
`try_map` returns the state it leaves the closure in. The others are called on every
entry (`retain`, `map`) or once (`try_mutate`) whatever they return.
Keys are passed by value where Rust borrows them as any `Q` with `K: Borrow<Q>`.
-/

namespace BoundedCollections

/-- Results are equal when their payloads are, so that outcomes can be decided. -/
instance instDecidableEqExcept {ε α : Type} [DecidableEq ε] [DecidableEq α] :
    DecidableEq (Except ε α)
  | .error a, .error b => decidable_of_iff (a = b) ⟨congrArg _, Except.error.inj⟩
  | .ok a, .ok b => decidable_of_iff (a = b) ⟨congrArg _, Except.ok.inj⟩
  | .error _, .ok _ => isFalse fun h => Except.noConfusion h
  | .ok _, .error _ => isFalse fun h => Except.noConfusion h

/-- `BoundedBTreeMap<K, V, S>`: the inner map; the bound `S` lives in the type. -/
@[ext]
structure BoundedBTreeMap (K V : Type) [LinearOrder K] (S : UInt32) where
  /-- Field `0`, the `BTreeMap` the bounded map derefs to. -/
  inner : BTreeMap K V

/-- An `ExactSizeIterator`, by the items it yields and the length it reports. Its trait
contract is that the two agree, and a value of this type keeps it. -/
structure ExactSizeIter (α : Type) where
  /-- What the iterator yields, in order. -/
  items : List α
  /-- What `ExactSizeIterator::len` reports. -/
  len : ℕ
  /-- The contract of `ExactSizeIterator`. -/
  exact : len = items.length

namespace BoundedBTreeMap

variable {K V : Type} [LinearOrder K] {S : UInt32}

instance : DecidablePred (Ascending (K := K) (V := V)) := fun es =>
  inferInstanceAs (Decidable (es.Pairwise _))

instance [DecidableEq K] [DecidableEq V] : DecidableEq (BoundedBTreeMap K V S) := fun a b =>
  decidable_of_iff (a.inner = b.inner) BoundedBTreeMap.ext_iff.symm

/-! ### The methods -/

/-- `BoundedBTreeMap::bound`: `S::get() as usize`, lossless on the 32- and 64-bit
targets the crate builds for. -/
def bound (S : UInt32) : ℕ := S.toNat

/-- `len`, through `Deref` to the inner map. -/
def len (m : BoundedBTreeMap K V S) : ℕ := m.inner.len

/-- `BoundedBTreeMap::unchecked_from`: wrap without any check. -/
def uncheckedFrom (t : BTreeMap K V) : BoundedBTreeMap K V S := ⟨t⟩

/-- `BoundedBTreeMap::retain`. -/
def retain (m : BoundedBTreeMap K V S) (f : K → V → Bool × V) : BoundedBTreeMap K V S :=
  ⟨m.inner.retain f⟩

/-- `BoundedBTreeMap::new`. -/
def new : BoundedBTreeMap K V S := ⟨BTreeMap.new⟩

/-- What `debug_assert!` in `into_inner` panics with. -/
def intoInnerAssertion : String := "assertion failed: self.0.len() <= Self::bound()"

/-- `BoundedBTreeMap::into_inner`, its `debug_assert!` as the error branch. -/
def intoInner (m : BoundedBTreeMap K V S) : Except String (BTreeMap K V) :=
  if m.inner.len ≤ bound S then .ok m.inner else .error intoInnerAssertion

/-- `BoundedBTreeMap::try_mutate`: mutate the inner map, then keep the result only if it
is within bound. -/
def tryMutate (m : BoundedBTreeMap K V S) (mutate : BTreeMap K V → BTreeMap K V) :
    Option (BoundedBTreeMap K V S) :=
  if (mutate m.inner).len ≤ bound S then some ⟨mutate m.inner⟩ else none

/-- `BoundedBTreeMap::clear`. -/
def clear (m : BoundedBTreeMap K V S) : BoundedBTreeMap K V S := ⟨m.inner.clear⟩

/-- Writing `g v` through the reference `BoundedBTreeMap::get_mut` returns. -/
def getMut (m : BoundedBTreeMap K V S) (k : K) (g : V → V) : BoundedBTreeMap K V S :=
  ⟨m.inner.getMut k g⟩

/-- `BoundedBTreeMap::try_insert`: `BTreeMap::insert` when the map has room or already
holds the key; otherwise the pair comes back and the map is untouched. -/
def tryInsert (m : BoundedBTreeMap K V S) (k : K) (v : V) :
    Except (K × V) (Option V) × BoundedBTreeMap K V S :=
  if decide (m.len < bound S) || m.inner.containsKey k then
    (.ok (m.inner.insert k v).1, ⟨(m.inner.insert k v).2⟩)
  else (.error (k, v), m)

/-- `BoundedBTreeMap::remove`. -/
def remove (m : BoundedBTreeMap K V S) (k : K) : Option V × BoundedBTreeMap K V S :=
  ((m.inner.remove k).1, ⟨(m.inner.remove k).2⟩)

/-- `BoundedBTreeMap::remove_entry`. -/
def removeEntry (m : BoundedBTreeMap K V S) (k : K) : Option (K × V) × BoundedBTreeMap K V S :=
  ((m.inner.removeEntry k).1, ⟨(m.inner.removeEntry k).2⟩)

/-- Writing through `BoundedBTreeMap::iter_mut`, or through `&mut` `IntoIterator`,
which is the same iterator. -/
def iterMut (m : BoundedBTreeMap K V S) (g : K → V → V) : BoundedBTreeMap K V S :=
  ⟨m.inner.iterMut g⟩

/-- `BoundedBTreeMap::map`: the pairs transformed and collected, then wrapped unchecked. -/
def map {T : Type} (m : BoundedBTreeMap K V S) (f : K → V → T) : BoundedBTreeMap K T S :=
  uncheckedFrom (BTreeMap.ofList (m.inner.entries.map fun e => (e.1, f e.1 e.2)))

/-- The iteration `try_map` collects into `Result`: the pairs go in ascending key order
through the `FnMut` closure `f`, whose state is `σ`, until the first error. It returns the
transformed pairs or that error, and the closure's state when it stopped. -/
def tryMapPairs {σ T E : Type} (f : σ → K → V → Except E T × σ) :
    σ → List (K × V) → Except E (List (K × T)) × σ
  | s, [] => (.ok [], s)
  | s, (k, v) :: es =>
    match f s k v with
    | (.error err, s') => (.error err, s')
    | (.ok t, s') => ((tryMapPairs f s' es).1.map ((k, t) :: ·), (tryMapPairs f s' es).2)

/-- `BoundedBTreeMap::try_map`, the closure started in state `s`: the collected pairs
wrapped unchecked, or the first error, with the closure's final state. -/
def tryMap {σ T E : Type} (m : BoundedBTreeMap K V S) (f : σ → K → V → Except E T × σ)
    (s : σ) : Except E (BoundedBTreeMap K T S) × σ :=
  ((tryMapPairs f s m.inner.entries).1.map fun l => uncheckedFrom (BTreeMap.ofList l),
    (tryMapPairs f s m.inner.entries).2)

/-- `BoundedBTreeMap::is_full`. -/
def isFull (m : BoundedBTreeMap K V S) : Bool := decide (m.len ≥ bound S)

instance : Inhabited (BoundedBTreeMap K V S) := ⟨new⟩

/-- `Clone`: a copy of the inner map. -/
def clone (m : BoundedBTreeMap K V S) : BoundedBTreeMap K V S := ⟨m.inner⟩

/-- `TryFrom<BTreeMap<K, V>>`. -/
def tryFrom (t : BTreeMap K V) : Except Unit (BoundedBTreeMap K V S) :=
  if t.len ≤ bound S then .ok ⟨t⟩ else .error ()

/-- `TryCollect::try_collect` over an `ExactSizeIterator`: its reported length is checked,
then the pairs are collected and wrapped unchecked. -/
def tryCollect (it : ExactSizeIter (K × V)) : Except String (BoundedBTreeMap K V S) :=
  if it.len > bound S then .error "iterator length too big"
  else .ok (uncheckedFrom (BTreeMap.ofList it.items))

/-- `PartialEq<BoundedBTreeMap<K, V, S1>> for BoundedBTreeMap<K, V, S2>`: the bounds
agree, and so do the inner maps under `K`'s and `V`'s `==`, `pk` and `pv`. -/
def eq {S1 S2 : UInt32} (pk : K → K → Bool) (pv : V → V → Bool)
    (self : BoundedBTreeMap K V S2) (other : BoundedBTreeMap K V S1) : Bool :=
  S1 == S2 && self.inner.eq pk pv other.inner

/-- `PartialEq<BTreeMap<K, V>> for BoundedBTreeMap<K, V, S>`: the inner map alone. -/
def eqBTreeMap (pk : K → K → Bool) (pv : V → V → Bool) (self : BoundedBTreeMap K V S)
    (other : BTreeMap K V) : Bool :=
  self.inner.eq pk pv other

/-! ### The invariant, operation by operation -/

/-- The invariant the API keeps: no more entries than the bound. -/
def WithinBound (m : BoundedBTreeMap K V S) : Prop := m.len ≤ bound S

instance : DecidablePred (WithinBound (K := K) (V := V) (S := S)) := fun m =>
  inferInstanceAs (Decidable (m.len ≤ bound S))

section Invariant

variable {m : BoundedBTreeMap K V S}

theorem withinBound_new : (new : BoundedBTreeMap K V S).WithinBound := Nat.zero_le _

theorem withinBound_clear : m.clear.WithinBound := Nat.zero_le _

theorem WithinBound.clone (h : m.WithinBound) : m.clone.WithinBound := h

theorem WithinBound.retain (h : m.WithinBound) (f : K → V → Bool × V) :
    (m.retain f).WithinBound :=
  (BTreeMap.len_retain_le f).trans h

theorem WithinBound.remove (h : m.WithinBound) (k : K) : (m.remove k).2.WithinBound :=
  BTreeMap.len_remove_le.trans h

theorem WithinBound.removeEntry (h : m.WithinBound) (k : K) :
    (m.removeEntry k).2.WithinBound :=
  BTreeMap.len_removeEntry_le.trans h

theorem WithinBound.iterMut (h : m.WithinBound) (g : K → V → V) : (m.iterMut g).WithinBound :=
  (BTreeMap.len_iterMut g).trans_le h

theorem WithinBound.getMut (h : m.WithinBound) (k : K) (g : V → V) :
    (m.getMut k g).WithinBound :=
  (BTreeMap.len_getMut g).trans_le h

/-- The `debug_assert!` of `into_inner` holds on every map within its bound. -/
theorem WithinBound.intoInner (h : m.WithinBound) : m.intoInner = .ok m.inner :=
  if_pos h

theorem withinBound_of_tryFrom {t : BTreeMap K V} (h : tryFrom t = .ok m) : m.WithinBound := by
  unfold tryFrom at h
  split_ifs at h with ht
  cases h
  exact ht

theorem withinBound_of_tryMutate {f : BTreeMap K V → BTreeMap K V}
    {m' : BoundedBTreeMap K V S} (h : m.tryMutate f = some m') : m'.WithinBound := by
  unfold tryMutate at h
  split_ifs at h with ht
  cases h
  exact ht

theorem withinBound_of_tryCollect {it : ExactSizeIter (K × V)} (h : tryCollect it = .ok m) :
    m.WithinBound := by
  unfold tryCollect at h
  split_ifs at h with ht
  cases h
  calc (BTreeMap.ofList it.items).len ≤ it.items.length := BTreeMap.len_ofList_le _
    _ = it.len := it.exact.symm
    _ ≤ bound S := not_lt.mp ht

end Invariant

/-! ### `try_insert` -/

section TryInsert

variable {m : BoundedBTreeMap K V S} {k : K} {v : V}

theorem tryInsert_of_room (h : m.inner.containsKey k = true ∨ m.len < bound S) :
    m.tryInsert k v = (.ok (m.inner.get? k), ⟨(m.inner.insert k v).2⟩) := by
  rw [tryInsert, if_pos (by rcases h with h | h <;> simp [h])]
  rfl

theorem tryInsert_of_full (hk : m.inner.containsKey k = false) (hfull : bound S ≤ m.len) :
    m.tryInsert k v = (.error (k, v), m) := by
  rw [tryInsert, if_neg (by simp [hk, hfull])]

theorem len_tryInsert_of_room (h : m.inner.containsKey k = true ∨ m.len < bound S) :
    (m.tryInsert k v).2.len = m.len + if m.inner.containsKey k then 0 else 1 := by
  rw [tryInsert_of_room h]
  exact BTreeMap.len_insert

/-- What `try_insert` can do: with the key present or room to spare, `BTreeMap::insert`;
with the key new and the map full, hand the pair back and change nothing. -/
theorem tryInsert_cases (m : BoundedBTreeMap K V S) (k : K) (v : V) :
    ((m.inner.containsKey k = true ∨ m.len < bound S) ∧
      m.tryInsert k v = (.ok (m.inner.get? k), ⟨(m.inner.insert k v).2⟩)) ∨
    (m.inner.containsKey k = false ∧ bound S ≤ m.len ∧
      m.tryInsert k v = (.error (k, v), m)) := by
  by_cases h : m.inner.containsKey k = true ∨ m.len < bound S
  · exact .inl ⟨h, tryInsert_of_room h⟩
  · push_neg at h
    have hk : m.inner.containsKey k = false := by simpa using h.1
    exact .inr ⟨hk, h.2, tryInsert_of_full hk h.2⟩

theorem WithinBound.tryInsert (hm : m.WithinBound) (k : K) (v : V) :
    (m.tryInsert k v).2.WithinBound := by
  rcases tryInsert_cases m k v with ⟨h, -⟩ | ⟨-, -, he⟩
  · unfold WithinBound
    rw [len_tryInsert_of_room h]
    split_ifs with hk
    · exact hm
    · exact h.resolve_left hk
  · rw [he]
    exact hm

/-- **`try_insert` is the bounded `BTreeMap::insert`.** On a map within its bound: with
the key present or room to spare it is `BTreeMap::insert`, returning the value the key
had, and the length grows by one exactly when the key was new, staying within the bound;
with the key new and the map at its bound it hands the very pair back and changes
nothing. So it fails exactly when the map is full and the key is new. -/
theorem tryInsert_spec (hm : m.WithinBound) (k : K) (v : V) :
    ((m.inner.containsKey k = true ∨ m.len < bound S) →
      m.tryInsert k v = (.ok (m.inner.get? k), ⟨(m.inner.insert k v).2⟩) ∧
      (m.tryInsert k v).2.len = m.len + (if m.inner.containsKey k then 0 else 1) ∧
      (m.tryInsert k v).2.len ≤ bound S) ∧
    ((m.inner.containsKey k = false ∧ m.len = bound S) →
      m.tryInsert k v = (.error (k, v), m)) ∧
    ((m.tryInsert k v).1.isOk = false ↔ m.isFull = true ∧ m.inner.containsKey k = false) := by
  refine ⟨fun h => ⟨tryInsert_of_room h, len_tryInsert_of_room h, hm.tryInsert k v⟩,
    fun h => tryInsert_of_full h.1 h.2.ge, ?_⟩
  rcases tryInsert_cases m k v with ⟨h, he⟩ | ⟨hk, hfull, he⟩ <;>
    simp only [he, Except.isOk, Except.toBool, isFull, decide_eq_true_eq]
  · rcases h with h | h <;> simp [h]
  · simp [hk, hfull]

/-- The map of the source's `try_insert_works`, keys `1`, `2`, `3` under the bound `4`,
is within its bound, and inserting `0` fails exactly when it is full and lacks the key. -/
theorem tryInsert_spec_keysOneToThree :
    (⟨⟨[(1, ()), (2, ()), (3, ())], by decide⟩⟩ : BoundedBTreeMap ℕ Unit 4).WithinBound ∧
    (((⟨⟨[(1, ()), (2, ()), (3, ())], by decide⟩⟩ : BoundedBTreeMap ℕ Unit 4).tryInsert 0
        ()).1.isOk = false ↔
      (⟨⟨[(1, ()), (2, ()), (3, ())], by decide⟩⟩ : BoundedBTreeMap ℕ Unit 4).isFull =
        true ∧
      (⟨⟨[(1, ()), (2, ()), (3, ())], by decide⟩⟩ :
        BoundedBTreeMap ℕ Unit 4).inner.containsKey 0 = false) :=
  ⟨by decide, (tryInsert_spec (by decide) 0 ()).2.2⟩

/-- **`try_insert` changes at most the value of its key.** Under every other key the map
holds what it held; under the key it holds the new value when the insert succeeded, and
what it held when it failed. -/
theorem get?_tryInsert (m : BoundedBTreeMap K V S) (k : K) (v : V) (k' : K) :
    (m.tryInsert k v).2.inner.get? k' =
      if (m.tryInsert k v).1.isOk = true ∧ k = k' then some v else m.inner.get? k' := by
  rcases tryInsert_cases m k v with ⟨-, he⟩ | ⟨-, -, he⟩ <;> rw [he]
  · simpa [Except.isOk, Except.toBool] using BTreeMap.get?_insert k'
  · simp [Except.isOk, Except.toBool]

/-- Every lookup after `try_insert`, by its guard. -/
theorem get?_tryInsert_eq_ite (k' : K) :
    (m.tryInsert k v).2.inner.get? k' =
      if (m.inner.containsKey k = true ∨ m.len < bound S) ∧ k = k' then some v
      else m.inner.get? k' := by
  rcases tryInsert_cases m k v with ⟨h, he⟩ | ⟨hk, hfull, he⟩ <;> rw [he]
  · simpa only [h, true_and] using BTreeMap.get?_insert k'
  · rw [if_neg fun h => by simp [hk, not_lt.mpr hfull] at h]

/-- The length after `try_insert`, by its guard. -/
theorem len_tryInsert_eq_ite :
    (m.tryInsert k v).2.len =
      m.len + if m.inner.containsKey k = false ∧ m.len < bound S then 1 else 0 := by
  rcases tryInsert_cases m k v with ⟨h, he⟩ | ⟨hk, hfull, he⟩
  · rw [len_tryInsert_of_room h]
    cases hc : m.inner.containsKey k <;> simp_all
  · rw [he, if_neg fun h => absurd h.2 (not_lt.mpr hfull)]
    rfl

theorem containsKey_tryInsert_of_ne {k' : K} (h : k ≠ k') :
    (m.tryInsert k v).2.inner.containsKey k' = m.inner.containsKey k' := by
  rw [BTreeMap.containsKey, get?_tryInsert_eq_ite, if_neg fun h' => h h'.2]
  rfl

/-- Lookups after two inserts of distinct keys: the second insert's guard sees the first
one's key only through the length. -/
theorem get?_tryInsert_tryInsert {k₁ k₂ : K} (hk : k₁ ≠ k₂) (v₁ v₂ : V) (k' : K) :
    ((m.tryInsert k₁ v₁).2.tryInsert k₂ v₂).2.inner.get? k' =
      if (m.inner.containsKey k₂ = true ∨ m.len +
          (if m.inner.containsKey k₁ = false ∧ m.len < bound S then 1 else 0) < bound S) ∧ k₂ = k'
      then some v₂
      else if (m.inner.containsKey k₁ = true ∨ m.len < bound S) ∧ k₁ = k' then some v₁
      else m.inner.get? k' := by
  rw [get?_tryInsert_eq_ite, containsKey_tryInsert_of_ne hk, len_tryInsert_eq_ite,
    get?_tryInsert_eq_ite]

/-- **Inserts of two keys commute, unless they race for the last slot.** Two `try_insert`s
of distinct keys leave the same map in either order, except when both keys are new and
the map has exactly one slot left: then the first takes it and the second is refused, so
the order decides which key is kept. -/
theorem tryInsert_comm_iff (m : BoundedBTreeMap K V S) {k₁ k₂ : K} (hk : k₁ ≠ k₂)
    (v₁ v₂ : V) :
    ((m.tryInsert k₁ v₁).2.tryInsert k₂ v₂).2 = ((m.tryInsert k₂ v₂).2.tryInsert k₁ v₁).2 ↔
      ¬(m.inner.containsKey k₁ = false ∧ m.inner.containsKey k₂ = false ∧
        m.len + 1 = bound S) := by
  constructor
  · rintro heq ⟨h1, h2, hL⟩
    have hnone : m.inner.get? k₁ = none := by simpa [BTreeMap.containsKey] using h1
    have h := congrArg (fun m => m.inner.get? k₁) heq
    simp [get?_tryInsert_tryInsert hk, get?_tryInsert_tryInsert hk.symm, h1, h2, hk.symm, hnone,
      show m.len < bound S by omega, show ¬m.len + 1 < bound S by omega] at h
  · intro hne
    -- away from the race, each insert is granted in one order exactly when in the other
    have hacc : ∀ c c' : Bool, ¬(c = false ∧ c' = false ∧ m.len + 1 = bound S) →
        ((c = true ∨ m.len < bound S) ↔
          (c = true ∨ m.len + (if c' = false ∧ m.len < bound S then 1 else 0) < bound S)) := by
      intro c c' h
      cases c <;> cases c' <;> simp only [Bool.true_eq_false, Bool.false_eq_true, true_and,
        false_and, and_false, and_self, not_false_eq_true, true_or, false_or, ite_false,
        Nat.add_zero] at h ⊢
      split_ifs <;> omega
    refine BoundedBTreeMap.ext (BTreeMap.ext_get? fun k' => ?_)
    simp only [get?_tryInsert_tryInsert hk, get?_tryInsert_tryInsert hk.symm, ← hacc _ _ hne,
      ← hacc _ _ fun h => hne ⟨h.2.1, h.1, h.2.2⟩]
    exact ite_ite_comm _ _ _ _ fun h₂ h₁ => hk (h₁.2.trans h₂.2.symm)

/-- Two keys into a new map under the bound `1`: the order decides which is kept. -/
theorem tryInsert_comm_iff_lastSlot :
    (0 : ℕ) ≠ 1 ∧
    (((new : BoundedBTreeMap ℕ Unit 1).tryInsert 0 ()).2.tryInsert 1 ()).2 ≠
      (((new : BoundedBTreeMap ℕ Unit 1).tryInsert 1 ()).2.tryInsert 0 ()).2 :=
  ⟨by decide, (tryInsert_comm_iff new (by decide) () ()).not.mpr (by decide)⟩

/-- **`remove` and `try_insert` undo each other.** A new key inserted into a map with
room is granted, and removing it returns its value and gives the map back. On a map
within its bound, removing a key and inserting its value again is granted – the removal
made room – and gives the map back. -/
theorem remove_tryInsert_inverse (m : BoundedBTreeMap K V S) (k : K) (v : V) :
    (m.inner.get? k = none → m.len < bound S →
      (m.tryInsert k v).1 = .ok none ∧ (m.tryInsert k v).2.remove k = (some v, m)) ∧
    (m.WithinBound → m.inner.get? k = some v →
      (m.remove k).1 = some v ∧ (m.remove k).2.tryInsert k v = (.ok none, m)) := by
  refine ⟨fun hk hroom => ?_, fun hm hk => ⟨hk, ?_⟩⟩
  · rw [tryInsert_of_room (.inr hroom), hk]
    refine ⟨rfl, Prod.ext (by simp [remove, BTreeMap.remove, BTreeMap.get?_insert]) ?_⟩
    refine BoundedBTreeMap.ext (BTreeMap.ext_get? fun k' => ?_)
    change ((m.inner.insert k v).2.remove k).2.get? k' = m.inner.get? k'
    rw [BTreeMap.get?_remove, BTreeMap.get?_insert]
    split_ifs with h
    · exact h ▸ hk.symm
    · rfl
  · have hroom : (m.remove k).2.len < bound S :=
      Nat.lt_of_succ_le ((BTreeMap.len_remove_of_get? hk).trans_le hm)
    rw [tryInsert_of_room (.inr hroom)]
    refine Prod.ext (by simp [remove, BTreeMap.get?_remove]) ?_
    refine BoundedBTreeMap.ext (BTreeMap.ext_get? fun k' => ?_)
    change ((m.inner.remove k).2.insert k v).2.get? k' = m.inner.get? k'
    rw [BTreeMap.get?_insert, BTreeMap.get?_remove]
    split_ifs with h
    · exact h ▸ hk.symm
    · rfl

end TryInsert

/-! ### Equality -/

section Equality

variable {pk : K → K → Bool} {pv : V → V → Bool}

/-- With `==` on keys and on values that is equality, `==` between bounded maps is
agreement of the bounds and of the contents. -/
theorem eq_iff_of_lawful {S1 S2 : UInt32} (hk : ∀ x y, pk x y = true ↔ x = y)
    (hv : ∀ x y, pv x y = true ↔ x = y) (a : BoundedBTreeMap K V S2)
    (b : BoundedBTreeMap K V S1) : a.eq pk pv b = true ↔ S1 = S2 ∧ a.inner = b.inner := by
  rw [eq, Bool.and_eq_true, beq_iff_eq, BTreeMap.eq_iff_of_lawful hk hv]

example : (⟨⟨[(0, ())], by decide⟩⟩ : BoundedBTreeMap ℕ Unit 2).eq (fun x y => decide (x = y))
    (fun _ _ => true) (⟨⟨[(0, ())], by decide⟩⟩ : BoundedBTreeMap ℕ Unit 1) = false := by decide

end Equality

end BoundedBTreeMap

end BoundedCollections
