import BoundedCollections.BoundedBTreeMap.Reachable

/-!
# What the bounded map is for

Everything before this file is stated on the model of the code: entry lists, and the
operations the source calls on them. This file says what those operations are *for*, on
a model with no order and no layout, and shows that the code's model refines it.

A `BoundedCollections.FiniteMap` is a lookup together with its finite set of keys – a
finite map and nothing more. A bounded map of capacity `B` is then specified by one
operation, `BoundedCollections.FiniteMap.tryInsert`: a present key is overwritten, a new
key is added only while fewer than `B` keys are held, and otherwise the insert is
refused. Every other in-place operation of the API only rewrites or drops values
(`BoundedCollections.BoundedBTreeMap.Op.spec`), and none of them can take the map past
its capacity (`BoundedCollections.BoundedBTreeMap.size_spec_le`).

The abstraction function reads a `BTreeMap` as its lookup and its set of keys; since keys
ascend strictly, `len` is the number of keys. The main result,
`BoundedCollections.BoundedBTreeMap.run_refines`, is a simulation over whole runs: every
sequence of in-place operations, applied to any bounded map, is seen through the
abstraction exactly as the same sequence applied to the abstract map. The bound on the
code's map thereby follows a second time, from the specification alone.

The abstraction forgets nothing – keys ascend, so a map is its lookups – and so the
simulation is an equivalence: two runs leave the same map exactly when their abstract runs
agree (`BoundedCollections.BoundedBTreeMap.run_eq_run_iff`).
-/

namespace BoundedCollections

/-- A finite map: a lookup, and the finitely many keys that have a value. -/
structure FiniteMap (K V : Type) [DecidableEq K] where
  /-- The value under each key, if any. -/
  lookup : K → Option V
  /-- The keys that have a value. -/
  keys : Finset K
  /-- `keys` are exactly the keys that have a value. -/
  mem_keys : ∀ k, k ∈ keys ↔ (lookup k).isSome

namespace FiniteMap

variable {K V : Type} [DecidableEq K]

/-- Two finite maps with the same lookups are equal: the keys follow. -/
theorem ext_lookup {s t : FiniteMap K V} (h : ∀ k, s.lookup k = t.lookup k) : s = t := by
  obtain ⟨f, ks, hs⟩ := s
  obtain ⟨g, kt, ht⟩ := t
  obtain rfl : f = g := funext h
  obtain rfl : ks = kt := Finset.ext fun k => (hs k).trans (ht k).symm
  rfl

/-! ### The operations -/

/-- The number of keys. -/
def size (s : FiniteMap K V) : ℕ := s.keys.card

/-- The map with no keys. -/
def empty : FiniteMap K V := ⟨fun _ => none, ∅, fun _ => by simp⟩

/-- The value of `k` set to `v`. -/
def insert (s : FiniteMap K V) (k : K) (v : V) : FiniteMap K V where
  lookup k' := if k = k' then some v else s.lookup k'
  keys := Insert.insert k s.keys
  mem_keys k' := by
    by_cases h : k = k'
    · simp [h]
    · simp [h, Ne.symm h, s.mem_keys]

/-- The key `k` without a value. -/
def erase (s : FiniteMap K V) (k : K) : FiniteMap K V where
  lookup k' := if k = k' then none else s.lookup k'
  keys := s.keys.erase k
  mem_keys k' := by
    by_cases h : k = k'
    · simp [h]
    · simp [h, Ne.symm h, s.mem_keys]

/-- Every value rewritten by `g`; no key added or dropped. -/
def mapValues (s : FiniteMap K V) (g : K → V → V) : FiniteMap K V where
  lookup k := (s.lookup k).map (g k)
  keys := s.keys
  mem_keys k := by simp [s.mem_keys]

/-- The value under each key kept and rewritten, or dropped, as `f` says. -/
def retain (s : FiniteMap K V) (f : K → V → Bool × V) : FiniteMap K V where
  lookup k := (s.lookup k).bind fun v => if (f k v).1 then some (f k v).2 else none
  keys := s.keys.filter fun k =>
    ((s.lookup k).bind fun v => if (f k v).1 then some (f k v).2 else none).isSome
  mem_keys k := by
    rw [Finset.mem_filter, s.mem_keys]
    exact ⟨And.right, fun h => ⟨by cases hk : s.lookup k <;> simp_all, h⟩⟩

/-- **The bounded insert, as specified.** Under the capacity `B`, a present key is
overwritten and a new one is added only while fewer than `B` keys are held; otherwise
the insert is refused. -/
def tryInsert (B : ℕ) (s : FiniteMap K V) (k : K) (v : V) : Option (FiniteMap K V) :=
  if (s.lookup k).isSome ∨ s.size < B then some (s.insert k v) else none

/-! ### How each operation moves the number of keys -/

section Size

variable {s : FiniteMap K V}

theorem size_insert (k : K) (v : V) :
    (s.insert k v).size = s.size + if (s.lookup k).isSome then 0 else 1 := by
  unfold size insert
  split_ifs with h
  · exact Finset.card_insert_of_mem ((s.mem_keys k).mpr h)
  · exact Finset.card_insert_of_not_mem (mt (s.mem_keys k).mp h)

theorem size_erase_le (k : K) : (s.erase k).size ≤ s.size := Finset.card_erase_le

theorem size_retain_le (f : K → V → Bool × V) : (s.retain f).size ≤ s.size :=
  Finset.card_filter_le _ _

/-- A granted insert keeps the capacity. -/
theorem size_le_of_tryInsert {B : ℕ} {k : K} {v : V} {s' : FiniteMap K V} (hs : s.size ≤ B)
    (h : s.tryInsert B k v = some s') : s'.size ≤ B := by
  unfold tryInsert at h
  split_ifs at h with hroom
  cases h
  rw [size_insert]
  split_ifs with hk
  · exact hs
  · exact hroom.resolve_left hk

end Size

end FiniteMap

/-- A `BTreeMap` read as a finite map: its lookup, and its keys. -/
def BTreeMap.toFiniteMap {K V : Type} [LinearOrder K] (t : BTreeMap K V) : FiniteMap K V where
  lookup := t.get?
  keys := (t.entries.map Prod.fst).toFinset
  mem_keys k := by
    rw [List.mem_toFinset, BTreeMap.get?, Option.isSome_map', findEntry_isSome_iff]

/-- Keys do not repeat, so the length of a map is its number of keys. -/
theorem BTreeMap.size_toFiniteMap {K V : Type} [LinearOrder K] (t : BTreeMap K V) :
    t.toFiniteMap.size = t.len :=
  (List.toFinset_card_of_nodup t.nodup_keys).trans (List.length_map _ _)

namespace BoundedBTreeMap

variable {K V : Type} [LinearOrder K] {S : UInt32}

/-! ### The specification of each in-place operation -/

/-- What an in-place operation is specified to do to the abstract map under the capacity
`B`: a refused insert leaves it as it was, and the rest only rewrite or drop values. -/
def Op.spec (B : ℕ) : Op K V → FiniteMap K V → FiniteMap K V
  | .tryInsert k v, s => (s.tryInsert B k v).getD s
  | .remove k, s => s.erase k
  | .removeEntry k, s => s.erase k
  | .retain f, s => s.retain f
  | .clear, _ => FiniteMap.empty
  | .getMut k g, s => s.mapValues fun k' v => if k' = k then g v else v
  | .iterMut g, s => s.mapValues g

/-- A sequence of in-place operations on the abstract map. -/
def specRun (B : ℕ) (ops : List (Op K V)) (s : FiniteMap K V) : FiniteMap K V :=
  ops.foldl (fun s op => op.spec B s) s

/-- No operation takes the abstract map past its capacity. -/
theorem size_spec_le {B : ℕ} {s : FiniteMap K V} (hs : s.size ≤ B) :
    ∀ op : Op K V, (op.spec B s).size ≤ B
  | .tryInsert k v => by
    show ((s.tryInsert B k v).getD s).size ≤ B
    cases h : s.tryInsert B k v with
    | none => exact hs
    | some s' => exact FiniteMap.size_le_of_tryInsert hs h
  | .remove k => (FiniteMap.size_erase_le k).trans hs
  | .removeEntry k => (FiniteMap.size_erase_le k).trans hs
  | .retain f => (FiniteMap.size_retain_le f).trans hs
  | .clear => Nat.zero_le _
  | .getMut _ _ => hs
  | .iterMut _ => hs

theorem size_specRun_le {B : ℕ} (ops : List (Op K V)) {s : FiniteMap K V} (hs : s.size ≤ B) :
    (specRun B ops s).size ≤ B := by
  induction ops generalizing s with
  | nil => exact hs
  | cons op ops ih => exact ih (size_spec_le hs op)

/-! ### The code refines the specification -/

/-- One in-place operation of the code, seen through the abstraction, is its
specification. -/
theorem toFiniteMap_apply (op : Op K V) (m : BoundedBTreeMap K V S) :
    (op.apply m).inner.toFiniteMap = op.spec (bound S) m.inner.toFiniteMap := by
  cases op with
  | tryInsert k v =>
    have hguard : ((m.inner.toFiniteMap.lookup k).isSome ∨
        m.inner.toFiniteMap.size < bound S) ↔ (m.inner.containsKey k ∨ m.len < bound S) := by
      rw [BTreeMap.size_toFiniteMap]
      rfl
    simp only [Op.apply, Op.spec, FiniteMap.tryInsert]
    rcases tryInsert_cases m k v with ⟨h, he⟩ | ⟨hk, hfull, he⟩
    · rw [he, if_pos (hguard.mpr h)]
      exact FiniteMap.ext_lookup fun k' => BTreeMap.get?_insert k'
    · rw [he, if_neg (mt hguard.mp (by simp [hk, not_lt.mpr hfull]))]
      rfl
  | remove k => exact FiniteMap.ext_lookup fun k' => BTreeMap.get?_remove k'
  | removeEntry k => exact FiniteMap.ext_lookup fun k' => BTreeMap.get?_removeEntry k'
  | retain f => exact FiniteMap.ext_lookup fun k => BTreeMap.get?_retain f k
  | clear => exact FiniteMap.ext_lookup fun _ => rfl
  | getMut k g => exact FiniteMap.ext_lookup fun k' => BTreeMap.get?_iterMut _ k'
  | iterMut g => exact FiniteMap.ext_lookup fun k => BTreeMap.get?_iterMut g k

/-- The simulation, step after step, over a whole run. -/
theorem toFiniteMap_run (ops : List (Op K V)) (m : BoundedBTreeMap K V S) :
    (run ops m).inner.toFiniteMap = specRun (bound S) ops m.inner.toFiniteMap := by
  induction ops generalizing m with
  | nil => rfl
  | cons op ops ih => exact (ih (op.apply m)).trans (congrArg _ (toFiniteMap_apply op m))

/-- The abstraction forgets nothing: keys ascend, so a map is its lookups. -/
theorem toFiniteMap_inj {m₁ m₂ : BoundedBTreeMap K V S} :
    m₁.inner.toFiniteMap = m₂.inner.toFiniteMap ↔ m₁ = m₂ :=
  ⟨fun h => BoundedBTreeMap.ext (BTreeMap.ext_get? (congrFun (congrArg FiniteMap.lookup h))),
    congrArg (fun m : BoundedBTreeMap K V S => m.inner.toFiniteMap)⟩

/-- **Runs are equal exactly when their specifications are.** Two sequences of in-place
operations, from any two bounded maps, leave the same map exactly when they leave the same
abstract map: the code's state is determined by what the specification says of it, and
any equation between runs can be proved, or refuted, on finite maps. -/
theorem run_eq_run_iff (ops₁ ops₂ : List (Op K V)) (m₁ m₂ : BoundedBTreeMap K V S) :
    run ops₁ m₁ = run ops₂ m₂ ↔
      specRun (bound S) ops₁ m₁.inner.toFiniteMap =
        specRun (bound S) ops₂ m₂.inner.toFiniteMap := by
  rw [← toFiniteMap_run, ← toFiniteMap_run, toFiniteMap_inj]

/-- **The code refines its specification, over whole runs.** Every sequence of in-place
operations, applied to any bounded map, gives the map whose lookups and keys are those
the same sequence gives on the abstract finite map, under the capacity `bound S`; its
length is the abstract number of keys, and from a map within its bound the abstract run
stays within the capacity on its own. -/
theorem run_refines (ops : List (Op K V)) (m : BoundedBTreeMap K V S) :
    (run ops m).inner.toFiniteMap = specRun (bound S) ops m.inner.toFiniteMap ∧
    (run ops m).len = (specRun (bound S) ops m.inner.toFiniteMap).size ∧
    (m.WithinBound → (specRun (bound S) ops m.inner.toFiniteMap).size ≤ bound S) := by
  have hrun := toFiniteMap_run ops m
  refine ⟨hrun, ?_, fun hm => size_specRun_le ops ?_⟩
  · rw [← hrun, BTreeMap.size_toFiniteMap]
    rfl
  · rw [BTreeMap.size_toFiniteMap]
    exact hm

end BoundedBTreeMap

end BoundedCollections
