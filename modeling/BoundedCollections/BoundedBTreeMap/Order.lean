import BoundedCollections.BoundedBTreeMap.Basic

/-!
# Comparing bounded maps

`Ord` and `PartialOrd` of the bounded map hand the comparison to the inner maps, and
`BTreeMap` compares what its iterators yield: `self.iter().cmp(other.iter())`. That is
`Iterator::cmp`, lexicographic over the entries in ascending key order, each entry a
tuple `(&K, &V)` compared by its key and then by its value; the first entry that differs
decides, and a map whose entries run out first is the lesser.
`BoundedCollections.BoundedBTreeMap.partialCmp` is the same walk with `partial_cmp`,
which for the values is `V`'s own, a parameter here.

Rust asks three things of an `Ord`: that it be a total order, that it answer `Equal`
exactly where `==` holds, and that `partial_cmp` be `Some` of it. It asks the same of
`K`'s and `V`'s, and from theirs `BoundedCollections.BoundedBTreeMap.cmp_coherent`
derives all three for the maps. The bound takes no part: `==` compares bounds only
between maps of two bound types (`BoundedCollections.BoundedBTreeMap.eq`), and `cmp` is
declared on one.

The laws of the entry comparison are proved once, on entry lists, by induction on the
first list; the comparison of one entry is the library's `compareLex`, whose laws
Batteries provides.
-/

namespace BoundedCollections

variable {K V : Type} [LinearOrder K]

/-! ### Comparing entry sequences -/

section Entries

variable [LinearOrder V]

/-- `Ord for (&K, &V)`: the keys, then the values. -/
def cmpPair : K × V → K × V → Ordering :=
  compareLex (compareOn Prod.fst) (compareOn Prod.snd)

/-- `Iterator::cmp`: the first entry that differs decides, and the sequence that runs out
first is the lesser. -/
def cmpEntries : List (K × V) → List (K × V) → Ordering
  | [], [] => .eq
  | [], _ :: _ => .lt
  | _ :: _, [] => .gt
  | a :: as, b :: bs => (cmpPair a b).then (cmpEntries as bs)

/-- `PartialOrd for (&K, &V)`: the keys by their order, then the values by `V`'s
`partial_cmp`, `pv`. -/
def partialCmpPair (pv : V → V → Option Ordering) (a b : K × V) : Option Ordering :=
  match compare a.1 b.1 with
  | .eq => pv a.2 b.2
  | o => some o

/-- `Iterator::partial_cmp`: as `Iterator::cmp`, stopping at the first entry that does not
compare `Some(Equal)`. -/
def partialCmpEntries (pv : V → V → Option Ordering) :
    List (K × V) → List (K × V) → Option Ordering
  | [], [] => some .eq
  | [], _ :: _ => some .lt
  | _ :: _, [] => some .gt
  | a :: as, b :: bs =>
    match partialCmpPair pv a b with
    | some .eq => partialCmpEntries pv as bs
    | o => o

instance : Batteries.TransCmp (cmpPair (K := K) (V := V)) :=
  inferInstanceAs (Batteries.TransCmp (compareLex _ _))

theorem cmpPair_eq_iff {a b : K × V} : cmpPair a b = .eq ↔ a = b := by
  rw [cmpPair, compareLex, Ordering.then_eq_eq, compareOn, compareOn, compare_eq_iff_eq,
    compare_eq_iff_eq, Prod.ext_iff]

theorem cmpEntries_swap : ∀ as bs : List (K × V), (cmpEntries as bs).swap = cmpEntries bs as
  | [], [] | [], _ :: _ | _ :: _, [] => rfl
  | a :: as, b :: bs => by
    rw [cmpEntries, cmpEntries, Ordering.swap_then, Batteries.OrientedCmp.symm, cmpEntries_swap]

theorem cmpEntries_eq_iff : ∀ {as bs : List (K × V)}, cmpEntries as bs = .eq ↔ as = bs
  | [], [] => iff_of_true rfl rfl
  | [], _ :: _ | _ :: _, [] => iff_of_false Ordering.noConfusion List.noConfusion
  | a :: as, b :: bs => by
    rw [cmpEntries, Ordering.then_eq_eq, cmpPair_eq_iff, cmpEntries_eq_iff, List.cons_eq_cons]

/-- Transitivity, in the form `Batteries.TransCmp` asks: not greater, then not greater.
At the first entries, they decide unless equal, and past equal ones the tails do. -/
theorem cmpEntries_le_trans : ∀ {as bs cs : List (K × V)},
    cmpEntries as bs ≠ .gt → cmpEntries bs cs ≠ .gt → cmpEntries as cs ≠ .gt
  | [], _, [], _, _ | [], _, _ :: _, _, _ => Ordering.noConfusion
  | _ :: _, [], _, h, _ | _ :: _, _ :: _, [], _, h => absurd rfl h
  | a :: as, b :: bs, c :: cs, h₁, h₂ => by
    simp only [cmpEntries, ne_eq, Ordering.then_eq_gt, not_or, not_and] at h₁ h₂ ⊢
    refine ⟨Batteries.TransCmp.le_trans h₁.1 h₂.1, fun hac hrest => ?_⟩
    match hab : cmpPair a b with
    | .gt => exact h₁.1 hab
    | .eq =>
      exact cmpEntries_le_trans (h₁.2 hab)
        (h₂.2 (Batteries.TransCmp.cmp_congr_left hab ▸ hac)) hrest
    | .lt =>
      exact h₂.1 (Batteries.OrientedCmp.cmp_eq_gt.2
        (Batteries.TransCmp.cmp_congr_left hac ▸ hab))

/-- On totally ordered values, `partial_cmp` is `Some` of `cmp`. -/
theorem partialCmpEntries_compare : ∀ as bs : List (K × V),
    partialCmpEntries (fun x y => some (compare x y)) as bs = some (cmpEntries as bs)
  | [], [] | [], _ :: _ | _ :: _, [] => rfl
  | a :: as, b :: bs => by
    rw [partialCmpEntries, partialCmpEntries_compare as bs, cmpEntries, partialCmpPair, cmpPair,
      compareLex, compareOn, compareOn]
    cases compare a.1 b.1 <;> cases compare a.2 b.2 <;> rfl

end Entries

/-! ### The maps -/

namespace BTreeMap

/-- `Ord for BTreeMap<K, V>`: `self.iter().cmp(other.iter())`. -/
def cmp [LinearOrder V] (self other : BTreeMap K V) : Ordering :=
  cmpEntries self.entries other.entries

/-- `PartialOrd for BTreeMap<K, V>`: `self.iter().partial_cmp(other.iter())`, the values
compared by `pv`. -/
def partialCmp (pv : V → V → Option Ordering) (self other : BTreeMap K V) : Option Ordering :=
  partialCmpEntries pv self.entries other.entries

end BTreeMap

namespace BoundedBTreeMap

variable {S : UInt32}

/-- `Ord for BoundedBTreeMap`: `self.0.cmp(&other.0)`. -/
def cmp [LinearOrder V] (self other : BoundedBTreeMap K V S) : Ordering :=
  self.inner.cmp other.inner

/-- `PartialOrd for BoundedBTreeMap`: `self.0.partial_cmp(&other.0)`. -/
def partialCmp (pv : V → V → Option Ordering) (self other : BoundedBTreeMap K V S) :
    Option Ordering :=
  self.inner.partialCmp pv other.inner

variable [LinearOrder V]

instance : Batteries.TransCmp (fun a b : BoundedBTreeMap K V S => a.cmp b) where
  symm a b := cmpEntries_swap a.inner.entries b.inner.entries
  le_trans := cmpEntries_le_trans

/-- **`Ord`, `PartialEq` and `PartialOrd` agree.** Where `K`'s and `V`'s `==` answer as
their `Ord` does, `cmp` is a total order on the maps of one bound (antisymmetric and
transitive, as `Batteries.TransCmp` states); it answers `Equal` exactly when `==` holds; and
on totally ordered values `partial_cmp` is `Some` of `cmp`. -/
theorem cmp_coherent {pk : K → K → Bool} {pv : V → V → Bool}
    (hk : ∀ x y, pk x y = true ↔ compare x y = .eq)
    (hv : ∀ x y, pv x y = true ↔ compare x y = .eq) :
    Batteries.TransCmp (fun a b : BoundedBTreeMap K V S => a.cmp b) ∧
    (∀ a b : BoundedBTreeMap K V S, a.cmp b = .eq ↔ a.eq pk pv b = true) ∧
    ∀ a b : BoundedBTreeMap K V S,
      a.partialCmp (fun x y => some (compare x y)) b = some (a.cmp b) := by
  refine ⟨inferInstance, fun a b => ?_, fun a b => partialCmpEntries_compare _ _⟩
  rw [cmp, BTreeMap.cmp, cmpEntries_eq_iff,
    eq_iff_of_lawful (fun x y => (hk x y).trans compare_eq_iff_eq)
      (fun x y => (hv x y).trans compare_eq_iff_eq), BTreeMap.ext_iff]
  exact (and_iff_right rfl).symm

/-- On natural-number keys and values under the bound `2`, with `==` deciding equality. -/
theorem cmp_coherent_natEq :
    (∀ x y : ℕ, decide (x = y) = true ↔ compare x y = .eq) ∧
    Batteries.TransCmp (fun a b : BoundedBTreeMap ℕ ℕ 2 => a.cmp b) ∧
    (∀ a b : BoundedBTreeMap ℕ ℕ 2,
      a.cmp b = .eq ↔ a.eq (fun x y => decide (x = y)) (fun x y => decide (x = y)) b = true) ∧
    ∀ a b : BoundedBTreeMap ℕ ℕ 2,
      a.partialCmp (fun x y => some (compare x y)) b = some (a.cmp b) :=
  have h : ∀ x y : ℕ, decide (x = y) = true ↔ compare x y = .eq := fun _ _ =>
    decide_eq_true_iff.trans compare_eq_iff_eq.symm
  ⟨h, cmp_coherent h h⟩

end BoundedBTreeMap

end BoundedCollections
