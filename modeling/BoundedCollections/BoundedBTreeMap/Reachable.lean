import BoundedCollections.BoundedBTreeMap.Map
import BoundedCollections.BoundedBTreeMap.Codec
import BoundedCollections.BoundedBTreeMap.Serde

/-!
# Every reachable map is within its bound

The source promises that "all internal operations ensure this bound is respected", and
leans on it: `into_inner` only `debug_assert!`s the bound, and `map`, `try_map`,
`try_collect` and `decode` wrap what they built without checking it. This file states
the promise over whole runs. `BoundedCollections.BoundedBTreeMap.Reachable` is every
value the public API can produce: the constructors (`new`, `clone`, `try_from`,
`try_collect`, `decode`, `deserialize`), the consuming transformations (`try_mutate`,
`map`, `try_map`) and every in-place operation, `BoundedCollections.BoundedBTreeMap.Op`,
applied any number of times in any order, with any keys, closures (`try_map`'s in any
state), iterators and input bytes.

The proof is one induction, each case closed by what its operation was shown to keep
(`BoundedCollections.BoundedBTreeMap.reachable_withinBound`). Two of the cases are not
local: `decode` is within bound because the inner decoder re-reads the very length that
was checked (the compact round trip), and `map` and `try_map` because collecting keeps
every key.
-/

namespace BoundedCollections

namespace BoundedBTreeMap

variable {K V : Type} [LinearOrder K] {S : UInt32}

/-- The in-place operations of the API, with the closures and keys they take. Writing
through `get_mut`, `iter_mut` or `&mut` `IntoIterator` is a value write. -/
inductive Op (K V : Type)
  | tryInsert (k : K) (v : V)
  | remove (k : K)
  | removeEntry (k : K)
  | retain (f : K → V → Bool × V)
  | clear
  | getMut (k : K) (g : V → V)
  | iterMut (g : K → V → V)

/-- The map an in-place operation leaves, whatever it returns. -/
def Op.apply : Op K V → BoundedBTreeMap K V S → BoundedBTreeMap K V S
  | .tryInsert k v, m => (m.tryInsert k v).2
  | .remove k, m => (m.remove k).2
  | .removeEntry k, m => (m.removeEntry k).2
  | .retain f, m => m.retain f
  | .clear, m => m.clear
  | .getMut k g, m => m.getMut k g
  | .iterMut g, m => m.iterMut g

/-- The map a sequence of in-place operations leaves. -/
def run (ops : List (Op K V)) (m : BoundedBTreeMap K V S) : BoundedBTreeMap K V S :=
  ops.foldl (fun m op => op.apply m) m

/-- One in-place operation keeps the bound. -/
theorem WithinBound.apply {m : BoundedBTreeMap K V S} (h : m.WithinBound) :
    ∀ op : Op K V, (op.apply m).WithinBound
  | .tryInsert k v => h.tryInsert k v
  | .remove k => h.remove k
  | .removeEntry k => h.removeEntry k
  | .retain f => h.retain f
  | .clear => withinBound_clear
  | .getMut k g => h.getMut k g
  | .iterMut g => h.iterMut g

/-- The values the public API can produce. -/
inductive Reachable (K : Type) [LinearOrder K] (S : UInt32) :
    (V : Type) → BoundedBTreeMap K V S → Prop
  | new {V : Type} : Reachable K S V new
  | clone {V : Type} {m : BoundedBTreeMap K V S} : Reachable K S V m → Reachable K S V m.clone
  | tryFrom {V : Type} {t : BTreeMap K V} {m : BoundedBTreeMap K V S} :
      tryFrom t = .ok m → Reachable K S V m
  | tryCollect {V : Type} {it : ExactSizeIter (K × V)} {m : BoundedBTreeMap K V S} :
      tryCollect it = .ok m → Reachable K S V m
  | decode {V : Type} {dk : Decoder K} {dv : Decoder V} {inp r : Input}
      {m : BoundedBTreeMap K V S} : decode dk dv inp = .ok m r → Reachable K S V m
  | deserialize {V : Type} {map : MapAccess K V} {m : BoundedBTreeMap K V S} :
      deserialize map = .ok m → Reachable K S V m
  | tryMutate {V : Type} {m m' : BoundedBTreeMap K V S} {f : BTreeMap K V → BTreeMap K V} :
      Reachable K S V m → m.tryMutate f = some m' → Reachable K S V m'
  | map {V T : Type} {m : BoundedBTreeMap K V S} (f : K → V → T) :
      Reachable K S V m → Reachable K S T (m.map f)
  | tryMap {V T E σ : Type} {m : BoundedBTreeMap K V S} {m' : BoundedBTreeMap K T S}
      {f : σ → K → V → Except E T × σ} {s s' : σ} :
      Reachable K S V m → m.tryMap f s = (.ok m', s') → Reachable K S T m'
  | step {V : Type} {m : BoundedBTreeMap K V S} (op : Op K V) :
      Reachable K S V m → Reachable K S V (op.apply m)

/-- **Every reachable map is within its bound**, and so `into_inner`'s `debug_assert!`
never fails: over every sequence of constructions, transformations and in-place
operations, with every key, closure, iterator and input. -/
theorem reachable_withinBound {m : BoundedBTreeMap K V S} (h : Reachable K S V m) :
    m.WithinBound ∧ m.intoInner = .ok m.inner := by
  suffices hm : m.WithinBound from ⟨hm, hm.intoInner⟩
  induction h with
  | new => exact withinBound_new
  | clone _ ih => exact ih.clone
  | tryFrom h => exact withinBound_of_tryFrom h
  | tryCollect h => exact withinBound_of_tryCollect h
  | decode h => exact withinBound_of_decode h
  | deserialize h => exact withinBound_of_deserialize h
  | tryMutate _ h _ => exact withinBound_of_tryMutate h
  | map f _ ih => exact ih.map f
  | tryMap _ h ih => exact ih.tryMap h
  | step op _ ih => exact ih.apply op

/-- A key inserted into a new map under the bound `1` leaves a map within its bound. -/
theorem reachable_withinBound_insertOne :
    Reachable ℕ 1 Unit ((Op.tryInsert 0 ()).apply new) ∧
    ((Op.tryInsert 0 ()).apply (new : BoundedBTreeMap ℕ Unit 1)).WithinBound ∧
    ((Op.tryInsert 0 ()).apply (new : BoundedBTreeMap ℕ Unit 1)).intoInner =
      .ok ((Op.tryInsert 0 ()).apply (new : BoundedBTreeMap ℕ Unit 1)).inner :=
  ⟨.step _ .new, reachable_withinBound (.step _ .new)⟩

end BoundedBTreeMap

end BoundedCollections
