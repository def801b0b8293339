import BoundedCollections.BoundedBTreeMap.Basic

/-!
# Transforming values: `map` and `try_map`

Both consume the map, run its pairs through a closure and wrap what they collect with
`unchecked_from`, skipping the bound check. That is sound only if the collected map has
exactly the keys it came from, and this file proves it does: the closure sees every key
once, in ascending order, and the collected list is ascending again, so collecting it
(`BoundedCollections.BTreeMap.entries_ofList`) neither drops nor merges a pair.

`try_map`'s closure is an `FnMut` with a state `σ`, and the collection into `Result`
stops at the first error. The error that comes back is the one of the least failing key,
and the closure is left in the state that failing call left it in: it is not called on any
greater key (`BoundedCollections.BoundedBTreeMap.map_tryMap_spec`). `map` calls its closure
on every pair whatever it returns, so it is a function of the pair here.
-/

namespace BoundedCollections

namespace BoundedBTreeMap

variable {K V T E σ : Type}

/-- A run of `try_map`'s closure in which every call succeeds: from the state `s`, the
entries `es` go through `f` in order, `es'` pairs each key with the value its call
returned, and `s'` is the state after the last call. -/
inductive Pointwise (f : σ → K → V → Except E T × σ) :
    σ → List (K × V) → List (K × T) → σ → Prop
  /-- No entries, no calls. -/
  | nil (s : σ) : Pointwise f s [] [] s
  /-- The call on the first entry succeeds, and the run goes on from the state it left. -/
  | cons {s s₁ s₂ : σ} {k : K} {v : V} {t : T} {es : List (K × V)} {es' : List (K × T)} :
    f s k v = (.ok t, s₁) → Pointwise f s₁ es es' s₂ →
      Pointwise f s ((k, v) :: es) ((k, t) :: es') s₂

/-! ### `map` -/

section Map

variable [LinearOrder K] {S : UInt32} (m : BoundedBTreeMap K V S) (f : K → V → T)

theorem entries_map :
    (m.map f).inner.entries = m.inner.entries.map fun e => (e.1, f e.1 e.2) :=
  BTreeMap.entries_ofList m.inner.sorted.mapValues

theorem len_map : (m.map f).len = m.len := by
  simp only [len, BTreeMap.len, entries_map, List.length_map]

theorem WithinBound.map {m : BoundedBTreeMap K V S} (h : m.WithinBound) :
    (m.map f).WithinBound :=
  (len_map m f).trans_le h

end Map

/-! ### The iteration of `try_map` -/

section TryMapPairs

variable {f : σ → K → V → Except E T × σ} {s s₁ s₂ : σ} {k : K} {v : V} {es : List (K × V)}

theorem tryMapPairs_cons_ok {t : T} (hf : f s k v = (.ok t, s₁)) :
    tryMapPairs f s ((k, v) :: es) =
      ((tryMapPairs f s₁ es).1.map ((k, t) :: ·), (tryMapPairs f s₁ es).2) := by
  rw [tryMapPairs, hf]

theorem tryMapPairs_cons_error {err : E} (hf : f s k v = (.error err, s₁)) :
    tryMapPairs f s ((k, v) :: es) = (.error err, s₁) := by
  rw [tryMapPairs, hf]

theorem Pointwise.keys {es' : List (K × T)} (h : Pointwise f s es es' s₁) :
    es'.map Prod.fst = es.map Prod.fst := by
  induction h with
  | nil => rfl
  | cons _ _ ih => rw [List.map_cons, List.map_cons, ih]

theorem Pointwise.ascending [LinearOrder K] {es' : List (K × T)} (h : Pointwise f s es es' s₁)
    (hes : Ascending es) : Ascending es' := by
  have := List.pairwise_map.mpr hes
  rw [← h.keys] at this
  exact List.pairwise_map.mp this

/-- A run of successful calls is what the iteration does. -/
theorem Pointwise.tryMapPairs {es' : List (K × T)} (h : Pointwise f s es es' s₁) :
    tryMapPairs f s es = (.ok es', s₁) := by
  induction h with
  | nil => rfl
  | cons hf _ ih => rw [tryMapPairs_cons_ok hf, ih]; rfl

/-- Whatever the iteration collects comes from a run of successful calls. -/
theorem pointwise_of_tryMapPairs {es' : List (K × T)} (h : tryMapPairs f s es = (.ok es', s₁)) :
    Pointwise f s es es' s₁ := by
  induction es generalizing s es' with
  | nil => cases h; exact .nil _
  | cons e es ih =>
    obtain ⟨k, v⟩ := e
    match hf : f s k v with
    | (.error err, s₂) => rw [tryMapPairs_cons_error hf] at h; cases h
    | (.ok t, s₂) =>
      rw [tryMapPairs_cons_ok hf] at h
      rcases hr : tryMapPairs f s₂ es with ⟨_ | l, s₃⟩ <;> rw [hr] at h <;> cases h
      exact .cons hf (ih hr)

/-- Past a run of successful calls, the first failing call ends the iteration: its error
and the state it left are the result. -/
theorem tryMapPairs_first_error {pre post : List (K × V)} {l : List (K × T)} {err : E}
    (hpre : Pointwise f s pre l s₁) (hk : f s₁ k v = (.error err, s₂)) :
    tryMapPairs f s (pre ++ (k, v) :: post) = (.error err, s₂) := by
  induction hpre with
  | nil => exact tryMapPairs_cons_error hk
  | cons hf _ ih => rw [List.cons_append, tryMapPairs_cons_ok hf, ih hk]; rfl

/-- An iteration that fails does so at a first failing call, after a run of successful
ones, and it stops there: the state it returns is the one that call left. -/
theorem exists_first_error {err : E} (h : tryMapPairs f s es = (.error err, s₁)) :
    ∃ pre k v post l s₂, es = pre ++ (k, v) :: post ∧ Pointwise f s pre l s₂ ∧
      f s₂ k v = (.error err, s₁) := by
  induction es generalizing s with
  | nil => cases h
  | cons e es ih =>
    obtain ⟨k, v⟩ := e
    match hf : f s k v with
    | (.error err', s₂) =>
      rw [tryMapPairs_cons_error hf] at h
      cases h
      exact ⟨[], k, v, es, [], s, rfl, .nil s, hf⟩
    | (.ok t, s₂) =>
      rw [tryMapPairs_cons_ok hf] at h
      rcases hr : tryMapPairs f s₂ es with ⟨_ | l, s₃⟩ <;> rw [hr] at h <;> cases h
      obtain ⟨pre, k', v', post, l, s₄, rfl, hp, hk⟩ := ih hr
      exact ⟨(k, v) :: pre, k', v', post, (k, t) :: l, s₄, rfl, .cons hf hp, hk⟩

end TryMapPairs

/-! ### `try_map` -/

section TryMap

variable [LinearOrder K] {S : UInt32} {m : BoundedBTreeMap K V S} {f : σ → K → V → Except E T × σ}
  {s s' : σ}

/-- `try_map` is its iteration, the collected pairs wrapped unchecked. -/
theorem tryMap_of_tryMapPairs {r : Except E (List (K × T))}
    (h : tryMapPairs f s m.inner.entries = (r, s')) :
    m.tryMap f s = (r.map fun l => uncheckedFrom (BTreeMap.ofList l), s') := by
  rw [tryMap, h]

theorem entries_of_tryMap {m' : BoundedBTreeMap K T S} (h : m.tryMap f s = (.ok m', s')) :
    Pointwise f s m.inner.entries m'.inner.entries s' := by
  rcases hr : tryMapPairs f s m.inner.entries with ⟨_ | es', s₁⟩ <;>
    rw [tryMap_of_tryMapPairs hr] at h <;> cases h
  have hp := pointwise_of_tryMapPairs hr
  change Pointwise f s m.inner.entries (BTreeMap.ofList es').entries s'
  rwa [BTreeMap.entries_ofList (hp.ascending m.inner.sorted)]

theorem len_of_tryMap {m' : BoundedBTreeMap K T S} (h : m.tryMap f s = (.ok m', s')) :
    m'.len = m.len := by
  simpa only [List.length_map] using congrArg List.length (entries_of_tryMap h).keys

theorem WithinBound.tryMap (hm : m.WithinBound) {m' : BoundedBTreeMap K T S}
    (h : m.tryMap f s = (.ok m', s')) : m'.WithinBound :=
  (len_of_tryMap h).trans_le hm

/-- **`map` and `try_map` transform values pointwise over an unchanged key set.** `map`
collects exactly the keys of the map, each with `f` of its entry, so the length and the
bound carry over. `try_map` returns `Ok` exactly when every call its closure gets
succeeds, with those keys and the values the calls returned; otherwise it returns the
error of the least failing key, and the closure's final state is the one that call left
it in, so no greater key is passed to it. -/
theorem map_tryMap_spec (m : BoundedBTreeMap K V S) (f : K → V → T)
    (g : σ → K → V → Except E T × σ) (s : σ) :
    (m.map f).inner.entries = m.inner.entries.map (fun e => (e.1, f e.1 e.2)) ∧
    (m.map f).len = m.len ∧
    (m.WithinBound → (m.map f).WithinBound) ∧
    (∀ es' s', Pointwise g s m.inner.entries es' s' →
      ∃ m', m.tryMap g s = (.ok m', s') ∧ m'.inner.entries = es') ∧
    (∀ m' s', m.tryMap g s = (.ok m', s') →
      Pointwise g s m.inner.entries m'.inner.entries s' ∧ m'.len = m.len ∧
        (m.WithinBound → m'.WithinBound)) ∧
    (∀ pre k v post l s₁ err s₂, m.inner.entries = pre ++ (k, v) :: post →
      Pointwise g s pre l s₁ → g s₁ k v = (.error err, s₂) → m.tryMap g s = (.error err, s₂)) ∧
    (∀ err s', m.tryMap g s = (.error err, s') →
      ∃ pre k v post l s₁, m.inner.entries = pre ++ (k, v) :: post ∧
        Pointwise g s pre l s₁ ∧ g s₁ k v = (.error err, s')) := by
  refine ⟨entries_map m f, len_map m f, fun h => h.map f, fun es' s' hp => ?_, fun m' s' h =>
    ⟨entries_of_tryMap h, len_of_tryMap h, fun hm => hm.tryMap h⟩,
    fun pre k v post l s₁ err s₂ hes hpre hk => ?_, fun err s' h => ?_⟩
  · exact ⟨_, tryMap_of_tryMapPairs hp.tryMapPairs,
      BTreeMap.entries_ofList (hp.ascending m.inner.sorted)⟩
  · rw [tryMap_of_tryMapPairs (hes ▸ tryMapPairs_first_error hpre hk)]
    rfl
  · rcases hr : tryMapPairs g s m.inner.entries with ⟨_ | es', s₁⟩ <;>
      rw [tryMap_of_tryMapPairs hr] at h <;> cases h
    exact exists_first_error hr

/-- `try_map_short_circuit`, the closure logging the keys it is called on: `3 * 100`
overflows a `u8`, so the call on the key `3` fails, and the log ends there. -/
theorem map_tryMap_spec_shortCircuit :
    (⟨⟨[(1, 1), (2, 2), (3, 3), (4, 4)], by decide⟩⟩ : BoundedBTreeMap ℕ ℕ 7).tryMap
        (fun (log : List ℕ) k v =>
          (if v * 100 < 256 then .ok (v * 100) else .error "overflow", k :: log)) [] =
      (.error "overflow", [3, 2, 1]) :=
  (map_tryMap_spec _ (fun _ v => v) _ []).2.2.2.2.2.1 [(1, 1), (2, 2)] 3 3 [(4, 4)]
    [(1, 100), (2, 200)] [2, 1] "overflow" [3, 2, 1] rfl (.cons rfl (.cons rfl (.nil _))) rfl

end TryMap

end BoundedBTreeMap

end BoundedCollections
