import Mathlib

/-!
# The ordered map underneath

`BoundedBTreeMap` owns an `alloc::collections::BTreeMap` and hands every lookup,
insertion, removal and traversal to it. That map is a collaborator, not part of the
repository, so it enters here through its documented behaviour and not through its
tree: a `BTreeMap` *is* the list its iterators yield – its entries in strictly
ascending key order, each key once – and every operation is stated on that list.

The order on keys is a `LinearOrder`, Rust's `Ord`. Two keys that compare `Equal` are
therefore equal here, so the one liberty `BTreeMap::insert` takes with such keys (it
keeps the stored key and replaces only the value) is written into
`BoundedCollections.BTreeMap.insertEntry` but cannot be observed.

What the bound of the wrapper needs from this file is how each operation moves the
length and the lookups, and that collecting a list of pairs (`FromIterator`, last pair of
a key wins) gives back an already ascending list unchanged
(`BoundedCollections.BTreeMap.entries_ofList`): the codec round trip and the
key-preserving `map` both rest on it.

The list is a faithful representation. A map is determined by its lookups
(`BoundedCollections.BTreeMap.ext_get?`): ascending order leaves one way to list a set of
entries. And collecting an arbitrary list of pairs – unsorted, keys repeated – keeps the
last value of each key (`BoundedCollections.BTreeMap.get?_ofList`), one entry per distinct
key (`BoundedCollections.BTreeMap.len_ofList`).

`PartialEq` compares the lengths and then the entries pair by pair, with the keys' and
the values' own `==`, which are parameters: a value that is not `==` to itself makes its
map unequal to itself. Where both are equality, so is `==` on maps
(`BoundedCollections.BTreeMap.eq_iff_of_lawful`).
-/

namespace BoundedCollections

variable {K V : Type} [LinearOrder K]

/-- Keys strictly ascend along an entry list. -/
def Ascending (es : List (K × V)) : Prop :=
  es.Pairwise (fun a b => a.1 < b.1)

/-! ### Entry lists -/

/-- The entry stored under `k`. -/
def findEntry (k : K) : List (K × V) → Option (K × V)
  | [] => none
  | e :: es => if e.1 = k then some e else findEntry k es

/-- `BTreeMap::insert` on the entry list: the pair goes in at its place in the order;
under a key already present the stored key stays and the value is replaced. -/
def insertEntry (k : K) (v : V) : List (K × V) → List (K × V)
  | [] => [(k, v)]
  | e :: es =>
    if k < e.1 then (k, v) :: e :: es
    else if k = e.1 then (e.1, v) :: es
    else e :: insertEntry k v es

/-- The entry list without the entry of `k`. -/
def eraseEntry (k : K) : List (K × V) → List (K × V)
  | [] => []
  | e :: es => if e.1 = k then es else e :: eraseEntry k es

section EntryLists

variable {k : K} {v : V} {es : List (K × V)}

theorem findEntry_eq_none_of_lt (hk : ∀ e ∈ es, k < e.1) : findEntry k es = none := by
  induction es with
  | nil => rfl
  | cons e es ih =>
    rw [findEntry, if_neg (ne_of_gt (hk e (List.mem_cons_self _ _)))]
    exact ih fun e' he' => hk e' (List.mem_cons_of_mem _ he')

theorem forall_insertEntry {P : K → Prop} (hk : P k) (hes : ∀ e ∈ es, P e.1) :
    ∀ e ∈ insertEntry k v es, P e.1 := by
  induction es with
  | nil => exact List.forall_mem_singleton.mpr hk
  | cons e es ih =>
    have he := hes e (List.mem_cons_self _ _)
    have hrest : ∀ e' ∈ es, P e'.1 := fun e' he' => hes e' (List.mem_cons_of_mem _ he')
    rw [insertEntry]
    split_ifs
    · exact List.forall_mem_cons.mpr ⟨hk, hes⟩
    · exact List.forall_mem_cons.mpr ⟨he, hrest⟩
    · exact List.forall_mem_cons.mpr ⟨he, ih hrest⟩

theorem Ascending.insertEntry (h : Ascending es) : Ascending (insertEntry k v es) := by
  induction es with
  | nil => exact List.pairwise_singleton _ _
  | cons e es ih =>
    obtain ⟨he, hes⟩ := List.pairwise_cons.mp h
    simp only [BoundedCollections.insertEntry]
    split_ifs with hlt heq
    · exact h.cons (List.forall_mem_cons.mpr ⟨hlt, fun e' he' => hlt.trans (he e' he')⟩)
    · exact List.Pairwise.cons he hes
    · have hgt : e.1 < k := lt_of_le_of_ne (not_lt.mp hlt) (Ne.symm heq)
      exact List.Pairwise.cons (forall_insertEntry hgt he) (ih hes)

theorem findEntry_insertEntry (k' : K) :
    (findEntry k' (insertEntry k v es)).map Prod.snd =
      if k = k' then some v else (findEntry k' es).map Prod.snd := by
  induction es with
  | nil => by_cases h : k = k' <;> simp [insertEntry, findEntry, h]
  | cons e es ih =>
    by_cases h1 : k < e.1
    · rw [insertEntry, if_pos h1]
      by_cases h3 : k = k' <;> simp [findEntry, h3]
    by_cases h2 : k = e.1
    · rw [insertEntry, if_neg h1, if_pos h2]
      subst h2
      by_cases h3 : e.1 = k' <;> simp [findEntry, h3]
    rw [insertEntry, if_neg h1, if_neg h2]
    by_cases h4 : e.1 = k'
    · subst h4
      simp [findEntry, h2]
    · simp [findEntry, h4, ih]

theorem length_insertEntry (h : Ascending es) :
    (insertEntry k v es).length = es.length + if (findEntry k es).isSome then 0 else 1 := by
  induction es with
  | nil => rfl
  | cons e es ih =>
    obtain ⟨he, hes⟩ := List.pairwise_cons.mp h
    by_cases hlt : k < e.1
    · have hnone : findEntry k (e :: es) = none := findEntry_eq_none_of_lt fun e' he' => by
        rcases List.mem_cons.mp he' with rfl | he'
        exacts [hlt, hlt.trans (he e' he')]
      rw [insertEntry, if_pos hlt, hnone]
      rfl
    · by_cases heq : k = e.1
      · rw [insertEntry, if_neg hlt, if_pos heq, findEntry, if_pos heq.symm]
        rfl
      · rw [insertEntry, if_neg hlt, if_neg heq, findEntry, if_neg (Ne.symm heq),
          List.length_cons, ih hes, List.length_cons]
        omega

/-- A key has an entry exactly when it is among the keys. -/
theorem findEntry_isSome_iff : (findEntry k es).isSome ↔ k ∈ es.map Prod.fst := by
  induction es with
  | nil => exact iff_of_false Bool.false_ne_true (List.not_mem_nil k)
  | cons e es ih =>
    rw [findEntry, List.map_cons, List.mem_cons]
    split_ifs with h
    · exact iff_of_true rfl (.inl h.symm)
    · rw [ih, or_iff_right (Ne.symm h)]

/-- The entry found under `k` has the key `k`. -/
theorem key_of_findEntry {e : K × V} (h : findEntry k es = some e) : e.1 = k := by
  induction es with
  | nil => cases h
  | cons e' es ih =>
    rw [findEntry] at h
    split_ifs at h with he
    · cases h
      exact he
    · exact ih h

theorem findEntry_mapValues {W : Type} (g : K × V → W) :
    findEntry k (es.map fun e => (e.1, g e)) = (findEntry k es).map fun e => (e.1, g e) := by
  induction es with
  | nil => rfl
  | cons e es ih =>
    simp only [List.map_cons, findEntry]
    split_ifs <;> simp [ih]

/-- Keys do not repeat, so filtering first or after the lookup finds the same entry. -/
theorem findEntry_filter (h : Ascending es) (p : K × V → Bool) :
    findEntry k (es.filter p) = (findEntry k es).filter p := by
  induction es with
  | nil => rfl
  | cons e es ih =>
    obtain ⟨he, hes⟩ := List.pairwise_cons.mp h
    by_cases hk : e.1 = k
    · have hnone : findEntry k es = none :=
        findEntry_eq_none_of_lt fun e' he' => hk ▸ he e' he'
      cases hp : p e <;> simp [List.filter_cons, hp, findEntry, hk, ih hes, hnone, Option.filter]
    · cases hp : p e <;> simp [List.filter_cons, hp, findEntry, hk, ih hes]

/-- Keys do not repeat, so after erasing `k` nothing is found under it. -/
theorem findEntry_eraseEntry (h : Ascending es) (k' : K) :
    findEntry k' (eraseEntry k es) = if k = k' then none else findEntry k' es := by
  induction es with
  | nil => split_ifs <;> rfl
  | cons e es ih =>
    obtain ⟨he, hes⟩ := List.pairwise_cons.mp h
    by_cases h1 : e.1 = k
    · rw [eraseEntry, if_pos h1]
      by_cases h2 : k = k'
      · subst h1 h2
        rw [if_pos rfl]
        exact findEntry_eq_none_of_lt he
      · rw [if_neg h2, findEntry, if_neg (h1 ▸ h2)]
    · rw [eraseEntry, if_neg h1, findEntry, ih hes, findEntry]
      by_cases h2 : k = k'
      · subst h2
        rw [if_neg h1, if_pos rfl, if_pos rfl]
      · rw [if_neg h2, if_neg h2]

/-- Inserting past every key appends. -/
theorem insertEntry_of_lt (hk : ∀ e ∈ es, e.1 < k) : insertEntry k v es = es ++ [(k, v)] := by
  induction es with
  | nil => rfl
  | cons e es ih =>
    have he := hk e (List.mem_cons_self _ _)
    rw [insertEntry, if_neg (not_lt.mpr he.le), if_neg (ne_of_gt he),
      ih fun e' he' => hk e' (List.mem_cons_of_mem _ he')]
    rfl

/-- Rewriting values leaves the keys, hence their order. -/
theorem Ascending.mapValues {W : Type} {g : K × V → W} (h : Ascending es) :
    Ascending (es.map fun e => (e.1, g e)) :=
  List.pairwise_map.mpr (h.imp id)

theorem eraseEntry_sublist : List.Sublist (eraseEntry k es) es := by
  induction es with
  | nil => exact List.Sublist.slnil
  | cons e es ih =>
    rw [eraseEntry]
    split_ifs
    · exact List.sublist_cons_self _ _
    · exact ih.cons₂ _

/-- Erasing a key that has an entry drops exactly that entry. -/
theorem length_eraseEntry {e : K × V} (h : findEntry k es = some e) :
    (eraseEntry k es).length + 1 = es.length := by
  induction es with
  | nil => cases h
  | cons a es ih =>
    rw [findEntry] at h
    rw [eraseEntry]
    split_ifs at h ⊢
    · rfl
    · rw [List.length_cons, List.length_cons, ih h]

theorem Ascending.nodup (h : Ascending es) : es.Nodup :=
  h.imp fun hab => ne_of_apply_ne Prod.fst (ne_of_lt hab)

/-- Keys ascend, so an entry is in the list exactly when its key finds it. -/
theorem mem_iff_findEntry (h : Ascending es) {e : K × V} :
    e ∈ es ↔ findEntry e.1 es = some e := by
  induction es with
  | nil => exact iff_of_false (List.not_mem_nil e) Option.noConfusion
  | cons a es ih =>
    obtain ⟨ha, hes⟩ := List.pairwise_cons.mp h
    rw [List.mem_cons, findEntry]
    split_ifs with hae
    · rw [Option.some_inj]
      exact ⟨fun h' => h'.elim Eq.symm fun he => absurd hae (ne_of_lt (ha e he)),
        fun h' => .inl h'.symm⟩
    · rw [← ih hes]
      exact or_iff_right fun h' => hae (congrArg Prod.fst h'.symm)

/-- **An ascending entry list is determined by its lookups**: two with the same entry
under every key hold the same entries, and ascending order leaves one way to list them. -/
theorem eq_of_findEntry {es₁ es₂ : List (K × V)} (h₁ : Ascending es₁) (h₂ : Ascending es₂)
    (h : ∀ k, findEntry k es₁ = findEntry k es₂) : es₁ = es₂ := by
  have : IsAntisymm (K × V) fun a b => a.1 < b.1 :=
    ⟨fun _ _ hab hba => absurd (hab.trans hba) (lt_irrefl _)⟩
  refine List.eq_of_perm_of_sorted ((List.perm_ext_iff_of_nodup h₁.nodup h₂.nodup).mpr
    fun e => ?_) h₁ h₂
  rw [mem_iff_findEntry h₁, mem_iff_findEntry h₂, h]

end EntryLists

/-- An ordered map, by what its iterators yield. -/
@[ext]
structure BTreeMap (K V : Type) [LinearOrder K] where
  /-- The entries, in the order `iter` yields them. -/
  entries : List (K × V)
  /-- Keys strictly ascend, so no key occurs twice. -/
  sorted : Ascending entries

namespace BTreeMap

instance [DecidableEq K] [DecidableEq V] : DecidableEq (BTreeMap K V) := fun a b =>
  decidable_of_iff (a.entries = b.entries) BTreeMap.ext_iff.symm

/-! ### The operations -/

/-- `BTreeMap::new`. -/
def new : BTreeMap K V := ⟨[], List.Pairwise.nil⟩

/-- `BTreeMap::len`. -/
def len (m : BTreeMap K V) : ℕ := m.entries.length

/-- `BTreeMap::get`. -/
def get? (m : BTreeMap K V) (k : K) : Option V := (findEntry k m.entries).map Prod.snd

/-- `BTreeMap::contains_key`. -/
def containsKey (m : BTreeMap K V) (k : K) : Bool := (m.get? k).isSome

/-- `BTreeMap::insert`: the value previously stored under the key, and the new map. -/
def insert (m : BTreeMap K V) (k : K) (v : V) : Option V × BTreeMap K V :=
  (m.get? k, ⟨insertEntry k v m.entries, m.sorted.insertEntry⟩)

/-- `BTreeMap::remove`: the value removed, and the new map. -/
def remove (m : BTreeMap K V) (k : K) : Option V × BTreeMap K V :=
  (m.get? k, ⟨eraseEntry k m.entries, m.sorted.sublist eraseEntry_sublist⟩)

/-- `BTreeMap::remove_entry`: the entry removed, and the new map. -/
def removeEntry (m : BTreeMap K V) (k : K) : Option (K × V) × BTreeMap K V :=
  (findEntry k m.entries, ⟨eraseEntry k m.entries, m.sorted.sublist eraseEntry_sublist⟩)

/-- `BTreeMap::retain`, its closure `FnMut(&K, &mut V) -> bool` given as what it returns
and what it leaves in the value. Each key is visited once, so a function of the entry
says everything a stateful closure can do in one call. -/
def retain (m : BTreeMap K V) (f : K → V → Bool × V) : BTreeMap K V :=
  ⟨(m.entries.filter fun e => (f e.1 e.2).1).map fun e => (e.1, (f e.1 e.2).2),
    Ascending.mapValues (List.Pairwise.filter _ m.sorted)⟩

/-- Writing through `BTreeMap::iter_mut`: every value replaced, keys untouched. -/
def iterMut (m : BTreeMap K V) (g : K → V → V) : BTreeMap K V :=
  ⟨m.entries.map (fun e => (e.1, g e.1 e.2)), m.sorted.mapValues⟩

/-- Writing through `BTreeMap::get_mut`: the value of `k`, if present, replaced. -/
def getMut (m : BTreeMap K V) (k : K) (g : V → V) : BTreeMap K V :=
  m.iterMut fun k' v => if k' = k then g v else v

/-- `BTreeMap::clear`. -/
def clear (_ : BTreeMap K V) : BTreeMap K V := new

/-- `FromIterator`: the pairs inserted one after another, so that of two pairs with one
key the later wins. -/
def ofList (l : List (K × V)) : BTreeMap K V :=
  l.foldl (fun m e => (m.insert e.1 e.2).2) new

/-- `PartialEq for (&K, &V)`, on the entries a `BTreeMap` iterator yields: the keys by
`K`'s `==`, `pk`, then the values by `V`'s, `pv`. -/
def eqEntry (pk : K → K → Bool) (pv : V → V → Bool) (a b : K × V) : Bool :=
  pk a.1 b.1 && pv a.2 b.2

/-- `PartialEq for BTreeMap<K, V>`:
`self.len() == other.len() && self.iter().zip(other).all(|(a, b)| a == b)`. -/
def eq (pk : K → K → Bool) (pv : V → V → Bool) (self other : BTreeMap K V) : Bool :=
  self.len == other.len && (self.entries.zip other.entries).all fun p => eqEntry pk pv p.1 p.2

/-! ### How each operation moves the length -/

section Lengths

variable {m : BTreeMap K V} {k : K} {v : V}

@[simp] theorem len_new : (new : BTreeMap K V).len = 0 := rfl

@[simp] theorem len_clear : m.clear.len = 0 := rfl

@[simp] theorem len_iterMut (g : K → V → V) : (m.iterMut g).len = m.len := List.length_map _ _

@[simp] theorem len_getMut (g : V → V) : (m.getMut k g).len = m.len := len_iterMut _

theorem containsKey_eq : m.containsKey k = (findEntry k m.entries).isSome := by
  simp [containsKey, get?]

theorem len_insert : (m.insert k v).2.len = m.len + if m.containsKey k then 0 else 1 := by
  rw [containsKey_eq]
  exact length_insertEntry m.sorted

theorem len_insert_le : (m.insert k v).2.len ≤ m.len + 1 := by
  rw [len_insert]
  split_ifs <;> omega

theorem get?_insert (k' : K) :
    (m.insert k v).2.get? k' = if k = k' then some v else m.get? k' :=
  findEntry_insertEntry k'

theorem len_remove_le : (m.remove k).2.len ≤ m.len := eraseEntry_sublist.length_le

theorem len_removeEntry_le : (m.removeEntry k).2.len ≤ m.len := eraseEntry_sublist.length_le

theorem len_retain_le (f : K → V → Bool × V) : (m.retain f).len ≤ m.len :=
  (List.length_map _ _).trans_le (List.length_filter_le _ _)

end Lengths

/-! ### Lookups after each operation -/

section Lookups

variable {m : BTreeMap K V} {k : K}

/-- Keys strictly ascend, so none occurs twice. -/
theorem nodup_keys (m : BTreeMap K V) : (m.entries.map Prod.fst).Nodup :=
  (List.Pairwise.map Prod.fst (fun _ _ h => h) m.sorted).imp ne_of_lt

/-- The entry found under `k` is `k` with its value. -/
theorem findEntry_eq_map_get? (m : BTreeMap K V) (k : K) :
    findEntry k m.entries = (m.get? k).map (k, ·) := by
  cases he : findEntry k m.entries with
  | none => rw [get?, he]; rfl
  | some e => rw [get?, he, ← key_of_findEntry he]; rfl

/-- **A map is determined by its lookups.** The entry list is the one representation of
its contents, so two maps that agree on every key are equal. -/
theorem ext_get? {m₁ m₂ : BTreeMap K V} (h : ∀ k, m₁.get? k = m₂.get? k) : m₁ = m₂ :=
  BTreeMap.ext (eq_of_findEntry m₁.sorted m₂.sorted fun k => by
    rw [findEntry_eq_map_get?, findEntry_eq_map_get?, h])

@[simp] theorem get?_new (k : K) : (new : BTreeMap K V).get? k = none := rfl

@[simp] theorem get?_clear (k : K) : m.clear.get? k = none := rfl

theorem get?_remove (k' : K) : (m.remove k).2.get? k' = if k = k' then none else m.get? k' := by
  rw [get?, remove, findEntry_eraseEntry m.sorted]
  split_ifs <;> rfl

/-- Removing a present key shortens the map by one. -/
theorem len_remove_of_get? {v : V} (h : m.get? k = some v) : (m.remove k).2.len + 1 = m.len :=
  length_eraseEntry (e := (k, v)) (by rw [findEntry_eq_map_get?, h]; rfl)

theorem get?_removeEntry (k' : K) :
    (m.removeEntry k).2.get? k' = if k = k' then none else m.get? k' :=
  get?_remove k'

theorem get?_iterMut (g : K → V → V) (k : K) : (m.iterMut g).get? k = (m.get? k).map (g k) := by
  rw [get?, iterMut, get?]
  dsimp only
  rw [findEntry_mapValues (fun e => g e.1 e.2)]
  cases he : findEntry k m.entries with
  | none => rfl
  | some e => simp [← key_of_findEntry he]

theorem get?_retain (f : K → V → Bool × V) (k : K) :
    (m.retain f).get? k = (m.get? k).bind fun v => if (f k v).1 then some (f k v).2 else none := by
  rw [get?, retain, get?]
  dsimp only
  rw [findEntry_mapValues (fun e => (f e.1 e.2).2), findEntry_filter m.sorted]
  cases he : findEntry k m.entries with
  | none => rfl
  | some e =>
    obtain ⟨k', v'⟩ := e
    obtain rfl : k' = k := key_of_findEntry he
    cases (f k' v').1 <;> simp [Option.filter]

end Lookups

/-! ### Collecting -/

section Collect

theorem len_foldl_insert_le (l : List (K × V)) (m : BTreeMap K V) :
    (l.foldl (fun m e => (m.insert e.1 e.2).2) m).len ≤ m.len + l.length := by
  induction l generalizing m with
  | nil => exact Nat.le_refl _
  | cons e l ih =>
    have := ih (m.insert e.1 e.2).2
    have := len_insert_le (m := m) (k := e.1) (v := e.2)
    simp only [List.foldl_cons, List.length_cons]
    omega

/-- Collecting is inserting the pairs into the empty map, one after another. -/
theorem foldl_insert_new (l : List (K × V)) :
    l.foldl (fun m e => (m.insert e.1 e.2).2) new = ofList l := rfl

/-- Collecting never yields more entries than it was given. -/
theorem len_ofList_le (l : List (K × V)) : (ofList l).len ≤ l.length := by
  simpa using len_foldl_insert_le l new

/-- Inserting a key past every key of the map appends its pair. -/
theorem entries_insert_of_lt {m : BTreeMap K V} {b : K × V} (h : ∀ a ∈ m.entries, a.1 < b.1) :
    (m.insert b.1 b.2).2.entries = m.entries ++ [b] :=
  insertEntry_of_lt h

/-- Inserting the least pair of an ascending list whose keys all lie past the map's leaves
the rest of the list past the map's keys. -/
theorem forall_lt_insert {m : BTreeMap K V} {b : K × V} {l : List (K × V)}
    (hb : ∀ c ∈ l, b.1 < c.1) (hml : ∀ a ∈ m.entries, ∀ c ∈ b :: l, a.1 < c.1) :
    ∀ a ∈ (m.insert b.1 b.2).2.entries, ∀ c ∈ l, a.1 < c.1 := by
  intro a ha c hc
  rw [entries_insert_of_lt fun a ha => hml a ha b (List.mem_cons_self _ _)] at ha
  rcases List.mem_append.mp ha with ha | ha
  · exact hml a ha c (List.mem_cons_of_mem _ hc)
  · rw [List.mem_singleton.mp ha]
    exact hb c hc

theorem entries_foldl_insert {l : List (K × V)} (hl : Ascending l) {m : BTreeMap K V}
    (hml : ∀ a ∈ m.entries, ∀ b ∈ l, a.1 < b.1) :
    (l.foldl (fun m e => (m.insert e.1 e.2).2) m).entries = m.entries ++ l := by
  induction l generalizing m with
  | nil => simp
  | cons b l ih =>
    obtain ⟨hb, hl⟩ := List.pairwise_cons.mp hl
    rw [List.foldl_cons, ih hl (forall_lt_insert hb hml),
      entries_insert_of_lt fun a ha => hml a ha b (List.mem_cons_self _ _), List.append_assoc,
      List.singleton_append]

/-- **Collecting an ascending list gives it back**: no pair is lost or reordered. -/
theorem entries_ofList {l : List (K × V)} (hl : Ascending l) : (ofList l).entries = l :=
  entries_foldl_insert hl fun a ha => absurd ha (List.not_mem_nil a)

/-- **Collecting keeps the last value of each key**: the value of `k` in the collected map
is that of the last pair with key `k`. -/
theorem get?_ofList (l : List (K × V)) (k : K) :
    (ofList l).get? k = (l.reverse.find? fun e => e.1 = k).map Prod.snd := by
  induction l using List.reverseRecOn with
  | nil => rfl
  | append_singleton l e ih =>
    rw [ofList, List.foldl_append, ← ofList, List.foldl_cons, List.foldl_nil, get?_insert, ih,
      List.reverse_append, List.reverse_singleton, List.singleton_append, List.find?_cons]
    by_cases h : e.1 = k <;> simp [h]

/-- Collecting gives one entry per distinct key. -/
theorem len_ofList (l : List (K × V)) : (ofList l).len = (l.map Prod.fst).toFinset.card := by
  rw [len, ← List.length_map _ Prod.fst, ← List.toFinset_card_of_nodup (ofList l).nodup_keys]
  congr 1
  ext k
  rw [List.mem_toFinset, List.mem_toFinset, ← findEntry_isSome_iff, findEntry_eq_map_get?,
    Option.isSome_map', get?_ofList, Option.isSome_map', List.find?_isSome]
  simp only [List.mem_reverse, decide_eq_true_eq, List.mem_map]

/-- Collecting drops pairs exactly when a key repeats. -/
theorem len_ofList_lt_iff (l : List (K × V)) :
    (ofList l).len < l.length ↔ ¬(l.map Prod.fst).Nodup := by
  rw [len_ofList, List.card_toFinset, ← List.length_map l Prod.fst, ← List.dedup_eq_self]
  have hs := List.dedup_sublist (l.map Prod.fst)
  exact ⟨fun h he => h.ne (congrArg List.length he),
    fun h => hs.length_le.lt_of_ne fun he => h (hs.eq_of_length he)⟩

end Collect

/-! ### Equality -/

section Equality

variable {pk : K → K → Bool} {pv : V → V → Bool}

omit [LinearOrder K] in
/-- Walking two entry lists of one length pair by pair is equality, where `==` on keys and
on values is. -/
theorem all_zip_eqEntry_iff (hk : ∀ x y, pk x y = true ↔ x = y)
    (hv : ∀ x y, pv x y = true ↔ x = y) : ∀ {as bs : List (K × V)}, as.length = bs.length →
      ((as.zip bs).all (fun p => eqEntry pk pv p.1 p.2) = true ↔ as = bs)
  | [], [], _ => iff_of_true rfl rfl
  | [], _ :: _, h | _ :: _, [], h => absurd h (by simp)
  | a :: as, b :: bs, h => by
    rw [List.zip_cons_cons, List.all_cons, Bool.and_eq_true, eqEntry, Bool.and_eq_true, hk, hv,
      all_zip_eqEntry_iff hk hv (Nat.succ.inj h), List.cons_eq_cons, Prod.ext_iff]

/-- Where `==` on keys and on values is equality, so is `==` on maps. -/
theorem eq_iff_of_lawful (hk : ∀ x y, pk x y = true ↔ x = y)
    (hv : ∀ x y, pv x y = true ↔ x = y) {m₁ m₂ : BTreeMap K V} :
    m₁.eq pk pv m₂ = true ↔ m₁ = m₂ := by
  rw [eq, Bool.and_eq_true, beq_iff_eq, BTreeMap.ext_iff]
  exact ⟨fun h => (all_zip_eqEntry_iff hk hv h.1).1 h.2,
    fun h => ⟨congrArg List.length h, (all_zip_eqEntry_iff hk hv (congrArg List.length h)).2 h⟩⟩

/-- A value that is not `==` to itself, as a NaN is not, makes its map unequal to itself. -/
example : (⟨[(0, 0)], List.pairwise_singleton _ _⟩ : BTreeMap ℕ ℕ).eq (fun x y => decide (x = y))
    (fun _ _ => false) ⟨[(0, 0)], List.pairwise_singleton _ _⟩ = false := by decide

end Equality

end BTreeMap

end BoundedCollections
