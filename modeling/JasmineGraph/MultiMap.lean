import JasmineGraph.MapLoop

/-!
# Maps of vectors

A `std::map<K, std::vector<V>>` holds a multiset of pairs, `pairs`: a key with each element of its
vector. An entry with an empty vector holds none, so `m[k]` of a key that is not there adds nothing.
-/

namespace JasmineGraph.MultiMap

open List Multiset

variable {K V : Type} [Ord K]

def withKey (k : K) (vs : List V) : Multiset (K × V) := ↑(vs.map (Prod.mk k))

def ofEntries (l : List (K × List V)) : Multiset (K × V) :=
  ↑(l.flatMap fun e => e.2.map (Prod.mk e.1))

def pairs (m : Std.TreeMap K (List V)) : Multiset (K × V) := ofEntries m.toList

def append (m : Std.TreeMap K (List V)) (k : K) (vs : List V) : Std.TreeMap K (List V) :=
  m.insert k (m.getD k [] ++ vs)

variable [DecidableEq K] [DecidableEq V]

section WithKey

omit [Ord K] [DecidableEq K] [DecidableEq V]

variable (k : K) (vs : List V)

@[simp] theorem withKey_nil : withKey k ([] : List V) = 0 := rfl

theorem withKey_append (vs' : List V) : withKey k (vs ++ vs') = withKey k vs + withKey k vs' := by
  rw [withKey, map_append]
  rfl

@[simp] theorem card_withKey : (withKey k vs).card = vs.length := by
  rw [withKey, coe_card, length_map]

theorem mem_withKey {k' : K} {v : V} : (k', v) ∈ withKey k vs ↔ k' = k ∧ v ∈ vs := by
  simp [withKey, eq_comm, and_comm]

theorem filter_withKey (P : K × V → Prop) [DecidablePred P] :
    (withKey k vs).filter P = withKey k (vs.filter fun v => P (k, v)) := by
  rw [withKey, filter_coe, List.filter_map]
  rfl

theorem map_withKey {K' V' : Type} (f : K → K') (g : V → V') :
    (withKey k vs).map (Prod.map f g) = withKey (f k) (vs.map g) := by
  rw [withKey, withKey, map_coe, List.map_map, List.map_map]
  rfl

end WithKey

omit [Ord K] in
theorem count_withKey (k k' : K) (v : V) (vs : List V) :
    (withKey k' vs).count (k, v) = if k' = k then vs.count v else 0 := by
  rw [withKey, ← map_coe]
  split_ifs with h
  · subst h
    rw [count_map_eq_count' _ _ (Prod.mk_right_injective k'), coe_count]
  · refine Multiset.count_eq_zero.2 fun hmem => ?_
    obtain ⟨v', -, heq⟩ := Multiset.mem_map.1 hmem
    exact h (congrArg Prod.fst heq)

omit [Ord K] [DecidableEq K] [DecidableEq V] in
theorem ofEntries_cons (e : K × List V) (l : List (K × List V)) :
    ofEntries (e :: l) = withKey e.1 e.2 + ofEntries l := by
  rfl

omit [Ord K] in
theorem count_ofEntries_of_notMem {l : List (K × List V)} {k : K} (h : k ∉ l.map Prod.fst) (v : V) :
    (ofEntries l).count (k, v) = 0 := by
  induction l with
  | nil => rfl
  | cons e l ih =>
    rw [List.map_cons, List.mem_cons, not_or] at h
    rw [ofEntries_cons, count_add, count_withKey, if_neg (Ne.symm h.1), ih h.2]

omit [Ord K] in
theorem count_ofEntries_of_mem {l : List (K × List V)} (hl : (l.map Prod.fst).Nodup) {k : K}
    {vs : List V} (h : (k, vs) ∈ l) (v : V) : (ofEntries l).count (k, v) = vs.count v := by
  induction l with
  | nil => cases h
  | cons e l ih =>
    rw [List.map_cons, List.nodup_cons] at hl
    rw [ofEntries_cons, count_add, count_withKey]
    rcases List.mem_cons.1 h with rfl | h
    · rw [if_pos rfl, count_ofEntries_of_notMem hl.1, Nat.add_zero]
    · have hne : e.1 ≠ k := fun heq => hl.1 (heq ▸ List.mem_map_of_mem h)
      rw [if_neg hne, ih hl.2 h, Nat.zero_add]

variable [Std.TransOrd K] [Std.LawfulEqOrd K] {m : Std.TreeMap K (List V)}

/-- **A pair is held as often as the vector of its key has the value.** -/
theorem count_pairs (m : Std.TreeMap K (List V)) (k : K) (v : V) :
    (pairs m).count (k, v) = (m.getD k []).count v := by
  rw [Std.TreeMap.getD_eq_getD_getElem?]
  cases hk : m[k]? with
  | some vs =>
    exact count_ofEntries_of_mem (MapLoop.nodup_keys_toList m)
      (Std.TreeMap.mem_toList_iff_getElem?_eq_some.2 hk) v
  | none =>
    refine count_ofEntries_of_notMem (fun hmem => ?_) v
    obtain ⟨⟨k', vs⟩, he, rfl⟩ := List.mem_map.1 hmem
    rw [Std.TreeMap.mem_toList_iff_getElem?_eq_some, hk] at he
    cases he

theorem mem_pairs {k : K} {v : V} : (k, v) ∈ pairs m ↔ v ∈ m.getD k [] := by
  rw [← one_le_count_iff_mem, count_pairs, ← one_le_count_iff]

theorem pairs_empty : pairs (∅ : Std.TreeMap K (List V)) = 0 := by
  refine Multiset.ext.2 fun ⟨k, v⟩ => ?_
  rw [count_pairs, Std.TreeMap.getD_emptyc, count_zero, count_nil]

theorem pairs_append (m : Std.TreeMap K (List V)) (k : K) (vs : List V) :
    pairs (append m k vs) = pairs m + withKey k vs := by
  refine Multiset.ext.2 fun ⟨k', v⟩ => ?_
  rw [count_add, count_pairs, count_pairs, append, Std.TreeMap.getD_insert, count_withKey]
  by_cases h : k = k'
  · subst h
    rw [if_pos (Std.compare_eq_iff_eq.2 rfl), if_pos rfl, count_append]
  · rw [if_neg (mt Std.compare_eq_iff_eq.1 h), if_neg h, Nat.add_zero]

theorem pairs_insert_fresh {k : K} (h : m.getD k [] = []) (vs : List V) :
    pairs (m.insert k vs) = pairs m + withKey k vs := by
  rw [← pairs_append, append, h, nil_append]

end JasmineGraph.MultiMap
