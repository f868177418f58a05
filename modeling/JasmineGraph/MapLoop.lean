import JasmineGraph.MapOption

/-!
# Loops over a map that touch one key at a time

A loop over the entries of a map often changes, at each entry, only what the state holds for that
entry's key. `obs s k` is what the state `s` holds for `k`. Since a map has each key once, the
effect of the whole loop at `k` is the effect of the one iteration at `k` (`obs_foldl`), whatever
the order of the entries.
-/

namespace JasmineGraph.MapLoop

open List

/-! ## Vectors by key -/

def pushBack {K V : Type} [DecidableEq K] (m : K → List V) (e : K × V) : K → List V :=
  Function.update m e.1 (m e.1 ++ [e.2])

/-- A loop that pushes values under their keys leaves under each key its values, in order. -/
theorem foldl_pushBack {K V : Type} [DecidableEq K] (l : List (K × V)) (m : K → List V) (k : K) :
    l.foldl pushBack m k = m k ++ (l.filter fun e => decide (e.1 = k)).map Prod.snd := by
  induction l generalizing m with
  | nil => rw [foldl_nil, filter_nil, map_nil, append_nil]
  | cons e l ih =>
    rw [foldl_cons, ih, filter_cons]
    by_cases he : e.1 = k
    · subst he
      simp [pushBack]
    · simp [pushBack, he, Function.update_of_ne (Ne.symm he)]

/-! ## Lists of turns -/

/-- A loop in which no turn fails collects the results of the turns. -/
theorem mapM_of_forall {α β : Type} {f : α → Option β} {r : α → β} {l : List α}
    (h : ∀ a ∈ l, f a = some (r a)) : l.mapM f = some (l.map r) := by
  rw [mapM_eq_some_iff, map_map]
  exact map_congr_left h

/-- Two nested loops are one over the pairs. -/
theorem foldl_product {α β σ : Type} (f : α → σ → β → σ) (l₁ : List α) (l₂ : List β) (s : σ) :
    l₁.foldl (fun s a => l₂.foldl (f a) s) s = (l₁ ×ˢ l₂).foldl (fun s p => f p.1 s p.2) s := by
  induction l₁ generalizing s with
  | nil => rfl
  | cons a l₁ ih =>
    rw [foldl_cons, ih, product_cons, foldl_append, foldl_map]

/-! ## One key at a time -/

variable {S A K O : Type} [DecidableEq K] {f : A → K} (obs : S → K → O) {step : S → A → S}
  {F : A → O → O}

/-- A list without the key leaves it alone. -/
theorem obs_foldl_of_notMem
    (h : ∀ s a k, obs (step s a) k = if f a = k then F a (obs s k) else obs s k) (k : K) :
    ∀ (l : List A) (s : S), (∀ a ∈ l, f a ≠ k) → obs (l.foldl step s) k = obs s k
  | [], _, _ => rfl
  | a :: l, s, hk => by
    rw [foldl_cons, obs_foldl_of_notMem h k l (step s a)
      fun b hb => hk b (mem_cons_of_mem _ hb), h, if_neg (hk a mem_cons_self)]

/-- In a list with each key once, an entry acts once. -/
theorem obs_foldl_of_mem
    (h : ∀ s a k, obs (step s a) k = if f a = k then F a (obs s k) else obs s k) {a : A} :
    ∀ (l : List A) (s : S), (l.map f).Nodup → a ∈ l → obs (l.foldl step s) (f a) = F a (obs s (f a))
  | b :: l, s, hl, ha => by
    rw [map_cons, nodup_cons] at hl
    rw [foldl_cons]
    rcases mem_cons.1 ha with rfl | ha
    · rw [obs_foldl_of_notMem obs h (f a) l (step s a), h, if_pos rfl]
      intro c hc heq
      exact hl.1 (heq ▸ mem_map_of_mem hc)
    · have hne : f b ≠ f a := fun heq => hl.1 (heq ▸ mem_map_of_mem ha)
      rw [obs_foldl_of_mem h l (step s b) hl.2 ha, h, if_neg hne]

variable {V : Type} [Ord K] [Std.TransOrd K] [Std.LawfulEqOrd K]

omit [DecidableEq K] in
theorem nodup_keys_toList (t : Std.TreeMap K V) : (t.toList.map Prod.fst).Nodup := by
  rw [nodup_iff_pairwise_ne, pairwise_map]
  exact t.distinct_keys_toList.imp fun h heq => h (Std.compare_eq_iff_eq.2 heq)

/-- **The loop at one key.** -/
theorem obs_foldl {step : S → K → V → S} {F : K → V → O → O}
    (h : ∀ s k v k', obs (step s k v) k' = if k = k' then F k v (obs s k') else obs s k')
    (t : Std.TreeMap K V) (s : S) (k : K) :
    obs (t.foldl step s) k = t[k]?.elim (obs s k) fun v => F k v (obs s k) := by
  rw [Std.TreeMap.foldl_eq_foldl_toList]
  have hstep : ∀ (s : S) (e : K × V) (k' : K), obs (step s e.1 e.2) k' =
      if Prod.fst e = k' then F e.1 e.2 (obs s k') else obs s k' := fun s e k' => h s e.1 e.2 k'
  cases hk : t[k]? with
  | some v =>
    exact obs_foldl_of_mem obs hstep _ s
      (nodup_keys_toList t) (Std.TreeMap.mem_toList_iff_getElem?_eq_some.2 hk)
  | none =>
    refine obs_foldl_of_notMem obs hstep k _ s ?_
    rintro ⟨k', v⟩ he rfl
    rw [Std.TreeMap.mem_toList_iff_getElem?_eq_some, hk] at he
    cases he

end JasmineGraph.MapLoop
