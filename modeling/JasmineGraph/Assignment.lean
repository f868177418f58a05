import Mathlib

/-!
# Assigning items to places with room

Every item has a list of places it may go to and every place has room for a number of items. The
items can be assigned (`Assignable`) when each can be given one of its places without overfilling
any.

* `assignable_cons`: an item is given a place with room, and the others are assigned with that much
  less room. This is the step of a search that assigns one item after the other.
* `assignable_perm`: the order of the items does not matter.
* `Assignable.exchange`: taking away some room costs at most one of the items.
* `Forced.erase`: where the items can be assigned one after the other without a choice, it does not
  matter which is first.
-/

namespace JasmineGraph

open List Function

variable {P W : Type} [DecidableEq W] {avail : P → List W} {room : W → Nat} {ps qs : List P} {p : P}

/-- Each item of the list can be given one of its places, within the room. -/
def Assignable (avail : P → List W) (room : W → Nat) (ps : List P) : Prop :=
  ∃ f : P → Option W, (∀ p ∈ ps, ∃ w ∈ avail p, f p = some w) ∧
    ∀ w, ps.countP (fun p => decide (f p = some w)) ≤ room w

theorem assignable_nil : Assignable avail room [] :=
  ⟨fun _ => none, nofun, fun _ => Nat.zero_le _⟩

theorem Assignable.perm (h : Assignable avail room ps) (hperm : ps.Perm qs) :
    Assignable avail room qs := by
  obtain ⟨f, hf, hroom⟩ := h
  refine ⟨f, fun p hp => hf p (hperm.mem_iff.2 hp), fun w => ?_⟩
  rw [← hperm.countP_eq]
  exact hroom w

theorem assignable_perm (hperm : ps.Perm qs) :
    Assignable avail room ps ↔ Assignable avail room qs :=
  ⟨fun h => h.perm hperm, fun h => h.perm hperm.symm⟩

theorem room_pos_of_count_le {f : P → Option W} {w : W} {n : Nat}
    (hroom : ps.countP (fun p => decide (f p = some w)) ≤ n) (hp : p ∈ ps)
    (hw : f p = some w) : 0 < n :=
  Nat.lt_of_lt_of_le (countP_pos_iff.2 ⟨p, hp, decide_eq_true hw⟩) hroom

/-- **One item after the other.** -/
theorem assignable_cons (hp : p ∉ ps) : Assignable avail room (p :: ps) ↔
    ∃ w ∈ avail p, 0 < room w ∧ Assignable avail (Function.update room w (room w - 1)) ps := by
  classical
  constructor
  · rintro ⟨f, hf, hroom⟩
    obtain ⟨w, hw, hfp⟩ := hf p mem_cons_self
    refine ⟨w, hw, room_pos_of_count_le (hroom w) mem_cons_self hfp, f,
      fun q hq => hf q (mem_cons_of_mem _ hq), fun w' => ?_⟩
    have hcount := hroom w'
    rw [countP_cons] at hcount
    by_cases hww : w' = w
    · subst hww
      rw [hfp, decide_eq_true rfl, if_pos rfl] at hcount
      rw [update_self]
      omega
    · rw [update_of_ne hww]
      omega
  · rintro ⟨w, hw, hpos, f, hf, hroom⟩
    -- the items of the list keep their places, `p` is given `w`
    have hsame : ∀ q ∈ ps, Function.update f p (some w) q = f q := by
      intro q hq
      exact update_of_ne (ne_of_mem_of_not_mem hq hp) _ _
    refine ⟨Function.update f p (some w), fun q hq => ?_, fun w' => ?_⟩
    · rcases mem_cons.1 hq with rfl | hq
      · exact ⟨w, hw, update_self ..⟩
      · rw [hsame q hq]
        exact hf q hq
    · have hcount := hroom w'
      rw [countP_cons, update_self, countP_congr fun q hq => by rw [hsame q hq]]
      by_cases hww : w' = w
      · subst hww
        rw [update_self] at hcount
        rw [decide_eq_true rfl, if_pos rfl]
        omega
      · rw [update_of_ne hww] at hcount
        rw [decide_eq_false fun h => hww (Option.some.inj h).symm]
        exact hcount

/-- **A place gives up some of its room** for at most one of its items. -/
theorem Assignable.exchange (h : Assignable avail room ps) (w : W) :
    ∃ qs, qs.Sublist ps ∧ ps.length ≤ qs.length + 1 ∧
      Assignable avail (Function.update room w (room w - 1)) qs := by
  classical
  obtain ⟨f, hf, hroom⟩ := h
  have hsub : ∀ {qs}, qs.Sublist ps → qs.countP (fun p => decide (f p = some w)) ≤ room w - 1 →
      Assignable avail (Function.update room w (room w - 1)) qs := by
    refine fun {qs} hqs hcount => ⟨f, fun p hp => hf p (hqs.subset hp), fun w' => ?_⟩
    by_cases hww : w' = w
    · subst hww
      rwa [update_self]
    · rw [update_of_ne hww]
      exact hqs.countP_le.trans (hroom w')
  by_cases hitem : ∃ q ∈ ps, f q = some w
  · obtain ⟨q, hq, hfq⟩ := hitem
    have hlen := length_erase_of_mem hq
    refine ⟨ps.erase q, erase_sublist, by omega, hsub erase_sublist ?_⟩
    rw [countP_erase, if_pos ⟨hq, decide_eq_true hfq⟩]
    exact Nat.sub_le_sub_right (hroom w) 1
  · refine ⟨ps, .refl _, Nat.le_succ _, hsub (.refl _) ?_⟩
    rw [countP_eq_zero.2 fun q hq => by simpa using fun hfq => hitem ⟨q, hq, hfq⟩]
    exact Nat.zero_le _

/-! ## Assigning without a choice -/

variable {q : P} {w w' : W}

theorem Assignable.place (h : Assignable avail (Function.update room w (room w - 1)) qs)
    (hq : q ∈ qs) (hw' : ∀ x, x ∈ avail q ∧ 0 < room x ↔ x = w') (x : W) :
    x ∈ avail q ∧ 0 < Function.update room w (room w - 1) x ↔ x = w' := by
  have hle : ∀ x, 0 < Function.update room w (room w - 1) x → 0 < room x := by
    intro x hx
    by_cases hxw : x = w
    · subst hxw
      rw [update_self] at hx
      omega
    · rwa [update_of_ne hxw] at hx
  obtain ⟨f, hf, hroom⟩ := h
  obtain ⟨y, hy, hfy⟩ := hf q hq
  have hpos := room_pos_of_count_le (hroom y) hq hfy
  obtain rfl := (hw' y).1 ⟨hy, hle y hpos⟩
  exact ⟨fun hx => (hw' x).1 ⟨hx.1, hle x hx.2⟩, fun hx => hx ▸ ⟨hy, hpos⟩⟩

variable [DecidableEq P]

/-- The items have an order in which each has one place with room when its turn comes. -/
inductive Forced (avail : P → List W) : (W → Nat) → List P → Prop
  | nil {room : W → Nat} : Forced avail room []
  | cons {room : W → Nat} {ps : List P} {p : P} {w : W} (hp : p ∈ ps)
    (hw : ∀ x, x ∈ avail p ∧ 0 < room x ↔ x = w)
    (rest : Forced avail (Function.update room w (room w - 1)) (ps.erase p)) : Forced avail room ps

theorem Assignable.erase (h : Assignable avail room ps) (hps : ps.Nodup) (hp : p ∈ ps)
    (hw : ∀ x, x ∈ avail p ∧ 0 < room x ↔ x = w) :
    Assignable avail (Function.update room w (room w - 1)) (ps.erase p) := by
  rw [assignable_perm (perm_cons_erase hp), assignable_cons hps.not_mem_erase] at h
  obtain ⟨x, hx, hpos, hrest⟩ := h
  obtain rfl := (hw x).1 ⟨hx, hpos⟩
  exact hrest

theorem Forced.erase (h : Forced avail room ps) (hassign : Assignable avail room ps)
    (hps : ps.Nodup) (hq : q ∈ ps) (hw' : ∀ x, x ∈ avail q ∧ 0 < room x ↔ x = w') :
    Forced avail (Function.update room w' (room w' - 1)) (ps.erase q) := by
  induction h generalizing q w' with
  | nil => cases hq
  | @cons room ps p w hp hw rest ih =>
    by_cases hqp : q = p
    · subst hqp
      exact (hw' w).1 ((hw w).2 rfl) ▸ rest
    have hq' : q ∈ ps.erase p := (mem_erase_of_ne hqp).2 hq
    have hp' : p ∈ ps.erase q := (mem_erase_of_ne (Ne.symm hqp)).2 hp
    have hafter := hassign.erase hps hp hw
    have hboth := ih hafter (hps.erase p) hq' (hafter.place hq' hw')
    refine .cons hp' ((hassign.erase hps hq hw').place hp' hw) ?_
    rw [erase_comm]
    by_cases hww : w = w'
    · rwa [hww] at hboth ⊢
    · rw [update_of_ne (Ne.symm hww)] at hboth
      rwa [update_of_ne hww, update_comm (Ne.symm hww)]

end JasmineGraph
