import JasmineGraph.Bytes.Lines
import JasmineGraph.Cypher.Ast

/-!
# JSON values and the buffers between operators

The operators of a worker (`runtime/OperatorExecutor.cpp`) pass rows to each other through a
`SharedBuffer`, a queue of strings. A row is the text of a JSON object; the string `"-1"` closes a
stream.

* `JsonValue` is a value of the JSON library. The members of an object are kept by key, as in the
  library's `std::map`; `set` is an assignment to a member.
* `Message` is an entry of a buffer. A text that is printed from an object starts with a brace, so
  that it is not the closing string.
* The printer and the parser of the library are not modelled. Where the text of a row matters they
  are arguments.
-/

namespace JasmineGraph.Cypher

open JasmineGraph.Bytes
open scoped List

/-- `operator<` of `std::string`: bytes are compared as unsigned numbers. -/
def Text.lt (s t : Text) : Bool := decide (s.map UInt8.toNat < t.map UInt8.toNat)

/-- A value of the JSON library. -/
inductive JsonValue
  | null
  | bool (b : Bool)
  | int (n : Int)
  | float (bits : UInt64)
  | string (s : Text)
  | array (items : List JsonValue)
  | object (members : List (Text × JsonValue))

/-- An entry of a `SharedBuffer`. -/
inductive Message (ρ : Type)
  | row (r : ρ)
  | stop
  deriving DecidableEq, Repr

/-- The messages of a whole stream: its rows, and the end marker. -/
def stream {ρ : Type} (rows : List ρ) : List (Message ρ) := rows.map .row ++ [.stop]

theorem stream_injective {ρ : Type} : Function.Injective (stream (ρ := ρ)) := fun _ _ h =>
  List.map_injective_iff.2 (fun _ _ => Message.row.inj) (List.append_cancel_right h)

/-- Two outputs hold the same rows, each as often as in the other, and then one end marker. -/
def SameRows {ρ : Type} (out out' : List (Message ρ)) : Prop :=
  ∃ rows rows', out = stream rows ∧ out' = stream rows' ∧ rows ~ rows'

theorem sameRows_stream {ρ : Type} {rows rows' : List ρ} :
    SameRows (stream rows) (stream rows') ↔ rows ~ rows' := by
  constructor
  · rintro ⟨l, l', hl, hl', hperm⟩
    rwa [stream_injective hl, stream_injective hl']
  · exact fun h => ⟨rows, rows', rfl, rfl, h⟩

def setMember (key : Text) (value : JsonValue) : List (Text × JsonValue) → List (Text × JsonValue)
  | [] => [(key, value)]
  | (k, v) :: members =>
    if k = key then (key, value) :: members
    else if Text.lt key k then (key, value) :: (k, v) :: members
    else (k, v) :: setMember key value members

theorem mem_setMember {key : Text} {value : JsonValue} {members : List (Text × JsonValue)}
    {m : Text × JsonValue} (h : m ∈ setMember key value members) : m = (key, value) ∨ m ∈ members := by
  fun_induction setMember key value members with
  | case1 => exact .inl (List.mem_singleton.1 h)
  | case2 v members => exact (List.mem_cons.1 h).imp_right (List.mem_cons_of_mem _)
  | case3 k v members hk hlt => exact List.mem_cons.1 h
  | case4 k v members hk hlt ih =>
    rcases List.mem_cons.1 h with rfl | h
    · exact .inr List.mem_cons_self
    · exact (ih h).imp_right (List.mem_cons_of_mem _)

theorem lookup_cons_eq (k key : Text) (value : JsonValue) (members : List (Text × JsonValue)) :
    ((key, value) :: members).lookup k = if k = key then some value else members.lookup k := by
  rw [List.lookup]
  by_cases hk : k = key
  · rw [if_pos hk, beq_iff_eq.2 hk]
  · rw [if_neg hk, beq_eq_false_iff_ne.2 hk]

theorem lookup_setMember (key : Text) (value : JsonValue) (members : List (Text × JsonValue))
    (k : Text) : (setMember key value members).lookup k =
      if k = key then some value else members.lookup k := by
  fun_induction setMember key value members with
  | case1 => exact lookup_cons_eq k key value []
  | case2 v members =>
    rw [lookup_cons_eq, lookup_cons_eq]
    split_ifs <;> rfl
  | case3 k' v members hk' hlt => exact lookup_cons_eq k key value _
  | case4 k' v members hk' hlt ih =>
    rw [lookup_cons_eq, lookup_cons_eq, ih]
    by_cases hk : k = k'
    · rw [if_pos hk, if_neg (hk ▸ hk'), if_pos hk]
    · rw [if_neg hk, if_neg hk]

theorem Text.lt_asymm {s t : Text} (h : Text.lt s t = true) : Text.lt t s = false :=
  decide_eq_false (of_decide_eq_true h : s.map UInt8.toNat < t.map UInt8.toNat).not_gt

theorem Text.lt_trans {s t u : Text} (h : Text.lt s t = true) (h' : Text.lt t u = true) :
    Text.lt s u = true :=
  decide_eq_true ((of_decide_eq_true h : s.map UInt8.toNat < t.map UInt8.toNat).trans
    (of_decide_eq_true h'))

theorem Text.lt_total {s t : Text} (hne : s ≠ t) (h : Text.lt s t = false) : Text.lt t s = true := by
  have hmap : s.map UInt8.toNat ≠ t.map UInt8.toNat :=
    fun heq => hne (List.map_injective_iff.2 (fun _ _ => UInt8.toNat_inj.1) heq)
  exact decide_eq_true (lt_of_le_of_ne (not_lt.1 (of_decide_eq_false h)) hmap.symm)

theorem setMember_setMember (key : Text) (value value' : JsonValue)
    (members : List (Text × JsonValue)) :
    setMember key value' (setMember key value members) = setMember key value' members := by
  fun_induction setMember key value members with
  | case1 => simp [setMember]
  | case2 v members => simp [setMember]
  | case3 k v members hk hlt => simp [setMember, hk, hlt]
  | case4 k v members hk hlt ih => simp [setMember, hk, hlt, ih]

theorem setMember_comm {key key' : Text} (hne : key ≠ key') (value value' : JsonValue)
    (members : List (Text × JsonValue)) :
    setMember key' value' (setMember key value members) =
      setMember key value (setMember key' value' members) := by
  -- up to the swap of the two keys, `key` comes first
  wlog hlt : Text.lt key key' = true generalizing key key' value value'
  · exact (this hne.symm value' value (Text.lt_total hne (Bool.eq_false_iff.2 hlt))).symm
  have hasymm := Text.lt_asymm hlt
  induction members with
  | nil => simp [setMember, hne, hne.symm, hlt, hasymm]
  | cons m members ih =>
    obtain ⟨k, v⟩ := m
    by_cases hk : k = key
    · simp [setMember, hk, hne, hasymm]
    · cases hbefore : Text.lt key k with
      | true =>
        by_cases hk' : k = key' <;> cases hbefore' : Text.lt key' k <;>
          simp [setMember, hk, hk', hne, hne.symm, hbefore, hbefore', hlt, hasymm]
      | false =>
        -- both keys come after `k`
        have hafter := Text.lt_trans (Text.lt_total (Ne.symm hk) hbefore) hlt
        have hk' : k ≠ key' := by
          rintro rfl
          rw [hlt] at hbefore
          exact Bool.noConfusion hbefore
        simp [setMember, hk, hk', hbefore, Text.lt_asymm hafter, ih]

namespace JsonValue

def isNull : JsonValue → Bool
  | null => true
  | _ => false

def member? (v : JsonValue) (key : Text) : Option JsonValue :=
  match v with
  | object members => members.lookup key
  | _ => none

def set (v : JsonValue) (key : Text) (value : JsonValue) : JsonValue :=
  match v with
  | object members => object (setMember key value members)
  | _ => object [(key, value)]

@[simp] theorem member?_set (v : JsonValue) (key : Text) (value : JsonValue) (k : Text) :
    (v.set key value).member? k = if k = key then some value else v.member? k := by
  cases v with
  | object members => exact lookup_setMember key value members k
  | _ => exact lookup_setMember key value [] k

def members : JsonValue → List (Text × JsonValue)
  | object members => members
  | _ => []

theorem set_eq (v : JsonValue) (key : Text) (value : JsonValue) :
    v.set key value = .object (setMember key value v.members) := by
  cases v <;> rfl

theorem set_again (v : JsonValue) (key key' : Text) (a a' b b' : JsonValue) :
    (((v.set key a).set key' a').set key b).set key' b' = (v.set key b).set key' b' := by
  simp only [set_eq, members]
  rcases eq_or_ne key key' with rfl | hne
  · simp only [setMember_setMember]
  · rw [setMember_comm hne, setMember_setMember, setMember_comm hne, setMember_setMember,
      setMember_comm hne]

def stringMember? (v : JsonValue) (key : Text) : Option Text :=
  match v.member? key with
  | some (string s) => some s
  | _ => none

end JsonValue

end JasmineGraph.Cypher
