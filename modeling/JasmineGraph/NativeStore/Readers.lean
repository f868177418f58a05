import JasmineGraph.NativeStore.Image
import JasmineGraph.NativeStore.Open

/-!
# What readers see of a store

The functions that only read a store go by the contents of its files and by the index map.
`SameContents` relates two stores that agree on the index and on some of the files, whatever their
buffers, cursors and counters are. A reading function returns the same from both (`Agrees`): links
and their chains if the files agree on that kind, node blocks, relations, lists of relations and
property maps if they agree on the five files whose writes are always flushed.
-/

namespace JasmineGraph.NativeStore

open Bytes Refine NodeBlock

/-- Two stores with the same index and the same contents of the files in `D`. -/
structure SameContents (D : DB → Prop) (s s' : Store) : Prop where
  index : ∀ id : ByteString, s.mem.nodeIndex[id]? = s'.mem.nodeIndex[id]?
  stream : ∀ d : DB, D d → (s.streams d).Alike (s'.streams d)

namespace SameContents

variable {α : Type} {D : DB → Prop} {d : DB} {k : LinkKind}

theorem agrees_undefined : Agrees (SameContents D) (undefined : M α) := fun _ _ _ => .none

theorem agrees_ofOption (o : Option α) : Agrees (SameContents D) (ofOption o) := by
  cases o with
  | none => exact agrees_undefined
  | some a => exact .pure

theorem agrees_readAt (hd : D d) (p : Nat) (widths : List Nat) :
    Agrees (SameContents D) (readAt d p widths) := by
  intro s s' hs
  obtain ⟨heq, halike⟩ := (hs.stream d hd).readAt p widths
  refine .some ⟨heq, hs.index, fun e he => ?_⟩
  by_cases hed : e = d
  · subst hed
    simpa only [Function.update_self] using halike
  · simpa only [Function.update_of_ne hed] using hs.stream e he

theorem agrees_viewSize (hd : D d) : Agrees (SameContents D) (viewSize d) := by
  intro s s' hs
  exact .some ⟨congrArg ByteFile.size (hs.stream d hd).view, hs⟩

/-! ## Links and their chains -/

section

variable (hk : D (.links k))

include hk

theorem agrees_readLink (a : Nat) : Agrees (SameContents D) (readLink k a) := by
  refine .bind (agrees_readAt hk a _) fun fields => ?_
  split
  · exact .bind (agrees_ofOption _) fun _ => .pure
  · exact agrees_undefined

theorem agrees_getLink (a : Nat) : Agrees (SameContents D) (getLink k a) := by
  unfold getLink
  split_ifs
  · exact .pure
  · exact .bind (agrees_readLink hk a) fun _ => .pure

theorem agrees_next (l : Link) : Agrees (SameContents D) (l.next k) := by
  unfold Link.next
  split_ifs
  · exact .pure
  · exact .bind (agrees_readLink hk _) fun _ => .pure

theorem agrees_collectProperties : ∀ (fuel : Nat) (current : Option Link) (props : PropertyMap),
      Agrees (SameContents D) (collectProperties k fuel current props) := by
  intro fuel
  induction fuel with
  | zero =>
    intro current props
    cases current with
    | none => exact .pure
    | some l => exact agrees_undefined
  | succ fuel ih =>
    intro current props
    cases current with
    | none => exact .pure
    | some l =>
      refine .bind (agrees_ofOption _) fun value => ?_
      exact .bind (agrees_next hk l) fun next => ih next _

theorem agrees_allProperties (head : Option Link) : Agrees (SameContents D) (allProperties k head) :=
  .bind (.bind (agrees_viewSize hk) fun _ => .pure) fun _ =>
    agrees_collectProperties hk _ head ∅

end

variable (hD : ∀ d : DB, d.isFlushed = true → D d)

include hD

theorem agrees_getAllProperties (n : NodeBlock) : Agrees (SameContents D) n.getAllProperties :=
  .bind (agrees_getLink (hD (.links .property) rfl) _) fun _ => agrees_allProperties (hD _ rfl) _

theorem agrees_getAllProperties_relation (r : RelationBlock) :
    Agrees (SameContents D) r.getAllProperties :=
  .bind (agrees_getLink (hD (.links .edgeProperty) rfl) _) fun _ =>
    agrees_allProperties (hD _ rfl) _

/-! ## Nodes and relations -/

theorem agrees_read (id : ByteString) (a : Nat) : Agrees (SameContents D) (read id a) := by
  refine .bind (agrees_readAt (hD _ rfl) a _) fun fields => ?_
  split
  · exact .bind (agrees_ofOption _) fun _ => .pure
  · exact agrees_undefined

theorem agrees_get (a : Nat) : Agrees (SameContents D) (get a) := by
  refine .bind (agrees_read hD [] a) fun node => ?_
  have hlast : ∀ n : NodeBlock, Agrees (SameContents D)
      (if n.edgeRef % 152 ≠ 0 then undefined else pure n : M NodeBlock) := fun n => by
    split_ifs
    · exact agrees_undefined
    · exact .pure
  split_ifs
  · exact .bind .pure hlast
  · exact .bind (agrees_getAllProperties hD node) fun _ => .bind .pure hlast

theorem agrees_getNode (id : ByteString) : Agrees (SameContents D) (NodeManager.get id) := by
  intro s s' hs
  unfold NodeManager.get
  simp only [memory, bind, StateT.bind, Option.bind_some]
  rw [← hs.index id]
  cases s.mem.nodeIndex[id]? with
  | none => exact Agrees.pure s s' hs
  | some i =>
    refine Agrees.bind ?_ (fun _ => Agrees.pure) s s' hs
    exact agrees_read hD id _

theorem agrees_getRelation (k : RelationKind) (a : Nat) :
    Agrees (SameContents D) (RelationBlock.getRelation k a) := by
  unfold RelationBlock.getRelation
  split_ifs
  · exact .pure
  · exact agrees_undefined
  · refine .bind (agrees_readAt (hD _ rfl) a _) fun fields => ?_
    split
    · exact .pure
    · refine .bind ?_ fun _ => .pure
      exact .bind (agrees_get hD _) fun _ => .bind (agrees_get hD _) fun _ => .pure

theorem agrees_edgeNodesFrom (k : RelationKind) (n : NodeBlock) :
    ∀ (fuel : Nat) (r : Option RelationBlock), Agrees (SameContents D) (edgeNodesFrom k n fuel r) := by
  intro fuel
  induction fuel with
  | zero =>
    intro r
    cases r with
    | none => exact .pure
    | some r => exact agrees_undefined
  | succ fuel ih =>
    intro r
    cases r with
    | none => exact .pure
    | some r =>
      unfold edgeNodesFrom
      split_ifs
      · refine .bind (agrees_get hD _) fun _ => .bind (agrees_getRelation hD k _) fun next => ?_
        exact .bind (ih next) fun _ => .pure
      · refine .bind (agrees_get hD _) fun _ => .bind (agrees_getRelation hD k _) fun next => ?_
        exact .bind (ih next) fun _ => .pure
      · exact .pure

theorem agrees_getEdgeNodes (k : RelationKind) (n : NodeBlock) :
    Agrees (SameContents D) (n.getEdgeNodes k) := by
  have hhead : Agrees (SameContents D) (n.getRelationHead k) := by
    unfold getRelationHead
    split_ifs
    · exact agrees_getRelation hD k _
    · exact .pure
  refine .bind hhead fun r => ?_
  exact .bind (.bind (agrees_viewSize (hD _ rfl)) fun _ => .pure) fun _ =>
    agrees_edgeNodesFrom hD k n _ r

end SameContents

end JasmineGraph.NativeStore
