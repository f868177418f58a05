import JasmineGraph.NativeStore.Blocks

/-!
# `addNode` on an image

`NodeManager::addNode` returns the block of an id it knows (`runs_addNode_known`) and appends a
block for a new one (`runs_addNode_new`). What the latter changes is `NodeAdded`: the index has one
entry more, the nodes file one block more, the relation files are as before. An id of 118 bytes or
more does not fit the label of its block and becomes the property `label` as well, so the file of
properties may grow too.
-/

namespace JasmineGraph.NativeStore

open Bytes Refine NodeBlock Runs NodeField

namespace Image

variable {img : Image}

/-! ## A first property link -/

def withLink (img : Image) (k : LinkKind) (dataName value : ByteString) : Image :=
  (img.wrote (.links k) (img.mem.newLinkAddress k) [dataName, value, le32 0].flatten).withMem
    (·.bumpProperty k)

theorem runs_createLink {k : LinkKind} {name dataName : ByteString} (value : ByteString)
    (h : k.copyName name = some dataName) :
    Runs (Shown none img) (createLink k name value)
      (some ⟨img.mem.newLinkAddress k, name, value, 0⟩)
      (Shown none (img.withLink k dataName value)) := by
  refine bind (runs_ofOption h) (bind runs_memory ?_)
  refine bind (runs_writeAt _ _ _ (.inl rfl)) (bind (runs_flush (.inr rfl)) ?_)
  exact bind (runs_modifyMemory _) pure

variable {this : NodeBlock} {v : Nat} {id : ByteString}

/-- A first property: its link is created and referenced from the node block. -/
theorem runs_addTo_create {field : RefField} {name dataName : ByteString}
    (value : ByteString) (href : field.ref this = 0)
    (haddr : ∀ r, (field.setRef this r).addr = this.addr)
    (h : field.kind.copyName name = some dataName) :
    Runs (Shown none img) (addTo field this name value)
      (field.setRef this (img.mem.newLinkAddress field.kind))
      (Shown none ((img.withLink field.kind dataName value).wrote .nodes
        (this.addr + field.offset) (le32 (img.mem.newLinkAddress field.kind)))) := by
  unfold addTo
  rw [if_pos href]
  refine bind (runs_createLink value h) ?_
  dsimp only
  rw [haddr]
  exact bind (runs_writeAt _ _ _ (.inl rfl)) (bind (runs_flush (.inr rfl)) pure)

/-! ## Saving a node -/

theorem runs_save_small (h : this.id.length < labelSize) :
    Runs (Shown none img) this.save (this.setLabel this.id)
      (Shown none (img.wrote .nodes this.addr (nodeBytes (this.setLabel this.id)))) := by
  unfold save
  simp only [if_pos h]
  exact bind (runs_writeAt _ _ _ (.inl rfl)) (bind (runs_flush (.inr rfl)) pure)

def labelName : ByteString := pad 30 (ascii "label")

theorem runs_save_large (h : ¬ this.id.length < labelSize) (href : this.propRef = 0) :
    Runs (Shown none img) this.save
      { this with propRef := img.mem.newLinkAddress .property }
      (Shown none (((img.wrote .nodes this.addr (nodeBytes this)).withLink .property labelName
        (strncpy LinkKind.valueSize this.id)).wrote .nodes (this.addr + 14)
        (le32 (img.mem.newLinkAddress .property)))) := by
  have hname : LinkKind.property.copyName (ascii "label") = some labelName := by decide
  unfold save
  simp only [if_neg h]
  refine bind (runs_writeAt _ _ _ (.inl rfl)) (bind (runs_flush (.inr rfl)) ?_)
  exact runs_addTo_create _ href (fun _ => rfl) hname

/-! ## Adding a node -/

def newNode (img : Image) (id : ByteString) (v : Nat) : NodeBlock :=
  (new id v (img.mem.nextNodeIndex * blockSize)).setLabel id

def indexed (img : Image) (id : ByteString) : Image :=
  (img.withMem (·.addIndex id (pad img.mem.indexKeySize (cstr id)) img.mem.nextNodeIndex)).withMem
    (·.bumpNode)

def withBlock (img : Image) (id : ByteString) (v : Nat) : Image :=
  (img.indexed id).wrote .nodes (img.newNode id v).addr (nodeBytes (img.newNode id v))

def withNode (img : Image) (id : ByteString) (v : Nat) : Image :=
  if id.length < labelSize then img.withBlock id v
  else ((img.withBlock id v).withLink .property labelName (strncpy LinkKind.valueSize id)).wrote
    .nodes ((img.newNode id v).addr + propRef.offset)
    (le32 (img.mem.newLinkAddress .property))

def addedNode (img : Image) (id : ByteString) (v : Nat) : NodeBlock :=
  if id.length < labelSize then img.newNode id v
  else { img.newNode id v with propRef := img.mem.newLinkAddress .property }

theorem cstr_newNode_label (id : ByteString) (v : Nat) :
    cstr (img.newNode id v).label = (cstr id).take 117 := by
  have hlen : ((cstr id).take 117).length < 118 := by
    rw [List.length_take]
    omega
  exact cstr_pad hlen fun h => zero_notMem_cstr id (List.mem_of_mem_take h)

theorem newNode_wellFormed (img : Image) (id : ByteString) (hv : v < 2 ^ 32) :
    NodeWellFormed (img.newNode id v) where
  nodeId := hv
  edgeRef := Nat.two_pow_pos 32
  centralEdgeRef := Nat.two_pow_pos 32
  propRef := Nat.two_pow_pos 32
  metaPropRef := Nat.two_pow_pos 32
  label := by
    rw [cstr_newNode_label]
    rfl
  terminated := by
    rw [cstr_newNode_label, List.length_take, labelSize]
    omega

/-- What a new node changes: `img'` is the image after `addNode` of `id`, `n` the object it
returns, `v` the number of the node. -/
structure NodeAdded (img img' : Image) (id : ByteString) (v : Nat) (n : NodeBlock) : Prop where
  nodeId : n.nodeId = v
  addr : n.addr = img.mem.nextNodeIndex * blockSize
  noRelation : ∀ k, n.relationRef k = 0
  nodeIndex : img'.mem.nodeIndex = img.mem.nodeIndex.insert id img.mem.nextNodeIndex
  nextNodeIndex : img'.mem.nextNodeIndex = u32 (img.mem.nextNodeIndex + 1)
  nextRelationIndex : img'.mem.nextRelationIndex = img.mem.nextRelationIndex
  indexKeySize : img'.mem.indexKeySize = img.mem.indexKeySize
  indexDB : img'.mem.indexDB = img.mem.indexDB ++ pad img.mem.indexKeySize (cstr id) ++
    le32 img.mem.nextNodeIndex
  relations : ∀ k, img'.files (.relations k) = img.files (.relations k)
  cursor : img'.cursor = img.cursor
  size : (img'.files .nodes).size = n.addr + blockSize
  kept : ∀ p m, p + m ≤ n.addr → (img'.files .nodes).slice p m = (img.files .nodes).slice p m
  block : ∀ id', nodeAt (img'.files .nodes) id' n.addr = { n with id := id' }
  ok : NodeOk (img'.files .nodes) n.addr

theorem withBlock_added (hv : v < 2 ^ 32) (hid : cstr id ≠ [])
    (hsize : (img.files .nodes).size = img.mem.nextNodeIndex * blockSize) :
    NodeAdded img (img.withBlock id v) id v (img.newNode id v) := by
  have hwf := img.newNode_wellFormed id hv
  have hlen := length_nodeBytes hwf
  have hfile : (img.withBlock id v).files .nodes =
      (img.files .nodes).write (img.newNode id v).addr (nodeBytes (img.newNode id v)) :=
    wrote_files_self _ _ _ _
  have hsize' : ((img.withBlock id v).files .nodes).size = (img.newNode id v).addr + blockSize := by
    rw [hfile, ByteFile.size_write (List.ne_nil_of_length_pos (by rw [hlen]; decide)), hlen, hsize]
    exact Nat.max_eq_right (Nat.le_add_right _ _)
  have hblock : ∀ id', nodeAt ((img.withBlock id v).files .nodes) id' (img.newNode id v).addr =
      { img.newNode id v with id := id' } := by
    intro id'
    exact nodeAt_write hwf rfl id'
  refine ⟨rfl, rfl, fun k => by cases k <;> rfl, ?_, ?_, ?_, ?_, ?_, fun k => ?_, rfl, hsize',
    fun p m hp => ?_, hblock, ⟨⟨hsize'.ge, ?_⟩, ?_, ?_⟩⟩
  · simp only [withBlock]; rfl
  · simp only [withBlock]; rfl
  · simp only [withBlock]; rfl
  · simp only [withBlock]; rfl
  · simp only [withBlock]; rfl
  · exact wrote_files_of_ne _ (by simp) _ _
  · rw [hfile]
    exact ByteFile.slice_write_of_disjoint (.inl hp)
  · rw [hfile, slice_label_write hwf, hwf.label, pad]
    have hterm := hwf.terminated
    exact List.mem_append_right _ (List.mem_replicate.2 ⟨by omega, rfl⟩)
  · rw [hfile, slice_label_write hwf, cstr_newNode_label]
    simpa using hid
  · have h0 := congrArg edgeRef (hblock [])
    change u32At _ _ = 0 at h0
    rw [h0]

theorem NodeAdded.setPropRef {img' : Image} {v r : Nat} {n : NodeBlock}
    (h : NodeAdded img img' id v n) (hr : r < 2 ^ 32) (value : ByteString) :
    NodeAdded img ((img'.withLink .property labelName value).wrote .nodes
      (n.addr + propRef.offset) (le32 r)) id v { n with propRef := r } := by
  have hsize : blockSize = 140 := rfl
  have hfile : ((img'.withLink .property labelName value).wrote .nodes
      (n.addr + propRef.offset) (le32 r)).files .nodes =
      (img'.files .nodes).write (n.addr + propRef.offset) (le32 r) := by
    rw [wrote_files_self, withLink, withMem_files, wrote_files_of_ne _ (by simp)]
  have hoff : propRef.offset = 14 := rfl
  have hsize' : ((img'.files .nodes).write (n.addr + propRef.offset) (le32 r)).size =
      n.addr + blockSize := by
    rw [ByteFile.size_write_of_le (by rw [h.size, length_le32]; omega), h.size]
  have hword : u32At ((img'.files .nodes).write (n.addr + propRef.offset) (le32 r))
      (n.addr + 5) = u32At (img'.files .nodes) (n.addr + 5) :=
    u32At_write_of_disjoint (by rw [length_le32]; omega)
  refine ⟨h.nodeId, h.addr, fun k => ?_, ?_, ?_, ?_, ?_, ?_, fun k => ?_, ?_, ?_,
    fun p m hp => ?_, fun id' => ?_, ?_⟩
  · have hk := h.noRelation k
    cases k <;> exact hk
  · rw [← h.nodeIndex]; rfl
  · rw [← h.nextNodeIndex]; rfl
  · rw [← h.nextRelationIndex]; rfl
  · rw [← h.indexKeySize]; rfl
  · rw [← h.indexDB]; rfl
  · exact h.relations k
  · exact h.cursor
  · rw [hfile, hsize']
  · rw [hfile, ByteFile.slice_write_of_disjoint (.inl (Nat.le_trans hp (Nat.le_add_right _ _)))]
    exact h.kept p m hp
  · rw [hfile]
    rw [nodeAt_write_field _ hr, h.block]
    rfl
  · rw [hfile]
    refine ⟨⟨hsize'.ge, ?_⟩, ?_, ?_⟩
    · rw [slice_label_write_field]
      exact h.ok.terminated
    · rw [slice_label_write_field]
      exact h.ok.labelled
    · rw [hword]
      exact h.ok.aligned

/-- **Adding a node** appends one block and one index record, and touches no relation. -/
theorem withNode_added (hv : v < 2 ^ 32) (hid : cstr id ≠ [])
    (hsize : (img.files .nodes).size = img.mem.nextNodeIndex * blockSize) :
    NodeAdded img (img.withNode id v) id v (img.addedNode id v) := by
  have h := withBlock_added hv hid hsize
  unfold withNode addedNode
  by_cases hsmall : id.length < labelSize
  · rw [if_pos hsmall, if_pos hsmall]
    exact h
  · rw [if_neg hsmall, if_neg hsmall]
    exact h.setPropRef (u32_lt _) (strncpy LinkKind.valueSize id)

theorem runs_addNode_known {i : Nat} (h : img.mem.nodeIndex[id]? = some i)
    (hi : i * blockSize < 2 ^ 32)
    (hok : NodeReadable (img.files .nodes) (i * blockSize)) :
    Runs (Shown none img) (NodeManager.addNode id)
      (nodeAt (img.files .nodes) id (i * blockSize)) (Shown none img) := by
  refine bind runs_memory ?_
  simp only [h]
  unfold NodeManager.getAt
  rw [u32_of_lt hi]
  exact runs_read id hok

theorem runs_addNode_new (h : img.mem.nodeIndex[id]? = none)
    (hi : img.mem.nextNodeIndex * blockSize < 2 ^ 32) (hv : stoul id = some v)
    (hkey : (cstr id).length < img.mem.indexKeySize) :
    Runs (Shown none img) (NodeManager.addNode id) (img.addedNode id (u32 v))
      (Shown none (img.withNode id (u32 v))) := by
  have hcpy : strcpy img.mem.indexKeySize id = some (pad img.mem.indexKeySize (cstr id)) :=
    if_pos hkey
  refine bind runs_memory ?_
  simp only [h]
  refine bind (runs_ofOption hv) ?_
  rw [u32_of_lt hi]
  refine bind (bind runs_memory (bind (runs_ofOption hcpy) (runs_modifyMemory _))) ?_
  refine bind (runs_modifyMemory _) ?_
  unfold addedNode withNode
  by_cases hsmall : id.length < labelSize
  · rw [if_pos hsmall, if_pos hsmall]
    exact runs_save_small hsmall
  · rw [if_neg hsmall, if_neg hsmall]
    exact runs_save_large hsmall rfl

end Image

end JasmineGraph.NativeStore
