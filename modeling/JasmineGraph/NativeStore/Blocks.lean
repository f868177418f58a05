import JasmineGraph.NativeStore.Image

/-!
# Reading and writing blocks of an image

What the functions of `NodeBlock` and `RelationBlock` do to the image of a store. `nodeAt` is the
object of a node block in a file, `relWord` a record of a relation block; `Image.node` and
`Image.relation` are the objects `NodeBlock::get` and `getLocalRelation` return.

A node block is readable (`NodeOk`) when it lies inside the file, its label is a non-empty
terminated string and its local edge reference is aligned. Every rule below is a `Runs` from image
to image, so the functions that call these need not look at streams again.
-/

namespace JasmineGraph.NativeStore

open Bytes Refine NodeBlock RelationBlock Runs ByteFile

/-! ## Node blocks -/

def nodeAt (f : ByteFile) (id : ByteString) (a : Nat) : NodeBlock where
  id := id
  nodeId := u32At f (a + 1)
  addr := a
  propRef := u32At f (a + 14)
  metaPropRef := u32At f (a + 18)
  edgeRef := u32At f (a + 5)
  centralEdgeRef := u32At f (a + 9)
  edgeRefPID := (f.slice (a + 13) 1).getD 0 0
  label := pad labelSize (cstr (f.slice (a + 22) labelSize))
  usage := (f.slice a 1).getD 0 0 == 1

/-- The block lies in the file and its label is terminated. -/
structure NodeReadable (f : ByteFile) (a : Nat) : Prop where
  inside : a + blockSize ≤ f.size
  terminated : 0 ∈ f.slice (a + 22) labelSize

/-- `NodeBlock::get` reads the block without looking for its id elsewhere. -/
structure NodeOk (f : ByteFile) (a : Nat) : Prop extends NodeReadable f a where
  labelled : cstr (f.slice (a + 22) labelSize) ≠ []
  aligned : u32At f (a + 5) % 152 = 0

theorem cstr_length_lt {b : ByteString} (h : 0 ∈ b) : (cstr b).length < b.length := by
  rcases Nat.lt_or_ge (cstr b).length b.length with hlt | hge
  · exact hlt
  · have heq : cstr b = b := (List.takeWhile_sublist _).eq_of_length_le hge
    rw [← heq] at h
    exact absurd h (zero_notMem_cstr b)

theorem strcpy_of_terminated {n : Nat} {b : ByteString} (hlen : b.length = n) (h : 0 ∈ b) :
    strcpy n b = some (pad n (cstr b)) :=
  if_pos (hlen ▸ cstr_length_lt h)

namespace Image

variable {img : Image} {a : Nat}

def node (img : Image) (a : Nat) : NodeBlock :=
  nodeAt (img.files .nodes) (decimal (u32At (img.files .nodes) (a + 1))) a

@[simp] theorem node_moved (d : DB) (p : Nat) : (img.moved d p).node = img.node := by
  funext a
  rw [node, node, moved_files]

theorem runs_read (id : ByteString) (h : NodeReadable (img.files .nodes) a) :
    Runs (Shown none img) (read id a) (nodeAt (img.files .nodes) id a)
      (Shown none img) := by
  refine bind (runs_readAt h.inside) ?_
  exact bind (runs_ofOption (strcpy_of_terminated (length_slice _ _ _) h.terminated))
    pure

theorem runs_get (h : NodeOk (img.files .nodes) a) :
    Runs (Shown none img) (get a) (img.node a) (Shown none img) := by
  have hlabel : cstr (nodeAt (img.files .nodes) [] a).label ≠ [] := by
    have hlt := cstr_length_lt h.terminated
    rw [length_slice] at hlt
    simp only [nodeAt]
    rw [cstr_pad hlt (zero_notMem_cstr _)]
    exact h.labelled
  refine bind (runs_read [] h.toNodeReadable) ?_
  rw [if_pos hlabel]
  refine bind pure ?_
  have haligned : ¬ ((nodeAt (img.files .nodes) [] a).edgeRef % 152 ≠ 0) :=
    fun hne => hne h.aligned
  dsimp only
  rw [if_neg haligned]
  exact pure

end Image

/-! ## Writing a node block -/

def nodeBytes (n : NodeBlock) : ByteString :=
  [[if n.usage then 1 else 0], le32 n.nodeId, le32 n.edgeRef, le32 n.centralEdgeRef,
    [n.edgeRefPID], le32 n.propRef, le32 n.metaPropRef, n.label].flatten

/-- The numbers of a node object are `unsigned int`s and its label is a string in its buffer. -/
structure NodeWellFormed (n : NodeBlock) : Prop where
  nodeId : n.nodeId < 2 ^ 32
  edgeRef : n.edgeRef < 2 ^ 32
  centralEdgeRef : n.centralEdgeRef < 2 ^ 32
  propRef : n.propRef < 2 ^ 32
  metaPropRef : n.metaPropRef < 2 ^ 32
  label : n.label = pad labelSize (cstr n.label)
  terminated : (cstr n.label).length < labelSize

variable {n : NodeBlock} {f : ByteFile}

theorem NodeWellFormed.length_label (h : NodeWellFormed n) : n.label.length = labelSize := by
  rw [h.label, length_pad (Nat.le_of_lt h.terminated)]

theorem length_nodeBytes (h : NodeWellFormed n) : (nodeBytes n).length = blockSize := by
  have hl : n.label.length = 118 := h.length_label
  simp [nodeBytes, hl, blockSize]

theorem slice_label_write {a : Nat} (h : NodeWellFormed n) :
    (f.write a (nodeBytes n)).slice (a + 22) labelSize = n.label := by
  have hl : n.label.length = 118 := h.length_label
  rw [slice_write_sub (by rw [length_nodeBytes h]; decide)]
  change (n.label ++ []).take 118 = n.label
  rw [List.append_nil, ← hl, List.take_length]

/-- **A saved node reads back.** -/
theorem nodeAt_write {a : Nat} (h : NodeWellFormed n) (haddr : n.addr = a) (id : ByteString) :
    nodeAt (f.write a (nodeBytes n)) id a = { n with id := id } := by
  have hlen := length_nodeBytes h
  have hsize : blockSize = 140 := rfl
  have hword : ∀ o v, o + 4 ≤ 140 → ((nodeBytes n).drop o).take 4 = le32 v → v < 2 ^ 32 →
      u32At (f.write a (nodeBytes n)) (a + o) = v := by
    intro o v ho hv hlt
    rw [u32At_write_sub (by omega), hv, ofLe32_le32 hlt]
  have hbyte : ∀ o v, o + 1 ≤ 140 → ((nodeBytes n).drop o).take 1 = [v] →
      ((f.write a (nodeBytes n)).slice (a + o) 1).getD 0 0 = v := by
    intro o v ho hv
    rw [slice_write_sub (by omega), hv]
    rfl
  have husage := hbyte 0 (if n.usage then 1 else 0) (by decide) rfl
  rw [Nat.add_zero] at husage
  unfold nodeAt
  rw [hword 1 n.nodeId (by decide) rfl h.nodeId, hword 14 n.propRef (by decide) rfl h.propRef,
    hword 18 n.metaPropRef (by decide) rfl h.metaPropRef,
    hword 5 n.edgeRef (by decide) rfl h.edgeRef,
    hword 9 n.centralEdgeRef (by decide) rfl h.centralEdgeRef, hbyte 13 n.edgeRefPID (by decide) rfl,
    husage, slice_label_write h, ← h.label, ← haddr]
  cases n.usage <;> rfl

theorem nodeAt_write_of_disjoint {a p : Nat} {bs : ByteString}
    (h : a + blockSize ≤ p ∨ p + bs.length ≤ a) (id : ByteString) :
    nodeAt (f.write p bs) id a = nodeAt f id a := by
  have hsize : blockSize = 140 := rfl
  have hlabel : labelSize = 118 := rfl
  unfold nodeAt
  simp only [u32At_write_of_disjoint (show a + 1 + 4 ≤ p ∨ p + bs.length ≤ a + 1 by omega),
    u32At_write_of_disjoint (show a + 14 + 4 ≤ p ∨ p + bs.length ≤ a + 14 by omega),
    u32At_write_of_disjoint (show a + 18 + 4 ≤ p ∨ p + bs.length ≤ a + 18 by omega),
    u32At_write_of_disjoint (show a + 5 + 4 ≤ p ∨ p + bs.length ≤ a + 5 by omega),
    u32At_write_of_disjoint (show a + 9 + 4 ≤ p ∨ p + bs.length ≤ a + 9 by omega),
    slice_write_of_disjoint (show a + 13 + 1 ≤ p ∨ p + bs.length ≤ a + 13 by omega),
    slice_write_of_disjoint (show a + 22 + labelSize ≤ p ∨ p + bs.length ≤ a + 22 by omega),
    slice_write_of_disjoint (show a + 1 ≤ p ∨ p + bs.length ≤ a by omega)]

inductive NodeField
  | edgeRef
  | centralEdgeRef
  | propRef
  | metaPropRef
deriving DecidableEq

namespace NodeField

def offset : NodeField → Nat
  | edgeRef => 5
  | centralEdgeRef => 9
  | propRef => 14
  | metaPropRef => 18

def set (n : NodeBlock) (v : Nat) : NodeField → NodeBlock
  | edgeRef => { n with edgeRef := v }
  | centralEdgeRef => { n with centralEdgeRef := v }
  | propRef => { n with propRef := v }
  | metaPropRef => { n with metaPropRef := v }

def ofRelation : RelationKind → NodeField
  | .localRelation => edgeRef
  | .centralRelation => centralEdgeRef

theorem offset_ofRelation (k : RelationKind) :
    (ofRelation k).offset = relationRefOffset k := by cases k <;> rfl

end NodeField

theorem nodeAt_write_field {a v : Nat} (field : NodeField) (hv : v < 2 ^ 32) (id : ByteString) :
    nodeAt (f.write (a + field.offset) (le32 v)) id a = field.set (nodeAt f id a) v := by
  have hword : ∀ p, (p + 4 ≤ a + field.offset ∨ a + field.offset + 4 ≤ p) →
      u32At (f.write (a + field.offset) (le32 v)) p = u32At f p :=
    fun p hp => u32At_write_of_disjoint (by rw [length_le32]; exact hp)
  have hslice : ∀ p n, (p + n ≤ a + field.offset ∨ a + field.offset + 4 ≤ p) →
      (f.write (a + field.offset) (le32 v)).slice p n = f.slice p n :=
    fun p n hp => slice_write_of_disjoint (by rw [length_le32]; exact hp)
  cases field <;> simp only [NodeField.offset] at hword hslice ⊢ <;>
    simp only [nodeAt, NodeField.set, u32At_write hv, hword (a + 1) (by omega),
      hslice (a + 13) 1 (by omega), hslice (a + 22) labelSize (by omega),
      hslice a 1 (by omega)]
  · rw [hword (a + 14) (by omega), hword (a + 18) (by omega), hword (a + 9) (by omega)]
  · rw [hword (a + 14) (by omega), hword (a + 18) (by omega), hword (a + 5) (by omega)]
  · rw [hword (a + 18) (by omega), hword (a + 5) (by omega), hword (a + 9) (by omega)]
  · rw [hword (a + 14) (by omega), hword (a + 5) (by omega), hword (a + 9) (by omega)]

theorem slice_label_write_field {a v : Nat} (field : NodeField) :
    (f.write (a + field.offset) (le32 v)).slice (a + 22) labelSize =
      f.slice (a + 22) labelSize := by
  refine slice_write_of_disjoint (.inr ?_)
  rw [length_le32]
  cases field <;> simp only [NodeField.offset] <;> omega

/-! ## Relation blocks -/

def relWord (f : ByteFile) (a : Nat) (o : RelationOffset) : Nat := u32At f (a + 4 * o.index)

theorem sourceOf_fieldsAt (k : RelationKind) (f : ByteFile) (a : Nat) : sourceOf
        (fun o => ofLe32 ((Stream.fieldsAt f a k.widths).getD o.index [])) =
      sourceOf (relWord f a) := by
  cases k <;> rfl

theorem destinationOf_fieldsAt (k : RelationKind) (f : ByteFile) (a : Nat) : destinationOf
        (fun o => ofLe32 ((Stream.fieldsAt f a k.widths).getD o.index [])) =
      destinationOf (relWord f a) := by
  cases k <;> rfl

theorem sum_widths (k : RelationKind) : k.widths.sum = k.blockSize := by cases k <;> rfl

namespace Image

/-- The object `getLocalRelation` and `getCentralRelation` return. -/
def relation (img : Image) (k : RelationKind) (a : Nat) : RelationBlock where
  addr := a
  source := sourceOf (relWord (img.files (.relations k)) a)
  destination := destinationOf (relWord (img.files (.relations k)) a)
  propertyAddress := relWord (img.files (.relations k)) a .relationProps
  metaPropertyAddress := match k with
    | .localRelation => 0
    | .centralRelation => relWord (img.files (.relations k)) a .relationPropsMeta
  type := cstr ((Stream.fieldsAt (img.files (.relations k)) a k.widths).getD k.records [])
  sourceBlock := some (img.node (relWord (img.files (.relations k)) a .source))
  destinationBlock := some (img.node (relWord (img.files (.relations k)) a .destination))

variable {img : Image} {k : RelationKind} {a : Nat}

theorem runs_make (addr : Nat) {source destination : NodeRelation} (pa mpa : Nat)
    (type : ByteString) (hs : NodeOk (img.files .nodes) source.address)
    (hd : NodeOk (img.files .nodes) destination.address) :
    Runs (Shown none img) (make addr source destination pa mpa type)
      ⟨addr, source, destination, pa, mpa, type, some (img.node source.address),
        some (img.node destination.address)⟩ (Shown none img) :=
  bind (runs_get hs) (bind (runs_get hd) pure)

/-- A relation block inside the file, both ends of which are readable nodes. -/
structure RelationOk (img : Image) (k : RelationKind) (a : Nat) : Prop where
  pos : a ≠ 0
  aligned : a % k.blockSize = 0
  inside : a + k.blockSize ≤ (img.files (.relations k)).size
  source : NodeOk (img.files .nodes) (relWord (img.files (.relations k)) a .source)
  destination : NodeOk (img.files .nodes) (relWord (img.files (.relations k)) a .destination)

theorem runs_getRelation (h : RelationOk img k a) :
    Runs (Shown none img) (getRelation k a) (some (img.relation k a))
      (Shown none (img.moved (.relations k) (a + k.blockSize))) := by
  unfold getRelation
  rw [if_neg h.pos, if_neg (by simp [h.aligned])]
  refine bind (runs_readAt (by rw [sum_widths]; exact h.inside)) ?_
  dsimp only
  rw [sourceOf_fieldsAt, destinationOf_fieldsAt]
  refine bind (runs_make a _ _ _ ?_ ?_) ?_
  · exact h.source
  · exact h.destination
  · cases k <;> exact pure

def newRelationBytes (img : Image) (k : RelationKind) (source destination : NodeBlock) :
    ByteString :=
  (([source.nodeId, destination.nodeId, source.addr, destination.addr] ++
    List.replicate (k.records - 4) 0).map le32 ++
    [List.ofFn (img.mem.rawType k (img.mem.nextRelationIndex k))]).flatten

def withRelation (img : Image) (k : RelationKind) (source destination : NodeBlock) : Image :=
  (img.wrote (.relations k) (img.mem.nextRelationIndex k * k.blockSize)
    (img.newRelationBytes k source destination)).withMem (·.bumpRelation k)

def newRelation (img : Image) (k : RelationKind) (source destination : NodeBlock) :
    RelationBlock where
  addr := u32 (img.mem.nextRelationIndex k * k.blockSize)
  source := ⟨source.addr, 0, 0, 0, 0, 0⟩
  destination := ⟨destination.addr, 0, 0, 0, 0, 0⟩
  propertyAddress := 0
  metaPropertyAddress := 0
  type := defaultType
  sourceBlock := some (img.node source.addr)
  destinationBlock := some (img.node destination.addr)

theorem withRelation_nodes (source destination : NodeBlock) :
    (img.withRelation k source destination).files .nodes = img.files .nodes := by
  rw [withRelation, withMem_files, wrote_files_of_ne _ (by simp)]

theorem runs_addRelation {source destination : NodeBlock}
    (hs : NodeOk (img.files .nodes) source.addr)
    (hd : NodeOk (img.files .nodes) destination.addr) :
    Runs (Shown none img) (addRelation k source destination)
      (some (img.newRelation k source destination))
      (Shown none (img.withRelation k source destination)) := by
  refine bind runs_memory (bind (runs_writeAt _ _ _ (.inl rfl)) ?_)
  refine bind (runs_modifyMemory _) (bind (runs_flush (.inr rfl)) ?_)
  change Runs (Shown none (img.withRelation k source destination)) _ _ _
  refine bind (runs_make _ _ _ _ ?_ ?_) ?_
  · rw [withRelation_nodes]
    exact hs
  · rw [withRelation_nodes]
    exact hd
  · simp only [node, withRelation_nodes]
    exact pure

def setWord (img : Image) (k : RelationKind) (a : Nat) (o : RelationOffset) (v : Nat) : Image :=
  img.wrote (.relations k) (a + 4 * o.index) (le32 v)

variable {b : Nat} {r : RelationBlock} {this : NodeBlock}

theorem u32_record (k : RelationKind) (h : b * k.blockSize < 2 ^ 32) (o : RelationOffset) :
    u32 (b * k.blockSize + 4 * o.index) = b * k.blockSize + 4 * o.index := by
  refine u32_of_lt ?_
  have ho : o.index ≤ 13 := by cases o <;> decide
  cases k <;> simp only [RelationKind.blockSize] at h ⊢ <;> omega

theorem runs_updateRelationRecords {this : RelationBlock} (haddr : this.addr = b * k.blockSize)
    (hb : b * k.blockSize < 2 ^ 32) (o : RelationOffset) (v : Nat) :
    Runs (Shown none img) (this.updateRelationRecords k o v) true
      (Shown none (img.setWord k this.addr o v)) := by
  have hu : u32 (this.addr + 4 * o.index) = this.addr + 4 * o.index := by
    rw [haddr, u32_record k hb o]
  unfold updateRelationRecords
  rw [hu]
  exact bind (runs_writeAt _ _ _ (.inl rfl)) (bind (runs_flush (.inr rfl)) pure)

/-! ## Threading a relation into the list of a node -/

def setRef (img : Image) (k : RelationKind) (a v : Nat) : Image :=
  img.wrote .nodes (a + relationRefOffset k) (le32 v)

/-- The forward link of the node at `x` in a block whose source is `source`. -/
def nextOffset (x source : Nat) : RelationOffset :=
  if x = source then .sourceNext else .destinationNext

/-- The back link of the node at `x` in a block whose source is `source`. -/
def previousOffset (x source : Nat) : RelationOffset :=
  if x = source then .sourcePrevious else .destinationPrevious

theorem runs_setRelationHead {i : Nat} (haddr : this.addr = i * blockSize)
    (hi : i * blockSize < 2 ^ 32) :
    Runs (Shown none img) (this.setRelationHead k r) (this.setRelationRef k r.addr)
      (Shown none (img.setRef k this.addr r.addr)) := by
  have hu : u32 (this.addr + relationRefOffset k) = this.addr + relationRefOffset k := by
    refine u32_of_lt ?_
    rw [haddr]
    cases k <;> simp only [relationRefOffset, blockSize] at hi ⊢ <;> omega
  unfold setRelationHead
  rw [hu]
  exact bind (runs_writeAt _ _ _ (.inl rfl)) (bind (runs_flush (.inr rfl)) pure)

theorem runs_updateRelation_first {i : Nat} (haddr : this.addr = i * blockSize)
    (hi : i * blockSize < 2 ^ 32) (hnone : this.relationRef k = 0) :
    Runs (Shown none img) (this.updateRelation k r) (this.setRelationRef k r.addr, r)
      (Shown none (img.setRef k this.addr r.addr)) := by
  have hhead : Runs (Shown none img) (this.getRelationHead k) none (Shown none img) := by
    unfold getRelationHead
    rw [if_neg (by simp [hnone])]
    exact pure
  exact bind hhead (bind (runs_setRelationHead haddr hi) pure)

/-- The object of the new relation after `updateRelation` has set its forward link. -/
def linked (x : Nat) (r : RelationBlock) (next : Nat) : RelationBlock :=
  if x = r.source.address then { r with source := { r.source with nextRelationId := next } }
  else { r with destination := { r.destination with nextRelationId := next } }

theorem addr_linked (x : Nat) (r : RelationBlock) (next : Nat) : (linked x r next).addr = r.addr := by
  unfold linked
  split_ifs <;> rfl

theorem runs_linkBack {head : RelationBlock} (v : Nat) (hb : head.addr = b * k.blockSize)
    (hfit : b * k.blockSize < 2 ^ 32)
    (hrole : this.addr = head.source.address ∨ this.addr = head.destination.address) :
    Runs (Shown none img) (this.linkBack k head v) ()
      (Shown none (img.setWord k head.addr (previousOffset this.addr head.source.address) v)) := by
  unfold linkBack previousOffset
  by_cases hs : this.addr = head.source.address
  · rw [if_pos hs, if_pos hs]
    exact bind (bind (runs_updateRelationRecords hb hfit _ v) pure) pure
  · rw [if_neg hs, if_neg hs, if_pos (hrole.resolve_left hs)]
    exact bind (bind (runs_updateRelationRecords hb hfit _ v) pure) pure

theorem runs_linkForward (v : Nat) (hb : r.addr = b * k.blockSize) (hfit : b * k.blockSize < 2 ^ 32)
    (hrole : this.addr = r.source.address ∨ this.addr = r.destination.address) :
    Runs (Shown none img) (this.linkForward k r v) (linked this.addr r v)
      (Shown none (img.setWord k r.addr (nextOffset this.addr r.source.address) v)) := by
  unfold linkForward nextOffset linked
  by_cases hs : this.addr = r.source.address
  · rw [if_pos hs, if_pos hs, if_pos hs]
    exact bind (runs_updateRelationRecords hb hfit _ v) pure
  · rw [if_neg hs, if_neg hs, if_neg hs, if_pos (hrole.resolve_left hs)]
    exact bind (runs_updateRelationRecords hb hfit _ v) pure

/-- The image after the relation at `n`, of source `source`, is put before the first relation `h`
of the node at `x`. -/
def threaded (img : Image) (k : RelationKind) (x n h source : Nat) : Image :=
  (((img.moved (.relations k) (h + k.blockSize)).setWord k h
    (previousOffset x (relWord (img.files (.relations k)) h .source)) n).setWord k n
    (nextOffset x source) h).setRef k x n

theorem runs_updateRelation_further {i n h : Nat} (haddr : this.addr = i * blockSize)
    (hi : i * blockSize < 2 ^ 32) (hr : r.addr = n * k.blockSize)
    (hn : n * k.blockSize < 2 ^ 32) (hsome : this.relationRef k = h * k.blockSize)
    (hh : h * k.blockSize < 2 ^ 32) (hok : RelationOk img k (h * k.blockSize))
    (hhead : this.addr = relWord (img.files (.relations k)) (h * k.blockSize) .source ∨
      this.addr = relWord (img.files (.relations k)) (h * k.blockSize) .destination)
    (hnew : this.addr = r.source.address ∨ this.addr = r.destination.address) :
    Runs (Shown none img) (this.updateRelation k r)
      (this.setRelationRef k r.addr, linked this.addr r (h * k.blockSize))
      (Shown none (img.threaded k this.addr r.addr (h * k.blockSize) r.source.address)) := by
  have hget : Runs (Shown none img) (this.getRelationHead k)
      (some (img.relation k (h * k.blockSize)))
      (Shown none (img.moved (.relations k) (h * k.blockSize + k.blockSize))) := by
    unfold getRelationHead
    rw [if_pos (by rw [hsome]; exact hok.pos), hsome]
    exact runs_getRelation hok
  refine bind hget (bind (runs_linkBack r.addr rfl hh hhead) ?_)
  refine bind (runs_linkForward _ hr hn hnew) ?_
  refine bind (runs_setRelationHead haddr hi) ?_
  rw [addr_linked]
  exact pure

end Image

end JasmineGraph.NativeStore
