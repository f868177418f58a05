import JasmineGraph.NativeStore.AddEdge
import JasmineGraph.NativeStore.Links

/-!
# Properties added to nodes and relations

A node block holds two references to chains of links, a relation block one or two. The objects of
the program hold copies of them, and `addProperty` goes by the copy: with reference 0 it creates a
first link and writes its address to the block, otherwise it inserts from the referenced link on.

`Sound` is what every call keeps, whatever is written to the chains: nodes and ends are those of
the log, every link file is well formed, every reference on disk is 0 or a block of its file. A
reference that an object holds stays valid when the store grows (`Grows`), however stale it is.
-/

namespace JasmineGraph.NativeStore

open Bytes Refine NodeBlock Image Nat List

def RefOk (k : LinkKind) (n a : Nat) : Prop := a = 0 ∨ ∃ b, 0 < b ∧ b < n ∧ a = b * k.blockSize

theorem RefOk.mono {k : LinkKind} {n m a : Nat} (h : RefOk k n a) (hnm : n ≤ m) : RefOk k m a := by
  rcases h with h0 | ⟨b, hb0, hb, ha⟩
  · exact .inl h0
  · exact .inr ⟨b, hb0, lt_of_lt_of_le hb hnm, ha⟩

/-! ## What a write may leave of nodes and ends -/

structure NodeKept (f f' : ByteFile) (a : Nat) : Prop where
  ok : NodeOk f a → NodeOk f' a
  number : u32At f' (a + 1) = u32At f (a + 1)
  edgeRef : u32At f' (a + 5) = u32At f (a + 5)
  centralEdgeRef : u32At f' (a + 9) = u32At f (a + 9)

section Kept

variable {g : Log} {img img' : Image} {k : RelationKind}

theorem NodesHold.congr (h : NodesHold g img)
    (hindex : ∀ id : ByteString, img'.mem.nodeIndex[id]? = img.mem.nodeIndex[id]?)
    (hnext : img'.mem.nextNodeIndex = img.mem.nextNodeIndex)
    (hsize : (img'.files .nodes).size = (img.files .nodes).size)
    (hkept : ∀ i < g.ids.length, NodeKept (img.files .nodes) (img'.files .nodes) (i * blockSize)) :
    NodesHold g img' where
  index id := by rw [hindex, h.index]
  next := by rw [hnext, h.next]
  size := by rw [hsize, h.size]
  ok i hi := (hkept i hi).ok (h.ok i hi)
  number id hid := by
    rw [← h.number id hid]
    exact (hkept _ (Log.slot_lt hid)).number

theorem EndsHold.congr (h : EndsHold g img k)
    (hnext : img'.mem.nextRelationIndex k = img.mem.nextRelationIndex k)
    (hsize : (img.files (.relations k)).size ≤ (img'.files (.relations k)).size)
    (hword : ∀ b o, b ≤ (g.edges k).length → (o = .source ∨ o = .destination) →
      img'.word k b o = img.word k b o)
    (hkept : ∀ i < g.ids.length, NodeKept (img.files .nodes) (img'.files .nodes) (i * blockSize)) :
    EndsHold g img' k where
  next := by rw [hnext, h.next]
  inside hne := le_trans (h.inside hne) hsize
  source b e hb := by
    have hlt := (List.getElem?_eq_some_iff.1 hb).1
    rw [hword _ _ hlt (.inl rfl), h.source b e hb]
  destination b e hb := by
    have hlt := (List.getElem?_eq_some_iff.1 hb).1
    rw [hword _ _ hlt (.inr rfl), h.destination b e hb]
  head id hid := by
    rw [← h.head id hid]
    have hk := hkept _ (Log.slot_lt hid)
    cases k with
    | localRelation => exact hk.edgeRef
    | centralRelation => exact hk.centralEdgeRef

end Kept

def NodeBlock.RefField.IsProp (field : RefField) : Prop :=
  field = propField ∨ field = metaPropField

section Field

variable {f : ByteFile} {i j v : Nat} {field field' : RefField}

/-- A property reference written to block `i` of the nodes file. -/
theorem nodeKept_write_field (hf : field.IsProp) :
    NodeKept f (f.write (i * blockSize + field.offset) (le32 v))
      (j * blockSize) := by
  have hword : ∀ o, o + 4 ≤ 14 → u32At (f.write (i * blockSize + field.offset) (le32 v))
        (j * blockSize + o) = u32At f (j * blockSize + o) := by
    intro o ho
    refine u32At_write_of_disjoint ?_
    rw [length_le32]
    rcases hf with rfl | rfl <;>
      simp only [propField, metaPropField, blockSize] <;> omega
  have hslice : (f.write (i * blockSize + field.offset) (le32 v)).slice
      (j * blockSize + 22) labelSize =
      f.slice (j * blockSize + 22) labelSize := by
    refine ByteFile.slice_write_of_disjoint ?_
    rw [length_le32]
    rcases hf with rfl | rfl <;> simp only [propField, metaPropField,
      blockSize, labelSize] <;> omega
  refine ⟨fun hok => ⟨⟨?_, ?_⟩, ?_, ?_⟩, hword 1 (by decide), hword 5 (by decide),
    hword 9 (by decide)⟩
  · refine le_trans hok.inside ?_
    exact le_max_left _ _
  · rw [hslice]
    exact hok.terminated
  · rw [hslice]
    exact hok.labelled
  · rw [hword 5 (by decide)]
    exact hok.aligned

/-- A property reference of block `j` after one of block `i` is written. -/
theorem u32At_write_field (hf : field.IsProp) (hf' : field'.IsProp) (hv : v < 2 ^ 32) :
    u32At (f.write (i * blockSize + field.offset) (le32 v))
        (j * blockSize + field'.offset) =
      if j = i ∧ field'.kind = field.kind then v
      else u32At f (j * blockSize + field'.offset) := by
  by_cases hsame : j = i ∧ field'.kind = field.kind
  · have hoff : field'.offset = field.offset := by
      rcases hf with rfl | rfl <;> rcases hf' with rfl | rfl <;> first | rfl | cases hsame.2
    rw [if_pos hsame, hsame.1, hoff, u32At_write hv]
  · rw [if_neg hsame]
    refine u32At_write_of_disjoint ?_
    rw [length_le32]
    by_cases hij : j = i
    · have hkind : field'.kind ≠ field.kind := fun h => hsame ⟨hij, h⟩
      rcases hf with rfl | rfl <;> rcases hf' with rfl | rfl <;>
        simp only [propField, metaPropField, hij] at hkind ⊢
      · exact absurd rfl hkind
      · omega
      · omega
      · exact absurd rfl hkind
    · rcases hf with rfl | rfl <;> rcases hf' with rfl | rfl <;>
        simp only [propField, metaPropField, blockSize] <;> omega

theorem u32At_field (hf : field.IsProp) (id : ByteString) {a : Nat} :
    u32At f (a + field.offset) = field.ref (nodeAt f id a) := by
  rcases hf with rfl | rfl <;> rfl

end Field

/-! ## Sound stores -/

/-- Nodes and ends are those of the log, and link files and references are well formed. -/
structure Sound (g : Log) (img : Image) : Prop where
  nodes : NodesHold g img
  ends : ∀ k, EndsHold g img k
  files : ∀ k, img.LinkFileOk k
  refs : ∀ field : RefField, field.IsProp → ∀ i < g.ids.length,
    RefOk field.kind (img.mem.nextPropertyIndex field.kind)
      (u32At (img.files .nodes) (i * blockSize + field.offset))

structure Grows (g : Log) (img : Image) (g' : Log) (img' : Image) : Prop where
  ids : g.ids.length ≤ g'.ids.length
  edges : ∀ k, (g.edges k).length ≤ (g'.edges k).length
  links : ∀ k, img.mem.nextPropertyIndex k ≤ img'.mem.nextPropertyIndex k

theorem Grows.refl (g : Log) (img : Image) : Grows g img g img :=
  ⟨le_refl _, fun _ => le_refl _, fun _ => le_refl _⟩

theorem Grows.trans {g g' g'' : Log} {img img' img'' : Image} (h : Grows g img g' img')
    (h' : Grows g' img' g'' img'') : Grows g img g'' img'' :=
  ⟨le_trans h.ids h'.ids, fun k => le_trans (h.edges k) (h'.edges k),
    fun k => le_trans (h.links k) (h'.links k)⟩

structure NodeHandle (g : Log) (img : Image) (n : NodeBlock) : Prop where
  addr : ∃ i < g.ids.length, n.addr = i * blockSize
  refs : ∀ field : RefField, field.IsProp →
    RefOk field.kind (img.mem.nextPropertyIndex field.kind) (field.ref n)

structure RelationHandle (g : Log) (img : Image) (k : RelationKind) (r : RelationBlock) : Prop where
  addr : ∃ b, 0 < b ∧ b ≤ (g.edges k).length ∧ r.addr = b * k.blockSize
  prop : RefOk .edgeProperty (img.mem.nextPropertyIndex .edgeProperty) r.propertyAddress
  metaProp : RefOk .metaEdgeProperty (img.mem.nextPropertyIndex .metaEdgeProperty)
    r.metaPropertyAddress

section Grow

variable {g g' : Log} {img img' : Image} {k : RelationKind} {n : NodeBlock} {r : RelationBlock}

theorem NodeHandle.grows (h : NodeHandle g img n) (hg : Grows g img g' img') :
    NodeHandle g' img' n := by
  obtain ⟨i, hi, haddr⟩ := h.addr
  exact ⟨⟨i, lt_of_lt_of_le hi hg.ids, haddr⟩, fun field hf => (h.refs field hf).mono (hg.links _)⟩

theorem RelationHandle.grows (h : RelationHandle g img k r) (hg : Grows g img g' img') :
    RelationHandle g' img' k r := by
  obtain ⟨b, h0, hb, haddr⟩ := h.addr
  exact ⟨⟨b, h0, le_trans hb (hg.edges k), haddr⟩, h.prop.mono (hg.links _),
    h.metaProp.mono (hg.links _)⟩

end Grow

namespace Image.LinkStep

variable {g : Log} {img img' : Image} {l : LinkKind}

theorem links (h : LinkStep img img' l) (k : LinkKind) :
    img.mem.nextPropertyIndex k ≤ img'.mem.nextPropertyIndex k := by
  by_cases hk : k = l
  · subst hk
    exact h.grows
  · rw [h.mem]
    exact (Function.update_of_ne hk _ _).ge

theorem sound (h : LinkStep img img' l) (hs : Sound g img) : Sound g img' where
  nodes := by
    refine hs.nodes.congr (fun id => ?_) ?_ ?_ fun i _ => ?_
    · rw [h.mem]; rfl
    · rw [h.mem]; rfl
    · rw [h.files _ (by simp)]
    · rw [h.files _ (by simp)]
      exact ⟨fun hok => hok, rfl, rfl, rfl⟩
  ends k := by
    refine (hs.ends k).congr ?_ ?_ (fun b o _ _ => ?_) fun i _ => ?_
    · rw [h.mem]; rfl
    · rw [h.files _ (by simp)]
    · rw [word, word, h.files _ (by simp)]
    · rw [h.files _ (by simp)]
      exact ⟨fun hok => hok, rfl, rfl, rfl⟩
  files k := by
    by_cases hk : k = l
    · subst hk
      exact h.ok
    · refine (hs.files k).congr (h.files _ (by simpa using hk)) ?_
      rw [h.mem]
      exact Function.update_of_ne hk _ _
  refs field hf i hi := by
    rw [h.files _ (by simp)]
    exact (hs.refs field hf i hi).mono (h.links _)

end Image.LinkStep

theorem Sound.setRef {g : Log} {img : Image} {field : RefField} {i v : Nat}
    (h : Sound g img) (hf : field.IsProp) (hi : i < g.ids.length) (hv : v < 2 ^ 32)
    (href : RefOk field.kind (img.mem.nextPropertyIndex field.kind) v) :
    Sound g (img.wrote .nodes (i * blockSize + field.offset) (le32 v)) := by
  have hkept : ∀ j < g.ids.length, NodeKept (img.files .nodes) ((img.wrote .nodes
      (i * blockSize + field.offset) (le32 v)).files .nodes)
      (j * blockSize) := fun j _ => by
    exact nodeKept_write_field hf
  have hsize : ((img.wrote .nodes (i * blockSize + field.offset) (le32 v)).files
      .nodes).size = (img.files .nodes).size := by
    refine ByteFile.size_write_of_le ?_
    rw [h.nodes.size, length_le32]
    refine le_trans ?_ (mul_le_mul_right _ hi)
    rcases hf with rfl | rfl <;>
      simp only [propField, metaPropField, blockSize] <;> omega
  refine ⟨h.nodes.congr (fun id => ?_) ?_ hsize hkept, fun k => (h.ends k).congr ?_ ?_ (fun b o _ _ => ?_) hkept,
    fun k => ?_, fun field' hf' j hj => ?_⟩
  · rw [wrote_mem]
  · rw [wrote_mem]
  · rw [wrote_mem]
  · rw [wrote_files_of_ne _ (by simp)]
  · rw [word, word, wrote_files_of_ne _ (by simp)]
  · exact (h.files k).congr (wrote_files_of_ne _ (by simp) _ _) (by rw [wrote_mem])
  · rw [wrote_files_self, u32At_write_field hf hf' hv]
    split_ifs with hsame
    · rw [hsame.2]
      exact href
    · exact h.refs field' hf' j hj

/-! ## Properties of nodes -/

namespace Image

variable {img : Image} {k : LinkKind} {b n : Nat}

theorem runs_getLink (h : LinksOk k (img.files (.links k)) n) (h0 : 0 < b) (hb : b < n) :
    Runs (Shown none img) (getLink k (b * k.blockSize))
      (some (linkAt k (img.files (.links k)) b)) (Shown none img) := by
  have hne : b * k.blockSize ≠ 0 := ne_of_gt (mul_pos h0 (LinksOk.blockSize_pos k))
  unfold getLink
  rw [if_neg fun hc => hne hc.2]
  exact .bind (runs_readLink h h0 hb) .pure

end Image

/-- What a property added to a sound store may change: link files, their counters and references
to them. -/
structure PropStep (g : Log) (img img' : Image) : Prop where
  sound : Sound g img'
  links : ∀ k, img.mem.nextPropertyIndex k ≤ img'.mem.nextPropertyIndex k
  byOne : ∀ k, img'.mem.nextPropertyIndex k ≤ img.mem.nextPropertyIndex k + 1
  mem : img'.mem = { img.mem with nextPropertyIndex := img'.mem.nextPropertyIndex }
  size : ∀ k, (img'.files (.relations k)).size = (img.files (.relations k)).size

namespace PropStep

variable {g : Log} {img img' img'' : Image} {l : LinkKind}

theorem toGrows (h : PropStep g img img') : Grows g img g img' :=
  ⟨le_refl _, fun _ => le_refl _, h.links⟩

theorem of_linkStep (h : LinkStep img img' l) (hs : Sound g img) : PropStep g img img' where
  sound := h.sound hs
  links := h.links
  byOne k := by
    by_cases hk : k = l
    · subst hk
      exact h.byOne
    · rw [h.mem]
      exact le_succ_of_le (Function.update_of_ne hk _ _).le
  mem := by
    rw [h.mem]
    rfl
  size k := by rw [h.files _ (by simp)]

/-- A write to the nodes or inside a relation file. -/
theorem wrote (h : PropStep g img img') {d : DB} {p : Nat} {bs : ByteString}
    (hs : Sound g (img'.wrote d p bs))
    (hsize : ∀ k, ((img'.wrote d p bs).files (.relations k)).size =
      (img'.files (.relations k)).size) : PropStep g img (img'.wrote d p bs) where
  sound := hs
  links := by
    rw [wrote_mem]
    exact h.links
  byOne := by
    rw [wrote_mem]
    exact h.byOne
  mem := by
    rw [wrote_mem]
    exact h.mem
  size k := by rw [hsize, h.size]

end PropStep

/-- **A further property**: it is inserted into the chain that starts at the reference. -/
theorem Sound.exists_insert {g : Log} {img : Image} {k : LinkKind} {a : Nat}
    {name dataName value dataValue : ByteString} (h : Sound g img) (hfit : img.mem.LinkFits k)
    (hname : k.copyName name = some dataName) (hvalue : value.length = LinkKind.valueSize)
    (hins : k.insertedValue value = some dataValue)
    (href : RefOk k (img.mem.nextPropertyIndex k) a) (ha : a ≠ 0) :
    ∃ img' head t, Runs (img.Shown none) (getLink k a) (some head) (img.Shown none) ∧
      Runs (img.Shown none) (insertLink k head name value) t (img'.Shown none) ∧
      PropStep g img img' ∧ RefOk k (img'.mem.nextPropertyIndex k) t := by
  have hok := h.files k
  obtain ⟨b, h0, hb, rfl⟩ := href.resolve_left ha
  obtain ⟨l, hchain, hlt, hmem⟩ := hok.exists_chain _ b rfl h0 hb
  obtain ⟨hlink, hin⟩ := inserted_step hok hfit hname
    (LinkKind.length_insertedValue hvalue hins) (cons_ne_nil b l) hmem
  obtain ⟨ht0, ht⟩ := hmem _ hin
  exact ⟨_, _, _, runs_getLink hok h0 hb,
    runs_insertLink hok (newLinkAddress_of_lt hfit) hname hins hchain hmem hlt,
    .of_linkStep hlink h, .inr ⟨_, ht0, lt_of_lt_of_le ht hlink.grows, rfl⟩⟩

theorem Image.refOk_newLink {img : Image} {k : LinkKind} {dataName value : ByteString}
    (h : img.LinkFileOk k) (hfit : img.mem.LinkFits k) :
    RefOk k ((img.withLink k dataName value).mem.nextPropertyIndex k) (img.mem.newLinkAddress k) := by
  refine .inr ⟨_, h.pos, ?_, newLinkAddress_of_lt hfit⟩
  rw [counter_withLink hfit]
  exact lt_succ_self _

/-- **`addProperty` and `addMetaProperty` of a node** run on any node object. -/
theorem NodeBlock.addTo_spec {g : Log} {img : Image} {n : NodeBlock} {field : RefField}
    {name dataName value : ByteString} (h : Sound g img) (hn : NodeHandle g img n)
    (hf : field.IsProp) (hname : field.kind.copyName name = some dataName)
    (hvalue : value.length = LinkKind.valueSize) (hfit : img.mem.LinkFits field.kind) :
    ∃ img' n', Runs (img.Shown none) (addTo field n name value) n' (img'.Shown none) ∧
      PropStep g img img' ∧ NodeHandle g img' n' := by
  have hok := h.files field.kind
  have haddr_set : ∀ r, (field.setRef n r).addr = n.addr := by
    rcases hf with rfl | rfl <;> exact fun r => rfl
  have hset : ∀ r, ∀ field' : RefField, field'.IsProp → field'.ref (field.setRef n r) =
      if field'.kind = field.kind then r else field'.ref n := by
    intro r field' hf'
    rcases hf with rfl | rfl <;> rcases hf' with rfl | rfl <;> rfl
  have hins : field.kind.insertedValue value = some value := by
    rcases hf with rfl | rfl <;> rfl
  -- the object with the new reference is valid once the reference is
  have hhandle : ∀ img' r, Grows g img g img' →
      RefOk field.kind (img'.mem.nextPropertyIndex field.kind) r →
      NodeHandle g img' (field.setRef n r) := by
    intro img' r hg hr
    refine ⟨by rw [haddr_set]; exact (hn.grows hg).addr, fun field' hf' => ?_⟩
    rw [hset r field' hf']
    split_ifs with hk
    · rw [hk]
      exact hr
    · exact (hn.grows hg).refs field' hf'
  obtain ⟨i, hi, haddr⟩ := hn.addr
  by_cases h0 : field.ref n = 0
  · have href := @refOk_newLink img field.kind dataName value hok hfit
    have hstep := PropStep.of_linkStep (withLink_step hok hfit hname hvalue) h
    have hs := hstep.sound.setRef hf hi (by rw [newLinkAddress_of_lt hfit]; exact hfit) href
    rw [← haddr] at hs
    have hdone := hstep.wrote hs fun k => by rw [wrote_files_of_ne _ (by simp)]
    refine ⟨_, _, runs_addTo_create value h0 haddr_set hname, hdone, hhandle _ _ hdone.toGrows ?_⟩
    exact href
  · obtain ⟨img', head, t, hget, hinsert, hstep, ht⟩ :=
      h.exists_insert hfit hname hvalue hins (hn.refs field hf) h0
    refine ⟨img', _, ?_, hstep, hhandle _ _ hstep.toGrows ht⟩
    unfold addTo
    rw [if_neg h0]
    exact .bind hget (.bind hinsert .pure)

/-! ## Properties of relations -/

section SetWord

variable {g : Log} {img : Image} {k : RelationKind} {o : RelationOffset} {b v : Nat}

/-- The records of a stored relation lie inside the file. -/
theorem EndsHold.size_setWord (h : EndsHold g img k) (h0 : 0 < b) (hb : b ≤ (g.edges k).length)
    (k' : RelationKind) : ((img.setWord k (b * k.blockSize) o v).files (.relations k')).size =
      (img.files (.relations k')).size := by
  have hne : g.edges k ≠ [] := fun hnil => by simp [hnil] at hb; omega
  refine Image.size_setWord (le_trans ?_ (h.inside hne))
  have ho := o.index_le
  cases k <;> simp only [RelationKind.blockSize] <;> omega

/-- A record other than the two ends changed. -/
theorem Sound.setWord (h : Sound g img) (h0 : 0 < b) (hb : b ≤ (g.edges k).length)
    (hv : v < 2 ^ 32) (ho : o ≠ .source ∧ o ≠ .destination) :
    Sound g (img.setWord k (b * k.blockSize) o v) := by
  have hnodes : (img.setWord k (b * k.blockSize) o v).files .nodes = img.files .nodes :=
    setWord_nodes _
  have hkept : ∀ i < g.ids.length, NodeKept (img.files .nodes)
      ((img.setWord k (b * k.blockSize) o v).files .nodes) (i * blockSize) := fun i _ => by
    exact ⟨fun hok => hok, rfl, rfl, rfl⟩
  have hmem : (img.setWord k (b * k.blockSize) o v).mem = img.mem := wrote_mem _ _ _ _
  refine ⟨h.nodes.congr (fun id => by rw [hmem]) (by rw [hmem]) (by rw [hnodes]) hkept, fun k' =>
    (h.ends k').congr (by rw [hmem]) ((h.ends k).size_setWord h0 hb k').ge (fun b' o' _ ho' => ?_)
      hkept, fun l => ?_, fun field hf i hi => ?_⟩
  · rw [word_setWord hv, if_neg]
    rintro ⟨-, -, rfl⟩
    exact ho'.elim ho.1 ho.2
  · exact (h.files l).congr (wrote_files_of_ne _ (by simp) _ _) (by rw [hmem])
  · exact h.refs field hf i hi

end SetWord

namespace RelationBlock

variable {g : Log} {img : Image} {k : RelationKind} {r : RelationBlock} {field : RefField}
  {name dataName value dataValue : ByteString}

def RefField.IsProp (k : RelationKind) (field : RefField) : Prop :=
  field = propField k ∨ k = .centralRelation ∧ field = metaPropField

/-- **`addLocalProperty`, `addCentralProperty` and `addMetaProperty`** run on any relation object of
their kind. -/
theorem addTo_spec (h : Sound g img) (hr : RelationHandle g img k r) (hf : field.IsProp k)
    (hedges : EdgesFit g k) (hname : field.kind.copyName name = some dataName)
    (hvalue : value.length = LinkKind.valueSize)
    (hins : field.kind.insertedValue value = some dataValue)
    (hfit : img.mem.LinkFits field.kind) :
    ∃ img' r', Runs (img.Shown none) (addTo field r name value) r' (img'.Shown none) ∧
      PropStep g img img' ∧ RelationHandle g img' k r' := by
  have hok := h.files field.kind
  obtain ⟨b, hb0, hb, haddr⟩ := hr.addr
  have hbfit : b * k.blockSize < 2 ^ 32 := lt_of_le_of_lt (mul_le_mul_right _ hb) hedges
  have hfile : field.file = k ∧ field.offset ≠ .source ∧ field.offset ≠ .destination := by
    rcases hf with rfl | ⟨rfl, rfl⟩
    · exact ⟨rfl, by simp [propField], by simp [propField]⟩
    · exact ⟨rfl, by simp [metaPropField], by simp [metaPropField]⟩
  have haddr' : ∀ a, (field.setRef r a).addr = b * k.blockSize := by
    rcases hf with rfl | ⟨rfl, rfl⟩ <;> exact fun _ => haddr
  have href : RefOk field.kind (img.mem.nextPropertyIndex field.kind) (field.ref r) := by
    rcases hf with rfl | ⟨rfl, rfl⟩
    · exact hr.prop
    · exact hr.metaProp
  -- the object with the new reference is valid once the reference is
  have hhandle : ∀ img' a, Grows g img g img' →
      RefOk field.kind (img'.mem.nextPropertyIndex field.kind) a →
      RelationHandle g img' k (field.setRef r a) := by
    intro img' a hg ha
    have hr' := hr.grows hg
    rcases hf with rfl | ⟨rfl, rfl⟩
    · exact ⟨hr'.addr, ha, hr'.metaProp⟩
    · exact ⟨hr'.addr, hr'.prop, ha⟩
  unfold addTo
  by_cases h0 : field.ref r = 0
  · have hstep := PropStep.of_linkStep (withLink_step hok hfit hname hvalue) h
    have hs := hstep.sound.setWord hb0 hb (v := img.mem.newLinkAddress field.kind)
      (by rw [newLinkAddress_of_lt hfit]; exact hfit) hfile.2
    have hdone := hstep.wrote hs ((hstep.sound.ends k).size_setWord hb0 hb)
    refine ⟨_, _, ?_, hdone, hhandle _ (img.mem.newLinkAddress field.kind) hdone.toGrows ?_⟩
    · rw [if_pos h0]
      refine .bind (runs_createLink value hname) ?_
      rw [hfile.1]
      have hrun := @runs_updateRelationRecords (img.withLink field.kind dataName value) k _ _
        (haddr' (img.mem.newLinkAddress field.kind)) hbfit field.offset
        (img.mem.newLinkAddress field.kind)
      rw [haddr'] at hrun
      exact .bind hrun .pure
    · exact refOk_newLink hok hfit
  · obtain ⟨img', head, t, hget, hinsert, hstep, ht⟩ :=
      h.exists_insert hfit hname hvalue hins href h0
    refine ⟨img', _, ?_, hstep, hhandle _ _ hstep.toGrows ht⟩
    rw [if_neg h0]
    exact .bind hget (.bind hinsert .pure)

end RelationBlock

/-! ## Nodes and edges -/

namespace Image

variable {img : Image} {id : ByteString} {v : Nat}

theorem withBlock_counters : (img.withBlock id v).mem.nextPropertyIndex =
    img.mem.nextPropertyIndex := by
  rfl

theorem withBlock_linkFileOk {k : LinkKind} (h : img.LinkFileOk k) :
    (img.withBlock id v).LinkFileOk k :=
  h.congr (wrote_files_of_ne _ (by simp) _ _) (congrFun withBlock_counters k)

theorem withBlock_linkStep (h : img.LinkFileOk .property) (hfit : img.mem.LinkFits .property) :
    LinkStep (img.withBlock id v) ((img.withBlock id v).withLink .property labelName
      (strncpy LinkKind.valueSize id)) .property := by
  have hname : LinkKind.property.copyName (ascii "label") = some labelName := by decide
  refine withLink_step (withBlock_linkFileOk h) ?_ hname ?_
  · exact hfit
  · refine length_pad ?_
    rw [length_take]
    exact le_trans (min_le_left _ _) (sub_le _ _)

theorem withNode_links (h : ∀ k, img.LinkFileOk k) (hfit : img.mem.LinkFits .property)
    (k : LinkKind) : (img.withNode id v).LinkFileOk k ∧
      img.mem.nextPropertyIndex k ≤ (img.withNode id v).mem.nextPropertyIndex k ∧
      (img.withNode id v).mem.nextPropertyIndex k ≤
        img.mem.nextPropertyIndex k + if k = .property then 1 else 0 := by
  unfold withNode
  by_cases hshort : id.length < labelSize
  · rw [if_pos hshort]
    exact ⟨withBlock_linkFileOk (h k), le_refl _, le_add_right _ _⟩
  · have hstep := @withBlock_linkStep img id v (h .property) hfit
    rw [if_neg hshort, wrote_mem]
    by_cases hk : k = .property
    · subst hk
      have hgrow := hstep.grows
      have hone := hstep.byOne
      exact ⟨hstep.ok.congr (wrote_files_of_ne _ (by simp) _ _) (by rw [wrote_mem]), hgrow, hone⟩
    · have hcount : ((img.withBlock id v).withLink .property labelName
          (strncpy LinkKind.valueSize id)).mem.nextPropertyIndex k =
          img.mem.nextPropertyIndex k := by
        exact Function.update_of_ne hk _ _
      rw [hcount]
      refine ⟨(h k).congr ?_ (by rw [wrote_mem, hcount]), le_refl _, le_add_right _ _⟩
      rw [wrote_files_of_ne _ (by simp), hstep.files _ (by simpa using hk)]
      rfl

theorem addedNode_refs (h : img.LinkFileOk .property) (hfit : img.mem.LinkFits .property)
    (field : RefField) (hf : field.IsProp) :
    RefOk field.kind ((img.withNode id v).mem.nextPropertyIndex field.kind)
      (field.ref (img.addedNode id v)) := by
  unfold addedNode
  split_ifs with hshort
  · rcases hf with rfl | rfl <;> exact .inl rfl
  · rcases hf with rfl | rfl
    · refine .inr ⟨_, h.pos, ?_, newLinkAddress_of_lt hfit⟩
      rw [withNode, if_neg hshort]
      change _ < ((img.withBlock id v).withLink .property labelName _).mem.nextPropertyIndex .property
      rw [counter_withLink (by rw [Memory.LinkFits, withBlock_counters]; exact hfit), withBlock_counters]
      exact lt_succ_self _
    · exact .inl rfl

end Image

/-- What a node or an edge added to a sound store may change. -/
structure GraphStep (g : Log) (img : Image) (g' : Log) (img' : Image) : Prop where
  sound : Sound g' img'
  grows : Grows g img g' img'
  keySize : img'.mem.indexKeySize = img.mem.indexKeySize

/-- **`addNode` keeps the store sound.** -/
theorem Sound.added {g : Log} {img : Image} {id : ByteString} (h : Sound g img)
    (hacc : Accepted img.mem.indexKeySize id) (hfit : NodesFit (g.addNode id))
    (hlink : img.mem.nextPropertyIndex .property * LinkKind.property.blockSize < 2 ^ 32) :
    GraphStep g img (g.addNode id) (img.added id) ∧ ∀ k, (img.added id).mem.nextPropertyIndex k ≤
        img.mem.nextPropertyIndex k + if k = .property then 1 else 0 := by
  by_cases hid : id ∈ g.ids
  · rw [Log.addNode_of_mem hid, added_known h.nodes hid]
    exact ⟨⟨h, Grows.refl g img, rfl⟩, fun _ => le_add_right _ _⟩
  have hadd := NodeAdded.of_new h.nodes hacc hid
  have haddr := h.nodes.addedNode_addr hacc hid
  have hlen := Log.length_addNode hid
  have hlinks := @withNode_links img id (numberOf id) h.files hlink
  rw [← added_new h.nodes hid] at hlinks
  refine ⟨⟨⟨h.nodes.added hacc hfit, fun k => (h.ends k).added h.nodes hacc, fun k => (hlinks k).1,
    fun field hf i hi => ?_⟩, ⟨by omega, fun _ => le_refl _, fun k => (hlinks k).2.1⟩,
    hadd.indexKeySize⟩, fun k => (hlinks k).2.2⟩
  by_cases hnew : i = g.ids.length
  · rw [hnew, ← haddr, u32At_field hf [], hadd.block [], added_new h.nodes hid]
    have href := @addedNode_refs img id (numberOf id) (h.files .property) hlink field hf
    rcases hf with rfl | rfl <;> exact href
  · have hi' : i < g.ids.length := by omega
    have hold := hadd.nodeAt_old (by
      rw [haddr, ← succ_mul]
      exact mul_le_mul_right _ hi') []
    rw [u32At_field hf [], hold, ← u32At_field hf]
    exact (h.refs field hf i hi').mono (hlinks _).2.1

namespace Linking

variable {g : Log} {img : Image} {k : RelationKind} {s d : ByteString}

theorem onBoth_links (l : LinkKind) :
    (onBoth g img k s d).files (.links l) = img.files (.links l) := by
  rw [onBoth, pushed_links, onSource, pushed_links, written, withRelation,
    withMem_files, wrote_files_of_ne _ (by simp)]

/-- A relation keeps the store sound: it touches neither link files nor references to them. -/
theorem sound (L : Linking g img k s d) (h : Sound g img) : Sound L.log (onBoth g img k s d) := by
  have hcount : (onBoth g img k s d).mem.nextPropertyIndex = img.mem.nextPropertyIndex := by
    rw [onBoth_mem]
    rfl
  refine ⟨L.nodesHold, L.endsHold, fun l => ?_, fun field hf i hi => ?_⟩
  · exact (h.files l).congr (onBoth_links l) (congrFun hcount l)
  · obtain ⟨e, c, hnode⟩ := L.nodeAt_onBoth i []
    have hsame : field.ref (nodeAt ((onBoth g img k s d).files .nodes) [] (i * blockSize)) =
        field.ref (nodeAt (img.files .nodes) [] (i * blockSize)) := by
      rw [hnode]
      rcases hf with rfl | rfl <;> rfl
    rw [hcount, u32At_field hf [], hsame, ← u32At_field hf]
    exact h.refs field hf i hi

end Linking

namespace Sound

variable {g : Log} {img : Image}

theorem bumpEdge (h : Sound g img) : Sound g (img.withMem (·.bumpEdge)) where
  nodes := { h.nodes with }
  ends k := ⟨(h.ends k).next, (h.ends k).inside, (h.ends k).source, (h.ends k).destination,
    (h.ends k).head⟩
  files := h.files
  refs := h.refs

theorem handle {id : ByteString} (h : Sound g img) (hid : id ∈ g.ids) (id' : ByteString) :
    NodeHandle g img (nodeAt (img.files .nodes) id' (g.nodeAddr id)) where
  addr := ⟨g.slot id, Log.slot_lt hid, rfl⟩
  refs field hf := by
    have href := h.refs field hf _ (Log.slot_lt hid)
    rcases hf with rfl | rfl <;> exact href

variable {k : RelationKind} {e : ByteString × ByteString}

theorem addedBoth (h : Sound g img) (A : AddsEdge g img k e)
    (hlink : (img.mem.nextPropertyIndex .property + 1) * LinkKind.property.blockSize < 2 ^ 32) :
    GraphStep g img ((g.addNode e.1).addNode e.2) ((img.added e.1).added e.2) ∧
      ∀ l, ((img.added e.1).added e.2).mem.nextPropertyIndex l ≤
        img.mem.nextPropertyIndex l + if l = .property then 2 else 0 := by
  have hlink1 : img.mem.nextPropertyIndex .property * LinkKind.property.blockSize < 2 ^ 32 :=
    lt_of_le_of_lt (mul_le_mul_right _ (le_succ _)) hlink
  obtain ⟨h1, hone1⟩ := h.added A.source A.nodesFit.of_addNode hlink1
  obtain ⟨h2, hone2⟩ := h1.sound.added A.destination_added A.nodesFit
    (lt_of_le_of_lt (mul_le_mul_right _ (hone1 .property)) hlink)
  refine ⟨⟨h2.sound, h1.grows.trans h2.grows, h2.keySize.trans h1.keySize⟩, fun l => ?_⟩
  have hl1 := hone1 l
  have hl2 := hone2 l
  split_ifs at hl1 hl2 ⊢ <;> omega

theorem counters_withEdge : (img.withEdge g k e).mem.nextPropertyIndex =
    ((img.added e.1).added e.2).mem.nextPropertyIndex := by
  unfold withEdge
  split_ifs
  · rw [withMem_mem, Linking.onBoth_mem]
    rfl
  · rw [Linking.onBoth_mem]
    rfl

/-- **`addLocalEdge` and `addCentralEdge` keep the store sound**, and the objects they return are
valid. -/
theorem withEdge (h : Sound g img) (A : AddsEdge g img k e)
    (hlink : (img.mem.nextPropertyIndex .property + 1) * LinkKind.property.blockSize < 2 ^ 32) :
    GraphStep g img (g.addEdge k e) (img.withEdge g k e) ∧
      ∀ r, Returned g img k e r → RelationHandle (g.addEdge k e) (img.withEdge g k e) k r ∧
        ∀ n ∈ r.sourceBlock.toList ++ r.destinationBlock.toList,
          NodeHandle (g.addEdge k e) (img.withEdge g k e) n := by
  obtain ⟨hmid, -⟩ := h.addedBoth A hlink
  have hsound : Sound (g.addEdge k e) (img.withEdge g k e) := by
    have hboth := A.linking.sound hmid.sound
    unfold Image.withEdge
    split_ifs
    · exact hboth.bumpEdge
    · exact hboth
  have hgrow : Grows ((g.addNode e.1).addNode e.2) ((img.added e.1).added e.2)
      (g.addEdge k e) (img.withEdge g k e) :=
    ⟨le_refl _, Log.length_edges_addEdge_le, fun l => by rw [counters_withEdge]⟩
  refine ⟨⟨hsound, hmid.grows.trans hgrow, A.indexKeySize⟩, fun r hr => ⟨⟨?_, ?_, ?_⟩, ?_⟩⟩
  · refine ⟨(g.edges k).length + 1, succ_pos _, ?_, hr.addr⟩
    rw [Log.edges_addEdge, length_append, length_singleton]
  · exact .inl hr.propertyAddress
  · exact .inl hr.metaPropertyAddress
  · intro n hn
    rw [hr.sourceBlock, hr.destinationBlock] at hn
    simp only [Option.toList_some, cons_append, nil_append, mem_cons, not_mem_nil, or_false] at hn
    rcases hn with rfl | rfl
    · exact (hmid.sound.handle A.linking.source _).grows hgrow
    · exact (hmid.sound.handle A.linking.destination _).grows hgrow

end Sound

end JasmineGraph.NativeStore
