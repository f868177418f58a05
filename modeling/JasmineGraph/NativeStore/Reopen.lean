import JasmineGraph.NativeStore.Client
import JasmineGraph.NativeStore.Index
import JasmineGraph.NativeStore.Properties
import JasmineGraph.NativeStore.Readers

/-!
# Closing a store and opening it again

`NodeManager::close` and a constructor in append mode give back the store: the index, the node
blocks, the lists of relations and the property maps are those before, and the counters, which the
constructor takes from the sizes of the files, are past every block. So no later call writes a new
block over an old one.

This needs what the code does not check: ids without NUL bytes, since a key is read back as a C
string; room below `2 ^ 32` for the addresses of blocks; and an index file of less than `2 ^ 31`
bytes. The links of meta properties are not flushed, and `close` does not flush them either: the
chains of meta properties are read back if no link is left in a buffer (`Store.Written`). What is
lost otherwise is the link to the last block of a chain, never the block, so the counters are right
all the same.
-/

namespace JasmineGraph.NativeStore

open Bytes Refine NodeManager List Option Nat Client

/-- A process whose store is sound and whose objects are valid. -/
structure Kept (g : Log) (img : Image) (c : Client) : Prop where
  shown : img.Shown none c.store
  sound : Sound g img
  size : ∀ k, (img.files (.relations k)).size =
    if g.edges k = [] then 0 else ((g.edges k).length + 1) * k.blockSize
  keys : ∀ id ∈ g.ids, (cstr id).length < img.mem.indexKeySize
  nodesFit : NodesFit g
  edgesFit : ∀ k, EdgesFit g k
  linksFit : ∀ k, (img.mem.nextPropertyIndex k - 1) * k.blockSize < 2 ^ 32
  nodes : ∀ n ∈ c.nodes, NodeHandle g img n
  relations : ∀ p ∈ c.relations, RelationHandle g img p.1 p.2

/-! ## Room -/

namespace Room

variable {m : Memory}

theorem relations (h : Room m) (k : RelationKind) :
    m.nextRelationIndex k * k.blockSize < 2 ^ 32 := by
  cases k with
  | localRelation => exact h.localRelations
  | centralRelation => exact h.centralRelations

theorem links (h : Room m) (k : LinkKind) : m.LinkFits k := by
  cases k with
  | property => exact lt_of_le_of_lt (mul_le_mul_right _ (le_succ _)) h.properties
  | metaProperty => exact h.metaProperties
  | edgeProperty => exact h.edgeProperties
  | metaEdgeProperty => exact h.metaEdgeProperties

end Room

/-- With room, the next block of every file goes behind its blocks. -/
theorem Kept.fresh {g : Log} {img : Image} {c : Client} (h : Kept g img c)
    (hroom : Room c.store.mem) : c.store.Fresh := by
  have hmem := h.shown.memory
  rw [hmem] at hroom
  intro d
  rw [(h.shown.stream d).view, hmem]
  cases d with
  | nodes =>
    have hnext := h.sound.nodes.next
    have hfit := hroom.nodes
    rw [h.sound.nodes.size, Memory.newBlockAddress, u32_of_lt, hnext]
    exact lt_of_le_of_lt (mul_le_mul_right _ (le_succ _)) hfit
  | relations k =>
    rw [h.size k, Memory.newBlockAddress, (h.sound.ends k).next]
    split_ifs
    · exact zero_le _
    · exact le_refl _
  | links k =>
    rw [Memory.newBlockAddress, Image.newLinkAddress_of_lt (hroom.links k)]
    exact (h.sound.files k).size_le

/-! ## The calls -/

namespace Kept

variable {g : Log} {img img' : Image} {c : Client} {s : Store} {ns : List NodeBlock}
  {rs : List (RelationKind × RelationBlock)}

theorem linksFit_of_le {k : LinkKind} {n n' : Nat} (hfit : n * k.blockSize < 2 ^ 32)
    (hle : n' ≤ n + 1) : (n' - 1) * k.blockSize < 2 ^ 32 :=
  lt_of_le_of_lt (mul_le_mul_right _ (by omega)) hfit

variable (h : Kept g img c)

include h

section

variable (hroom : Room img.mem)

include hroom

theorem propStep (hstep : PropStep g img img')
    (hshown : img'.Shown none s) (hn : ∀ n ∈ ns, NodeHandle g img' n)
    (hr : ∀ p ∈ rs, RelationHandle g img' p.1 p.2) : Kept g img' ⟨s, ns, rs⟩ where
  shown := hshown
  sound := hstep.sound
  size k := by rw [hstep.size k, h.size k]
  keys := by
    rw [hstep.mem]
    exact h.keys
  nodesFit := h.nodesFit
  edgesFit := h.edgesFit
  linksFit k := linksFit_of_le (hroom.links k) (hstep.byOne k)
  nodes := hn
  relations := hr

theorem onNode {field : NodeBlock.RefField}
    (hf : field.IsProp) {i : Nat} (hi : i < c.nodes.length) {name : ByteString}
    (hname : (field.kind.copyName name).isSome) (value : ValueBuffer) :
    ∃ img' c', Call.onNode c i (fun n => NodeBlock.addTo field n name value) = some c' ∧
      Kept g img' c' ∧ Grows g img g img' := by
  obtain ⟨dataName, hname⟩ := isSome_iff_exists.1 hname
  have hget : c.nodes[i]? = some c.nodes[i] := List.getElem?_eq_getElem hi
  obtain ⟨img', n', hrun, hstep, hn'⟩ := NodeBlock.addTo_spec h.sound
    (h.nodes _ (getElem_mem hi)) hf hname value.property (hroom.links _)
  obtain ⟨s, hs, hshown⟩ := hrun _ h.shown
  refine ⟨img', ⟨s, c.nodes.set i n', c.relations⟩, ?_, h.propStep hroom hstep hshown
    (fun n hn => ?_) (fun p hp => (h.relations p hp).grows hstep.toGrows), hstep.toGrows⟩
  · simp only [Call.onNode, hget, bind, Option.bind, hs]
    rfl
  · rcases mem_or_eq_of_mem_set hn with hold | rfl
    · exact (h.nodes n hold).grows hstep.toGrows
    · exact hn'

theorem onRelation {k : RelationKind}
    {field : RelationBlock.RefField} (hf : field.IsProp k) {i : Nat}
    (hi : (c.relations[i]?).map Prod.fst = some k) {name : ByteString} {value : ValueBuffer}
    (hname : (field.kind.copyName name).isSome) (hvalue : (field.kind.insertedValue value).isSome) :
    ∃ img' c', Call.onRelation c i (fun r => RelationBlock.addTo field r name value) = some c' ∧
      Kept g img' c' ∧ Grows g img g img' := by
  obtain ⟨dataName, hname⟩ := isSome_iff_exists.1 hname
  obtain ⟨dataValue, hvalue⟩ := isSome_iff_exists.1 hvalue
  obtain ⟨⟨k', r⟩, hget, rfl⟩ := map_eq_some_iff.1 hi
  have hmem : (k', r) ∈ c.relations := mem_of_getElem? hget
  obtain ⟨img', r', hrun, hstep, hr'⟩ := RelationBlock.addTo_spec h.sound (h.relations _ hmem) hf
    (h.edgesFit k') hname value.property hvalue (hroom.links _)
  obtain ⟨s, hs, hshown⟩ := hrun _ h.shown
  refine ⟨img', ⟨s, c.nodes, c.relations.set i (k', r')⟩, ?_, h.propStep hroom hstep hshown
    (fun n hn => (h.nodes n hn).grows hstep.toGrows) (fun p hp => ?_), hstep.toGrows⟩
  · simp only [Call.onRelation, hget, bind, Option.bind, hs]
    rfl
  · rcases mem_or_eq_of_mem_set hp with hold | rfl
    · exact (h.relations p hold).grows hstep.toGrows
    · exact hr'

theorem nodesFit_addNode (id id' : ByteString) : NodesFit ((g.addNode id).addNode id') := by
  have hlen : ∀ (g : Log) (id : ByteString), (g.addNode id).ids.length ≤ g.ids.length + 1 := by
    intro g id
    unfold Log.addNode
    split_ifs
    · exact le_succ _
    · rw [length_append]
      exact le_refl _
  have hnodes := hroom.nodes
  rw [h.sound.nodes.next] at hnodes
  intro i hi
  have h1 := hlen (g.addNode id) id'
  have h2 := hlen g id
  exact lt_of_le_of_lt (mul_le_mul_right _ (by omega)) hnodes

theorem addNode {id : ByteString} (hacc : Accepted img.mem.indexKeySize id) :
    ∃ g' img' c', (Call.addNode id).run c = some c' ∧ Kept g' img' c' ∧ Grows g img g' img' := by
  have hfit : NodesFit (g.addNode id) := (h.nodesFit_addNode hroom id id).of_addNode
  have hrun := h.sound.nodes.runs_addNode hacc hfit
  obtain ⟨hstep, hone⟩ := h.sound.added hacc hfit (hroom.links .property)
  obtain ⟨s, hs, hshown⟩ := hrun _ h.shown
  refine ⟨g.addNode id, img.added id, ⟨s, c.nodes ++ [(img.added id).handle (g.addNode id) id],
    c.relations⟩, ?_, ⟨hshown, hstep.sound, fun k => ?_, fun id' hid' => ?_, hfit, h.edgesFit,
    fun k => ?_, ?_, fun p hp => (h.relations p hp).grows hstep.grows⟩, hstep.grows⟩
  · simp only [Call.run, bind, Option.bind, hs]
    rfl
  · rw [h.sound.nodes.relations_added hacc, h.size k]
    rfl
  · rw [hstep.keySize]
    rcases Log.mem_addNode.1 hid' with rfl | hmem
    · exact hacc.key
    · exact h.keys id' hmem
  · refine linksFit_of_le (hroom.links k) (Nat.le_trans (hone k) (Nat.add_le_add_left ?_ _))
    split_ifs
    · exact le_refl _
    · exact zero_le _
  · refine forall_mem_append.2 ⟨fun n hn => (h.nodes n hn).grows hstep.grows, ?_⟩
    exact forall_mem_singleton.2 (hstep.sound.handle (Log.mem_addNode.2 (.inl rfl)) _)

end

theorem get (id : ByteString) : ∃ c', (Call.get id).run c = some c' ∧ Kept g img c' := by
  obtain ⟨s, hs, hshown⟩ := h.sound.nodes.runs_get h.nodesFit id _ h.shown
  refine ⟨⟨s, c.nodes ++ (if id ∈ g.ids then some (img.handle g id) else none).toList,
    c.relations⟩, ?_, hshown, h.sound, h.size, h.keys, h.nodesFit, h.edgesFit, h.linksFit,
    fun n hn => ?_, h.relations⟩
  · simp only [Call.run, hs]
    rfl
  · rcases mem_append.1 hn with hold | hnew
    · exact h.nodes n hold
    · split_ifs at hnew with hid
      · rw [toList_some, mem_singleton] at hnew
        rw [hnew]
        exact h.sound.handle hid _
      · exact absurd hnew not_mem_nil

theorem addEdge (hroom : Room img.mem) {k : RelationKind}
    {e : ByteString × ByteString} (hsource : Accepted img.mem.indexKeySize e.1)
    (hdestination : Accepted img.mem.indexKeySize e.2) :
    ∃ g' img' c', (Call.addEdge k e).run c = some c' ∧ Kept g' img' c' ∧
      Grows g img g' img' := by
  have hrel := hroom.relations k
  rw [(h.sound.ends k).next] at hrel
  have A : AddsEdge g img k e := ⟨h.sound.nodes, h.sound.ends, hsource, hdestination,
    h.nodesFit_addNode hroom e.1 e.2, hrel⟩
  obtain ⟨r, hrun, hr⟩ := A.runs_addEdge
  obtain ⟨hstep, hreturned⟩ := h.sound.withEdge A hroom.properties
  obtain ⟨hrelation, hnodes⟩ := hreturned r hr
  obtain ⟨s, hs, hshown⟩ := hrun _ h.shown
  refine ⟨g.addEdge k e, img.withEdge g k e, ⟨s,
    c.nodes ++ r.sourceBlock.toList ++ r.destinationBlock.toList, c.relations ++ [(k, r)]⟩, ?_,
    ⟨hshown, hstep.sound, fun k' => A.size (h.size k'), fun id hid => ?_, A.nodesFit, fun k' => ?_,
    fun l => ?_, fun n hn => ?_, fun p hp => ?_⟩, hstep.grows⟩
  · simp only [Call.run, bind, Option.bind, hs]
    rfl
  · rw [hstep.keySize]
    rcases Log.mem_addNode.1 hid with rfl | hid
    · exact hdestination.key
    · rcases Log.mem_addNode.1 hid with rfl | hid
      · exact hsource.key
      · exact h.keys id hid
  · unfold EdgesFit
    by_cases hk : k' = k
    · subst hk
      rw [Log.edges_addEdge, length_append]
      exact hrel
    · rw [Log.edges_addEdge_of_ne hk]
      exact h.edgesFit k'
  · have hle := (h.sound.addedBoth A hroom.properties).2 l
    rw [← Sound.counters_withEdge] at hle
    by_cases hl : l = .property
    · subst hl
      exact linksFit_of_le hroom.properties hle
    · rw [if_neg hl] at hle
      exact linksFit_of_le (hroom.links l) (le_succ_of_le hle)
  · rw [append_assoc] at hn
    rcases mem_append.1 hn with hold | hnew
    · exact (h.nodes n hold).grows hstep.grows
    · exact hnodes n hnew
  · rcases mem_append.1 hp with hold | hnew
    · exact (h.relations p hold).grows hstep.grows
    · rw [mem_singleton.1 hnew]
      exact hrelation

end Kept

/-! ## Closing and opening -/

theorem nextIndex_eq {size n blockSize : Nat} (hbs : 0 < blockSize) (hn : 0 < n) (hlt : n < 2 ^ 32)
    (hsize : size = if n = 1 then 0 else n * blockSize) : nextIndex size blockSize = n := by
  unfold nextIndex
  rw [hsize]
  by_cases h1 : n = 1
  · rw [if_pos h1, Nat.zero_div, h1]
    rfl
  · rw [if_neg h1, Nat.mul_div_cancel _ hbs, if_neg (by omega), u32_of_lt hlt]

theorem Image.runs_close {img : Image} (o : KeyOrder) :
    Runs (img.Shown none) (close o) () ((img.withMem (persistNodeIndex o)).Shown none) := by
  refine .bind (runs_modifyMemory _) (.bind (runs_flush (.inl rfl)) ?_)
  refine .bind (runs_flush (.inl rfl)) (.bind (runs_flush (.inl rfl)) ?_)
  exact runs_flush (.inl rfl)

/-- What a closed store leaves on disk: the flushed files as they were seen, the files of meta
properties with the same blocks. -/
structure Durable (img : Image) (disk : Disk) : Prop where
  flushed : ∀ d : DB, d.isFlushed = true → disk.files d = img.files d
  links : ∀ k, LinksOk k (disk.files (.links k)) (img.mem.nextPropertyIndex k)

theorem Image.Shown.durable {img : Image} {s : Store} (h : img.Shown none s)
    (hok : ∀ k, img.LinkFileOk k) : Durable img s.disk where
  flushed d hd := (h.stream d).flushed (by simp) hd
  links k := by
    rcases (h.stream (.links k)).lags (by simp) k rfl with hsame | hlag
    · change LinksOk k (s.streams (.links k)).disk _
      rw [hsame]
      exact hok k
    · exact (hok k).of_lags hlag

theorem Image.Shown.disk_eq {img : Image} {s : Store} {k : LinkKind} (h : img.Shown none s)
    (hok : img.LinkFileOk k) (hwritten : s.Written k) :
    (s.streams (.links k)).disk = (s.streams (.links k)).view := by
  have hst := h.stream (.links k)
  rw [hst.view]
  rcases hst.lags (by simp) k rfl with hsame | ⟨t, v, hin, -, hf⟩
  · exact hsame
  · have hsize : (t + 1) * k.blockSize ≤ img.mem.nextPropertyIndex k * k.blockSize := by
      rw [hst.size (by simp)] at hin
      exact hin.trans hok.size_le
    have ht := Nat.lt_of_mul_lt_mul_right (Nat.lt_of_lt_of_le
      (Nat.mul_lt_mul_of_pos_right (lt_succ_self t) (LinksOk.blockSize_pos k)) hsize)
    have hslice := hwritten t (by rw [h.memory]; exact ht)
    have hfield : k.nextField t + 4 = (t + 1) * k.blockSize := by
      rw [succ_mul, LinkKind.nextField, blockSize_eq, LinkKind.valueSize]
      omega
    rw [hst.view, hf, ← length_le32 v, ByteFile.slice_write_self] at hslice
    rw [hf, ByteFile.write_eq_self (by rw [length_le32, hfield]; exact hin) hslice]

/-- `close` does not touch the files of meta properties. -/
theorem streams_close {o : KeyOrder} {s closed : Store} (h : close o s = some ((), closed))
    {k : LinkKind} (hk : k.isMeta = true) :
    closed.streams (.links k) = s.streams (.links k) := by
  have hrun : (close o s).map (fun p => p.2.streams (.links k)) = some (s.streams (.links k)) := by
    cases k with
    | property | edgeProperty => cases hk
    | metaProperty | metaEdgeProperty => rfl
  rw [h] at hrun
  exact some.inj hrun

namespace Kept

variable {g : Log} {img : Image} {c : Client} {disk : Disk}

section

variable (h : Kept g img c)

include h

theorem readNodeIndex (o : KeyOrder) (hnul : ∀ id ∈ g.ids, 0 ∉ id)
    (hsize : g.ids.length * (img.mem.indexKeySize + 4) < 2 ^ 31) :
    ∃ m, NodeManager.readNodeIndex img.mem.indexKeySize (persistNodeIndex o img.mem).indexDB =
      some (m, g.ids.length) ∧
      ∀ id : ByteString, m[id]? = if id ∈ g.ids then some (g.slot id) else none := by
  have hperm := (o.perm img.mem.nodeIndex.keys).trans h.sound.nodes.keys_perm
  have hshort : ∀ id ∈ g.ids, id.length < img.mem.indexKeySize := fun id hid => by
    rw [← cstr_of_notMem (hnul id hid)]
    exact h.keys id hid
  have hlen : (g.records (o.order img.mem.nodeIndex.keys)).length = g.ids.length := by
    rw [Log.records, length_map, hperm.length_eq]
  have hids : ∀ id ∈ o.order img.mem.nodeIndex.keys,
      id ∈ g.ids ∧ id.length < img.mem.indexKeySize ∧ 0 ∉ id := fun id hid =>
    ⟨hperm.mem_iff.1 hid, hshort id (hperm.mem_iff.1 hid), hnul id (hperm.mem_iff.1 hid)⟩
  have hread := Log.readable_records hids h.nodesFit
  refine ⟨_, ?_, Log.getElem?_records hperm⟩
  rw [h.sound.nodes.persisted o hshort, readNodeIndex_indexBytes hread (by rw [hlen]; exact hsize),
    hlen]

theorem nextRelationIndex_opened (hd : Durable img disk) (k : RelationKind) :
    nextIndex (disk.files (.relations k)).size k.blockSize = img.mem.nextRelationIndex k := by
  have hfit := h.edgesFit k
  unfold EdgesFit at hfit
  rw [(h.sound.ends k).next]
  refine nextIndex_eq (by cases k <;> decide) (succ_pos _) ?_ ?_
  · cases k <;> simp only [RelationKind.blockSize] at hfit <;> omega
  · rw [hd.flushed _ rfl, h.size k]
    exact if_congr (by rw [add_eq_right, length_eq_zero_iff]) rfl rfl

theorem nextPropertyIndex_opened (hd : Durable img disk) (k : LinkKind) :
    nextIndex (disk.files (.links k)).size k.blockSize = img.mem.nextPropertyIndex k := by
  have hfit := h.linksFit k
  refine nextIndex_eq (LinksOk.blockSize_pos k) (hd.links k).pos ?_ (hd.links k).size
  cases k <;> simp only [LinkKind.blockSize, LinkKind.nameSize, LinkKind.valueSize] at hfit <;>
    omega

theorem opened (hd : Durable img disk)
    (rawType : RelationKind → Nat → Fin 100 → UInt8) {m : Std.TreeMap ByteString Nat}
    (hindex : ∀ id : ByteString, m[id]? = if id ∈ g.ids then some (g.slot id) else none) :
    ∃ img', Kept g img' ⟨NodeManager.opened img.mem.indexKeySize rawType (m, g.ids.length) disk,
      c.nodes, c.relations⟩ ∧ Grows g img g img' := by
  have hcounters : (NodeManager.opened img.mem.indexKeySize rawType (m, g.ids.length)
      disk).mem.nextPropertyIndex = img.mem.nextPropertyIndex :=
    funext (h.nextPropertyIndex_opened hd)
  have hkept : ∀ i < g.ids.length, NodeKept (img.files .nodes) (disk.files .nodes)
      (i * NodeBlock.blockSize) := fun i _ => by
    rw [hd.flushed _ rfl]
    exact ⟨fun hok => hok, rfl, rfl, rfl⟩
  have hgrow : Grows g img g (Image.ofDisk (NodeManager.opened img.mem.indexKeySize rawType
      (m, g.ids.length) disk).mem disk.files) :=
    ⟨le_refl _, fun _ => le_refl _, fun k => (congrFun hcounters k).ge⟩
  refine ⟨_, ⟨Image.shown_opened _ _ _ _, ⟨?_, fun k => ?_, fun k => ?_, fun field hf i hi => ?_⟩,
    fun k => ?_, h.keys, h.nodesFit, h.edgesFit, fun k => ?_,
    fun n hn => (h.nodes n hn).grows hgrow, fun p hp => (h.relations p hp).grows hgrow⟩, hgrow⟩
  · refine h.sound.nodes.congr (fun id => ?_) h.sound.nodes.next.symm ?_ hkept
    · rw [h.sound.nodes.index]
      exact hindex id
    · exact congrArg ByteFile.size (hd.flushed _ rfl)
  · refine (h.sound.ends k).congr (h.nextRelationIndex_opened hd k) ?_ (fun b o _ _ => ?_) hkept
    · exact (congrArg ByteFile.size (hd.flushed (.relations k) rfl)).ge
    · exact congrArg (fun f => relWord f _ _) (hd.flushed (.relations k) rfl)
  · have hk := hd.links k
    rw [← hcounters] at hk
    exact hk
  · have href := h.sound.refs field hf i hi
    rw [← hd.flushed _ rfl, ← hcounters] at href
    exact href
  · rw [← h.size k]
    exact congrArg ByteFile.size (hd.flushed (.relations k) rfl)
  · have hfit := h.linksFit k
    rw [← hcounters] at hfit
    exact hfit

/-- **A reopening gives back the store.** -/
theorem reopen (o : KeyOrder)
    (rawType : RelationKind → Nat → Fin 100 → UInt8) (hnul : ∀ id ∈ g.ids, 0 ∉ id)
    (hsize : g.ids.length * (img.mem.indexKeySize + 4) < 2 ^ 31) :
    ∃ img' c', (Call.reopen o rawType).run c = some c' ∧ Kept g img' c' ∧ Grows g img g img' ∧
      SameContents (fun d => d.isFlushed = true ∨ ∃ k, d = .links k ∧ c.store.Written k)
        c.store c'.store := by
  obtain ⟨closed, hclose, hshown⟩ := Image.runs_close o _ h.shown
  obtain ⟨m, hread, hindex⟩ := h.readNodeIndex o hnul hsize
  have hmem : closed.mem = persistNodeIndex o img.mem := hshown.memory
  have hd : Durable img closed.disk := by
    have hd' := hshown.durable h.sound.files
    exact ⟨hd'.flushed, hd'.links⟩
  obtain ⟨img', hkept, hgrow⟩ := h.opened hd rawType hindex
  have hfile : ∀ d, (d.isFlushed = true ∨ ∃ k, d = .links k ∧ c.store.Written k) →
      (c.store.streams d).view = closed.disk.files d := by
    intro d hd'
    cases hf : d.isFlushed with
    | true => exact (h.shown.stream d).view.trans (hd.flushed d hf).symm
    | false =>
      obtain ⟨k, rfl, hwritten⟩ := hd'.resolve_left (by rw [hf]; decide)
      rw [← h.shown.disk_eq (h.sound.files k) hwritten]
      exact congrArg Stream.disk (streams_close hclose (by simpa [DB.isFlushed] using hf)).symm
  refine ⟨img', _, ?_, hkept, hgrow, fun id => ?_, fun d hd' => ⟨?_, hfile d hd'⟩⟩
  · have hindexDB : closed.disk.index = (persistNodeIndex o img.mem).indexDB :=
      congrArg Memory.indexDB hmem
    have hkey : closed.mem.indexKeySize = img.mem.indexKeySize := by
      rw [hmem]
      rfl
    have hopen : openAppend closed.mem.indexKeySize rawType closed.disk =
        some (NodeManager.opened img.mem.indexKeySize rawType (m, g.ids.length) closed.disk) := by
      rw [openAppend, hkey, hindexDB, hread]
      rfl
    exact Call.run_reopen_eq hclose hopen
  · rw [h.shown.memory, h.sound.nodes.index]
    exact (hindex id).symm
  · exact (h.shown.stream d).good

/-- **One call** that has what it needs runs, and keeps the process valid. -/
theorem step (hroom : Room c.store.mem) {call : Call} (hal : call.Allowed c) :
    ∃ g' img' c', call.run c = some c' ∧ Kept g' img' c' ∧ Grows g img g' img' := by
  have hmem := h.shown.memory
  rw [hmem] at hroom
  cases call with
  | addNode id =>
    obtain ⟨hnumber, hkey⟩ := hal
    rw [hmem] at hkey
    exact h.addNode hroom ⟨hnumber, hkey⟩
  | get id =>
    obtain ⟨c', hrun, hkept⟩ := h.get id
    exact ⟨g, img, c', hrun, hkept, .refl g img⟩
  | addEdge k e =>
    obtain ⟨⟨hnumber1, hkey1⟩, hnumber2, hkey2⟩ := hal
    rw [hmem] at hkey1 hkey2
    exact h.addEdge hroom ⟨hnumber1, hkey1⟩ ⟨hnumber2, hkey2⟩
  | addProperty i name value =>
    exact ⟨g, h.onNode hroom (.inl rfl) hal.1 hal.2 value⟩
  | addMetaProperty i name value =>
    exact ⟨g, h.onNode hroom (.inr rfl) hal.1 hal.2 value⟩
  | addRelationProperty k i name value =>
    refine ⟨g, h.onRelation hroom (.inl rfl) hal.1 rfl ?_⟩
    exact congrArg isSome (if_pos hal.2)
  | addRelationMetaProperty i name value =>
    exact ⟨g, h.onRelation hroom (.inr ⟨rfl, rfl⟩) hal.1 hal.2 rfl⟩
  | reopen o rawType =>
    obtain ⟨hnul, hsize⟩ := hal
    rw [hmem] at hnul hsize
    rw [h.sound.nodes.next] at hsize
    obtain ⟨img', c', hrun, hkept, hgrow, -⟩ := h.reopen o rawType
      (fun id hid => hnul id (h.sound.nodes.keys_perm.mem_iff.2 hid)) hsize
    exact ⟨g, img', c', hrun, hkept, hgrow⟩

end

/-- **A sequence of calls** that have what they need runs to its end. -/
theorem run (h : Kept g img c) {calls : List Call} (hmeets : c.Meets calls) :
    ∃ g' img' c', c.run calls = some c' ∧ Kept g' img' c' ∧ Grows g img g' img' := by
  induction calls generalizing g img c with
  | nil => exact ⟨g, img, c, rfl, h, .refl g img⟩
  | cons call rest ih =>
    obtain ⟨hroom, hal, hrest⟩ := meets_cons.1 hmeets
    obtain ⟨g', img', c', hrun, hkept, hgrow⟩ := h.step hroom hal
    obtain ⟨g'', img'', c'', hrun', hkept', hgrow'⟩ := ih hkept (hrest c' hrun)
    refine ⟨g'', img'', c'', ?_, hkept', hgrow.trans hgrow'⟩
    rw [run, hrun]
    exact hrun'

end Kept

theorem kept_start (keySize : Nat) (rawType : RelationKind → Nat → Fin 100 → UInt8) (disk : Disk) :
    Kept Log.empty (Image.fresh keySize rawType disk) (start keySize rawType disk) := by
  have hholds := holds_fresh keySize rawType disk
  have hcount : ∀ k, (Image.fresh keySize rawType disk).mem.nextPropertyIndex k = 1 := fun k =>
    nextIndex_zero k.blockSize
  refine ⟨Image.shown_opened keySize rawType (∅, 0) { disk with files := fun _ => ByteFile.empty },
    ⟨hholds.nodes, hholds.ends, fun k => ?_, fun field _ i hi => absurd hi (not_lt_zero i)⟩,
    hholds.size, fun id hid => absurd hid not_mem_nil, fun i hi => absurd hi (not_lt_zero i),
    fun k => ?_, fun k => ?_, fun n hn => absurd hn not_mem_nil,
    fun p hp => absurd hp not_mem_nil⟩
  · unfold Image.LinkFileOk
    rw [hcount]
    exact ⟨one_pos, rfl, fun b h0 hb => absurd hb (by omega), fun b h0 hb => absurd hb (by omega)⟩
  · exact Nat.lt_of_le_of_lt (Nat.zero_mul _).le (Nat.two_pow_pos 32)
  · rw [hcount]
    exact Nat.lt_of_le_of_lt (Nat.zero_mul _).le (Nat.two_pow_pos 32)

theorem Client.meets_append {calls later : List Call} {c : Client} (h : c.Meets (calls ++ later)) :
    c.Meets calls ∧ ∀ c', c.run calls = some c' → c'.Meets later := by
  induction calls generalizing c with
  | nil =>
    refine ⟨trivial, fun c' hc => ?_⟩
    obtain rfl := some.inj hc
    exact h
  | cons call rest ih =>
    obtain ⟨hroom, hal, hrest⟩ := meets_cons.1 h
    refine ⟨meets_cons.2 ⟨hroom, hal, fun c' hrun => (ih (hrest c' hrun)).1⟩, fun c'' hc => ?_⟩
    obtain ⟨c', hrun, hc'⟩ := bind_eq_some_iff.1 hc
    exact (ih (hrest c' hrun)).2 c'' hc'

/-! ## The result -/

/-- Every reader returns from `s'` what it returns from `s`: the index, the node blocks, the
relations and the lists of relations, and the property maps of nodes and relations. -/
structure ReadsSame (s s' : Store) : Prop where
  index : ∀ id : ByteString, s.mem.nodeIndex[id]? = s'.mem.nodeIndex[id]?
  node : ∀ id, (NodeManager.get id).run' s = (NodeManager.get id).run' s'
  block : ∀ a, (NodeBlock.get a).run' s = (NodeBlock.get a).run' s'
  relation : ∀ k a, (RelationBlock.getRelation k a).run' s = (RelationBlock.getRelation k a).run' s'
  edges : ∀ k (n : NodeBlock), (n.getEdgeNodes k).run' s = (n.getEdgeNodes k).run' s'
  properties : ∀ n : NodeBlock, n.getAllProperties.run' s = n.getAllProperties.run' s'
  relationProperties : ∀ r : RelationBlock, r.getAllProperties.run' s = r.getAllProperties.run' s'

/-- The links of a kind and the chains they form are read alike. -/
structure SameLinks (k : LinkKind) (s s' : Store) : Prop where
  link : ∀ a, (getLink k a).run' s = (getLink k a).run' s'
  next : ∀ l : Link, (l.next k).run' s = (l.next k).run' s'
  chain : ∀ head, (allProperties k head).run' s = (allProperties k head).run' s'

namespace SameContents

variable {D : DB → Prop} {s s' : Store} (h : SameContents D s s')

include h

theorem readsSame (hD : ∀ d : DB, d.isFlushed = true → D d) : ReadsSame s s' where
  index := h.index
  node id := (agrees_getNode hD id).run'_eq h
  block a := (agrees_get hD a).run'_eq h
  relation k a := (agrees_getRelation hD k a).run'_eq h
  edges k n := (agrees_getEdgeNodes hD k n).run'_eq h
  properties n := (agrees_getAllProperties hD n).run'_eq h
  relationProperties r := (agrees_getAllProperties_relation hD r).run'_eq h

theorem sameLinks {k : LinkKind} (hk : D (.links k)) : SameLinks k s s' where
  link a := (agrees_getLink hk a).run'_eq h
  next l := (agrees_next hk l).run'_eq h
  chain head := (agrees_allProperties hk head).run'_eq h

end SameContents

/-- **Reopening preserves the store and never overwrites it.** Calls on a new store, a reopening,
and later calls, reopenings among them: the sequence runs to its end, readers see after the
reopening what they saw before, meta properties included if no link to one is left in a buffer, and
in the state reached the next block of every file goes behind all its blocks. -/
theorem run_reopen (keySize : Nat) (rawType rawType' : RelationKind → Nat → Fin 100 → UInt8)
    (disk : Disk) (o : KeyOrder) (calls later : List Call)
    (h : (start keySize rawType disk).Meets (calls ++ .reopen o rawType' :: later)) :
    ∃ before after last, (start keySize rawType disk).run calls = some before ∧
      (Call.reopen o rawType').run before = some after ∧ after.run later = some last ∧
      ReadsSame before.store after.store ∧
      (∀ k, before.store.Written k → SameLinks k before.store after.store) ∧
      (Room last.store.mem → last.store.Fresh) := by
  obtain ⟨hcalls, hlater⟩ := meets_append h
  obtain ⟨g, img, before, hbefore, hkept, -⟩ := (kept_start keySize rawType disk).run hcalls
  obtain ⟨-, ⟨hnul, hsize⟩, hrest⟩ := meets_cons.1 (hlater before hbefore)
  rw [hkept.shown.memory] at hnul hsize
  rw [hkept.sound.nodes.next] at hsize
  obtain ⟨img', after, hreopen, hkept', -, hsame⟩ := hkept.reopen o rawType'
    (fun id hid => hnul id (hkept.sound.nodes.keys_perm.mem_iff.2 hid)) hsize
  obtain ⟨g'', img'', last, hlast, hkept'', -⟩ := hkept'.run (hrest after hreopen)
  exact ⟨before, after, last, hbefore, hreopen, hlast, hsame.readsSame fun d hd => .inl hd,
    fun k hk => hsame.sameLinks (.inr ⟨k, rfl, hk⟩), hkept''.fresh⟩

/-- An iteration in the order of the keys. -/
def inOrder : KeyOrder := ⟨id, fun _ => List.Perm.refl _⟩

/-- A value buffer that holds one byte. -/
def oneByte (b : UInt8) : ValueBuffer := ⟨pad LinkKind.valueSize [b], length_pad (show 1 ≤ 400 by decide)⟩

/-- Two edges, properties of nodes and of a relation. -/
def firstCalls : List Call :=
  [.addEdge .localRelation (ascii "1", ascii "2"), .addProperty 0 (ascii "a") (oneByte 49),
    .addProperty 0 (ascii "b") (oneByte 50), .addMetaProperty 0 (ascii "p") (oneByte 48),
    .addMetaProperty 0 (ascii "q") (oneByte 49), .addMetaProperty 1 (ascii "p") (oneByte 48),
    .addRelationProperty .localRelation 0 (ascii "w") (oneByte 51),
    .addEdge .centralRelation (ascii "2", ascii "2")]

/-- A further edge, and properties through objects from before the reopening. -/
def laterCalls : List Call :=
  [.addEdge .localRelation (ascii "3", ascii "1"), .addProperty 1 (ascii "a") (oneByte 52),
    .addRelationMetaProperty 1 (ascii "p") (oneByte 48), .get (ascii "2")]

theorem run_reopen_first_later : (start 6 (fun _ _ _ => 0) Disk.empty).Meets
        (firstCalls ++ .reopen inOrder (fun _ _ _ => 0) :: laterCalls) ∧
      ∃ before after last, (start 6 (fun _ _ _ => 0) Disk.empty).run firstCalls = some before ∧
        (Call.reopen inOrder fun _ _ _ => 0).run before = some after ∧
        after.run laterCalls = some last ∧ ReadsSame before.store after.store ∧
        (∀ k, SameLinks k before.store after.store) ∧
        (Room last.store.mem → last.store.Fresh) := by
  have hmeets : (start 6 (fun _ _ _ => 0) Disk.empty).Meets
      (firstCalls ++ .reopen inOrder (fun _ _ _ => 0) :: laterCalls) := by decide +kernel
  obtain ⟨before, after, last, hbefore, hreopen, hlast, hsame, hlinks, hfresh⟩ :=
    run_reopen 6 (fun _ _ _ => 0) (fun _ _ _ => 0) Disk.empty inOrder firstCalls laterCalls hmeets
  refine ⟨hmeets, before, after, last, hbefore, hreopen, hlast, hsame, fun k => hlinks k ?_, hfresh⟩
  obtain ⟨store, hstore, h1, h2, h3, h4⟩ : ∃ c ∈ (start 6 (fun _ _ _ => 0) Disk.empty).run firstCalls,
      c.store.Written .property ∧ c.store.Written .metaProperty ∧
        c.store.Written .edgeProperty ∧ c.store.Written .metaEdgeProperty := by
    decide +kernel
  obtain rfl := some.inj (hstore.symm.trans hbefore)
  cases k <;> assumption

/-- An iteration against the order of the keys. -/
def inReverse : KeyOrder := ⟨reverse, fun _ => reverse_perm _⟩

/-- **What a reopening can lose.** Of two ids that differ behind a NUL byte the index file keeps both
records, and both keys are read back as `5`: one of the nodes is not found any more. And of two meta
properties of a node the second is in the file, but the link to it was still in the buffer. -/
theorem reopen_loses :
    (∃ before after, (start 6 (fun _ _ _ => 0) Disk.empty).run
        [.addEdge .localRelation (ascii "5", ascii "5" ++ [0, 120])] = some before ∧
      (Call.reopen inReverse fun _ _ _ => 0).run before = some after ∧
      before.store.mem.nodeIndex[ascii "5" ++ [0, 120]]? = some 1 ∧
      after.store.mem.nodeIndex[ascii "5"]? = some 0 ∧
      after.store.mem.nodeIndex[ascii "5" ++ [0, 120]]? = none ∧
      ¬ ReadsSame before.store after.store) ∧
    ∃ before after, (start 6 (fun _ _ _ => 0) Disk.empty).run
        [.addNode (ascii "1"), .addMetaProperty 0 (ascii "p") (oneByte 48),
          .addMetaProperty 0 (ascii "q") (oneByte 49)] = some before ∧
      (Call.reopen inReverse fun _ _ _ => 0).run before = some after ∧
      (before.nodes.map fun n => n.metaPropRef) = [416] ∧
      ¬ SameLinks .metaProperty before.store after.store := by
  constructor
  · obtain ⟨before, hbefore, after, hafter, h1, h2, h3⟩ :
        ∃ before ∈ (start 6 (fun _ _ _ => 0) Disk.empty).run
          [.addEdge .localRelation (ascii "5", ascii "5" ++ [0, 120])],
          ∃ after ∈ (Call.reopen inReverse fun _ _ _ => 0).run before,
            before.store.mem.nodeIndex[ascii "5" ++ [0, 120]]? = some 1 ∧
            after.store.mem.nodeIndex[ascii "5"]? = some 0 ∧
            after.store.mem.nodeIndex[ascii "5" ++ [0, 120]]? = none := by
      decide +kernel
    refine ⟨before, after, hbefore, hafter, h1, h2, h3, fun hsame => ?_⟩
    have hindex := hsame.index (ascii "5" ++ [0, 120])
    rw [h1, h3] at hindex
    cases hindex
  · obtain ⟨before, hbefore, after, hafter, hrefs, h1, h2⟩ :
        ∃ before ∈ (start 6 (fun _ _ _ => 0) Disk.empty).run
          [.addNode (ascii "1"), .addMetaProperty 0 (ascii "p") (oneByte 48),
            .addMetaProperty 0 (ascii "q") (oneByte 49)],
          ∃ after ∈ (Call.reopen inReverse fun _ _ _ => 0).run before,
            (before.nodes.map fun n => n.metaPropRef) = [416] ∧
            ((getLink .metaProperty 416).run' before.store).map (·.map (·.nextPropAddress)) =
              some (some 832) ∧
            ((getLink .metaProperty 416).run' after.store).map (·.map (·.nextPropAddress)) =
              some (some 0) := by
      decide +kernel
    refine ⟨before, after, hbefore, hafter, hrefs, fun hsame => ?_⟩
    rw [hsame.link 416, h2] at h1
    cases h1

end JasmineGraph.NativeStore
