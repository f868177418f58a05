import JasmineGraph.NativeStore.Edges

/-!
# A relation between two nodes

`NodeManager::addLocalRelation` and `addCentralRelation` append one block to the relation file and
make it the first of the lists of its two nodes. They push it on the list of the source and then,
with an object read before, on the list of the destination. On a self-loop the second push repeats
the writes of the first. On two distinct nodes the pushes write different records, even where both
are ends of one block: each writes the links of its own end.
-/

namespace JasmineGraph.NativeStore

open Bytes Refine Thread Image Log Nat NodeBlock

/-! ## The new block -/

def Image.handle (img : Image) (g : Log) (id : ByteString) : NodeBlock :=
  nodeAt (img.files .nodes) id (g.nodeAddr id)

def Log.headOf (g : Log) (k : RelationKind) (id : ByteString) : Nat :=
  last (g.Joins k id) (g.edges k).length

/-- What adding a relation between two nodes relies on. -/
structure Linking (g : Log) (img : Image) (k : RelationKind) (s d : ByteString) : Prop where
  nodes : NodesHold g img
  ends : ∀ k, EndsHold g img k
  source : s ∈ g.ids
  destination : d ∈ g.ids
  nodesFit : NodesFit g
  fit : ((g.edges k).length + 1) * k.blockSize < 2 ^ 32

namespace Linking

variable {g : Log} {img : Image} {k k' : RelationKind} {s d id : ByteString} {b : Nat}
  {o : RelationOffset}

def written (g : Log) (img : Image) (k : RelationKind) (s d : ByteString) : Image :=
  img.withRelation k (img.handle g s) (img.handle g d)

def onSource (g : Log) (img : Image) (k : RelationKind) (s d : ByteString) : Image :=
  (written g img k s d).pushed k (g.nodeAddr s) (((g.edges k).length + 1) * k.blockSize)
    (g.headOf k s * k.blockSize) (g.nodeAddr s)

def onBoth (g : Log) (img : Image) (k : RelationKind) (s d : ByteString) : Image :=
  (onSource g img k s d).pushed k (g.nodeAddr d) (((g.edges k).length + 1) * k.blockSize)
    (g.headOf k d * k.blockSize) (g.nodeAddr s)

theorem headOf_le (g : Log) (k : RelationKind) (id : ByteString) :
    g.headOf k id ≤ (g.edges k).length := last_le _

theorem head_written : (written g img k s d).head = img.head := by
  funext k' a
  rw [head, head, written, withRelation_nodes]

theorem onBoth_mem : (onBoth g img k s d).mem = img.mem.bumpRelation k := by
  rw [onBoth, pushed_mem, onSource, pushed_mem, written, withRelation, withMem_mem, wrote_mem]

abbrev log (L : Linking g img k s d) : Log := g.join k (s, d) ⟨L.source, L.destination⟩

/-- After both pushes the list of a node is the one of the longer log. -/
abbrev Threaded (L : Linking g img k s d) (id : ByteString) : Prop :=
  Thread (L.log.Joins k id) (· * k.blockSize) ((g.edges k).length + 1)
    ((onBoth g img k s d).head k (g.nodeAddr id)) ((onBoth g img k s d).nxt k (g.nodeAddr id))
    ((onBoth g img k s d).prv k (g.nodeAddr id))

variable (L : Linking g img k s d)
include L

theorem addr_lt (hid : id ∈ g.ids) : g.nodeAddr id < 2 ^ 32 := L.nodesFit _ (slot_lt hid)

theorem head_fit (id : ByteString) : g.headOf k id * k.blockSize < 2 ^ 32 :=
  lt_of_le_of_lt
    (mul_le_mul_right _ (le_succ_of_le (headOf_le g k id))) L.fit

theorem handle_ref (hid : id ∈ g.ids) :
    (img.handle g id).relationRef k = g.headOf k id * k.blockSize := by
  have hhead := (L.ends k).head id hid
  cases k <;> exact hhead

theorem newWord_lt (o : RelationOffset) : newWord (img.handle g s) (img.handle g d) o < 2 ^ 32 := by
  have hs := L.addr_lt L.source
  have hd := L.addr_lt L.destination
  cases o
  case sourceId => exact u32At_lt _ _
  case destinationId => exact u32At_lt _ _
  case source => exact hs
  case destination => exact hd
  all_goals exact Nat.two_pow_pos 32

theorem word_new (ho : o ≠ .relationPropsMeta) :
    (written g img k s d).word k ((g.edges k).length + 1) o =
      newWord (img.handle g s) (img.handle g d) o :=
  word_withRelation_new ho (L.ends k).next (L.newWord_lt o)

theorem word_old (hb : k' = k → b ≤ (g.edges k).length) :
    (written g img k s d).word k' b o = img.word k' b o := by
  refine word_withRelation_old fun hk => ?_
  rw [(L.ends k).next]
  have := hb hk
  omega

theorem isEnd_written (hid : id ∈ g.ids) (h0 : 0 < b) (hb : b ≤ (g.edges k).length + 1) :
    (written g img k s d).IsEnd k (g.nodeAddr id) b ↔ L.log.Joins k id b := by
  by_cases hn : b = (g.edges k).length + 1
  · rw [hn, joins_join_new, IsEnd, L.word_new (by simp), L.word_new (by simp)]
    change g.nodeAddr id = g.nodeAddr s ∨ g.nodeAddr id = g.nodeAddr d ↔ _
    rw [nodeAddr_inj hid, nodeAddr_inj hid]
    exact or_congr eq_comm eq_comm
  · rw [← joins_join_old h0 (by omega), ← (L.ends k).isEnd_iff hid h0 (by omega), IsEnd,
      IsEnd, L.word_old fun _ => by omega, L.word_old fun _ => by omega]

theorem isEnd_head (hid : id ∈ g.ids) (h0 : g.headOf k id ≠ 0) :
    (written g img k s d).IsEnd k (g.nodeAddr id) (g.headOf k id) := by
  have hle := headOf_le g k id
  have hpos : 0 < g.headOf k id := pos_of_ne_zero h0
  rw [L.isEnd_written hid hpos (le_succ_of_le hle), ← joins_join_old hpos hle]
  exact last_spec h0

theorem nxt_written_new :
    (written g img k s d).nxt k (g.nodeAddr id) ((g.edges k).length + 1) = 0 := by
  rw [nxt, L.word_new (by unfold nextOffset; split_ifs <;> simp)]
  unfold nextOffset
  split_ifs <;> rfl

theorem prv_written_new :
    (written g img k s d).prv k (g.nodeAddr id) ((g.edges k).length + 1) = 0 := by
  rw [prv, L.word_new (by unfold previousOffset; split_ifs <;> simp)]
  unfold previousOffset
  split_ifs <;> rfl

/-- The new block alone changes no list. -/
theorem thread_written (hl : LinksHold g img k) (hid : id ∈ g.ids) :
    Thread (L.log.Joins k id) (· * k.blockSize)
      (g.edges k).length (img.head k (g.nodeAddr id))
      ((written g img k s d).nxt k (g.nodeAddr id))
      ((written g img k s d).prv k (g.nodeAddr id)) := by
  refine (hl id hid).congr (fun b h0 hb => joins_join_old h0 hb) rfl (fun b _ hb _ => ?_)
    fun b _ hb _ => ?_
  · rw [nxt, nxt, L.word_old fun _ => hb, L.word_old fun _ => hb]
  · rw [prv, prv, L.word_old fun _ => hb, L.word_old fun _ => hb]

theorem word_end_onSource (ho : o = .source ∨ o = .destination) :
    (onSource g img k s d).word k' b o = (written g img k s d).word k' b o :=
  word_end_pushed L.fit (L.head_fit s) ho

theorem word_end_onBoth (ho : o = .source ∨ o = .destination) :
    (onBoth g img k s d).word k' b o = (written g img k s d).word k' b o := by
  rw [onBoth, word_end_pushed L.fit (L.head_fit d) ho, L.word_end_onSource ho]

theorem nxt_onBoth_old {x : Nat} (hb : b ≤ (g.edges k).length) :
    (onBoth g img k s d).nxt k x b = (written g img k s d).nxt k x b := by
  rw [onBoth, nxt_pushed_of_ne L.fit (L.head_fit d) (by omega), onSource,
    nxt_pushed_of_ne L.fit (L.head_fit s) (by omega)]

theorem isEnd_onSource {y : Nat} :
    (onSource g img k s d).IsEnd k' y b ↔ (written g img k s d).IsEnd k' y b := by
  rw [IsEnd, IsEnd, L.word_end_onSource (.inl rfl), L.word_end_onSource (.inr rfl)]

/-- After both pushes a node block refers to the new relation if it is an end of it. -/
theorem head_onBoth (hid : id ∈ g.ids) : (onBoth g img k s d).head k' (g.nodeAddr id) =
      if k' = k ∧ (s = id ∨ d = id) then ((g.edges k).length + 1) * k.blockSize
      else img.head k' (g.nodeAddr id) := by
  have hs : g.slot id = g.slot s ↔ s = id := by rw [slot_inj hid, eq_comm]
  have hd : g.slot id = g.slot d ↔ d = id := by rw [slot_inj hid, eq_comm]
  simp only [onBoth, onSource, nodeAddr]
  rw [head_pushed L.fit, head_pushed L.fit, head_written]
  simp only [hs, hd]
  by_cases hk : k' = k
  · by_cases hde : d = id
    · rw [if_pos ⟨hk, hde⟩, if_pos ⟨hk, .inr hde⟩]
    · rw [if_neg fun hc => hde hc.2]
      exact if_congr (and_congr_right fun _ => (or_iff_left hde).symm) rfl rfl
  · rw [if_neg fun hc => hk hc.1, if_neg fun hc => hk hc.1, if_neg fun hc => hk hc.1]

/-- The links of a node outside the new edge stay. -/
theorem thread_skip (hl : LinksHold g img k) (hid : id ∈ g.ids) (hs : s ≠ id) (hd : d ≠ id) :
    L.Threaded id := by
  have hne : ∀ {x}, x ≠ id → g.nodeAddr id ≠ g.nodeAddr x :=
    fun hx heq => hx ((nodeAddr_inj hid).1 heq).symm
  refine Thread.skip (L.thread_written hl hid) ?_ ?_ (fun b h0 hb hj => ?_) fun b h0 hb hj => ?_
  · rw [joins_join_new]
    exact fun hc => hc.elim hs hd
  · rw [L.head_onBoth hid, if_neg fun hc => hc.2.elim hs hd]
  · exact L.nxt_onBoth_old hb
  · have hend := (L.isEnd_written hid h0 (le_succ_of_le hb)).2 hj
    rw [onBoth, prv_pushed_other L.fit (L.head_fit d) (hne hd)
      (fun hz => L.isEnd_onSource.2 (L.isEnd_head L.destination hz)) (L.isEnd_onSource.2 hend),
      onSource, prv_pushed_other L.fit (L.head_fit s) (hne hs) (L.isEnd_head L.source) hend]

/-- The new block heads the list of a node, given the links of the node in it and in the old
head. -/
theorem thread_push (hl : LinksHold g img k) (hid : id ∈ g.ids) (hend : s = id ∨ d = id)
    (hnew : (onBoth g img k s d).nxt k (g.nodeAddr id) ((g.edges k).length + 1) =
      g.headOf k id * k.blockSize)
    (hback : g.headOf k id ≠ 0 → (onBoth g img k s d).prv k (g.nodeAddr id) (g.headOf k id) =
      ((g.edges k).length + 1) * k.blockSize)
    (hprev : ∀ b, 0 < b → b ≤ (g.edges k).length → b ≠ g.headOf k id →
      (written g img k s d).IsEnd k (g.nodeAddr id) b →
      (onBoth g img k s d).prv k (g.nodeAddr id) b =
        (written g img k s d).prv k (g.nodeAddr id) b) :
    L.Threaded id := by
  have hlast : last (L.log.Joins k id) (g.edges k).length =
      g.headOf k id := last_congr fun b h0 hb => (joins_join_old h0 hb).symm
  have hle := headOf_le g k
  refine Thread.push (L.thread_written hl hid) (joins_join_new.2 hend) ?_ ?_
    (fun b _ hb _ => ?_) ?_ ?_ fun b h0 hb hj hne => ?_
  · rw [L.head_onBoth hid, if_pos ⟨rfl, hend⟩]
  · rw [hnew, (L.ends k).head id hid, headOf]
  · exact L.nxt_onBoth_old hb
  · have hs := hle s
    have hd := hle d
    rw [onBoth, prv_pushed_of_ne L.fit (L.head_fit d) (by omega), onSource,
      prv_pushed_of_ne L.fit (L.head_fit s) (by omega), L.prv_written_new, zero_mul]
  · rw [hlast]
    exact hback
  · rw [hlast] at hne
    exact hprev b h0 hb hne ((L.isEnd_written hid h0 (le_succ_of_le hb)).2 hj)

theorem source_written :
    g.nodeAddr s = (written g img k s d).word k ((g.edges k).length + 1) .source := by
  rw [L.word_new (by simp)]
  rfl

theorem source_onSource :
    g.nodeAddr s = (onSource g img k s d).word k ((g.edges k).length + 1) .source := by
  rw [L.word_end_onSource (.inl rfl)]
  exact L.source_written

theorem isEnd_new (hid : id ∈ g.ids) (hend : s = id ∨ d = id) :
    (written g img k s d).IsEnd k (g.nodeAddr id) ((g.edges k).length + 1) :=
  (L.isEnd_written hid (succ_pos _) (le_refl _)).2 (joins_join_new.2 hend)

theorem thread_source (hl : LinksHold g img k) (hne : d ≠ s) : L.Threaded s := by
  have haddr : g.nodeAddr s ≠ g.nodeAddr d :=
    fun heq => hne ((nodeAddr_inj L.source).1 heq).symm
  have hother : ∀ {b}, (written g img k s d).IsEnd k (g.nodeAddr s) b →
      (onBoth g img k s d).prv k (g.nodeAddr s) b = (onSource g img k s d).prv k (g.nodeAddr s) b :=
    fun hb => prv_pushed_other L.fit (L.head_fit d) haddr
      (fun hz => L.isEnd_onSource.2 (L.isEnd_head L.destination hz)) (L.isEnd_onSource.2 hb)
  refine L.thread_push hl L.source (.inl rfl) ?_ (fun hz => ?_) fun b _ _ hbne hb => ?_
  · rw [onBoth, nxt_pushed_other L.fit (L.head_fit d) L.source_onSource haddr
      (L.isEnd_onSource.2 (L.isEnd_new L.destination (.inr rfl)))
      (L.isEnd_onSource.2 (L.isEnd_new L.source (.inl rfl)))]
    exact nxt_pushed_self L.fit (L.head_fit s) L.source_written fun _ => L.nxt_written_new
  · rw [hother (L.isEnd_head L.source hz), onSource]
    exact prv_pushed_head L.fit (L.head_fit s) hz
  · rw [hother hb, onSource, prv_pushed_of_ne L.fit (L.head_fit s) hbne]

theorem thread_destination (hl : LinksHold g img k) : L.Threaded d := by
  refine L.thread_push hl L.destination (.inr rfl) ?_ (fun hz => ?_) fun b _ _ hbne hb => ?_
  · refine nxt_pushed_self L.fit (L.head_fit d) L.source_onSource fun hz => ?_
    by_cases hne : d = s
    · subst hne
      rw [onSource, nxt_pushed_self L.fit (L.head_fit d) L.source_written
        fun _ => L.nxt_written_new, hz, zero_mul]
    · rw [onSource, nxt_pushed_other L.fit (L.head_fit s) L.source_written
        (fun heq => hne ((nodeAddr_inj L.destination).1 heq))
        (L.isEnd_new L.source (.inl rfl)) (L.isEnd_new L.destination (.inr rfl)),
        L.nxt_written_new]
  · exact prv_pushed_head L.fit (L.head_fit d) hz
  · rw [onBoth, prv_pushed_of_ne L.fit (L.head_fit d) hbne, onSource]
    by_cases hne : d = s
    · rw [prv_pushed_of_ne L.fit (L.head_fit s) (hne ▸ hbne)]
    · rw [prv_pushed_other L.fit (L.head_fit s)
        (fun heq => hne ((nodeAddr_inj L.destination).1 heq)) (L.isEnd_head L.source) hb]

/-- **The lists of every node after an edge.** -/
theorem linksHold (hl : LinksHold g img k) : LinksHold L.log (onBoth g img k s d) k := by
  intro id hid
  rw [length_join]
  by_cases hd : d = id
  · subst hd
    exact L.thread_destination hl
  · by_cases hs : s = id
    · subst hs
      exact L.thread_source hl hd
    · exact L.thread_skip hl hid hs hd

theorem linksHold_of_ne (hk : k' ≠ k) (hl : LinksHold g img k') :
    LinksHold L.log (onBoth g img k s d) k' := by
  have hword : ∀ b o, (onBoth g img k s d).word k' b o = img.word k' b o := by
    intro b o
    rw [onBoth, word_pushed L.fit (L.head_fit d), if_neg fun hc => hk hc.2.1,
      if_neg fun hc => hk hc.2.1, onSource, word_pushed L.fit (L.head_fit s),
      if_neg fun hc => hk hc.2.1, if_neg fun hc => hk hc.2.1, L.word_old fun h => absurd h hk]
  intro id hid
  rw [edges_join_of_ne hk]
  refine (hl id hid).congr (fun b _ _ => ?_) ?_ (fun b _ _ _ => ?_) fun b _ _ _ => ?_
  · exact joins_join_of_ne hk
  · change (onBoth g img k s d).head k' (g.nodeAddr id) = _
    rw [L.head_onBoth hid, if_neg fun hc => hk hc.1]
  · rw [nxt, hword, hword]
    rfl
  · rw [prv, prv, hword, hword]
    rfl

/-- An edge changes nothing of a node block but its relation references. -/
theorem nodeAt_onBoth (i : Nat) (id' : ByteString) :
    ∃ e c, nodeAt ((onBoth g img k s d).files .nodes) id' (i * blockSize) =
      { nodeAt (img.files .nodes) id' (i * blockSize) with
        edgeRef := e, centralEdgeRef := c } := by
  obtain ⟨e, c, h⟩ := @nodeAt_pushed_refs (onSource g img k s d) k (g.slot d) i _
    (g.headOf k d * k.blockSize) L.fit id' (g.nodeAddr s)
  obtain ⟨e', c', h'⟩ := @nodeAt_pushed_refs (written g img k s d) k (g.slot s) i _
    (g.headOf k s * k.blockSize) L.fit id' (g.nodeAddr s)
  have hnodes : (written g img k s d).files .nodes = img.files .nodes :=
    withRelation_nodes _ _
  refine ⟨e, c, h.trans ?_⟩
  change nodeAt ((onSource g img k s d).files .nodes) id' _ = _ at h'
  rw [h', hnodes]

theorem aligned_new : k = .localRelation → ((g.edges k).length + 1) * k.blockSize % 152 = 0 := by
  rintro rfl
  exact mul_mod_left _ _

theorem size_written : ((written g img k s d).files (.relations k)).size =
    max (img.files (.relations k)).size (((g.edges k).length + 1 + 1) * k.blockSize) := by
  rw [written, size_withRelation, (L.ends k).next]

theorem inside_written (hb : b ≤ (g.edges k).length + 1) :
    (b + 1) * k.blockSize ≤ ((written g img k s d).files (.relations k)).size := by
  rw [L.size_written]
  exact le_trans (mul_le_mul_right _ (succ_le_succ hb)) (le_max_right _ _)

theorem size_onSource : ((onSource g img k s d).files (.relations k')).size =
    ((written g img k s d).files (.relations k')).size :=
  size_pushed (L.inside_written (le_refl _))
    (L.inside_written (le_succ_of_le (headOf_le g k s)))

theorem size_onBoth : ((onBoth g img k s d).files (.relations k')).size =
    ((written g img k s d).files (.relations k')).size := by
  rw [onBoth, size_pushed, L.size_onSource]
  · rw [L.size_onSource]
    exact L.inside_written (le_refl _)
  · rw [L.size_onSource]
    exact L.inside_written (le_succ_of_le (headOf_le g k d))

theorem nodeOk_written {i : Nat} (hi : i < g.ids.length) :
    NodeOk ((written g img k s d).files .nodes) (i * blockSize) := by
  exact L.nodes.ok i hi

theorem nodeOk_onSource {i : Nat} (hi : i < g.ids.length) :
    NodeOk ((onSource g img k s d).files .nodes) (i * blockSize) :=
  NodeOk.pushed (L.nodeOk_written hi) L.fit L.aligned_new _

theorem nodesHold : NodesHold L.log (onBoth g img k s d) := by
  have hslot : ∀ {id}, id ∈ g.ids →
      (g.slot id + 1) * blockSize ≤ (img.files .nodes).size := fun hid => by
    rw [L.nodes.size]
    exact mul_le_mul_right _ (slot_lt hid)
  have hwritten : (written g img k s d).files .nodes = img.files .nodes :=
    withRelation_nodes _ _
  have hsource : ((onSource g img k s d).files .nodes).size = (img.files .nodes).size := by
    exact size_nodes_pushed (by rw [hwritten]; exact hslot L.source)
  have hboth : ((onBoth g img k s d).files .nodes).size = (img.files .nodes).size := by
    rw [← hsource]
    exact size_nodes_pushed (by rw [hsource]; exact hslot L.destination)
  refine ⟨fun id => ?_, ?_, ?_, fun i hi => ?_, fun id hid => ?_⟩
  · rw [onBoth_mem]
    exact L.nodes.index id
  · rw [onBoth_mem]
    exact L.nodes.next
  · rw [hboth]
    exact L.nodes.size
  · exact NodeOk.pushed (L.nodeOk_onSource hi) L.fit L.aligned_new _
  · obtain ⟨e, c, h⟩ := L.nodeAt_onBoth (g.slot id) []
    rw [← L.nodes.number id hid]
    exact congrArg nodeId h

theorem endsHold_of_ne (hk : k' ≠ k) : EndsHold L.log (onBoth g img k s d) k' := by
  have hends := L.ends k'
  have hedges : L.log.edges k' = g.edges k' :=
    edges_join_of_ne hk
  have hword : ∀ {b o}, (o = .source ∨ o = .destination) →
      (onBoth g img k s d).word k' b o = img.word k' b o := fun ho => by
    rw [L.word_end_onBoth ho, L.word_old fun h => absurd h hk]
  refine ⟨?_, fun hne => ?_, fun b e hb => ?_, fun b e hb => ?_, fun id hid => ?_⟩
  · rw [onBoth_mem, hedges, ← hends.next]
    exact Function.update_of_ne hk _ _
  · rw [hedges] at hne ⊢
    rw [L.size_onBoth, written, withRelation, withMem_files,
      wrote_files_of_ne _ (by simpa using hk)]
    exact hends.inside hne
  · rw [hedges] at hb
    rw [hword (.inl rfl)]
    exact hends.source b e hb
  · rw [hedges] at hb
    rw [hword (.inr rfl)]
    exact hends.destination b e hb
  · have hlast : last (g.Joins k' id) (g.edges k').length =
        last (L.log.Joins k' id) (g.edges k').length :=
      last_congr fun b _ _ => joins_join_of_ne hk
    change (onBoth g img k s d).head k' (g.nodeAddr id) = _
    rw [L.head_onBoth hid, if_neg fun hc => hk hc.1, hends.head id hid, hedges, hlast]

theorem endsHold_self : EndsHold L.log (onBoth g img k s d) k := by
  have hends := L.ends k
  have hfit := L.fit
  have hword : ∀ {b o}, (o = .source ∨ o = .destination) → b ≤ (g.edges k).length →
      (onBoth g img k s d).word k b o = img.word k b o := fun ho hb => by
    rw [L.word_end_onBoth ho, L.word_old fun _ => hb]
  have hedge : ∀ {b e}, (L.log.edges k)[b]? = some e →
      (g.edges k)[b]? = some e ∧ b < (g.edges k).length ∨ e = (s, d) ∧ b = (g.edges k).length := by
    intro b e hb
    rw [edges_join] at hb
    rcases lt_or_ge b (g.edges k).length with hlt | hge
    · rw [List.getElem?_append_left hlt] at hb
      exact .inl ⟨hb, hlt⟩
    · rw [List.getElem?_append_right hge, List.getElem?_singleton] at hb
      split_ifs at hb with h0
      exact .inr ⟨(Option.some.inj hb).symm, by omega⟩
  refine ⟨?_, fun _ => ?_, fun b e hb => ?_, fun b e hb => ?_, fun id hid => ?_⟩
  · have hnext : (img.mem.bumpRelation k).nextRelationIndex k =
        u32 (img.mem.nextRelationIndex k + 1) := Function.update_self _ _ _
    rw [onBoth_mem, hnext, hends.next, length_join]
    refine u32_of_lt ?_
    cases k <;> simp only [RelationKind.blockSize] at hfit <;> omega
  · rw [L.size_onBoth, L.size_written, length_join]
    exact le_max_right _ _
  · rcases hedge hb with ⟨hold, hlt⟩ | ⟨rfl, rfl⟩
    · rw [hword (.inl rfl) hlt]
      exact hends.source b e hold
    · rw [L.word_end_onBoth (.inl rfl), L.word_new (by simp)]
      rfl
  · rcases hedge hb with ⟨hold, hlt⟩ | ⟨rfl, rfl⟩
    · rw [hword (.inr rfl) hlt]
      exact hends.destination b e hold
    · rw [L.word_end_onBoth (.inr rfl), L.word_new (by simp)]
      rfl
  · have hlast : last (g.Joins k id) (g.edges k).length =
        last (L.log.Joins k id) (g.edges k).length :=
      last_congr fun b h0 hb => joins_join_old h0 hb
    change (onBoth g img k s d).head k (g.nodeAddr id) = _
    rw [L.head_onBoth hid, length_join, last]
    by_cases hend : s = id ∨ d = id
    · rw [if_pos ⟨rfl, hend⟩, if_pos (joins_join_new.2 hend)]
    · rw [if_neg fun hc => hend hc.2, if_neg fun hc => hend (joins_join_new.1 hc), ← hlast,
        hends.head id hid]

/-- **The ends and heads after an edge.** -/
theorem endsHold (k' : RelationKind) : EndsHold L.log (onBoth g img k s d) k' := by
  by_cases hk : k' = k
  · subst hk
    exact L.endsHold_self
  · exact L.endsHold_of_ne hk

/-! ## Running it -/

theorem size_le_written : (img.files (.relations k)).size ≤
    ((written g img k s d).files (.relations k)).size := by
  rw [L.size_written]
  exact le_max_left _ _

end Linking

/-- `NodeManager::get` reads a known node and changes nothing. -/
theorem NodesHold.runs_get {g : Log} {img : Image} (h : NodesHold g img) (hfit : NodesFit g)
    (id : ByteString) :
    Runs (img.Shown none) (NodeManager.get id)
      (if id ∈ g.ids then some (img.handle g id) else none) (img.Shown none) := by
  refine .bind runs_memory ?_
  rw [h.index]
  by_cases hid : id ∈ g.ids
  · rw [if_pos hid, if_pos hid]
    have hslot := slot_lt hid
    refine .bind ?_ .pure
    unfold NodeManager.getAt
    rw [u32_of_lt (hfit _ hslot)]
    exact runs_read id (h.ok _ hslot).toNodeReadable
  · rw [if_neg hid, if_neg hid]
    exact .pure

namespace Linking

variable {g : Log} {img : Image} {k : RelationKind} {s d : ByteString}

/-- **A relation is added**: both functions return it, and the store is the one described. -/
theorem runs_addRelation (L : Linking g img k s d) :
    ∃ r, Runs (img.Shown none) (NodeManager.addRelation k (img.handle g s) (img.handle g d))
        (some r) ((onBoth g img k s d).Shown none) ∧
      r.addr = ((g.edges k).length + 1) * k.blockSize ∧ r.source.address = g.nodeAddr s ∧
      r.destination.address = g.nodeAddr d ∧ r.propertyAddress = 0 ∧
      r.metaPropertyAddress = 0 := by
  have hnew : (img.newRelation k (img.handle g s) (img.handle g d)).addr =
      ((g.edges k).length + 1) * k.blockSize := by
    change u32 (img.mem.nextRelationIndex k * k.blockSize) = _
    rw [(L.ends k).next, u32_of_lt L.fit]
  have hhead : ∀ id, g.headOf k id ≠ 0 → 0 < g.headOf k id := fun _ => pos_of_ne_zero
  obtain ⟨r1, hrun1, haddr1, hsrc1, hdst1, hprop1, hmeta1⟩ :=
    @runs_updateRelation (written g img k s d) k (g.slot s) _ (g.headOf k s)
      (img.handle g s) (img.newRelation k (img.handle g s) (img.handle g d)) rfl
      (L.addr_lt L.source) hnew L.fit (L.handle_ref L.source) (L.head_fit s)
      (fun hz => (L.ends k).relationOk_of (hhead s hz) (headOf_le g k s) (fun i => L.nodeOk_written)
        (fun _ => L.word_old fun _ => headOf_le g k s) L.size_le_written)
      (L.isEnd_head L.source) (.inl rfl)
  rw [hnew] at hrun1 haddr1
  obtain ⟨r2, hrun2, haddr2, hsrc2, hdst2, hprop2, hmeta2⟩ :=
    @runs_updateRelation (onSource g img k s d) k (g.slot d) _ (g.headOf k d)
      (img.handle g d) r1 rfl (L.addr_lt L.destination) haddr1 L.fit (L.handle_ref L.destination)
      (L.head_fit d)
      (fun hz => (L.ends k).relationOk_of (hhead d hz) (headOf_le g k d) (fun i => L.nodeOk_onSource)
        (fun ho => (L.word_end_onSource ho).trans (L.word_old fun _ => headOf_le g k d))
        (le_trans L.size_le_written L.size_onSource.ge))
      (fun hz => L.isEnd_onSource.2 (L.isEnd_head L.destination hz)) (.inr hdst1.symm)
  rw [haddr1, hsrc1] at hrun2
  refine ⟨r2, ?_, haddr2.trans haddr1, hsrc2.trans hsrc1, hdst2.trans hdst1, hprop2.trans hprop1,
    hmeta2.trans hmeta1⟩
  refine .bind (Image.runs_addRelation (L.nodes.ok _ (slot_lt L.source))
    (L.nodes.ok _ (slot_lt L.destination))) ?_
  refine .bind hrun1 (.bind hrun2 ?_)
  have hget := fun id => L.nodesHold.runs_get L.nodesFit id
  dsimp only
  by_cases hk : k = .localRelation
  · rw [if_pos hk]
    exact .bind (hget _) (.bind (hget _) .pure)
  · rw [if_neg hk]
    exact .pure

end Linking

end JasmineGraph.NativeStore
