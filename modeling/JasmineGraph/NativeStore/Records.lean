import JasmineGraph.NativeStore.Blocks

/-!
# Records of relation blocks under updates

The rules of `Blocks` say which bytes an update writes. Here the updates are described record by
record: `Image.word` is a record of a relation block by block number, `Image.nxt` and `Image.prv`
are the two links of a node in one of its blocks, whichever end of it the node is.

`pushed` is the image after `updateLocalRelation` or `updateCentralRelation`, with or without an
earlier relation. Of the links of a node it changes the forward link in the new block and the back
link in the old head (`nxt_pushed_self`, `prv_pushed_head`); those of another node stay, although
both nodes may be ends of the same block (`nxt_pushed_other`, `prv_pushed_other`).
-/

namespace JasmineGraph.NativeStore

open Bytes Refine NodeBlock RelationOffset

theorem RelationOffset.index_le (o : RelationOffset) : o.index ≤ 13 := by cases o <;> decide

theorem RelationOffset.index_injective : Function.Injective index := by
  intro o o' h
  cases o <;> cases o' <;> first | rfl | cases h

namespace Image

def word (img : Image) (k : RelationKind) (b : Nat) (o : RelationOffset) : Nat :=
  relWord (img.files (.relations k)) (b * k.blockSize) o

variable {img : Image} {k k' : RelationKind} {o o' : RelationOffset} {b b' i j n h v : Nat}

theorem word_congr {img' : Image} (h : img'.files (.relations k) = img.files (.relations k)) :
    img'.word k = img.word k := by
  funext b o
  rw [word, word, h]

@[simp] theorem word_moved (d : DB) (p : Nat) : (img.moved d p).word k = img.word k :=
  word_congr (by rw [moved_files])

@[simp] theorem word_setRef (a : Nat) : (img.setRef k' a v).word k = img.word k :=
  word_congr (wrote_files_of_ne _ (by simp) _ _)

theorem records_disjoint (k : RelationKind) (h : ¬ (b' = b ∧ o' = o)) :
    b' * k.blockSize + 4 * o'.index + 4 ≤ b * k.blockSize + 4 * o.index ∨
      b * k.blockSize + 4 * o.index + 4 ≤ b' * k.blockSize + 4 * o'.index := by
  have h1 := o.index_le
  have h2 := o'.index_le
  by_cases hb : b' = b
  · have hne : o'.index ≠ o.index := fun heq => h ⟨hb, index_injective heq⟩
    subst hb
    omega
  · cases k <;> simp only [RelationKind.blockSize] <;> omega

theorem word_setWord (hv : v < 2 ^ 32) : (img.setWord k (b * k.blockSize) o v).word k' b' o' =
      if k' = k ∧ b' = b ∧ o' = o then v else img.word k' b' o' := by
  unfold word relWord setWord
  by_cases hk : k' = k
  · subst hk
    rw [wrote_files_self]
    by_cases hbo : b' = b ∧ o' = o
    · obtain ⟨rfl, rfl⟩ := hbo
      rw [if_pos ⟨rfl, rfl, rfl⟩, u32At_write hv]
    · rw [if_neg fun hc => hbo hc.2]
      exact u32At_write_of_disjoint (by rw [length_le32]; exact records_disjoint k' hbo)
  · rw [if_neg fun hc => hk hc.1, wrote_files_of_ne _ (by simpa using hk)]

/-! ## Node blocks -/

theorem setWord_nodes (a : Nat) : (img.setWord k a o v).files .nodes = img.files .nodes :=
  wrote_files_of_ne _ (by simp) _ _

/-- A new first relation changes one node block, in one field. -/
theorem nodeAt_setRef (hv : v < 2 ^ 32) (id : ByteString) :
    nodeAt ((img.setRef k (i * blockSize) v).files .nodes) id (j * blockSize) =
      if j = i then (nodeAt (img.files .nodes) id (i * blockSize)).setRelationRef k v
      else nodeAt (img.files .nodes) id (j * blockSize) := by
  unfold setRef
  rw [wrote_files_self]
  by_cases hij : j = i
  · subst hij
    rw [if_pos rfl, ← NodeField.offset_ofRelation, nodeAt_write_field _ hv]
    cases k <;> rfl
  · rw [if_neg hij]
    refine nodeAt_write_of_disjoint ?_ id
    rw [length_le32]
    cases k <;> simp only [relationRefOffset, blockSize] <;> omega

theorem NodeOk.setRef (hok : NodeOk (img.files .nodes) (j * blockSize)) (hv : v < 2 ^ 32)
    (haligned : k = .localRelation → v % 152 = 0) :
    NodeOk ((img.setRef k (i * blockSize) v).files .nodes) (j * blockSize) := by
  have hslice : ((img.setRef k (i * blockSize) v).files .nodes).slice
      (j * blockSize + 22) labelSize =
      (img.files .nodes).slice (j * blockSize + 22) labelSize := by
    refine ByteFile.slice_write_of_disjoint ?_
    rw [length_le32]
    cases k <;>
      simp only [relationRefOffset, blockSize, labelSize] <;> omega
  refine ⟨⟨?_, ?_⟩, ?_, ?_⟩
  · refine Nat.le_trans hok.inside ?_
    exact Nat.le_max_left _ _
  · rw [hslice]
    exact hok.terminated
  · rw [hslice]
    exact hok.labelled
  · have hedge := congrArg edgeRef (@nodeAt_setRef img k i j v hv [])
    change u32At _ _ = _ at hedge
    rw [hedge]
    by_cases hij : j = i
    · subst hij
      rw [if_pos rfl]
      cases k with
      | localRelation => exact haligned rfl
      | centralRelation => exact hok.aligned
    · rw [if_neg hij]
      exact hok.aligned

/-! ## A new block -/

theorem length_newRelationBytes (img : Image) (k : RelationKind) (source destination : NodeBlock) :
    (img.newRelationBytes k source destination).length = k.blockSize := by
  cases k <;> rfl

def newWord (source destination : NodeBlock) : RelationOffset → Nat
  | .sourceId => source.nodeId
  | .destinationId => destination.nodeId
  | .source => source.addr
  | .destination => destination.addr
  | _ => 0

theorem word_withRelation_new {source destination : NodeBlock} (ho : o ≠ .relationPropsMeta)
    (hn : img.mem.nextRelationIndex k = n) (hlt : newWord source destination o < 2 ^ 32) :
    (img.withRelation k source destination).word k n o = newWord source destination o := by
  have hlen := img.length_newRelationBytes k source destination
  have hfile : (img.withRelation k source destination).files (.relations k) =
      (img.files (.relations k)).write (n * k.blockSize)
        (img.newRelationBytes k source destination) := by
    rw [withRelation, withMem_files, wrote_files_self, hn]
  have hrec : ((img.newRelationBytes k source destination).drop (4 * o.index)).take 4 =
      le32 (newWord source destination o) := by
    cases k <;> cases o <;> first | rfl | exact absurd rfl ho
  have hin : 4 * o.index + 4 ≤ (img.newRelationBytes k source destination).length := by
    have hidx := o.index_le
    rw [hlen]
    cases k <;> simp only [RelationKind.blockSize] <;> omega
  rw [word, relWord, hfile, u32At_write_sub hin, hrec, ofLe32_le32 hlt]

theorem word_withRelation_old {source destination : NodeBlock}
    (hb : k' = k → b ≠ img.mem.nextRelationIndex k) :
    (img.withRelation k source destination).word k' b o = img.word k' b o := by
  by_cases hk : k' = k
  · subst hk
    have hidx := o.index_le
    have hne := hb rfl
    rw [word, withRelation, withMem_files, wrote_files_self]
    refine u32At_write_of_disjoint ?_
    rw [length_newRelationBytes]
    cases k' <;> simp only [RelationKind.blockSize] <;> omega
  · rw [word, word, withRelation, withMem_files, wrote_files_of_ne _ (by simpa using hk)]

theorem size_withRelation (source destination : NodeBlock) :
    ((img.withRelation k source destination).files (.relations k)).size =
      max (img.files (.relations k)).size ((img.mem.nextRelationIndex k + 1) * k.blockSize) := by
  have hlen := img.length_newRelationBytes k source destination
  have hne : img.newRelationBytes k source destination ≠ [] := by
    refine List.ne_nil_of_length_pos ?_
    rw [hlen]
    cases k <;> decide
  rw [withRelation, withMem_files, wrote_files_self, ByteFile.size_write hne, hlen, Nat.succ_mul]

/-! ## Pushing a block on the list of a node -/

/-- The image after the relation at `n` has become the first of the node at `x`, where `h` was the
first before, or 0. -/
def pushed (img : Image) (k : RelationKind) (x n h source : Nat) : Image :=
  if h = 0 then img.setRef k x n else img.threaded k x n h source

def nxt (img : Image) (k : RelationKind) (x b : Nat) : Nat :=
  img.word k b (nextOffset x (img.word k b .source))

def prv (img : Image) (k : RelationKind) (x b : Nat) : Nat :=
  img.word k b (previousOffset x (img.word k b .source))

def IsEnd (img : Image) (k : RelationKind) (x b : Nat) : Prop :=
  x = img.word k b .source ∨ x = img.word k b .destination

theorem nextOffset_ne_previousOffset (x y s t : Nat) : nextOffset x s ≠ previousOffset y t := by
  unfold nextOffset previousOffset
  split_ifs <;> simp

theorem source_ne_nextOffset (x s : Nat) : source ≠ nextOffset x s := by
  unfold nextOffset
  split_ifs <;> simp

theorem source_ne_previousOffset (x s : Nat) : source ≠ previousOffset x s := by
  unfold previousOffset
  split_ifs <;> simp

theorem destination_ne_nextOffset (x s : Nat) : destination ≠ nextOffset x s := by
  unfold nextOffset
  split_ifs <;> simp

theorem destination_ne_previousOffset (x s : Nat) : destination ≠ previousOffset x s := by
  unfold previousOffset
  split_ifs <;> simp

theorem word_pushed {x s : Nat} (hn : n * k.blockSize < 2 ^ 32) (hh : h * k.blockSize < 2 ^ 32) :
    (img.pushed k x (n * k.blockSize) (h * k.blockSize) s).word k' b o =
      if h ≠ 0 ∧ k' = k ∧ b = n ∧ o = nextOffset x s then h * k.blockSize
      else if h ≠ 0 ∧ k' = k ∧ b = h ∧ o = previousOffset x (img.word k h .source) then
        n * k.blockSize
      else img.word k' b o := by
  have hzero : h * k.blockSize = 0 ↔ h = 0 := by
    cases k <;> simp only [RelationKind.blockSize] <;> omega
  unfold pushed
  by_cases h0 : h = 0
  · rw [if_pos (hzero.2 h0), word_setRef, if_neg fun hc => hc.1 h0, if_neg fun hc => hc.1 h0]
  · rw [if_neg fun hc => h0 (hzero.1 hc), threaded, word_setRef, word_setWord hh,
      word_setWord hn, word_moved]
    simp only [ne_eq, h0, not_false_eq_true, true_and, word]

theorem word_pushed_of_ne {x s : Nat} (hn : n * k.blockSize < 2 ^ 32)
    (hh : h * k.blockSize < 2 ^ 32) (hnext : ∀ x s, o ≠ nextOffset x s)
    (hprev : ∀ x s, o ≠ previousOffset x s) :
    (img.pushed k x (n * k.blockSize) (h * k.blockSize) s).word k' b o = img.word k' b o := by
  rw [word_pushed hn hh, if_neg fun hc => hnext _ _ hc.2.2.2, if_neg fun hc => hprev _ _ hc.2.2.2]

theorem word_end_pushed {x s : Nat} (hn : n * k.blockSize < 2 ^ 32)
    (hh : h * k.blockSize < 2 ^ 32) (ho : o = .source ∨ o = .destination) :
    (img.pushed k x (n * k.blockSize) (h * k.blockSize) s).word k' b o = img.word k' b o := by
  rcases ho with rfl | rfl
  · exact word_pushed_of_ne hn hh source_ne_nextOffset source_ne_previousOffset
  · exact word_pushed_of_ne hn hh destination_ne_nextOffset destination_ne_previousOffset

section Pushed

variable {x y s : Nat} (hn : n * k.blockSize < 2 ^ 32) (hh : h * k.blockSize < 2 ^ 32)
include hn hh

theorem nxt_pushed : (img.pushed k x (n * k.blockSize) (h * k.blockSize) s).nxt k' y b =
    if h ≠ 0 ∧ k' = k ∧ b = n ∧ nextOffset y (img.word k' b .source) = nextOffset x s then
      h * k.blockSize
    else img.nxt k' y b := by
  rw [nxt, word_end_pushed hn hh (.inl rfl), word_pushed hn hh]
  refine if_congr .rfl rfl (if_neg fun hc => ?_)
  exact nextOffset_ne_previousOffset _ _ _ _ hc.2.2.2

theorem prv_pushed : (img.pushed k x (n * k.blockSize) (h * k.blockSize) s).prv k' y b =
    if h ≠ 0 ∧ k' = k ∧ b = h ∧ previousOffset y (img.word k' b .source) =
      previousOffset x (img.word k h .source) then n * k.blockSize
    else img.prv k' y b := by
  rw [prv, word_end_pushed hn hh (.inl rfl), word_pushed hn hh]
  refine if_neg fun hc => ?_
  exact nextOffset_ne_previousOffset _ _ _ _ hc.2.2.2.symm

/-- The new block leads to the old head. -/
theorem nxt_pushed_self (hs : s = img.word k n .source) (h0 : h = 0 → img.nxt k x n = 0) :
    (img.pushed k x (n * k.blockSize) (h * k.blockSize) s).nxt k x n = h * k.blockSize := by
  rw [nxt_pushed hn hh, ← hs]
  by_cases hz : h = 0
  · rw [if_neg fun hc => hc.1 hz, h0 hz, hz, Nat.zero_mul]
  · rw [if_pos ⟨hz, rfl, rfl, rfl⟩]

theorem nxt_pushed_of_ne (hb : b ≠ n) :
    (img.pushed k x (n * k.blockSize) (h * k.blockSize) s).nxt k' y b = img.nxt k' y b := by
  rw [nxt_pushed hn hh, if_neg fun hc => hb hc.2.2.1]

/-- The old head leads back to the new block. -/
theorem prv_pushed_head (hz : h ≠ 0) :
    (img.pushed k x (n * k.blockSize) (h * k.blockSize) s).prv k x h = n * k.blockSize := by
  rw [prv_pushed hn hh, if_pos ⟨hz, rfl, rfl, rfl⟩]

theorem prv_pushed_of_ne (hb : b ≠ h) :
    (img.pushed k x (n * k.blockSize) (h * k.blockSize) s).prv k' y b = img.prv k' y b := by
  rw [prv_pushed hn hh, if_neg fun hc => hb hc.2.2.1]

theorem nxt_pushed_other (hs : s = img.word k n .source) (hne : y ≠ x) (hx : img.IsEnd k x n)
    (hy : img.IsEnd k y b) :
    (img.pushed k x (n * k.blockSize) (h * k.blockSize) s).nxt k y b = img.nxt k y b := by
  rw [nxt_pushed hn hh, if_neg]
  rintro ⟨-, -, rfl, heq⟩
  rw [nextOffset, nextOffset] at heq
  unfold IsEnd at hx hy
  split_ifs at heq <;> omega

theorem prv_pushed_other (hne : y ≠ x) (hx : h ≠ 0 → img.IsEnd k x h) (hy : img.IsEnd k y b) :
    (img.pushed k x (n * k.blockSize) (h * k.blockSize) s).prv k y b = img.prv k y b := by
  rw [prv_pushed hn hh, if_neg]
  rintro ⟨hz, -, rfl, heq⟩
  rw [previousOffset, previousOffset] at heq
  unfold IsEnd at hx hy
  split_ifs at heq <;> omega

end Pushed

@[simp] theorem pushed_mem (x s : Nat) : (img.pushed k x n h s).mem = img.mem := by
  unfold pushed threaded setRef setWord
  split_ifs <;> simp only [wrote_mem, moved_mem]

theorem pushed_links (l : LinkKind) (x s : Nat) :
    (img.pushed k x n h s).files (.links l) = img.files (.links l) := by
  unfold pushed threaded setRef setWord
  split_ifs
  · rw [wrote_files_of_ne _ (by simp)]
  · rw [wrote_files_of_ne _ (by simp), wrote_files_of_ne _ (by simp),
      wrote_files_of_ne _ (by simp), moved_files]

theorem nodeAt_pushed (hn : n < 2 ^ 32) (id : ByteString) (s : Nat) :
    nodeAt ((img.pushed k (i * blockSize) n h s).files .nodes) id
        (j * blockSize) =
      if j = i then (nodeAt (img.files .nodes) id (i * blockSize)).setRelationRef k n
      else nodeAt (img.files .nodes) id (j * blockSize) := by
  unfold pushed
  split_ifs with h0 hij hij
  · rw [nodeAt_setRef hn, if_pos hij]
  · rw [nodeAt_setRef hn, if_neg hij]
  · rw [threaded, nodeAt_setRef hn, if_pos hij, setWord_nodes, setWord_nodes, moved_files]
  · rw [threaded, nodeAt_setRef hn, if_neg hij, setWord_nodes, setWord_nodes, moved_files]

/-- Pushing changes nothing of a node block but its relation references. -/
theorem nodeAt_pushed_refs (hn : n < 2 ^ 32) (id : ByteString) (s : Nat) :
    ∃ e c, nodeAt ((img.pushed k (i * blockSize) n h s).files .nodes) id (j * blockSize) =
      { nodeAt (img.files .nodes) id (j * blockSize) with
        edgeRef := e, centralEdgeRef := c } := by
  rw [nodeAt_pushed hn]
  split_ifs with hij
  · subst hij
    cases k <;> exact ⟨_, _, rfl⟩
  · exact ⟨_, _, rfl⟩

def head (img : Image) (k : RelationKind) (a : Nat) : Nat :=
  (nodeAt (img.files .nodes) [] a).relationRef k

theorem head_pushed (hn : n < 2 ^ 32) {s : Nat} :
    (img.pushed k (i * blockSize) n h s).head k' (j * blockSize) =
      if k' = k ∧ j = i then n else img.head k' (j * blockSize) := by
  have hset : ∀ m : NodeBlock, (m.setRelationRef k n).relationRef k' =
      if k' = k then n else m.relationRef k' := by
    intro m
    cases k <;> cases k' <;> rfl
  rw [head, nodeAt_pushed hn]
  by_cases hij : j = i
  · subst hij
    rw [if_pos rfl, hset]
    exact if_congr (and_iff_left rfl).symm rfl rfl
  · rw [if_neg hij, if_neg fun hc => hij hc.2, head]

theorem NodeOk.pushed (hok : NodeOk (img.files .nodes) (j * blockSize)) (hn : n < 2 ^ 32)
    (haligned : k = .localRelation → n % 152 = 0) (s : Nat) :
    NodeOk ((img.pushed k (i * blockSize) n h s).files .nodes)
      (j * blockSize) := by
  unfold Image.pushed
  split_ifs
  · exact NodeOk.setRef hok hn haligned
  · refine NodeOk.setRef ?_ hn haligned
    exact hok

theorem size_setWord {a : Nat} (hin : a + 4 * o.index + 4 ≤ (img.files (.relations k)).size) :
    ((img.setWord k a o v).files (.relations k')).size = (img.files (.relations k')).size := by
  unfold setWord
  by_cases hk : k' = k
  · subst hk
    rw [wrote_files_self, ByteFile.size_write_of_le (by rw [length_le32]; exact hin)]
  · rw [wrote_files_of_ne _ (by simpa using hk)]

theorem size_pushed {x s : Nat} (hn : (n + 1) * k.blockSize ≤ (img.files (.relations k)).size)
    (hh : (h + 1) * k.blockSize ≤ (img.files (.relations k)).size) :
    ((img.pushed k x (n * k.blockSize) (h * k.blockSize) s).files (.relations k')).size =
      (img.files (.relations k')).size := by
  have hin : ∀ (b : Nat) (o : RelationOffset), (b + 1) * k.blockSize ≤
      (img.files (.relations k)).size →
      b * k.blockSize + 4 * o.index + 4 ≤ (img.files (.relations k)).size := by
    intro b o hb
    have ho := o.index_le
    cases k <;> simp only [RelationKind.blockSize] at hb ⊢ <;> omega
  unfold pushed
  split_ifs
  · rw [setRef, wrote_files_of_ne _ (by simp)]
  · rw [threaded, setRef, wrote_files_of_ne _ (by simp), size_setWord, size_setWord, moved_files]
    · exact hin h _ hh
    · rw [size_setWord (by rw [moved_files]; exact hin h _ hh)]
      exact hin n _ hn

theorem size_nodes_pushed {s : Nat} (hi : (i + 1) * blockSize ≤ (img.files .nodes).size) :
    ((img.pushed k (i * blockSize) n h s).files .nodes).size = (img.files .nodes).size := by
  have hin : i * blockSize + relationRefOffset k + 4 ≤ (img.files .nodes).size := by
    cases k <;> simp only [relationRefOffset, blockSize] at hi ⊢ <;> omega
  unfold pushed
  split_ifs
  · rw [setRef, wrote_files_self, ByteFile.size_write_of_le (by rw [length_le32]; exact hin)]
  · rw [threaded, setRef, wrote_files_self, setWord_nodes, setWord_nodes, moved_files,
      ByteFile.size_write_of_le (by rw [length_le32]; exact hin)]

theorem runs_updateRelation {this : NodeBlock} {r : RelationBlock}
    (haddr : this.addr = i * blockSize) (hi : i * blockSize < 2 ^ 32)
    (hr : r.addr = n * k.blockSize) (hn : n * k.blockSize < 2 ^ 32)
    (hsome : this.relationRef k = h * k.blockSize) (hh : h * k.blockSize < 2 ^ 32)
    (hok : h ≠ 0 → RelationOk img k (h * k.blockSize)) (hhead : h ≠ 0 → img.IsEnd k this.addr h)
    (hnew : this.addr = r.source.address ∨ this.addr = r.destination.address) :
    ∃ r', Runs (Shown none img) (this.updateRelation k r) (this.setRelationRef k r.addr, r')
        (Shown none (img.pushed k this.addr r.addr (h * k.blockSize) r.source.address)) ∧
      r'.addr = r.addr ∧ r'.source.address = r.source.address ∧
      r'.destination.address = r.destination.address ∧
      r'.propertyAddress = r.propertyAddress ∧
      r'.metaPropertyAddress = r.metaPropertyAddress := by
  unfold pushed
  by_cases h0 : h = 0
  · rw [h0, Nat.zero_mul] at hsome
    rw [h0, Nat.zero_mul]
    exact ⟨r, runs_updateRelation_first haddr hi hsome, rfl, rfl, rfl, rfl, rfl⟩
  · have hpos : h * k.blockSize ≠ 0 := (hok h0).pos
    rw [if_neg hpos]
    refine ⟨_, runs_updateRelation_further haddr hi hr hn hsome hh (hok h0) (hhead h0) hnew,
      addr_linked _ _ _, ?_⟩
    unfold linked
    split_ifs <;> exact ⟨rfl, rfl, rfl, rfl⟩

end Image

end JasmineGraph.NativeStore
