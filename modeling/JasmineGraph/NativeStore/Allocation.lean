import JasmineGraph.NativeStore.Reopen

/-!
# Where the blocks of a file lie

A block is found under its number times the block size, as an `unsigned int`. Nothing bounds the
numbers: as long as the products stay below `2 ^ 32` two blocks never share a byte
(**`disjoint_of_meets`**), and node 30678338 is the first whose address wraps, to the middle of
node 0 (**`overlap_of_many_nodes`**).
-/

namespace JasmineGraph.NativeStore

open Bytes Refine NodeManager Image

def DB.address (d : DB) (b : Nat) : Nat := u32 (b * d.blockSize)

/-- The blocks in use: the numbers the index holds, and in the other files those the counter has
passed. -/
def Store.Allocated (s : Store) : DB → Nat → Prop
  | .nodes, b => ∃ id : ByteString, s.mem.nodeIndex[id]? = some b
  | .relations k, b => 0 < b ∧ b < s.mem.nextRelationIndex k
  | .links k, b => 0 < b ∧ b < s.mem.nextPropertyIndex k

/-- Two blocks of a file do not share a byte. -/
def DB.Apart (d : DB) (b b' : Nat) : Prop :=
  d.address b + d.blockSize ≤ d.address b' ∨ d.address b' + d.blockSize ≤ d.address b

instance (d : DB) (b b' : Nat) : Decidable (d.Apart b b') := inferInstanceAs (Decidable (_ ∨ _))

/-- No two blocks of a file share a byte. -/
def Store.Disjoint (s : Store) : Prop :=
  ∀ d b b', s.Allocated d b → s.Allocated d b' → b ≠ b' → d.Apart b b'

/-- Two ids have blocks of their own. -/
def Store.DisjointNodes (s : Store) : Prop :=
  ∀ (id id' : ByteString) b b', s.mem.nodeIndex[id]? = some b → s.mem.nodeIndex[id']? = some b' →
    id ≠ id' → DB.nodes.Apart b b'

section Kept

variable {g g' : Log} {img img' : Image} {c c' : Client} {d : DB} {b b' : Nat}

/-- How many blocks of a file are in use, block 0 of the files with counters included. -/
def Log.blocks (g : Log) (img : Image) : DB → Nat
  | .nodes => g.ids.length
  | .relations k => (g.edges k).length + 1
  | .links k => img.mem.nextPropertyIndex k

theorem Kept.allocated_iff (h : Kept g img c) : c.store.Allocated d b ↔
    (d = .nodes ∨ 0 < b) ∧ b < g.blocks img d := by
  cases d with
  | nodes =>
    simp only [Store.Allocated, h.shown.memory, h.sound.nodes.index, true_or, true_and]
    constructor
    · rintro ⟨id, hid⟩
      split_ifs at hid with hmem
      obtain rfl := Option.some.inj hid
      exact Log.slot_lt hmem
    · intro hb
      exact ⟨g.ids[b], by rw [if_pos (List.getElem_mem hb), Log.slot, g.nodup.idxOf_getElem b hb]⟩
  | relations k =>
    rw [Store.Allocated, h.shown.memory, (h.sound.ends k).next]
    simp [Log.blocks]
  | links k =>
    rw [Store.Allocated, h.shown.memory]
    simp [Log.blocks]

theorem Grows.blocks_le (h : Grows g img g' img') (d : DB) : g.blocks img d ≤ g'.blocks img' d := by
  cases d with
  | nodes => exact h.ids
  | relations k => exact Nat.succ_le_succ (h.edges k)
  | links k => exact h.links k

theorem Kept.address_eq (h : Kept g img c) (hb : c.store.Allocated d b) :
    d.address b = b * d.blockSize := by
  obtain ⟨-, hb⟩ := h.allocated_iff.1 hb
  refine u32_of_lt ?_
  cases d with
  | nodes => exact h.nodesFit b hb
  | relations k =>
    exact Nat.lt_of_le_of_lt (Nat.mul_le_mul_right _ (Nat.le_of_lt_succ hb)) (h.edgesFit k)
  | links k =>
    have hle : b ≤ img.mem.nextPropertyIndex k - 1 := Nat.le_sub_one_of_lt hb
    exact Nat.lt_of_le_of_lt (Nat.mul_le_mul_right _ hle) (h.linksFit k)

theorem Kept.disjoint (h : Kept g img c) : c.store.Disjoint := by
  intro d b b' hb hb' hne
  rw [DB.Apart, h.address_eq hb, h.address_eq hb', ← Nat.succ_mul, ← Nat.succ_mul]
  rcases Nat.lt_or_gt_of_ne hne with hlt | hlt
  · exact .inl (Nat.mul_le_mul_right _ hlt)
  · exact .inr (Nat.mul_le_mul_right _ hlt)

theorem Kept.disjointNodes (h : Kept g img c) : c.store.DisjointNodes := by
  intro id id' b b' hid hid' hne
  refine h.disjoint .nodes b b' ⟨id, hid⟩ ⟨id', hid'⟩ ?_
  rw [h.shown.memory, h.sound.nodes.index] at hid hid'
  split_ifs at hid with hmem
  split_ifs at hid' with hmem'
  rintro rfl
  exact hne ((Log.slot_inj hmem).1 (Option.some.inj (hid.trans hid'.symm)))

end Kept

/-- **Blocks are disjoint while there is room.** Every sequence of calls, each made with room for
its new blocks below `2 ^ 32`, runs to its end and leaves disjoint blocks: those of any two ids, and
in every file those that calls have made later and those that were there before. -/
theorem disjoint_of_meets (keySize : Nat) (rawType : RelationKind → Nat → Fin 100 → UInt8)
    (disk : Disk) (calls later : List Call)
    (hcalls : (Client.start keySize rawType disk).Meets (calls ++ later)) :
    ∃ c c', (Client.start keySize rawType disk).run calls = some c ∧ c.run later = some c' ∧
      c'.store.Disjoint ∧ c'.store.DisjointNodes ∧
      ∀ d b b', c.store.Allocated d b → c'.store.Allocated d b' → ¬ c.store.Allocated d b' →
        c'.store.Allocated d b ∧ d.Apart b b' := by
  obtain ⟨hbefore, hafter⟩ := Client.meets_append hcalls
  obtain ⟨g, img, c, hrun, hkept, -⟩ := (kept_start keySize rawType disk).run hbefore
  obtain ⟨g', img', c', hrun', hkept', hgrow⟩ := hkept.run (hafter c hrun)
  refine ⟨c, c', hrun, hrun', hkept'.disjoint, hkept'.disjointNodes, fun d b b' hb hb' hnew => ?_⟩
  have hstays : c'.store.Allocated d b := by
    obtain ⟨hpos, hlt⟩ := hkept.allocated_iff.1 hb
    exact hkept'.allocated_iff.2 ⟨hpos, hlt.trans_le (hgrow.blocks_le d)⟩
  exact ⟨hstays, hkept'.disjoint d b b' hstays hb' fun heq => hnew (heq ▸ hb)⟩

theorem disjoint_firstCalls :
    (Client.start 6 (fun _ _ _ => 0) Disk.empty).Meets (firstCalls ++ laterCalls) ∧
      ∃ c c', (Client.start 6 (fun _ _ _ => 0) Disk.empty).run firstCalls = some c ∧
        c.run laterCalls = some c' ∧ c'.store.Disjoint ∧ c'.store.DisjointNodes ∧
        ∀ d b b', c.store.Allocated d b → c'.store.Allocated d b' → ¬ c.store.Allocated d b' →
          c'.store.Allocated d b ∧ d.Apart b b' := by
  have hmeets : (Client.start 6 (fun _ _ _ => 0) Disk.empty).Meets (firstCalls ++ laterCalls) := by
    decide +kernel
  exact ⟨hmeets, disjoint_of_meets 6 _ _ _ _ hmeets⟩

/-! ## Many nodes -/

/-- The numbers below `n` have been added as nodes, in order. -/
structure Numbered (n : Nat) (img : Image) : Prop where
  keySize : img.mem.indexKeySize = 9
  next : img.mem.nextNodeIndex = n
  index : ∀ i, img.mem.nodeIndex[decimal i]? = if i < n then some i else none

theorem length_decimal_le {n : Nat} (h : n < 10 ^ 8) : (decimal n).length ≤ 8 := by
  rw [decimal, List.length_map]
  exact Nat.toDigitsCore_length 10 _ n 8 (by decide) h

/-- The next number, wherever its block goes. -/
theorem Numbered.addNode {n : Nat} {img : Image} (h : Numbered n img) (hn : n < 10 ^ 8) :
    ∃ node img', Runs (img.Shown none) (addNode (decimal n)) node (img'.Shown none) ∧
      Numbered (n + 1) img' := by
  have hlen := length_decimal_le hn
  have hcpy : strcpy img.mem.indexKeySize (decimal n) =
      some (pad img.mem.indexKeySize (cstr (decimal n))) := by
    refine if_pos ?_
    rw [cstr_of_notMem (notMem_decimal rfl n), h.keySize]
    omega
  have hnew : img.mem.nodeIndex[decimal n]? = none := by rw [h.index, if_neg (Nat.lt_irrefl n)]
  let node := (NodeBlock.new (decimal n) (u32 n)
    (u32 (img.mem.nextNodeIndex * NodeBlock.blockSize))).setLabel (decimal n)
  have hrun : Runs (img.Shown none) (NodeManager.addNode (decimal n)) (node.setLabel node.id)
      (((img.indexed (decimal n)).wrote .nodes node.addr
        (nodeBytes (node.setLabel node.id))).Shown none) := by
    refine .bind runs_memory ?_
    simp only [hnew]
    refine .bind (runs_ofOption (stoul_decimal (by omega))) ?_
    refine .bind (.bind runs_memory (.bind (runs_ofOption hcpy) (runs_modifyMemory _))) ?_
    refine .bind (runs_modifyMemory _) (runs_save_small ?_)
    exact Nat.lt_of_le_of_lt hlen (by decide)
  refine ⟨_, _, hrun, ?_, ?_, fun i => ?_⟩
  · exact h.keySize
  · change u32 (img.mem.nextNodeIndex + 1) = n + 1
    rw [h.next, u32_of_lt (by omega)]
  · rw [wrote_mem]
    change (img.mem.nodeIndex.insert (decimal n) img.mem.nextNodeIndex)[decimal i]? = _
    rw [Std.TreeMap.getElem?_insert, h.index, h.next]
    by_cases hi : n = i
    · subst hi
      simp
    · rw [if_neg (by simpa using decimal_injective.ne hi)]
      exact if_congr (by omega) rfl rfl

theorem Numbered.run {n : Nat} {img : Image} {c : Client} (h : Numbered n img)
    (hshown : img.Shown none c.store) (m : Nat) (hm : n + m ≤ 10 ^ 8) :
    ∃ img' c', c.run ((List.range' n m).map fun i => .addNode (decimal i)) = some c' ∧
      img'.Shown none c'.store ∧ Numbered (n + m) img' := by
  induction m generalizing n img c with
  | zero => exact ⟨img, c, rfl, hshown, h⟩
  | succ m ih =>
    obtain ⟨node, img', hadd, h'⟩ := h.addNode (by omega)
    obtain ⟨s, hs, hshown'⟩ := hadd _ hshown
    obtain ⟨img'', c'', hrun, hend⟩ := ih (c := ⟨s, c.nodes ++ [node], c.relations⟩) h' hshown'
      (by omega)
    rw [Nat.add_right_comm] at hend
    refine ⟨img'', c'', ?_, hend⟩
    rw [List.range'_succ, List.map_cons, Client.run, Call.run, hs]
    exact hrun

/-- **Addresses wrap.** Node 30678338 gets the address 24, inside the block of node 0. -/
theorem overlap_of_many_nodes : ∃ calls c,
    (Client.start 9 (fun _ _ _ => 0) Disk.empty).run calls = some c ∧ ¬ c.store.Disjoint := by
  have hstart : Numbered 0 (fresh 9 (fun _ _ _ => 0) Disk.empty) :=
    ⟨rfl, rfl, fun i => Std.TreeMap.getElem?_emptyc⟩
  obtain ⟨img, c, hrun, hshown, h⟩ := hstart.run (kept_start 9 _ Disk.empty).shown 30678339
    (by decide)
  refine ⟨_, c, hrun, fun hdisjoint => ?_⟩
  have hnode : ∀ i < 30678339, c.store.Allocated .nodes i := fun i hi =>
    ⟨decimal i, by rw [hshown.memory, h.index, if_pos (by omega)]⟩
  have hover := hdisjoint .nodes 0 30678338 (hnode _ (by decide)) (hnode _ (by decide)) (by decide)
  revert hover
  decide

end JasmineGraph.NativeStore
