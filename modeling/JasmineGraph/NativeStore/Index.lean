import JasmineGraph.NativeStore.Log
import JasmineGraph.NativeStore.Open

/-!
# The node index file

The index file is a row of records of `INDEX_KEY_SIZE + 4` bytes, a key in its zeroed buffer and a
block number. `addNodeIndex` appends one, `persistNodeIndex` writes them all, `readNodeIndex` reads
them back: what is read is the map that the records make, a later record of a key replacing an
earlier one, and `nextNodeIndex` is their number (**`readNodeIndex_indexBytes`**), as long as the
file has less than `2 ^ 31` bytes.

Keys come back from `std::string(buffer)`, so a key with a NUL byte does not: a record is `Readable`
when its key has none and is shorter than its buffer.
-/

namespace JasmineGraph.NativeStore

open Bytes List NodeManager

abbrev IndexRecord := ByteString × Nat

def indexBytes (keySize : Nat) (records : List IndexRecord) : ByteString :=
  records.flatMap fun r => pad keySize r.1 ++ le32 r.2

structure Readable (keySize : Nat) (r : IndexRecord) : Prop where
  short : r.1.length < keySize
  noNul : 0 ∉ r.1
  number : r.2 < 2 ^ 32

def indexMap (records : List IndexRecord) (m : Std.TreeMap ByteString Nat) :
    Std.TreeMap ByteString Nat :=
  records.foldl (fun m r => m.insert r.1 r.2) m

section Read

variable {keySize : Nat} {records : List IndexRecord}

theorem length_indexBytes (h : ∀ r ∈ records, Readable keySize r) :
    (indexBytes keySize records).length = records.length * (keySize + 4) := by
  induction records with
  | nil => exact (Nat.zero_mul _).symm
  | cons r rest ih =>
    have hr := (h r mem_cons_self).short
    rw [indexBytes, flatMap_cons, ← indexBytes, length_append, length_append,
      length_pad (Nat.le_of_lt hr), length_le32, ih fun r' hr' => h r' (mem_cons_of_mem _ hr'),
      length_cons, Nat.succ_mul, Nat.add_comm]

theorem indexRecord_indexBytes : ∀ {records : List IndexRecord} {i : Nat} {r : IndexRecord},
    (∀ r ∈ records, Readable keySize r) → records[i]? = some r →
    indexRecord keySize (indexBytes keySize records) i = (pad keySize r.1, r.2)
  | [], i, r, _, hi => by simp at hi
  | r' :: rest, 0, r, h, hi => by
    obtain rfl : r' = r := Option.some.inj hi
    have hr := h r' mem_cons_self
    have hpad := length_pad (Nat.le_of_lt hr.short)
    rw [indexRecord, Nat.zero_mul, drop_zero, indexBytes, flatMap_cons,
      append_assoc, take_left' hpad, drop_left' hpad, take_left' (length_le32 _),
      ofLe32_le32 hr.number]
  | r' :: rest, i + 1, r, h, hi => by
    have hr := h r' mem_cons_self
    have hlen : (pad keySize r'.1 ++ le32 r'.2).length = keySize + 4 := by
      rw [length_append, length_pad (Nat.le_of_lt hr.short), length_le32]
    have ih := indexRecord_indexBytes (fun r hr => h r (mem_cons_of_mem _ hr))
      (by simpa using hi : rest[i]? = some r)
    rw [← ih, indexRecord, indexRecord, indexBytes, flatMap_cons,
      ← indexBytes, Nat.succ_mul, Nat.add_comm, ← drop_drop, drop_left' hlen]

theorem readRecords_indexBytes (h : ∀ r ∈ records, Readable keySize r) :
    ∀ (n i : Nat) (m : Std.TreeMap ByteString Nat), i + n = records.length →
      readRecords keySize (indexBytes keySize records) i n m =
        some (indexMap (records.drop i) m) := by
  intro n
  induction n with
  | zero =>
    intro i m hi
    rw [drop_of_length_le (by omega)]
    rfl
  | succ n ih =>
    intro i m hi
    have hlt : i < records.length := by omega
    have hr := h records[i] (getElem_mem hlt)
    have hkey : cstring (pad keySize records[i].1) = some records[i].1 := by
      have hzero : 0 ∈ pad keySize records[i].1 :=
        mem_append_right _ (mem_replicate.2 ⟨by have := hr.short; omega, rfl⟩)
      rw [cstring, if_pos hzero, cstr_pad hr.short hr.noNul]
    rw [readRecords, indexRecord_indexBytes h (List.getElem?_eq_getElem hlt)]
    dsimp only
    rw [hkey]
    change readRecords keySize _ (i + 1) n _ = _
    rw [ih (i + 1) _ (by omega), drop_eq_getElem_cons hlt]
    rfl

/-- **The index file reads back.** -/
theorem readNodeIndex_indexBytes (h : ∀ r ∈ records, Readable keySize r)
    (hsize : records.length * (keySize + 4) < 2 ^ 31) :
    readNodeIndex keySize (indexBytes keySize records) =
      some (indexMap records ∅, records.length) := by
  have hlen := length_indexBytes h
  have hcount : records.length * (keySize + 4) / (keySize + 4) = records.length :=
    Nat.mul_div_cancel _ (by omega)
  have hfit : records.length < 2 ^ 32 := by
    have := Nat.le_mul_of_pos_right records.length (show 0 < keySize + 4 by omega)
    omega
  rw [readNodeIndex, hlen, toInt32_of_lt hsize]
  dsimp only
  rw [Int.toNat_natCast, hcount, readRecords_indexBytes h _ 0 ∅ (by omega),
    u32_of_lt hfit]
  rfl

end Read

/-! ## The map of the records -/

section Lookup

variable {records : List IndexRecord} {m : Std.TreeMap ByteString Nat} {id : ByteString} {v : Nat}

theorem getElem?_indexMap_of_notMem (h : id ∉ records.map Prod.fst) :
    (indexMap records m)[id]? = m[id]? := by
  induction records generalizing m with
  | nil => rfl
  | cons r rest ih =>
    rw [map_cons, mem_cons, not_or] at h
    rw [indexMap, foldl_cons, ← indexMap, ih h.2, Std.TreeMap.getElem?_insert,
      if_neg fun hc => h.1 (Std.LawfulEqOrd.eq_of_compare hc).symm]

theorem getElem?_indexMap_of_mem (hnodup : (records.map Prod.fst).Nodup) (h : (id, v) ∈ records) :
    (indexMap records m)[id]? = some v := by
  induction records generalizing m with
  | nil => exact absurd h not_mem_nil
  | cons r rest ih =>
    rw [map_cons, nodup_cons] at hnodup
    rw [indexMap, foldl_cons, ← indexMap]
    rcases mem_cons.1 h with rfl | h
    · rw [getElem?_indexMap_of_notMem hnodup.1, Std.TreeMap.getElem?_insert_self]
    · exact ih hnodup.2 h

end Lookup

/-! ## The index of a log -/

namespace Log

def records (g : Log) (ids : List ByteString) : List IndexRecord := ids.map fun id => (id, g.slot id)

variable {g : Log} {keySize : Nat} {ids : List ByteString}

theorem keys_records : (g.records ids).map Prod.fst = ids := by
  rw [records, map_map]
  exact map_id _

theorem readable_records (hids : ∀ id ∈ ids, id ∈ g.ids ∧ id.length < keySize ∧ 0 ∉ id)
    (hfit : NodesFit g) : ∀ r ∈ g.records ids, Readable keySize r := by
  intro r hr
  obtain ⟨id, hid, rfl⟩ := mem_map.1 hr
  obtain ⟨hmem, hshort, hnul⟩ := hids id hid
  refine ⟨hshort, hnul, ?_⟩
  have hslot := hfit _ (slot_lt hmem)
  rw [NodeBlock.blockSize] at hslot
  omega

theorem getElem?_records (h : ids.Perm g.ids) (id : ByteString) :
    (indexMap (g.records ids) ∅)[id]? = if id ∈ g.ids then some (g.slot id) else none := by
  by_cases hid : id ∈ g.ids
  · rw [if_pos hid]
    refine getElem?_indexMap_of_mem ?_ (mem_map.2 ⟨id, h.mem_iff.2 hid, rfl⟩)
    rw [keys_records]
    exact h.nodup_iff.2 g.nodup
  · rw [if_neg hid, getElem?_indexMap_of_notMem]
    · exact Std.TreeMap.getElem?_emptyc
    · rw [keys_records, h.mem_iff]
      exact hid

end Log

namespace NodesHold

variable {g : Log} {img : Image}

theorem keys_perm (h : NodesHold g img) : img.mem.nodeIndex.keys.Perm g.ids := by
  refine (perm_ext_iff_of_nodup ?_ g.nodup).2 fun id => ?_
  · exact Std.TreeMap.nodup_keys
  · rw [Std.TreeMap.mem_keys, Std.TreeMap.mem_iff_isSome_getElem?, h.index]
    by_cases hid : id ∈ g.ids <;> simp

theorem persisted (h : NodesHold g img) (o : KeyOrder)
    (hshort : ∀ id ∈ g.ids, id.length < img.mem.indexKeySize) :
    (persistNodeIndex o img.mem).indexDB =
      indexBytes img.mem.indexKeySize (g.records (o.order img.mem.nodeIndex.keys)) := by
  have hmem : ∀ id ∈ o.order img.mem.nodeIndex.keys, id ∈ g.ids := fun id hid =>
    h.keys_perm.mem_iff.1 ((o.perm _).mem_iff.1 hid)
  change NodeManager.persisted _ _ _ = _
  rw [NodeManager.persisted, filter_eq_self.2 fun id hid => by
    simpa using hshort id (hmem id hid), indexBytes, Log.records, flatMap_map]
  refine flatMap_congr fun id hid => ?_
  have hget : img.mem.nodeIndex.getD id 0 = g.slot id := by
    rw [Std.TreeMap.getD_eq_getD_getElem?, h.index, if_pos (hmem id hid)]
    rfl
  rw [hget]

end NodesHold

end JasmineGraph.NativeStore
