import JasmineGraph.Thread
import JasmineGraph.NativeStore.AddNode

/-!
# Files of property links

A link file of a kind has blocks `1..n-1`, each with a name, a value and the address of the next
link of its chain. New blocks go to the end of the file, and only the last link of a chain is ever
changed to lead to a new one, so every link leads to a later block (`LinksOk`). Chains therefore end,
and the walk of `insert` with them.

* `linkAt` is the object of a link block, `LinkChain` the blocks a walk from an address visits.
* `runs_insertLink`: `insert` from a link finds the first link of the name on the chain from there,
  or appends a block behind the last one.
-/

namespace JasmineGraph.NativeStore

open Bytes Refine Thread List Function Nat LinkKind Runs ByteFile

def linkAt (k : LinkKind) (f : ByteFile) (b : Nat) : Link where
  blockAddress := b * k.blockSize
  name := cstr (f.slice (b * k.blockSize) k.nameSize)
  value := f.slice (b * k.blockSize + k.nameSize) valueSize
  nextPropAddress := u32At f (k.nextField b)

structure LinksOk (k : LinkKind) (f : ByteFile) (n : Nat) : Prop where
  pos : 0 < n
  size : f.size = if n = 1 then 0 else n * k.blockSize
  name : ∀ b, 0 < b → b < n → 0 ∈ f.slice (b * k.blockSize) k.nameSize
  next : ∀ b, 0 < b → b < n → (linkAt k f b).nextPropAddress = 0 ∨
    ∃ c, b < c ∧ c < n ∧ (linkAt k f b).nextPropAddress = c * k.blockSize

/-- The blocks a walk along the links from address `a` visits. -/
def LinkChain (k : LinkKind) (f : ByteFile) (a : Nat) (l : List Nat) : Prop :=
  Visits (fun a => u32At f (a + k.nameSize + valueSize)) a (l.map (· * k.blockSize))

namespace LinksOk

variable {k : LinkKind} {f : ByteFile} {n b : Nat}

theorem blockSize_pos (k : LinkKind) : 0 < k.blockSize := by cases k <;> decide

theorem inside (h : LinksOk k f n) (h0 : 0 < b) (hb : b < n) : (b + 1) * k.blockSize ≤ f.size := by
  rw [h.size, if_neg (by omega)]
  exact Nat.mul_le_mul_right _ hb

theorem size_le (h : LinksOk k f n) : f.size ≤ n * k.blockSize := by
  rw [h.size]
  split_ifs
  · exact Nat.zero_le _
  · exact Nat.le_refl _

/-- **Chains end.** Along a chain the blocks come in the order of the file. -/
theorem exists_chain (h : LinksOk k f n) :
    ∀ m b, n - b = m → 0 < b → b < n → ∃ l, LinkChain k f (b * k.blockSize) (b :: l) ∧
      (b :: l).Pairwise (· < ·) ∧ ∀ c ∈ b :: l, 0 < c ∧ c < n := by
  intro m
  -- induction on the number of blocks from `b` to the end of the file
  induction m using Nat.strongRecOn with
  | _ m ih =>
    intro b hm h0 hb
    have hne : b * k.blockSize ≠ 0 := Nat.ne_of_gt (Nat.mul_pos h0 (blockSize_pos k))
    rcases h.next b h0 hb with hend | ⟨c, hbc, hc, hnext⟩
    · refine ⟨[], ⟨rfl, hne, hend⟩, pairwise_singleton _ _, fun c hc => ?_⟩
      rw [mem_singleton.1 hc]
      exact ⟨h0, hb⟩
    · obtain ⟨l, hl, hlt, hmem⟩ := ih (n - c) (by omega) c rfl (by omega) hc
      refine ⟨c :: l, ⟨rfl, hne, ?_⟩, pairwise_cons.2 ⟨fun d hd => ?_, hlt⟩, fun d hd => ?_⟩
      · change Visits _ (linkAt k f b).nextPropAddress _
        rw [hnext]
        exact hl
      · rcases mem_cons.1 hd with rfl | hd
        · exact hbc
        · exact Nat.lt_trans hbc ((pairwise_cons.1 hlt).1 d hd)
      · rcases mem_cons.1 hd with rfl | hd
        · exact ⟨h0, hb⟩
        · exact hmem d hd

end LinksOk

theorem LinkKind.copyName_spec {k : LinkKind} {name dataName : ByteString}
    (h : k.copyName name = some dataName) : dataName.length = k.nameSize ∧ 0 ∈ dataName := by
  have hpad : ∀ {m : Nat} {bs : ByteString}, bs.length < m →
      (pad m bs).length = m ∧ 0 ∈ pad m bs := fun hlt =>
    ⟨length_pad (Nat.le_of_lt hlt), mem_append_right _ (mem_replicate.2 ⟨by omega, rfl⟩)⟩
  have hcpy : ∀ {m : Nat}, strcpy m name = some dataName → dataName.length = m ∧ 0 ∈ dataName := by
    intro m hm
    unfold strcpy at hm
    split_ifs at hm with hlt
    obtain rfl := Option.some.inj hm
    exact hpad hlt
  cases k with
  | property => exact hcpy h
  | metaProperty => exact hcpy h
  | metaEdgeProperty => exact hcpy h
  | edgeProperty =>
    obtain rfl := Option.some.inj h
    refine hpad ?_
    rw [length_take]
    omega

theorem LinkKind.length_insertedValue {k : LinkKind} {value dataValue : ByteString}
    (hlen : value.length = valueSize) (h : k.insertedValue value = some dataValue) :
    dataValue.length = valueSize := by
  cases k with
  | edgeProperty =>
    simp only [insertedValue] at h
    split_ifs at h
    obtain rfl := Option.some.inj h
    refine length_pad ?_
    rw [length_take]
    exact Nat.le_trans (Nat.min_le_left _ _) (sub_le _ _)
  | property | metaProperty | metaEdgeProperty =>
    obtain rfl := Option.some.inj h
    exact hlen

/-! ## Writes to a link file -/

section Write

variable {k : LinkKind} {f : ByteFile} {n b t p v : Nat} {bs dataName value : ByteString}

theorem blockSize_eq (k : LinkKind) : k.blockSize = k.nameSize + 400 + 4 := rfl

theorem slice_name_write_of_disjoint
    (h : (b + 1) * k.blockSize ≤ p ∨ p + bs.length ≤ b * k.blockSize) :
    (f.write p bs).slice (b * k.blockSize) k.nameSize = f.slice (b * k.blockSize) k.nameSize := by
  have hsize := blockSize_eq k
  rw [succ_mul] at h
  exact slice_write_of_disjoint (by omega)

theorem linkAt_write_of_disjoint (h : (b + 1) * k.blockSize ≤ p ∨ p + bs.length ≤ b * k.blockSize) :
    linkAt k (f.write p bs) b = linkAt k f b := by
  have hsize := blockSize_eq k
  have hvalue : valueSize = 400 := rfl
  unfold linkAt
  rw [slice_name_write_of_disjoint h]
  rw [succ_mul] at h
  rw [slice_write_of_disjoint (by omega), u32At_write_of_disjoint (by
    unfold nextField; omega)]

theorem length_block (hname : dataName.length = k.nameSize) (hvalue : value.length = valueSize) :
    [dataName, value, le32 v].flatten.length = k.blockSize := by
  simp only [flatten_cons, flatten_nil, append_nil, length_append, hname, hvalue, length_le32]
  rw [blockSize, Nat.add_assoc]

theorem slice_name_write_block (hname : dataName.length = k.nameSize) :
    (f.write (n * k.blockSize) [dataName, value, le32 v].flatten).slice (n * k.blockSize)
      k.nameSize = dataName := by
  have hlen : 0 + k.nameSize ≤ [dataName, value, le32 v].flatten.length := by
    rw [flatten_cons, length_append]
    omega
  have hsub := slice_write_sub (f := f) (p := n * k.blockSize) hlen
  rw [Nat.add_zero, drop_zero, flatten_cons, ← hname, take_left] at hsub
  rw [← hname]
  exact hsub

theorem linkAt_write_block (hname : dataName.length = k.nameSize)
    (hvalue : value.length = valueSize) (hv : v < 2 ^ 32) :
    linkAt k (f.write (n * k.blockSize) [dataName, value, le32 v].flatten) n =
      ⟨n * k.blockSize, cstr dataName, value, v⟩ := by
  have hlen := length_block (v := v) hname hvalue
  have hsize := blockSize_eq k
  have h400 : valueSize = 400 := rfl
  have hval : (f.write (n * k.blockSize) [dataName, value, le32 v].flatten).slice
      (n * k.blockSize + k.nameSize) valueSize = value := by
    rw [slice_write_sub (by omega), flatten_cons, ← hname, drop_left,
      flatten_cons, ← hvalue, take_left]
  have hnext : u32At (f.write (n * k.blockSize) [dataName, value, le32 v].flatten)
      (k.nextField n) = v := by
    rw [nextField, Nat.add_assoc, u32At_write_sub (by omega), flatten_cons, ← hname,
      ← drop_drop, drop_left, flatten_cons, ← hvalue, drop_left]
    change ofLe32 ((le32 v ++ []).take 4) = v
    rw [append_nil, ← length_le32 v, take_length, ofLe32_le32 hv]
  unfold linkAt
  rw [slice_name_write_block hname, hval, hnext]

theorem slice_name_write_next :
    (f.write (k.nextField t) (le32 v)).slice (b * k.blockSize) k.nameSize =
      f.slice (b * k.blockSize) k.nameSize := by
  refine slice_write_of_disjoint ?_
  rw [length_le32]
  cases k <;> simp only [nextField, blockSize, nameSize, valueSize] <;> omega

theorem linkAt_write_next (hv : v < 2 ^ 32) : linkAt k (f.write (k.nextField t) (le32 v)) b =
      if b = t then { linkAt k f b with nextPropAddress := v } else linkAt k f b := by
  have hvalue : (f.write (k.nextField t) (le32 v)).slice (b * k.blockSize + k.nameSize)
      valueSize = f.slice (b * k.blockSize + k.nameSize) valueSize := by
    refine slice_write_of_disjoint ?_
    rw [length_le32]
    cases k <;> simp only [nextField, blockSize, nameSize, valueSize] <;> omega
  unfold linkAt
  rw [slice_name_write_next, hvalue]
  split_ifs with hbt
  · subst hbt
    rw [u32At_write hv]
  · rw [u32At_write_of_disjoint]
    rw [length_le32]
    cases k <;> simp only [nextField, blockSize, nameSize, valueSize] <;> omega

theorem slice_name_write_value (hvalue : value.length = valueSize) :
    (f.write (t * k.blockSize + k.nameSize) value).slice (b * k.blockSize) k.nameSize =
      f.slice (b * k.blockSize) k.nameSize := by
  refine slice_write_of_disjoint ?_
  rw [hvalue]
  cases k <;> simp only [blockSize, nameSize, valueSize] <;> omega

theorem linkAt_write_value (hvalue : value.length = valueSize) :
    linkAt k (f.write (t * k.blockSize + k.nameSize) value) b =
      if b = t then { linkAt k f b with value := value } else linkAt k f b := by
  have hnext : u32At (f.write (t * k.blockSize + k.nameSize) value) (k.nextField b) =
      u32At f (k.nextField b) := by
    refine u32At_write_of_disjoint ?_
    rw [hvalue]
    cases k <;> simp only [nextField, blockSize, nameSize, valueSize] <;> omega
  unfold linkAt
  rw [slice_name_write_value hvalue, hnext]
  split_ifs with hbt
  · subst hbt
    rw [← hvalue, slice_write_self]
  · rw [slice_write_of_disjoint]
    rw [hvalue]
    cases k <;> simp only [blockSize, nameSize, valueSize] <;> omega

end Write

namespace LinksOk

variable {k : LinkKind} {f : ByteFile} {n b t : Nat} {dataName value : ByteString}

theorem write_block (h : LinksOk k f n) (hname : dataName.length = k.nameSize)
    (hzero : 0 ∈ dataName) (hvalue : value.length = valueSize) :
    LinksOk k (f.write (n * k.blockSize) [dataName, value, le32 0].flatten) (n + 1) := by
  have hlen := length_block (v := 0) hname hvalue
  have hpos := blockSize_pos k
  have hn := h.pos
  have hold : ∀ {b}, b < n → (b + 1) * k.blockSize ≤ n * k.blockSize ∨
      n * k.blockSize + [dataName, value, le32 0].flatten.length ≤ b * k.blockSize :=
    fun hb => .inl (Nat.mul_le_mul_right _ hb)
  refine ⟨succ_pos n, ?_, fun b h0 hb => ?_, fun b h0 hb => ?_⟩
  · rw [if_neg (by omega), size_write (ne_nil_of_length_pos (by omega)), hlen, succ_mul]
    exact Nat.max_eq_right (Nat.le_trans h.size_le (Nat.le_add_right _ _))
  · by_cases hbn : b = n
    · rw [hbn, slice_name_write_block hname]
      exact hzero
    · rw [slice_name_write_of_disjoint (hold (by omega))]
      exact h.name b h0 (by omega)
  · by_cases hbn : b = n
    · rw [hbn, linkAt_write_block hname hvalue (Nat.two_pow_pos 32)]
      exact .inl rfl
    · rw [linkAt_write_of_disjoint (hold (by omega))]
      rcases h.next b h0 (by omega) with hend | ⟨c, hbc, hc, hnext⟩
      · exact .inl hend
      · exact .inr ⟨c, hbc, by omega, hnext⟩

theorem size_write_next (hin : (t + 1) * k.blockSize ≤ f.size) (v : Nat) :
    (f.write (k.nextField t) (le32 v)).size = f.size := by
  refine size_write_of_le (Nat.le_trans ?_ hin)
  rw [nextField, succ_mul, blockSize_eq]
  change _ + 400 + 4 ≤ _
  omega

theorem write_next {c : Nat} (h : LinksOk k f n) (ht0 : 0 < t) (htc : t < c) (hc : c < n)
    (hfit : c * k.blockSize < 2 ^ 32) :
    LinksOk k (f.write (k.nextField t) (le32 (c * k.blockSize))) n := by
  have hin := h.inside ht0 (Nat.lt_trans htc hc)
  refine ⟨h.pos, ?_, fun b h0 hb => ?_, fun b h0 hb => ?_⟩
  · rw [size_write_next hin, h.size]
  · rw [slice_name_write_next]
    exact h.name b h0 hb
  · rw [linkAt_write_next hfit]
    split_ifs with hbt
    · exact .inr ⟨c, hbt ▸ htc, hc, rfl⟩
    · exact h.next b h0 hb

theorem write_value (h : LinksOk k f n) (ht0 : 0 < t) (ht : t < n)
    (hvalue : value.length = valueSize) :
    LinksOk k (f.write (t * k.blockSize + k.nameSize) value) n := by
  have hin := h.inside ht0 ht
  refine ⟨h.pos, ?_, fun b h0 hb => ?_, fun b h0 hb => ?_⟩
  · rw [← h.size]
    refine size_write_of_le (Nat.le_trans ?_ hin)
    rw [hvalue, succ_mul, blockSize_eq]
    change _ + 400 ≤ _
    omega
  · rw [slice_name_write_value hvalue]
    exact h.name b h0 hb
  · rw [linkAt_write_value hvalue]
    split_ifs
    · exact h.next b h0 hb
    · exact h.next b h0 hb

theorem of_lags {disk : ByteFile} (h : LinksOk k f n) (hlag : Lags k disk f) : LinksOk k disk n := by
  obtain ⟨t, v, hin, hzero, rfl⟩ := hlag
  refine ⟨h.pos, ?_, fun b h0 hb => ?_, fun b h0 hb => ?_⟩
  · rw [← size_write_next hin v]
    exact h.size
  · rw [← slice_name_write_next]
    exact h.name b h0 hb
  · by_cases hbt : b = t
    · subst hbt
      exact .inl hzero
    · have hnext := h.next b h0 hb
      have hsame : (linkAt k (disk.write (k.nextField t) (le32 v)) b).nextPropAddress =
          (linkAt k disk b).nextPropAddress := by
        change u32At _ _ = u32At _ _
        rw [u32At_write_of_disjoint]
        rw [length_le32]
        cases k <;> simp only [nextField, blockSize, nameSize, valueSize] <;> omega
      rw [hsame] at hnext
      exact hnext

end LinksOk

/-- The next block of a link file has an address below `2 ^ 32`. -/
abbrev Memory.LinkFits (m : Memory) (k : LinkKind) : Prop :=
  m.nextPropertyIndex k * k.blockSize < 2 ^ 32

namespace Image

variable {img : Image} {k : LinkKind} {n b t : Nat} {name dataName value dataValue : ByteString}

theorem runs_readLink (h : LinksOk k (img.files (.links k)) n) (h0 : 0 < b) (hb : b < n) :
    Runs (Shown none img) (readLink k (b * k.blockSize)) (linkAt k (img.files (.links k)) b)
      (Shown none img) := by
  have hin : b * k.blockSize + k.widths.sum ≤ (img.files (.links k)).size := by
    refine Nat.le_trans ?_ (h.inside h0 hb)
    rw [succ_mul]
    cases k <;> exact Nat.le_refl _
  have hname : cstring ((img.files (.links k)).slice (b * k.blockSize) k.nameSize) =
      some (linkAt k (img.files (.links k)) b).name := if_pos (h.name b h0 hb)
  refine bind (runs_readAt hin) ?_
  exact bind (runs_ofOption hname) pure

/-- The image after a block is appended to the chain that ends at block `t`. -/
def appended (img : Image) (k : LinkKind) (t : Nat) (dataName dataValue : ByteString) : Image :=
  ((img.wrote (.links k) (img.mem.newLinkAddress k) [dataName, dataValue, le32 0].flatten).wrote
    (.links k) (k.nextField t) (le32 (img.mem.newLinkAddress k))).withMem (·.bumpProperty k)

/-- The image after `insert` has found the name at block `t`. -/
def rewritten (img : Image) (k : LinkKind) (t : Nat) (dataValue : ByteString) : Image :=
  if k.isMeta then img.wrote (.links k) (t * k.blockSize + k.nameSize) dataValue else img

def inserted (img : Image) (k : LinkKind) (chain : List Nat) (name dataName dataValue : ByteString) :
    Nat × Image :=
  match chain.find? fun b => (linkAt k (img.files (.links k)) b).name = name with
  | some t => (t, img.rewritten k t dataValue)
  | none => (chain.getLastD 0, img.appended k (chain.getLastD 0) dataName dataValue)

theorem runs_appendLink (h : LinksOk k (img.files (.links k)) n) (h0 : 0 < t) (ht : t < n)
    (hend : (linkAt k (img.files (.links k)) t).nextPropAddress = 0)
    (hnew : img.mem.newLinkAddress k = n * k.blockSize) (dataName dataValue : ByteString) :
    Runs (Shown none img) (appendLink k (linkAt k (img.files (.links k)) t) dataName dataValue)
      (t * k.blockSize) (Shown none (img.appended k t dataName dataValue)) := by
  have hin := h.inside h0 ht
  have hle : (t + 1) * k.blockSize ≤ n * k.blockSize := Nat.mul_le_mul_right _ ht
  refine bind runs_memory (bind (runs_writeAt _ _ _ (.inl rfl)) ?_)
  cases hk : k.isMeta with
  | false =>
    refine bind (runs_writeAt _ _ _ (.inr rfl)) ?_
    refine bind (runs_flush (.inr rfl)) (bind (runs_modifyMemory _) ?_)
    exact pure
  | true =>
    refine bind (runs_flush (.inr rfl)) (bind (runs_linkNext hk _ ?_ ?_) ?_)
    · rw [wrote_files_self]
      refine Nat.le_trans hin ?_
      unfold write
      split_ifs
      · exact Nat.le_refl _
      · exact Nat.le_max_left _ _
    · rw [wrote_files_self, hnew]
      exact (congrArg Link.nextPropAddress (linkAt_write_of_disjoint (.inl hle))).trans hend
    · exact bind (runs_modifyMemory _) pure

theorem inserted_cons_of_eq {l : List Nat} (dataName dataValue : ByteString)
    (h : (linkAt k (img.files (.links k)) b).name = name) :
    img.inserted k (b :: l) name dataName dataValue = (b, img.rewritten k b dataValue) := by
  simp [inserted, h]

theorem inserted_singleton_of_ne (dataName dataValue : ByteString)
    (h : (linkAt k (img.files (.links k)) b).name ≠ name) :
    img.inserted k [b] name dataName dataValue = (b, img.appended k b dataName dataValue) := by
  simp [inserted, h]

theorem inserted_cons_of_ne {c : Nat} {l : List Nat} (dataName dataValue : ByteString)
    (h : (linkAt k (img.files (.links k)) b).name ≠ name) :
    img.inserted k (b :: c :: l) name dataName dataValue =
      img.inserted k (c :: l) name dataName dataValue := by
  unfold inserted
  rw [find?_cons_of_neg (by simpa using h)]
  rfl

theorem runs_insertFrom_found (hname : k.copyName name = some dataName)
    (hvalue : k.insertedValue value = some dataValue) (fuel : Nat)
    (h : (linkAt k (img.files (.links k)) b).name = name) :
    Runs (Shown none img) (insertFrom k name value (fuel + 1) (linkAt k (img.files (.links k)) b))
      (b * k.blockSize) (Shown none (img.rewritten k b dataValue)) := by
  refine bind (runs_ofOption hname) (bind (runs_ofOption hvalue) ?_)
  rw [if_pos h, rewritten]
  cases k.isMeta with
  | false => exact pure
  | true =>
    refine bind (runs_writeAt _ _ _ (.inl rfl)) (bind (runs_flush (.inr rfl)) ?_)
    rw [flatten_singleton]
    exact pure

theorem runs_insertFrom (h : LinksOk k (img.files (.links k)) n)
    (hnew : img.mem.newLinkAddress k = n * k.blockSize) (hname : k.copyName name = some dataName)
    (hvalue : k.insertedValue value = some dataValue) :
    ∀ (l : List Nat) (b fuel : Nat), LinkChain k (img.files (.links k)) (b * k.blockSize) (b :: l) →
      (∀ c ∈ b :: l, 0 < c ∧ c < n) → (b :: l).length ≤ fuel →
      Runs (Shown none img) (insertFrom k name value fuel (linkAt k (img.files (.links k)) b))
        ((img.inserted k (b :: l) name dataName dataValue).1 * k.blockSize)
        (Shown none (img.inserted k (b :: l) name dataName dataValue).2) := by
  intro l
  -- induction on the chain; a link whose name differs hands over to the next one
  induction l with
  | nil =>
    intro b fuel hchain hmem hfuel
    obtain ⟨fuel, rfl⟩ := exists_eq_add_one.2 hfuel
    have hend : (linkAt k (img.files (.links k)) b).nextPropAddress = 0 := hchain.2.2
    obtain ⟨h0, hb⟩ := hmem b mem_cons_self
    by_cases hn : (linkAt k (img.files (.links k)) b).name = name
    · rw [inserted_cons_of_eq _ _ hn]
      exact runs_insertFrom_found hname hvalue fuel hn
    · rw [inserted_singleton_of_ne _ _ hn]
      refine bind (runs_ofOption hname) (bind (runs_ofOption hvalue) ?_)
      rw [if_neg hn, if_neg (not_not.2 hend)]
      exact runs_appendLink h h0 hb hend hnew _ _
  | cons c l ih =>
    intro b fuel hchain hmem hfuel
    obtain ⟨fuel, rfl⟩ := exists_eq_add_one.2 (Nat.lt_of_lt_of_le (succ_pos _) hfuel)
    have hrest := hchain.2.2
    have hnext : (linkAt k (img.files (.links k)) b).nextPropAddress = c * k.blockSize := hrest.1
    have hne : (linkAt k (img.files (.links k)) b).nextPropAddress ≠ 0 := hrest.2.1
    by_cases hn : (linkAt k (img.files (.links k)) b).name = name
    · rw [inserted_cons_of_eq _ _ hn]
      exact runs_insertFrom_found hname hvalue fuel hn
    · rw [inserted_cons_of_ne _ _ hn]
      obtain ⟨h0, hc⟩ := hmem c (mem_cons_of_mem _ mem_cons_self)
      refine bind (runs_ofOption hname) (bind (runs_ofOption hvalue) ?_)
      rw [if_neg hn, if_pos hne, hnext]
      refine bind (runs_readLink h h0 hc) (ih c fuel ?_ ?_ ?_)
      · change Visits _ (linkAt k (img.files (.links k)) b).nextPropAddress _ at hrest
        rw [hnext] at hrest
        exact hrest
      · exact fun d hd => hmem d (mem_cons_of_mem _ hd)
      · exact le_of_succ_le_succ hfuel

theorem length_chain_le {l : List Nat} (hl : l.Nodup) (hmem : ∀ c ∈ l, c < n) : l.length ≤ n := by
  have hsub : l ⊆ List.range n := fun c hc => mem_range.2 (hmem c hc)
  have hle := (subperm_of_subset hl hsub).length_le
  rwa [length_range] at hle

/-- **`insert`** from block `b` on. -/
theorem runs_insertLink (h : LinksOk k (img.files (.links k)) n)
    (hnew : img.mem.newLinkAddress k = n * k.blockSize) (hname : k.copyName name = some dataName)
    (hvalue : k.insertedValue value = some dataValue) {l : List Nat}
    (hchain : LinkChain k (img.files (.links k)) (b * k.blockSize) (b :: l))
    (hmem : ∀ c ∈ b :: l, 0 < c ∧ c < n) (hlt : (b :: l).Pairwise (· < ·)) :
    Runs (Shown none img) (insertLink k (linkAt k (img.files (.links k)) b) name value)
      ((img.inserted k (b :: l) name dataName dataValue).1 * k.blockSize)
      (Shown none (img.inserted k (b :: l) name dataName dataValue).2) := by
  have hb := hmem b mem_cons_self
  have hsize : (img.files (.links k)).size / k.blockSize = n := by
    rw [h.size, if_neg (by omega), Nat.mul_div_cancel _ (LinksOk.blockSize_pos k)]
  refine bind (bind (runs_viewSize _) pure) ?_
  refine runs_insertFrom h hnew hname hvalue l b _ hchain hmem ?_
  rw [hsize]
  exact le_succ_of_le (length_chain_le (hlt.imp Nat.ne_of_lt) fun c hc => (hmem c hc).2)

/-! ## The steps of a link file -/

def LinkFileOk (img : Image) (k : LinkKind) : Prop :=
  LinksOk k (img.files (.links k)) (img.mem.nextPropertyIndex k)

theorem LinkFileOk.congr {img' : Image} (h : img.LinkFileOk k)
    (hfile : img'.files (.links k) = img.files (.links k))
    (hnext : img'.mem.nextPropertyIndex k = img.mem.nextPropertyIndex k) : img'.LinkFileOk k := by
  rw [LinkFileOk, hfile, hnext]
  exact h

def withCounter (m : Memory) (k : LinkKind) (n : Nat) : Memory :=
  { m with nextPropertyIndex := Function.update m.nextPropertyIndex k n }

/-- `img'` has at most one block more in one link file, and is otherwise as `img`. -/
structure LinkStep (img img' : Image) (k : LinkKind) : Prop where
  files : ∀ d, d ≠ .links k → img'.files d = img.files d
  cursor : img'.cursor = img.cursor
  mem : img'.mem = withCounter img.mem k (img'.mem.nextPropertyIndex k)
  ok : img'.LinkFileOk k
  grows : img.mem.nextPropertyIndex k ≤ img'.mem.nextPropertyIndex k
  byOne : img'.mem.nextPropertyIndex k ≤ img.mem.nextPropertyIndex k + 1

theorem newLinkAddress_of_lt (h : img.mem.LinkFits k) :
    img.mem.newLinkAddress k = img.mem.nextPropertyIndex k * k.blockSize := u32_of_lt h

theorem bumpProperty_of_lt {m : Memory} (h : m.LinkFits k) :
    m.bumpProperty k = withCounter m k (m.nextPropertyIndex k + 1) := by
  unfold Memory.bumpProperty withCounter
  rw [u32_of_lt]
  cases k <;> simp only [Memory.LinkFits, blockSize, nameSize, valueSize] at h <;> omega

theorem counter_withCounter (m : Memory) (k : LinkKind) (n : Nat) :
    (withCounter m k n).nextPropertyIndex k = n := update_self _ _ _

theorem LinkStep.of_file {img' : Image} {f : ByteFile} {m : Nat}
    (hfile : img'.files = Function.update img.files (.links k) f)
    (hcursor : img'.cursor = img.cursor) (hmem : img'.mem = withCounter img.mem k m)
    (hok : LinksOk k f m) (hm : m = img.mem.nextPropertyIndex k ∨
      m = img.mem.nextPropertyIndex k + 1) : LinkStep img img' k := by
  have hcounter : img'.mem.nextPropertyIndex k = m := by
    rw [hmem, counter_withCounter]
  refine ⟨fun d hd => ?_, hcursor, ?_, ?_, ?_, ?_⟩
  · rw [hfile, update_of_ne hd]
  · rw [hcounter, hmem]
  · unfold LinkFileOk
    rw [hcounter, hfile, update_self]
    exact hok
  · omega
  · omega

theorem withLink_step (h : img.LinkFileOk k) (hfit : img.mem.LinkFits k)
    (hname : k.copyName name = some dataName) (hvalue : value.length = valueSize) :
    LinkStep img (img.withLink k dataName value) k := by
  obtain ⟨hlen, hzero⟩ := copyName_spec hname
  refine LinkStep.of_file ?_ rfl ?_ (LinksOk.write_block h hlen hzero hvalue) (.inr rfl)
  · rw [withLink, withMem_files, wrote_files, newLinkAddress_of_lt hfit]
  · rw [withLink, withMem_mem, wrote_mem, bumpProperty_of_lt hfit]

theorem counter_withLink (hfit : img.mem.LinkFits k) :
    (img.withLink k dataName value).mem.nextPropertyIndex k = img.mem.nextPropertyIndex k + 1 := by
  rw [withLink, withMem_mem, wrote_mem, bumpProperty_of_lt hfit, counter_withCounter]

theorem appended_step (h : img.LinkFileOk k) (hfit : img.mem.LinkFits k)
    (hname : k.copyName name = some dataName) (hvalue : value.length = valueSize)
    (h0 : 0 < t) (ht : t < img.mem.nextPropertyIndex k) :
    LinkStep img (img.appended k t dataName value) k := by
  obtain ⟨hlen, hzero⟩ := copyName_spec hname
  have hok := (LinksOk.write_block h hlen hzero hvalue).write_next h0 ht (lt_succ_self _) hfit
  refine LinkStep.of_file ?_ rfl ?_ hok (.inr rfl)
  · rw [appended, withMem_files, wrote_files, wrote_files_self, wrote_files, update_idem,
      newLinkAddress_of_lt hfit]
  · rw [appended, withMem_mem, wrote_mem, wrote_mem, bumpProperty_of_lt hfit]

theorem rewritten_step (h : img.LinkFileOk k) (hvalue : value.length = valueSize)
    (h0 : 0 < t) (ht : t < img.mem.nextPropertyIndex k) :
    LinkStep img (img.rewritten k t value) k := by
  have hsame : withCounter img.mem k (img.mem.nextPropertyIndex k) = img.mem := by
    unfold withCounter
    rw [update_eq_self]
  unfold rewritten
  split_ifs
  · refine LinkStep.of_file (wrote_files _ _ _ _) rfl ?_ (LinksOk.write_value h h0 ht hvalue)
      (.inl rfl)
    rw [wrote_mem, hsame]
  · refine LinkStep.of_file (update_eq_self _ _).symm rfl hsame.symm h (.inl rfl)

/-- **`insert` keeps its file well formed** and returns a block of it. -/
theorem inserted_step (h : img.LinkFileOk k) (hfit : img.mem.LinkFits k)
    (hname : k.copyName name = some dataName) (hvalue : value.length = valueSize)
    {chain : List Nat} (hne : chain ≠ [])
    (hmem : ∀ c ∈ chain, 0 < c ∧ c < img.mem.nextPropertyIndex k) :
    LinkStep img (img.inserted k chain name dataName value).2 k ∧
      (img.inserted k chain name dataName value).1 ∈ chain := by
  unfold inserted
  split
  · rename_i t ht
    have hin := List.mem_of_find?_eq_some ht
    exact ⟨rewritten_step h hvalue (hmem t hin).1 (hmem t hin).2, hin⟩
  · have hin : chain.getLastD 0 ∈ chain := by
      rw [getLastD_eq_getLast?, getLast?_eq_some_getLast hne]
      exact getLast_mem hne
    exact ⟨appended_step h hfit hname hvalue (hmem _ hin).1 (hmem _ hin).2, hin⟩

end Image

end JasmineGraph.NativeStore
