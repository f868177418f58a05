import JasmineGraph.NativeStore.NodeManager

/-!
# The image of a store: files without streams

Buffers and cursors are an accident of the store. `Image` is the store with each stream replaced
by the contents its reader sees, and `Image.Shown` says that it describes a store: every stream is
good and shows the file, and what has been written is on disk. Two classes leave a write in the
buffer, the meta properties: on disk the last link of a chain may be missing (`Lags`). The cursors
of the relation files stay in the image, because one function writes at the cursor without a seek.

Each access has its rule here, as `Runs` from image to image: a read inside the file returns its
fields and moves the cursor, a write changes the file, a flush makes it durable. `Shown` takes the
file that has unflushed writes, if any.
-/

namespace JasmineGraph.NativeStore

open Bytes Refine Function

def DB.isFlushed : DB → Bool
  | .links k => !k.isMeta
  | _ => true

def LinkKind.nextField (k : LinkKind) (b : Nat) : Nat :=
  b * k.blockSize + k.nameSize + LinkKind.valueSize

/-- The disk is one write behind: the link to a new last block of a chain. -/
def Lags (k : LinkKind) (disk f : ByteFile) : Prop :=
  ∃ b v, (b + 1) * k.blockSize ≤ disk.size ∧ u32At disk (k.nextField b) = 0 ∧
    f = disk.write (k.nextField b) (le32 v)

structure Image where
  mem : Memory
  files : DB → ByteFile
  cursor : RelationKind → Nat

/-- The stream of the file `d` shows `f`, all of it on disk unless `d` is being written. -/
structure Stands (d : DB) (dirty : Prop) (t : Stream) (f : ByteFile) : Prop where
  good : t.good = true
  view : t.view = f
  size : ¬ dirty → t.disk.size = f.size
  flushed : ¬ dirty → d.isFlushed = true → t.disk = f
  lags : ¬ dirty → ∀ k, d = .links k → t.disk = f ∨ Lags k t.disk f

namespace Image

/-- The image describes the store; `dirty` is the file with unflushed writes. -/
structure Shown (dirty : Option DB) (img : Image) (s : Store) : Prop where
  memory : s.mem = img.mem
  stream : ∀ d, Stands d (dirty = some d) (s.streams d) (img.files d)
  cursor : ∀ k, (s.streams (.relations k)).pos = img.cursor k

/-- The cursor of a relation file after an access. -/
def moved (img : Image) (d : DB) (p : Nat) : Image :=
  match d with
  | .relations k => { img with cursor := Function.update img.cursor k p }
  | _ => img

def wrote (img : Image) (d : DB) (p : Nat) (bs : ByteString) : Image :=
  { img with files := Function.update img.files d ((img.files d).write p bs) }.moved d
    (p + bs.length)

def withMem (img : Image) (f : Memory → Memory) : Image := { img with mem := f img.mem }

@[simp] theorem withMem_mem (img : Image) (f : Memory → Memory) :
    (img.withMem f).mem = f img.mem := rfl

@[simp] theorem withMem_files (img : Image) (f : Memory → Memory) :
    (img.withMem f).files = img.files := rfl

@[simp] theorem moved_mem (img : Image) (d : DB) (p : Nat) :
    (img.moved d p).mem = img.mem := by cases d <;> rfl

@[simp] theorem moved_files (img : Image) (d : DB) (p : Nat) :
    (img.moved d p).files = img.files := by cases d <;> rfl

@[simp] theorem wrote_mem (img : Image) (d : DB) (p : Nat) (bs : ByteString) :
    (img.wrote d p bs).mem = img.mem := moved_mem _ _ _

theorem wrote_files (img : Image) (d : DB) (p : Nat) (bs : ByteString) :
    (img.wrote d p bs).files = Function.update img.files d ((img.files d).write p bs) :=
  moved_files _ _ _

@[simp] theorem wrote_files_self (img : Image) (d : DB) (p : Nat) (bs : ByteString) :
    (img.wrote d p bs).files d = (img.files d).write p bs := by
  rw [wrote_files, update_self]

theorem wrote_files_of_ne (img : Image) {d e : DB} (h : e ≠ d) (p : Nat) (bs : ByteString) :
    (img.wrote d p bs).files e = img.files e := by
  rw [wrote_files, update_of_ne h]

variable {img : Image} {dirty : Option DB} {d : DB}

theorem Shown.update {s : Store} {t : Stream} {f : ByteFile} {dirty' : Option DB}
    (h : Shown dirty img s) (ht : Stands d (dirty' = some d) t f)
    (hdirty : ∀ e, e ≠ d → dirty = some e → dirty' = some e) :
    Shown dirty' ({ img with files := Function.update img.files d f }.moved d t.pos)
      { s with streams := Function.update s.streams d t } where
  memory := by
    rw [moved_mem]
    exact h.memory
  stream e := by
    rw [moved_files]
    by_cases he : e = d
    · subst he
      simpa only [update_self] using ht
    · simp only [update_of_ne he]
      have hs := h.stream e
      exact ⟨hs.good, hs.view, fun hd => hs.size fun h' => hd (hdirty e he h'),
        fun hd => hs.flushed fun h' => hd (hdirty e he h'),
        fun hd => hs.lags fun h' => hd (hdirty e he h')⟩
  cursor k := by
    by_cases hk : DB.relations k = d
    · subst hk
      simp [moved]
    · simp only [update_of_ne hk]
      rw [h.cursor k]
      cases d with
      | relations k' =>
        have hne : k ≠ k' := fun heq => hk (by rw [heq])
        simp only [moved, update_of_ne hne]
      | nodes => rfl
      | links k' => rfl

/-! ## The rules of the accesses -/

theorem runs_memory : Runs (Shown dirty img) memory img.mem (Shown dirty img) :=
  fun s hs => ⟨s, by rw [memory, hs.memory], hs⟩

theorem runs_modifyMemory (f : Memory → Memory) : Runs (Shown dirty img) (modifyMemory f) ()
      (Shown dirty (img.withMem f)) := by
  intro s hs
  refine ⟨_, rfl, ?_, hs.stream, hs.cursor⟩
  change f s.mem = f img.mem
  rw [hs.memory]

theorem runs_viewSize (d : DB) :
    Runs (Shown dirty img) (viewSize d) (img.files d).size (Shown dirty img) := by
  intro s hs
  exact ⟨s, by rw [viewSize, (hs.stream d).view], hs⟩

theorem runs_diskSize (d : DB) :
    Runs (Shown none img) (diskSize d) (img.files d).size (Shown none img) := by
  intro s hs
  exact ⟨s, by rw [diskSize, (hs.stream d).size (by simp)], hs⟩

theorem runs_ofOption {α : Type} {o : Option α} {a : α} (h : o = some a) :
    Runs (Shown dirty img) (ofOption o) a (Shown dirty img) := by
  subst h
  exact .pure

theorem runs_readAt {p : Nat} {widths : List Nat} (h : p + widths.sum ≤ (img.files d).size) :
    Runs (Shown none img) (readAt d p widths) (some (Stream.fieldsAt (img.files d) p widths))
      (Shown none (img.moved d (p + widths.sum))) := by
  intro s hs
  have hd := hs.stream d
  have hread := Stream.readAt_of_good hd.good (by rw [hd.view]; exact h)
  rw [hd.view] at hread
  refine ⟨_, by simp only [readAt, onStream, hread]; rfl, ?_⟩
  have hup := hs.update (d := d) (t := ⟨img.files d, img.files d, p + widths.sum, true⟩)
    ⟨rfl, rfl, fun _ => rfl, fun _ _ => rfl, fun _ _ _ => .inl rfl⟩
    fun e _ he => he
  simpa only [update_eq_self] using hup

theorem runs_writeAt (d : DB) (p : Nat) (fields : List ByteString)
    (hdirty : dirty = none ∨ dirty = some d) :
    Runs (Shown dirty img) (writeAt d p fields) true
      (Shown (some d) (img.wrote d p fields.flatten)) := by
  intro s hs
  have hd := hs.stream d
  have hwrite := Stream.writeAt_of_good hd.good p fields
  rw [hd.view] at hwrite
  refine ⟨_, by simp only [writeAt, onStream, hwrite]; rfl, ?_⟩
  refine hs.update (t := ⟨img.files d, (img.files d).write p fields.flatten,
    p + fields.flatten.length, true⟩) ⟨rfl, rfl, fun h => absurd rfl h, fun h => absurd rfl h,
      fun h => absurd rfl h⟩ ?_
  intro e he heq
  rcases hdirty with h | h
  · rw [h] at heq
    cases heq
  · rw [h] at heq
    exact absurd (Option.some.inj heq).symm he

theorem runs_flush (hdirty : dirty = none ∨ dirty = some d) :
    Runs (Shown dirty img) (flush d) () (Shown none img) := by
  intro s hs
  have hd := hs.stream d
  have hflush : (s.streams d).flush = { s.streams d with disk := img.files d } := by
    simp [Stream.flush, hd.good, hd.view]
  refine ⟨{ s with streams := Function.update s.streams d (s.streams d).flush }, rfl, hs.memory,
    fun e => ?_, fun k => ?_⟩
  · by_cases he : e = d
    · subst he
      simp only [update_self, hflush]
      exact ⟨hd.good, hd.view, fun _ => rfl, fun _ _ => rfl, fun _ _ _ => .inl rfl⟩
    · simp only [update_of_ne he]
      have hclean : ¬ dirty = some e := by
        rcases hdirty with h | h
        · simp [h]
        · rw [h]
          exact fun heq => he (Option.some.inj heq).symm
      have hst := hs.stream e
      exact ⟨hst.good, hst.view, fun _ => hst.size hclean, fun _ => hst.flushed hclean,
        fun _ => hst.lags hclean⟩
  · by_cases hk : DB.relations k = d
    · subst hk
      simp only [update_self, hflush]
      exact hs.cursor k
    · simp only [update_of_ne hk]
      exact hs.cursor k

/-- The link to a new last block, which a meta class leaves unflushed. -/
theorem runs_linkNext {k : LinkKind} (hmeta : k.isMeta = true) {b : Nat} (v : Nat)
    (hin : (b + 1) * k.blockSize ≤ (img.files (.links k)).size)
    (hzero : u32At (img.files (.links k)) (k.nextField b) = 0) :
    Runs (Shown none img) (writeAt (.links k) (k.nextField b) [le32 v]) true
      (Shown none (img.wrote (.links k) (k.nextField b) (le32 v))) := by
  intro s hs
  have hd := hs.stream (.links k)
  have hwrite := Stream.writeAt_of_good hd.good (k.nextField b) [le32 v]
  rw [hd.view] at hwrite
  refine ⟨_, by simp only [writeAt, onStream, hwrite]; rfl, ?_⟩
  refine hs.update (t := ⟨img.files (.links k), (img.files (.links k)).write (k.nextField b) (le32 v),
    k.nextField b + (le32 v).length, true⟩) ⟨rfl, rfl, fun _ => ?_, fun _ hf => ?_, fun _ k' hk => ?_⟩
    fun e _ he => he
  · refine (ByteFile.size_write_of_le ?_).symm
    rw [length_le32]
    refine Nat.le_trans ?_ hin
    rw [LinkKind.nextField, Nat.succ_mul]
    simp only [LinkKind.blockSize]
    omega
  · simp [DB.isFlushed, hmeta] at hf
  · cases hk
    exact .inr ⟨b, v, hin, hzero, rfl⟩

end Image

end JasmineGraph.NativeStore
