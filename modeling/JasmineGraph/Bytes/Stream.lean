import JasmineGraph.Bytes.File

/-!
# Buffered file streams

A `std::fstream` opened for reading and writing: the file as the kernel has it (`disk`), the file
as the stream sees it with its pending writes applied (`view`), one cursor for both directions and
the state bit (`good`). A seek and a flush write the pending bytes out; a write does not. A read
past the end fails and leaves the stream failed: from then on every operation is void, as with a
set `failbit`.

`Stream.writeAt` and `Stream.readAt` are the two access patterns of the block files: seek to an
address, then write or read a run of adjacent fields. On a good stream the former is one write of
the concatenation (`writeAt_of_good`), the latter one read (`readAt_of_good`).
-/

namespace JasmineGraph.Bytes

structure Stream where
  disk : ByteFile
  view : ByteFile
  pos : Nat
  good : Bool

namespace Stream

def openFile (f : ByteFile) : Stream := ⟨f, f, 0, true⟩

/-- `seekg` and `seekp`: both move the one cursor of a file buffer. -/
def seek (s : Stream) (p : Nat) : Stream :=
  if s.good then { s with disk := s.view, pos := p } else s

def write (s : Stream) (bs : List UInt8) : Stream :=
  if s.good then { s with view := s.view.write s.pos bs, pos := s.pos + bs.length } else s

def flush (s : Stream) : Stream := if s.good then { s with disk := s.view } else s

def read (s : Stream) (n : Nat) : Option (List UInt8) × Stream :=
  if s.good then
    if s.pos + n ≤ s.view.size then (some (s.view.slice s.pos n), { s with pos := s.pos + n })
    else (none, { s with good := false })
  else (none, s)

def writeAll (s : Stream) (fields : List (List UInt8)) : Stream := fields.foldl write s

def writeAt (s : Stream) (p : Nat) (fields : List (List UInt8)) : Stream :=
  (s.seek p).writeAll fields

/-- Read adjacent fields, one after the other, up to the first that fails. -/
def readAll (s : Stream) : List Nat → Option (List (List UInt8)) × Stream
  | [] => (some [], s)
  | n :: ns =>
    match s.read n with
    | (none, s) => (none, s)
    | (some bs, s) =>
      match s.readAll ns with
      | (none, s) => (none, s)
      | (some bss, s) => (some (bs :: bss), s)

def readAt (s : Stream) (p : Nat) (widths : List Nat) :
    Option (List (List UInt8)) × Stream := (s.seek p).readAll widths

def fieldsAt (f : ByteFile) (p : Nat) : List Nat → List (List UInt8)
  | [] => []
  | n :: ns => f.slice p n :: fieldsAt f (p + n) ns

variable {s : Stream}

theorem writeAll_of_good (h : s.good = true) (fields : List (List UInt8)) : s.writeAll fields =
      { s with view := s.view.write s.pos fields.flatten, pos := s.pos + fields.flatten.length } := by
  induction fields generalizing s with
  | nil =>
    obtain ⟨disk, view, pos, good⟩ := s
    have hw : view.write pos [] = view := ByteFile.ext rfl fun i => if_neg (by simp)
    simp [writeAll, hw]
  | cons bs fields ih =>
    have hgood : (s.write bs).good = true := by simp [write, h]
    unfold writeAll at ih ⊢
    rw [List.foldl_cons, ih hgood]
    simp only [write, h, if_true, ByteFile.write_write, List.flatten_cons, List.length_append,
      Nat.add_assoc]

theorem writeAt_of_good (h : s.good = true) (p : Nat) (fields : List (List UInt8)) :
    s.writeAt p fields =
      ⟨s.view, s.view.write p fields.flatten, p + fields.flatten.length, true⟩ := by
  unfold writeAt
  rw [writeAll_of_good (by simp [seek, h])]
  simp [seek, h]

theorem readAll_of_good (h : s.good = true) (widths : List Nat)
    (hsize : s.pos + widths.sum ≤ s.view.size) :
    s.readAll widths = (some (fieldsAt s.view s.pos widths), { s with pos := s.pos + widths.sum }) := by
  induction widths generalizing s with
  | nil => simp [readAll, fieldsAt]
  | cons n ns ih =>
    rw [List.sum_cons] at hsize
    have hread : s.read n = (some (s.view.slice s.pos n), { s with pos := s.pos + n }) := by
      simp only [read, h, if_true]
      exact if_pos (by omega)
    simp only [readAll, hread]
    rw [ih (s := { s with pos := s.pos + n }) h (by simpa [Nat.add_assoc] using hsize)]
    simp [fieldsAt, Nat.add_assoc]

theorem readAt_of_good (h : s.good = true) {p : Nat} {widths : List Nat}
    (hsize : p + widths.sum ≤ s.view.size) :
    s.readAt p widths =
      (some (fieldsAt s.view p widths), ⟨s.view, s.view, p + widths.sum, true⟩) := by
  unfold readAt
  rw [readAll_of_good (by simp [seek, h]) _ (by simpa [seek, h] using hsize)]
  simp [seek, h]

/-! ## Streams with the same contents -/

/-- Readers cannot tell the streams apart. -/
structure Alike (s t : Stream) : Prop where
  good : s.good = t.good
  view : s.view = t.view

theorem Alike.readAll {s t : Stream} (h : Alike s t) (hpos : s.good = true → s.pos = t.pos)
    (widths : List Nat) :
    (s.readAll widths).1 = (t.readAll widths).1 ∧
      Alike (s.readAll widths).2 (t.readAll widths).2 := by
  induction widths generalizing s t with
  | nil => exact ⟨rfl, h⟩
  | cons n ns ih =>
    obtain ⟨sdisk, sview, spos, sgood⟩ := s
    obtain ⟨tdisk, tview, tpos, tgood⟩ := t
    obtain ⟨rfl, rfl⟩ : sgood = tgood ∧ sview = tview := ⟨h.good, h.view⟩
    cases sgood with
    | false => exact ⟨rfl, ⟨rfl, rfl⟩⟩
    | true =>
      obtain rfl : spos = tpos := hpos rfl
      by_cases hin : spos + n ≤ sview.size
      · have hrest := @ih ⟨sdisk, sview, spos + n, true⟩ ⟨tdisk, sview, spos + n, true⟩ ⟨rfl, rfl⟩
          fun _ => rfl
        revert hrest
        simp only [Stream.readAll, read, if_true, if_pos hin]
        generalize Stream.readAll ⟨sdisk, sview, spos + n, true⟩ ns = x
        generalize Stream.readAll ⟨tdisk, sview, spos + n, true⟩ ns = y
        obtain ⟨a, s'⟩ := x
        obtain ⟨b, t'⟩ := y
        rintro ⟨rfl, halike⟩
        cases a with
        | none => exact ⟨rfl, halike⟩
        | some bss => exact ⟨rfl, halike⟩
      · simp only [Stream.readAll, read, if_true, if_neg hin]
        exact ⟨trivial, ⟨rfl, rfl⟩⟩

theorem Alike.readAt {s t : Stream} (h : Alike s t) (p : Nat) (widths : List Nat) :
    (s.readAt p widths).1 = (t.readAt p widths).1 ∧
      Alike (s.readAt p widths).2 (t.readAt p widths).2 := by
  obtain ⟨hgood, hview⟩ := h
  refine Alike.readAll ⟨?_, ?_⟩ ?_ widths
  · unfold seek
    split_ifs <;> simp_all
  · unfold seek
    split_ifs <;> simp_all
  · unfold seek
    split_ifs <;> simp_all

end Stream

end JasmineGraph.Bytes
