import Mathlib.Data.List.Basic
import GoIpfs.Runtime

/-!
# `bytes.Reader`

The inline data of a node is read through `NewRSNCFromBytes`, a `bytes.Reader` whose `Close`
does nothing. The reader is modelled by its bytes and read index, with the `Read`, `WriteTo`
and `Seek` of the Go 1.4 standard library; the writer `WriteTo` writes to takes every byte.
-/

namespace GoIpfs

/-- `bytes.Reader`: the bytes and the read index, which `Seek` never moves below zero. -/
structure BytesReader where
  s : List UInt8
  i : Nat
  deriving DecidableEq, Repr

namespace BytesReader

/-- `r.Read(b)` with `len(b) = k`: the new reader, the bytes copied into `b`, and the error. -/
def read (r : BytesReader) (k : Nat) : BytesReader × List UInt8 × Option Error :=
  if k = 0 then (r, [], none)
  else if r.s.length ≤ r.i then (r, [], some .eof)
  else
    let b := (r.s.drop r.i).take k
    ({ r with i := r.i + b.length }, b, none)

/-- `r.WriteTo(w)`: the new reader, the bytes written, and the error. -/
def writeTo (r : BytesReader) : BytesReader × List UInt8 × Option Error :=
  if r.s.length ≤ r.i then (r, [], none)
  else
    let b := r.s.drop r.i
    ({ r with i := r.i + b.length }, b, none)

/-- `r.Seek(offset, whence)`: the new reader, the new position, and the error. -/
def seek (r : BytesReader) (offset whence : Int) : BytesReader × Int × Option Error :=
  let abs : Option Int :=
    if whence = 0 then some offset
    else if whence = 1 then some (int64 (r.i + offset))
    else if whence = 2 then some (int64 (r.s.length + offset))
    else none
  match abs with
  | none => (r, 0, some (.new "bytes: invalid whence"))
  | some abs =>
    if abs < 0 then (r, 0, some (.new "bytes: negative position"))
    else ({ r with i := abs.toNat }, abs, none)

/-- The bytes still to be read. -/
def rest (r : BytesReader) : List UInt8 := r.s.drop r.i

@[simp] theorem rest_eq_nil {r : BytesReader} : r.rest = [] ↔ r.s.length ≤ r.i := by
  simp [rest]

theorem read_eq (r : BytesReader) (k : Nat) :
    r.read k = ({ r with i := r.i + (r.rest.take k).length }, r.rest.take k,
      if k ≠ 0 ∧ r.rest = [] then some .eof else none) := by
  unfold read
  by_cases hk : k = 0
  · simp [hk]
  · by_cases he : r.s.length ≤ r.i
    · simp [hk, he, rest, List.drop_eq_nil_of_le he]
    · simp [hk, he, rest]

theorem drop_length_take {α : Type} (k : Nat) (l : List α) : l.drop (l.take k).length = l.drop k := by
  rw [List.length_take]
  rcases le_total k l.length with h | h
  · rw [min_eq_left h]
  · rw [min_eq_right h, List.drop_length, List.drop_eq_nil_of_le h]

theorem read_rest (r : BytesReader) (k : Nat) : (r.read k).1.rest = r.rest.drop k := by
  rw [read_eq]
  show r.s.drop (r.i + _) = _
  rw [← List.drop_drop]
  exact drop_length_take k _

theorem writeTo_eq (r : BytesReader) :
    r.writeTo = ({ r with i := r.i + r.rest.length }, r.rest, none) := by
  unfold writeTo
  by_cases he : r.s.length ≤ r.i
  · simp [he, rest, List.drop_eq_nil_of_le he]
  · simp [he, rest]

theorem writeTo_rest (r : BytesReader) : r.writeTo.1.rest = [] := by
  rw [writeTo_eq]
  show r.s.drop (r.i + _) = []
  rw [← List.drop_drop]
  exact List.drop_length _

end BytesReader

end GoIpfs
