import Mathlib.Data.Int.Defs
import Mathlib.Algebra.Order.Ring.Nat
import Mathlib.Algebra.Group.Int

/-!
# Go values the model needs

The `error` values the modelled code returns or compares against, and Go's 64-bit integer
conversions. An `int64` is an `Int`, and every conversion or arithmetic step that can leave
the 64-bit range goes through `int64`, which wraps it as two's complement does (`Int.bmod`);
`uint64` reads an `int64` as an unsigned word.
-/

namespace GoIpfs

/-- Go `error` values: sentinels, texts, and a panic, which unwinds every caller the same way. -/
inductive Error where
  /-- `io.EOF` -/
  | eof
  /-- `merkledag.ErrNotFound` -/
  | notFound
  /-- `ipnsfs.ErrNoSuch` -/
  | noSuch
  /-- `ipnsfs.ErrIsDirectory` -/
  | isDirectory
  /-- `unixfs.ErrInvalidDirLocation` -/
  | invalidDirLocation
  /-- `unixfs.ErrUnrecognizedType` -/
  | unrecognizedType
  /-- `errors.New(msg)`, `fmt.Errorf(…)` -/
  | new (msg : String)
  /-- `panic(msg)` -/
  | panicked (msg : String)
  deriving DecidableEq, Repr

/-- Whether the error is a panic, which no caller catches. -/
def Error.isPanic : Error → Bool
  | .panicked _ => true
  | _ => false

/-- Go's `int64(x)`: `x` wrapped into `[-2^63, 2^63)`. -/
def int64 (x : Int) : Int := x.bmod (2 ^ 64)

/-- Go's `uint64(x)` of an `int64`. -/
def uint64 (x : Int) : Nat := (x % 2 ^ 64).toNat

theorem int64_of_mem {x : Int} (lo : -2 ^ 63 ≤ x) (hi : x < 2 ^ 63) : int64 x = x := by
  rw [int64, Int.bmod_def]
  push_cast
  split <;> omega

@[simp] theorem int64_zero : int64 0 = 0 := rfl

@[simp] theorem int64_int64 (x : Int) : int64 (int64 x) = int64 x :=
  Int.bmod_bmod

theorem int64_int64_add (x y : Int) : int64 (int64 x + y) = int64 (x + y) :=
  Int.bmod_add_bmod_congr

theorem uint64_of_mem {x : Int} (lo : 0 ≤ x) (hi : x < 2 ^ 64) : (uint64 x : Int) = x := by
  rw [uint64, Int.emod_eq_of_lt lo hi, Int.toNat_of_nonneg lo]

theorem int64_natCast {n : Nat} (h : n < 2 ^ 63) : int64 n = n :=
  int64_of_mem (by omega) (by exact_mod_cast h)

theorem uint64_natCast {n : Nat} (h : n < 2 ^ 64) : uint64 n = n := by
  exact_mod_cast uint64_of_mem (x := n) (by omega) (by exact_mod_cast h)

end GoIpfs
