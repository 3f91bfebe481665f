import Mathlib.Data.Int.Notation
import Mathlib.Data.Int.Init
import Mathlib.Data.Nat.Notation

/-!
# WebsocketHub.SafeVals — the atomic values of `hub/safevals.go`

Every operation below is one atomic step of the goroutine that performs it.  `safeUint32` wraps, because
client ids do.  `safeInt64` is an exact integer, as `atomic.AddInt64` is until it wraps: the size of an entry
is added once and subtracted at most once, so for the counter to wrap the entries of a queue would have to
take `2^63` bytes over its whole run.
-/

namespace WebsocketHub

/-- The address of a heap cell. -/
abbrev Addr := ℕ

/-- An `unsafe.Pointer`; `none` is nil. -/
abbrev Ptr := Option Addr

namespace SafeInt64

def add (i x : ℤ) : ℤ := i + x

/-- `atomic.AddInt64(i, ^int64(x-1))`. -/
def sub (i x : ℤ) : ℤ := i + ~~~(x - 1)

@[simp] theorem add_eq (i x : ℤ) : add i x = i + x := rfl

@[simp] theorem sub_eq (i x : ℤ) : sub i x = i - x := by
  have h : ~~~(x - 1) = -x := by
    cases hx : x - 1 with
    | ofNat n =>
      show Int.negSucc n = -x
      rw [Int.ofNat_eq_natCast] at hx
      omega
    | negSucc n =>
      show Int.ofNat n = -x
      rw [Int.ofNat_eq_natCast]
      omega
  rw [sub, h, Int.sub_eq_add_neg]

end SafeInt64

namespace SafeUint32

def add (i x : UInt32) : UInt32 := i + x

/-- `atomic.AddUint32(i, ^uint32(x-1))`. -/
def sub (i x : UInt32) : UInt32 := i + ~~~(x - 1)

def inc (i : UInt32) : UInt32 := add i 1

def dec (i : UInt32) : UInt32 := sub i 1

@[simp] theorem inc_eq (i : UInt32) : inc i = i + 1 := rfl

@[simp] theorem sub_eq (i x : UInt32) : sub i x = i - x := by
  apply UInt32.toBitVec_inj.mp
  simp only [sub, UInt32.toBitVec_add, UInt32.toBitVec_not, UInt32.toBitVec_sub,
    UInt32.toBitVec_one]
  bv_omega

@[simp] theorem dec_eq (i : UInt32) : dec i = i - 1 := sub_eq i 1

end SafeUint32

/-- `safePointer.cas`: whether the swap happened, and the pointer's new value. -/
def SafePointer.cas (p old new : Ptr) : Bool × Ptr :=
  if p = old then (true, new) else (false, p)

end WebsocketHub
