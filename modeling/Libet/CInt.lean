/-
Libet/CInt.lean

The integer conversions of the source.  Arithmetic is on exact `Int`s and
`Nat`s; where the code narrows a value or mixes signs, the conversion is
written as one of these functions.
-/
import Mathlib.Algebra.Order.Ring.Int

namespace Libet

/-- The platforms of `libet.vcxproj`; they differ in the width of `size_t`. -/
inductive Platform
  | win32
  | x64
  deriving DecidableEq, Repr

/-- Number of bits of a `size_t`. -/
def Platform.sizeBits : Platform → Nat
  | .win32 => 32
  | .x64 => 64

/-- Conversion of an `int` to `size_t`. -/
def toSize (p : Platform) (n : Int) : Nat := (n % 2 ^ p.sizeBits).toNat

/-- Conversion to a 32-bit `int`. -/
def toInt32 (n : Int) : Int := n.bmod (2 ^ 32)

/-- Conversion to a 32-bit `u_long`. -/
def toUInt32 (n : Int) : Nat := (n % 2 ^ 32).toNat

theorem toInt32_of_lt {n : Nat} (h : n < 2 ^ 31) : toInt32 n = n := by
  simp only [toInt32, Int.bmod_def]
  omega

theorem toInt32_of_ge {n : Nat} (h : 2 ^ 31 ≤ n) (h' : n < 2 ^ 32) :
    toInt32 n = (n : Int) - 2 ^ 32 := by
  simp only [toInt32, Int.bmod_def]
  omega

theorem toSize_natCast (p : Platform) {n : Nat} (h : n < 2 ^ 32) :
    toSize p n = n := by
  cases p <;> simp only [toSize, Platform.sizeBits] <;> omega

end Libet
