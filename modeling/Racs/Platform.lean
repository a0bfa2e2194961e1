import Racs.Foundation.Decimal
import Mathlib.Algebra.Field.Rat

/-!
# What the code takes from outside

The arithmetic of `double`, the ZSTD library and the configured data directory are not part of the
repository. `Platform` collects what the code uses of them; every definition that depends on them
has a platform as a parameter. `Platform.rational` computes with rational numbers in place of
doubles and rejects all compressed data.

`strtoull` is that of the C library.
-/

namespace Racs

/-- The type `double` with the operations and conversions that the code uses, the function
`racs_zstd_decompress`, the allocator, and the directory `data_dir` of the configuration.

A conversion to an integer is undefined for a value that is not a number or infinite. `toInt32` and
`toSize` are what the machine makes of `(racs_int32) x` and `(size_t) x`, also for values that the
type does not hold, or nothing where it traps. -/
structure Platform where
  Double : Type
  ofInt : ℤ → Double
  add : Double → Double → Double
  sub : Double → Double → Double
  mul : Double → Double → Double
  div : Double → Double → Double
  lt : Double → Double → Bool
  le : Double → Double → Bool
  trunc : Double → Option ℤ
  toInt32 : Double → Option Int32
  toSize : Double → Option UInt64
  zstdDecompress : List UInt8 → Option (List UInt8)
  /-- Whether an allocation of so many bytes succeeds. -/
  alloc : ℕ → Bool
  dataDir : List Char

/-- Rational numbers as doubles. A quotient by zero is not a number, and values that an integer type
does not hold are not converted. -/
def Platform.rational : Platform where
  Double := Option ℚ
  ofInt z := some z
  add x y := x.bind fun x => y.map fun y => x + y
  sub x y := x.bind fun x => y.map fun y => x - y
  mul x y := x.bind fun x => y.map fun y => x * y
  div x y := x.bind fun x => y.bind fun y => if y = 0 then none else some (x / y)
  lt x y := (x.bind fun x => y.map fun y => decide (x < y)).getD false
  le x y := (x.bind fun x => y.map fun y => decide (x ≤ y)).getD false
  trunc x := x.map fun x => x.num.tdiv x.den
  toInt32 x := x.bind fun x =>
    let z := x.num.tdiv x.den
    if -2 ^ 31 ≤ z ∧ z < 2 ^ 31 then some (Int32.ofInt z) else none
  toSize x := x.bind fun x =>
    let z := x.num.tdiv x.den
    if 0 ≤ z ∧ z < 2 ^ 64 then some (UInt64.ofInt z) else none
  zstdDecompress _ := none
  alloc n := n < 2 ^ 63
  dataDir := "data".toList

instance : DecidableEq Platform.rational.Double := inferInstanceAs (DecidableEq (Option ℚ))

/-- The conversion of a `double` to a 64-bit integer, undefined when the value does not fit. -/
def Platform.toInt64 (P : Platform) (x : P.Double) : Option Int64 :=
  (P.trunc x).bind fun z =>
    if -2 ^ 63 ≤ z ∧ z < 2 ^ 63 then some (Int64.ofInt z) else none

/-- The sum of two 64-bit integers, undefined when it does not fit. -/
def addInt64 (a b : Int64) : Option Int64 :=
  if -2 ^ 63 ≤ a.toInt + b.toInt ∧ a.toInt + b.toInt < 2 ^ 63 then some (a + b) else none

/-- `strtoull` in base ten, on a string that it reads to its end. -/
def strtoull (cs : List Char) : Option UInt64 :=
  match Decimal.scanInt cs.length cs with
  | some (z, []) => some (if 2 ^ 64 ≤ z.natAbs then UInt64.ofNat (2 ^ 64 - 1) else UInt64.ofInt z)
  | _ => none

end Racs
