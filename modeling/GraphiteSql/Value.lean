import GraphiteSql.Error

/-! The dynamic value model: storage classes, IEEE doubles by their bits, collations, and the
order in which index keys are compared.
-/

namespace GraphiteSql

open Lib

structure F64 where
  bits : UInt64
deriving DecidableEq, Repr

namespace F64

variable (r : F64)

/-- The bits below the sign bit. Among numbers of one sign they grow with the magnitude. -/
def magnitude : Nat :=
  r.bits.toNat % 2 ^ 63

def isNegative : Bool :=
  2 ^ 63 ≤ r.bits.toNat

def isNaN : Bool :=
  0x7ff0000000000000 < r.magnitude

/-- The position of a number on the line of doubles; both zeros are at 0. -/
def key : Int :=
  if r.isNegative then -(r.magnitude : Int) else r.magnitude

/-- `partial_cmp`: undefined when an operand is a NaN. -/
def partialCmp (a b : F64) : Option Ordering :=
  if a.isNaN || b.isNaN then none else some (compare a.key b.key)

def exponent : Nat :=
  r.magnitude / 2 ^ 52

def fraction : Nat :=
  r.magnitude % 2 ^ 52

def truncMagnitude : Nat :=
  if r.exponent < 1023 then 0
  else if r.exponent < 1075 then (2 ^ 52 + r.fraction) / 2 ^ (1075 - r.exponent)
  else (2 ^ 52 + r.fraction) * 2 ^ (r.exponent - 1075)

/-- `r as i64`: truncation toward zero, saturating at the ends of the range; NaN gives 0. -/
def asI64 : Int64 :=
  if r.isNaN then 0
  else if r.isNegative then Int64.ofInt (max (-(r.truncMagnitude : Int)) (-2 ^ 63))
  else Int64.ofInt (min (r.truncMagnitude : Int) (2 ^ 63 - 1))

/-- The bits of a positive integer as a double, rounded to nearest, ties to even. A carry out
of the rounded significand moves into the exponent by plain addition.
-/
def bitsOfNat (n : Nat) : Nat :=
  let top := Nat.log2 n
  if top ≤ 52 then (top + 1022) * 2 ^ 52 + n * 2 ^ (52 - top)
  else
    let unit := 2 ^ (top - 52)
    let low := n / unit
    let rest := n % unit
    let up := unit < 2 * rest ∨ (2 * rest = unit ∧ low % 2 = 1)
    (top + 1022) * 2 ^ 52 + (if up then low + 1 else low)

def ofI64 (i : Int64) : F64 :=
  let n := i.toInt.natAbs
  if n = 0 then { bits := 0 }
  else { bits := .ofNat (bitsOfNat n + (if i.toInt < 0 then 2 ^ 63 else 0)) }

def minI64 : F64 := { bits := 0xC3E0000000000000 }

def twoPow63 : F64 := { bits := 0x43E0000000000000 }

end F64

def isContinuation (b : UInt8) : Bool :=
  0x80 ≤ b && b ≤ 0xbf

/-- `core::str::from_utf8` succeeds: well-formed sequences of one to four bytes, without
surrogates and overlong forms.
-/
def validUtf8 : Bytes → Bool
  | [] => true
  | a :: rest =>
      if a < 0x80 then validUtf8 rest
      else if 0xc2 ≤ a && a ≤ 0xdf then
        match rest with
        | b :: rest => isContinuation b && validUtf8 rest
        | _ => false
      else if 0xe0 ≤ a && a ≤ 0xef then
        match rest with
        | b :: c :: rest =>
            isContinuation b && isContinuation c && (a != 0xe0 || 0xa0 ≤ b)
              && (a != 0xed || b ≤ 0x9f) && validUtf8 rest
        | _ => false
      else if 0xf0 ≤ a && a ≤ 0xf4 then
        match rest with
        | b :: c :: d :: rest =>
            isContinuation b && isContinuation c && isContinuation d && (a != 0xf0 || 0x90 ≤ b)
              && (a != 0xf4 || b ≤ 0x8f) && validUtf8 rest
        | _ => false
      else false

/-- `Text::as_str`: the text itself when it is UTF-8, else the empty string. -/
def asStr (t : Bytes) : Bytes :=
  if validUtf8 t then t else []

inductive Value where
  | null
  | integer (i : Int64)
  | real (r : F64)
  | text (t : Bytes)
  | blob (b : Bytes)
deriving DecidableEq, Repr

/-- A collating sequence. `custom` carries the comparison that a registered sequence's id
resolves to.
-/
inductive Collation where
  | binary
  | noCase
  | rTrim
  | custom (cmp : Bytes → Bytes → Ordering)

def toAsciiLowercase (b : UInt8) : UInt8 :=
  if 0x41 ≤ b && b ≤ 0x5a then b + 0x20 else b

def trimEndSpaces (t : Bytes) : Bytes :=
  (t.reverse.dropWhile (· == 0x20)).reverse

def cmpText (x y : Bytes) : Collation → Ordering
  | .binary => compare x y
  | .noCase => compare (x.map toAsciiLowercase) (y.map toAsciiLowercase)
  | .rTrim => compare (trimEndSpaces x) (trimEndSpaces y)
  | .custom cmp => cmp x y

/-- Compare an integer with a double without losing the low bits of the integer. -/
def intFloatCmp (i : Int64) (r : F64) : Ordering :=
  if r.isNaN then .eq
  else if r.partialCmp F64.minI64 = some .lt then .gt
  else if r.partialCmp F64.twoPow63 ≠ some .lt then .lt
  else
    match compare i.toInt r.asI64.toInt with
    | .eq => ((F64.ofI64 i).partialCmp r).getD .eq
    | other => other

def Value.storageClass : Value → Nat
  | .null => 0
  | .integer _ => 1
  | .real _ => 1
  | .text _ => 2
  | .blob _ => 3

def cmpValues : Value → Value → Ordering
  | .null, .null => .eq
  | .integer x, .integer y => compare x.toInt y.toInt
  | .real x, .real y => (x.partialCmp y).getD .eq
  | .integer i, .real r => intFloatCmp i r
  | .real r, .integer i => (intFloatCmp i r).swap
  | .text x, .text y => compare x y
  | .blob x, .blob y => compare x y
  | a, b => compare a.storageClass b.storageClass

def cmpValuesColl (a b : Value) (coll : Collation) : Ordering :=
  match a, b with
  | .text x, .text y => cmpText (asStr x) (asStr y) coll
  | a, b => cmpValues a b

/-- `SerialType::content_len`: body bytes of a serial type, `none` for the reserved codes. -/
def contentLen (serial : Nat) : Option Nat :=
  match serial with
  | 0 | 8 | 9 => some 0
  | 1 => some 1
  | 2 => some 2
  | 3 => some 3
  | 4 => some 4
  | 5 => some 6
  | 6 | 7 => some 8
  | 10 | 11 => none
  | n => if n % 2 = 0 then some ((n - 12) / 2) else some ((n - 13) / 2)

/-- `SerialType::for_value`: the smallest serial type that holds a value. -/
def serialTypeFor : Value → Nat
  | .null => 0
  | .integer i =>
      let i := i.toInt
      if i = 0 then 8
      else if i = 1 then 9
      else if -0x80 ≤ i ∧ i ≤ 0x7f then 1
      else if -0x8000 ≤ i ∧ i ≤ 0x7fff then 2
      else if -0x800000 ≤ i ∧ i ≤ 0x7fffff then 3
      else if -0x80000000 ≤ i ∧ i ≤ 0x7fffffff then 4
      else if -0x800000000000 ≤ i ∧ i ≤ 0x7fffffffffff then 5
      else 6
  | .real _ => 7
  | .blob b => 12 + 2 * b.length
  | .text t => 13 + 2 * t.length

end GraphiteSql
