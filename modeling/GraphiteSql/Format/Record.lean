import GraphiteSql.Format.Header
import GraphiteSql.Util.Varint
import GraphiteSql.Value

/-! The record format: a header of serial types followed by the column bodies. -/

namespace GraphiteSql

open Lib

def intBytes (i : Int64) : (len : Nat) → Bytes
  | 0 => []
  | len + 1 => UInt8.ofNat (i.toUInt64.toNat / 256 ^ len) :: intBytes i len

def F64.toBytes (r : F64) : Bytes :=
  intBytes r.bits.toInt64 8

/-- The header length includes its own varint; iterate until that is consistent. Each pass
that changes the length makes the varint longer, so nine passes are enough.
-/
def headerLenFrom : (passes serialLen headerLen : Nat) → Nat
  | 0, _, headerLen => headerLen
  | passes + 1, serialLen, headerLen =>
      let n := Varint.len headerLen
      if n + serialLen = headerLen then headerLen
      else headerLenFrom passes serialLen (n + serialLen)

def encodeBody : Value → Bytes
  | .null => []
  | .integer i =>
      if i = 0 ∨ i = 1 then []
      else intBytes i ((contentLen (serialTypeFor (.integer i))).getD 0)
  | .real r => r.toBytes
  | .text t => t
  | .blob b => b

def encodeRecord (values : List Value) : Bytes :=
  let serialBytes := values.flatMap fun v => Varint.encode (serialTypeFor v)
  let headerLen := headerLenFrom 9 serialBytes.length (serialBytes.length + 1)
  Varint.encode headerLen ++ serialBytes ++ values.flatMap encodeBody

def beNat (body : Bytes) : Nat :=
  body.foldl (fun v b => v * 256 + b.toNat) 0

def signExtend (body : Bytes) (nbytes : Nat) : Int64 :=
  let v := beNat (body.take nbytes)
  if v < 256 ^ nbytes / 2 then Int64.ofNat v else Int64.ofInt ((v : Int) - 256 ^ nbytes)

def utf8Encode (c : Nat) : Bytes :=
  if c < 0x80 then [.ofNat c]
  else if c < 0x800 then [.ofNat (0xc0 + c / 64), .ofNat (0x80 + c % 64)]
  else if c < 0x10000 then
    [.ofNat (0xe0 + c / 4096), .ofNat (0x80 + c / 64 % 64), .ofNat (0x80 + c % 64)]
  else
    [.ofNat (0xf0 + c / 262144), .ofNat (0x80 + c / 4096 % 64), .ofNat (0x80 + c / 64 % 64),
      .ofNat (0x80 + c % 64)]

/-- `char::decode_utf16` collected into UTF-8; a lone surrogate fails. -/
def decodeUtf16 : List Nat → Option Bytes
  | [] => some []
  | u :: rest =>
      if u < 0xd800 ∨ 0xe000 ≤ u then (decodeUtf16 rest).map (utf8Encode u ++ ·)
      else if 0xdc00 ≤ u then none
      else
        match rest with
        | v :: rest =>
            if 0xdc00 ≤ v ∧ v < 0xe000 then
              (decodeUtf16 rest).map
                (utf8Encode (0x10000 + (u - 0xd800) * 1024 + (v - 0xdc00)) ++ ·)
            else none
        | [] => none

def utf16Units (bigEndian : Bool) : Bytes → List Nat
  | a :: b :: rest =>
      (if bigEndian then a.toNat * 256 + b.toNat else b.toNat * 256 + a.toNat)
        :: utf16Units bigEndian rest
  | _ => []

/-- The text of a column body. UTF-8 bodies are taken as they are, without validation. -/
def decodeText (body : Bytes) : TextEncoding → Result Bytes
  | .utf8 => .ok body
  | encoding =>
      if body.length % 2 ≠ 0 then .error (.corrupt "odd-length UTF-16 text")
      else orCorrupt "invalid UTF-16 text" (decodeUtf16 (utf16Units (encoding == .utf16Be) body))

def firstBytes (body : Bytes) (n : Nat) : Result Bytes :=
  orPanic "index out of bounds" (slice body 0 n)

def decodeInt (body : Bytes) (n : Nat) : Result Value := do
  return .integer (signExtend (← firstBytes body n) n)

def decodeValue (serial : Nat) (body : Bytes) (encoding : TextEncoding) : Result Value :=
  match serial with
  | 0 => .ok .null
  | 1 => decodeInt body 1
  | 2 => decodeInt body 2
  | 3 => decodeInt body 3
  | 4 => decodeInt body 4
  | 5 => decodeInt body 6
  | 6 => decodeInt body 8
  | 7 => do return .real { bits := .ofNat (beNat (← firstBytes body 8)) }
  | 8 => .ok (.integer 0)
  | 9 => .ok (.integer 1)
  | n =>
      if 12 ≤ n ∧ n % 2 = 0 then .ok (.blob body)
      else (decodeText body encoding).map .text

/-- The columns whose serial types start at `hdr` and whose bodies start at `body`. `bound` is
how many more columns are read before the loop counts as endless.
-/
def decodeColumns (bytes : Bytes) (headerLen : Nat) (encoding : TextEncoding)
    : (bound hdr body : Nat) → Result (List Value)
  | 0, hdr, _ => if headerLen ≤ hdr then .ok [] else .error .diverge
  | bound + 1, hdr, body => do
      if headerLen ≤ hdr then return [] else
      let rest ← orPanic "range start index out of range" (slice bytes hdr (bytes.length - hdr))
      let (raw, used) ← orCorrupt "truncated serial type" (Varint.decode rest)
      let hdr ← usizeAdd hdr used
      let len ← orCorrupt s!"reserved serial type {raw}" (contentLen raw)
      let next ← usizeAdd body len
      if bytes.length < next then
        throw (.corrupt "record body shorter than header implies") else
      let column ← orPanic "range end index out of range" (slice bytes body len)
      let value ← decodeValue raw column encoding
      let values ← decodeColumns bytes headerLen encoding bound hdr next
      return value :: values

/-- Decode a complete record into its column values. Every column takes a byte of the header,
so its length bounds their number.
-/
def decodeRecord (bytes : Bytes) (encoding : TextEncoding) : Result (List Value) := do
  let (headerLen, n) ← orCorrupt "truncated record header length" (Varint.decode bytes)
  let len := bytes.length
  if len < headerLen then
    throw (.corrupt s!"record header length {headerLen} exceeds record size {len}") else
  decodeColumns bytes headerLen encoding headerLen n headerLen

end GraphiteSql
