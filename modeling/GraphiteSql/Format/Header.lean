import GraphiteSql.Error

/-! The 100-byte database header at the start of every file. -/

namespace GraphiteSql

open Lib Nat List

variable {h : DatabaseHeader} {buf : Bytes} {off : Nat}

def headerLen : Nat := 100

def magic : Bytes :=
  [0x53, 0x51, 0x4c, 0x69, 0x74, 0x65, 0x20, 0x66, 0x6f, 0x72, 0x6d, 0x61, 0x74, 0x20, 0x33,
    0x00]

def isPowerOfTwo (n : Nat) : Bool :=
  n != 0 && (n &&& (n - 1)) == 0

inductive TextEncoding where
  | utf8
  | utf16Le
  | utf16Be
deriving DecidableEq, Repr

def TextEncoding.fromCode (code : UInt32) : Result TextEncoding :=
  match code.toNat with
  | 1 => .ok .utf8
  | 2 => .ok .utf16Le
  | 3 => .ok .utf16Be
  | _ => .error (.corrupt s!"invalid text encoding {code}")

def TextEncoding.code : TextEncoding → UInt32
  | .utf8 => 1
  | .utf16Le => 2
  | .utf16Be => 3

structure DatabaseHeader where
  pageSize : UInt32
  writeVersion : UInt8
  readVersion : UInt8
  reservedSpace : UInt8
  changeCounter : UInt32
  sizeInPages : UInt32
  freelistTrunk : UInt32
  freelistCount : UInt32
  schemaCookie : UInt32
  schemaFormat : UInt32
  defaultCacheSize : UInt32
  largestRootPage : UInt32
  textEncoding : TextEncoding
  userVersion : UInt32
  incrementalVacuum : UInt32
  applicationId : UInt32
  versionValidFor : UInt32
  sqliteVersionNumber : UInt32
deriving DecidableEq, Repr

def byteAt (buf : Bytes) (i : Nat) : Result UInt8 :=
  orPanic "index out of bounds" buf[i]?

def beU32 (buf : Bytes) (off : Nat) : Result UInt32 :=
  orPanic "index out of bounds" (be32 buf off)

def beU16 (buf : Bytes) (off : Nat) : Result UInt16 :=
  orPanic "index out of bounds" (be16 buf off)

def put32 (buf : Bytes) (off : Nat) (v : UInt32) : Result Bytes :=
  orPanic "slice out of bounds" (patch buf off (u32ToBytes v))

def decodePageSize (raw : UInt16) : UInt32 :=
  if raw = 1 then 65536 else raw.toUInt32

def DatabaseHeader.parse (buf : Bytes) : Result DatabaseHeader := do
  let len := buf.length
  if len < headerLen then throw (.corrupt s!"header is {len} bytes, need {headerLen}") else
  if buf.take 16 ≠ magic then throw (.corrupt "bad magic string") else
  let pageSize := decodePageSize (← beU16 buf 16)
  if pageSize < 512 || !isPowerOfTwo pageSize.toNat then
    throw (.corrupt s!"invalid page size {pageSize}") else
  if (← byteAt buf 21) ≠ 64 || (← byteAt buf 22) ≠ 32 || (← byteAt buf 23) ≠ 32 then
    throw (.corrupt "invalid payload fractions") else
  let reservedSpace ← byteAt buf 20
  if pageSize ≤ reservedSpace.toUInt32 then
    throw (.corrupt "reserved space exceeds page size") else
  return {
    pageSize
    writeVersion := ← byteAt buf 18
    readVersion := ← byteAt buf 19
    reservedSpace
    changeCounter := ← beU32 buf 24
    sizeInPages := ← beU32 buf 28
    freelistTrunk := ← beU32 buf 32
    freelistCount := ← beU32 buf 36
    schemaCookie := ← beU32 buf 40
    schemaFormat := ← beU32 buf 44
    defaultCacheSize := ← beU32 buf 48
    largestRootPage := ← beU32 buf 52
    textEncoding := ← TextEncoding.fromCode (← beU32 buf 56)
    userVersion := ← beU32 buf 60
    incrementalVacuum := ← beU32 buf 64
    applicationId := ← beU32 buf 68
    versionValidFor := ← beU32 buf 92
    sqliteVersionNumber := ← beU32 buf 96
  }

def encodePageSize (pageSize : UInt32) : UInt16 :=
  if pageSize = 65536 then 1 else pageSize.toUInt16

/-- The fields that `write_to` stores, in file order; bytes 72 to 92 are the required zero
padding.
-/
def DatabaseHeader.fields (h : DatabaseHeader) : List Bytes :=
  [magic, u16ToBytes (encodePageSize h.pageSize), [h.writeVersion], [h.readVersion],
    [h.reservedSpace], [64], [32], [32],
    u32ToBytes h.changeCounter, u32ToBytes h.sizeInPages, u32ToBytes h.freelistTrunk,
    u32ToBytes h.freelistCount, u32ToBytes h.schemaCookie, u32ToBytes h.schemaFormat,
    u32ToBytes h.defaultCacheSize, u32ToBytes h.largestRootPage,
    u32ToBytes h.textEncoding.code, u32ToBytes h.userVersion,
    u32ToBytes h.incrementalVacuum, u32ToBytes h.applicationId, List.replicate 20 0,
    u32ToBytes h.versionValidFor, u32ToBytes h.sqliteVersionNumber]

def DatabaseHeader.toBytes (h : DatabaseHeader) : Bytes :=
  h.fields.flatten

def DatabaseHeader.writeTo (h : DatabaseHeader) (buf : Bytes) : Result Bytes :=
  let len := buf.length
  if len < headerLen then
    .error (.error s!"output buffer is {len} bytes, need {headerLen}")
  else
    .ok (h.toBytes ++ buf.drop headerLen)

def DatabaseHeader.usableSize (h : DatabaseHeader) : Nat :=
  h.pageSize.toNat - h.reservedSpace.toNat

/-- The part of the header that staging pages and committing leave alone: everything but the
freelist, the largest root page and the commit bookkeeping.
-/
def DatabaseHeader.layout (h : DatabaseHeader) : DatabaseHeader :=
  { h with
    changeCounter := 0
    sizeInPages := 0
    freelistTrunk := 0
    freelistCount := 0
    largestRootPage := 0
    versionValidFor := 0 }

/-- What `parse` checks of the page geometry: a power of two in `512..=65536`, with some
usable space left.
-/
structure DatabaseHeader.Valid (h : DatabaseHeader) : Prop where
  powerOfTwo : isPowerOfTwo h.pageSize.toNat = true
  minimum : 512 ≤ h.pageSize.toNat
  maximum : h.pageSize.toNat ≤ 65536
  usable : h.reservedSpace.toNat < h.pageSize.toNat

theorem DatabaseHeader.Valid.of_layout {h' : DatabaseHeader} (valid : h.Valid)
    (hlayout : h'.layout = h.layout) : h'.Valid := by
  have hpage : h'.layout.pageSize = h.layout.pageSize := by rw [hlayout]
  have hres : h'.layout.reservedSpace = h.layout.reservedSpace := by rw [hlayout]
  change h'.pageSize = h.pageSize at hpage
  change h'.reservedSpace = h.reservedSpace at hres
  obtain ⟨hpow, hmin, hmax, husable⟩ := valid
  exact ⟨hpage ▸ hpow, hpage ▸ hmin, hpage ▸ hmax, by rw [hpage, hres]; exact husable⟩

theorem DatabaseHeader.toBytes_length (h : DatabaseHeader) : h.toBytes.length = headerLen := by
  simp [toBytes, fields, magic, headerLen]

theorem beU32_ok {v : UInt32}
    : beU32 buf off = .ok v ↔ be32 buf off = some v :=
  orPanic_eq_ok

/-- Reading an integer past the end of a buffer panics. -/
theorem beU32_panics {b : Bytes} (h : b.length < off + 4)
    : beU32 b off = .error (.panic "index out of bounds") := by
  have hnone : be32 b off = none := by
    cases hsome : be32 b off with
    | none => rfl
    | some v =>
      have hfits := (slice_eq_some.mp (be32_eq_some.mp hsome)).1
      omega
  unfold beU32
  rw [hnone]
  rfl

theorem beU16_ok {v : UInt16}
    : beU16 buf off = .ok v ↔ be16 buf off = some v :=
  orPanic_eq_ok

theorem byteAt_ok {i : Nat} {v : UInt8}
    : byteAt buf i = .ok v ↔ buf[i]? = some v :=
  orPanic_eq_ok

theorem DatabaseHeader.be32_toBytes (h : DatabaseHeader) (rest : Bytes) (k off : Nat) (v : UInt32)
    (hk : h.fields[k]? = some (u32ToBytes v)) (hoff : (h.fields.take k).flatten.length = off)
    : beU32 (h.toBytes ++ rest) off = .ok v := by
  rw [beU32_ok, be32_eq_some]
  exact slice_flatten hk hoff rfl rest

theorem DatabaseHeader.byteAt_toBytes (h : DatabaseHeader) (rest : Bytes) (k off : Nat) (v : UInt8)
    (hk : h.fields[k]? = some [v]) (hoff : (h.fields.take k).flatten.length = off)
    : byteAt (h.toBytes ++ rest) off = .ok v := by
  rw [byteAt_ok]
  have hs : slice (h.toBytes ++ rest) off [v].length = some [v] := slice_flatten hk hoff rfl rest
  exact (slice_eq_some_iff_getElem?.mp hs).2 0 Nat.zero_lt_one

theorem TextEncoding.fromCode_code (e : TextEncoding) : fromCode e.code = .ok e := by
  cases e <;> rfl

theorem decodePageSize_encodePageSize {p : UInt32} (hmin : 512 ≤ p.toNat)
    (hmax : p.toNat ≤ 65536) : decodePageSize (encodePageSize p) = p := by
  unfold decodePageSize encodePageSize
  by_cases hp : p = 65536
  · simp [hp]
  have hne : p.toNat ≠ 65536 := fun h => hp (UInt32.toNat_inj.mp h)
  have hone : p.toUInt16 ≠ 1 := by
    intro h
    have := congrArg UInt16.toNat h
    simp only [UInt32.toNat_toUInt16, UInt16.reduceToNat] at this
    omega
  rw [if_neg hp, if_neg hone]
  apply UInt32.toNat_inj.mp
  simp only [UInt16.toNat_toUInt32, UInt32.toNat_toUInt16]
  omega

/-- A valid header is recovered from a buffer that starts with its 100 bytes. -/
theorem DatabaseHeader.parse_toBytes_append (valid : h.Valid) (rest : Bytes)
    : parse (h.toBytes ++ rest) = .ok h := by
  obtain ⟨hpow, hmin, hmax, hres⟩ := valid
  have hsize : beU16 (h.toBytes ++ rest) 16 = .ok (encodePageSize h.pageSize) := by
    rw [beU16_ok, be16_eq_some]
    have hk : h.fields[1]? = some (u16ToBytes (encodePageSize h.pageSize)) := rfl
    exact slice_flatten hk rfl rfl rest
  have hlen : ¬ (h.toBytes ++ rest).length < headerLen := by
    rw [length_append, h.toBytes_length]
    omega
  have hmagic : (h.toBytes ++ rest).take 16 = magic := rfl
  have hgeom : ¬ (h.pageSize < 512) := by
    exact Nat.not_lt.mpr hmin
  have hreserved : ¬ (h.pageSize ≤ h.reservedSpace.toUInt32) := by
    rw [UInt32.le_iff_toNat_le, UInt8.toNat_toUInt32]
    omega
  unfold parse
  simp only [hlen, if_false, hmagic, hsize, hgeom, hpow,
    decodePageSize_encodePageSize hmin hmax, TextEncoding.fromCode_code,
    byteAt_toBytes h rest 2 18 h.writeVersion rfl rfl,
    byteAt_toBytes h rest 3 19 h.readVersion rfl rfl,
    byteAt_toBytes h rest 4 20 h.reservedSpace rfl rfl,
    byteAt_toBytes h rest 5 21 64 rfl rfl, byteAt_toBytes h rest 6 22 32 rfl rfl,
    byteAt_toBytes h rest 7 23 32 rfl rfl,
    be32_toBytes h rest 8 24 h.changeCounter rfl rfl,
    be32_toBytes h rest 9 28 h.sizeInPages rfl rfl,
    be32_toBytes h rest 10 32 h.freelistTrunk rfl rfl,
    be32_toBytes h rest 11 36 h.freelistCount rfl rfl,
    be32_toBytes h rest 12 40 h.schemaCookie rfl rfl,
    be32_toBytes h rest 13 44 h.schemaFormat rfl rfl,
    be32_toBytes h rest 14 48 h.defaultCacheSize rfl rfl,
    be32_toBytes h rest 15 52 h.largestRootPage rfl rfl,
    be32_toBytes h rest 16 56 h.textEncoding.code rfl rfl,
    be32_toBytes h rest 17 60 h.userVersion rfl rfl,
    be32_toBytes h rest 18 64 h.incrementalVacuum rfl rfl,
    be32_toBytes h rest 19 68 h.applicationId rfl rfl,
    be32_toBytes h rest 21 92 h.versionValidFor rfl rfl,
    be32_toBytes h rest 22 96 h.sqliteVersionNumber rfl rfl,
    except_ok_bind, except_pure, ne_eq, not_true_eq_false, decide_false,
    Bool.not_true, Bool.or_self, Bool.false_eq_true, hreserved]

theorem decodePageSize_le (raw : UInt16) : (decodePageSize raw).toNat ≤ 65536 := by
  unfold decodePageSize
  split
  · decide
  · exact Nat.le_of_lt raw.toNat_lt

/-- What `parse` accepts is valid, and its change counter is read from bytes 24 to 28. -/
theorem DatabaseHeader.parse_ok (hparse : parse buf = .ok h)
    : h.Valid ∧ be32 buf 24 = some h.changeCounter := by
  unfold parse at hparse
  dsimp only at hparse
  split_ifs at hparse
  obtain ⟨raw, -, hparse⟩ := except_bind_eq_ok.mp hparse
  split_ifs at hparse with hsize
  obtain ⟨b21, -, hparse⟩ := except_bind_eq_ok.mp hparse
  obtain ⟨b22, -, hparse⟩ := except_bind_eq_ok.mp hparse
  obtain ⟨b23, -, hparse⟩ := except_bind_eq_ok.mp hparse
  split_ifs at hparse
  obtain ⟨reserved, -, hparse⟩ := except_bind_eq_ok.mp hparse
  split_ifs at hparse with hreserved
  obtain ⟨writeVersion, -, hparse⟩ := except_bind_eq_ok.mp hparse
  obtain ⟨readVersion, -, hparse⟩ := except_bind_eq_ok.mp hparse
  obtain ⟨counter, hcounter, hparse⟩ := except_bind_eq_ok.mp hparse
  simp only [except_bind_eq_ok] at hparse
  -- The remaining fields are read without a check.
  obtain ⟨_, -, _, -, _, -, _, -, _, -, _, -, _, -, _, -, _, -, _, -, _, -, _, -, _, -, _, -,
      hparse⟩ :=
    hparse
  cases hparse
  simp only [Bool.or_eq_true, decide_eq_true_eq, Bool.not_eq_true', not_or,
    Bool.not_eq_false] at hsize
  refine ⟨⟨hsize.2, ?_, decodePageSize_le raw, ?_⟩, beU32_ok.mp hcounter⟩
  · have hmin := hsize.1
    exact Nat.not_lt.mp hmin
  · exact Nat.not_le.mp hreserved

/-- Only the first 100 bytes are parsed. -/
theorem DatabaseHeader.parse_append (hlen : headerLen ≤ buf.length) (rest : Bytes)
    : parse (buf ++ rest) = parse buf := by
  have hword : ∀ off, off + 4 ≤ headerLen → beU32 (buf ++ rest) off = beU32 buf off := by
    intro off hoff
    unfold beU32 be32
    rw [slice_append_of_le (by omega)]
  have hhalf : beU16 (buf ++ rest) 16 = beU16 buf 16 := by
    unfold beU16 be16
    rw [slice_append_of_le (Nat.le_trans (by decide) hlen)]
  have hbyte : ∀ i, i < headerLen → byteAt (buf ++ rest) i = byteAt buf i := by
    intro i hi
    unfold byteAt
    rw [getElem?_append_left (Nat.lt_of_lt_of_le hi hlen)]
  have hmagic : (buf ++ rest).take 16 = buf.take 16 :=
    take_append_of_le_length (Nat.le_trans (by decide) hlen)
  have hlen' : headerLen ≤ (buf ++ rest).length := by
    rw [length_append]
    omega
  unfold parse
  simp only [Nat.not_lt.mpr hlen, Nat.not_lt.mpr hlen', if_false, hmagic, hhalf,
    hbyte 18 (by decide), hbyte 19 (by decide), hbyte 20 (by decide), hbyte 21 (by decide),
    hbyte 22 (by decide), hbyte 23 (by decide), hword 24 (by decide), hword 28 (by decide),
    hword 32 (by decide), hword 36 (by decide), hword 40 (by decide), hword 44 (by decide),
    hword 48 (by decide), hword 52 (by decide), hword 56 (by decide), hword 60 (by decide),
    hword 64 (by decide), hword 68 (by decide), hword 92 (by decide), hword 96 (by decide)]

theorem DatabaseHeader.writeTo_ok (hlen : headerLen ≤ buf.length)
    : h.writeTo buf = .ok (h.toBytes ++ buf.drop headerLen) := by
  exact if_neg (by omega)

end GraphiteSql
