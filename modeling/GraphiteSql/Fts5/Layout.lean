import GraphiteSql.Fts5.SegmentReader
import GraphiteSql.Fts5.Varints

/-! The layout of a leaf page: what the bytes on it stand for, and that parsing the page finds
the parts again.
-/

namespace GraphiteSql.Fts5

open Lib List Nat Option Varint

variable {leaf : Bytes} {footerOff : Nat}

/-- What stands on a leaf: the rest of a posting begun before, the postings that resume the
doclist of a term begun before, and the terms with the part of their doclists on the leaf.
-/
structure Draft where
  carry : Bytes
  resumed : Bytes
  terms : List (Bytes × Bytes)

def termBytes : (prev : Option Bytes) → List (Bytes × Bytes) → Bytes
  | _, [] => []
  | prev, (key, doclist) :: rest =>
      keyRecord prev key ++ (doclist ++ termBytes (some key) rest)

def termOffs : (off : Nat) → (prev : Option Bytes) → List (Bytes × Bytes) → List Nat
  | _, _, [] => []
  | off, prev, (key, doclist) :: rest =>
      off :: termOffs (off + (keyRecord prev key).length + doclist.length) (some key) rest

def termViews : (off : Nat) → (prev : Option Bytes) → List (Bytes × Bytes) → List TermRec
  | _, _, [] => []
  | off, prev, (key, doclist) :: rest =>
      { key := key, recStart := off, doclistStart := off + (keyRecord prev key).length }
        :: termViews (off + (keyRecord prev key).length + doclist.length) (some key) rest

namespace Draft

def empty : Draft := { carry := [], resumed := [], terms := [] }

def termStart (d : Draft) : Nat :=
  4 + d.carry.length + d.resumed.length

def body (d : Draft) : Bytes :=
  d.carry ++ (d.resumed ++ termBytes none d.terms)

def offsets (d : Draft) : List Nat :=
  termOffs d.termStart none d.terms

def firstRowidOff (d : Draft) : Nat :=
  if d.resumed = [] then 0 else 4 + d.carry.length

def bytes (d : Draft) : Bytes :=
  u16ToBytes (UInt16.ofNat d.firstRowidOff) ++ u16ToBytes (UInt16.ofNat (4 + d.body.length))
    ++ d.body ++ pgidx d.offsets

def view (d : Draft) : LeafView where
  firstRowidOff := d.firstRowidOff
  footerOff := 4 + d.body.length
  terms := termViews d.termStart none d.terms

section

variable (d : Draft)

include d

theorem body_length
    : 4 + d.body.length = d.termStart + (termBytes none d.terms).length := by
  simp only [body, termStart, length_append]
  omega

theorem bytes_length : d.bytes.length = 4 + d.body.length + (pgidx d.offsets).length := by
  simp only [bytes, length_append, u16ToBytes_length]

theorem drop_body : d.bytes.drop 4 = d.body ++ pgidx d.offsets := by
  rw [bytes, append_assoc]
  exact drop_left' (by simp)

theorem drop_resumed
    : d.bytes.drop (4 + d.carry.length)
      = d.resumed ++ (termBytes none d.terms ++ pgidx d.offsets) := by
  have h := d.drop_body
  rw [body, append_assoc, append_assoc] at h
  exact drop_after h

theorem drop_terms
    : d.bytes.drop d.termStart = termBytes none d.terms ++ pgidx d.offsets :=
  drop_after d.drop_resumed

theorem drop_footer : d.bytes.drop (4 + d.body.length) = pgidx d.offsets :=
  drop_after d.drop_body

end

end Draft

theorem keyRecord_ne_nil (prev : Option Bytes) (key : Bytes) : keyRecord prev key ≠ [] := by
  intro h
  cases prev with
  | none => exact encode_ne_nil _ (append_eq_nil_iff.mp h).1
  | some prev => exact encode_ne_nil _ (append_eq_nil_iff.mp h).1

/-- The footer lists the offsets of the term records. -/
theorem footerOffsets_termOffs {fuel p prevOff off : Nat}
    {prev : Option Bytes} {ts : List (Bytes × Bytes)} (hle : prevOff ≤ off) (hoff : 4 ≤ off)
    (hend : off + (termBytes prev ts).length ≤ footerOff) (hsmall : footerOff < 2 ^ 64)
    (hbuf : leaf.drop p = pgidxFrom prevOff (termOffs off prev ts)) (hfuel : leaf.length ≤ p + fuel)
    : footerOffsets leaf footerOff fuel p prevOff = some (termOffs off prev ts) := by
  induction ts generalizing fuel p prevOff off prev with
  | nil =>
    have hend : leaf.length ≤ p := drop_eq_nil_iff.mp hbuf
    cases fuel with
    | zero => rfl
    | succ fuel =>
      rw [footerOffsets, if_neg (by omega)]
      rfl
  | cons t ts ih =>
    obtain ⟨key, doclist⟩ := t
    have hrec := length_pos_of_ne_nil (keyRecord_ne_nil prev key)
    simp only [termBytes, length_append] at hend
    have hlen := length_of_drop (encode_ne_nil _) hbuf
    have henc := encode_length_pos (off - prevOff)
    obtain ⟨fuel, rfl⟩ : ∃ k, fuel = k + 1 := ⟨fuel - 1, by omega⟩
    rw [footerOffsets, if_pos (by omega), readVarint_encode (by omega) hbuf]
    simp only [bind_eq_bind, bind_some, Nat.add_sub_cancel' hle]
    rw [if_neg (by omega), ih (by omega) (by omega) (by omega) (drop_after hbuf) (by omega)]
    rfl

theorem commonLen_le (a b : Bytes) : commonLen a b ≤ a.length ∧ commonLen a b ≤ b.length := by
  fun_induction commonLen a b with
  | case1 as b bs ih => exact ⟨succ_le_succ ih.1, succ_le_succ ih.2⟩
  | case2 => exact ⟨zero_le _, zero_le _⟩
  | case3 => exact ⟨zero_le _, zero_le _⟩

theorem take_commonLen (a b : Bytes) : b.take (commonLen a b) = a.take (commonLen a b) := by
  fun_induction commonLen a b with
  | case1 as b bs ih => rw [take_succ_cons, take_succ_cons, ih]
  | case2 => rfl
  | case3 => rfl

theorem firstRec_keyRecord {rest key : Bytes} {off : Nat}
    (hbuf : leaf.drop off = keyRecord none key ++ rest)
    (hend : off + (keyRecord none key).length ≤ footerOff) (hsmall : footerOff < 2 ^ 64)
    : firstRec leaf footerOff off = some
      { key := key, recStart := off, doclistStart := off + (keyRecord none key).length } := by
  have hlen := length_of_drop (keyRecord_ne_nil none key) hbuf
  rw [keyRecord, length_append] at hend hlen ⊢
  rw [keyRecord, append_assoc] at hbuf
  rw [firstRec, readVarint_encode (by omega) hbuf]
  simp only [bind_eq_bind, bind_some]
  rw [if_neg (by omega), slice_of_drop (by omega) (drop_after hbuf), Nat.add_assoc]
  rfl

theorem laterRec_keyRecord {rest prev key : Bytes} {off : Nat}
    (hprev : prev.length ≤ off) (hbuf : leaf.drop off = keyRecord (some prev) key ++ rest)
    (hend : off + (keyRecord (some prev) key).length ≤ footerOff) (hsmall : footerOff < 2 ^ 64)
    : laterRec leaf footerOff prev off = some
      { key := key, recStart := off,
        doclistStart := off + (keyRecord (some prev) key).length } := by
  obtain ⟨hleft, hright⟩ := commonLen_le key prev
  have hlen := length_of_drop (keyRecord_ne_nil (some prev) key) hbuf
  have hdrop : (key.drop (commonLen key prev)).length = key.length - commonLen key prev :=
    length_drop
  simp only [keyRecord, length_append, append_assoc] at hend hlen hbuf ⊢
  have hcommon := readVarint_encode (by omega) hbuf
  have hbuf := drop_after hbuf
  have hnew := readVarint_encode (by omega) hbuf
  have hbuf := drop_after hbuf
  have hsuffix := slice_of_drop (by omega) hbuf
  rw [hdrop] at hsuffix hend
  rw [laterRec, hcommon]
  simp only [bind_eq_bind, bind_some, hnew]
  rw [if_neg (by omega), hsuffix, take_commonLen]
  simp only [bind_some, take_append_drop, hdrop, Nat.add_assoc]
  rfl

theorem key_length_le {prev : Option Bytes} {key : Bytes} {off : Nat}
    (hprev : ∀ k ∈ prev, k.length ≤ off) : key.length ≤ off + (keyRecord prev key).length := by
  cases prev with
  | none =>
    rw [keyRecord, length_append]
    omega
  | some prev =>
    have hle := hprev prev rfl
    have hright := (commonLen_le key prev).2
    simp only [keyRecord, length_append, length_drop]
    omega

theorem laterRecs_termOffs {footer prev : Bytes} {off : Nat} {ts : List (Bytes × Bytes)}
    (hprev : prev.length ≤ off) (hbuf : leaf.drop off = termBytes (some prev) ts ++ footer)
    (hend : off + (termBytes (some prev) ts).length = footerOff) (hsmall : footerOff < 2 ^ 64)
    : laterRecs leaf footerOff prev (termOffs off (some prev) ts)
      = some (termViews off (some prev) ts) := by
  induction ts generalizing off prev with
  | nil => rfl
  | cons t ts ih =>
    obtain ⟨key, doclist⟩ := t
    have hkey := @key_length_le (some prev) key off (fun k hk => by
      rw [mem_some.mp hk] at hprev
      exact hprev)
    simp only [termBytes, length_append, append_assoc] at hbuf hend
    have hhead := laterRec_keyRecord hprev hbuf (by omega) hsmall
    rw [termOffs, laterRecs, hhead]
    simp only [bind_eq_bind, bind_some]
    rw [ih (by omega) (drop_after (drop_after hbuf)) (by omega)]
    rfl

theorem termRecs_termOffs {footer : Bytes} {off : Nat} {ts : List (Bytes × Bytes)}
    (hbuf : leaf.drop off = termBytes none ts ++ footer)
    (hend : off + (termBytes none ts).length = footerOff) (hsmall : footerOff < 2 ^ 64)
    : termRecs leaf footerOff (termOffs off none ts) = some (termViews off none ts) := by
  cases ts with
  | nil => rfl
  | cons t ts =>
    obtain ⟨key, doclist⟩ := t
    have hkey := @key_length_le none key off (by simp)
    simp only [termBytes, length_append, append_assoc] at hbuf hend
    have hhead := firstRec_keyRecord hbuf (by omega) hsmall
    rw [termOffs, termRecs, hhead]
    simp only [bind_eq_bind, bind_some]
    rw [laterRecs_termOffs (by omega) (drop_after (drop_after hbuf)) (by omega) hsmall]
    rfl

theorem toNat_u16 {n : Nat} (h : n < 65536) : (UInt16.ofNat n).toNat = n :=
  UInt16.toNat_ofNat_of_lt' h

/-- A leaf page below 64 KiB parses into its parts. -/
theorem Draft.parseLeaf_bytes {d : Draft} (h : d.bytes.length < 65536)
    : parseLeaf d.bytes = some d.view := by
  have hlen := d.bytes_length
  have hbody := d.body_length
  have hstart : d.termStart = 4 + d.carry.length + d.resumed.length := rfl
  have hheader : d.bytes.drop 0 = u16ToBytes (UInt16.ofNat d.firstRowidOff)
      ++ (u16ToBytes (UInt16.ofNat (4 + d.body.length)) ++ (d.body ++ pgidx d.offsets)) := by
    rw [drop_zero, bytes, append_assoc, append_assoc]
  have hfirst : be16 d.bytes 0 = some (UInt16.ofNat d.firstRowidOff) :=
    be16_eq_some.mpr (slice_of_drop (zero_le _) hheader)
  have hsecond : be16 d.bytes 2 = some (UInt16.ofNat (4 + d.body.length)) :=
    be16_eq_some.mpr (slice_of_drop (by rw [u16ToBytes_length]; omega) (drop_after hheader))
  have hrowid : d.firstRowidOff ≤ 4 + d.body.length
      ∧ (d.firstRowidOff ≠ 0 → 4 ≤ d.firstRowidOff) := by
    rw [firstRowidOff]
    split <;> omega
  have hoffs := @footerOffsets_termOffs d.bytes (4 + d.body.length)
    (d.bytes.length - (4 + d.body.length)) (4 + d.body.length) 0 d.termStart none d.terms
    (by omega) (by omega) (by omega) (by omega) d.drop_footer (by omega)
  have hfirstOff := @toNat_u16 d.firstRowidOff (by omega)
  have hfooterOff := @toNat_u16 (4 + d.body.length) (by omega)
  rw [parseLeaf, hfirst]
  simp only [bind_eq_bind, bind_some, hsecond, hfirstOff, hfooterOff]
  rw [if_neg (by omega), if_neg (by omega), hoffs]
  simp only [bind_some]
  rw [termRecs_termOffs d.drop_terms d.body_length.symm (by omega)]
  rfl

end GraphiteSql.Fts5
