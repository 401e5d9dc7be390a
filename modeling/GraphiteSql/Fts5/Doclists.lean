import GraphiteSql.Fts5.Poslists

/-! Doclists: the postings of one term as a byte stream in which some rowids are absolute, and
what such a stream reads back as.
-/

namespace GraphiteSql.Fts5

open Lib List Varint

variable {detail : Fts5Detail}

/-- A posting, and whether its rowid is written in full. -/
structure Entry where
  posting : Posting
  absolute : Bool

variable {es : List Entry}

def Entry.rowidValue (prev : Int64) (e : Entry) : Int64 :=
  if e.absolute then e.posting.rowid else e.posting.rowid - prev

def Entry.bytes (detail : Fts5Detail) (prev : Int64) (e : Entry) : Bytes :=
  Varint.encodeI64 (e.rowidValue prev) ++ poslist e.posting detail

def entriesBytes (detail : Fts5Detail) : (prev : Int64) → List Entry → Bytes
  | _, [] => []
  | prev, e :: es => e.bytes detail prev ++ entriesBytes detail e.posting.rowid es

/-- The offsets of the entries with an absolute rowid, when the first entry is at `off`. -/
def absStarts (detail : Fts5Detail) : (off : Nat) → (prev : Int64) → List Entry → List Nat
  | _, _, [] => []
  | off, prev, e :: es =>
      (if e.absolute then [off] else [])
        ++ absStarts detail (off + (e.bytes detail prev).length) e.posting.rowid es

def lastRowid (prev : Int64) (es : List Entry) : Int64 :=
  (es.getLast?.map fun e => e.posting.rowid).getD prev

theorem lastRowid_cons (prev : Int64) (e : Entry) (es : List Entry)
    : lastRowid prev (e :: es) = lastRowid e.posting.rowid es := by
  cases es with
  | nil => rfl
  | cons head tail =>
    rfl

@[simp]
theorem lastRowid_concat (prev : Int64) (es : List Entry) (e : Entry)
    : lastRowid prev (es ++ [e]) = e.posting.rowid := by
  simp [lastRowid]

theorem entriesBytes_concat (detail : Fts5Detail) (prev : Int64) (es : List Entry) (e : Entry)
    : entriesBytes detail prev (es ++ [e])
      = entriesBytes detail prev es ++ e.bytes detail (lastRowid prev es) := by
  induction es generalizing prev with
  | nil => simp [entriesBytes, lastRowid]
  | cons head tail ih =>
    rw [cons_append, entriesBytes, ih, entriesBytes, append_assoc, lastRowid_cons]

theorem absStarts_concat (detail : Fts5Detail) (off : Nat) (prev : Int64) (es : List Entry)
    (e : Entry)
    : absStarts detail off prev (es ++ [e])
      = absStarts detail off prev es
        ++ (if e.absolute then [off + (entriesBytes detail prev es).length] else []) := by
  induction es generalizing off prev with
  | nil => simp [absStarts, entriesBytes]
  | cons head tail ih =>
    simp only [cons_append, absStarts, ih, entriesBytes, length_append,
      append_assoc, Nat.add_assoc]

theorem absStarts_ge {off : Nat} {prev : Int64}
    : ∀ o ∈ absStarts detail off prev es, off ≤ o := by
  induction es generalizing off prev with
  | nil => nofun
  | cons e es ih =>
    intro o ho
    rcases mem_append.mp ho with ho | ho
    · split at ho
      · exact (mem_singleton.mp ho) ▸ Nat.le_refl off
      · nomatch ho
    · have hge := ih o ho
      omega

/-- `q` is what the detail level keeps of `p`. -/
structure ReadBack (detail : Fts5Detail) (p q : Posting) : Prop where
  rowid : q.rowid = p.rowid
  del : q.del = p.del
  cols : ReadsAs detail p.cols q.cols

/-- With `detail=none` no rowid after the first is stored as zero, which would read as a delete
marker of the entry before it.
-/
def Separated (detail : Fts5Detail) (es : List Entry) : Prop :=
  detail = .none → es.IsChain fun a b => b.rowidValue a.posting.rowid ≠ 0

theorem encodeI64_ne_nil (v : Int64) : encodeI64 v ≠ [] :=
  encode_ne_nil _

theorem Entry.bytes_ne_nil (detail : Fts5Detail) (prev : Int64) (e : Entry)
    : e.bytes detail prev ≠ [] := by
  intro h
  exact encodeI64_ne_nil _ (append_eq_nil_iff.mp h).1

theorem readVarint_encodeI64 {buf post : Bytes} {pos : Nat} {v : Int64}
    (h : buf.drop pos = encodeI64 v ++ post)
    : readVarint buf pos = some (v.toUInt64.toNat, pos + (encodeI64 v).length) :=
  readVarint_encode (UInt64.toNat_lt _) h

theorem mem_absStarts_self {before : List Nat} {pos : Nat} {prev : Int64}
    {e : Entry} (hbefore : ∀ o ∈ before, o < pos)
    : pos ∈ before ++ absStarts detail pos prev (e :: es) ↔ e.absolute = true := by
  have hpos := length_pos_of_ne_nil (Entry.bytes_ne_nil detail prev e)
  constructor
  · intro h
    rcases mem_append.mp h with h | h
    · exact absurd (hbefore pos h) (Nat.lt_irrefl pos)
    rcases mem_append.mp h with h | h
    · by_contra habs
      rw [if_neg habs] at h
      nomatch h
    · have hge := absStarts_ge pos h
      omega
  · intro h
    exact mem_append_right _ (mem_append_left _ (by simp [h]))

theorem Entry.head_ne_zero {prev : Int64} {e : Entry}
    (h : e.rowidValue prev ≠ 0) (post : Bytes) : (e.bytes detail prev ++ post)[0]? ≠ some 0 := by
  rw [Entry.bytes, append_assoc]
  refine head_ne (UInt64.toNat_lt _) (by decide) (fun hzero => h ?_) _
  have hnat : (e.rowidValue prev).toUInt64.toNat = (0 : UInt64).toNat := hzero
  exact Int64.toBitVec_inj.mp (congrArg UInt64.toBitVec (UInt64.toNat_inj.mp hnat))

/-- The postings of a stream of entries, from a position where one begins. -/
theorem doclistEntries_entries {buf : Bytes} {absAt before : List Nat}
    {fuel pos : Nat} {prev : Int64} {first : Bool}
    (hsized : ∀ e ∈ es, e.posting.Sized detail) (hsorted : ∀ e ∈ es, SortedCols e.posting.cols)
    (hsep : Separated detail es) (hbuf : buf.drop pos = entriesBytes detail prev es)
    (habs : absAt = before ++ absStarts detail pos prev es) (hbefore : ∀ o ∈ before, o < pos)
    (hfirst : first = true → ∀ e ∈ es.head?, e.absolute = true) (hfuel : buf.length ≤ pos + fuel)
    : ∃ out, doclistEntries detail buf absAt fuel pos prev first = some out
      ∧ List.Forall₂ (fun e q => ReadBack detail e.posting q) es out := by
  induction es generalizing before fuel pos prev first with
  | nil =>
    refine ⟨[], ?_, .nil⟩
    have hend : buf.length ≤ pos := drop_eq_nil_iff.mp hbuf
    cases fuel with
    | zero => rfl
    | succ fuel => rw [doclistEntries, if_neg (by omega)]
  | cons e es ih =>
    rw [entriesBytes] at hbuf
    have hlen := length_of_drop (Entry.bytes_ne_nil detail prev e) hbuf
    have hpos := length_pos_of_ne_nil (Entry.bytes_ne_nil detail prev e)
    have hnext := drop_after hbuf
    have hrest : ∀ o ∈ before ++ (if e.absolute then [pos] else []),
        o < pos + (e.bytes detail prev).length := by
      intro o ho
      rcases mem_append.mp ho with ho | ho
      · have hlt := hbefore o ho
        omega
      split at ho
      · rw [mem_singleton.mp ho]
        omega
      · nomatch ho
    obtain ⟨fuel, rfl⟩ : ∃ k, fuel = k + 1 := ⟨fuel - 1, by omega⟩
    obtain ⟨out, hout, hall⟩ := @ih (before ++ (if e.absolute then [pos] else [])) fuel
      (pos + (e.bytes detail prev).length) e.posting.rowid false
      (fun e he => hsized e (mem_cons_of_mem _ he))
      (fun e he => hsorted e (mem_cons_of_mem _ he))
        (fun h => isChain_of_isChain_cons (hsep h)) hnext
      (by rw [habs, absStarts, append_assoc]) hrest (by simp) (by omega)
    have hbytes := hbuf
    rw [Entry.bytes, append_assoc] at hbytes
    have hread := readVarint_encodeI64 hbytes
    have hpost : detail = .none → (entriesBytes detail e.posting.rowid es)[0]? ≠ some 0 := by
      intro hnone
      cases es with
      | nil => simp [entriesBytes]
      | cons e' es => exact Entry.head_ne_zero (isChain_cons_cons.mp (hsep hnone)).1 _
    obtain ⟨cols, hcols, hreads⟩ := decodePoslistKeepdel_poslist (hsized e mem_cons_self)
      (hsorted e mem_cons_self) hpost (drop_after hbytes)
    have habsolute : (first = true ∨ pos ∈ absAt) ↔ e.absolute = true := by
      rw [habs, mem_absStarts_self hbefore]
      exact ⟨fun h => h.elim (fun h => hfirst h e rfl) id, .inr⟩
    refine ⟨⟨e.posting.rowid, cols, e.posting.del⟩ :: out, ?_, .cons ⟨rfl, rfl, hreads⟩ hall⟩
    have hrowid : (if first = true ∨ pos ∈ absAt then toI64 (e.rowidValue prev).toUInt64.toNat
        else prev + toI64 (e.rowidValue prev).toUInt64.toNat) = e.posting.rowid := by
      rw [toI64_toNat, Entry.rowidValue]
      by_cases h : e.absolute = true
      · rw [if_pos (habsolute.mpr h), if_pos h]
      · rw [if_neg (fun h' => h (habsolute.mp h')), if_neg h, Int64.add_comm, Int64.sub_add_cancel]
    have hstop : pos + (encodeI64 (e.rowidValue prev)).length
        + (poslist e.posting detail).length = pos + (e.bytes detail prev).length := by
      rw [Entry.bytes, length_append, Nat.add_assoc]
    rw [doclistEntries, if_pos (by omega), hread]
    simp only [Option.bind_eq_bind, Option.bind_some]
    rw [hcols]
    simp only [Option.bind_some, hrowid, hstop]
    rw [if_neg (by omega), hout]
    rfl

end GraphiteSql.Fts5
