import GraphiteSql.Fts5.Streams
import GraphiteSql.Fts5.Poslists

/-! What the writer has written: its leaves as drafts, and from them the stream of each key. Each
step of the writer is a step on the streams.
-/

namespace GraphiteSql.Fts5

open Lib List

variable {bytes key : Bytes} {w' : SegWriter} {s : Stream}

def addToLast (bytes : Bytes) : List (Bytes × Bytes) → List (Bytes × Bytes)
  | [] => []
  | [(key, doclist)] => [(key, doclist ++ bytes)]
  | head :: next :: rest => head :: addToLast bytes (next :: rest)

theorem addToLast_concat (bytes : Bytes) (ts : List (Bytes × Bytes)) (key doclist : Bytes)
    : addToLast bytes (ts ++ [(key, doclist)]) = ts ++ [(key, doclist ++ bytes)] := by
  induction ts with
  | nil => rfl
  | cons head tail ih =>
    cases tail with
    | nil => rfl
    | cons next rest => exact congrArg (head :: ·) ih

def lastKey (prev : Option Bytes) (ts : List (Bytes × Bytes)) : Option Bytes :=
  (ts.getLast?.map fun (key, _) => key) <|> prev

theorem termBytes_concat (prev : Option Bytes) (ts : List (Bytes × Bytes)) (key doclist : Bytes)
    : termBytes prev (ts ++ [(key, doclist)])
      = termBytes prev ts ++ (keyRecord (lastKey prev ts) key ++ doclist) := by
  induction ts generalizing prev with
  | nil => simp [termBytes, lastKey]
  | cons head tail ih =>
    obtain ⟨k, d⟩ := head
    have hlast : lastKey (some k) tail = lastKey prev ((k, d) :: tail) := by
      cases tail with
      | nil => rfl
      | cons next rest => simp [lastKey, getLast?_cons]
    rw [cons_append, termBytes, ih, termBytes, hlast]
    simp

theorem termOffs_concat (off : Nat) (prev : Option Bytes) (ts : List (Bytes × Bytes))
    (key doclist : Bytes)
    : termOffs off prev (ts ++ [(key, doclist)])
      = termOffs off prev ts ++ [off + (termBytes prev ts).length] := by
  induction ts generalizing off prev with
  | nil => rfl
  | cons head tail ih =>
    obtain ⟨k, d⟩ := head
    simp only [cons_append, termOffs, ih, termBytes, length_append, Nat.add_assoc]

namespace Draft

variable (d : Draft)

def add (bytes : Bytes) : Draft :=
  if d.terms ≠ [] then { d with terms := addToLast bytes d.terms }
  else if d.resumed ≠ [] then { d with resumed := d.resumed ++ bytes }
  else { d with carry := d.carry ++ bytes }

def fresh : Bool :=
  decide (d.resumed = [] ∧ d.terms = [])

/-- Bytes go to the last doclist, or to the resumed or carried one of a page without terms. -/
theorem add_cases (bytes : Bytes)
    : (d.terms = [] ∧ d.resumed = [] ∧ d.add bytes = { d with carry := d.carry ++ bytes })
      ∨ (d.terms = [] ∧ d.resumed ≠ [] ∧ d.add bytes = { d with resumed := d.resumed ++ bytes })
      ∨ ∃ ts key doclist, d.terms = ts ++ [(key, doclist)]
        ∧ d.add bytes = { d with terms := ts ++ [(key, doclist ++ bytes)] } := by
  rw [add]
  rcases eq_nil_or_concat d.terms with hnil | ⟨ts, ⟨key, doclist⟩, hts⟩
  · by_cases hres : d.resumed = [] <;> simp [hnil, hres]
  · rw [concat_eq_append] at hts
    rw [if_pos (by simp [hts]), hts, addToLast_concat]
    exact .inr (.inr ⟨ts, key, doclist, rfl, rfl⟩)

theorem add_body (bytes : Bytes) : (d.add bytes).body = d.body ++ bytes := by
  obtain ⟨hnil, hres, h⟩ | ⟨hnil, -, h⟩ | ⟨ts, key, doclist, hts, h⟩ := d.add_cases bytes
  · simp [body, h, hnil, hres, termBytes]
  · simp [body, h, hnil, termBytes]
  · simp only [body, h, hts, termBytes_concat, append_assoc]

theorem add_offsets (bytes : Bytes) : (d.add bytes).offsets = d.offsets := by
  obtain ⟨hnil, -, h⟩ | ⟨hnil, -, h⟩ | ⟨ts, key, doclist, hts, h⟩ := d.add_cases bytes
  · simp [offsets, h, hnil, termOffs]
  · simp [offsets, h, hnil, termOffs]
  · simp only [offsets, termStart, h, hts, termOffs_concat]

theorem add_fresh (bytes : Bytes) : (d.add bytes).fresh = d.fresh := by
  obtain ⟨-, -, h⟩ | ⟨-, hres, h⟩ | ⟨ts, key, doclist, hts, h⟩ := d.add_cases bytes
  · rw [h]
    rfl
  · simp [fresh, h, hres]
  · simp [fresh, h, hts]

theorem add_firstRowidOff {d : Draft}
    : (d.add bytes).firstRowidOff = d.firstRowidOff := by
  obtain ⟨-, hres, h⟩ | ⟨-, hres, h⟩ | ⟨ts, key, doclist, -, h⟩ := d.add_cases bytes
  · simp [firstRowidOff, h, hres]
  · simp [firstRowidOff, h, hres]
  · rw [h]
    rfl

theorem add_lastKey (bytes : Bytes)
    : lastKey none (d.add bytes).terms = lastKey none d.terms := by
  obtain ⟨-, -, h⟩ | ⟨-, -, h⟩ | ⟨ts, key, doclist, hts, h⟩ := d.add_cases bytes
  · rw [h]
  · rw [h]
  · simp [h, hts, lastKey]

end Draft

/-- The fields of a writer that its drafts determine. -/
def SegWriter.draft (w : SegWriter) : List Bytes × Bytes × List Nat × Nat × Option Bytes × Bool :=
  (w.leaves, w.body, w.termOffsets, w.firstRowidOff, w.prevTermKey, w.firstRowidInPage)

def SegWriter.Marks (w w' : SegWriter) (bytes : Bytes) : Prop :=
  w.firstRowidInPage = true ∧ bytes ≠ [] ∧ w'.draft
    = (w.leaves, w.body ++ bytes, w.termOffsets, 4 + w.body.length, w.prevTermKey, false)

/-- The writer has finished the leaves `ds` and is on the leaf `d`. -/
structure Drafted (w : SegWriter) (ds : List Draft) (d : Draft) : Prop where
  leaves : w.leaves = ds.map Draft.bytes
  body : w.body = d.body
  offsets : w.termOffsets = d.offsets
  firstRowidOff : w.firstRowidOff = d.firstRowidOff
  prevTermKey : w.prevTermKey = lastKey none d.terms
  fresh : w.firstRowidInPage = d.fresh

namespace Drafted

variable {w : SegWriter} {ds : List Draft} {d : Draft}

section

variable (h : Drafted w ds d)

include h

theorem finishLeaf : w.finishLeaf = d.bytes := by
  rw [SegWriter.finishLeaf, Draft.bytes, h.body, h.offsets, h.firstRowidOff]

theorem flush : Drafted w.flush (ds ++ [d]) Draft.empty where
  leaves := by
    rw [SegWriter.flush, map_append, h.finishLeaf, h.leaves]
    rfl
  body := rfl
  offsets := rfl
  firstRowidOff := rfl
  prevTermKey := rfl
  fresh := rfl

theorem extend (bytes : Bytes) : Drafted (w.extend bytes) ds (d.add bytes) where
  leaves := h.leaves
  body := by rw [SegWriter.extend, h.body, d.add_body]
  offsets := h.offsets.trans (d.add_offsets bytes).symm
  firstRowidOff := h.firstRowidOff.trans d.add_firstRowidOff.symm
  prevTermKey := h.prevTermKey.trans (d.add_lastKey bytes).symm
  fresh := h.fresh.trans (d.add_fresh bytes).symm

theorem startKey (key : Bytes)
    : Drafted (w.startKey key) ds { d with terms := d.terms ++ [(key, [])] } where
  leaves := h.leaves
  body := by
    show w.body ++ keyRecord w.prevTermKey key = _
    rw [h.body, h.prevTermKey, Draft.body, Draft.body, termBytes_concat]
    simp
  offsets := by
    show w.termOffsets ++ [4 + w.body.length] = _
    rw [h.offsets, h.body, d.body_length]
    exact (termOffs_concat d.termStart none d.terms key []).symm
  firstRowidOff := h.firstRowidOff
  prevTermKey := by simp [SegWriter.startKey, lastKey]
  fresh := by simp [SegWriter.startKey, Draft.fresh]

/-- The first rowid on a leaf without terms. -/
theorem mark (hmark : w.Marks w' bytes) : Drafted w' ds { d with resumed := bytes } := by
  obtain ⟨hfresh, hne, hdraft⟩ := hmark
  simp only [SegWriter.draft, Prod.mk.injEq] at hdraft
  obtain ⟨hleaves, hbody, hoffs, hfirst, hprev, hpage⟩ := hdraft
  rw [h.fresh, Draft.fresh, decide_eq_true_eq] at hfresh
  obtain ⟨hres, hterms⟩ := hfresh
  exact {
    leaves := hleaves.trans h.leaves
    body := by
      rw [hbody, h.body, Draft.body, Draft.body, hres, hterms]
      simp [termBytes]
    offsets := by
      rw [hoffs, h.offsets, Draft.offsets, hterms]
      rfl
    firstRowidOff := by
      rw [hfirst, h.body, Draft.firstRowidOff, if_neg hne, Draft.body, hres, hterms]
      simp [termBytes]
    prevTermKey := hprev.trans h.prevTermKey
    fresh := by rw [hpage, Draft.fresh]; simp [hne] }

end

end Drafted

def Writes (w : SegWriter) (keys : List (Bytes × Stream)) : Prop :=
  ∃ ds d, Drafted w ds d ∧ keyStreams (ds ++ [d]) = keys

namespace Writes

variable {w : SegWriter} {keys : List (Bytes × Stream)}

theorem congr (h : Writes w keys) (hdraft : w'.draft = w.draft) : Writes w' keys := by
  obtain ⟨ds, d, hw, hkeys⟩ := h
  simp only [SegWriter.draft, Prod.mk.injEq] at hdraft
  obtain ⟨hleaves, hbody, hoffs, hfirst, hprev, hpage⟩ := hdraft
  exact ⟨ds, d, ⟨hleaves.trans hw.leaves, hbody.trans hw.body, hoffs.trans hw.offsets,
    hfirst.trans hw.firstRowidOff, hprev.trans hw.prevTermKey, hpage.trans hw.fresh⟩, hkeys⟩

theorem flush (h : Writes w keys) : Writes w.flush keys := by
  obtain ⟨ds, d, hw, hkeys⟩ := h
  refine ⟨ds ++ [d], Draft.empty, hw.flush, ?_⟩
  have hspill : Draft.empty.spill = id := by
    funext s
    simp [Draft.spill, Draft.empty]
  rw [keyStreams_concat, hkeys, addDraft, hspill]
  rcases eq_nil_or_concat keys with hnil | ⟨init, ⟨key, s⟩, hconcat⟩
  · rw [hnil]
    rfl
  · rw [hconcat]
    simp [Draft.keys, Draft.empty]

theorem startKey (h : Writes w keys) (key : Bytes)
    : Writes (w.startKey key) (keys ++ [(key, Stream.empty)]) := by
  obtain ⟨ds, d, hw, hkeys⟩ := h
  refine ⟨ds, _, hw.startKey key, ?_⟩
  rw [← hkeys, keyStreams_concat, keyStreams_concat, addDraft, Draft.keys, map_append,
    ← append_assoc]
  rfl

/-- Where the stream of the last key ends: in a term of the current leaf, or in what runs onto a
leaf without terms.
-/
theorem last (h : Writes w (keys ++ [(key, s)]))
    : ∃ ds d, Drafted w ds d
      ∧ ((∃ ts doclist, d.terms = ts ++ [(key, doclist)] ∧ s = Stream.empty.resume doclist
            ∧ addDraft (keyStreams ds) { d with terms := ts } = keys)
        ∨ d.terms = [] ∧ ∃ s₀, keyStreams ds = keys ++ [(key, s₀)] ∧ s = d.spill s₀) := by
  obtain ⟨ds, d, hw, hkeys⟩ := h
  refine ⟨ds, d, hw, ?_⟩
  rw [keyStreams_concat, addDraft] at hkeys
  rcases eq_nil_or_concat d.terms with hnil | ⟨ts, ⟨k, doclist⟩, hts⟩
  · refine .inr ⟨hnil, ?_⟩
    rw [Draft.keys, hnil, map_nil, append_nil] at hkeys
    rcases eq_nil_or_concat (keyStreams ds) with hempty | ⟨init, ⟨k, s₀⟩, hinit⟩
    · rw [hempty] at hkeys
      exact absurd hkeys.symm (by simp [onLast])
    rw [concat_eq_append] at hinit
    rw [hinit, onLast_concat] at hkeys
    obtain ⟨hinit', hlast⟩ := append_inj' hkeys rfl
    obtain ⟨rfl, rfl⟩ := hlast
    exact ⟨s₀, by rw [hinit, hinit'], rfl⟩
  · rw [concat_eq_append] at hts
    rw [Draft.keys, hts, map_append, ← append_assoc] at hkeys
    obtain ⟨hinit, hlast⟩ := append_inj' hkeys rfl
    obtain ⟨rfl, rfl⟩ := hlast
    exact .inl ⟨ts, doclist, hts, rfl, hinit⟩

theorem addDraft_addToLast {ds : List Draft} {d : Draft} {ts : List (Bytes × Bytes)}
    {doclist : Bytes} (hts : d.terms = ts ++ [(key, doclist)])
    (hkeys : addDraft (keyStreams ds) { d with terms := ts } = keys) (bytes : Bytes)
    : keyStreams (ds ++ [d.add bytes])
      = keys ++ [(key, Stream.empty.resume (doclist ++ bytes))] := by
  rw [← hkeys, keyStreams_concat, Draft.add, if_pos (by simp [hts]), hts, addToLast_concat,
    addDraft, Draft.keys, map_append, ← append_assoc]
  rfl

section

variable (h : Writes w (keys ++ [(key, s)]))

include h

theorem extend (hs : s.1 ≠ [])
    (bytes : Bytes) : Writes (w.extend bytes) (keys ++ [(key, s.data bytes)]) := by
  obtain ⟨ds, d, hw, hlast⟩ := h.last
  refine ⟨ds, d.add bytes, hw.extend bytes, ?_⟩
  rcases hlast with ⟨ts, doclist, hts, rfl, hkeys⟩ | ⟨hnil, s₀, hkeys, rfl⟩
  · have hdoclist : doclist ≠ [] := hs
    rw [addDraft_addToLast hts hkeys, Stream.resume_append _ hdoclist]
  have hspill : (d.add bytes).spill s₀ = (d.spill s₀).data bytes := by
    rw [Draft.add, if_neg (by simp [hnil])]
    by_cases hres : d.resumed = []
    · rw [if_neg (by simp [hres])]
      simp [Draft.spill, hres, Stream.data_data]
    · rw [if_pos hres]
      exact Stream.resume_append _ hres bytes
  have hterms : (d.add bytes).keys = [] := by
    rw [Draft.keys, Draft.add, if_neg (by simp [hnil])]
    split <;> rw [hnil, map_nil]
  rw [keyStreams_concat, hkeys, addDraft, onLast_concat, hspill, hterms, append_nil]

theorem extend_first (hs : s.1 = []) (hpage : w.firstRowidInPage = false) (bytes : Bytes)
    : Writes (w.extend bytes) (keys ++ [(key, s.resume bytes)]) := by
  obtain ⟨ds, d, hw, hlast⟩ := h.last
  refine ⟨ds, d.add bytes, hw.extend bytes, ?_⟩
  rcases hlast with ⟨ts, doclist, hts, rfl, hkeys⟩ | ⟨hnil, s₀, hkeys, rfl⟩
  · have hdoclist : doclist = [] := hs
    rw [addDraft_addToLast hts hkeys, hdoclist, Stream.resume_nil, nil_append]
  · rw [hw.fresh, Draft.fresh, decide_eq_false_iff_not] at hpage
    have hres : d.resumed = [] := (append_eq_nil_iff.mp hs).2
    exact absurd ⟨hres, hnil⟩ hpage

theorem mark (hmark : w.Marks w' bytes) : Writes w' (keys ++ [(key, s.resume bytes)]) := by
  obtain ⟨ds, d, hw, hlast⟩ := h.last
  refine ⟨ds, _, hw.mark hmark, ?_⟩
  have hpage := hmark.1
  rw [hw.fresh, Draft.fresh, decide_eq_true_eq] at hpage
  obtain ⟨hres, hterms⟩ := hpage
  rcases hlast with ⟨ts, doclist, hts, _, _⟩ | ⟨hnil, s₀, hkeys, rfl⟩
  · exact absurd (hts.symm.trans hterms) (by simp)
  · rw [keyStreams_concat, hkeys, addDraft, Draft.keys, hnil]
    simp [Draft.spill, hres]

end

end Writes

end GraphiteSql.Fts5
