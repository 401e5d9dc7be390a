import GraphiteSql.Fts5.Streaming
import Mathlib.Data.List.Chain

/-! Writing a segment and reading it back: every key and posting is recovered, in bulk and in
merge mode.
-/

namespace GraphiteSql.Fts5

open Lib List Varint

variable {keys : List (Bytes × Stream)} {config : Nat × Fts5Detail × Bool}
  {term : Bytes × List Posting} {terms : List (Bytes × List Posting)} {detail : Fts5Detail}
  {es : List Entry} {w : SegWriter}

def entryStream (detail : Fts5Detail) (es : List Entry) : Stream :=
  (entriesBytes detail 0 es, absStarts detail 0 0 es)

theorem entryStream_concat (detail : Fts5Detail) (es : List Entry) (e : Entry)
    : entryStream detail (es ++ [e])
      = ((if e.absolute then (entryStream detail es).resume (encodeI64 e.posting.rowid)
          else (entryStream detail es).data
            (encodeI64 (e.posting.rowid - lastRowid 0 es))).data
        (poslist e.posting detail)) := by
  have hne := encodeI64_ne_nil e.posting.rowid
  rw [entryStream, entriesBytes_concat, absStarts_concat, Entry.bytes, Entry.rowidValue]
  cases e.absolute <;> simp [entryStream, Stream.resume, Stream.data, hne]

theorem entryStream_eq_nil
    : (entryStream detail es).1 = [] ↔ es = [] := by
  cases es with
  | nil => exact ⟨fun _ => rfl, fun _ => rfl⟩
  | cons e es =>
    refine ⟨fun h => ?_, nofun⟩
    exact absurd (append_eq_nil_iff.mp h).1 (Entry.bytes_ne_nil detail 0 e)

theorem poslist_ne_nil {p : Posting} (h : detail ≠ .none)
    : poslist p detail ≠ [] := by
  intro hnil
  cases detail with
  | full => exact encode_ne_nil _ (append_eq_nil_iff.mp hnil).1
  | columns => exact encode_ne_nil _ (append_eq_nil_iff.mp hnil).1
  | none => exact h rfl

def FirstAbsolute (es : List Entry) : Prop :=
  ∀ e ∈ es.head?, e.absolute = true

theorem FirstAbsolute.concat {e : Entry} (h : FirstAbsolute es)
    (he : es = [] → e.absolute = true) : FirstAbsolute (es ++ [e]) := by
  cases es with
  | nil =>
    intro e' he'
    rw [← Option.mem_some.mp he']
    exact he rfl
  | cons head tail => exact h

namespace Streaming

variable
  {key : Bytes}

/-- One posting more. Only the bulk writer needs a position list that is not empty. -/
theorem appendPosting {p : Posting} (leaf : Nat)
    (h : Streaming config w keys key (entryStream config.2.1 es) (lastRowid 0 es))
    (hfirst : FirstAbsolute es) (hpgsz : 4 < config.1) (hp : p.Sized config.2.1)
    (hmode : config.2.2 = false → config.2.1 ≠ .none)
    : ∃ w' e, w.appendPosting leaf p = .ok w' ∧ e.posting = p ∧ FirstAbsolute (es ++ [e])
      ∧ Streaming config w' keys key (entryStream config.2.1 (es ++ [e]))
          (lastRowid 0 (es ++ [e])) := by
  obtain ⟨absolute, habs, hrowid⟩ := h.appendRowid p.rowid leaf
  have hne : (if absolute then (entryStream config.2.1 es).resume (encodeI64 p.rowid)
      else (entryStream config.2.1 es).data (encodeI64 (p.rowid - lastRowid 0 es))).1
        ≠ [] := by
    intro hnil
    cases absolute with
    | true => exact encodeI64_ne_nil _ (append_eq_nil_iff.mp hnil).2
    | false => exact encodeI64_ne_nil _ (append_eq_nil_iff.mp hnil).2
  have hdetail : w.detail = config.2.1 := congrArg (·.2.1) h.config
  have hmerge : (w.appendRowid p.rowid leaf).mergeMode = config.2.2 :=
    congrArg (·.2.2) hrowid.config
  obtain ⟨w', hok, hw'⟩ := hrowid.appendPoslist hne (poslist_varints hp)
    (fun hbulk => poslist_ne_nil (hmode (hmerge.symm.trans hbulk))) hpgsz
  refine ⟨w', { posting := p, absolute := absolute }, ?_, rfl, ?_, ?_⟩
  · rw [SegWriter.appendPosting, hdetail]
    exact hok
  · exact hfirst.concat fun hnil => habs (entryStream_eq_nil.mpr hnil)
  · rw [entryStream_concat, lastRowid_concat]
    exact hw'

/-- All postings of a term. -/
theorem appendPostings {ps : List Posting} (leaf : Nat)
    (h : Streaming config w keys key (entryStream config.2.1 es) (lastRowid 0 es))
    (hfirst : FirstAbsolute es) (hpgsz : 4 < config.1) (hps : ∀ p ∈ ps, p.Sized config.2.1)
    (hmode : config.2.2 = false → config.2.1 ≠ .none)
    : ∃ w' es', ps.foldlM (SegWriter.appendPosting leaf) w = .ok w'
      ∧ es'.map Entry.posting = es.map Entry.posting ++ ps ∧ FirstAbsolute es'
      ∧ Streaming config w' keys key (entryStream config.2.1 es') (lastRowid 0 es') := by
  induction ps generalizing w es with
  | nil => exact ⟨w, es, rfl, (append_nil _).symm, hfirst, h⟩
  | cons p ps ih =>
    obtain ⟨w₁, e, hok, rfl, hfirst₁, hw₁⟩ :=
      h.appendPosting leaf hfirst hpgsz (hps p mem_cons_self) hmode
    obtain ⟨w', es', hrest, hes', hfirst', hw'⟩ :=
      ih hw₁ hfirst₁ fun p hp => hps p (mem_cons_of_mem _ hp)
    refine ⟨w', es', ?_, ?_, hfirst', hw'⟩
    · rw [foldlM_cons, hok, except_ok_bind, hrest]
    · rw [hes', map_append, append_assoc]
      rfl

end Streaming

def SegWriter.addKeys (w : SegWriter) (terms : List (Bytes × List Posting)) : Result SegWriter :=
  terms.foldlM (fun w term => w.addKey term.1 term.2) w

/-- What is written is the key and the postings of `term`. -/
def HoldsTerm (detail : Fts5Detail) (term : Bytes × List Posting) (written : Bytes × Stream)
    : Prop :=
  written.1 = term.1
    ∧ ∃ es, es.map Entry.posting = term.2 ∧ FirstAbsolute es
      ∧ written.2 = entryStream detail es

section

variable (h : Writes w keys)

include h

theorem roomForKey_writes
    (key : Bytes) : Writes (w.roomForKey key) keys ∧ (w.roomForKey key).config = w.config := by
  rw [SegWriter.roomForKey]
  split
  · exact ⟨h.flush, rfl⟩
  · exact ⟨h, rfl⟩

theorem finishTermDlidx_writes (leaf : Nat)
    : Writes (w.finishTermDlidx leaf) keys ∧ (w.finishTermDlidx leaf).config = w.config := by
  rw [SegWriter.finishTermDlidx]
  split
  · exact ⟨h, rfl⟩
  · split
    · exact ⟨h.congr rfl, rfl⟩
    · exact ⟨h.congr rfl, rfl⟩

/-- Adding a term adds its stream. -/
theorem addKey_writes (hconfig : w.config = config)
    (hpgsz : 4 < config.1) (hmode : config.2.2 = false → config.2.1 ≠ .none)
    (hps : ∀ p ∈ term.2, p.Sized config.2.1)
    : ∃ w' written, w.addKey term.1 term.2 = .ok w' ∧ w'.config = config
      ∧ Writes w' (keys ++ [written]) ∧ HoldsTerm config.2.1 term written := by
  obtain ⟨key, postings⟩ := term
  obtain ⟨hroom, hroomConfig⟩ := roomForKey_writes h key
  obtain ⟨w₁, hw₁⟩ : ∃ w₁, (w.roomForKey key).startKey key = w₁ := ⟨_, rfl⟩
  have hstart : Streaming config w₁ keys key (entryStream config.2.1 []) (lastRowid 0 []) := by
    rw [← hw₁]
    exact ⟨hroomConfig.trans hconfig, hroom.startKey key, rfl, fun _ hne => absurd rfl hne⟩
  obtain ⟨w₂, es, hok, hes, hfirst, hw₂⟩ :=
    hstart.appendPostings w₁.pgno (fun _ he => nomatch he) hpgsz hps hmode
  obtain ⟨hfinish, hfinishConfig⟩ := finishTermDlidx_writes hw₂.writes w₁.pgno
  refine ⟨w₂.finishTermDlidx w₁.pgno, (key, entryStream config.2.1 es), ?_,
    hfinishConfig.trans hw₂.config, hfinish, rfl, es, hes, hfirst, rfl⟩
  rw [SegWriter.addKey, hw₁, hok]
  rfl

theorem addKeys_writes (hconfig : w.config = config)
    (hpgsz : 4 < config.1) (hmode : config.2.2 = false → config.2.1 ≠ .none)
    (hps : ∀ term ∈ terms, ∀ p ∈ term.2, p.Sized config.2.1)
    : ∃ w' written, w.addKeys terms = .ok w' ∧ Writes w' (keys ++ written)
      ∧ List.Forall₂ (HoldsTerm config.2.1) terms written := by
  induction terms generalizing w keys with
  | nil => exact ⟨w, [], rfl, by rwa [append_nil], .nil⟩
  | cons term terms ih =>
    obtain ⟨w₁, written, hok, hconfig₁, hw₁, hholds⟩ :=
      addKey_writes h hconfig hpgsz hmode (hps term mem_cons_self)
    obtain ⟨w', later, hrest, hw', hall⟩ :=
      ih hw₁ hconfig₁ fun term hterm => hps term (mem_cons_of_mem _ hterm)
    refine ⟨w', written :: later, ?_, ?_, .cons hholds hall⟩
    · rw [SegWriter.addKeys, foldlM_cons, hok]
      exact hrest
    · rwa [append_assoc] at hw'

end

structure TermReadBack (detail : Fts5Detail) (term read : Bytes × List Posting) : Prop where
  key : read.1 = term.1
  postings : List.Forall₂ (ReadBack detail) term.2 read.2

/-- With `detail=none` the rowids of a term are distinct from one to the next, and none but the
first is zero, the value that would be taken for a delete marker.
-/
def Spaced (detail : Fts5Detail) (postings : List Posting) : Prop :=
  detail = .none → postings.IsChain fun p q => q.rowid ≠ p.rowid ∧ q.rowid ≠ 0

theorem Spaced.separated (h : Spaced detail (es.map Entry.posting)) : Separated detail es := by
  intro hnone
  refine ((isChain_map _).mp (h hnone)).imp fun a b hab hzero => ?_
  rw [Entry.rowidValue] at hzero
  split at hzero
  · exact hab.2 hzero
  · have hsum := Int64.sub_add_cancel b.posting.rowid a.posting.rowid
    rw [hzero, Int64.zero_add] at hsum
    exact hab.1 hsum.symm

/-- A written stream decodes to what its postings read back as. -/
theorem HoldsTerm.decode {written : Bytes × Stream}
    (h : HoldsTerm detail term written) (hkey : term.1 ≠ []) (hsized : ∀ p ∈ term.2, p.Sized detail)
    (hsorted : ∀ p ∈ term.2, SortedCols p.cols) (hspaced : Spaced detail term.2)
    : ∃ read, decodeKey detail written = some read ∧ TermReadBack detail term read := by
  obtain ⟨hk, es, hes, hfirst, hstream⟩ := h
  have hmem : ∀ e ∈ es, e.posting ∈ term.2 := fun e he => hes ▸ mem_map_of_mem he
  rw [← hes] at hspaced
  obtain ⟨out, hout, hall⟩ := @doclistEntries_entries detail es (entriesBytes detail 0 es)
    (absStarts detail 0 0 es) [] (entriesBytes detail 0 es).length 0 0 true
    (fun e he => hsized _ (hmem e he)) (fun e he => hsorted _ (hmem e he)) hspaced.separated rfl
    rfl (by simp) (fun _ => hfirst) (by omega)
  refine ⟨(written.1, out), ?_, hk, ?_⟩
  · rw [decodeKey, if_neg (by rwa [hk]), Stream.decode, hstream, entryStream, hout]
    rfl
  · rw [← hes]
    exact forall₂_map_left_iff.mpr hall

theorem Writes.finish (h : Writes w keys)
    : ∃ ds : List Draft, w.finish.1 = ds.map Draft.bytes ∧ keyStreams ds = keys := by
  obtain ⟨ds, d, hw, hkeys⟩ := h
  refine ⟨ds ++ [d], ?_, hkeys⟩
  show w.leaves ++ [w.finishLeaf] = _
  rw [hw.leaves, hw.finishLeaf, map_append]
  rfl

/-- A term that can be written and read back. -/
structure TermFits (detail : Fts5Detail) (term : Bytes × List Posting) : Prop where
  key : term.1 ≠ []
  sized : ∀ p ∈ term.2, p.Sized detail
  sorted : ∀ p ∈ term.2, SortedCols p.cols
  spaced : Spaced detail term.2

/-- What the writer wrote reads back, in each `detail` mode. -/
theorem addKeys_readBack {merge : Bool} {pgsz : Nat} {segid : Int64} (hpgsz : 4 < pgsz)
    (hmode : merge = false → detail ≠ .none) (hterms : ∀ term ∈ terms, TermFits detail term)
    : ∃ w, ({ SegWriter.new pgsz segid detail with mergeMode := merge }).addKeys terms = .ok w
      ∧ ((∀ leaf ∈ w.finish.1, leaf.length < 65536)
        → ∃ read, readSegmentPostingsFull w.finish.1 detail = some read
          ∧ List.Forall₂ (TermReadBack detail) terms read) := by
  have hnew : Writes { SegWriter.new pgsz segid detail with mergeMode := merge } [] :=
    ⟨[], Draft.empty, ⟨rfl, rfl, rfl, rfl, rfl, rfl⟩, rfl⟩
  have hconfig : ({ SegWriter.new pgsz segid detail with mergeMode := merge }).config
      = (pgsz, detail, merge) := rfl
  obtain ⟨w, written, hok, hw, hall⟩ := addKeys_writes hnew hconfig hpgsz hmode
    fun term hterm => (hterms term hterm).sized
  refine ⟨w, hok, fun hleaves => ?_⟩
  obtain ⟨ds, hds, hkeys⟩ := hw.finish
  rw [nil_append] at hkeys
  have hread : ∃ read, written.mapM (decodeKey detail) = some read
      ∧ List.Forall₂ (TermReadBack detail) terms read := by
    clear hok hw hds hkeys hleaves
    induction hall with
    | nil => exact ⟨[], rfl, .nil⟩
    | cons hholds _ ih =>
      have hfits := hterms _ mem_cons_self
      obtain ⟨read, hdecode, hback⟩ :=
        hholds.decode hfits.key hfits.sized hfits.sorted hfits.spaced
      obtain ⟨later, hlater, hrest⟩ := ih fun term hterm => hterms term (mem_cons_of_mem _ hterm)
      refine ⟨read :: later, ?_, .cons hback hrest⟩
      rw [mapM_cons, hdecode, hlater]
      rfl
  obtain ⟨read, hread, hback⟩ := hread
  refine ⟨read, ?_, hback⟩
  rw [hds, readSegmentPostingsFull_streams, hkeys, hread]
  intro d hd
  exact hleaves d.bytes (hds ▸ mem_map_of_mem hd)

/-- With positions or columns in the index, the writer never fails and every segment whose leaves
stay below 64 KiB reads back, wherever the page boundaries fall.
-/
theorem segment_round_trip {detail : Fts5Detail} {merge : Bool} {pgsz : Nat} {segid : Int64}
    {terms : List (Bytes × List Posting)} (hdetail : detail ≠ .none) (hpgsz : 64 ≤ pgsz)
    (hkeys : ∀ term ∈ terms, term.1 ≠ [])
    (hsized : ∀ term ∈ terms, ∀ p ∈ term.2, p.Sized detail)
    (hsorted : ∀ term ∈ terms, ∀ p ∈ term.2, SortedCols p.cols)
    : ∃ w, ({ SegWriter.new pgsz segid detail with mergeMode := merge }).addKeys terms = .ok w
      ∧ ((∀ leaf ∈ w.finish.1, leaf.length < 65536)
        → ∃ read, readSegmentPostingsFull w.finish.1 detail = some read
          ∧ List.Forall₂ (TermReadBack detail) terms read) :=
  addKeys_readBack (by omega) (fun _ => hdetail) fun term hterm =>
    ⟨hkeys term hterm, hsized term hterm, hsorted term hterm, fun h => absurd h hdetail⟩

/-- Two terms, with a delete marker and with positions that do not fit on one 64-byte page. -/
def sampleTerms : List (Bytes × List Posting) :=
  [([48, 97], [⟨-5, [[0, 3], [], [1]], false⟩, ⟨7, [[]], true⟩]),
    ([48, 97, 98],
      [⟨2, [[], [0, 200, 400, 600, 800, 1000, 1200, 1400, 1600, 1800, 2000, 2200, 2400, 2600,
          2800, 3000, 3200, 3400, 3600, 3800, 4000, 4200, 4400, 4600, 4800, 5000]], true⟩,
        ⟨9000000000, [[1]], false⟩])]

def sampleLeaves : Option (Nat × Bool) :=
  match ({ SegWriter.new 64 1 .full with mergeMode := true }).addKeys sampleTerms with
  | .ok w => some (w.finish.1.length, w.finish.1.all fun leaf => decide (leaf.length < 65536))
  | .error _ => none

theorem segment_round_trip_sample
    : ∃ w, ({ SegWriter.new 64 1 .full with mergeMode := true }).addKeys sampleTerms = .ok w
      ∧ w.finish.1.length = 2
      ∧ ∃ read, readSegmentPostingsFull w.finish.1 .full = some read
        ∧ List.Forall₂ (TermReadBack .full) sampleTerms read := by
  have hfits : ∀ term ∈ sampleTerms, ∀ p ∈ term.2, p.cols.length ≤ 2 ^ 32
      ∧ (poslist p .full).length < 2 ^ 63
      ∧ ∀ positions ∈ p.cols, positions.Pairwise (· ≤ ·) := by
    decide +kernel
  have hleaves : sampleLeaves = some (2, true) := by
    decide +kernel
  obtain ⟨w, hok, hread⟩ :=
    @segment_round_trip .full true 64 1 sampleTerms (by decide) (by decide) (by decide)
      (fun term hterm p hp => ⟨(hfits term hterm p hp).1, (hfits term hterm p hp).2.1⟩)
      (fun term hterm p hp => (hfits term hterm p hp).2.2)
  rw [sampleLeaves, hok] at hleaves
  simp only [Option.some.injEq, Prod.mk.injEq, all_eq_true, decide_eq_true_eq] at hleaves
  exact ⟨w, hok, hleaves.1, hread hleaves.2⟩

end GraphiteSql.Fts5
