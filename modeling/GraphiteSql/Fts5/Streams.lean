import GraphiteSql.Fts5.Layout

/-! The doclist of each key as one stream of bytes: which leaves it runs over, and that reading a
segment decodes exactly these streams.
-/

namespace GraphiteSql.Fts5

open Lib List Option

abbrev Stream := Bytes × List Nat

namespace Stream

variable (s : Stream)

def empty : Stream := ([], [])

def data (bytes : Bytes) : Stream :=
  (s.1 ++ bytes, s.2)

def resume (bytes : Bytes) : Stream :=
  (s.1 ++ bytes, if bytes ≠ [] then s.2 ++ [s.1.length] else s.2)

@[simp]
theorem data_nil : s.data [] = s := by
  simp [data]

@[simp]
theorem resume_nil : s.resume [] = s := by
  simp [resume]

theorem data_data (a b : Bytes) : (s.data a).data b = s.data (a ++ b) := by
  simp [data]

theorem resume_append {a : Bytes} (ha : a ≠ []) (b : Bytes)
    : s.resume (a ++ b) = (s.resume a).data b := by
  simp [resume, data, ha]

def run (r : DoclistRun) : Stream :=
  if r.absStart then s.resume r.bytes else s.data r.bytes

end Stream

theorem flattenRuns_eq (runs : List DoclistRun)
    : flattenRuns runs = runs.foldl Stream.run Stream.empty := by
  rw [flattenRuns]
  congr 1
  funext s r
  obtain ⟨bytes, absStart⟩ := r
  cases absStart <;> simp [Stream.run, Stream.data, Stream.resume]

def Stream.decode (detail : Fts5Detail) (s : Stream) : Option (List Posting) :=
  doclistEntries detail s.1 s.2 s.1.length 0 0 true

def onLast (f : Stream → Stream) : List (Bytes × Stream) → List (Bytes × Stream)
  | [] => []
  | [(key, s)] => [(key, f s)]
  | head :: next :: rest => head :: onLast f (next :: rest)

@[simp]
theorem onLast_concat (f : Stream → Stream) (keys : List (Bytes × Stream)) (key : Bytes)
    (s : Stream) : onLast f (keys ++ [(key, s)]) = keys ++ [(key, f s)] := by
  induction keys with
  | nil => rfl
  | cons head tail ih =>
    cases tail with
    | nil => rfl
    | cons next rest => exact congrArg (head :: ·) ih

def Draft.spill (d : Draft) (s : Stream) : Stream :=
  (s.data d.carry).resume d.resumed

def Draft.keys (d : Draft) : List (Bytes × Stream) :=
  d.terms.map fun (key, doclist) => (key, Stream.empty.resume doclist)

def addDraft (keys : List (Bytes × Stream)) (d : Draft) : List (Bytes × Stream) :=
  onLast d.spill keys ++ d.keys

def keyStreams (ds : List Draft) : List (Bytes × Stream) :=
  ds.foldl addDraft []

theorem keyStreams_concat (ds : List Draft) (d : Draft)
    : keyStreams (ds ++ [d]) = addDraft (keyStreams ds) d := by
  rw [keyStreams, foldl_append]
  rfl

/-- A stream that runs onto the given leaves, up to the first one with a term. -/
def spillStream (s : Stream) : List Draft → Stream
  | [] => s
  | d :: ds => if d.terms = [] then spillStream (d.spill s) ds else d.spill s

def leafStreams (ds : List Draft) : List (Bytes × Bytes) → List (Bytes × Stream)
  | [] => []
  | [(key, doclist)] => [(key, spillStream (Stream.empty.resume doclist) ds)]
  | (key, doclist) :: next :: rest =>
      (key, Stream.empty.resume doclist) :: leafStreams ds (next :: rest)

theorem leafStreams_concat (ds : List Draft) (ts : List (Bytes × Bytes)) (key doclist : Bytes)
    : leafStreams ds (ts ++ [(key, doclist)])
      = (ts.map fun (key, doclist) => (key, Stream.empty.resume doclist))
        ++ [(key, spillStream (Stream.empty.resume doclist) ds)] := by
  induction ts with
  | nil => rfl
  | cons head tail ih =>
    cases tail with
    | nil => rfl
    | cons next rest => exact congrArg (_ :: ·) ih

/-- The leaves after an open key extend its stream, then bring keys of their own. -/
theorem foldl_addDraft (keys : List (Bytes × Stream)) (key : Bytes) (s : Stream) (ds : List Draft)
    : ds.foldl addDraft (keys ++ [(key, s)])
      = keys ++ (key, spillStream s ds) :: keyStreams ds := by
  induction ds generalizing keys key s with
  | nil => rfl
  | cons d ds ih =>
    rw [foldl_cons, addDraft, onLast_concat, keyStreams, foldl_cons, spillStream]
    rcases eq_nil_or_concat d.terms with hnil | ⟨ts, ⟨last, doclist⟩, hts⟩
    · have hkeys : d.keys = [] := by rw [Draft.keys, hnil, map_nil]
      rw [if_pos hnil, hkeys, append_nil, ih, addDraft, hkeys]
      rfl
    have hne : d.terms ≠ [] := by simp [hts]
    have hkeys : d.keys = (ts.map fun (key, doclist) => (key, Stream.empty.resume doclist))
        ++ [(last, Stream.empty.resume doclist)] := by
      rw [Draft.keys, hts, concat_eq_append, map_append]
      rfl
    rw [if_neg hne, addDraft, hkeys, ← append_assoc, ih, onLast, nil_append, ih]
    simp

theorem keyStreams_cons (d : Draft) (ds : List Draft)
    : keyStreams (d :: ds) = leafStreams ds d.terms ++ keyStreams ds := by
  rw [keyStreams, foldl_cons, addDraft, onLast, nil_append, Draft.keys]
  rcases eq_nil_or_concat d.terms with hnil | ⟨ts, ⟨last, doclist⟩, hts⟩
  · rw [hnil]
    rfl
  · rw [hts, concat_eq_append, map_append, map_singleton, foldl_addDraft,
      leafStreams_concat]
    simp

def Draft.page (d : Draft) : Bytes × LeafView :=
  (d.bytes, d.view)

theorem between_of_drop {leaf x y : Bytes} {start stop : Nat} (hstart : start ≤ leaf.length)
    (h : leaf.drop start = x ++ y) (hstop : stop = start + x.length)
    : between leaf start stop = some x := by
  rw [between, if_pos (by omega), hstop, Nat.add_sub_cancel_left, slice_of_drop hstart h]

theorem termViews_head (off : Nat) (prev : Option Bytes) (ts : List (Bytes × Bytes))
    : (termViews off prev ts).head?.map TermRec.recStart = if ts = [] then none else some off := by
  cases ts with
  | nil => rfl
  | cons t ts => rfl

section Parts

variable (d : Draft)

theorem Draft.view_head
    : (d.view.terms.head?.map TermRec.recStart) = if d.terms = [] then none else some d.termStart :=
  termViews_head _ _ _

theorem Draft.view_boundary
    : (d.view.terms.head?.map TermRec.recStart).getD d.view.footerOff = d.termStart := by
  rw [d.view_head]
  split
  · rename_i hnil
    exact d.body_length.trans (by rw [hnil, termBytes, length_nil, Nat.add_zero])
  · rfl

theorem Draft.view_tailEnd
    : (if d.view.firstRowidOff = 0 then d.termStart else d.view.firstRowidOff)
      = 4 + d.carry.length := by
  rw [Draft.view, Draft.firstRowidOff]
  by_cases hnil : d.resumed = []
  · simp [hnil, Draft.termStart]
  · simp [hnil]

theorem Draft.between_carry : between d.bytes 4 (4 + d.carry.length) = some d.carry := by
  have hlen := d.bytes_length
  have h := d.drop_body
  rw [Draft.body, append_assoc] at h
  exact between_of_drop (by omega) h rfl

theorem Draft.between_resumed
    : between d.bytes (4 + d.carry.length) d.termStart = some d.resumed := by
  have hlen := d.bytes_length
  have hbody := d.body_length
  have hstart : d.termStart = 4 + d.carry.length + d.resumed.length := rfl
  exact between_of_drop (by omega) d.drop_resumed hstart

theorem Draft.resumed_run
    : ∃ runs, resumedRun d.bytes d.view d.termStart = some runs
      ∧ ∀ s : Stream, runs.foldl Stream.run s = s.resume d.resumed := by
  have hfirst : d.view.firstRowidOff = if d.resumed = [] then 0 else 4 + d.carry.length := rfl
  by_cases hnil : d.resumed = []
  · rw [resumedRun, hfirst, if_pos hnil]
    exact ⟨[], rfl, fun s => by rw [hnil, Stream.resume_nil]; rfl⟩
  · rw [resumedRun, hfirst, if_neg hnil, if_neg (by omega), d.between_resumed]
    exact ⟨[{ bytes := d.resumed, absStart := true }], rfl, fun s => rfl⟩

end Parts

/-- The runs of a spilled doclist make up the stream over the leaves. -/
theorem spillRuns_pages (ds : List Draft)
    : ∃ runs, spillRuns (ds.map Draft.page) = some runs
      ∧ ∀ s : Stream, runs.foldl Stream.run s = spillStream s ds := by
  induction ds with
  | nil => exact ⟨[], rfl, fun _ => rfl⟩
  | cons d ds ih =>
    obtain ⟨later, hlater, hlaterStream⟩ := ih
    obtain ⟨resumed, hresumed, hresumedStream⟩ := d.resumed_run
    have hbody := d.body_length
    have hstart : d.termStart = 4 + d.carry.length + d.resumed.length := rfl
    have hfooter : d.view.footerOff = 4 + d.body.length := rfl
    have hrest : (if (if d.terms = [] then none else some d.termStart).isSome then some []
        else spillRuns (ds.map Draft.page)) = some (if d.terms = [] then later else []) := by
      by_cases hnil : d.terms = []
      · simp [hnil, hlater]
      · simp [hnil]
    refine ⟨{ bytes := d.carry, absStart := false } :: resumed
      ++ (if d.terms = [] then later else []), ?_, fun s => ?_⟩
    · rw [map_cons, Draft.page, spillRuns]
      simp only [d.view_boundary, d.view_tailEnd]
      rw [if_neg (by omega), d.between_carry]
      rw [hresumed]
      rw [d.view_head, hrest]
      rfl
    rw [foldl_append, foldl_cons, hresumedStream, spillStream]
    by_cases hnil : d.terms = []
    · rw [if_pos hnil, if_pos hnil, hlaterStream]
      rfl
    · rw [if_neg hnil, if_neg hnil]
      rfl

/-- A key with the postings its stream decodes to. An empty key is refused. -/
def decodeKey (detail : Fts5Detail) (entry : Bytes × Stream) : Option (Bytes × List Posting) :=
  if entry.1 = [] then none else (entry.2.decode detail).map fun postings => (entry.1, postings)

/-- The runs of a doclist that begins on a leaf make up its stream. -/
theorem gatherDoclistRuns_stream {leaf footer key doclist : Bytes} {off : Nat}
    {rest : List (Bytes × Bytes)} (view : LeafView) (ds : List Draft) (hoff : off ≤ leaf.length)
    (hbuf : leaf.drop off = doclist ++ (termBytes (some key) rest ++ footer))
    (hend : view.footerOff = off + doclist.length + (termBytes (some key) rest).length)
    : ∃ runs,
      gatherDoclistRuns leaf view
          ((termViews (off + doclist.length) (some key) rest).head?.map TermRec.recStart) off
          (ds.map Draft.page) = some runs
        ∧ flattenRuns runs
          = if rest = [] then spillStream (Stream.empty.resume doclist) ds
            else Stream.empty.resume doclist := by
  obtain ⟨later, hlater, hstream⟩ := spillRuns_pages ds
  have hfirst := between_of_drop hoff hbuf rfl
  rw [termViews_head]
  by_cases hnil : rest = []
  · rw [if_pos hnil, if_pos hnil]
    rw [hnil, termBytes, length_nil, Nat.add_zero] at hend
    refine ⟨{ bytes := doclist, absStart := true } :: later, ?_, ?_⟩
    · rw [gatherDoclistRuns]
      simp only [getD_none, hend]
      rw [hfirst]
      simp [hlater]
    · rw [flattenRuns_eq, foldl_cons, hstream]
      rfl
  rw [if_neg hnil, if_neg hnil]
  refine ⟨[{ bytes := doclist, absStart := true }], ?_, ?_⟩
  · rw [gatherDoclistRuns]
    simp only [getD_some]
    rw [if_neg (by omega), hfirst]
    rfl
  · rw [flattenRuns_eq]
    rfl

/-- The terms of a leaf decode as their streams. -/
theorem leafPostings_streams {detail : Fts5Detail} {leaf footer : Bytes} {view : LeafView}
    {off : Nat} {prev : Option Bytes} {ts : List (Bytes × Bytes)} (ds : List Draft)
    (hoff : off ≤ leaf.length) (hbuf : leaf.drop off = termBytes prev ts ++ footer)
    (hend : view.footerOff = off + (termBytes prev ts).length)
    : leafPostings detail leaf view (ds.map Draft.page) (termViews off prev ts)
      = (leafStreams ds ts).mapM (decodeKey detail) := by
  induction ts generalizing off prev with
  | nil => rfl
  | cons t ts ih =>
    obtain ⟨key, doclist⟩ := t
    simp only [termBytes, length_append, append_assoc] at hbuf hend
    have hlen := length_of_drop (keyRecord_ne_nil prev key) hbuf
    simp only [length_append] at hlen
    have hbuf := drop_after hbuf
    obtain ⟨runs, hruns, hflat⟩ := gatherDoclistRuns_stream view ds (by omega) hbuf (by omega)
    have hrest := @ih _ (some key) (by omega) (drop_after hbuf) (by omega)
    have hstreams : leafStreams ds ((key, doclist) :: ts)
        = (key, flattenRuns runs) :: leafStreams ds ts := by
      rw [hflat]
      cases ts with
      | nil => rfl
      | cons next rest => rfl
    rw [termViews, leafPostings, hstreams, mapM_cons, decodeKey]
    dsimp only
    by_cases hkey : key = []
    · rw [if_pos hkey, if_pos hkey]
      rfl
    rw [if_neg hkey, if_neg hkey, hruns, hrest]
    simp only [bind_eq_bind, bind_some, decodeDoclistKeepdel, Stream.decode]
    cases doclistEntries detail (flattenRuns runs).1 (flattenRuns runs).2
      (flattenRuns runs).1.length 0 0 true <;> rfl

theorem leavesPostings_streams (detail : Fts5Detail) (ds : List Draft)
    : leavesPostings detail (ds.map Draft.page) = (keyStreams ds).mapM (decodeKey detail) := by
  induction ds with
  | nil => rfl
  | cons d ds ih =>
    have hlen := d.bytes_length
    have hbody := d.body_length
    have hhere : leafPostings detail d.bytes d.view (ds.map Draft.page) d.view.terms
        = (leafStreams ds d.terms).mapM (decodeKey detail) :=
      leafPostings_streams ds (by omega) d.drop_terms hbody
    rw [map_cons, Draft.page, leavesPostings, hhere, ih, keyStreams_cons, mapM_append]

theorem readSegmentPostingsFull_streams {detail : Fts5Detail} {ds : List Draft}
    (h : ∀ d ∈ ds, d.bytes.length < 65536)
    : readSegmentPostingsFull (ds.map Draft.bytes) detail
      = (keyStreams ds).mapM (decodeKey detail) := by
  have hviews : (ds.map Draft.bytes).mapM parseLeaf = some (ds.map Draft.view) := by
    induction ds with
    | nil => rfl
    | cons d ds ih =>
      rw [map_cons, mapM_cons, Draft.parseLeaf_bytes (h d mem_cons_self),
        ih fun d hd => h d (mem_cons_of_mem _ hd)]
      rfl
  have hzip : (ds.map Draft.bytes).zip (ds.map Draft.view) = ds.map Draft.page := by
    rw [zip_map']
    rfl
  rw [readSegmentPostingsFull, hviews]
  simp only [bind_eq_bind, bind_some]
  rw [hzip, leavesPostings_streams]

end GraphiteSql.Fts5
