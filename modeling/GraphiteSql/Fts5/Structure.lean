import GraphiteSql.Lib.Codec
import GraphiteSql.Util.Varint
import Mathlib.Data.List.Nodup

/-! The FTS5 structure record: the segments of an index by level, how a flush adds one and how
promotion moves them between levels. Integer arithmetic wraps, as it does in the release profile.
-/

namespace GraphiteSql.Fts5

open Lib List Varint

structure StructSeg where
  segid : Int64
  pgnoFirst : Int64
  pgnoLast : Int64
deriving DecidableEq, Repr

def StructSeg.size (seg : StructSeg) : Int64 :=
  1 + seg.pgnoLast - seg.pgnoFirst

/-- One level: a merge counter and its segments, the newest last. -/
structure StructLevel where
  nMerge : Int64
  segs : List StructSeg
deriving DecidableEq, Repr

structure SegStructure where
  cookie : UInt32
  writeCounter : UInt64
  levels : List StructLevel
deriving DecidableEq, Repr

-- The record

/-- A reader of the bytes that are left. -/
abbrev RecordReader := EStateM Unit Bytes

def readU64 : RecordReader Nat := fun buf =>
  match Varint.decode buf with
  | some (v, n) => .ok v (buf.drop n)
  | none => .error () buf

def readI64 : RecordReader Int64 := do
  return Varint.toI64 (← readU64)

def readTimes {α : Type} (item : RecordReader α) (n : Nat) : RecordReader (List α) :=
  (List.replicate n ()).mapM fun _ => item

def readSeg : RecordReader StructSeg :=
  return { segid := ← readI64, pgnoFirst := ← readI64, pgnoLast := ← readI64 }

def readLevel : RecordReader StructLevel :=
  return { nMerge := ← readI64, segs := ← readTimes readSeg (← readU64) }

namespace SegStructure

variable (s : SegStructure)

/-- The segments by age: higher levels are older, and within a level the earlier ones. -/
def byAge : List StructLevel → List StructSeg
  | [] => []
  | level :: above => byAge above ++ level.segs

def oldestFirst : List StructSeg :=
  byAge s.levels

def readStructure (cookie : UInt32) : RecordReader SegStructure := do
  let nLevel ← readU64
  let nSegment ← readU64
  let writeCounter ← readU64
  let levels ← readTimes readLevel nLevel
  let s : SegStructure := ⟨cookie, UInt64.ofNat writeCounter, levels⟩
  if s.oldestFirst.length ≠ nSegment then throw () else return s

def parse : Bytes → Option SegStructure
  | a :: b :: c :: d :: rest =>
      match readStructure (u32OfBytes a b c d) rest with
      | .ok s _ => some s
      | .error _ _ => none
  | _ => none

def encodeSeg (seg : StructSeg) : Bytes :=
  Varint.encodeI64 seg.segid ++ (Varint.encodeI64 seg.pgnoFirst ++ Varint.encodeI64 seg.pgnoLast)

def encodeLevel (level : StructLevel) : Bytes :=
  Varint.encodeI64 level.nMerge ++ (Varint.encode level.segs.length ++ level.segs.flatMap encodeSeg)

def encode : Bytes :=
  u32ToBytes s.cookie ++ (Varint.encode s.levels.length ++ (Varint.encode s.oldestFirst.length
    ++ (Varint.encode s.writeCounter.toNat ++ s.levels.flatMap encodeLevel)))

-- Adding and promoting segments

/-- The first of `1, 2, …` that is not in use. One of the first `used.length + 1` is not. -/
def allocateSegid : Int64 :=
  let used := (s.oldestFirst.map StructSeg.segid).filter (0 < ·)
  let ids := (List.range' 1 (used.length + 1)).map Int64.ofNat
  (ids.find? (· ∉ used)).getD 0

/-- Moves segments of at most `sz` leaves, the newest first, from a level to the front of the
target. Returns what is left, the newest first, and the target.
-/
def pull (sz : Int64) : (newest target : List StructSeg) → List StructSeg × List StructSeg
  | [], target => ([], target)
  | seg :: older, target =>
      if sz < seg.size then (seg :: older, target) else pull sz older (seg :: target)

/-- Pulls from the levels above the target until one is being merged or keeps a segment. -/
def pullLevels (sz : Int64) : List StructSeg → List StructLevel → List StructSeg × List StructLevel
  | target, [] => (target, [])
  | target, level :: above =>
      if level.nMerge ≠ 0 then (target, level :: above)
      else
        let pulled := pull sz level.segs.reverse target
        let rest := if pulled.1 = [] then pullLevels sz pulled.2 above else (pulled.2, above)
        (rest.1, { level with segs := pulled.1.reverse } :: rest.2)

def promoteTo (iPromote : Nat) (szPromote : Int64) : SegStructure :=
  match s.levels.drop iPromote with
  | [] => s
  | level :: above =>
      if level.nMerge ≠ 0 then s
      else
        let pulled := pullLevels szPromote level.segs above
        { s with levels := s.levels.take iPromote ++ { level with segs := pulled.1 } :: pulled.2 }

def segsAt (i : Nat) : List StructSeg :=
  (s.levels[i]?.map StructLevel.segs).getD []

def promote (iLvl : Nat) : SegStructure :=
  match (s.segsAt iLvl).getLast? with
  | none => s
  | some last =>
      match (List.range iLvl).reverse.find? fun i => !(s.segsAt i).isEmpty with
      | none => s.promoteTo iLvl last.size
      | some iTst =>
          let szMax := ((s.segsAt iTst).map StructSeg.size).max?.getD 0
          if last.size ≤ szMax then s.promoteTo iTst szMax else s.promoteTo iLvl last.size

def promoteAfterMerge (iLvl : Nat) : SegStructure :=
  if iLvl < s.levels.length then s.promote iLvl else s

def appendLevel0 (segid nLeaves : Int64) : SegStructure :=
  let seg : StructSeg := { segid := segid, pgnoFirst := 1, pgnoLast := nLeaves }
  let levels := match s.levels with
    | [] => [{ nMerge := 0, segs := [seg] }]
    | level :: above => { level with segs := level.segs ++ [seg] } :: above
  promote { s with writeCounter := s.writeCounter + nLeaves.toUInt64, levels := levels } 0

inductive Step where
  | append (nLeaves : Int64)
  | promote (iLvl : Nat)

def step : Step → SegStructure
  | .append nLeaves => s.appendLevel0 s.allocateSegid nLeaves
  | .promote iLvl => s.promoteAfterMerge iLvl

def run (steps : List Step) : SegStructure :=
  steps.foldl step s

/-- The segments that a run appends. -/
def appended : SegStructure → List Step → List StructSeg
  | _, [] => []
  | s, .append nLeaves :: rest =>
      { segid := s.allocateSegid, pgnoFirst := 1, pgnoLast := nLeaves }
        :: appended (s.step (.append nLeaves)) rest
  | s, .promote iLvl :: rest => appended (s.step (.promote iLvl)) rest

-- Age

theorem pull_order (sz : Int64) (newest target : List StructSeg)
    : (pull sz newest target).1.reverse ++ (pull sz newest target).2
      = newest.reverse ++ target := by
  induction newest generalizing target with
  | nil => rfl
  | cons seg older ih =>
    rw [pull]
    split
    · rfl
    · rw [ih, reverse_cons, append_assoc, singleton_append]

theorem byAge_append (below above : List StructLevel)
    : byAge (below ++ above) = byAge above ++ byAge below := by
  induction below with
  | nil => exact (append_nil _).symm
  | cons level below ih => rw [cons_append, byAge, ih, append_assoc, byAge]

theorem pullLevels_order (sz : Int64) (target : List StructSeg) (above : List StructLevel)
    : byAge (pullLevels sz target above).2 ++ (pullLevels sz target above).1
      = byAge above ++ target := by
  induction above generalizing target with
  | nil => rfl
  | cons level above ih =>
    have hpull := pull_order sz level.segs.reverse target
    rw [reverse_reverse] at hpull
    rw [pullLevels]
    split
    · rfl
    · dsimp only
      split
      · rename_i hnil
        rw [hnil, reverse_nil, nil_append] at hpull
        rw [hnil, reverse_nil, byAge, append_nil, ih, hpull, byAge, append_assoc]
      · rw [byAge, append_assoc, hpull, byAge, append_assoc]

theorem promoteTo_oldestFirst (i : Nat) (sz : Int64)
    : (s.promoteTo i sz).oldestFirst = s.oldestFirst := by
  rw [promoteTo]
  split
  · rfl
  · rename_i level above hdrop
    split
    · rfl
    · have hlevels := take_append_drop i s.levels
      rw [hdrop] at hlevels
      conv_rhs => rw [oldestFirst, ← hlevels, byAge_append, byAge]
      rw [oldestFirst, byAge_append, byAge, pullLevels_order]

theorem promote_oldestFirst (i : Nat)
    : (s.promote i).oldestFirst = s.oldestFirst := by
  rw [promote]
  split
  · rfl
  · split
    · exact s.promoteTo_oldestFirst _ _
    · dsimp only
      split
      · exact s.promoteTo_oldestFirst _ _
      · exact s.promoteTo_oldestFirst _ _

theorem appendLevel0_oldestFirst (segid nLeaves : Int64)
    : (s.appendLevel0 segid nLeaves).oldestFirst
      = s.oldestFirst ++ [{ segid := segid, pgnoFirst := 1, pgnoLast := nLeaves }] := by
  rw [appendLevel0, promote_oldestFirst, oldestFirst, oldestFirst]
  cases s.levels with
  | nil => rfl
  | cons level above => exact (append_assoc _ _ _).symm

theorem run_oldestFirst (steps : List Step)
    : (s.run steps).oldestFirst = s.oldestFirst ++ s.appended steps := by
  induction steps generalizing s with
  | nil => exact (append_nil _).symm
  | cons step rest ih =>
    rw [run, foldl_cons, ← run, ih]
    cases step with
    | append nLeaves =>
      rw [SegStructure.step, appendLevel0_oldestFirst, append_assoc]
      rfl
    | promote iLvl =>
      have hstep : (s.step (.promote iLvl)).oldestFirst = s.oldestFirst := by
        rw [SegStructure.step, promoteAfterMerge]
        split
        · exact s.promote_oldestFirst iLvl
        · rfl
      rw [hstep]
      rfl

-- Fresh numbers

theorem pos_of_mem_ids {n : Nat} (hn : n < 2 ^ 62) {id : Int64}
    (h : id ∈ (range' 1 (n + 1)).map Int64.ofNat) : 0 < id := by
  obtain ⟨k, hk, rfl⟩ := mem_map.mp h
  rw [mem_range'_1] at hk
  rw [Int64.lt_iff_toInt_lt, Int64.toInt_ofNat_of_lt (by omega)]
  exact Int.ofNat_lt.mpr hk.1

theorem nodup_ids {n : Nat} (hn : n < 2 ^ 62)
    : ((range' 1 (n + 1)).map Int64.ofNat).Nodup := by
  refine List.Nodup.map_on (fun a ha b hb heq => ?_) (nodup_range' 1)
  rw [mem_range'_1] at ha hb
  have hint := congrArg Int64.toInt heq
  rw [Int64.toInt_ofNat_of_lt (by omega), Int64.toInt_ofNat_of_lt (by omega)] at hint
  exact Int.ofNat_inj.mp hint

theorem allocateSegid_fresh (hcount : s.oldestFirst.length < 2 ^ 62)
    : s.allocateSegid ∉ s.oldestFirst.map StructSeg.segid := by
  intro hmem
  rw [allocateSegid] at hmem
  generalize hused : (s.oldestFirst.map StructSeg.segid).filter (0 < ·) = used at hmem
  have hle := length_filter_le (0 < ·) (s.oldestFirst.map StructSeg.segid)
  rw [hused, length_map] at hle
  have hlen := Nat.lt_of_le_of_lt hle hcount
  cases hfind : ((range' 1 (used.length + 1)).map Int64.ofNat).find? (· ∉ used) with
  | none =>
    -- more distinct numbers in use than there are
    have hle := (nodup_ids hlen).length_le_of_subset fun id hid => by
      simpa using find?_eq_none.mp hfind id hid
    rw [length_map, length_range'] at hle
    omega
  | some id =>
    have hfree := find?_some hfind
    rw [hfind, Option.getD_some] at hmem
    rw [decide_eq_true_eq, ← hused] at hfree
    exact hfree (mem_filter.mpr
      ⟨hmem, decide_eq_true (pos_of_mem_ids hlen (mem_of_find?_eq_some hfind))⟩)

-- The record reads back

variable {rest : Bytes}

theorem readU64_encode {v : Nat} (hv : v < 2 ^ 64)
    : readU64 (Varint.encode v ++ rest) = .ok v rest := by
  rw [readU64, decode_encode hv, ← encode_length]
  exact congrArg (EStateM.Result.ok v) drop_left

theorem readI64_encode (v : Int64) : readI64 (Varint.encodeI64 v ++ rest) = .ok v rest := by
  rw [readI64, encodeI64, estate_bind_ok (readU64_encode v.toUInt64.toNat_lt),
    toI64_toNat]
  rfl

theorem readTimes_encode {α : Type} {item : RecordReader α} {enc : α → Bytes} {l : List α}
    (h : ∀ a ∈ l, ∀ rest, item (enc a ++ rest) = .ok a rest)
    : readTimes item l.length (l.flatMap enc ++ rest) = .ok l rest := by
  have hall : Recovers ((l.map fun _ => ()).mapM fun _ => item) (l.flatMap enc) (l.map id) _ :=
    Recovers.mapM fun a ha => .of_sound (h a ha)
  rw [map_const', map_id] at hall
  exact hall.sound (fun _ _ => trivial) rest

theorem readSeg_encode (seg : StructSeg) : readSeg (encodeSeg seg ++ rest) = .ok seg rest := by
  rw [readSeg, encodeSeg, append_assoc, append_assoc,
    estate_bind_ok (readI64_encode _), estate_bind_ok (readI64_encode _),
    estate_bind_ok (readI64_encode _)]
  rfl

theorem readLevel_encode (level : StructLevel) (hlen : level.segs.length < 2 ^ 64)
    : readLevel (encodeLevel level ++ rest) = .ok level rest := by
  rw [readLevel, encodeLevel, append_assoc, append_assoc,
    estate_bind_ok (readI64_encode _), estate_bind_ok (readU64_encode hlen),
    estate_bind_ok (readTimes_encode fun seg _ _ => readSeg_encode seg)]
  rfl

theorem length_segs_le {level : StructLevel} {levels : List StructLevel} (h : level ∈ levels)
    : level.segs.length ≤ (byAge levels).length := by
  induction levels with
  | nil => cases h
  | cons head above ih =>
    rw [byAge, length_append]
    rcases mem_cons.mp h with rfl | h
    · omega
    · have hle := ih h
      omega

theorem parse_encode (hlevels : s.levels.length < 2 ^ 64)
    (hsegs : s.oldestFirst.length < 2 ^ 64) : parse s.encode = some s := by
  have hread : readStructure s.cookie (Varint.encode s.levels.length
      ++ (Varint.encode s.oldestFirst.length
        ++ (Varint.encode s.writeCounter.toNat ++ (s.levels.flatMap encodeLevel ++ []))))
      = .ok s [] := by
    rw [readStructure, estate_bind_ok (readU64_encode hlevels),
      estate_bind_ok (readU64_encode hsegs),
      estate_bind_ok (readU64_encode s.writeCounter.toNat_lt),
      estate_bind_ok (readTimes_encode fun level hmem _ =>
        readLevel_encode level (Nat.lt_of_le_of_lt (length_segs_le hmem) hsegs)),
      UInt64.ofNat_toNat]
    exact congrFun (if_neg (not_not.mpr rfl)) []
  rw [append_nil] at hread
  have hcookie := u32OfBytes_u32ToBytes (v := s.cookie) rfl
  rw [encode, u32ToBytes, cons_append, cons_append, cons_append, cons_append,
    nil_append, parse, hcookie, hread]

/-- After any sequence of appends and promotions the next number is not in use, the segments are
the old ones and then the appended ones, in the order of their age, and the record reads back. The
bounds are those of memory.
-/
theorem bookkeeping {s : SegStructure} {steps : List Step}
    (hlevels : (s.run steps).levels.length < 2 ^ 62)
    (hsegs : (s.run steps).oldestFirst.length < 2 ^ 62)
    : (s.run steps).allocateSegid ∉ (s.run steps).oldestFirst.map StructSeg.segid
      ∧ (s.run steps).oldestFirst = s.oldestFirst ++ s.appended steps
      ∧ parse (s.run steps).encode = some (s.run steps) :=
  ⟨allocateSegid_fresh _ hsegs, s.run_oldestFirst steps, parse_encode _ (by omega) (by omega)⟩

/-- Two levels: the segment of one leaf in level 1 is promoted by the append. -/
def twoLevels : SegStructure where
  cookie := 7
  writeCounter := 9
  levels := [⟨0, [⟨3, 1, 2⟩]⟩, ⟨0, [⟨1, 1, 8⟩, ⟨2, 1, 1⟩]⟩]

theorem bookkeeping_two_levels
    : (twoLevels.run [.append 1]).levels
        = [⟨0, [⟨2, 1, 1⟩, ⟨3, 1, 2⟩, ⟨4, 1, 1⟩]⟩, ⟨0, [⟨1, 1, 8⟩]⟩]
      ∧ (twoLevels.run [.append 1]).oldestFirst
        = twoLevels.oldestFirst ++ twoLevels.appended [.append 1] :=
  ⟨by decide, (bookkeeping (by decide) (by decide)).2.1⟩

end SegStructure

end GraphiteSql.Fts5
