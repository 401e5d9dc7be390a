import GraphiteSql.Session.ConcatMerge
import GraphiteSql.Session.Recorder

/-! The tables of a concatenation hold groups: a table's hash has the records of a group, each row
once, and adding a change merges it into the group.
-/

namespace GraphiteSql.Session

open Lib List Option

variable {t : ConcatTable} {g : Group} {chains bs : List (List (Bool × ChangeRecord))}

def entryKey (pkFlags : Bytes) (p : Bool × ChangeRecord) : List Value :=
  p.2.key pkFlags

/-- The header of a group can be written and read. -/
structure Group.Headed (g : Group) : Prop where
  name : GoodName g.name
  columns : 0 < g.ncol
  fits : g.ncol < 2 ^ 56
  flags : g.pkFlags.length = g.ncol

def Group.Collectable (g : Group) : Prop :=
  ∀ p ∈ g.records, p.2.Collectable g.pkFlags

/-- Every row has at most one record in a group. -/
def Group.Distinct (g : Group) : Prop :=
  (g.records.map (entryKey g.pkFlags)).Nodup

/-- `t` has the records of `g`, hashed into `chains`. -/
structure Holds (t : ConcatTable) (g : Group) (chains : List (List (Bool × ChangeRecord)))
    : Prop where
  name : t.name = g.name
  ncol : t.ncol = g.ncol
  pkFlags : t.pkFlags = g.pkFlags
  hdr : t.hdr = g.header
  headed : g.Headed
  collectable : g.Collectable
  distinct : g.Distinct
  buckets : t.buckets = chains.map (List.map (encodeChange g.pkFlags))
  records : g.records = chains.flatten
  inSlot : Buckets.InSlot (entryKey g.pkFlags) (bucketOf · chains.length) chains
  counted : t.nentry = g.records.length

theorem Holds.flags (h : Holds t g bs)
    : t.ncol = t.pkFlags.length := by
  rw [h.ncol, h.pkFlags, h.headed.flags]

theorem map_modify {α β : Type} (f : α → β) (l : List α) (i : Nat) (g : α → α) (g' : β → β)
    (h : ∀ a, f (g a) = g' (f a))
    : (l.modify i g).map f = (l.map f).modify i g' := by
  refine ext_getElem? fun j => ?_
  simp only [getElem?_map, getElem?_modify]
  cases l[j]? with
  | none => rfl
  | some a =>
    split_ifs
    · exact congrArg some (h a)
    · rfl

theorem place_bytes (hncol : t.ncol = t.pkFlags.length)
    {items : List (Bool × ChangeRecord)} (hitems : ∀ p ∈ items, p.2.Collectable t.pkFlags)
    {n : Nat} (hlen : bs.length = n)
    : (items.map (encodeChange t.pkFlags)).foldlM t.place (bs.map (map (encodeChange t.pkFlags)))
      = .ok ((Buckets.placeAll (entryKey t.pkFlags) (bucketOf · n) items bs).map
          (map (encodeChange t.pkFlags))) := by
  induction items generalizing bs with
  | nil => rfl
  | cons p items ih =>
    obtain ⟨hp, hps⟩ := forall_mem_cons.mp hitems
    have hplace : t.place (bs.map (map (encodeChange t.pkFlags))) (encodeChange t.pkFlags p)
        = .ok ((bs.modify (bucketOf (entryKey t.pkFlags p) n) (p :: ·)).map
            (map (encodeChange t.pkFlags))) := by
      have hmap := map_modify (map (encodeChange t.pkFlags)) bs
        (bucketOf (entryKey t.pkFlags p) n) (p :: ·) (encodeChange t.pkFlags p :: ·) fun _ => rfl
      unfold ConcatTable.place
      rw [show (encodeChange t.pkFlags p).record = p.2.bytes t.pkFlags false from rfl,
        hash_encode hncol hp, length_map, hlen, hmap]
      rfl
    rw [map_cons, foldlM_cons, hplace, except_ok_bind, ih hps (by simpa using hlen)]
    rfl

/-- Growing keeps the group, in another order. -/
theorem Holds.maybeGrow (h : Holds t g bs)
    : ∃ t' records bs', t.maybeGrow = .ok t' ∧ Holds t' { g with records } bs' ∧ 0 < bs'.length
      ∧ records.Perm g.records := by
  have hgrow : ∀ n, 0 < n → ∃ t' records bs',
      (do
        let buckets ← t.buckets.flatten.foldlM t.place (replicate n [])
        return { t with buckets } : Result ConcatTable) = .ok t'
        ∧ Holds t' { g with records } bs' ∧ 0 < bs'.length ∧ records.Perm g.records := by
    intro n hn
    have hempty : Buckets.InSlot (entryKey g.pkFlags) (bucketOf · n)
        (replicate n ([] : List (Bool × ChangeRecord))) := Buckets.inSlot_replicate n
    obtain ⟨hin, hperm⟩ := Buckets.placeAll_spec g.records
      (by simpa using fun k => bucketOf_lt k hn) hempty
    have hplace := @place_bytes t (replicate n []) h.flags g.records
      (by rw [h.pkFlags]; exact h.collectable) n (length_replicate ..)
    have hflat : t.buckets.flatten = g.records.map (encodeChange g.pkFlags) := by
      rw [h.buckets, h.records, map_flatten]
    rw [map_replicate, map_nil, h.pkFlags, ← hflat] at hplace
    rw [flatten_replicate_nil, append_nil] at hperm
    generalize hall : Buckets.placeAll (entryKey g.pkFlags) (bucketOf · n) g.records
      (replicate n []) = placed at hin hperm hplace
    have hlen : placed.length = n := by simp [← hall]
    rw [hplace]
    exact ⟨_, placed.flatten, placed, rfl, { h with
      headed := { h.headed with }
      collectable := fun p hp => h.collectable p (hperm.mem_iff.mp hp)
      distinct := (hperm.map (entryKey g.pkFlags)).nodup_iff.mpr h.distinct
      buckets := rfl
      records := rfl
      inSlot := by rwa [hlen]
      counted := h.counted.trans hperm.length_eq.symm }, hlen ▸ hn, hperm⟩
  unfold ConcatTable.maybeGrow
  dsimp only
  split_ifs with hgrows hzero
  · exact hgrow 256 (by decide)
  · exact hgrow _ (by omega)
  · refine ⟨t, g.records, bs, rfl, h, ?_, .refl _⟩
    have hlen : t.buckets.length = bs.length := by simp [h.buckets]
    omega

/-- `found` is the entry of the key in `chain`, `rest` what else is there. -/
structure Takes (pkFlags : Bytes) (key : List Value) (chain : List (Bool × ChangeRecord))
    (found : Option (Bool × ChangeRecord)) (rest : List (Bool × ChangeRecord)) : Prop where
  perm : chain.Perm (found.toList ++ rest)
  keyed : ∀ q ∈ found, entryKey pkFlags q = key
  absent : found = none → key ∉ chain.map (entryKey pkFlags)

theorem takeExisting_bytes (hncol : t.ncol = t.pkFlags.length)
    {c : ChangeRecord} (hc : c.Collectable t.pkFlags) {chain : List (Bool × ChangeRecord)}
    (hchain : ∀ q ∈ chain, q.2.Collectable t.pkFlags)
    : ∃ found rest, Takes t.pkFlags (c.key t.pkFlags) chain found rest
      ∧ t.takeExisting (c.bytes t.pkFlags false) (chain.map (encodeChange t.pkFlags))
        = .ok (found.map (encodeChange t.pkFlags), rest.map (encodeChange t.pkFlags)) := by
  induction chain with
  | nil => exact ⟨none, [], ⟨.refl _, nofun, by simp⟩, rfl⟩
  | cons q chain ih =>
    obtain ⟨hq, hqs⟩ := forall_mem_cons.mp hchain
    obtain ⟨found, rest, htakes, htake⟩ := ih hqs
    have hequal : t.pkEqual (encodeChange t.pkFlags q).record (c.bytes t.pkFlags false)
        = .ok (entryKey t.pkFlags q == c.key t.pkFlags) := pkEqual_encode hncol hq hc
    rw [map_cons, ConcatTable.takeExisting, hequal, except_ok_bind]
    by_cases hkey : entryKey t.pkFlags q = c.key t.pkFlags
    · refine ⟨some q, chain, ⟨.refl _, fun q' hq' => by cases hq'; exact hkey, nofun⟩, ?_⟩
      rw [if_pos (by simpa using hkey)]
      rfl
    refine ⟨found, q :: rest, ⟨?_, htakes.keyed, fun hnone => ?_⟩, ?_⟩
    · exact (htakes.perm.cons q).trans perm_middle.symm
    · rw [map_cons, mem_cons, not_or]
      exact ⟨fun heq => hkey heq.symm, htakes.absent hnone⟩
    · rw [if_neg (by simpa using hkey), htake]
      rfl

/-- `p` takes the place of the entry with its key, merged with it. -/
structure Added (pkFlags : Bytes) (p : Bool × ChangeRecord)
    (records records' : List (Bool × ChangeRecord)) (found : Option (Bool × ChangeRecord))
    (others : List (Bool × ChangeRecord)) : Prop where
  before : records.Perm (found.toList ++ others)
  keyed : ∀ q ∈ found, entryKey pkFlags q = entryKey pkFlags p
  fresh : entryKey pkFlags p ∉ others.map (entryKey pkFlags)
  after : records'.Perm ((mergeEntry pkFlags found p).toList ++ others)

def Mergeable (g : Group) (p : Bool × ChangeRecord) : Prop :=
  ∀ found, (∀ q ∈ found, q ∈ g.records ∧ entryKey g.pkFlags q = entryKey g.pkFlags p) →
    ∀ m ∈ mergeEntry g.pkFlags found p,
      m.2.Collectable g.pkFlags ∧ entryKey g.pkFlags m = entryKey g.pkFlags p

theorem perm_bring {α : Type} (before part rest after : List α)
    : (before ++ (part ++ rest) ++ after).Perm (part ++ (before ++ rest ++ after)) := by
  simp only [append_assoc]
  exact perm_append_comm_assoc before part (rest ++ after)

section Replace

variable (h : Holds t g chains) {p : Bool × ChangeRecord} {found : Option (Bool × ChangeRecord)}
  {rest : List (Bool × ChangeRecord)}
  (htakes : Takes g.pkFlags (entryKey g.pkFlags p)
    (chains.getD (bucketOf (entryKey g.pkFlags p) chains.length) []) found rest)
include h htakes

/-- No other change of the table has the key. -/
theorem Holds.fresh {others : List (Bool × ChangeRecord)}
    (hbefore : g.records.Perm (found.toList ++ others))
    : entryKey g.pkFlags p ∉ others.map (entryKey g.pkFlags) := by
  intro hmem
  cases hfound : found with
  | none =>
    obtain ⟨q, hq, hkey⟩ := mem_map.mp hmem
    have hflat : q ∈ chains.flatten := by
      rw [← h.records, hbefore.mem_iff, hfound]
      exact hq
    have hchain := h.inSlot.mem_chain.mp hflat
    have hkeys := mem_map_of_mem (f := entryKey g.pkFlags) hchain
    rw [hkey] at hkeys
    exact htakes.absent hfound hkeys
  | some q =>
    have hdistinct := (hbefore.map (entryKey g.pkFlags)).nodup_iff.mp h.distinct
    rw [hfound, toList_some, singleton_append, map_cons, nodup_cons,
      htakes.keyed q hfound] at hdistinct
    exact hdistinct.1 hmem

/-- Replacing the chain of the key merges the change into the group. -/
theorem Holds.replace (hpos : 0 < chains.length)
    (hmerge : ∀ m ∈ mergeEntry g.pkFlags found p,
      m.2.Collectable g.pkFlags ∧ entryKey g.pkFlags m = entryKey g.pkFlags p)
    : ∃ records chains' others,
      Holds { t with
        buckets := t.buckets.modify (bucketOf (entryKey g.pkFlags p) chains.length) fun _ =>
          ((mergeEntry g.pkFlags found p).map (encodeChange g.pkFlags)).toList
            ++ rest.map (encodeChange g.pkFlags)
        nentry := t.nentry - found.toList.length
          + (mergeEntry g.pkFlags found p).toList.length } { g with records } chains'
      ∧ Added g.pkFlags p g.records records found others := by
  obtain ⟨merged, hmerged⟩ : ∃ m, mergeEntry g.pkFlags found p = m := ⟨_, rfl⟩
  have hslot := bucketOf_lt (entryKey g.pkFlags p) hpos
  rw [hmerged] at hmerge ⊢
  generalize hidx : bucketOf (entryKey g.pkFlags p) chains.length = idx at hslot htakes ⊢
  obtain ⟨before, after, hold, hnew⟩ := Buckets.flatten_modify chains hslot
    fun _ => merged.toList ++ rest
  obtain ⟨chains', hchains⟩ : ∃ cs, chains.modify idx (fun _ => merged.toList ++ rest) = cs :=
    ⟨_, rfl⟩
  have hbefore : g.records.Perm (found.toList ++ (before ++ rest ++ after)) := by
    rw [h.records, hold]
    exact ((htakes.perm.append_left before).append_right after).trans (perm_bring _ _ _ _)
  have hafter := perm_bring before merged.toList rest after
  rw [← hnew, hchains] at hafter
  have hfresh := h.fresh (hidx ▸ htakes) hbefore
  refine ⟨chains'.flatten, chains', before ++ rest ++ after, { h with
    headed := { h.headed with }
    collectable := fun q hq => by
      cases mem_append.mp (hafter.mem_iff.mp hq) with
      | inl hin => exact (hmerge q (mem_toList.mp hin)).1
      | inr hin => exact h.collectable q (hbefore.mem_iff.mpr (mem_append_right _ hin))
    distinct := by
      refine (hafter.map (entryKey g.pkFlags)).nodup_iff.mpr ?_
      have hnodup := (hbefore.map (entryKey g.pkFlags)).nodup_iff.mp h.distinct
      rw [map_append] at hnodup
      have hrest := hnodup.of_append_right
      cases merged with
      | none => exact hrest
      | some m =>
        rw [toList_some, singleton_append, map_cons, (hmerge m rfl).2]
        exact nodup_cons.mpr ⟨hfresh, hrest⟩
    buckets := by
      rw [h.buckets, ← hchains]
      exact (map_modify _ chains idx _ _ fun _ => by cases merged <;> simp).symm
    records := rfl
    inSlot := by
      rw [← hchains, length_modify]
      refine h.inSlot.modify hslot fun q hq => ?_
      cases mem_append.mp hq with
      | inl hin =>
        right
        rw [(hmerge q (mem_toList.mp hin)).2]
        exact hidx
      | inr hin => exact .inl (htakes.perm.mem_iff.mpr (mem_append_right _ hin))
    counted := by
      have h₁ := hbefore.length_eq
      have h₂ := hafter.length_eq
      simp only [length_append] at h₁ h₂
      have h₃ := h.counted
      dsimp only
      omega }, hbefore, htakes.keyed, hfresh, hmerged ▸ hafter⟩

end Replace

/-- Adding a change to a table with room for it merges it into the group. -/
theorem Holds.addGrown (h : Holds t g chains) (hpos : 0 < chains.length) {p : Bool × ChangeRecord}
    (hp : p.2.Collectable g.pkFlags) (hmerge : Mergeable g p)
    : ∃ t' records chains' found others,
      t.addGrown p.2.op.byte (boolByte p.1) (p.2.bytes g.pkFlags false) = .ok t'
        ∧ Holds t' { g with records } chains'
        ∧ Added g.pkFlags p g.records records found others := by
  have hmemChain : ∀ q ∈ chains.getD (bucketOf (entryKey g.pkFlags p) chains.length) [],
      q ∈ g.records := fun q hq => by
    rw [h.records]
    exact Buckets.mem_flatten_of_chain hq
  have hp' : p.2.Collectable t.pkFlags := h.pkFlags ▸ hp
  obtain ⟨found, rest, htakes, htake⟩ := takeExisting_bytes h.flags hp' fun q hq =>
    h.pkFlags ▸ h.collectable q (hmemChain q hq)
  rw [h.pkFlags] at htakes htake
  have hmem : ∀ q ∈ found, q ∈ g.records ∧ entryKey g.pkFlags q = entryKey g.pkFlags p :=
    fun q hq => by
      have hin := htakes.perm.mem_iff.mpr (mem_append_left rest (mem_toList.mpr hq))
      exact ⟨hmemChain q hin, htakes.keyed q hq⟩
  obtain ⟨records, chains', others, hholds, hadded⟩ := h.replace htakes hpos (hmerge found hmem)
  refine ⟨_, records, chains', found, others, ?_, hholds, hadded⟩
  have hlength : t.buckets.length = chains.length := by simp [h.buckets]
  have hhash := hash_encode h.flags hp' t.buckets.length
  have hget : t.buckets.getD (bucketOf (p.2.key g.pkFlags) chains.length) []
      = (chains.getD (bucketOf (entryKey g.pkFlags p) chains.length) []).map
          (encodeChange g.pkFlags) := by
    rw [h.buckets]
    exact getD_map chains [] (map _)
  have hmergeBytes := merge_bytes h.flags
    (fun q hq => h.pkFlags ▸ h.collectable q (hmem q hq).1) hp'
  have hcount : ∀ o, (Option.map (encodeChange g.pkFlags) o).toList.length = o.toList.length := by
    rintro (_ | _) <;> rfl
  rw [h.pkFlags, hlength] at hhash
  rw [h.pkFlags] at hmergeBytes
  rw [ConcatTable.addGrown, hlength, hhash, except_ok_bind, hget, htake, except_ok_bind]
  dsimp only
  rw [hmergeBytes, except_ok_bind, hcount, hcount]
  rfl

/-- Adding a change merges it into the group. -/
theorem Holds.add (h : Holds t g bs)
    {p : Bool × ChangeRecord} (hp : p.2.Collectable g.pkFlags) (hmerge : Mergeable g p)
    : ∃ t' records bs' found others,
      t.add p.2.op.byte (boolByte p.1) (p.2.bytes g.pkFlags false) = .ok t'
        ∧ Holds t' { g with records } bs'
        ∧ Added g.pkFlags p g.records records found others := by
  obtain ⟨t₁, records, chains, hgrow, hholds, hpos, hperm⟩ := h.maybeGrow
  have hmerge' : Mergeable { g with records } p := fun found hfound =>
    hmerge found fun q hq => ⟨hperm.mem_iff.mp (hfound q hq).1, (hfound q hq).2⟩
  obtain ⟨t', records', chains', found, others, hadd, hholds', hadded⟩ :=
    hholds.addGrown hpos hp hmerge'
  refine ⟨t', records', chains', found, others, ?_, hholds', ?_⟩
  · rw [ConcatTable.add, hgrow]
    exact hadd
  · exact { hadded with before := hperm.symm.trans hadded.before }

end GraphiteSql.Session
