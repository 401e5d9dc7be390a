import GraphiteSql.Session.Groups

/-! The inverse of a changeset: inverting its bytes inverts its records, and the inverse undoes
what the changeset does.
-/

namespace GraphiteSql.Session

open Lib List Option ChangeRecord Reader

variable {c : ChangeRecord} {ncol : Nat} {g : Group} {pkFlags : Bytes}

/-- The inverse of a record. An update swaps the values of the columns outside the key. -/
def ChangeRecord.inverse (c : ChangeRecord) (pkFlags : Bytes) : ChangeRecord :=
  match c.op with
  | .insert => { op := .delete, old := c.new, new := [] }
  | .delete => { op := .insert, old := [], new := c.old }
  | .update => {
      op := .update
      old := (c.old.zip c.new).zipIdx.map fun p => if isPk pkFlags p.2 then p.1.1 else p.1.2
      new := c.old.zipIdx.map fun p => if isPk pkFlags p.2 then none else p.1 }

def Group.inverse (g : Group) : Group :=
  { g with records := g.records.map fun p => (p.1, p.2.inverse g.pkFlags) }

theorem readable_inverse (h : c.Readable ncol) (pkFlags : Bytes)
    : (c.inverse pkFlags).Readable ncol := by
  obtain ⟨op, old, new⟩ := c
  cases op with
  | insert => exact readable_delete.mp ⟨h.new nofun, h.newFields⟩
  | delete => exact readable_insert.mp ⟨h.old nofun, h.oldFields⟩
  | update =>
    have hold : old.length = ncol := h.old nofun
    have hnew : new.length = ncol := h.new nofun
    refine readable_update.mp ⟨⟨by simp [hold, hnew], fun f hf => ?_⟩, by simp [hold],
      fun f hf => ?_⟩
    · obtain ⟨⟨⟨o, n⟩, i⟩, hp, rfl⟩ := mem_map.mp hf
      have hmem := of_mem_zip (fst_mem_of_mem_zipIdx hp)
      split_ifs
      · exact h.oldFields o hmem.1
      · exact h.newFields n hmem.2
    obtain ⟨⟨o, i⟩, hp, rfl⟩ := mem_map.mp hf
    split_ifs
    · intro v hv
      cases hv
    · exact h.oldFields o (fst_mem_of_mem_zipIdx hp)

theorem shaped_inverse (c : ChangeRecord) (pkFlags : Bytes)
    : (c.inverse pkFlags).Shaped pkFlags false := by
  obtain ⟨op, old, new⟩ := c
  cases op with
  | insert => exact ⟨rfl, fun hpatch => by cases hpatch⟩
  | delete => rfl
  | update => exact fun hpatch => by cases hpatch

theorem written_inverse (h : g.Written)
    : g.inverse.Written where
  name := h.name
  readable := {
    columns := h.readable.columns
    fits := h.readable.fits
    flags := h.readable.flags
    changes := fun c hc => by
      obtain ⟨q, hq, rfl⟩ := mem_map.mp hc
      obtain ⟨p, hp, rfl⟩ := mem_map.mp hq
      exact readable_inverse (h.record hp) g.pkFlags }
  shaped := fun q hq => by
    obtain ⟨p, hp, rfl⟩ := mem_map.mp hq
    exact shaped_inverse p.2 g.pkFlags

-- Inverting the bytes of groups

theorem invertStep_header (h : g.Written) (ncol : Nat) (pkFlags rest : Bytes)
    : invertStep ncol pkFlags (g.header ++ rest) = .ok (g.ncol, g.pkFlags, g.header) rest := by
  have hpeek : peek (g.header ++ rest) = .ok 0x54 (g.header ++ rest) := rfl
  rw [invertStep, estate_bind_ok hpeek, if_pos rfl, estate_bind_ok (tableHdr_append h rest)]
  rfl

theorem invertStep_row {op : UInt8} (hop : op = opInsert ∨ op = opDelete)
    {fields : List (Option Value)} (h : ∀ f ∈ fields, ReadableField f) (pkFlags : Bytes)
    (indirect : UInt8) (rest : Bytes)
    : invertStep fields.length pkFlags ([op, indirect] ++ fields.flatMap appendField ++ rest)
      = .ok (fields.length, pkFlags,
          [invertedOp op, indirect] ++ fields.flatMap appendField) rest := by
  have hpeek : ∀ s, peek (op :: s) = .ok op (op :: s) := fun _ => rfl
  have hmarker : op ≠ 0x54 := by
    rcases hop with rfl | rfl <;> decide
  rw [invertStep, append_assoc, cons_append, singleton_append,
    estate_bind_ok (hpeek _), if_neg hmarker, if_pos hop, estate_bind_ok (u8_cons _ _),
    estate_bind_ok (u8_cons _ _), estate_bind_ok (onRest_ok (splitRecord_append h rest))]
  exact estate_bind_ok (take_append (fields.flatMap appendField) rest)

theorem invertOld_map (pkFlags : Bytes) (old new : List (Option Value))
    : invertOld pkFlags (old.map appendField) (new.map appendField)
      = ((old.zip new).zipIdx.map fun p =>
          if isPk pkFlags p.2 then p.1.1 else p.1.2).flatMap appendField := by
  unfold invertOld
  rw [zip_map, zipIdx_map, flatMap_map, flatMap_map]
  congr 1
  funext p
  exact (apply_ite appendField _ _ _).symm

theorem invertNew_map (pkFlags : Bytes) (old : List (Option Value))
    : invertNew pkFlags (old.map appendField)
      = (old.zipIdx.map fun p => if isPk pkFlags p.2 then none else p.1).flatMap appendField := by
  unfold invertNew
  rw [zipIdx_map, flatMap_map, flatMap_map]
  congr 1
  funext p
  dsimp only [Prod.map, id]
  split_ifs <;> rfl

theorem invertStep_record (h : c.Readable ncol)
    (hshaped : c.Shaped pkFlags false) (indirect : Bool) (rest : Bytes)
    : invertStep ncol pkFlags (recordBytes pkFlags false (indirect, c) ++ rest)
      = .ok (ncol, pkFlags, recordBytes pkFlags false (indirect, c.inverse pkFlags)) rest := by
  obtain ⟨op, old, new⟩ := c
  cases op with
  | insert =>
    have hnew : new.length = ncol := h.new nofun
    have hstep := invertStep_row (.inl rfl) h.newFields pkFlags (boolByte indirect) rest
    rw [hnew] at hstep
    refine hstep.trans ?_
    simp only [inverse, recordBytes, bytes_delete]
    rfl
  | delete =>
    have hold : old.length = ncol := h.old nofun
    have hstep := invertStep_row (.inr rfl) h.oldFields pkFlags (boolByte indirect) rest
    rw [hold] at hstep
    rw [recordBytes, bytes_delete]
    exact hstep
  | update =>
    have hold : old.length = ncol := h.old nofun
    have hnew : new.length = ncol := h.new nofun
    have hfirst := splitFields_append h.oldFields (new.flatMap appendField ++ rest)
    have hsecond := splitFields_append h.newFields rest
    rw [hold] at hfirst
    rw [hnew] at hsecond
    have hbytes : recordBytes pkFlags false (indirect, { op := .update, old, new }) ++ rest
        = opUpdate :: boolByte indirect
          :: (old.flatMap appendField ++ (new.flatMap appendField ++ rest)) := by
      simp [recordBytes, bytes, ChangeOp.byte]
    have hpeek : ∀ s, peek (opUpdate :: s) = .ok opUpdate (opUpdate :: s) := fun _ => rfl
    rw [hbytes, invertStep, estate_bind_ok (hpeek _), if_neg (by decide), if_neg (by decide),
      if_pos rfl, estate_bind_ok (u8_cons _ _), estate_bind_ok (u8_cons _ _), estate_bind_ok hfirst,
      estate_bind_ok hsecond, invertOld_map, invertNew_map]
    rfl

/-- The records `s` are inverted to `out`. -/
def Inverts (ncol : Nat) (pkFlags s out : Bytes) : Prop :=
  ∀ bound acc, s.length < bound → invertLoop bound ncol pkFlags acc s = .ok (acc ++ out) []

theorem inverts_nil (ncol : Nat) (pkFlags : Bytes)
    : Inverts ncol pkFlags [] [] := by
  intro bound acc hbound
  cases bound with
  | zero => cases hbound
  | succ bound => simp [invertLoop]

theorem inverts_step {ncol' : Nat} {pkFlags' piece written rest out : Bytes}
    (hpiece : piece ≠ [])
    (hstep : invertStep ncol pkFlags (piece ++ rest) = .ok (ncol', pkFlags', written) rest)
    (hrest : Inverts ncol' pkFlags' rest out)
    : Inverts ncol pkFlags (piece ++ rest) (written ++ out) := by
  intro bound acc hbound
  have hpos := length_pos_iff.mpr hpiece
  rw [length_append] at hbound
  cases bound with
  | zero => cases hbound
  | succ bound =>
    rw [invertLoop, estate_get_bind, if_neg (by simp [hpiece]), estate_bind_ok hstep]
    refine (hrest bound (acc ++ written) (by omega)).trans ?_
    rw [append_assoc]

theorem inverts_records (h : g.Written) {records : List (Bool × ChangeRecord)}
    (hrecords : ∀ p ∈ records, p ∈ g.records) {rest out : Bytes}
    (hrest : Inverts g.ncol g.pkFlags rest out)
    : Inverts g.ncol g.pkFlags (records.flatMap (recordBytes g.pkFlags false) ++ rest)
      ((records.map fun p => (p.1, p.2.inverse g.pkFlags)).flatMap (recordBytes g.pkFlags false)
        ++ out) := by
  induction records with
  | nil => exact hrest
  | cons p records ih =>
    obtain ⟨hp, hps⟩ := forall_mem_cons.mp hrecords
    have hstep := invertStep_record (h.record hp) (h.shaped p hp) p.1
      (records.flatMap (recordBytes g.pkFlags false) ++ rest)
    simp only [map_cons, flatMap_cons, append_assoc]
    exact inverts_step (cons_ne_nil _ _) hstep (ih hps)

theorem inverts_groups {groups : List Group} (h : ∀ g ∈ groups, g.Written) (ncol : Nat)
    (pkFlags : Bytes)
    : Inverts ncol pkFlags (groups.flatMap Group.bytes)
      ((groups.map Group.inverse).flatMap Group.bytes) := by
  induction groups generalizing ncol pkFlags with
  | nil => exact inverts_nil ncol pkFlags
  | cons g groups ih =>
    obtain ⟨hg, hgs⟩ := forall_mem_cons.mp h
    have hrecords := inverts_records hg (fun p hp => hp) (ih hgs g.ncol g.pkFlags)
    have hgroup :=
      inverts_step (by simp [Group.header]) (invertStep_header hg ncol pkFlags _) hrecords
    simp only [flatMap_cons, map_cons, Group.bytes, append_assoc]
    exact hgroup

theorem invert_groups {groups : List Group} (h : ∀ g ∈ groups, g.Written)
    : invert (groups.flatMap Group.bytes)
      = .ok ((groups.map Group.inverse).flatMap Group.bytes) := by
  unfold invert
  rw [inverts_groups h 0 [] _ [] (Nat.lt_succ_self _)]
  rfl

-- Inverting twice

/-- An update that gives no new value to a key column. -/
def ChangeRecord.KeyKept (c : ChangeRecord) (pkFlags : Bytes) : Prop :=
  c.op = .update → ∀ i v, isPk pkFlags i = true → c.new[i]? ≠ some (some v)

def Group.KeyKept (g : Group) : Prop :=
  ∀ p ∈ g.records, p.2.KeyKept g.pkFlags

section Update

variable (hop : c.op = .update) (pkFlags : Bytes)
include hop

theorem inverse_update
    : c.inverse pkFlags = {
      op := .update
      old := (c.old.zip c.new).zipIdx.map fun p => if isPk pkFlags p.2 then p.1.1 else p.1.2
      new := c.old.zipIdx.map fun p => if isPk pkFlags p.2 then none else p.1 } := by
  unfold inverse
  rw [hop]

theorem inverse_old (i : Nat)
    : (c.inverse pkFlags).old[i]?
      = (c.old[i]?).bind fun o => (c.new[i]?).map fun n => if isPk pkFlags i then o else n := by
  rw [inverse_update hop, getElem?_map, getElem?_columns]
  cases c.old[i]? with
  | none => rfl
  | some o => cases c.new[i]? <;> rfl

theorem inverse_new (i : Nat)
    : (c.inverse pkFlags).new[i]?
      = (c.old[i]?).map fun o => if isPk pkFlags i then none else o := by
  rw [inverse_update hop, getElem?_map, getElem?_zipIdx, Option.map_map, Nat.zero_add]
  rfl

theorem inverse_inverse_old (hlen : c.old.length = c.new.length)
    : ((c.inverse pkFlags).inverse pkFlags).old = c.old := by
  have hop' : (c.inverse pkFlags).op = .update := by rw [inverse_update hop]
  refine ext_getElem? fun i => ?_
  rw [inverse_old hop', inverse_old hop, inverse_new hop]
  cases ho : c.old[i]? with
  | none => rfl
  | some o =>
    have hi : i < c.new.length := hlen ▸ (List.getElem?_eq_some_iff.mp ho).1
    rw [getElem?_eq_getElem hi]
    split_ifs <;> rfl

theorem inverse_inverse_new (hlen : c.old.length = c.new.length) (i : Nat)
    : ((c.inverse pkFlags).inverse pkFlags).new[i]?
      = (c.new[i]?).map fun n => if isPk pkFlags i then none else n := by
  have hop' : (c.inverse pkFlags).op = .update := by rw [inverse_update hop]
  rw [inverse_new hop', inverse_old hop]
  cases hn : c.new[i]? with
  | none => cases c.old[i]? <;> rfl
  | some n =>
    have hi : i < c.old.length := hlen ▸ (List.getElem?_eq_some_iff.mp hn).1
    rw [getElem?_eq_getElem hi]
    split_ifs <;> rfl

end Update

/-- Inverting twice drops the new values of key columns. -/
theorem inverse_inverse (hfull : c.Full ncol) (hshaped : c.Shaped pkFlags false)
    : (c.inverse pkFlags).inverse pkFlags = c ↔ c.KeyKept pkFlags := by
  obtain ⟨op, old, new⟩ := c
  cases op with
  | insert =>
    have hold : old = [] := hshaped
    refine iff_of_true ?_ fun hop => by cases hop
    rw [hold]
    rfl
  | delete =>
    have hnew : new = [] := hshaped.1
    refine iff_of_true ?_ fun hop => by cases hop
    rw [hnew]
    rfl
  | update =>
    have hlen : old.length = new.length := (hfull.old nofun).trans (hfull.new nofun).symm
    have hnew := @inverse_inverse_new { op := .update, old, new } rfl pkFlags hlen
    constructor
    · intro hsame _ i v hpk hv
      have hi := hnew i
      rw [hsame, hv, map_some, if_pos hpk] at hi
      cases hi
    intro hkept
    have hkeep : ((({ op := .update, old, new } : ChangeRecord).inverse pkFlags).inverse
        pkFlags).new = new := by
      refine ext_getElem? fun i => ?_
      rw [hnew]
      cases hn : new[i]? with
      | none => rfl
      | some n =>
        split_ifs with hpk
        · cases n with
          | none => rfl
          | some v => exact absurd hn (hkept rfl i v hpk)
        · rfl
    exact congrArg₂ (mk .update)
      (@inverse_inverse_old { op := .update, old, new } rfl pkFlags hlen) hkeep

theorem complete_inverse (h : c.Complete pkFlags)
    : (c.inverse pkFlags).Complete pkFlags := by
  cases hop : c.op with
  | insert =>
    simp only [ChangeRecord.Complete, hop] at h
    simpa only [ChangeRecord.Complete, inverse, hop, true_and] using h.2
  | delete =>
    simp only [ChangeRecord.Complete, hop] at h
    simpa only [ChangeRecord.Complete, inverse, hop, true_and] using h.2
  | update =>
    have hop' : (c.inverse pkFlags).op = .update := by rw [inverse_update hop]
    simp only [ChangeRecord.Complete, hop, hop'] at h ⊢
    intro i o' n' ho' hn'
    rw [inverse_old hop] at ho'
    rw [inverse_new hop] at hn'
    obtain ⟨o, ho, ho'⟩ := bind_eq_some_iff.mp ho'
    obtain ⟨n, hn, rfl⟩ := map_eq_some_iff.mp ho'
    rw [ho] at hn'
    cases hn'
    have hfield := h i o n ho hn
    unfold UpdateField at hfield ⊢
    split_ifs at hfield ⊢
    · exact hfield
    · exact hfield.symm

theorem sound_inverse (h : g.Sound)
    : g.inverse.Sound where
  toWritten := written_inverse h.toWritten
  complete := fun q hq => by
    obtain ⟨p, hp, rfl⟩ := mem_map.mp hq
    exact complete_inverse (h.complete p hp)

/-- Emitted records are complete. -/
theorem emitChange_complete {t : TableChanges} {readRow : RowReader} {c : Change}
    {r : ChangeRecord} (h : emitChange t false readRow c = some r)
    : r.Complete t.pkFlags := by
  obtain ⟨row, rfl⟩ | rfl | ⟨row, rfl⟩ := emitChange_cases h
  · exact ⟨rfl, by simp⟩
  · exact ⟨rfl, by simp [emitDelete]⟩
  intro i o n ho hn
  simp only [emitUpdate, getElem?_map, getElem?_columns] at ho hn
  cases hold : c.old[i]? with
  | none => simp [hold] at ho
  | some x =>
    cases hrow : row[i]? with
    | none => simp [hold, hrow] at ho
    | some y =>
      simp only [hold, hrow, bind_some, map_some, Option.some.injEq,
        Bool.false_eq_true, if_false, Bool.false_and, Bool.or_false] at ho hn
      subst ho hn
      unfold UpdateField
      generalize UpdateColumn.changed ((x, y), i) = changed
      cases hpk : isPk t.pkFlags i with
      | false => cases changed <;> simp
      | true => simp

end GraphiteSql.Session
