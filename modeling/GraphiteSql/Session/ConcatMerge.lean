import GraphiteSql.Session.ConcatRecords

/-! Merging the bytes of two changes of a row is merging the changes. -/

namespace GraphiteSql.Session

open Lib List ChangeRecord

variable {t : ConcatTable} {one two : List (Option Value)} {ncol : Nat}

-- Records

theorem pick_bytes (f g : Option Value)
    : (if g.isSome then appendField g else appendField f) = appendField (g.or f) := by
  cases g <;> rfl

theorem readable_mergeFields (h₁ : ReadableFields one) (h₂ : ReadableFields two)
    : ReadableFields (mergeFields one two) := by
  intro f hf
  obtain ⟨i, hi⟩ := getElem?_of_mem hf
  rw [getElem?_mergeFields] at hi
  obtain ⟨f₁, hf₁, hi⟩ := Option.bind_eq_some_iff.mp hi
  obtain ⟨f₂, hf₂, rfl⟩ := Option.map_eq_some_iff.mp hi
  cases f₂ with
  | none => exact h₁ f₁ (mem_of_getElem? hf₁)
  | some v => exact h₂ (some v) (mem_of_getElem? hf₂)

theorem mergeRecord_bytes (hlen : one.length = two.length)
    (h₁ : ReadableFields one) (h₂ : ReadableFields two)
    : mergeRecord one.length (fieldBytes one) (fieldBytes two)
      = .ok (fieldBytes (mergeFields one two)) := by
  induction one generalizing two with
  | nil =>
    cases two with
    | nil => rfl
    | cons g two => cases hlen
  | cons f one ih =>
    cases two with
    | nil => cases hlen
    | cons g two =>
      obtain ⟨hf, hfs⟩ := forall_mem_cons.mp h₁
      obtain ⟨hg, hgs⟩ := forall_mem_cons.mp h₂
      rw [length_cons, fieldBytes_cons, fieldBytes_cons, mergeRecord, serialLen_appendField hf,
        except_ok_bind, serialLen_appendField hg, except_ok_bind]
      rw [head_appendField, take_left, take_left, drop_left, drop_left,
        pick_bytes, ih (Nat.succ.inj hlen) hfs hgs]
      rfl

def chooseFields (one : List (Option Value)) : Option (List (Option Value)) → List (Option Value)
  | none => one
  | some two => mergeFields one two

/-- A second record, if there is one, that can be merged with the first. -/
def Matches (one : List (Option Value)) (two : Option (List (Option Value))) : Prop :=
  ∀ fields ∈ two, fields.length = one.length ∧ ReadableFields fields

theorem readable_chooseFields {two : Option (List (Option Value))}
    (h₁ : ReadableFields one) (h₂ : Matches one two)
    : ReadableFields (chooseFields one two) := by
  cases two with
  | none => exact h₁
  | some fields => exact readable_mergeFields h₁ (h₂ fields rfl).2

/-- Choosing the first field leaves the other fields to be chosen. -/
theorem mergeValue_bytes {f : Option Value} {two : Option (List (Option Value))}
    (h₁ : ReadableFields (f :: one)) (h₂ : Matches (f :: one) two)
    : ∃ g two', chooseFields (f :: one) two = g :: chooseFields one two' ∧ Matches one two'
      ∧ mergeValue (fieldBytes (f :: one)) (two.map fieldBytes)
        = .ok (appendField g, fieldBytes one, two'.map fieldBytes) := by
  obtain ⟨hf, hfs⟩ := forall_mem_cons.mp h₁
  cases two with
  | none =>
    refine ⟨f, none, rfl, nofun, ?_⟩
    rw [Option.map_none, mergeValue, fieldBytes_cons, serialLen_appendField hf, except_ok_bind,
      take_left, drop_left]
    rfl
  | some fields =>
    obtain ⟨hlen, hread⟩ := h₂ fields rfl
    cases fields with
    | nil => cases hlen
    | cons g fields =>
      obtain ⟨hg, hgs⟩ := forall_mem_cons.mp hread
      refine ⟨g.or f, some fields, rfl, ?_, ?_⟩
      · intro fields' h
        cases h
        exact ⟨Nat.succ.inj hlen, hgs⟩
      rw [Option.map_some, mergeValue, fieldBytes_cons, fieldBytes_cons,
        serialLen_appendField hf, except_ok_bind, serialLen_appendField hg, except_ok_bind]
      rw [head_appendField, take_left, take_left, drop_left, drop_left,
        pick_bytes]
      rfl

/-- The columns of a merged update, by their bytes. -/
theorem mergeColumns_bytes {old₁ new₁ : List (Option Value)}
    {old₂ new₂ : Option (List (Option Value))} (hlen : old₁.length = new₁.length)
    (hold₁ : ReadableFields old₁) (hold₂ : Matches old₁ old₂) (hnew₁ : ReadableFields new₁)
    (hnew₂ : Matches new₁ new₂)
    : mergeColumns old₁.length (fieldBytes old₁) (old₂.map fieldBytes) (fieldBytes new₁)
      (new₂.map fieldBytes)
      = .ok (((chooseFields old₁ old₂).zip (chooseFields new₁ new₂)).map
          (Prod.map appendField appendField)) := by
  induction old₁ generalizing old₂ new₁ new₂ with
  | nil =>
    cases new₁ with
    | cons g new₁ => cases hlen
    | nil => cases old₂ <;> cases new₂ <;> simp [mergeColumns, chooseFields, mergeFields]
  | cons f old₁ ih =>
    cases new₁ with
    | nil => cases hlen
    | cons g new₁ =>
      obtain ⟨o, old₂', ho, hold₂', hvalue⟩ := mergeValue_bytes hold₁ hold₂
      obtain ⟨n, new₂', hn, hnew₂', hvalue'⟩ := mergeValue_bytes hnew₁ hnew₂
      have htail := ih (Nat.succ.inj hlen) (forall_mem_cons.mp hold₁).2 hold₂'
        (forall_mem_cons.mp hnew₁).2 hnew₂'
      rw [length_cons, mergeColumns, hvalue, except_ok_bind]
      dsimp only
      rw [hvalue', except_ok_bind]
      rw [htail, ho, hn]
      rfl

/-- The bytes of a merged update are those of the update between the chosen fields. -/
theorem mergeUpdate_columns {pkFlags old₁ new₁ : Bytes} {old₂ new₂ : Option Bytes}
    {old new : List (Option Value)} (hold : ReadableFields old) (hnew : ReadableFields new)
    (hcolumns : mergeColumns ncol old₁ old₂ new₁ new₂
      = .ok ((old.zip new).map (Prod.map appendField appendField)))
    : mergeUpdate ncol pkFlags old₁ old₂ new₁ new₂
      = .ok ((mergedUpdate pkFlags old new).map (·.bytes pkFlags false)) := by
  have hequal : ∀ p ∈ (old.zip new).zipIdx,
      (appendField p.1.1 == appendField p.1.2) = (p.1.1 == p.1.2) := fun p hp => by
    have hmem := of_mem_zip (fst_mem_of_mem_zipIdx hp)
    exact appendField_beq (hold _ hmem.1) (hnew _ hmem.2)
  have hany : (((old.zip new).map (Prod.map appendField appendField)).zipIdx.any
      fun p => !isPk pkFlags p.2 && p.1.1 != p.1.2)
      = (old.zip new).zipIdx.any fun p => !isPk pkFlags p.2 && p.1.1 != p.1.2 := by
    rw [zipIdx_map, any_map, Bool.eq_iff_iff, any_eq_true, any_eq_true]
    refine exists_congr fun p => and_congr_right fun hp => ?_
    simp only [Function.comp_def, Prod.map, id, bne, hequal p hp]
  rw [mergeUpdate, hcolumns, except_ok_bind]
  dsimp only
  rw [hany, mergedUpdate]
  split_ifs
  · refine congrArg (Except.ok ∘ some) ?_
    simp only [bytes, updateBetween, Bool.false_eq_true, if_false, zipIdx_map,
      flatMap_map]
    refine congrArg₂ (· ++ ·) (flatMap_congr fun p hp => ?_)
      (flatMap_congr fun p hp => ?_)
    · simp only [Prod.map, id, bne, hequal p hp]
      split_ifs <;> rfl
    · simp only [Prod.map, id, hequal p hp]
      split_ifs <;> rfl
  · rfl

theorem mergeUpdate_fields {pkFlags : Bytes} {old₁ new₁ : List (Option Value)}
    {old₂ new₂ : Option (List (Option Value))} (hlen₁ : old₁.length = ncol)
    (hlen₂ : new₁.length = ncol) (hold₁ : ReadableFields old₁) (hold₂ : Matches old₁ old₂)
    (hnew₁ : ReadableFields new₁) (hnew₂ : Matches new₁ new₂)
    : mergeUpdate ncol pkFlags (fieldBytes old₁) (old₂.map fieldBytes) (fieldBytes new₁)
      (new₂.map fieldBytes)
      = .ok ((mergedUpdate pkFlags (chooseFields old₁ old₂) (chooseFields new₁ new₂)).map
          (·.bytes pkFlags false)) := by
  have hcolumns := mergeColumns_bytes (hlen₁.trans hlen₂.symm) hold₁ hold₂ hnew₁ hnew₂
  rw [hlen₁] at hcolumns
  exact mergeUpdate_columns (readable_chooseFields hold₁ hold₂) (readable_chooseFields hnew₁ hnew₂)
    hcolumns

-- Changes

/-- Pairs of operations that cannot follow each other. -/
def keepsFirst : ChangeOp → ChangeOp → Bool
  | .insert, .insert => true
  | .update, .insert => true
  | .delete, .update => true
  | .delete, .delete => true
  | _, _ => false

def mergeEntry (pkFlags : Bytes) (existing : Option (Bool × ChangeRecord))
    (p : Bool × ChangeRecord) : Option (Bool × ChangeRecord) :=
  match existing with
  | none => some p
  | some q =>
      if keepsFirst q.2.op p.2.op then some q
      else (mergeChange pkFlags q.2 p.2).map (p.1 && q.1, ·)

/-- The bytes of the two halves of an update. -/
theorem splitRecord_update (hncol : t.ncol = t.pkFlags.length) {old new : List (Option Value)}
    (h : ({ op := .update, old, new } : ChangeRecord).Collectable t.pkFlags)
    : splitRecord t.ncol (fieldBytes old ++ fieldBytes new)
      = .ok (old.map appendField, (fieldBytes old).length) := by
  have hlen : old.length = t.ncol := h.first_length.trans hncol.symm
  rw [← hlen]
  exact splitRecord_append h.readable.oldFields (fieldBytes new)

section Pairs

variable (hncol : t.ncol = t.pkFlags.length)
  {eold enew cold cnew : List (Option Value)} (ind : Bool)
include hncol

theorem mergeOps_insert_update
    (he : (mk .insert eold enew).Collectable t.pkFlags)
    (hc : (mk .update cold cnew).Collectable t.pkFlags)
    : t.mergeOps (encodeChange t.pkFlags (ind, ⟨.insert, eold, enew⟩)) opUpdate
      (fieldBytes cold ++ fieldBytes cnew)
      = .ok (some (opInsert, fieldBytes (mergeFields enew cnew))) := by
  have hlen : enew.length = t.ncol := he.first_length.trans hncol.symm
  have hnew : cnew.length = t.ncol := (hc.readable.new nofun).trans hncol.symm
  change (splitRecord t.ncol (fieldBytes cold ++ fieldBytes cnew) >>= _) = _
  rw [splitRecord_update hncol hc, except_ok_bind]
  change (mergeRecord t.ncol (fieldBytes enew) ((fieldBytes cold ++ fieldBytes cnew).drop _) >>= _)
    = _
  rw [drop_left, ← hlen,
    mergeRecord_bytes (hlen.trans hnew.symm) he.readable.newFields hc.readable.newFields]
  rfl

theorem mergeOps_delete_insert
    (he : (mk .delete eold enew).Collectable t.pkFlags)
    (hc : (mk .insert cold cnew).Collectable t.pkFlags)
    : t.mergeOps (encodeChange t.pkFlags (ind, ⟨.delete, eold, enew⟩)) opInsert
      (fieldBytes cnew)
      = .ok (((mergedUpdate t.pkFlags eold cnew).map (·.bytes t.pkFlags false)).map
          (opUpdate, ·)) := by
  have hlen : eold.length = t.ncol := he.first_length.trans hncol.symm
  have hnew : cnew.length = t.ncol := hc.first_length.trans hncol.symm
  have hmerge := @mergeUpdate_fields t.ncol t.pkFlags eold cnew none none hlen hnew
    he.readable.oldFields nofun hc.readable.newFields nofun
  change (do
    let out ← mergeUpdate t.ncol t.pkFlags
      (bytes ⟨.delete, eold, enew⟩ t.pkFlags false) none
      (fieldBytes cnew) none
    return out.map (opUpdate, ·) : Result _) = _
  rw [bytes_delete]
  change (mergeUpdate t.ncol t.pkFlags (fieldBytes eold) none (fieldBytes cnew) none >>= _) = _
  rw [Option.map_none] at hmerge
  rw [hmerge]
  rfl

theorem mergeOps_update_update
    (he : (mk .update eold enew).Collectable t.pkFlags)
    (hc : (mk .update cold cnew).Collectable t.pkFlags)
    : t.mergeOps (encodeChange t.pkFlags (ind, ⟨.update, eold, enew⟩)) opUpdate
      (fieldBytes cold ++ fieldBytes cnew)
      = .ok (((mergedUpdate t.pkFlags (mergeFields cold eold) (mergeFields enew cnew)).map
          (·.bytes t.pkFlags false)).map (opUpdate, ·)) := by
  have hold : cold.length = t.ncol := hc.first_length.trans hncol.symm
  have holdE : eold.length = t.ncol := he.first_length.trans hncol.symm
  have hnew : enew.length = t.ncol := (he.readable.new nofun).trans hncol.symm
  have hnewC : cnew.length = t.ncol := (hc.readable.new nofun).trans hncol.symm
  have hmerge := @mergeUpdate_fields t.ncol t.pkFlags cold enew (some eold) (some cnew) hold hnew
    hc.readable.oldFields
      (fun f hf => by cases hf; exact ⟨holdE.trans hold.symm, he.readable.oldFields⟩)
    he.readable.newFields
      (fun f hf => by cases hf; exact ⟨hnewC.trans hnew.symm, hc.readable.newFields⟩)
  change (splitRecord t.ncol (fieldBytes eold ++ fieldBytes enew) >>= _) = _
  rw [splitRecord_update hncol he, except_ok_bind]
  dsimp only
  rw [splitRecord_update hncol hc, except_ok_bind]
  change (mergeUpdate t.ncol t.pkFlags ((fieldBytes cold ++ fieldBytes cnew).take _)
    (some ((fieldBytes eold ++ fieldBytes enew).take _))
      ((fieldBytes eold ++ fieldBytes enew).drop _)
    (some ((fieldBytes cold ++ fieldBytes cnew).drop _)) >>= _) = _
  rw [take_left, take_left, drop_left, drop_left]
  rw [Option.map_some, Option.map_some] at hmerge
  rw [hmerge]
  rfl

theorem mergeOps_update_delete
    (he : (mk .update eold enew).Collectable t.pkFlags)
    (hc : (mk .delete cold cnew).Collectable t.pkFlags)
    : t.mergeOps (encodeChange t.pkFlags (ind, ⟨.update, eold, enew⟩)) opDelete
      (fieldBytes cold)
      = .ok (some (opDelete, fieldBytes (mergeFields cold eold))) := by
  have hlen : cold.length = t.ncol := hc.first_length.trans hncol.symm
  have hold : eold.length = t.ncol := he.first_length.trans hncol.symm
  change (splitRecord t.ncol (fieldBytes eold ++ fieldBytes enew) >>= _) = _
  rw [splitRecord_update hncol he, except_ok_bind]
  change (mergeRecord t.ncol (fieldBytes cold) ((fieldBytes eold ++ fieldBytes enew).take _) >>= _)
    = _
  rw [take_left, ← hlen,
    mergeRecord_bytes (hlen.trans hold.symm) hc.readable.oldFields he.readable.oldFields]
  rfl

end Pairs

/-- Merging the bytes of two changes that both count. -/
theorem mergeOps_bytes {e c : ChangeRecord} (hncol : t.ncol = t.pkFlags.length)
    (he : e.Collectable t.pkFlags) (hc : c.Collectable t.pkFlags)
    (hpair : keepsFirst e.op c.op = false) (hcount : ¬(e.op = .insert ∧ c.op = .delete))
    (ind : Bool)
    : t.mergeOps (encodeChange t.pkFlags (ind, e)) c.op.byte (c.bytes t.pkFlags false)
      = .ok ((mergeChange t.pkFlags e c).map fun m => (m.op.byte, m.bytes t.pkFlags false)) := by
  obtain ⟨eop, eold, enew⟩ := e
  obtain ⟨cop, cold, cnew⟩ := c
  have hupdate : ∀ old new : List (Option Value),
      ((mergedUpdate t.pkFlags old new).map (·.bytes t.pkFlags false)).map (opUpdate, ·)
        = (mergedUpdate t.pkFlags old new).map fun m => (m.op.byte, m.bytes t.pkFlags false) := by
    intro old new
    unfold mergedUpdate
    split_ifs <;> rfl
  cases eop with
  | insert =>
    cases cop with
    | insert => cases hpair
    | delete => exact absurd ⟨rfl, rfl⟩ hcount
    | update => exact mergeOps_insert_update hncol ind he hc
  | delete =>
    cases cop with
    | delete => cases hpair
    | update => cases hpair
    | insert => exact (mergeOps_delete_insert hncol ind he hc).trans (congrArg _ (hupdate _ _))
  | update =>
    cases cop with
    | insert => cases hpair
    | update => exact (mergeOps_update_update hncol ind he hc).trans (congrArg _ (hupdate _ _))
    | delete =>
      have hmerge := mergeOps_update_delete hncol ind he hc
      rw [bytes_delete]
      refine hmerge.trans ?_
      simp only [mergeChange, Option.map_some, bytes_delete]
      rfl

/-- Merging a change into the existing one of its row, by their bytes. -/
theorem merge_bytes (hncol : t.ncol = t.pkFlags.length)
    {existing : Option (Bool × ChangeRecord)} {p : Bool × ChangeRecord}
    (he : ∀ q ∈ existing, q.2.Collectable t.pkFlags) (hp : p.2.Collectable t.pkFlags)
    : t.merge (existing.map (encodeChange t.pkFlags)) p.2.op.byte (boolByte p.1)
      (p.2.bytes t.pkFlags false)
      = .ok ((mergeEntry t.pkFlags existing p).map (encodeChange t.pkFlags)) := by
  cases existing with
  | none => rfl
  | some q =>
    obtain ⟨ind, e⟩ := q
    obtain ⟨ind', c⟩ := p
    have hkeeps : (e.op.byte = opInsert ∧ c.op.byte = opInsert
        ∨ e.op.byte = opUpdate ∧ c.op.byte = opInsert
        ∨ e.op.byte = opDelete ∧ c.op.byte = opUpdate
        ∨ e.op.byte = opDelete ∧ c.op.byte = opDelete) ↔ keepsFirst e.op c.op = true := by
      cases e.op <;> cases c.op <;> decide
    have hnothing : (e.op.byte = opInsert ∧ c.op.byte = opDelete)
        ↔ (e.op = .insert ∧ c.op = .delete) := by
      cases e.op <;> cases c.op <;> decide
    have hind : boolByte (boolByte ind' != 0 && boolByte ind != 0) = boolByte (ind' && ind) := by
      cases ind' <;> cases ind <;> rfl
    have hop : (encodeChange t.pkFlags (ind, e)).op = e.op.byte := rfl
    rw [Option.map_some, ConcatTable.merge, mergeEntry]
    rw [hop]
    cases hpair : keepsFirst e.op c.op with
    | true =>
      rw [if_pos (hkeeps.mpr hpair)]
      rfl
    | false =>
      rw [if_neg (fun hno => by rw [hkeeps.mp hno] at hpair; cases hpair)]
      by_cases hcount : e.op = .insert ∧ c.op = .delete
      · simp only [mergeChange, hcount.1, hcount.2]
        rfl
      rw [if_neg (fun hno => hcount (hnothing.mp hno)),
        mergeOps_bytes hncol (he (ind, e) rfl) hp hpair hcount]
      simp only [encodeChange, hind]
      cases mergeChange t.pkFlags e c <;> rfl

theorem mergeEntry_change (pkFlags : Bytes) (q p : Bool × ChangeRecord)
    : (mergeEntry pkFlags (some q) p).map Prod.snd = mergeChange pkFlags q.2 p.2 := by
  obtain ⟨ind, e⟩ := q
  obtain ⟨ind', c⟩ := p
  simp only [mergeEntry]
  split_ifs with hkeeps
  · unfold mergeChange
    cases hop : e.op <;> cases hop' : c.op <;> simp_all [keepsFirst]
  · cases mergeChange pkFlags e c <;> rfl

end GraphiteSql.Session
