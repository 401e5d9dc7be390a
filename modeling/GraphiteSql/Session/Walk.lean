import GraphiteSql.Session.RawFields

/-! The length walker against the parser on whole changesets: where the walker finds its way
through the bytes, the parser fails only at a record before any header, an undefined field, or a
text or table name that is not UTF-8.
-/

namespace GraphiteSql.Session

open Lib List Nat Reader

variable {ncol bound : Nat} {s rest pkFlags : Bytes} {items : List Item} {fields : List Bytes}
  {op : ChangeOp} {before : List TableChangeset} {t : TableChangeset}

/-- A piece of a changeset: a table header with its name, or a change record with its fields. -/
inductive Item where
  | header (name : Bytes)
  | change (fields : List Bytes)
deriving DecidableEq, Repr

/-- The pieces that bytes consist of, when records have `ncol` fields until the next header. -/
inductive Walk : (ncol : Nat) → Bytes → List Item → Prop where
  | done (ncol : Nat) : Walk ncol [] []
  | header {ncol ncol' : Nat} {body pkFlags name rest : Bytes} {items : List Item}
      (read : Reader.headerBody body = .ok (ncol', pkFlags, name) rest)
      (next : Walk ncol' rest items)
      : Walk ncol (0x54 :: body) (.header name :: items)
  | row {ncol n : Nat} {op indirect : UInt8} {a : Bytes} {fields : List Bytes} {items : List Item}
      (known : op = opInsert ∨ op = opDelete) (split : splitRecord ncol a = .ok (fields, n))
      (next : Walk ncol (a.drop n) items)
      : Walk ncol (op :: indirect :: a) (.change fields :: items)
  | update {ncol n m : Nat} {indirect : UInt8} {a : Bytes} {old new : List Bytes}
      {items : List Item} (splitOld : splitRecord ncol a = .ok (old, n))
      (splitNew : splitRecord ncol (a.drop n) = .ok (new, m))
      (next : Walk ncol ((a.drop n).drop m) items)
      : Walk ncol (opUpdate :: indirect :: a) (.change (old ++ new) :: items)

/-- The pieces are determined by the bytes. -/
theorem Walk.unique {items' : List Item} (h : Walk ncol s items) (h' : Walk ncol s items')
    : items = items' := by
  induction h generalizing items' with
  | done =>
    cases h'
    rfl
  | header read next ih =>
    cases h' with
    | header read' next' =>
      rw [read] at read'
      cases read'
      rw [ih next']
    | row known' => exact absurd known' (by decide)
  | row known split next ih =>
    cases h' with
    | header => exact absurd known (by decide)
    | row known' split' next' =>
      rw [split] at split'
      cases split'
      rw [ih next']
    | update => exact absurd known (by decide)
  | update splitOld splitNew next ih =>
    cases h' with
    | row known' => exact absurd known' (by decide)
    | update splitOld' splitNew' next' =>
      rw [splitOld] at splitOld'
      cases splitOld'
      rw [splitNew] at splitNew'
      cases splitNew'
      rw [ih next']

theorem take_eq_ok {n : Nat} {bytes : Bytes} (h : Reader.take n s = .ok bytes rest)
    : bytes = s.take n ∧ rest = s.drop n := by
  unfold Reader.take at h
  rw [estate_get_bind] at h
  split_ifs at h
  · cases h
  · cases h
    exact ⟨rfl, rfl⟩

theorem onRest_eq_ok {α : Type} {f : Bytes → Result α} {a : α} (h : onRest f s = .ok a rest)
    : f s = .ok a ∧ rest = s := by
  unfold onRest at h
  rw [estate_get_bind] at h
  cases hf : f s with
  | error e =>
    rw [hf] at h
    cases h
  | ok b =>
    rw [hf] at h
    cases h
    exact ⟨rfl, rfl⟩

theorem splitFields_eq_ok (h : splitFields ncol s = .ok fields rest)
    : ∃ n, splitRecord ncol s = .ok (fields, n) ∧ rest = s.drop n := by
  obtain ⟨⟨fields', n⟩, mid, hsplit, h⟩ := estate_bind_eq_ok.mp h
  obtain ⟨record, mid', htake, h⟩ := estate_bind_eq_ok.mp h
  cases h
  obtain ⟨hsplit, rfl⟩ := onRest_eq_ok hsplit
  exact ⟨n, hsplit, (take_eq_ok htake).2⟩

/-- One step of the inversion goes over one piece. -/
theorem invertStep_walk {ncol' : Nat} {pkFlags' out : Bytes}
    (h : invertStep ncol pkFlags s = .ok (ncol', pkFlags', out) rest)
    : ∃ item, ∀ items, Walk ncol' rest items → Walk ncol s (item :: items) := by
  cases s with
  | nil => cases h
  | cons marker body =>
    obtain ⟨marker', mid, hpeek, h⟩ := estate_bind_eq_ok.mp h
    cases hpeek
    split_ifs at h with hheader hrow hupdate
    · subst hheader
      obtain ⟨hdr, mid, hhdr, h⟩ := estate_bind_eq_ok.mp h
      cases h
      rw [tableHdr_eq, estate_get_bind, estate_bind_ok (u8_cons _ _)] at hhdr
      obtain ⟨⟨ncol', flags, name⟩, mid, hbody, hhdr⟩ := estate_bind_eq_ok.mp hhdr
      cases hhdr
      exact ⟨_, fun items next => .header hbody next⟩
    · rw [estate_bind_ok (u8_cons _ _)] at h
      obtain ⟨indirect, mid, hindirect, h⟩ := estate_bind_eq_ok.mp h
      obtain ⟨⟨fields, n⟩, mid', hsplit, h⟩ := estate_bind_eq_ok.mp h
      obtain ⟨record, mid'', htake, h⟩ := estate_bind_eq_ok.mp h
      cases h
      obtain ⟨hsplit, rfl⟩ := onRest_eq_ok hsplit
      obtain ⟨-, rfl⟩ := take_eq_ok htake
      cases body with
      | nil => cases hindirect
      | cons b a =>
        cases hindirect
        exact ⟨_, fun items next => .row hrow hsplit next⟩
    · subst hupdate
      rw [estate_bind_ok (u8_cons _ _)] at h
      obtain ⟨indirect, mid, hindirect, h⟩ := estate_bind_eq_ok.mp h
      obtain ⟨old, mid', hold, h⟩ := estate_bind_eq_ok.mp h
      obtain ⟨new, mid'', hnew, h⟩ := estate_bind_eq_ok.mp h
      cases h
      obtain ⟨n, hsplitOld, rfl⟩ := splitFields_eq_ok hold
      obtain ⟨m, hsplitNew, rfl⟩ := splitFields_eq_ok hnew
      cases body with
      | nil => cases hindirect
      | cons b a =>
        cases hindirect
        exact ⟨_, fun items next => .update hsplitOld hsplitNew next⟩
    · cases h

theorem invertLoop_walk {out out' : Bytes} (h : invertLoop bound ncol pkFlags out s = .ok out' rest)
    : ∃ items, Walk ncol s items := by
  induction bound generalizing ncol pkFlags out s with
  | zero => cases h
  | succ bound ih =>
    unfold invertLoop at h
    rw [estate_get_bind] at h
    split_ifs at h with hempty
    · rw [isEmpty_iff.mp hempty]
      exact ⟨[], .done ncol⟩
    obtain ⟨⟨ncol', flags, written⟩, mid, hstep, h⟩ := estate_bind_eq_ok.mp h
    obtain ⟨item, hwalk⟩ := invertStep_walk hstep
    obtain ⟨items, hitems⟩ := ih h
    exact ⟨item :: items, hwalk items hitems⟩

theorem invert_walk {c d : Bytes} (h : invert c = .ok d)
    : ∃ items, Walk 0 c items := by
  unfold invert at h
  cases hloop : invertLoop (c.length + 1) 0 [] [] c with
  | error e rest =>
    rw [hloop] at h
    cases h
  | ok out rest => exact invertLoop_walk hloop

/-- A piece that the parser accepts after a header. -/
def Item.Known : Item → Prop
  | .header name => validUtf8 name
  | .change fields => ∀ f ∈ fields, KnownField f

def HeaderFirst : List Item → Prop
  | .change _ :: _ => False
  | _ => True

def Parses (bound : Nat) (tables : List TableChangeset) (s : Bytes) : Prop :=
  ∃ out rest, parseLoop bound tables false s = .ok out rest

theorem parses_nil (bound : Nat) (tables : List TableChangeset)
    : Parses (bound + 1) tables [] :=
  ⟨tables, [], rfl⟩

theorem parses_step {tables : List TableChangeset} (hs : s ≠ [])
    : Parses (bound + 1) tables s ↔ ∃ tables' patchset s',
      parseStep tables false s = .ok (tables', patchset) s'
        ∧ ∃ out rest, parseLoop bound tables' patchset s' = .ok out rest := by
  constructor
  · rintro ⟨out, rest, h⟩
    rw [parseLoop, estate_get_bind, if_neg (by simpa using hs)] at h
    obtain ⟨⟨tables', patchset⟩, s', hstep, h⟩ := estate_bind_eq_ok.mp h
    exact ⟨tables', patchset, s', hstep, out, rest, h⟩
  · rintro ⟨tables', patchset, s', hstep, out, rest, h⟩
    exact ⟨out, rest, by rw [parseLoop_step hs hstep, h]⟩

theorem parses_header {tables : List TableChangeset} {body : Bytes} {name : Bytes}
    (h : headerBody body = .ok (ncol, pkFlags, name) rest)
    : Parses (bound + 1) tables (0x54 :: body)
      ↔ validUtf8 name
        ∧ Parses bound (tables ++ [{ name, ncol, pkFlags, changes := [] }]) rest := by
  have hread : header body
      = (if !validUtf8 name then throw (corrupt "non-UTF-8 table name") else
          return { name, ncol, pkFlags, changes := [] } : Reader TableChangeset) rest := by
    rw [header_eq, estate_bind_ok h]
  have hstep : parseStep tables false (0x54 :: body)
      = (do return (tables ++ [← header], false) : Reader _) body := rfl
  rw [parses_step (cons_ne_nil _ _), hstep]
  cases hutf8 : validUtf8 name with
  | false =>
    rw [hutf8] at hread
    have herror : (do return (tables ++ [← header], false) : Reader _) body
        = .error (corrupt "non-UTF-8 table name") rest := estate_bind_error hread
    simp [herror]
  | true =>
    rw [hutf8] at hread
    have hok : (do return (tables ++ [← header], false) : Reader _) body
        = .ok (tables ++ [{ name, ncol, pkFlags, changes := [] }], false) rest :=
      estate_bind_ok hread
    rw [hok]
    constructor
    · intro ⟨tables', patchset, s', heq, hloop⟩
      cases heq
      exact ⟨rfl, hloop⟩
    · intro ⟨_, hloop⟩
      exact ⟨_, _, _, rfl, hloop⟩

theorem not_parses_change {op : UInt8}
    (hop : op = opInsert ∨ op = opUpdate ∨ op = opDelete) (a : Bytes)
    : ¬Parses bound [] (op :: a) := by
  intro ⟨out, rest, h⟩
  obtain ⟨bound', tables', patchset', s', hstep, -⟩ := parseLoop_inv (cons_ne_nil _ _) h
  have hmarker : ¬(op = 0x54 ∨ op = 0x50) := by
    rcases hop with rfl | rfl | rfl <;> decide
  rw [parseStep, estate_bind_ok (u8_cons _ _), if_neg hmarker, if_pos hop] at hstep
  cases hstep

theorem parses_change {indirect : UInt8} {good : Prop}
    (h : Decides (change t false op.byte) s rest good)
    : Parses (bound + 1) (before ++ [t]) (op.byte :: indirect :: s)
      ↔ good ∧ ∃ c, change t false op.byte s = .ok c rest
        ∧ Parses bound (before ++ [t.push [c]]) rest := by
  rw [parses_step (cons_ne_nil _ _), parseStep_change]
  constructor
  · intro ⟨tables', patchset, s', hstep, hloop⟩
    obtain ⟨c, mid, hc, hpure⟩ := estate_bind_eq_ok.mp hstep
    cases hpure
    by_cases hgood : good
    · obtain ⟨c', hc'⟩ := h.passes hgood
      rw [hc'] at hc
      cases hc
      exact ⟨hgood, c, hc', hloop⟩
    · exact absurd hc (h.fails hgood c s')
  · intro ⟨_, c, hc, hloop⟩
    exact ⟨_, false, rest, estate_bind_ok hc, hloop⟩

theorem parses_change_items
    {indirect : UInt8}
    (h : Decides (change t false op.byte) s rest (∀ f ∈ fields, KnownField f))
    (hitems : ∀ t' : TableChangeset, t'.ncol = t.ncol →
      (Parses bound (before ++ [t']) rest ↔ ∀ i ∈ items, i.Known))
    : Parses (bound + 1) (before ++ [t]) (op.byte :: indirect :: s)
      ↔ ∀ i ∈ .change fields :: items, i.Known := by
  rw [parses_change h, forall_mem_cons]
  refine and_congr_right fun hknown => ⟨fun ⟨c, _, hparses⟩ => ?_, fun hall => ?_⟩
  · exact (hitems (t.push [c]) rfl).mp hparses
  · obtain ⟨c, hc⟩ := h.passes hknown
    exact ⟨c, hc, (hitems (t.push [c]) rfl).mpr hall⟩

theorem change_row (hop : op ≠ .update)
    (hlen : fields.length = t.ncol) (hraw : ∀ f ∈ fields, RawField f) (rest : Bytes)
    : Decides (change t false op.byte) (fields.flatten ++ rest) rest
      (∀ f ∈ fields, KnownField f) := by
  have hrecord := record_fields hraw rest
  rw [hlen] at hrecord
  cases op with
  | insert => exact hrecord.map _
  | update => exact absurd rfl hop
  | delete => exact hrecord.map _

theorem change_update {old new : List Bytes} (hold : old.length = t.ncol)
    (hnew : new.length = t.ncol) (hraw : ∀ f ∈ old, RawField f) (hraw' : ∀ f ∈ new, RawField f)
    (rest : Bytes)
    : Decides (change t false ChangeOp.update.byte)
      (old.flatten ++ (new.flatten ++ rest)) rest (∀ f ∈ old ++ new, KnownField f) := by
  have hfirst := record_fields hraw (new.flatten ++ rest)
  have hsecond := record_fields hraw' rest
  rw [hold] at hfirst
  rw [hnew] at hsecond
  rw [forall_mem_append]
  exact hfirst.bind fun vs => hsecond.map _

/-- After a header, the parser gets through exactly if all pieces are known. -/
theorem Walk.parses (h : Walk ncol s items) (hbound : s.length < bound) (ht : t.ncol = ncol)
    : Parses bound (before ++ [t]) s ↔ ∀ i ∈ items, i.Known := by
  induction h generalizing bound before t with
  | done ncol =>
    obtain ⟨bound, rfl⟩ := exists_eq_succ_of_ne_zero (ne_of_gt hbound)
    exact iff_of_true (parses_nil _ _) (by simp)
  | @header ncol ncol' body pkFlags name rest items read next ih =>
    obtain ⟨bound, rfl⟩ := exists_eq_succ_of_ne_zero (ne_zero_of_lt hbound)
    have hlen := headerBody_length read
    rw [parses_header read, forall_mem_cons]
    refine and_congr Iff.rfl (ih ?_ rfl)
    simp only [length_cons] at hbound
    omega
  | @row ncol n op indirect a fields items known split next ih =>
    obtain ⟨bound, rfl⟩ := exists_eq_succ_of_ne_zero (ne_zero_of_lt hbound)
    obtain ⟨rest, rfl, rfl, hcount, hraw⟩ := splitRecord_fields split
    obtain ⟨op, hop, rfl⟩ : ∃ o : ChangeOp, o ≠ .update ∧ o.byte = op :=
      known.elim (fun h => ⟨.insert, by decide, h.symm⟩) fun h => ⟨.delete, by decide, h.symm⟩
    rw [drop_left] at ih
    refine parses_change_items (change_row hop (hcount.trans ht.symm) hraw rest)
      fun t' ht' => ih ?_ (ht'.trans ht)
    simp only [length_cons, length_append] at hbound
    omega
  | @update ncol n m indirect a old new items splitOld splitNew next ih =>
    obtain ⟨bound, rfl⟩ := exists_eq_succ_of_ne_zero (ne_zero_of_lt hbound)
    obtain ⟨mid, rfl, rfl, hcount, hraw⟩ := splitRecord_fields splitOld
    rw [drop_left] at splitNew ih
    obtain ⟨rest, rfl, rfl, hcount', hraw'⟩ := splitRecord_fields splitNew
    rw [drop_left] at ih
    refine parses_change_items
      (change_update (hcount.trans ht.symm) (hcount'.trans ht.symm) hraw hraw' rest)
      fun t' ht' => ih ?_ (ht'.trans ht)
    simp only [length_cons, length_append] at hbound
    omega

/-- The parser accepts exactly the pieces that start with a header and are known. -/
theorem Walk.parse_iff {c : Bytes} (h : Walk 0 c items)
    : (∃ groups, parseChangeset c = .ok groups)
      ↔ HeaderFirst items ∧ ∀ i ∈ items, i.Known := by
  have hparse : (∃ groups, parseChangeset c = .ok groups) ↔ Parses (c.length + 1) [] c := by
    unfold parseChangeset Parses
    cases parseLoop (c.length + 1) [] false c <;> simp
  rw [hparse]
  cases h with
  | done => exact iff_of_true (parses_nil _ _) ⟨trivial, by simp⟩
  | @header _ ncol' body pkFlags name rest items read next =>
    have hlen := headerBody_length read
    rw [parses_header read, forall_mem_cons]
    have hnext := @Walk.parses _ _ _ _ [] { name, ncol := ncol', pkFlags, changes := [] } next
      (lt_succ_of_le hlen) rfl
    exact (and_congr Iff.rfl hnext).trans (and_iff_right trivial).symm
  | row known split next =>
    refine iff_of_false (not_parses_change ?_ _) fun hfirst => hfirst.1
    exact known.elim .inl fun h => .inr (.inr h)
  | update splitOld splitNew next =>
    exact iff_of_false (not_parses_change (.inr (.inl rfl)) _) fun hfirst => hfirst.1

end GraphiteSql.Session
