import GraphiteSql.Session.Invert

/-! The length walker against the parser on fields, records and headers: of what the walker goes
over, the parser rejects only undefined fields, and texts and table names that are not UTF-8.
-/

namespace GraphiteSql.Session

open Lib List Reader

/-- A varint is read from its own bytes, whatever comes after them. -/
theorem varintFrom_split {left result n : Nat} {s rest : Bytes}
    (h : varintFrom left result s = .ok n rest)
    : ∃ enc, s = enc ++ rest ∧ ∀ more, varintFrom left result (enc ++ more) = .ok n more := by
  induction left generalizing result s with
  | zero =>
    obtain ⟨b, mid, hb, hv⟩ := estate_bind_eq_ok.mp h
    cases s with
    | nil => cases hb
    | cons byte tail =>
      cases hb
      cases hv
      exact ⟨[b], rfl, fun _ => rfl⟩
  | succ left ih =>
    obtain ⟨b, mid, hb, hv⟩ := estate_bind_eq_ok.mp h
    cases s with
    | nil => cases hb
    | cons byte tail =>
      cases hb
      split_ifs at hv with hlast
      · cases hv
        refine ⟨[b], rfl, fun more => ?_⟩
        rw [singleton_append, varintFrom, estate_bind_ok (u8_cons _ _), if_pos hlast]
        rfl
      obtain ⟨enc, rfl, hmore⟩ := ih hv
      refine ⟨b :: enc, rfl, fun more => ?_⟩
      rw [cons_append, varintFrom, estate_bind_ok (u8_cons _ _), if_neg hlast]
      exact hmore more

/-- The bytes of one field, as the concatenation copies them. -/
inductive RawField : Bytes → Prop where
  | tag {e : UInt8} (known : e = tOmit ∨ e = tUndefined ∨ e = tNull) : RawField [e]
  | number {e : UInt8} {body : Bytes} (known : e = tInt ∨ e = tFloat) (size : body.length = 8)
      : RawField (e :: body)
  | sized {e : UInt8} {enc payload : Bytes} (known : e = tText ∨ e = tBlob)
      (size : ∀ more, Reader.varint (enc ++ more) = .ok payload.length more)
      : RawField (e :: (enc ++ payload))

/-- The walker stops after a field. -/
theorem serialLen_field {a : Bytes} {n : Nat} (h : serialLen a = .ok n)
    : ∃ field rest, a = field ++ rest ∧ n = field.length ∧ RawField field := by
  cases a with
  | nil => cases h
  | cons e body =>
    unfold serialLen at h
    dsimp only at h
    split_ifs at h with htag hnumber hshort hsized
    · cases h
      exact ⟨[e], body, rfl, rfl, .tag htag⟩
    · cases h
      have hlen : 8 ≤ body.length := by
        rw [length_cons] at hshort
        omega
      have htake : (body.take 8).length = 8 := length_take_of_le hlen
      refine ⟨e :: body.take 8, body.drop 8, ?_, ?_, .number hnumber htake⟩
      · rw [cons_append, take_append_drop]
      · rw [length_cons, htake]
    cases hvarint : varint body with
    | error err s => simp [hvarint] at h
    | ok len rest =>
      rw [hvarint] at h
      dsimp only at h
      split_ifs at h with hfits
      cases h
      obtain ⟨enc, rfl, hmore⟩ := varintFrom_split hvarint
      have htake : (rest.take len).length = len :=
        length_take_of_le (Nat.le_of_not_lt hfits)
      refine ⟨e :: (enc ++ rest.take len), rest.drop len, ?_, ?_, .sized hsized fun more => ?_⟩
      · rw [cons_append, append_assoc, take_append_drop]
      · simp only [length_append, length_cons, htake]
        omega
      · rw [htake]
        exact hmore more

/-- A field that the parser reads, too: not the undefined one, and if it is a text, then UTF-8. -/
def KnownField (field : Bytes) : Prop :=
  field.head? ≠ some tUndefined
    ∧ (field.head? = some tText → ∀ text rest,
        Reader.lengthPrefixed field.tail = .ok text rest → validUtf8 text)

theorem lengthPrefixed_sized {enc payload : Bytes}
    (hsize : ∀ more, varint (enc ++ more) = .ok payload.length more) (rest : Bytes)
    : lengthPrefixed (enc ++ payload ++ rest) = .ok payload rest := by
  unfold lengthPrefixed
  rw [append_assoc, estate_bind_ok (hsize _)]
  exact take_append payload rest

/-- The parser reads a field exactly if it is known. -/
theorem value_field {field : Bytes} (h : RawField field) (rest : Bytes)
    : Decides value (field ++ rest) rest (KnownField field) := by
  cases h with
  | @tag e known =>
    rcases known with rfl | rfl | rfl
    · exact ⟨fun _ => ⟨none, rfl⟩, fun hno => absurd ⟨by decide, fun htext => by cases htext⟩ hno⟩
    · exact ⟨fun hyes => absurd rfl hyes.1, fun _ f rest' hok => by cases hok⟩
    · exact ⟨fun _ => ⟨some .null, rfl⟩,
        fun hno => absurd ⟨by decide, fun htext => by cases htext⟩ hno⟩
  | @number e body known size =>
    have htake : Reader.take 8 (body ++ rest) = .ok body rest := size ▸ take_append body rest
    rcases known with rfl | rfl
    · refine ⟨fun _ => ⟨_, estate_bind_ok htake⟩, fun hno => absurd ⟨?_, fun htext => ?_⟩ hno⟩
      · simp [tInt, tUndefined]
      · simp [tInt, tText] at htext
    · refine ⟨fun _ => ⟨_, estate_bind_ok htake⟩, fun hno => absurd ⟨?_, fun htext => ?_⟩ hno⟩
      · simp [tFloat, tUndefined]
      · simp [tFloat, tText] at htext
  | @sized e enc payload known size =>
    have hread := lengthPrefixed_sized size rest
    have hown : lengthPrefixed (enc ++ payload) = .ok payload [] := by
      simpa using lengthPrefixed_sized size []
    rcases known with rfl | rfl
    · have hvalue : value (tText :: (enc ++ payload) ++ rest) = text payload rest :=
        estate_bind_ok hread
      refine ⟨fun hyes => ?_, fun hno f rest' hok => hno ⟨by simp [tText, tUndefined], ?_⟩⟩
      · rw [hvalue, text, hyes.2 rfl payload [] hown]
        exact ⟨_, rfl⟩
      intro _ text more htext
      rw [tail_cons, hown] at htext
      cases htext
      rw [hvalue, text] at hok
      cases hutf8 : validUtf8 payload with
      | true => rfl
      | false => simp [hutf8] at hok
    · refine ⟨fun _ => ⟨_, estate_bind_ok hread⟩, fun hno => absurd ⟨?_, fun htext => ?_⟩ hno⟩
      · simp [tBlob, tUndefined]
      · simp [tBlob, tText] at htext

theorem splitRecord_fields {ncol : Nat} {a : Bytes} {fields : List Bytes} {n : Nat}
    (h : splitRecord ncol a = .ok (fields, n))
    : ∃ rest, a = fields.flatten ++ rest ∧ n = fields.flatten.length ∧ fields.length = ncol
      ∧ ∀ f ∈ fields, RawField f := by
  induction ncol generalizing a fields n with
  | zero =>
    cases h
    exact ⟨a, rfl, rfl, rfl, by simp⟩
  | succ ncol ih =>
    obtain ⟨k, hk, h⟩ := except_bind_eq_ok.mp h
    obtain ⟨⟨tail, off⟩, htail, h⟩ := except_bind_eq_ok.mp h
    cases h
    obtain ⟨field, rest, rfl, rfl, hraw⟩ := serialLen_field hk
    rw [drop_left] at htail
    obtain ⟨more, rfl, rfl, hlen, hall⟩ := ih htail
    refine ⟨more, ?_, ?_, by simp [hlen], ?_⟩
    · simp
    · simp
    · simpa using ⟨hraw, hall⟩

/-- The parser reads a record exactly if its fields are known. -/
theorem record_fields {fields : List Bytes} (hraw : ∀ f ∈ fields, RawField f) (rest : Bytes)
    : Decides (record fields.length) (fields.flatten ++ rest) rest
      (∀ f ∈ fields, KnownField f) := by
  induction fields with
  | nil => exact ⟨fun _ => ⟨[], rfl⟩, fun hno => absurd (by simp) hno⟩
  | cons field tail ih =>
    obtain ⟨hfield, htail⟩ := forall_mem_cons.mp hraw
    have hcons : record (tail.length + 1)
        = (do
            let f ← value
            return f :: (← record tail.length) : Reader _) := by
      unfold record fields
      rw [replicate_succ, mapM_cons]
      rfl
    rw [length_cons, flatten_cons, append_assoc, hcons, forall_mem_cons]
    exact (value_field hfield (tail.flatten ++ rest)).bind fun f => (ih htail).map (f :: ·)

def Reader.headerBody : Reader (Nat × Bytes × Bytes) := do
  let ncol ← varint
  if ncol = 0 then throw (corrupt "table has zero columns") else
  let pkFlags ← (List.replicate ncol ()).mapM fun _ => u8
  let name ← untilNul (← get)
  return (ncol, pkFlags, name)

theorem header_eq
    : header = (do
      let (ncol, pkFlags, name) ← headerBody
      if !validUtf8 name then throw (corrupt "non-UTF-8 table name") else
      return { name, ncol, pkFlags, changes := [] } : Reader TableChangeset) := by
  unfold header headerBody
  simp only [bind_assoc]
  congr 1
  funext ncol
  split_ifs
  · rfl
  · simp only [bind_assoc, pure_bind]

theorem tableHdr_eq
    : tableHdr = (do
      let start ← get
      let _marker ← u8
      let (ncol, pkFlags, name) ← headerBody
      let rest ← get
      return { ncol, pkFlags, name, raw := start.take (start.length - rest.length) }
        : Reader TableHdr) := by
  unfold tableHdr headerBody
  simp only [bind_assoc]
  congr 1
  funext start
  congr 1
  funext marker
  congr 1
  funext ncol
  split_ifs
  · rfl
  · simp only [bind_assoc, pure_bind]

theorem flags_length {l : List Unit} {s flags rest : Bytes}
    (h : (l.mapM fun _ => u8) s = .ok flags rest)
    : rest.length ≤ s.length := by
  induction l generalizing s flags with
  | nil =>
    cases h
    exact Nat.le_refl _
  | cons head tail ih =>
    rw [mapM_cons] at h
    obtain ⟨b, mid, hb, h⟩ := estate_bind_eq_ok.mp h
    obtain ⟨bs, mid', hbs, h⟩ := estate_bind_eq_ok.mp h
    cases h
    cases s with
    | nil => cases hb
    | cons byte more =>
      cases hb
      exact (ih hbs).trans (Nat.le_succ _)

theorem untilNul_length {bytes s name rest : Bytes} (h : untilNul bytes s = .ok name rest)
    : rest.length ≤ bytes.length := by
  induction bytes generalizing name with
  | nil => cases h
  | cons b more ih =>
    unfold untilNul at h
    split_ifs at h
    · cases h
      exact Nat.le_succ _
    · obtain ⟨tail, mid, htail, h⟩ := estate_bind_eq_ok.mp h
      cases h
      exact (ih htail).trans (Nat.le_succ _)

theorem headerBody_length {s rest : Bytes} {r : Nat × Bytes × Bytes}
    (h : headerBody s = .ok r rest)
    : rest.length ≤ s.length := by
  obtain ⟨ncol, s₁, hncol, h⟩ := estate_bind_eq_ok.mp h
  split_ifs at h
  · cases h
  obtain ⟨flags, s₂, hflags, h⟩ := estate_bind_eq_ok.mp h
  rw [estate_get_bind] at h
  obtain ⟨name, s₃, hname, h⟩ := estate_bind_eq_ok.mp h
  cases h
  obtain ⟨enc, rfl, -⟩ := varintFrom_split hncol
  calc rest.length ≤ s₂.length := untilNul_length hname
    _ ≤ s₁.length := flags_length hflags
    _ ≤ (enc ++ s₁).length := by simp

end GraphiteSql.Session
