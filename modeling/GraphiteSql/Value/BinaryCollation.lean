import GraphiteSql.Dml.Keys

/-! The binary collation against the order of bytes. Texts are compared through their string
view, which is empty for every text that is not UTF-8, so it is the byte order exactly where the
view loses nothing that decides the comparison.
-/

namespace GraphiteSql

open Lib List

variable {x : Bytes} {descs : List Bool}

/-- Texts that the binary collation orders as their bytes: both are UTF-8, or they are the same, or
the only one that is not UTF-8 comes first also by its bytes.
-/
def ByteOrdered : Value → Value → Prop
  | .text x, .text y =>
      (validUtf8 x = true ∧ validUtf8 y = true) ∨ x = y
        ∨ (validUtf8 x = false ∧ validUtf8 y = true ∧ compare x y = .lt)
        ∨ (validUtf8 x = true ∧ validUtf8 y = false ∧ compare x y = .gt)
  | _, _ => True

/-- Different texts with the same string view: each is empty or not UTF-8. -/
def Value.Indistinct : Value → Value → Prop
  | .text x, .text y => x ≠ y ∧ asStr x = [] ∧ asStr y = []
  | _, _ => False

/-- Column by column, the records compare equal or have the same string view. -/
def SameColumns (a b : List Value) : Prop :=
  a.length = b.length ∧ ∀ (i : Nat) (x y : Value), a[i]? = some x → b[i]? = some y →
    cmpValues x y = .eq ∨ x.Indistinct y

def columnOrder (colls : List Collation) (descs : List Bool) (i : Nat) (x y : Value) : Ordering :=
  let order := cmpValuesColl x y (colls.getD i .binary)
  if descs.getD i false then order.swap else order

/-- The order of two index records: the first column that differs decides, then the length. -/
def cmpRecords (a b : Bytes) (enc : TextEncoding) (colls : List Collation) (descs : List Bool)
    : Result Ordering := do
  let va ← decodeRecord a enc
  let vb ← decodeRecord b enc
  let orders := (va.zip vb).mapIdx fun i p => columnOrder colls descs i p.1 p.2
  return (orders.find? (· != .eq)).getD (compare va.length vb.length)

/-- The slot that `insert_index` takes among the entries of a leaf, or the child it descends into,
from entry `i` on; `none` when an entry counts as the record itself.
-/
def indexSlot (cmp : Bytes → Result Ordering) : (i : Nat) → List Bytes → Result (Option Nat)
  | i, [] => .ok (some i)
  | i, entry :: entries => do
      match ← cmp entry with
      | .lt => return some i
      | .eq => return none
      | .gt => indexSlot cmp (i + 1) entries

theorem asStr_of_valid (h : validUtf8 x = true) : asStr x = x := if_pos h

theorem asStr_of_invalid (h : validUtf8 x = false) : asStr x = [] :=
  if_neg (by rw [h]; decide)

theorem ne_nil_of_invalid (h : validUtf8 x = false) : x ≠ [] := by
  rintro rfl
  cases h

theorem compare_nil_left : compare [] x = if x = [] then .eq else .lt := by
  cases x <;> simp

theorem compare_nil_right : compare x [] = if x = [] then .eq else .gt := by
  cases x <;> simp

/-- The view of a text that is not UTF-8 is the empty string, which is below all others. -/
theorem cmpValuesColl_binary_iff (a b : Value)
    : cmpValuesColl a b .binary = cmpValues a b ↔ ByteOrdered a b := by
  cases a with
  | text x =>
    cases b with
    | text y =>
      simp only [cmpValuesColl, cmpText, cmpValues, ByteOrdered]
      cases hx : validUtf8 x <;> cases hy : validUtf8 y
      · rw [asStr_of_invalid hx, asStr_of_invalid hy, eq_comm]
        simp
      · have hne := ne_nil_of_invalid hx
        rw [asStr_of_invalid hx, asStr_of_valid hy, compare_nil_left]
        by_cases hnil : y = []
        · simp [hnil, compare_nil_right, hne]
        have hxy : x ≠ y := by
          rintro rfl
          rw [hx] at hy
          cases hy
        simp [hnil, hxy, eq_comm]
      · have hne := ne_nil_of_invalid hy
        rw [asStr_of_valid hx, asStr_of_invalid hy, compare_nil_right]
        by_cases hnil : x = []
        · simp [hnil, compare_nil_left, hne, Ne.symm hne]
        have hxy : x ≠ y := by
          rintro rfl
          rw [hx] at hy
          cases hy
        simp [hnil, hxy, eq_comm]
      · rw [asStr_of_valid hx, asStr_of_valid hy]
        simp
    | _ => exact iff_of_true rfl trivial
  | _ => exact iff_of_true rfl trivial

/-- Equal under the binary collation: equal by the bytes, or indistinct. -/
theorem cmpValuesColl_binary_eq {a b : Value}
    : cmpValuesColl a b .binary = .eq ↔ cmpValues a b = .eq ∨ a.Indistinct b := by
  cases a with
  | text x =>
    cases b with
    | text y =>
      simp only [cmpValuesColl, cmpText, cmpValues, Value.Indistinct, Std.compare_eq_iff_eq]
      constructor
      · intro hview
        by_cases heq : x = y
        · exact .inl heq
        refine .inr ⟨heq, ?_⟩
        cases hx : validUtf8 x <;> cases hy : validUtf8 y
        · exact ⟨asStr_of_invalid hx, asStr_of_invalid hy⟩
        · exact ⟨asStr_of_invalid hx, hview ▸ asStr_of_invalid hx⟩
        · exact ⟨hview ▸ asStr_of_invalid hy, asStr_of_invalid hy⟩
        · rw [asStr_of_valid hx, asStr_of_valid hy] at hview
          exact absurd hview heq
      · rintro (rfl | ⟨-, hx, hy⟩)
        · rfl
        · rw [hx, hy]
    | _ => simp [cmpValuesColl, Value.Indistinct]
  | _ => simp [cmpValuesColl, Value.Indistinct]

/-- The first order that is not `eq` decides. -/
theorem firstOrder_eq {orders : List Ordering} {last : Ordering}
    : (orders.find? (· != .eq)).getD last = .eq ↔ (∀ o ∈ orders, o = .eq) ∧ last = .eq := by
  cases hfind : orders.find? (· != .eq) with
  | none =>
    have hall : ∀ o ∈ orders, o = .eq := by simpa using hfind
    exact ⟨fun hlast => ⟨hall, hlast⟩, fun h => h.2⟩
  | some o =>
    have hne : o ≠ .eq := by simpa using find?_some hfind
    exact ⟨fun heq => absurd heq hne, fun h => absurd (h.1 o (mem_of_find?_eq_some hfind)) hne⟩

/-- A record counts as present exactly when an entry behind lower ones compares equal. -/
theorem indexSlot_none {cmp : Bytes → Result Ordering} {entries : List Bytes} {i : Nat}
    : indexSlot cmp i entries = .ok none
      ↔ ∃ lower entry rest, entries = lower ++ entry :: rest ∧ (∀ e ∈ lower, cmp e = .ok .gt)
        ∧ cmp entry = .ok .eq := by
  constructor
  · intro h
    induction entries generalizing i with
    | nil => cases h
    | cons entry entries ih =>
      obtain ⟨order, hcmp, hrest⟩ := except_bind_eq_ok.mp h
      cases order with
      | lt => cases hrest
      | eq => exact ⟨[], entry, entries, rfl, nofun, hcmp⟩
      | gt =>
        obtain ⟨lower, found, rest, rfl, hlower, heq⟩ := ih hrest
        exact ⟨entry :: lower, found, rest, rfl, forall_mem_cons.mpr ⟨hcmp, hlower⟩, heq⟩
  · rintro ⟨lower, entry, rest, rfl, hlower, heq⟩
    induction lower generalizing i with
    | nil => exact except_bind_eq_ok.mpr ⟨_, heq, rfl⟩
    | cons e lower ih =>
      obtain ⟨he, hlower'⟩ := forall_mem_cons.mp hlower
      exact except_bind_eq_ok.mpr ⟨_, he, ih hlower'⟩

section Keys

variable {colls : List Collation} (hcolls : ∀ c ∈ colls, c = .binary)

include hcolls

theorem getD_binary (i : Nat) : colls.getD i .binary = .binary := by
  rw [getD_eq_getElem?_getD]
  cases hi : colls[i]? with
  | none => rfl
  | some c => exact hcolls c (mem_of_getElem? hi)

theorem columnOrder_eq {i : Nat} {x y : Value}
    : columnOrder colls descs i x y = .eq ↔ cmpValues x y = .eq ∨ x.Indistinct y := by
  rw [← cmpValuesColl_binary_eq, columnOrder, getD_binary hcolls]
  split
  · exact Ordering.swap_eq_eq
  · exact Iff.rfl

theorem columnOrders_eq {a b : List Value}
    : (∀ o ∈ (a.zip b).mapIdx (fun i p => columnOrder colls descs i p.1 p.2), o = .eq)
      ↔ ∀ (i : Nat) (x y : Value), a[i]? = some x → b[i]? = some y →
        cmpValues x y = .eq ∨ x.Indistinct y := by
  constructor
  · intro hall i x y hx hy
    have hzip : (a.zip b)[i]? = some (x, y) := getElem?_zip_eq_some.mpr ⟨hx, hy⟩
    have horder := hall (columnOrder colls descs i x y) (mem_of_getElem? (i := i) (by
      rw [getElem?_mapIdx, hzip]
      rfl))
    exact (columnOrder_eq hcolls).mp horder
  intro hall o ho
  obtain ⟨i, hi⟩ := getElem?_of_mem ho
  rw [getElem?_mapIdx, Option.map_eq_some_iff] at hi
  obtain ⟨p, hp, rfl⟩ := hi
  obtain ⟨hx, hy⟩ := getElem?_zip_eq_some.mp hp
  exact (columnOrder_eq hcolls).mpr (hall i _ _ hx hy)

/-- Records compare equal exactly if their columns are the same. -/
theorem cmpRecords_eq {a b : Bytes} {enc : TextEncoding}
    : cmpRecords a b enc colls descs = .ok .eq
      ↔ ∃ va vb, decodeRecord a enc = .ok va ∧ decodeRecord b enc = .ok vb ∧ SameColumns va vb := by
  unfold cmpRecords
  simp only [except_bind_eq_ok, pure, Except.pure, Except.ok.injEq, firstOrder_eq,
    columnOrders_eq hcolls, Std.compare_eq_iff_eq, SameColumns, exists_and_left]
  simp only [and_comm]

/-- Keys collide under binary collations exactly if their columns are the same. -/
theorem sameKey_binary {a b : List Value} (hlen : a.length = colls.length)
    : Dml.sameKey colls a b = true ↔ SameColumns a b := by
  rw [Dml.sameKey_iff]
  refine and_congr_right fun _ => forall₃_congr fun i x y => ?_
  constructor
  · intro h hx hy
    have hi : i < colls.length := hlen ▸ (List.getElem?_eq_some_iff.mp hx).1
    have heq := h _ hx hy (getElem?_eq_getElem hi)
    rw [hcolls _ (getElem_mem hi)] at heq
    exact cmpValuesColl_binary_eq.mp heq
  · intro h c hx hy hc
    rw [hcolls c (mem_of_getElem? hc)]
    exact cmpValuesColl_binary_eq.mpr (h hx hy)

end Keys

/-- The binary collation is the order of bytes exactly on the pairs `ByteOrdered`, and tells two
texts apart exactly unless they are indistinct. An index record counts as present, behind entries
that are lower, and a unique key as a duplicate, exactly when the columns are equal by their bytes
or indistinct.
-/
theorem binary_byteOrder_iff (a b : Value) (x y : Bytes) {colls : List Collation}
    (hcolls : ∀ c ∈ colls, c = .binary) (descs : List Bool) (enc : TextEncoding) (target : Bytes)
    (entries : List Bytes) {key key' : List Value} (hlen : key.length = colls.length)
    : (cmpValuesColl a b .binary = cmpValues a b ↔ ByteOrdered a b)
      ∧ ((cmpValuesColl (.text x) (.text y) .binary = .eq ↔ x = y)
        ↔ ¬ (Value.text x).Indistinct (.text y))
      ∧ (indexSlot (cmpRecords target · enc colls descs) 0 entries = .ok none
        ↔ ∃ lower entry rest, entries = lower ++ entry :: rest
          ∧ (∀ e ∈ lower, cmpRecords target e enc colls descs = .ok .gt)
          ∧ ∃ va vb, decodeRecord target enc = .ok va ∧ decodeRecord entry enc = .ok vb
            ∧ SameColumns va vb)
      ∧ (Dml.sameKey colls key key' = true ↔ SameColumns key key') := by
  refine ⟨cmpValuesColl_binary_iff a b, ?_, ?_, sameKey_binary hcolls hlen⟩
  · rw [cmpValuesColl_binary_eq]
    simp only [cmpValues, Std.compare_eq_iff_eq, Value.Indistinct]
    tauto
  · simp only [indexSlot_none, cmpRecords_eq hcolls]

/-- A text that is not UTF-8 before one that is, and a record that is found behind a lower one. -/
theorem binary_byteOrder_iff_pair
    : cmpValuesColl (.text [0x80]) (.text [0xc3, 0xa9]) .binary
        = cmpValues (.text [0x80]) (.text [0xc3, 0xa9])
      ∧ indexSlot (cmpRecords (encodeRecord [.text [0x61]]) · .utf8 [.binary] []) 0
          [encodeRecord [.text []], encodeRecord [.text [0x61]]] = .ok none := by
  have hcolls : ∀ c ∈ [Collation.binary], c = .binary := forall_mem_singleton.mpr rfl
  obtain ⟨horder, -, hslot, -⟩ := @binary_byteOrder_iff (.text [0x80]) (.text [0xc3, 0xa9]) [] []
    [.binary] hcolls [] .utf8 (encodeRecord [.text [0x61]])
    [encodeRecord [.text []], encodeRecord [.text [0x61]]] [.null] [] rfl
  refine ⟨horder.mpr (.inr (.inr (.inl (by decide +kernel)))), hslot.mpr ⟨[_], _, [], rfl, ?_, ?_⟩⟩
  · decide +kernel
  · exact (@cmpRecords_eq [] _ hcolls _ _ _).mp (by decide +kernel)

/-- Two different texts that are not UTF-8 are the same key. -/
theorem binary_confuses_texts
    : cmpValuesColl (.text [0xff]) (.text [0xfe]) .binary = .eq
      ∧ cmpValues (.text [0xff]) (.text [0xfe]) = .gt
      ∧ indexSlot (cmpRecords (encodeRecord [.text [0xff]]) · .utf8 [] []) 0
          [encodeRecord [.text [0xfe]]] = .ok none
      ∧ Dml.sameKey [.binary] [.text [0xff]] [.text [0xfe]] = true := by
  decide +kernel

end GraphiteSql
