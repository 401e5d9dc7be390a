import GraphiteSql.Error

/-! The `NEAR` group of an FTS5 query: the sweep over the starts of its phrases in one column.
Arithmetic on `usize` that leaves its range panics.
-/

namespace GraphiteSql.Fts5

open Lib List

/-- A phrase with its pointer: the start it is at and the starts after it. -/
structure Cursor where
  start : Nat
  later : List Nat
  len : Nat
deriving DecidableEq, Repr

/-- A phrase is its starts and its length. One that does not occur has no cursor. -/
def cursor? : List Nat × Nat → Option Cursor
  | ([], _) => none
  | (start :: later, len) => some { start := start, later := later, len := len }

def Cursor.stop (c : Cursor) : Result Nat := do
  usizeSub (← usizeAdd c.start c.len) 1

/-- The rounds of the sweep: advance the first phrase at the smallest start while the window is
too wide. The counter bounds the rounds.
-/
def sweep (n totalLen : Nat) : (fuel : Nat) → List Cursor → Result Bool
  | 0, _ => .error .diverge
  | fuel + 1, cursors => do
      let ends ← cursors.mapM Cursor.stop
      let starts := cursors.map Cursor.start
      let minStart := starts.min?.getD (2 ^ 64 - 1)
      let span ← usizeSub (ends.max?.getD 0) minStart
      let limit ← usizeAdd n totalLen
      if span < limit then return true
      else
        let c ← orPanic "index out of bounds" cursors[starts.idxOf minStart]?
        match c.later with
        | [] => return false
        | start :: later =>
            sweep n totalLen fuel
              (cursors.set (starts.idxOf minStart) { c with start := start, later := later })

def fts5NearMatches (phrases : List (List Nat × Nat)) (n : Nat) : Result Bool :=
  if phrases.any fun p => p.1.isEmpty then .ok false
  else do
    let totalLen ← phrases.foldlM (fun total p => usizeAdd total p.2) 0
    let cursors := phrases.filterMap cursor?
    sweep n totalLen ((cursors.flatMap Cursor.later).length + 1) cursors

-- What the group asks for

/-- An occurrence of a phrase, as its first and its last token. -/
def Occurs (o : Nat × Nat) (p : List Nat × Nat) : Prop :=
  o.1 ∈ p.1 ∧ o.2 = o.1 + p.2 - 1

/-- Some choice of one occurrence per phrase has no end `limit` or more past a start: the largest
end minus the smallest start is less than `limit`.
-/
def Near (phrases : List (List Nat × Nat)) (limit : Nat) : Prop :=
  ∃ choice, List.Forall₂ Occurs choice phrases
    ∧ ∀ a ∈ choice, ∀ b ∈ choice, a.2 - b.1 < limit

/-- What is known of a phrase in a column of fewer than `2 ^ 31` tokens. -/
structure Listed (p : List Nat × Nat) : Prop where
  len : 1 ≤ p.2
  sorted : p.1.Pairwise (· < ·)
  tokens : ∀ s ∈ p.1, s + p.2 < 2 ^ 31

def Cursor.phrase (c : Cursor) : List Nat × Nat :=
  (c.start :: c.later, c.len)

variable {phrases : List (List Nat × Nat)} {cursors : List Cursor} {limit n totalLen : Nat}

theorem Occurs.start_le {o : Nat × Nat} {c : Cursor} (h : Occurs o c.phrase)
    (hc : Listed c.phrase) : c.start ≤ o.1 := by
  rcases mem_cons.mp h.1 with heq | hlater
  · exact Nat.le_of_eq heq.symm
  · exact Nat.le_of_lt ((pairwise_cons.mp hc.sorted).1 _ hlater)

theorem forall₂_replace {choice : List (Nat × Nat)} {before after : List (List Nat × Nat)}
    {p q : List Nat × Nat} (h : List.Forall₂ Occurs choice (before ++ p :: after))
    (hq : ∀ o ∈ choice, Occurs o p → Occurs o q)
    : List.Forall₂ Occurs choice (before ++ q :: after) := by
  induction before generalizing choice with
  | nil =>
    cases h with
    | cons hhead htail => exact .cons (hq _ mem_cons_self hhead) htail
  | cons head before ih =>
    cases h with
    | cons hhead htail =>
      exact .cons hhead (ih htail fun o ho => hq o (mem_cons_of_mem _ ho))

/-- A start that no narrow choice uses can be dropped. -/
theorem near_drop {before after : List (List Nat × Nat)} {start len : Nat} {later : List Nat}
    (hmiss : ∀ choice, List.Forall₂ Occurs choice (before ++ (start :: later, len) :: after)
      → (∀ a ∈ choice, ∀ b ∈ choice, a.2 - b.1 < limit) → ∀ o ∈ choice, o.1 ≠ start)
    : Near (before ++ (later, len) :: after) limit
      ↔ Near (before ++ (start :: later, len) :: after) limit := by
  constructor
  · rintro ⟨choice, hchoice, hnear⟩
    refine ⟨choice, forall₂_replace hchoice fun o _ ho => ?_, hnear⟩
    exact ⟨mem_cons_of_mem _ ho.1, ho.2⟩
  · rintro ⟨choice, hchoice, hnear⟩
    refine ⟨choice, forall₂_replace hchoice fun o ho hoccurs => ⟨?_, hoccurs.2⟩, hnear⟩
    exact (mem_cons.mp hoccurs.1).resolve_left (hmiss choice hchoice hnear o ho)

theorem not_near_of_nil (h : ([], n) ∈ phrases) : ¬Near phrases limit := by
  rintro ⟨choice, hchoice, -⟩
  obtain ⟨o, -, hoccurs⟩ := forall₂_right hchoice h
  exact absurd hoccurs.1 not_mem_nil

theorem mapM_stop (h : ∀ c ∈ cursors, Listed c.phrase)
    : cursors.mapM Cursor.stop = .ok (cursors.map fun c => c.start + c.len - 1) := by
  rw [except_mapM_eq_ok, forall₂_map_right_iff, forall₂_same]
  intro c hc
  have hlen : 1 ≤ c.len := (h c hc).len
  have htokens : c.start + c.len < 2 ^ 31 := (h c hc).tokens c.start mem_cons_self
  rw [Cursor.stop, usizeAdd, if_pos (by omega), except_ok_bind, usizeSub, if_pos (by omega)]

/-- The window of the current starts. Its ends are taken by phrases, and a choice that uses the
smallest start is at least as wide.
-/
theorem window_spec (limit : Nat) (hne : cursors ≠ []) (h : ∀ c ∈ cursors, Listed c.phrase)
    : ∃ lo hi, (cursors.map Cursor.start).min? = some lo
      ∧ (cursors.map fun c => c.start + c.len - 1).max? = some hi
      ∧ (∀ c ∈ cursors, lo ≤ c.start ∧ c.start + c.len - 1 ≤ hi)
      ∧ (∃ c, cursors[(cursors.map Cursor.start).idxOf lo]? = some c ∧ c.start = lo)
      ∧ ∀ choice, List.Forall₂ Occurs choice (cursors.map Cursor.phrase)
        → (∀ a ∈ choice, ∀ b ∈ choice, a.2 - b.1 < limit) → limit ≤ hi - lo
        → ∀ o ∈ choice, o.1 ≠ lo := by
  obtain ⟨lo, hlo⟩ := Option.isSome_iff_exists.mp (isSome_min?_of_ne_nil (α := Nat)
    (mt map_eq_nil_iff.mp hne))
  obtain ⟨hi, hhi⟩ := Option.isSome_iff_exists.mp (isSome_max?_of_ne_nil (α := Nat)
    (mt map_eq_nil_iff.mp hne))
  obtain ⟨hlow, hlo'⟩ := min?_eq_some_iff.mp hlo
  obtain ⟨hhigh, hhi'⟩ := max?_eq_some_iff.mp hhi
  refine ⟨lo, hi, hlo, hhi, fun c hc => ?_, ?_, ?_⟩
  · exact ⟨hlo' _ (mem_map_of_mem hc), hhi' _ (mem_map_of_mem hc)⟩
  · have hget := getElem?_idxOf hlow
    rw [getElem?_map] at hget
    exact Option.map_eq_some_iff.mp hget
  · intro choice hchoice hnear hwide o ho heq
    obtain ⟨c, hc, hend⟩ := mem_map.mp hhigh
    obtain ⟨o', ho', hoccurs⟩ := forall₂_right hchoice (mem_map_of_mem hc)
    have hstart := hoccurs.start_le (h c hc)
    have hstop : o'.2 = o'.1 + c.len - 1 := hoccurs.2
    have hlt := hnear o' ho' o ho
    omega

theorem sweep_near {fuel : Nat} (hne : cursors ≠ []) (h : ∀ c ∈ cursors, Listed c.phrase)
    (hfits : n + totalLen < 2 ^ 64) (hfuel : (cursors.flatMap Cursor.later).length < fuel)
    : ∃ b, sweep n totalLen fuel cursors = .ok b
      ∧ (b = true ↔ Near (cursors.map Cursor.phrase) (n + totalLen)) := by
  induction fuel generalizing cursors with
  | zero => exact absurd hfuel (Nat.not_lt_zero _)
  | succ fuel ih =>
    obtain ⟨lo, hi, hlo, hhi, hwindow, ⟨c, hc, hstart⟩, hmiss⟩ :=
      window_spec (n + totalLen) hne h
    have hmem := mem_of_getElem? hc
    have hlen : 1 ≤ c.len := (h c hmem).len
    have hle := hwindow c hmem
    rw [sweep, mapM_stop h, except_ok_bind]
    dsimp only
    rw [hlo, hhi, Option.getD_some, Option.getD_some, usizeSub, if_pos (by omega), except_ok_bind,
      usizeAdd, if_pos hfits, except_ok_bind]
    by_cases hspan : hi - lo < n + totalLen
    · refine ⟨true, if_pos hspan, fun _ => ?_, fun _ => rfl⟩
      refine ⟨cursors.map fun c => (c.start, c.start + c.len - 1), ?_, ?_⟩
      · rw [forall₂_map_left_iff, forall₂_map_right_iff, forall₂_same]
        exact fun c _ => ⟨mem_cons_self, rfl⟩
      · simp only [forall_mem_map]
        intro a ha b hb
        have hend := (hwindow a ha).2
        have hlow := (hwindow b hb).1
        omega
    · obtain ⟨hlt, hget⟩ := List.getElem?_eq_some_iff.mp hc
      obtain ⟨before, after, hsplit, -, hset⟩ := @exists_of_set _ _
        { c with start := c.later.headD 0, later := c.later.tail } _ hlt
      rw [hget] at hsplit
      have hmap : cursors.map Cursor.phrase = before.map Cursor.phrase
          ++ (c.start :: c.later, c.len) :: after.map Cursor.phrase := by
        rw [hsplit, map_append, map_cons, Cursor.phrase]
      have hdrop := near_drop fun choice hchoice hnear =>
        hstart ▸ hmiss choice (hmap ▸ hchoice) hnear (Nat.le_of_not_lt hspan)
      rw [if_neg hspan, hc, orPanic, except_ok_bind, hmap, ← hdrop]
      rw [hsplit, forall_mem_append, forall_mem_cons] at h
      obtain ⟨hbefore, hlisted, hafter⟩ := h
      cases hlater : c.later with
      | nil =>
        exact ⟨false, rfl, Bool.false_ne_true.elim, fun hnear =>
          absurd hnear (not_near_of_nil (n := c.len) (by simp))⟩
      | cons start later =>
        rw [Cursor.phrase, hlater] at hlisted
        rw [hsplit, flatMap_append, flatMap_cons, length_append, length_append,
          hlater, length_cons] at hfuel
        have hnext : Listed (start :: later, c.len) := ⟨hlen, hlisted.sorted.of_cons,
          fun s hs => hlisted.tokens s (mem_cons_of_mem _ hs)⟩
        have hround := @ih (before ++ { c with start := start, later := later } :: after) (by simp)
          (forall_mem_append.mpr ⟨hbefore, forall_mem_cons.mpr ⟨hnext, hafter⟩⟩)
          (by
            rw [flatMap_append, flatMap_cons, length_append, length_append]
            dsimp only
            omega)
        rw [map_append, map_cons] at hround
        rw [hlater, headD_cons, tail_cons] at hset
        dsimp only
        rwa [hset]

def combinedLen (phrases : List (List Nat × Nat)) : Nat :=
  (phrases.map Prod.snd).sum

theorem usizeAdd_eq_ok {a b c : Nat} : usizeAdd a b = .ok c ↔ a + b < 2 ^ 64 ∧ a + b = c := by
  rw [usizeAdd]
  split
  · next hfits => exact ⟨fun h => ⟨hfits, Except.ok.inj h⟩, fun h => congrArg Except.ok h.2⟩
  · next hover => exact ⟨fun h => (by cases h), fun h => absurd h.1 hover⟩

theorem foldlM_usizeAdd {total : Nat} (htotal : total < 2 ^ 64)
    : phrases.foldlM (fun total p => usizeAdd total p.2) total
      = usizeAdd total (combinedLen phrases) := by
  induction phrases generalizing total with
  | nil => exact (if_pos htotal).symm
  | cons p rest ih =>
    rw [foldlM_cons, combinedLen, map_cons, sum_cons]
    by_cases hfits : total + p.2 < 2 ^ 64
    · rw [usizeAdd, if_pos hfits, except_ok_bind, ih hfits, usizeAdd, usizeAdd, combinedLen,
        Nat.add_assoc]
    · rw [usizeAdd, if_neg hfits, usizeAdd, if_neg (by omega)]
      rfl

/-- The sweep answers, and rightly, exactly when the distance and the lengths of the phrases add
up within a `usize`. A phrase that does not occur settles the answer before they are added.
-/
theorem near_sweep (hne : phrases ≠ []) (hlisted : ∀ p ∈ phrases, Listed p)
    : (∃ b, fts5NearMatches phrases n = .ok b
        ∧ (b = true ↔ Near phrases (n + combinedLen phrases)))
      ↔ (∃ p ∈ phrases, p.1 = []) ∨ n + combinedLen phrases < 2 ^ 64 := by
  rw [fts5NearMatches, foldlM_usizeAdd (by decide)]
  by_cases hempty : ∃ p ∈ phrases, p.1 = []
  · obtain ⟨p, hp, hnil⟩ := hempty
    refine ⟨fun _ => .inl ⟨p, hp, hnil⟩, fun _ => ⟨false, if_pos ?_, nofun, ?_⟩⟩
    · exact any_eq_true.mpr ⟨p, hp, isEmpty_iff.mpr hnil⟩
    · exact fun hnear => absurd hnear (not_near_of_nil (n := p.2) (hnil ▸ hp))
  · have hany : ¬phrases.any fun p => p.1.isEmpty := by
      simpa using hempty
    have hphrases : (phrases.filterMap cursor?).map Cursor.phrase = phrases := by
      rw [map_filterMap]
      refine (filterMap_congr fun p hp => ?_).trans filterMap_some
      match p, fun hnil => hempty ⟨p, hp, hnil⟩ with
      | (_ :: _, _), _ => rfl
      | ([], _), hne => exact absurd rfl hne
    rw [if_neg hany, or_iff_right hempty]
    constructor
    · rintro ⟨b, hb, -⟩
      obtain ⟨total, htotal, hsweep⟩ := except_bind_eq_ok.mp hb
      obtain ⟨-, rfl⟩ := usizeAdd_eq_ok.mp htotal
      obtain ⟨ends, -, hends⟩ := except_bind_eq_ok.mp hsweep
      obtain ⟨span, -, hspan⟩ := except_bind_eq_ok.mp hends
      obtain ⟨limit, hlimit, -⟩ := except_bind_eq_ok.mp hspan
      have hfits := (usizeAdd_eq_ok.mp hlimit).1
      omega
    · intro hfits
      rw [usizeAdd_eq_ok.mpr ⟨by omega, Nat.zero_add _⟩, except_ok_bind]
      have hnear := @sweep_near (phrases.filterMap cursor?) n (combinedLen phrases) _
        (fun hnil => hne (by rw [← hphrases, hnil]; rfl))
        (forall_mem_map.mp (hphrases.symm ▸ hlisted)) hfits (Nat.lt_succ_self _)
      rwa [hphrases] at hnear

theorem near_sweep_two_phrases
    : (∃ b, fts5NearMatches [([0, 7], 1), ([3, 10], 2)] 1 = .ok b
        ∧ (b = true ↔ Near [([0, 7], 1), ([3, 10], 2)] 4))
      ↔ (∃ p ∈ [([0, 7], 1), ([3, 10], 2)], p.1 = []) ∨ 4 < 2 ^ 64 :=
  near_sweep (by decide) (forall_mem_cons.mpr ⟨⟨by decide, by decide, by decide⟩,
    forall_mem_singleton.mpr ⟨by decide, by decide, by decide⟩⟩)

/-- Two adjacent tokens are not found near each other at the largest distance. -/
theorem near_distance_overflows
    : fts5NearMatches [([0], 1), ([1], 1)] (2 ^ 64 - 1)
        = .error (.panic "attempt to add with overflow")
      ∧ Near [([0], 1), ([1], 1)] (2 ^ 64 - 1 + 2) :=
  ⟨by decide, [(0, 0), (1, 1)], by simp [Occurs], by decide⟩

end GraphiteSql.Fts5
