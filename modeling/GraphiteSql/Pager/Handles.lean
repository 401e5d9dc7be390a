import GraphiteSql.Lib.Script
import GraphiteSql.Pager.State

/-! The handles on one database file and the lock state they share. -/

namespace GraphiteSql

open Lib

variable {i : Nat} {locks : LockState}

-- Handles and their lock calls

/-- The lock state of a file and the level each handle holds. -/
structure Handles where
  locks : LockState
  levels : List LockLevel
deriving DecidableEq, Repr

inductive LockCall where
  | lock (target : LockLevel)
  | unlock (target : LockLevel)
  | drop
deriving DecidableEq, Repr

/-- A call of the handle at position `i`. A refused lock changes nothing; dropping a handle
releases what it holds.
-/
def Handles.call (h : Handles) (c : Nat × LockCall) : Handles :=
  match h.levels[c.1]? with
  | none => h
  | some level =>
      match c.2 with
      | .lock target =>
          match h.locks.acquire level target with
          | .ok locks =>
              { locks, levels := h.levels.set c.1 (if level < target then target else level) }
          | .error _ => h
      | .unlock target =>
          { locks := h.locks.release level target
            levels := h.levels.set c.1 (if target < level then target else level) }
      | .drop =>
          { locks := h.locks.release level .unlocked, levels := h.levels.set c.1 .unlocked }

/-- The transitions the pager issues from a level: the writer's and the reader's path, the
direct step to exclusive of hot-journal recovery, the writer lock of a checkpoint and its
release to the entry level.
-/
def LockCall.issuedFrom : LockCall → LockLevel → Bool
  | .lock .shared, level => level = .unlocked
  | .lock .reserved, level => level = .unlocked ∨ level = .shared
  | .lock .exclusive, level => level = .shared ∨ level = .reserved
  | .unlock .unlocked, _ => true
  | .unlock .shared, level => level = .reserved
  | .drop, _ => true
  | _, _ => false

def Handles.Issued (h : Handles) (c : Nat × LockCall) : Prop :=
  ∀ level ∈ h.levels[c.1]?, c.2.issuedFrom level

def Handles.KeepsOrder (h : Handles) (c : Nat × LockCall) : Prop :=
  c.2 = .lock .reserved → h.levels[c.1]? ≠ some .unlocked

instance (h : Handles) (c : Nat × LockCall) : Decidable (h.Issued c) :=
  inferInstanceAs (Decidable (∀ level ∈ h.levels[c.1]?, c.2.issuedFrom level))

instance (h : Handles) (c : Nat × LockCall) : Decidable (h.KeepsOrder c) :=
  inferInstanceAs (Decidable (_ → _))

/-- The counts are those of the levels: one writer, no reader beside it. -/
structure Handles.Excludes (h : Handles) : Prop where
  shared : h.locks.shared = h.levels.countP (.shared ≤ ·)
  writers : h.levels.countP (.reserved ≤ ·) ≤ 1
  intent : h.locks.hasWriteIntent ↔ h.levels.countP (.reserved ≤ ·) = 1
  exclusive : ∀ (i j : Nat) (level : LockLevel), h.levels[i]? = some LockLevel.exclusive → i ≠ j
    → h.levels[j]? = some level → level < LockLevel.shared

def Handles.idle (n : Nat) : Handles :=
  { locks := .default, levels := List.replicate n .unlocked }

section Counting

variable {α : Type} {p : α → Bool}

theorem countP_set_add {l : List α} {old : α} (h : l[i]? = some old) (new : α)
    : (l.set i new).countP p + (p old).toNat = l.countP p + (p new).toNat := by
  induction l generalizing i with
  | nil => cases h
  | cons head tail ih =>
    cases i with
    | zero =>
      cases h
      simp only [List.set_cons_zero, List.countP_cons]
      cases p old <;> cases p new <;> simp
    | succ i =>
      have hrest := ih (i := i) h
      simp only [List.set_cons_succ, List.countP_cons]
      omega

/-- Two positions of a list contribute two to a count. -/
theorem two_le_countP {l : List α} {j : Nat} {a b : α} (hij : i ≠ j) (hi : l[i]? = some a)
    (hj : l[j]? = some b) (ha : p a) (hb : p b) : 2 ≤ l.countP p := by
  induction l generalizing i j with
  | nil => cases hi
  | cons head tail ih =>
    have hpos : ∀ {k : Nat} {c : α}, tail[k]? = some c → p c → 1 ≤ tail.countP p := fun hk hc =>
      List.countP_pos_iff.mpr ⟨_, List.mem_of_getElem? hk, hc⟩
    rw [List.countP_cons]
    cases i with
    | zero =>
      cases hi
      obtain ⟨j, rfl⟩ := Nat.exists_eq_succ_of_ne_zero (Ne.symm hij)
      have := hpos hj hb
      rw [if_pos ha]
      omega
    | succ i =>
      cases j with
      | zero =>
        cases hj
        have := hpos hi ha
        rw [if_pos hb]
        omega
      | succ j =>
        have := ih (fun h => hij (congrArg Nat.succ h)) hi hj
        omega

end Counting

/-- The bookkeeping behind exclusion: every counter and flag of the lock state is a count of
handles.
-/
structure Handles.Balanced (h : Handles) : Prop where
  shared : h.levels.countP (.shared ≤ ·) = h.locks.shared
  reserved : h.levels.countP (.reserved ≤ ·) = (h.locks.reserved || h.locks.exclusive).toNat
  exclusive : h.levels.countP (.exclusive ≤ ·) = h.locks.exclusive.toNat
  pending : h.locks.pending = h.locks.exclusive
  alone : h.locks.exclusive → h.locks.shared = 1
  settled : LockLevel.pending ∉ h.levels

/-- The counts after the handle at position `i` has moved from `old` to `new`. -/
theorem Handles.counts_set {levels : List LockLevel} {old : LockLevel}
    (h : levels[i]? = some old) (new bound : LockLevel)
    : (levels.set i new).countP (bound ≤ ·) + (decide (bound ≤ old)).toNat
      = levels.countP (bound ≤ ·) + (decide (bound ≤ new)).toNat :=
  countP_set_add h new

theorem Handles.idle_balanced (n : Nat) : (Handles.idle n).Balanced := by
  have hnone : ∀ bound : LockLevel, .shared ≤ bound
      → (List.replicate n LockLevel.unlocked).countP (bound ≤ ·) = 0 := by
    intro bound hbound
    rw [List.countP_eq_zero]
    intro level hlevel
    rw [List.eq_of_mem_replicate hlevel]
    have : ¬ bound ≤ LockLevel.unlocked := not_le.mpr (lt_of_lt_of_le (by decide) hbound)
    simpa using this
  exact ⟨hnone _ (by decide), hnone _ (by decide), hnone _ (by decide), rfl,
    Bool.false_ne_true.elim,
    fun hmem => LockLevel.noConfusion (List.eq_of_mem_replicate hmem)⟩

/-- A stronger bound counts fewer handles. -/
theorem Handles.countP_anti (levels : List LockLevel) {low high : LockLevel} (h : low ≤ high)
    : levels.countP (high ≤ ·) ≤ levels.countP (low ≤ ·) := by
  refine List.countP_mono_left fun level _ hlevel => ?_
  simp only [decide_eq_true_eq] at hlevel ⊢
  exact le_trans h hlevel

section Steps

variable {h : Handles} {level : LockLevel}

abbrev LockLevel.counts (level bound : LockLevel) : Nat :=
  (decide (bound ≤ level)).toNat

section

variable (hb : h.Balanced)

include hb

/-- Moving one handle keeps the balance when the lock state moves by the same amounts. -/
theorem Handles.Balanced.move (hi : h.levels[i]? = some level)
    {new : LockLevel} (hnew : new ≠ .pending)
    (hs : locks.shared + level.counts .shared = h.locks.shared + new.counts .shared)
    (hr : (locks.reserved || locks.exclusive).toNat + level.counts .reserved
      = (h.locks.reserved || h.locks.exclusive).toNat + new.counts .reserved)
    (he : locks.exclusive.toNat + level.counts .exclusive
      = h.locks.exclusive.toNat + new.counts .exclusive)
    (hp : locks.pending = locks.exclusive) (ha : locks.exclusive → locks.shared = 1)
    : ({ locks, levels := h.levels.set i new } : Handles).Balanced := by
  have hcounts := Handles.counts_set hi new
  refine ⟨?_, ?_, ?_, hp, ha, fun hmem => ?_⟩
  · have := hcounts .shared
    rw [hb.shared] at this
    exact Nat.add_right_cancel (this.trans hs.symm)
  · have := hcounts .reserved
    rw [hb.reserved] at this
    exact Nat.add_right_cancel (this.trans hr.symm)
  · have := hcounts .exclusive
    rw [hb.exclusive] at this
    exact Nat.add_right_cancel (this.trans he.symm)
  · rcases List.mem_or_eq_of_mem_set hmem with hmem | heq
    · exact hb.settled hmem
    · exact hnew heq.symm

theorem Handles.Balanced.one_le_shared (hi : h.levels[i]? = some level)
    (hlevel : .shared ≤ level) : 1 ≤ h.locks.shared := by
  rw [← hb.shared]
  exact List.countP_pos_iff.mpr ⟨level, List.mem_of_getElem? hi, by simpa using hlevel⟩

theorem Handles.Balanced.exclusive_set
    (hi : h.levels[i]? = some LockLevel.exclusive) : h.locks.exclusive = true := by
  have hpos : 0 < h.levels.countP (LockLevel.exclusive ≤ ·) :=
    List.countP_pos_iff.mpr ⟨.exclusive, List.mem_of_getElem? hi, by decide⟩
  rw [hb.exclusive] at hpos
  cases hflag : h.locks.exclusive with
  | true => rfl
  | false =>
    rw [hflag] at hpos
    exact absurd hpos (by decide)

/-- The holder of the writer lock has set its flag, and no other handle is exclusive. -/
theorem Handles.Balanced.reserved_set
    (hi : h.levels[i]? = some LockLevel.reserved)
    : h.locks.reserved = true ∧ h.locks.exclusive = false := by
  -- Without this handle, the exclusive handles are still among the writers.
  have hmono := Handles.countP_anti (h.levels.set i .unlocked)
    (show LockLevel.reserved ≤ .exclusive by decide)
  have hr : _ + 1 = _ + 0 := Handles.counts_set hi .unlocked .reserved
  have he : _ + 0 = _ + 0 := Handles.counts_set hi .unlocked .exclusive
  rw [hb.reserved] at hr
  rw [hb.exclusive] at he
  cases hres : h.locks.reserved <;> cases hexc : h.locks.exclusive
  · simp [hres, hexc] at hr
  · simp only [hres, hexc, Bool.or_true, Bool.toNat_true] at hr he
    omega
  · exact ⟨rfl, rfl⟩
  · simp only [hres, hexc, Bool.or_true, Bool.toNat_true] at hr he
    omega

theorem Handles.Balanced.no_exclusive
    (hi : h.levels[i]? = some LockLevel.shared) : h.locks.exclusive = false := by
  have hmono := Handles.countP_anti (h.levels.set i .unlocked)
    (show LockLevel.shared ≤ .exclusive by decide)
  have hs : _ + 1 = _ + 0 := Handles.counts_set hi .unlocked .shared
  have he : _ + 0 = _ + 0 := Handles.counts_set hi .unlocked .exclusive
  rw [hb.shared] at hs
  rw [hb.exclusive] at he
  cases hexc : h.locks.exclusive with
  | false => rfl
  | true =>
    have halone := hb.alone hexc
    rw [hexc, Bool.toNat_true] at he
    omega

theorem Handles.Balanced.no_writer (hi : h.levels[i]? = some LockLevel.shared)
    (hone : h.locks.shared ≤ 1) : h.locks.reserved = false ∧ h.locks.exclusive = false := by
  have hmono := Handles.countP_anti (h.levels.set i .unlocked)
    (show LockLevel.shared ≤ .reserved by decide)
  have hs : _ + 1 = _ + 0 := Handles.counts_set hi .unlocked .shared
  have hr : _ + 0 = _ + 0 := Handles.counts_set hi .unlocked .reserved
  rw [hb.shared] at hs
  rw [hb.reserved] at hr
  have hflags : (h.locks.reserved || h.locks.exclusive).toNat = 0 := by omega
  simpa using hflags

/-- Releasing a handle undoes exactly what it contributed. -/
theorem Handles.Balanced.release (hi : h.levels[i]? = some level)
    : Handles.Balanced ⟨h.locks.release level .unlocked, h.levels.set i .unlocked⟩ := by
  cases level with
  | unlocked => exact hb.move hi (by decide) rfl rfl rfl hb.pending hb.alone
  | shared =>
    have hone := hb.one_le_shared hi (le_refl _)
    have hfree := hb.no_exclusive hi
    refine hb.move hi (by decide) ?_ rfl rfl hb.pending (fun hexc => ?_)
    · show h.locks.shared - 1 + 1 = h.locks.shared + 0
      omega
    · exact absurd (hfree.symm.trans hexc) Bool.false_ne_true
  | reserved =>
    have hone := hb.one_le_shared hi (by decide)
    obtain ⟨hres, hexc⟩ := hb.reserved_set hi
    refine hb.move hi (by decide) ?_ ?_ ?_ hb.pending ?_
    · show h.locks.shared - 1 + 1 = h.locks.shared + 0
      omega
    · show (false || h.locks.exclusive).toNat + 1
        = (h.locks.reserved || h.locks.exclusive).toNat + 0
      rw [hres, hexc]
      rfl
    · rfl
    · show h.locks.exclusive = true → _
      rw [hexc]
      exact Bool.false_ne_true.elim
  | pending => exact absurd (List.mem_of_getElem? hi) hb.settled
  | exclusive =>
    have hone := hb.one_le_shared hi (by decide)
    have hexc := hb.exclusive_set hi
    refine hb.move hi (by decide) ?_ ?_ ?_ rfl Bool.false_ne_true.elim
    · show h.locks.shared - 1 + 1 = h.locks.shared + 0
      omega
    · show (false || false).toNat + 1 = (h.locks.reserved || h.locks.exclusive).toNat + 0
      rw [hexc, Bool.or_true]
      rfl
    · show false.toNat + 1 = h.locks.exclusive.toNat + 0
      rw [hexc]
      rfl

theorem Handles.Balanced.release_reserved
    (hi : h.levels[i]? = some LockLevel.reserved)
    : Handles.Balanced ⟨h.locks.release .reserved .shared, h.levels.set i .shared⟩ := by
  obtain ⟨hres, hexc⟩ := hb.reserved_set hi
  refine hb.move hi (by decide) rfl ?_ rfl hb.pending ?_
  · show (false || h.locks.exclusive).toNat + 1 = (h.locks.reserved || h.locks.exclusive).toNat + 0
    rw [hres, hexc]
    rfl
  · show h.locks.exclusive = true → _
    rw [hexc]
    exact Bool.false_ne_true.elim

theorem Handles.Balanced.acquire_shared
    (hi : h.levels[i]? = some LockLevel.unlocked)
    (hlocks : h.locks.acquire .unlocked .shared = .ok locks)
    : ({ locks, levels := h.levels.set i .shared } : Handles).Balanced := by
  rw [LockState.acquire, if_neg (by decide)] at hlocks
  split_ifs at hlocks with hbusy
  cases hlocks
  simp only [Bool.or_eq_true, not_or, Bool.not_eq_true] at hbusy
  refine hb.move hi (by decide) rfl rfl rfl hb.pending (fun hexc => ?_)
  exact absurd (hbusy.2.symm.trans hexc) Bool.false_ne_true

theorem Handles.Balanced.acquire_reserved
    (hi : h.levels[i]? = some LockLevel.shared)
    (hlocks : h.locks.acquire .shared .reserved = .ok locks)
    : ({ locks, levels := h.levels.set i .reserved } : Handles).Balanced := by
  rw [LockState.acquire, if_neg (by decide)] at hlocks
  split_ifs at hlocks with hbusy
  cases hlocks
  simp only [Bool.or_eq_true, not_or, Bool.not_eq_true] at hbusy
  refine hb.move hi (by decide) rfl ?_ rfl hb.pending hb.alone
  rw [hbusy.1, hbusy.2]
  rfl

/-- The exclusive lock, taken by the writer or straight by a reader that recovers a journal. -/
theorem Handles.Balanced.acquire_exclusive (hi : h.levels[i]? = some level)
    (hlevel : level = .shared ∨ level = .reserved)
    (hlocks : h.locks.acquire level .exclusive = .ok locks)
    : ({ locks, levels := h.levels.set i .exclusive } : Handles).Balanced := by
  have hshared : LockLevel.shared ≤ level := by
    rcases hlevel with rfl | rfl <;> decide
  have hbelow : ¬ LockLevel.exclusive ≤ level := by
    rcases hlevel with rfl | rfl <;> decide
  rw [LockState.acquire] at hlocks
  dsimp only at hlocks
  split_ifs at hlocks with hexc hbusy
  cases hlocks
  have hone : h.locks.shared = 1 := by
    have := hb.one_le_shared hi hshared
    omega
  rw [Bool.not_eq_true] at hexc
  refine hb.move hi (by decide) ?_ ?_ ?_ rfl (fun _ => hone)
  · rcases hlevel with rfl | rfl <;> rfl
  · rcases hlevel with rfl | rfl
    · obtain ⟨hres, -⟩ := hb.no_writer hi (by omega)
      rw [hres, hexc]
      rfl
    · rw [(hb.reserved_set hi).1]
      rfl
  · rw [hexc]
    rcases hlevel with rfl | rfl <;> rfl

/-- Every transition of the pager that keeps the order of the levels keeps the balance. -/
theorem Handles.Balanced.call {c : Nat × LockCall} (hissued : h.Issued c)
    (horder : h.KeepsOrder c) : (h.call c).Balanced := by
  obtain ⟨i, op⟩ := c
  unfold Handles.call
  cases hi : h.levels[i]? with
  | none => exact hb
  | some level =>
    have hfrom : op.issuedFrom level := hissued level hi
    cases op with
    | drop => exact hb.release hi
    | unlock target =>
      cases target with
      | unlocked =>
        have hlevel : (if LockLevel.unlocked < level then LockLevel.unlocked else level)
            = .unlocked := by
          cases level <;> rfl
        dsimp only
        rw [hlevel]
        exact hb.release hi
      | shared =>
        cases of_decide_eq_true hfrom
        exact hb.release_reserved hi
      | reserved => cases hfrom
      | pending => cases hfrom
      | exclusive => cases hfrom
    | lock target =>
      dsimp only
      cases hlocks : h.locks.acquire level target with
      | error e => exact hb
      | ok locks =>
        cases target with
        | unlocked => cases hfrom
        | shared =>
          cases of_decide_eq_true hfrom
          exact hb.acquire_shared hi hlocks
        | reserved =>
          rcases of_decide_eq_true hfrom with rfl | rfl
          · exact absurd hi (horder rfl)
          · exact hb.acquire_reserved hi hlocks
        | pending => cases hfrom
        | exclusive =>
          have hlevel := of_decide_eq_true hfrom
          have hraise : (if level < LockLevel.exclusive then LockLevel.exclusive else level)
              = .exclusive := by
            rcases hlevel with rfl | rfl <;> rfl
          rw [hraise]
          exact hb.acquire_exclusive hi hlevel hlocks

theorem Handles.Balanced.excludes : h.Excludes where
  shared := hb.shared.symm
  writers := by
    rw [hb.reserved]
    exact Bool.toNat_le _
  intent := by
    rw [hb.reserved, LockState.hasWriteIntent, hb.pending]
    cases h.locks.reserved <;> cases h.locks.exclusive <;> decide
  exclusive := by
    intro i j level hi hij hj
    by_contra hlevel
    have hone := hb.alone (hb.exclusive_set hi)
    have htwo : 2 ≤ h.levels.countP (LockLevel.shared ≤ ·) :=
      two_le_countP hij hi hj (by decide) (by simpa using hlevel)
    rw [hb.shared, hone] at htwo
    exact absurd htwo (by decide)

end

end Steps

-- Runs

/-- In every run in which no handle takes the writer lock without the shared lock, the lock state
counts the handles right and excludes as it should, after every step.
-/
theorem locks_exclude (n : Nat) {script : List (Nat × LockCall)}
    (hscript : Meets Handles.call (fun h c => h.Issued c ∧ h.KeepsOrder c) (.idle n) script)
    : Meets Handles.call (fun h c => (h.call c).Excludes) (.idle n) script := by
  refine Meets.of_invariant _ Handles.Balanced (fun h c hb hc => ?_)
    (Handles.idle_balanced n) hscript
  exact ⟨(hb.call hc.1 hc.2).excludes, hb.call hc.1 hc.2⟩

/-- A writer commits, and a checkpoint of a handle that holds the shared lock follows. -/
theorem locks_exclude_sample
    : Meets Handles.call (fun h c => (h.call c).Excludes) (.idle 2)
      [(0, .lock .shared), (0, .lock .reserved), (0, .lock .exclusive), (0, .unlock .unlocked),
        (1, .lock .shared), (1, .lock .reserved), (1, .unlock .shared), (1, .drop)] :=
  locks_exclude 2 (by decide)

/-- A checkpoint of the unlocked handle 1 between the reads of handle 0 and a commit of
handle 2.
-/
def unlockedCheckpoint : List (Nat × LockCall) :=
  [(0, .lock .shared), (1, .lock .reserved), (1, .unlock .unlocked), (2, .lock .shared),
    (2, .lock .reserved), (2, .lock .exclusive)]

/-- The checkpoint takes the writer lock directly, and its release takes the shared lock of the
reader off the count. The committing handle is then granted the exclusive lock next to that
reader.
-/
theorem checkpoint_lock_loses_reader
    : Meets Handles.call Handles.Issued (.idle 3) unlockedCheckpoint
      ∧ (exec Handles.call (.idle 3) unlockedCheckpoint).levels = [.shared, .unlocked, .exclusive]
      ∧ (exec Handles.call (.idle 3) unlockedCheckpoint).locks.shared = 1
      ∧ ¬ (exec Handles.call (.idle 3) unlockedCheckpoint).Excludes := by
  refine ⟨by decide, by decide, by decide, fun h => ?_⟩
  exact absurd (h.exclusive 2 0 .shared (by decide) (by decide) (by decide)) (by decide)

end GraphiteSql
