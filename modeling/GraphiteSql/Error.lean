import GraphiteSql.Lib.Bytes
import GraphiteSql.Lib.Fallible

/-! The error type, and how pure fallible readers and stateful calls report it. -/

namespace GraphiteSql

variable {σ α β : Type}

/-- The variants of `error::Error` that the storage layer returns, with the two ways a call
can fail to return at all: `panic` (a slice index out of range, an arithmetic overflow, a
failed `expect`) and `diverge` (a loop or recursion that never ends). Overflow is a panic
throughout, as under overflow checks, but for the differences the FTS5 segment writer stores: they
wrap as in the release profile, and its reader adds them back modulo `2 ^ 64`.
-/
inductive Error where
  | error (msg : String)
  | corrupt (msg : String)
  | io (msg : String)
  | busy
  | panic (what : String)
  | diverge
deriving DecidableEq, Repr

/-- Whether an outcome is an error value rather than a panic or an endless loop. -/
def Error.isReturned : Error → Bool
  | .panic _ | .diverge => false
  | _ => true

abbrev Result := Except Error

variable {f : α → Result β}

def orPanic {α : Type} (what : String) : Option α → Result α
  | some a => .ok a
  | none => .error (.panic what)

def orCorrupt {α : Type} (msg : String) : Option α → Result α
  | some a => .ok a
  | none => .error (.corrupt msg)

def usizeAdd (a b : Nat) : Result Nat :=
  if a + b < 2 ^ 64 then .ok (a + b) else .error (.panic "attempt to add with overflow")

def usizeSub (a b : Nat) : Result Nat :=
  if b ≤ a then .ok (a - b) else .error (.panic "attempt to subtract with overflow")

theorem usizeAdd_bind {a b : Nat} {f : Nat → Result β} (h : a + b < 2 ^ 64)
    : (usizeAdd a b >>= f) = f (a + b) := by
  rw [usizeAdd, if_pos h, Lib.except_ok_bind]

/-- A `Result` inside a stateful call: an error leaves the state as it is. -/
instance {σ : Type} : MonadLift Result (EStateM Error σ) where
  monadLift x := fun s =>
    match x with
    | .ok a => .ok a s
    | .error e => .error e s

@[simp]
theorem lift_ok (a : α) (s : σ)
    : (liftM (Except.ok a : Result α) : EStateM Error σ α) s = .ok a s := (rfl)

@[simp]
theorem lift_error (e : Error) (s : σ)
    : (liftM (Except.error e : Result α) : EStateM Error σ α) s = .error e s := (rfl)

@[simp]
theorem lift_ok_bind (a : α) (f : α → EStateM Error σ β)
    : ((liftM (Except.ok a : Result α) : EStateM Error σ α) >>= f) = f a := (rfl)

/-- A lifted `Result` keeps the state. -/
theorem runs_lift {x : Result α} {s : σ} {post : α → σ → Prop} {fail : Error → σ → Prop}
    : Lib.Runs (liftM x : EStateM Error σ α) s post fail
      ↔ (∀ a, x = .ok a → post a s) ∧ (∀ e, x = .error e → fail e s) := by
  cases x with
  | ok a => simp [Lib.Runs]
  | error e => simp [Lib.Runs]

/-- Continuing after a lifted `Result`: only the successful value goes on. -/
theorem runs_lift_bind {x : Result α} {f : α → EStateM Error σ β} {s : σ}
    {post : β → σ → Prop} {fail : Error → σ → Prop}
    : Lib.Runs ((liftM x : EStateM Error σ α) >>= f) s post fail
      ↔ (∀ a, x = .ok a → Lib.Runs (f a) s post fail) ∧ (∀ e, x = .error e → fail e s) := by
  rw [Lib.runs_bind, runs_lift]

theorem maintains_lift {inv : σ → Prop} (x : Result α)
    : Lib.Maintains inv (liftM x : EStateM Error σ α) :=
  fun _ hs => runs_lift.mpr ⟨fun _ _ => hs, fun _ _ => hs⟩

@[simp]
theorem orPanic_bind {what : String} {a : α}
    : (orPanic what (some a) >>= f) = f a := rfl

theorem orPanic_eq_ok {what : String} {x : Option α} {a : α}
    : orPanic what x = .ok a ↔ x = some a := by
  cases x <;> simp [orPanic]

@[simp]
theorem orCorrupt_bind {msg : String} {a : α}
    : (orCorrupt msg (some a) >>= f) = f a := rfl

/-- The call returns an error value, or a value with `post`. -/
def Yields {α : Type} (x : Result α) (post : α → Prop) : Prop :=
  match x with
  | .ok a => post a
  | .error e => e.isReturned = true

section Yields

variable {x : Result α} {post : α → Prop}

section

variable (h : Yields x post)

include h

theorem Yields.ok {a : α} (hx : x = .ok a) : post a := by
  rw [hx] at h
  exact h

theorem Yields.error {e : Error} (hx : x = .error e) : e.isReturned = true := by
  rw [hx] at h
  exact h

theorem Yields.mono {post' : α → Prop} (himp : ∀ a, post a → post' a)
    : Yields x post' := by
  cases x with
  | ok a => exact himp a h
  | error e => exact h

theorem Yields.bind {post' : β → Prop}
    (hf : ∀ a, post a → Yields (f a) post') : Yields (x >>= f) post' := by
  cases x with
  | ok a => exact hf a h
  | error e => exact h

end

theorem Yields.seq {post' : β → Prop} (h : Yields x fun _ => True)
    (hf : ∀ a, Yields (f a) post') : Yields (x >>= f) post' :=
  h.bind fun a _ => hf a

theorem yields_bind_iff {post' : β → Prop} (hf : ∀ a, Yields (f a) post')
    : Yields (x >>= f) post' ↔ Yields x fun _ => True := by
  refine ⟨fun h => ?_, fun h => h.seq hf⟩
  cases x with
  | ok a => trivial
  | error e => exact h

theorem yields_corrupt (msg : String) : Yields (throw (.corrupt msg) : Result α) post := rfl

/-- A check that reports corruption establishes its negation for what follows. -/
theorem yields_check {c : Prop} [Decidable c] (msg : String) (h : ¬ c → Yields x post)
    : Yields (if c then throw (.corrupt msg) else x) post := by
  by_cases hc : c
  · rw [if_pos hc]
    exact yields_corrupt msg
  · rw [if_neg hc]
    exact h hc

theorem yields_orCorrupt {o : Option α} (msg : String) (h : ∀ a, o = some a → post a)
    : Yields (orCorrupt msg o) post := by
  cases o with
  | none => rfl
  | some a => exact h a rfl

theorem yields_orPanic {o : Option α} (what : String) {a : α} (ho : o = some a) (h : post a)
    : Yields (orPanic what o) post := by
  rw [ho]
  exact h

end Yields

end GraphiteSql
