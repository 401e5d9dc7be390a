import Mathlib.Data.List.Chain
import Mathlib.Logic.Relation
import Mathlib.Order.Basic

/-! How deep the functions of the recursive-descent parser call one another. -/

namespace GraphiteSql

open List Nat

/-- The functions of the parser. A `helper` calls no grammar function: it works on tokens, or it
clones or drops a tree that was built. Its height bounds how deep helpers call one another.
-/
inductive ParserFn where
  | parse | statement | withPrefixed | pragma | pragmaValue | parseCteList | select | selectBody
  | orderLimitOffset | selectCore | valuesCore | resultColumn | tablesClause | tableRef | orderTerm
  | insert | upsertClause | returningClause | valueRow | update | delete | create | createTrigger
  | createView | createTable | columnDef | generatedColumn | tableConstraint | createIndex | alter
  | expr | exprBp | prefixExpr | primaryCollate | primary | afterName | functionCall | filterClause
  | windowOver | windowParenSpec | windowFrame | frameBound | caseExpr | castExpr | raiseExpr
  | infixExpr | parseLike | parseIn | parseBetween
  | helper (height : Nat)
deriving DecidableEq, Repr

/-- The tokens that the parser consumes before a recursion without a guard; the others do not
matter here.
-/
inductive ParserToken where
  | explain | trigger | lparen | other
deriving DecidableEq, Repr

def maxParseDepth : Nat := 30

namespace ParserFn

def callees : ParserFn → List ParserFn
  | parse => [statement]
  | statement =>
      [statement, withPrefixed, pragma, select, insert, update, delete, create, alter, expr]
  | withPrefixed => [parseCteList, selectBody, insert, update, delete]
  | pragma => [pragmaValue]
  | select => [parseCteList, selectBody]
  | selectBody => [selectCore, orderTerm, expr]
  | selectCore => [valuesCore, resultColumn, tablesClause, expr, windowParenSpec]
  | valuesCore => [valueRow]
  | tablesClause => [tableRef, expr]
  | tableRef => [select, tableRef, expr]
  | insert => [select, upsertClause, returningClause, valueRow]
  | returningClause => [resultColumn]
  | update => [select, orderLimitOffset, tablesClause, returningClause, expr]
  | delete => [orderLimitOffset, returningClause, expr]
  | create => [createTrigger, createView, createTable, createIndex]
  | createTrigger => [statement, expr]
  | parseCteList | createView => [select]
  | createTable => [select, columnDef, tableConstraint]
  | columnDef => [generatedColumn, expr]
  | orderLimitOffset | createIndex => [orderTerm, expr]
  | alter => [columnDef]
  | exprBp => [prefixExpr, infixExpr]
  | prefixExpr => [exprBp, primaryCollate]
  | primaryCollate => [primary]
  | primary => [select, expr, afterName, caseExpr, castExpr, raiseExpr]
  | afterName => [functionCall]
  | functionCall => [orderTerm, expr, filterClause, windowOver]
  | windowOver => [windowParenSpec]
  | windowParenSpec => [orderTerm, expr, windowFrame]
  | windowFrame => [frameBound]
  | infixExpr => [exprBp, parseLike, parseIn, parseBetween]
  | parseIn => [select, expr]
  | expr | parseLike | parseBetween => [exprBp]
  | pragmaValue | resultColumn | orderTerm | upsertClause | valueRow | generatedColumn
  | tableConstraint | filterClause | frameBound | caseExpr | castExpr | raiseExpr => [expr]
  | helper _ => []

def isHelper : ParserFn → Bool
  | helper _ => true
  | _ => false

/-- The height below which a function calls helpers, when `height` bounds all of them. -/
def reach (height : Nat) : ParserFn → Nat
  | helper h => h
  | _ => height

def enters : ParserFn → Bool
  | withPrefixed | select | exprBp => true
  | _ => false

/-- The token that a call of the second function by the first one consumes, for the calls that
close a cycle without a guard.
-/
def opens : ParserFn → ParserFn → Option ParserToken
  | statement, statement => some .explain
  | tableRef, tableRef => some .lparen
  | create, createTrigger => some .trigger
  | _, _ => none

/-- A rank that falls along every other call of a function without a guard. -/
def level : ParserFn → Nat
  | helper _ | withPrefixed | select | exprBp => 0
  | parseCteList | createView | expr | parseLike | parseBetween => 1
  | pragmaValue | resultColumn | tableRef | orderTerm | upsertClause | valueRow | generatedColumn
  | tableConstraint | filterClause | frameBound | caseExpr | castExpr | raiseExpr | parseIn => 2
  | pragma | orderLimitOffset | valuesCore | tablesClause | returningClause | columnDef
  | createIndex | windowFrame | infixExpr => 3
  | insert | update | delete | createTable | alter | windowParenSpec => 4
  | selectCore | create | windowOver => 5
  | statement | selectBody | functionCall => 6
  | parse | createTrigger | afterName => 7
  | primary => 8
  | primaryCollate => 9
  | prefixExpr => 10

theorem level_le (f : ParserFn) : level f ≤ 10 := by
  cases f with
  | helper height => exact zero_le _
  | _ => decide

theorem level_helper {f : ParserFn} (h : f.isHelper = true) : level f = 0 := by
  cases f with
  | helper height => rfl
  | _ => cases h

theorem reach_grammar {f : ParserFn} (h : f.isHelper = false) (height : Nat)
    : f.reach height = height := by
  cases f with
  | helper height => cases h
  | _ => rfl

theorem callees_grammar {f g : ParserFn} (hmem : g ∈ callees f)
    : f.isHelper = false ∧ g.isHelper = false := by
  revert g
  cases f with
  | helper height => exact fun hmem => nomatch hmem
  | _ => decide

theorem opens_grammar {f g : ParserFn} {t : ParserToken} (h : opens f g = some t)
    : f.isHelper = false ∧ g.isHelper = false ∧ t ≠ .other := by
  unfold opens at h
  split at h <;> cases h <;> decide

theorem level_callee {f g : ParserFn} (hmem : g ∈ callees f) (hopens : opens f g = none)
    (henters : enters f = false) : level g < level f := by
  revert g
  cases f with
  | helper height => exact fun hmem => nomatch hmem
  | _ => first | exact absurd henters (by decide) | decide

end ParserFn

/-- One active call: its function, whether it holds a `DepthGuard`, and whether it was made by a
recursion without a guard.
-/
structure ParserFrame where
  fn : ParserFn
  guarded : Bool
  opened : Bool

/-- The tokens that are left, the depth counter, a bound on the heights of the helpers (the token
helpers have heights below 6, a tree can be higher) and the active calls.
-/
structure ParserState where
  tokens : List ParserToken
  depth : Nat
  height : Nat
  stack : List ParserFrame

open ParserFn in
/-- One move of the parser. What a function does with the tokens is left open, apart from the
token that an unguarded recursion consumes, and that a token deepens the trees by at most
`perToken` calls of a clone or drop (`1 + 1 + … + 1` is as deep as it is long). A return drops the
guard, on success and on error.
-/
inductive ParserStep (perToken : Nat) : ParserState → ParserState → Prop where
  | advance {t tokens depth height stack}
    : ParserStep perToken ⟨t :: tokens, depth, height, stack⟩
        ⟨tokens, depth, height + perToken, stack⟩
  | enter {tokens depth height fn opened stack} (henters : enters fn = true)
      (hlimit : depth < maxParseDepth)
    : ParserStep perToken ⟨tokens, depth, height, ⟨fn, false, opened⟩ :: stack⟩
        ⟨tokens, depth + 1, height, ⟨fn, true, opened⟩ :: stack⟩
  | call {tokens depth height f g stack} (hcalls : g ∈ callees f.fn)
      (hopens : opens f.fn g = none) (hguard : enters f.fn = true → f.guarded = true)
    : ParserStep perToken ⟨tokens, depth, height, f :: stack⟩
        ⟨tokens, depth, height, ⟨g, false, false⟩ :: f :: stack⟩
  | help {tokens depth height f h stack} (hheight : h < f.fn.reach height)
    : ParserStep perToken ⟨tokens, depth, height, f :: stack⟩
        ⟨tokens, depth, height, ⟨helper h, false, false⟩ :: f :: stack⟩
  | nest {t tokens depth height f g stack} (hopens : opens f.fn g = some t)
    : ParserStep perToken ⟨t :: tokens, depth, height, f :: stack⟩
        ⟨tokens, depth, height + perToken, ⟨g, false, true⟩ :: f :: stack⟩
  | leave {tokens depth height f stack}
    : ParserStep perToken ⟨tokens, depth, height, f :: stack⟩
        ⟨tokens, depth - f.guarded.toNat, height, stack⟩

/-- The states the parser can be in while it parses `input`. -/
def ParserReaches (perToken : Nat) (input : List ParserToken) : ParserState → Prop :=
  Relation.ReflTransGen (ParserStep perToken) ⟨input, 0, 6, [⟨.parse, false, false⟩]⟩

/-- No helper is called at this height or above. -/
def highest (perToken : Nat) (input : List ParserToken) : Nat :=
  6 + perToken * input.length

def openings (tokens : List ParserToken) : Nat :=
  tokens.countP (· ≠ .other)

namespace ParserState

/-- Why a call over another one is legal: a helper is lower than what calls it; for the others the
rank falls, unless the call closes a cycle without a guard or its caller holds a guard.
-/
def Over (top : Nat) (g f : ParserFrame) : Prop :=
  if g.fn.isHelper then g.fn.reach top < f.fn.reach top
  else f.fn.isHelper = false
    ∧ (g.opened = true ∨ f.guarded = true ∨ g.fn.level < f.fn.level)

structure Inv (perToken : Nat) (input : List ParserToken) (s : ParserState) : Prop where
  chain : s.stack.IsChain (Over (highest perToken input))
  heights : ∀ f ∈ s.stack, f.fn.reach (highest perToken input) ≤ highest perToken input
  built : s.height + perToken * s.tokens.length ≤ highest perToken input
  balanced : s.depth = s.stack.countP ParserFrame.guarded
  limited : s.depth ≤ maxParseDepth
  nested : s.stack.countP ParserFrame.opened + openings s.tokens ≤ openings input

variable {perToken : Nat} {input : List ParserToken} {s s' : ParserState}

theorem Inv.step (h : s.Inv perToken input) (hstep : ParserStep perToken s s')
    : s'.Inv perToken input := by
  obtain ⟨hchain, hheights, hbuilt, hbal, hlimited, hnested⟩ := h
  cases hstep with
  | advance =>
    refine ⟨hchain, hheights, ?_, hbal, hlimited, (Nat.add_le_add_left ?_ _).trans hnested⟩
    · simp only [length_cons, Nat.mul_succ] at hbuilt ⊢
      omega
    · exact (sublist_cons_self _ _).countP_le
  | enter henters hlimit =>
    refine ⟨?_, ?_, hbuilt, by simpa using hbal, hlimit, hnested⟩
    · cases hchain with
      | singleton => exact .singleton _
      | cons_cons hover hrest => exact .cons_cons hover hrest
    · simpa using hheights
  | @call tokens depth height f g stack hcalls hopens hguard =>
    obtain ⟨hf, hg⟩ := ParserFn.callees_grammar hcalls
    have hover : Over (highest perToken input) ⟨g, false, false⟩ f := by
      rw [Over, if_neg (by simp [hg])]
      refine ⟨hf, .inr ?_⟩
      cases henters : f.fn.enters with
      | true => exact .inl (hguard henters)
      | false => exact .inr (ParserFn.level_callee hcalls hopens henters)
    exact ⟨hchain.cons_cons hover,
      forall_mem_cons.mpr ⟨(ParserFn.reach_grammar hg _).le, hheights⟩, hbuilt,
      by simpa using hbal, hlimited, by simpa using hnested⟩
  | @help tokens depth height f h stack hheight =>
    have hlow : h < f.fn.reach (highest perToken input) := by
      cases hf : f.fn.isHelper with
      | true =>
        cases hfn : f.fn with
        | helper j => rwa [hfn] at hheight
        | _ => simp [hfn, ParserFn.isHelper] at hf
      | false =>
        rw [ParserFn.reach_grammar hf] at hheight ⊢
        exact hheight.trans_le ((le_add_right _ _).trans hbuilt)
    have hover : Over (highest perToken input) ⟨.helper h, false, false⟩ f := hlow
    exact ⟨hchain.cons_cons hover,
      forall_mem_cons.mpr ⟨hlow.le.trans (hheights f mem_cons_self), hheights⟩, hbuilt,
      by simpa using hbal, hlimited, by simpa using hnested⟩
  | @nest t tokens depth height f g stack hopens =>
    obtain ⟨hf, hg, ht⟩ := ParserFn.opens_grammar hopens
    have hover : Over (highest perToken input) ⟨g, false, true⟩ f := by
      rw [Over, if_neg (by simp [hg])]
      exact ⟨hf, .inl rfl⟩
    have hcost : openings (t :: tokens) = openings tokens + 1 := countP_cons_of_pos (by simpa)
    refine ⟨hchain.cons_cons hover,
      forall_mem_cons.mpr ⟨(ParserFn.reach_grammar hg _).le, hheights⟩, ?_,
      by simpa using hbal, hlimited, ?_⟩
    · simp only [length_cons, Nat.mul_succ] at hbuilt ⊢
      omega
    · simp only [countP_cons, ite_true, hcost] at hnested ⊢
      omega
  | @leave tokens depth height f stack =>
    refine ⟨hchain.tail, fun g hg => hheights g (mem_cons_of_mem _ hg), hbuilt, ?_,
      (sub_le _ _).trans hlimited, ?_⟩
    · have hcount : depth = stack.countP ParserFrame.guarded + if f.guarded then 1 else 0 :=
        hbal.trans (countP_cons ..)
      rw [hcount]
      cases f.guarded <;> rfl
    · exact (Nat.add_le_add_right (sublist_cons_self _ _).countP_le _).trans hnested

theorem Inv.reached (h : ParserReaches perToken input s) : s.Inv perToken input := by
  induction h with
  | refl =>
    exact ⟨.singleton _, forall_mem_singleton.mpr le_rfl, le_rfl, rfl, zero_le _,
      (Nat.zero_add _).le⟩
  | tail _ hstep ih => exact ih.step hstep

/-- Guards and unguarded recursions cut the calls of grammar functions into pieces along which the
rank falls; above them the heights of the helpers fall.
-/
theorem stack_le {top : Nat} {f : ParserFrame} {stack : List ParserFrame}
    (h : (f :: stack).IsChain (Over top)) (hheights : ∀ g ∈ f :: stack, g.fn.reach top ≤ top)
    : (f :: stack).length + f.fn.level + f.fn.reach top
      ≤ 11 * (1 + stack.countP ParserFrame.guarded + (f :: stack).countP ParserFrame.opened)
        + top := by
  induction stack generalizing f with
  | nil =>
    have hlevel := f.fn.level_le
    have hreach := hheights f mem_cons_self
    simp only [length_singleton, countP_nil]
    omega
  | cons g rest ih =>
    obtain ⟨hover, hrest⟩ := isChain_cons_cons.mp h
    have hbelow := ih hrest fun k hk => hheights k (mem_cons_of_mem _ hk)
    have hlevel := f.fn.level_le
    simp only [length_cons, countP_cons] at hbelow ⊢
    rw [Over] at hover
    split_ifs at hover with hf
    · rw [ParserFn.level_helper hf]
      omega
    obtain ⟨hg, hcall⟩ := hover
    rw [ParserFn.reach_grammar hg] at hbelow
    rw [ParserFn.reach_grammar (Bool.eq_false_iff.mpr hf)]
    rcases hcall with hopened | hguarded | hfalls
    · simp only [hopened, ite_true]
      omega
    · simp only [hguarded, ite_true]
      omega
    · omega

end ParserState

/-- Every leading `EXPLAIN` is one more call of `statement`. -/
theorem explain_nests (perToken : Nat) (tokens : List ParserToken) (depth height : Nat)
    (opened : Bool) (stack : List ParserFrame)
    : ∃ s, Relation.ReflTransGen (ParserStep perToken)
        ⟨tokens, depth, height, ⟨.statement, false, opened⟩ :: stack⟩ s
      ∧ (tokens.takeWhile (· = .explain)).length + stack.length < s.stack.length := by
  induction tokens generalizing height opened stack with
  | nil => exact ⟨_, .refl, by simp⟩
  | cons t tokens ih =>
    by_cases ht : t = .explain
    · subst ht
      obtain ⟨s, hruns, hlen⟩ := ih (height + perToken) true (⟨.statement, false, opened⟩ :: stack)
      refine ⟨s, .head (.nest rfl) hruns, ?_⟩
      simp only [takeWhile_cons, decide_true, ite_true, length_cons] at hlen ⊢
      omega
    · exact ⟨_, .refl, by simp [ht]⟩

theorem parser_nests (perToken : Nat) (input : List ParserToken)
    : ∃ s, ParserReaches perToken input s
      ∧ (input.takeWhile (· = .explain)).length < s.stack.length := by
  obtain ⟨s, hruns, hlen⟩ := explain_nests perToken input 0 6 false [⟨.parse, false, false⟩]
  exact ⟨s, .head (.call (by decide) rfl nofun) hruns, (le_add_right _ _).trans_lt hlen⟩

end GraphiteSql
