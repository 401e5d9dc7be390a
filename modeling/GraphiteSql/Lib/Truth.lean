import Mathlib.Data.Option.Basic

/-! Three-valued logic. The unknown truth value is `none`. -/

namespace Lib

abbrev Truth := Option Bool

namespace Truth

def and : Truth → Truth → Truth
  | some false, _ => some false
  | some true, q => q
  | none, some false => some false
  | none, _ => none

def or : Truth → Truth → Truth
  | some true, _ => some true
  | some false, q => q
  | none, some true => some true
  | none, _ => none

def not (p : Truth) : Truth :=
  p.map (!·)

theorem not_and (p q : Truth) : (p.and q).not = p.not.or q.not := by
  rcases p with _ | _ | _ <;> rcases q with _ | _ | _ <;> rfl

theorem not_or (p q : Truth) : (p.or q).not = p.not.and q.not := by
  rcases p with _ | _ | _ <;> rcases q with _ | _ | _ <;> rfl

end Truth

end Lib
