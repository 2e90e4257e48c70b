import Mathlib.Init

/-!
# Three-valued truth values

SQL's truth values as `Option Bool`, with `none` for unknown: the connectives of Kleene's strong
logic, their extension to lists, and when a conjunction or a disjunction of any length is true.
Reading unknown as a fixed truth value `d` (`Option.getD`) turns the connectives into the boolean
ones; under a negation it is read as the other value.
-/

namespace PolemoDB.Lib

/-- Strong conjunction: false wins over unknown. -/
def and3 : Option Bool → Option Bool → Option Bool
  | some false, _ => some false
  | _, some false => some false
  | some true, some true => some true
  | _, _ => none

/-- Strong disjunction: true wins over unknown. -/
def or3 : Option Bool → Option Bool → Option Bool
  | some true, _ => some true
  | _, some true => some true
  | some false, some false => some false
  | _, _ => none

/-- Negation keeps unknown. -/
def not3 (a : Option Bool) : Option Bool := a.map not

variable (as : List (Option Bool))

def conj3 : Option Bool := as.foldr and3 (some true)

def disj3 : Option Bool := as.foldr or3 (some false)

theorem and3_eq_true (a b : Option Bool) : and3 a b = some true ↔ a = some true ∧
    b = some true := by
  rcases a with _ | _ | _ <;> rcases b with _ | _ | _ <;> decide

theorem or3_eq_true (a b : Option Bool) : or3 a b = some true ↔ a = some true ∨ b = some true := by
  rcases a with _ | _ | _ <;> rcases b with _ | _ | _ <;> decide

theorem conj3_eq_true : conj3 as = some true ↔ ∀ a ∈ as, a = some true := by
  induction as with
  | nil => simp [conj3]
  | cons a as ih =>
    rw [conj3, List.foldr_cons, and3_eq_true, ← conj3, ih]
    simp

theorem disj3_eq_true : disj3 as = some true ↔ ∃ a ∈ as, a = some true := by
  induction as with
  | nil => simp [disj3]
  | cons a as ih =>
    rw [disj3, List.foldr_cons, or3_eq_true, ← disj3, ih]
    simp only [List.mem_cons, exists_eq_or_imp]

/-! ## Reading unknown as a truth value -/

theorem and3_getD (a b : Option Bool) (d : Bool) : (and3 a b).getD d = (a.getD d && b.getD d) := by
  rcases a with _ | _ | _ <;> rcases b with _ | _ | _ <;> cases d <;> rfl

theorem or3_getD (a b : Option Bool) (d : Bool) : (or3 a b).getD d = (a.getD d || b.getD d) := by
  rcases a with _ | _ | _ <;> rcases b with _ | _ | _ <;> cases d <;> rfl

theorem not3_getD (a : Option Bool) (d : Bool) : (not3 a).getD d = !(a.getD (!d)) := by
  rcases a with _ | _ | _ <;> cases d <;> rfl

theorem conj3_getD (d : Bool) : (conj3 as).getD d = as.all fun a => a.getD d := by
  induction as with
  | nil => rfl
  | cons a as ih => rw [conj3, List.foldr_cons, and3_getD, ← conj3, ih, List.all_cons]

theorem disj3_getD (d : Bool) : (disj3 as).getD d = as.any fun a => a.getD d := by
  induction as with
  | nil => rfl
  | cons a as ih => rw [disj3, List.foldr_cons, or3_getD, ← disj3, ih, List.any_cons]

end PolemoDB.Lib
