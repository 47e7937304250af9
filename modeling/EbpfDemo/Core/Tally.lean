import Mathlib.Algebra.Group.Defs
import EbpfDemo.Core.Dict

/-!
# Tallies

Amounts under keys, added up by key: `sumUnder k l` is the sum of the amounts
under `k`, `none` if there are none. It does not depend on the order
(`sumUnder_perm`), two lists side by side give the sum of both
(`sumUnder_append`), and it is what a dictionary holds after every amount was
added to its key (`find_foldl_add`).
-/
namespace EbpfDemo.Core.Tally

variable {K A : Type} [DecidableEq K] [AddCommMonoid A]

/-- The sum of two optional amounts. -/
abbrev plus : Option A → Option A → Option A := Option.merge (· + ·)

/-- The amount of one entry under `k`. -/
def amount (k : K) (p : K × A) : Option A := if p.1 = k then some p.2 else none

def sumUnder (k : K) : List (K × A) → Option A
  | [] => none
  | p :: l => plus (amount k p) (sumUnder k l)

/-- `d[k] = d.get(k, 0) + v` -/
def add (d : List (K × A)) (p : K × A) : List (K × A) :=
  Dict.set p.1 (Dict.getD d p.1 0 + p.2) d

theorem plus_assoc (x y z : Option A) : plus (plus x y) z = plus x (plus y z) := by
  cases x <;> cases y <;> cases z <;> simp [add_assoc]

theorem plus_comm (x y : Option A) : plus x y = plus y x := by
  cases x <;> cases y <;> simp [add_comm]

theorem plus_left_comm (x y z : Option A) : plus x (plus y z) = plus y (plus x z) := by
  rw [← plus_assoc, ← plus_assoc, plus_comm x y]

theorem sumUnder_append (k : K) (l m : List (K × A)) :
    sumUnder k (l ++ m) = plus (sumUnder k l) (sumUnder k m) := by
  induction l with
  | nil => exact Option.merge_none_left.symm
  | cons p l ih => rw [List.cons_append, sumUnder, ih, sumUnder, plus_assoc]

theorem sumUnder_perm (k : K) {l m : List (K × A)} (h : l.Perm m) :
    sumUnder k l = sumUnder k m := by
  induction h with
  | nil => rfl
  | cons p _ ih => rw [sumUnder, ih, sumUnder]
  | swap p q l => exact plus_left_comm _ _ _
  | trans _ _ ih1 ih2 => exact ih1.trans ih2

/-- One amount is added to its key. -/
theorem find_add (k : K) (d : List (K × A)) (p : K × A) :
    Assoc.find k (add d p) = plus (Assoc.find k d) (amount k p) := by
  unfold add amount
  rw [Dict.find_set]
  by_cases hk : k = p.1
  · subst hk
    rw [if_pos rfl, if_pos rfl]
    unfold Dict.getD
    cases Assoc.find p.1 d with
    | none => simp
    | some v => rfl
  · rw [if_neg hk, if_neg fun e => hk e.symm]
    exact Option.merge_none_right.symm

/-- What a dictionary holds after all amounts were added. -/
theorem find_foldl_add (k : K) (l : List (K × A)) (d : List (K × A)) :
    Assoc.find k (l.foldl add d) = plus (Assoc.find k d) (sumUnder k l) := by
  induction l generalizing d with
  | nil => exact Option.merge_none_right.symm
  | cons p l ih => rw [List.foldl_cons, ih, find_add, sumUnder, plus_assoc]

end EbpfDemo.Core.Tally
