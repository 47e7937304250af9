import Mathlib.Algebra.Order.Ring.Int
import EbpfDemo.Core.Machine

/-!
# Accounts that are read and cleared while others pay in

One side counts events into per-key accounts, the other side reads an account,
reports what it read and then clears the account. `window` is the key that was
read and is not yet cleared: what its account holds is about to be wiped.

`credit` is what the reports will ever show of a key: what was reported, and
what its account holds unless it stands in the window. `balance` subtracts the
events. If no step raises the balance and `C` says which steps keep it, then
outside the window reports and account add up to the events exactly when the
whole run meets `C` (`conserved_iff`).
-/
namespace EbpfDemo.Core

variable {S L K : Type} [DecidableEq K]

structure Ledger (S K : Type) where
  reported : S → K → Nat
  held : S → K → Nat
  window : S → Option K
  events : S → K → Nat

namespace Ledger

variable (B : Ledger S K)

def credit (p : K) (s : S) : Nat := B.reported s p + if B.window s = some p then 0 else B.held s p

def balance (p : K) (s : S) : Int := (B.credit p s : Int) - B.events s p

/-- Every event of `p` was reported or is still in its account, and none twice. -/
def Conserved (p : K) (s : S) : Prop := B.reported s p + B.held s p = B.events s p

instance (p : K) (s : S) : Decidable (B.Conserved p s) := inferInstanceAs (Decidable (_ = _))

variable {B} {p : K} {s s' : S}

theorem credit_closed (h : B.window s ≠ some p) :
    B.credit p s = B.reported s p + B.held s p := by rw [credit, if_neg h]

/-- A step that changes nothing about `p`. -/
theorem balance_keep (hc : B.credit p s' = B.credit p s) (he : B.events s' p = B.events s p) :
    B.balance p s' = B.balance p s := by unfold balance; rw [hc, he]

/-- An event of `p` costs one unless the credit rises by one; `C` decides which. -/
theorem balance_event {C : Prop} (he : B.events s' p = B.events s p + 1)
    (hle : B.credit p s' ≤ B.credit p s + 1) (hC : B.credit p s' = B.credit p s + 1 ↔ C) :
    B.balance p s' ≤ B.balance p s ∧ (B.balance p s' = B.balance p s ↔ C) := by
  unfold balance
  rw [he, ← hC]; omega

/-- **Conservation.** Outside the window, reports and account add up to the
events exactly when every step of the run kept the balance. -/
theorem conserved_iff {step : S → L → Option S} {C : S → L → Prop}
    (hstep : ∀ s l s', step s l = some s' →
      B.balance p s' ≤ B.balance p s ∧ (B.balance p s' = B.balance p s ↔ C s l))
    {t : S} {ls : List L} (h0 : B.balance p s = 0) (hx : exec step s ls = some t)
    (hw : B.window t ≠ some p) : B.Conserved p t ↔ Along step C s ls := by
  have hiff : B.balance p t = B.balance p s ↔ Along step C s ls :=
    potential_iff (I := fun _ => True) (fun _ _ _ _ _ => trivial)
      (fun _ _ _ _ h => (hstep _ _ _ h).1) (fun _ _ _ _ h => (hstep _ _ _ h).2) trivial hx
  rw [← hiff, h0]
  unfold Conserved balance
  rw [credit_closed hw]
  omega

end Ledger
end EbpfDemo.Core
