import Mathlib.Algebra.BigOperators.Group.List.Basic
import Mathlib.Algebra.Ring.Nat
import Mathlib.Data.Nat.ModEq
import EbpfDemo.Core.HashMap
import EbpfDemo.Core.Machine

/-!
# What is paid into a map

A map in which one side pays amounts to keys and the other side takes keys out. `g`
says what an entry weighs, by its key and its value, so that one law speaks about a
single key, about a set of keys and about the whole map.

* `Wrapped n a b`: `a` is what a counter modulo `n` shows of `b`;
* `weigh_split`: a map weighs what a key weighs and what is left without it;
* `Pays`: the content changes at one key, by an amount;
* `outside`: what the map weighs without a key that was read and will be deleted
  (the window). A payment to that key does not raise it (`Pays.outside`);
* `sumAlong`: what the steps of a run pay, one by one; `modEq_sumAlong` and
  `wrapped_amounts` are the inductions over the run.
-/
namespace EbpfDemo.Core

/-! ## Counters that wrap -/

/-- `b` with some multiple of `n` taken off. -/
def Wrapped (n a b : Nat) : Prop := ∃ wraps, a + n * wraps = b

namespace Wrapped

variable {n a b c : Nat}

theorem refl (n a : Nat) : Wrapped n a a := ⟨0, rfl⟩

theorem of_eq (h : a = b) : Wrapped n a b := h ▸ refl n a

theorem trans (h : Wrapped n a b) (h' : Wrapped n b c) : Wrapped n a c := by
  obtain ⟨w, hw⟩ := h
  obtain ⟨w', hw'⟩ := h'
  exact ⟨w + w', by rw [Nat.mul_add, ← Nat.add_assoc, hw, hw']⟩

theorem add_right (h : Wrapped n a b) (c : Nat) : Wrapped n (a + c) (b + c) := by
  obtain ⟨w, hw⟩ := h
  exact ⟨w, by omega⟩

theorem add_left (h : Wrapped n a b) (c : Nat) : Wrapped n (c + a) (c + b) := by
  obtain ⟨w, hw⟩ := h
  exact ⟨w, by omega⟩

theorem add_left_cancel (h : Wrapped n (c + a) (c + b)) : Wrapped n a b := by
  obtain ⟨w, hw⟩ := h
  exact ⟨w, by omega⟩

/-- Below `n` nothing is taken off. -/
theorem eq_of_lt (h : Wrapped n a b) (hb : b < n) : a = b := by
  obtain ⟨w, hw⟩ := h
  cases w with
  | zero => exact hw
  | succ w =>
    rw [Nat.mul_succ] at hw
    omega

theorem mod (n a : Nat) : Wrapped n (a % n) a := ⟨a / n, Nat.mod_add_div a n⟩

end Wrapped

/-! ## Along a run -/

section
variable {S L : Type} (step : S → L → Option S)

/-- The sum of `w` over the steps of a run. -/
def sumAlong (w : S → L → Nat) : S → List L → Nat
  | _, [] => 0
  | s, l :: ls => w s l + (step s l).elim 0 fun s' => sumAlong w s' ls

variable {step} {w w' : S → L → Nat} {s s' t : S} {l : L} {ls : List L}

theorem sumAlong_cons (h : step s l = some s') :
    sumAlong step w s (l :: ls) = w s l + sumAlong step w s' ls := by
  rw [sumAlong, h]; rfl

/-- A figure that every step raises by what it pays. -/
theorem modEq_sumAlong {φ : S → Nat} {n : Nat}
    (hstep : ∀ s l s', step s l = some s' → φ s' ≡ φ s + w s l [MOD n])
    (hx : exec step s ls = some t) : φ t ≡ φ s + sumAlong step w s ls [MOD n] := by
  induction ls generalizing s with
  | nil => cases hx; exact Nat.ModEq.refl _
  | cons l ls ih =>
    obtain ⟨s', hs, hx⟩ := exec_cons_some hx
    rw [sumAlong_cons hs, ← Nat.add_assoc]
    exact (ih hx).trans ((hstep s l s' hs).add_right _)

theorem sumAlong_add (hx : exec step s ls = some t) :
    sumAlong step (fun s l => w s l + w' s l) s ls =
      sumAlong step w s ls + sumAlong step w' s ls := by
  induction ls generalizing s with
  | nil => rfl
  | cons l ls ih =>
    obtain ⟨s', hs, hx⟩ := exec_cons_some hx
    rw [sumAlong_cons hs, sumAlong_cons hs, sumAlong_cons hs, ih hx]
    omega

theorem sumAlong_congr (h : ∀ s l, w s l = w' s l) (s : S) (ls : List L) :
    sumAlong step w s ls = sumAlong step w' s ls := by
  have : w = w' := funext fun s => funext (h s)
  rw [this]

/-- Where an amount depends on the label alone it is a sum over the labels. -/
theorem sumAlong_labels {f : L → Nat} (hx : exec step s ls = some t) :
    sumAlong step (fun _ l => f l) s ls = (ls.map f).sum := by
  induction ls generalizing s with
  | nil => rfl
  | cons l ls ih =>
    obtain ⟨s', hs, hx⟩ := exec_cons_some hx
    rw [sumAlong_cons hs, ih hx, List.map_cons, List.sum_cons]

theorem wrapped_sumAlong {φ : S → Nat} {n : Nat}
    (hstep : ∀ s l s', step s l = some s' → Wrapped n (φ s') (φ s + w s l))
    (hx : exec step s ls = some t) : Wrapped n (φ t) (φ s + sumAlong step w s ls) := by
  induction ls generalizing s with
  | nil => cases hx; exact .refl _ _
  | cons l ls ih =>
    obtain ⟨s', hs, hx⟩ := exec_cons_some hx
    rw [sumAlong_cons hs, ← Nat.add_assoc]
    exact (ih hx).trans ((hstep s l s' hs).add_right _)

/-- **The books of a run.** Where each step raises a figure by what it pays, and what is
paid and what is lost make up the amount of the label, the figure and the losses add up
to the amounts. -/
theorem wrapped_amounts {φ : S → Nat} {n : Nat} {paid lost : S → L → Nat} {amount : L → Nat}
    (hstep : ∀ s l s', step s l = some s' → Wrapped n (φ s') (φ s + paid s l))
    (hsum : ∀ s l, paid s l + lost s l = amount l) (h0 : φ s = 0) (hx : exec step s ls = some t) :
    Wrapped n (φ t + sumAlong step lost s ls) (ls.map amount).sum := by
  have hpaid := wrapped_sumAlong hstep hx
  rw [h0, Nat.zero_add] at hpaid
  rw [← sumAlong_labels hx, ← sumAlong_congr hsum, sumAlong_add hx]
  exact hpaid.add_right _

end

/-! ## The weight of a map -/

namespace HashMap

variable {K V : Type}

def weigh (g : K → V → Nat) (m : HashMap K V) : Nat := (m.elems.map fun e => g e.1 e.2).sum

theorem weigh_perm {g : K → V → Nat} {l l' : List (K × V)} (h : l.Perm l') :
    (l.map fun e => g e.1 e.2).sum = (l'.map fun e => g e.1 e.2).sum := (h.map _).sum_eq

variable [DecidableEq K]

/-- What stands under `k` weighs (0 where there is nothing). -/
def weighAt (g : K → V → Nat) (m : HashMap K V) (k : K) : Nat := (m.lookupElem k).elim 0 (g k)

/-- What the map weighs without the key in the window. -/
def outside (g : K → V → Nat) (window : Option K) (m : HashMap K V) : Nat :=
  match window with
  | none => m.weigh g
  | some k => (m.deleteElem k).weigh g

variable {g : K → V → Nat} {m m' : HashMap K V} {k : K}

theorem weigh_split (g : K → V → Nat) (m : HashMap K V) (k : K) :
    m.weigh g = m.weighAt g k + (m.deleteElem k).weigh g := by
  unfold weighAt
  cases hl : m.lookupElem k with
  | none =>
    have hdel : (m.deleteElem k).elems = m.elems :=
      Assoc.erase_of_notMem (lookupElem_eq_none.mp hl)
    rw [weigh, weigh, hdel, Option.elim_none, Nat.zero_add]
  | some v =>
    rw [weigh, weigh_perm (Assoc.perm_erase_cons m.nodup hl), List.map_cons, List.sum_cons]
    rfl

theorem weigh_deleteElem_modifyElem (f : V → V) :
    ((m.modifyElem k f).deleteElem k).weigh g = (m.deleteElem k).weigh g := by
  have herase (l : List (K × V)) : Assoc.erase k (Assoc.adjust k f l) = Assoc.erase k l := by
    induction l with
    | nil => rfl
    | cons e l ih =>
      have hc : Assoc.adjust k f (e :: l) =
          (if e.1 = k then (e.1, f e.2) else e) :: Assoc.adjust k f l := rfl
      unfold Assoc.erase at ih ⊢
      by_cases he : e.1 = k
      · rw [hc, if_pos he, List.filter_cons_of_neg (by simp [he]),
          List.filter_cons_of_neg (by simp [he]), ih]
      · rw [hc, if_neg he, List.filter_cons_of_pos (by simp [he]),
          List.filter_cons_of_pos (by simp [he]), ih]
  show ((Assoc.erase k (Assoc.adjust k f m.elems)).map fun e => g e.1 e.2).sum = _
  rw [herase]
  rfl

theorem weigh_deleteElem_put (v : V) :
    ((m.put k v).deleteElem k).weigh g = (m.deleteElem k).weigh g := by
  have hp : (m.put k v).elems.Perm ((k, v) :: (m.deleteElem k).elems) := Assoc.place_perm _ _ _
  have hsplit := weigh_split g (m.put k v) k
  rw [weigh, weigh_perm hp, List.map_cons, List.sum_cons, weighAt, lookupElem_put_self] at hsplit
  exact (Nat.add_left_cancel hsplit).symm

theorem le_weigh (g : K → V → Nat) {v : V} (h : m.lookupElem k = some v) : g k v ≤ m.weigh g := by
  rw [weigh_split g m k, weighAt, h]
  exact Nat.le_add_right _ _

/-- What one element changes in the weight: the new for the old. -/
theorem weigh_modifyElem (g : K → V → Nat) (f : V → V) {v : V} (h : m.lookupElem k = some v) :
    (m.modifyElem k f).weigh g + g k v = m.weigh g + g k (f v) := by
  rw [weigh_split g (m.modifyElem k f) k, weigh_split g m k, weigh_deleteElem_modifyElem,
    weighAt, weighAt, lookupElem_modifyElem, if_pos rfl, h]
  simp only [Option.map_some, Option.elim_some]
  omega

/-- An amount that goes up by `δ` modulo `n`. -/
theorem weigh_modifyElem_modEq {f : V → V} {δ n : Nat} (hf : ∀ v, g k (f v) ≡ g k v + δ [MOD n])
    (h : k ∈ m.keys) : (m.modifyElem k f).weigh g ≡ m.weigh g + δ [MOD n] := by
  obtain ⟨v, hv⟩ := exists_lookup h
  refine Nat.ModEq.add_right_cancel' (g k v) ?_
  rw [weigh_modifyElem g f hv, Nat.add_right_comm, Nat.add_assoc]
  exact (hf v).add_left _

theorem weigh_put_absent (g : K → V → Nat) (h : k ∉ m.keys) (v : V) :
    (m.put k v).weigh g = m.weigh g + g k v := by
  rw [weigh_split g (m.put k v) k, weigh_split g m k, weigh_deleteElem_put, weighAt, weighAt,
    lookupElem_put_self, lookupElem_eq_none.mpr h, Option.elim_none, Option.elim_some]
  omega

theorem weighAt_congr {k' : K} (h : m'.lookupElem k' = m.lookupElem k') :
    m'.weighAt g k' = m.weighAt g k' := by
  rw [weighAt, weighAt, h]

/-! ## Payments -/

/-- The content changes at `k` alone, by `δ`, in numbers modulo `n`. -/
structure Pays (g : K → V → Nat) (n : Nat) (m m' : HashMap K V) (k : K) (δ : Nat) : Prop where
  rest : (m'.deleteElem k).weigh g = (m.deleteElem k).weigh g
  other : ∀ k', k' ≠ k → m'.weighAt g k' = m.weighAt g k'
  value : Wrapped n (m'.weighAt g k) (m.weighAt g k + δ)

variable {n δ : Nat}

theorem Pays.weigh (h : m.Pays g n m' k δ) : Wrapped n (m'.weigh g) (m.weigh g + δ) := by
  rw [weigh_split g m' k, weigh_split g m k, h.rest, Nat.add_right_comm]
  exact h.value.add_right _

/-- A payment into the window is not seen outside. -/
theorem Pays.outside (h : m.Pays g n m' k δ) (window : Option K) :
    Wrapped n (m'.outside g window)
      (m.outside g window + if window = some k then 0 else δ) := by
  cases window with
  | none => exact h.weigh
  | some q =>
    by_cases hq : q = k
    · subst hq
      rw [if_pos rfl]
      exact .of_eq h.rest
    · rw [if_neg (by simpa using hq)]
      have hw := h.weigh
      rw [weigh_split g m' q, weigh_split g m q, h.other q hq, Nat.add_assoc] at hw
      exact hw.add_left_cancel

end HashMap
end EbpfDemo.Core
