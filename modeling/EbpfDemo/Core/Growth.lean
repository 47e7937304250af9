import Mathlib.Algebra.Order.BigOperators.Group.List
import Mathlib.Algebra.Order.Group.Nat
import Mathlib.Algebra.Ring.Nat
import Mathlib.Data.List.ReduceOption

/-!
# Growth of a counter between readings

A counter that does not go back is read from time to time. The reader keeps the
value it read and reports by how much the counter grew since the reading before
(`growth`). What it reports adds up to the last value (`sum_growth`); reported in
whole units of `d`, it falls short of it by what each division leaves
(`mul_sum_div`, `sum_mod_le`).

A reading may fail (`none`). A reader may pass it over (`held`), or take it for a 0
and keep that (`zeroed`). The second is never below the first, and they are the same
exactly when no failed reading stands between a reading that is not 0 and a later
one (`growth_zeroed_eq_held_iff`); only then do the reports of the second add up to
no more than the last value (`sum_growth_zeroed_le_iff`). Its readings never go down
exactly when no failed one comes right after one that is not 0 (`rising_iff`).
-/
namespace EbpfDemo.Core

open scoped List

/-- By how much each value exceeds the one before; `a` is in front of the first. -/
def growth : Nat → List Nat → List Nat
  | _, [] => []
  | a, b :: l => (b - a) :: growth b l

theorem pairwise_zero_cons {l : List Nat} (h : l.Pairwise (· ≤ ·)) : (0 :: l).Pairwise (· ≤ ·) :=
  List.pairwise_cons.mpr ⟨fun n _ => Nat.zero_le n, h⟩

theorem sum_growth {a : Nat} {l : List Nat} (h : (a :: l).Pairwise (· ≤ ·)) :
    a + (growth a l).sum = l.getLastD a := by
  induction l generalizing a with
  | nil => rfl
  | cons b l ih =>
    obtain ⟨hab, hbl⟩ := List.pairwise_cons.mp h
    have hle := hab b List.mem_cons_self
    rw [growth, List.sum_cons, List.getLastD_cons, ← ih hbl]
    omega

theorem length_growth (a : Nat) (l : List Nat) : (growth a l).length = l.length := by
  induction l generalizing a with
  | nil => rfl
  | cons b l ih => rw [growth, List.length_cons, List.length_cons, ih]

/-! ## Whole units -/

theorem mul_sum_div (d : Nat) (l : List Nat) :
    d * (l.map (· / d)).sum + (l.map (· % d)).sum = l.sum := by
  induction l with
  | nil => rfl
  | cons n l ih =>
    have := Nat.div_add_mod n d
    rw [List.map_cons, List.map_cons, List.sum_cons, List.sum_cons, List.sum_cons, Nat.mul_add]
    omega

theorem sum_mod_le {d : Nat} (hd : 0 < d) (l : List Nat) :
    (l.map (· % d)).sum ≤ l.length * (d - 1) := by
  rw [← List.length_map (· % d)]
  refine List.sum_le_card_nsmul _ _ fun n hn => ?_
  obtain ⟨m, -, rfl⟩ := List.mem_map.mp hn
  exact Nat.le_sub_one_of_lt (Nat.mod_lt m hd)

/-! ## Failed readings -/

/-- A failed reading is passed over. -/
def held : Nat → List (Option Nat) → List Nat
  | _, [] => []
  | a, none :: l => 0 :: held a l
  | a, some b :: l => (b - a) :: held b l

/-- A failed reading is taken for a 0. -/
def zeroed (l : List (Option Nat)) : List Nat := l.map (·.getD 0)

/-- No failed reading stands between a reading that is not 0 and a later one. -/
def Unbroken (l : List (Option Nat)) : Prop := ∀ v w, [some v, none, some w] <+ l → v = 0

/-- No failed reading comes right after one that is not 0. -/
def NoDrop (l : List (Option Nat)) : Prop := ∀ v, [some v, none] <:+: l → v = 0

theorem sum_held (a : Nat) (l : List (Option Nat)) :
    (held a l).sum = (growth a l.reduceOption).sum := by
  induction l generalizing a with
  | nil => rfl
  | cons o l ih =>
    cases o with
    | none => rw [held, List.sum_cons, Nat.zero_add, ih, List.reduceOption_cons_of_none]
    | some b => rw [held, List.sum_cons, ih, List.reduceOption_cons_of_some, growth, List.sum_cons]

section
variable {l : List (Option Nat)} {a b : Nat}

/-- A value in front of a larger one adds nothing. -/
theorem unbroken_cons_some (hab : a ≤ b) :
    Unbroken (some a :: some b :: l) ↔ Unbroken (some b :: l) := by
  unfold Unbroken
  simp only [List.cons_sublist_cons', Option.some.injEq, reduceCtorEq, false_and, or_false]
  refine ⟨fun h v w hv => h v w (.inl hv), fun h v w hv => ?_⟩
  rcases hv with hv | ⟨rfl, hv⟩
  · exact h v w hv
  · -- the failed reading is behind `b` as well
    have := h b w (.inr ⟨rfl, hv⟩)
    omega

/-- Of failed readings in a row one is enough. -/
theorem unbroken_cons_none :
    Unbroken (some a :: none :: none :: l) ↔ Unbroken (some a :: none :: l) := by
  unfold Unbroken
  simp only [List.cons_sublist_cons', List.singleton_sublist, reduceCtorEq, false_and, or_false,
    true_and]
  refine forall_congr' fun v => forall_congr' fun w => imp_congr_left (or_congr_right ?_)
  exact and_congr_right fun _ => ⟨fun h => h.elim id .inr, fun h => .inl h⟩

/-- A reading behind a failed one. -/
theorem unbroken_cons_none_some :
    Unbroken (some a :: none :: some b :: l) ↔ a = 0 ∧ Unbroken (some b :: l) := by
  unfold Unbroken
  simp only [List.cons_sublist_cons', Option.some.injEq, reduceCtorEq, false_and, or_false,
    true_and]
  constructor
  · intro h
    exact ⟨h a b (.inr ⟨rfl, .inr (.inr ⟨rfl, List.nil_sublist l⟩)⟩), fun v w hv => h v w (.inl hv)⟩
  · rintro ⟨ha, h⟩ v w (hv | ⟨rfl, -⟩)
    · exact h v w hv
    · exact ha

theorem unbroken_zero_cons : Unbroken (some 0 :: l) ↔ Unbroken l := by
  refine ⟨fun h v w hv => h v w (hv.cons _), fun h v w hv => ?_⟩
  rcases List.cons_sublist_cons'.mp hv with hv | ⟨hv, -⟩
  · exact h v w hv
  · exact Option.some.inj hv

theorem noDrop_cons_none : NoDrop (some a :: none :: l) ↔ a = 0 ∧ NoDrop l := by
  unfold NoDrop
  simp [List.infix_cons_iff, List.cons_prefix_cons]

theorem noDrop_cons_some : NoDrop (some a :: some b :: l) ↔ NoDrop (some b :: l) := by
  unfold NoDrop
  simp [List.infix_cons_iff, List.cons_prefix_cons]

theorem noDrop_zero_cons : NoDrop (some 0 :: l) ↔ NoDrop l := by
  refine ⟨fun h v hv => h v (List.infix_cons hv), fun h v hv => ?_⟩
  rcases List.infix_cons_iff.mp hv with hv | hv
  · exact Option.some.inj (List.cons_prefix_cons.mp hv).1
  · exact h v hv

end

/-- Two lists one of which is nowhere larger have the same sum only when they are the same. -/
theorem sum_le_sum_iff_eq {l m : List Nat} (h : List.Forall₂ (· ≤ ·) l m) :
    m.sum ≤ l.sum ↔ m = l := by
  induction h with
  | nil => exact iff_of_true (Nat.le_refl _) rfl
  | @cons a b l m hab hlm ih =>
    have hle := hlm.sum_le_sum
    rw [List.sum_cons, List.sum_cons, List.cons.injEq, ← ih]
    omega

/-- Taking failures for 0 never reports less. -/
theorem held_le_growth (l : List (Option Nat)) {p a : Nat} (h : p ≤ a) :
    List.Forall₂ (· ≤ ·) (held a l) (growth p (zeroed l)) := by
  induction l generalizing p a with
  | nil => exact .nil
  | cons o l ih =>
    cases o with
    | none => exact .cons (Nat.zero_le _) (ih (Nat.zero_le a))
    | some b => exact .cons (Nat.sub_le_sub_left h b) (ih (Nat.le_refl b))

/-- The snapshot is the last value, or it is 0 behind a failed reading. -/
theorem growth_zeroed_from (l : List (Option Nat)) {a : Nat}
    (h : (a :: l.reduceOption).Pairwise (· ≤ ·)) :
    (growth a (zeroed l) = held a l ↔ Unbroken (some a :: l)) ∧
    (growth 0 (zeroed l) = held a l ↔ Unbroken (some a :: none :: l)) := by
  induction l generalizing a with
  | nil =>
    have hshort : ∀ m : List (Option Nat), m.length < 3 → Unbroken m := fun m hm v w hv =>
      absurd hv.length_le (Nat.not_le.mpr hm)
    exact ⟨iff_of_true rfl (hshort _ (by simp)), iff_of_true rfl (hshort _ (by simp))⟩
  | cons o l ih =>
    cases o with
    | none =>
      obtain ⟨-, hfail⟩ := ih h
      have hcons : ∀ p, growth p (zeroed (none :: l)) = held a (none :: l) ↔
          growth 0 (zeroed l) = held a l := fun p => by
        show (0 - p) :: growth 0 (zeroed l) = 0 :: held a l ↔ _
        rw [Nat.zero_sub, List.cons.injEq, eq_self_iff_true, true_and]
      rw [hcons, hcons, unbroken_cons_none]
      exact ⟨hfail, hfail⟩
    | some b =>
      rw [List.reduceOption_cons_of_some, List.pairwise_cons] at h
      have hab : a ≤ b := h.1 b List.mem_cons_self
      obtain ⟨hread, -⟩ := ih h.2
      have hcons : ∀ p, growth p (zeroed (some b :: l)) = held a (some b :: l) ↔
          b - p = b - a ∧ growth b (zeroed l) = held b l := fun p => by
        show (b - p) :: growth b (zeroed l) = (b - a) :: held b l ↔ _
        rw [List.cons.injEq]
      rw [hcons, hcons, hread, unbroken_cons_some hab, unbroken_cons_none_some]
      exact ⟨and_iff_right rfl, and_congr_left fun _ => by omega⟩

variable {l : List (Option Nat)}

theorem growth_zeroed_eq_held_iff (h : l.reduceOption.Pairwise (· ≤ ·)) :
    growth 0 (zeroed l) = held 0 l ↔ Unbroken l := by
  rw [(growth_zeroed_from l (pairwise_zero_cons h)).1, unbroken_zero_cons]

theorem sum_growth_zeroed_le_iff (h : l.reduceOption.Pairwise (· ≤ ·)) :
    (growth 0 (zeroed l)).sum ≤ l.reduceOption.getLastD 0 ↔ Unbroken l := by
  rw [← sum_growth (pairwise_zero_cons h), Nat.zero_add, ← sum_held,
    sum_le_sum_iff_eq (held_le_growth l le_rfl), growth_zeroed_eq_held_iff h]

theorem rising_from (l : List (Option Nat)) {a : Nat}
    (h : (a :: l.reduceOption).Pairwise (· ≤ ·)) :
    (a :: zeroed l).IsChain (· ≤ ·) ↔ NoDrop (some a :: l) := by
  induction l generalizing a with
  | nil => exact iff_of_true (.singleton a) fun v hv => absurd hv.length_le (by simp)
  | cons o l ih =>
    cases o with
    | none =>
      have h0 := pairwise_zero_cons (List.pairwise_cons.mp h).2
      show (a :: 0 :: zeroed l).IsChain (· ≤ ·) ↔ _
      rw [List.isChain_cons_cons, ih h0, noDrop_zero_cons, noDrop_cons_none, Nat.le_zero]
    | some b =>
      rw [List.reduceOption_cons_of_some, List.pairwise_cons] at h
      show (a :: b :: zeroed l).IsChain (· ≤ ·) ↔ _
      rw [List.isChain_cons_cons, ih h.2, noDrop_cons_some]
      exact and_iff_right (h.1 b List.mem_cons_self)

theorem rising_iff (h : l.reduceOption.Pairwise (· ≤ ·)) :
    (0 :: zeroed l).IsChain (· ≤ ·) ↔ NoDrop l := by
  rw [rising_from l (pairwise_zero_cons h), noDrop_zero_cons]

end EbpfDemo.Core
