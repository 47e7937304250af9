import Mathlib.Data.List.Basic

/-!
# Patterns of classes

A pattern is a row of classes with quantifiers (`c`, `c?`, `c*`, `c+`), some of them
gathered in groups. `Pattern.Matches` says what a pattern stands for and what its groups
then hold; `Pattern.tries` is what a backtracking matcher goes through, in its order: a
quantifier takes all it can and gives back one element at a time. `Pattern.first` is the
first try whose rest is accepted, and the only one a program sees.

* `mem_tries`: the matcher goes through the matches and nothing else;
* `first_some`, `first_of_matches`: so it finds a match, and one if there is one. Which
  one depends on the order of the tries, unless all matches have the same groups.
-/
namespace EbpfDemo.Core

variable {α : Type}

inductive Quant where
  /-- `c`, `c?`, `c*` and `c+` -/
  | one | opt | star | plus
  deriving DecidableEq

def Quant.allows : Quant → Nat → Bool
  | .one, n => n = 1
  | .opt, n => n ≤ 1
  | .star, _ => true
  | .plus, n => 0 < n

/-- A class with its quantifier. -/
structure Item (α : Type) where
  cls : α → Bool
  quant : Quant

inductive Piece (α : Type) where
  | item (i : Item α)
  | group (is : List (Item α))

abbrev Pattern (α : Type) := List (Piece α)

/-! ## What a pattern stands for -/

def Item.Admits (i : Item α) (a : List α) : Prop :=
  (∀ c ∈ a, i.cls c = true) ∧ i.quant.allows a.length = true

def Items.Matches : List (Item α) → List α → Prop
  | [], a => a = []
  | i :: is, a => ∃ b c, a = b ++ c ∧ i.Admits b ∧ Items.Matches is c

/-- The text is cut into the pieces; `gs` are the texts of the groups. -/
def Pattern.Matches : Pattern α → List α → List (List α) → Prop
  | [], a, gs => a = [] ∧ gs = []
  | .item i :: ps, a, gs => ∃ b c, a = b ++ c ∧ i.Admits b ∧ Pattern.Matches ps c gs
  | .group is :: ps, a, gs =>
    ∃ b c hs, a = b ++ c ∧ Items.Matches is b ∧ Pattern.Matches ps c hs ∧ gs = b :: hs

section
variable {p : α → Bool} {a : List α} {c : α}

theorem admits_one : Item.Admits ⟨p, .one⟩ a ↔ ∃ c, a = [c] ∧ p c = true := by
  constructor
  · rintro ⟨hp, hlength⟩
    obtain ⟨c, rfl⟩ := List.length_eq_one_iff.mp (of_decide_eq_true hlength)
    exact ⟨c, rfl, hp c (List.mem_singleton_self c)⟩
  · rintro ⟨c, rfl, hc⟩
    exact ⟨fun d hd => List.mem_singleton.mp hd ▸ hc, rfl⟩

theorem admits_opt : Item.Admits ⟨p, .opt⟩ a ↔ a = [] ∨ ∃ c, a = [c] ∧ p c = true := by
  constructor
  · rintro ⟨hp, hlength⟩
    rcases Nat.le_one_iff_eq_zero_or_eq_one.mp (of_decide_eq_true hlength) with h | h
    · exact .inl (List.length_eq_zero_iff.mp h)
    · exact .inr (admits_one.mp ⟨hp, decide_eq_true h⟩)
  · rintro (rfl | ⟨c, rfl, hc⟩)
    · exact ⟨nofun, rfl⟩
    · exact ⟨(admits_one.mpr ⟨c, rfl, hc⟩).1, rfl⟩

theorem admits_star : Item.Admits ⟨p, .star⟩ a ↔ ∀ c ∈ a, p c = true := and_iff_left rfl

theorem admits_plus : Item.Admits ⟨p, .plus⟩ a ↔ (∀ c ∈ a, p c = true) ∧ a ≠ [] :=
  and_congr_right fun _ => decide_eq_true_iff.trans List.length_pos_iff

/-- Each element is of a class of the row. -/
theorem Items.exists_of_mem {is : List (Item α)} (h : Items.Matches is a) (hc : c ∈ a) :
    ∃ i ∈ is, i.cls c = true := by
  induction is generalizing a with
  | nil =>
    rw [show a = [] from h] at hc
    cases hc
  | cons i is ih =>
    obtain ⟨b, t, rfl, hadmits, hmatches⟩ := h
    rcases List.mem_append.mp hc with hc | hc
    · exact ⟨i, List.mem_cons_self, hadmits.1 c hc⟩
    · obtain ⟨j, hj, hcls⟩ := ih hmatches hc
      exact ⟨j, List.mem_cons_of_mem _ hj, hcls⟩

end

/-! ## The matcher -/

/-- The cuts behind elements of a class, the longest first. -/
def cuts (p : α → Bool) : List α → List (List α × List α)
  | [] => [([], [])]
  | c :: s =>
    if p c then (cuts p s).map (fun x => (c :: x.1, x.2)) ++ [([], c :: s)] else [([], c :: s)]

def Item.tries (i : Item α) (s : List α) : List (List α × List α) :=
  (cuts i.cls s).filter fun x => i.quant.allows x.1.length

def Items.tries : List (Item α) → List α → List (List α × List α)
  | [], s => [([], s)]
  | i :: is, s =>
    (i.tries s).flatMap fun x => (Items.tries is x.2).map fun y => (x.1 ++ y.1, y.2)

/-- The groups and the rest of every try. -/
def Pattern.tries : Pattern α → List α → List (List (List α) × List α)
  | [], s => [([], s)]
  | .item i :: ps, s => (i.tries s).flatMap fun x => Pattern.tries ps x.2
  | .group is :: ps, s =>
    (Items.tries is s).flatMap fun x => (Pattern.tries ps x.2).map fun y => (x.1 :: y.1, y.2)

/-- The groups of the first try whose rest may stand at the end. -/
def Pattern.first (p : Pattern α) (ends : List α → Bool) (s : List α) : Option (List (List α)) :=
  ((p.tries s).find? fun x => ends x.2).map Prod.fst

/-! ## The matcher goes through the matches -/

section
variable {p : α → Bool} {s a b : List α}

theorem mem_cuts : (a, b) ∈ cuts p s ↔ s = a ++ b ∧ ∀ c ∈ a, p c = true := by
  induction s generalizing a with
  | nil =>
    rw [cuts, List.mem_singleton, Prod.mk.injEq, eq_comm (a := []), List.append_eq_nil_iff]
    constructor
    · rintro ⟨rfl, rfl⟩
      exact ⟨⟨rfl, rfl⟩, nofun⟩
    · exact fun h => h.1
  | cons c s ih =>
    have hnil : (a, b) = ([], c :: s) → c :: s = a ++ b ∧ ∀ c ∈ a, p c = true := by
      intro h
      cases h
      exact ⟨rfl, nofun⟩
    rw [cuts]
    constructor
    · intro h
      split at h
      · rename_i hc
        rcases List.mem_append.mp h with h | h
        · obtain ⟨⟨a, b⟩, hx, he⟩ := List.mem_map.mp h
          cases he
          obtain ⟨rfl, ha⟩ := ih.mp hx
          refine ⟨rfl, fun d hd => ?_⟩
          rcases List.mem_cons.mp hd with rfl | hd
          · exact hc
          · exact ha d hd
        · exact hnil (List.mem_singleton.mp h)
      · exact hnil (List.mem_singleton.mp h)
    · rintro ⟨hs, ha⟩
      cases a with
      | nil =>
        have hlast : (([], b) : List α × List α) ∈ [([], c :: s)] := by
          rw [hs]
          exact List.mem_singleton_self _
        split
        · exact List.mem_append_right _ hlast
        · exact hlast
      | cons d a =>
        obtain ⟨rfl, rfl⟩ := List.cons_eq_cons.mp hs
        rw [if_pos (ha c List.mem_cons_self)]
        apply List.mem_append_left
        exact List.mem_map.mpr ⟨(a, b), ih.mpr ⟨rfl, fun d hd => ha d (List.mem_cons_of_mem _ hd)⟩, rfl⟩

theorem Item.mem_tries {i : Item α} : (a, b) ∈ i.tries s ↔ s = a ++ b ∧ i.Admits a := by
  rw [Item.tries, List.mem_filter, mem_cuts, and_assoc]
  exact Iff.rfl

theorem Items.mem_tries {is : List (Item α)} :
    (a, b) ∈ Items.tries is s ↔ s = a ++ b ∧ Items.Matches is a := by
  induction is generalizing s a with
  | nil =>
    rw [Items.tries, List.mem_singleton, Prod.mk.injEq, Items.Matches]
    constructor
    · rintro ⟨rfl, rfl⟩
      exact ⟨rfl, rfl⟩
    · rintro ⟨rfl, rfl⟩
      exact ⟨rfl, rfl⟩
  | cons i is ih =>
    rw [Items.tries, List.mem_flatMap]
    constructor
    · rintro ⟨⟨x, t⟩, hx, hy⟩
      obtain ⟨⟨y, r⟩, hrest, he⟩ := List.mem_map.mp hy
      cases he
      obtain ⟨rfl, hadmits⟩ := Item.mem_tries.mp hx
      obtain ⟨rfl, hmatches⟩ := ih.mp hrest
      exact ⟨(List.append_assoc x y r).symm, x, y, rfl, hadmits, hmatches⟩
    · rintro ⟨hs, x, y, rfl, hadmits, hmatches⟩
      refine ⟨(x, y ++ b), Item.mem_tries.mpr ⟨by rw [hs, List.append_assoc], hadmits⟩, ?_⟩
      exact List.mem_map.mpr ⟨(y, b), ih.mpr ⟨rfl, hmatches⟩, rfl⟩

end

namespace Pattern
variable {p : Pattern α} {ends : List α → Bool} {s a r : List α} {gs : List (List α)}

theorem mem_tries : (gs, r) ∈ p.tries s ↔ ∃ a, s = a ++ r ∧ p.Matches a gs := by
  induction p generalizing s gs with
  | nil =>
    rw [Pattern.tries, List.mem_singleton, Prod.mk.injEq]
    constructor
    · rintro ⟨rfl, rfl⟩
      exact ⟨[], rfl, rfl, rfl⟩
    · rintro ⟨a, rfl, rfl, rfl⟩
      exact ⟨rfl, rfl⟩
  | cons x ps ih =>
    cases x with
    | item i =>
      rw [Pattern.tries, List.mem_flatMap]
      constructor
      · rintro ⟨⟨x, t⟩, hx, hy⟩
        obtain ⟨rfl, hadmits⟩ := Item.mem_tries.mp hx
        obtain ⟨y, rfl, hmatches⟩ := ih.mp hy
        exact ⟨x ++ y, (List.append_assoc x y r).symm, x, y, rfl, hadmits, hmatches⟩
      · rintro ⟨a, rfl, x, y, rfl, hadmits, hmatches⟩
        refine ⟨(x, y ++ r), Item.mem_tries.mpr ⟨List.append_assoc x y r, hadmits⟩, ?_⟩
        exact ih.mpr ⟨y, rfl, hmatches⟩
    | group is =>
      rw [Pattern.tries, List.mem_flatMap]
      constructor
      · rintro ⟨⟨x, t⟩, hx, hy⟩
        obtain ⟨⟨gs, u⟩, hrest, he⟩ := List.mem_map.mp hy
        cases he
        obtain ⟨rfl, hitems⟩ := Items.mem_tries.mp hx
        obtain ⟨y, rfl, hmatches⟩ := ih.mp hrest
        exact ⟨x ++ y, (List.append_assoc x y u).symm, x, y, gs, rfl, hitems, hmatches, rfl⟩
      · rintro ⟨a, rfl, x, y, gs, rfl, hitems, hmatches, rfl⟩
        refine ⟨(x, y ++ r), Items.mem_tries.mpr ⟨List.append_assoc x y r, hitems⟩, ?_⟩
        exact List.mem_map.mpr ⟨(gs, r), ih.mpr ⟨y, rfl, hmatches⟩, rfl⟩

/-- What the matcher finds is a match. -/
theorem first_some (h : p.first ends s = some gs) :
    ∃ a r, s = a ++ r ∧ ends r = true ∧ p.Matches a gs := by
  obtain ⟨⟨hs, r⟩, hfind, rfl⟩ := Option.map_eq_some_iff.mp h
  obtain ⟨a, hs, hmatches⟩ := mem_tries.mp (List.mem_of_find?_eq_some hfind)
  have hends := List.find?_some hfind
  exact ⟨a, r, hs, hends, hmatches⟩

/-- It finds one if there is one. -/
theorem first_of_matches (h : p.Matches a gs) (hr : ends r = true) :
    p.first ends (a ++ r) ≠ none := by
  intro hnone
  have hfind := List.find?_eq_none.mp (Option.map_eq_none_iff.mp hnone)
  exact hfind (gs, r) (mem_tries.mpr ⟨a, rfl, h⟩) hr

end Pattern

end EbpfDemo.Core
