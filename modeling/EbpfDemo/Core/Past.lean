import Mathlib.Data.List.Induction

/-!
# What stands before an element of a history

A history is a list that grows at its end. `Guarded x ok` says that whatever
element satisfies `x`, what had happened before it satisfies `ok`. It is kept or
lost one element at a time (`guarded_concat`), and elements that are not `x` keep
it (`guarded_append`). `Then x y` is the commonest past: an `x` and, later, a `y`.
-/
namespace EbpfDemo.Core

variable {α : Type} {x y : α → Prop} {ok : List α → Prop} {as bs : List α} {a : α}

/-- Before every `x` the history was `ok`. -/
def Guarded (x : α → Prop) (ok : List α → Prop) (as : List α) : Prop :=
  ∀ pre a post, as = pre ++ a :: post → x a → ok pre

/-- An `x` and behind it a `y`. -/
def Then (x y : α → Prop) (as : List α) : Prop :=
  ∃ pre a post, as = pre ++ a :: post ∧ x a ∧ ∃ b ∈ post, y b

theorem guarded_nil : Guarded x ok [] := by
  intro pre a post h
  exact absurd h (by simp)

theorem guarded_concat : Guarded x ok (as ++ [a]) ↔ Guarded x ok as ∧ (x a → ok as) := by
  constructor
  · intro h
    refine ⟨fun pre b post hab => ?_, h as a [] rfl⟩
    exact h pre b (post ++ [a]) (by simp [hab])
  · rintro ⟨h, ha⟩ pre b post hab hb
    rcases List.eq_nil_or_concat post with rfl | ⟨post, c, rfl⟩
    · obtain ⟨rfl, hb'⟩ := List.append_inj' hab rfl
      cases hb'
      exact ha hb
    · rw [List.concat_eq_append, ← List.cons_append, ← List.append_assoc] at hab
      exact h pre b post (List.append_inj' hab rfl).1 hb

/-- What is no `x` may come at any time. -/
theorem guarded_append (h : Guarded x ok as) (hbs : ∀ b ∈ bs, ¬ x b) :
    Guarded x ok (as ++ bs) := by
  induction bs using List.reverseRecOn with
  | nil => rw [List.append_nil]; exact h
  | append_singleton bs b ih =>
    rw [← List.append_assoc, guarded_concat]
    refine ⟨ih fun c hc => hbs c (List.mem_append_left _ hc), fun hb => ?_⟩
    exact absurd hb (hbs b (by simp))

theorem Then.append (h : Then x y as) (bs : List α) : Then x y (as ++ bs) := by
  obtain ⟨pre, a, post, rfl, ha, b, hb, hy⟩ := h
  exact ⟨pre, a, post ++ bs, by simp, ha, b, List.mem_append_left _ hb, hy⟩

theorem then_concat (h : ∃ b ∈ as, x b) (ha : y a) : Then x y (as ++ [a]) := by
  obtain ⟨b, hb, hx⟩ := h
  obtain ⟨pre, post, rfl⟩ := List.append_of_mem hb
  exact ⟨pre, b, post ++ [a], by simp, hx, a, by simp, ha⟩

theorem Then.fst (h : Then x y as) : ∃ a ∈ as, x a := by
  obtain ⟨pre, a, post, rfl, ha, -⟩ := h
  exact ⟨a, by simp, ha⟩

theorem Then.snd (h : Then x y as) : ∃ a ∈ as, y a := by
  obtain ⟨pre, a, post, rfl, -, b, hb, hy⟩ := h
  exact ⟨b, by simp [hb], hy⟩

end EbpfDemo.Core
