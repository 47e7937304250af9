import Mathlib.Data.List.TakeWhile

/-!
# A stretch of a class

`takeWhile` and `dropWhile` cut a list where a class stops. If a list is put together from
a stretch of the class and something that does not go on with it, they cut it there again.
-/
namespace EbpfDemo.Core

variable {α : Type} {p : α → Bool} {a b : List α}

theorem takeWhile_stop (ha : ∀ c ∈ a, p c = true) (hb : ∀ c ∈ b.head?, p c = false) :
    (a ++ b).takeWhile p = a := by
  rw [List.takeWhile_append_of_pos ha]
  cases b with
  | nil => exact List.append_nil a
  | cons c b => rw [List.takeWhile_cons, hb c rfl, if_neg Bool.false_ne_true, List.append_nil]

theorem dropWhile_stop (ha : ∀ c ∈ a, p c = true) (hb : ∀ c ∈ b.head?, p c = false) :
    (a ++ b).dropWhile p = b := by
  rw [List.dropWhile_append_of_pos ha]
  cases b with
  | nil => rfl
  | cons c b => rw [List.dropWhile_cons, hb c rfl, if_neg Bool.false_ne_true]

/-- A list is a stretch of the class and what it stops at. -/
theorem exists_stretch (p : α → Bool) (a : List α) : ∃ b c, a = b ++ c ∧
    (∀ x ∈ b, p x = true) ∧ a.takeWhile p = b ∧ a.dropWhile p = c :=
  ⟨a.takeWhile p, a.dropWhile p, List.takeWhile_append_dropWhile.symm,
    fun _ hx => List.mem_takeWhile_imp hx, rfl, rfl⟩

end EbpfDemo.Core
