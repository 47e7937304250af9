import Mathlib.Data.List.Basic
import Mathlib.Data.List.ReduceOption

/-!
# Selecting from a stream while it fits

Elements come one by one. Each is kept if it `fits` what was kept so far, and is
shown then; the first one that does not fit is announced by one mark (`none`),
and the selection goes on. Nothing is assumed of `fits`: a later element may fit
although an earlier one did not.

* `shows_closed_iff`: nothing is shown behind the mark exactly when nothing fits
  any more once something did not (`StaysFull`);
* `kept_isPrefix`: and then what is kept is a prefix of the stream.
-/
namespace EbpfDemo.Core.Selection

variable {α : Type} (fits : List α → α → Bool)

/-- What was kept of what was shown. -/
abbrev kept (shown : List (Option α)) : List α := shown.reduceOption

def marked (shown : List (Option α)) : Bool := shown.any Option.isNone

/-- The next element of the stream. -/
def push (shown : List (Option α)) (x : α) : List (Option α) :=
  if fits (kept shown) x then shown ++ [some x]
  else if marked shown then shown else shown ++ [none]

/-- What is shown of a stream. -/
def shows (l : List α) : List (Option α) := l.foldl (push fits) []

/-- Behind the first element that does not fit, none does. -/
def StaysFull (kept : List α) : List α → Prop
  | [] => True
  | x :: l => if fits kept x then StaysFull (kept ++ [x]) l else ∀ y ∈ l, fits kept y = false

/-- Nothing is shown behind a mark. -/
def Closed (shown : List (Option α)) : Prop :=
  ∀ A B, shown = A ++ none :: B → ∀ x ∈ B, x = none

instance decidableStaysFull : ∀ (kept l : List α), Decidable (StaysFull fits kept l)
  | _, [] => .isTrue trivial
  | kept, x :: l =>
    have : Decidable (StaysFull fits (kept ++ [x]) l) := decidableStaysFull (kept ++ [x]) l
    inferInstanceAs (Decidable (ite _ _ _))

variable {fits} {shown : List (Option α)} {x : α} {l : List α}

/-- A stream of equal elements: what did not fit comes again. -/
theorem staysFull_of_eq (x : α) (kept : List α) (h : ∀ y ∈ l, y = x) : StaysFull fits kept l := by
  induction l generalizing kept with
  | nil => trivial
  | cons y l ih =>
    obtain ⟨rfl, hl⟩ := List.forall_mem_cons.mp h
    rw [StaysFull]
    split
    · exact ih _ hl
    · rename_i hy
      intro z hz
      rw [hl z hz]; simpa using hy

theorem marked_iff : marked shown = true ↔ none ∈ shown := by
  simp [marked, List.any_eq_true]

@[simp] theorem shows_nil : shows fits [] = [] := rfl

theorem shows_concat (l : List α) (x : α) : shows fits (l ++ [x]) = push fits (shows fits l) x := by
  rw [shows, shows, List.foldl_append]; rfl

theorem push_fits (h : fits (kept shown) x = true) : push fits shown x = shown ++ [some x] := if_pos h

theorem push_first (h : fits (kept shown) x = false) (hn : none ∉ shown) :
    push fits shown x = shown ++ [none] := by
  unfold push
  rw [if_neg (by simp [h]), if_neg (mt marked_iff.mp hn)]

theorem push_later (h : fits (kept shown) x = false) (hn : none ∈ shown) :
    push fits shown x = shown := by
  unfold push
  rw [if_neg (by simp [h]), if_pos (marked_iff.mpr hn)]

theorem kept_concat_some (shown : List (Option α)) (x : α) :
    kept (shown ++ [some x]) = kept shown ++ [x] := by
  rw [kept, List.reduceOption_append, List.reduceOption_singleton]; rfl

theorem kept_concat_none (shown : List (Option α)) : kept (shown ++ [none]) = kept shown := by
  rw [kept, List.reduceOption_append, List.reduceOption_singleton]
  exact List.append_nil _

variable (fits) in
theorem prefix_push (shown : List (Option α)) (x : α) : shown <+: push fits shown x := by
  unfold push
  split
  · exact List.prefix_append _ _
  · split
    · exact List.prefix_rfl
    · exact List.prefix_append _ _

variable (fits) in
theorem prefix_foldl (l : List α) (shown : List (Option α)) :
    shown <+: l.foldl (push fits) shown := by
  induction l generalizing shown with
  | nil => exact List.prefix_rfl
  | cons x l ih => exact (prefix_push fits shown x).trans (ih _)

/-- What holds of every list that fits step by step holds of what is kept. -/
theorem kept_induction {P : List α → Prop} (h0 : P [])
    (hP : ∀ k x, P k → fits k x = true → P (k ++ [x])) (l : List α) : P (kept (shows fits l)) := by
  suffices h : ∀ shown, P (kept shown) → P (kept (l.foldl (push fits) shown)) from h [] h0
  induction l with
  | nil => exact fun _ h => h
  | cons x l ih =>
    intro shown h
    apply ih
    by_cases hf : fits (kept shown) x = true
    · rw [push_fits hf, kept_concat_some]; exact hP _ _ h hf
    · have hf' : fits (kept shown) x = false := by simpa using hf
      by_cases hn : none ∈ shown
      · rw [push_later hf' hn]; exact h
      · rw [push_first hf' hn, kept_concat_none]; exact h

/-! ## Behind the mark -/

theorem foldl_full (hn : none ∈ shown) (h : ∀ y ∈ l, fits (kept shown) y = false) :
    l.foldl (push fits) shown = shown := by
  induction l with
  | nil => rfl
  | cons y l ih =>
    rw [List.foldl_cons, push_later (h y List.mem_cons_self) hn]
    exact ih fun x hx => h x (List.mem_cons_of_mem _ hx)

theorem full_of_closed (h : Closed (l.foldl (push fits) (shown ++ [none]))) :
    ∀ y ∈ l, fits (kept shown) y = false := by
  induction l with
  | nil => exact fun _ hy => by cases hy
  | cons y l ih =>
    rw [List.foldl_cons] at h
    have hy : fits (kept shown) y = false := by
      by_contra hf
      -- then `y` is shown right behind the mark
      have hf' : fits (kept (shown ++ [none])) y = true := by
        rw [kept_concat_none]; simpa using hf
      rw [push_fits hf'] at h
      obtain ⟨B, hB⟩ := prefix_foldl fits l (shown ++ [none] ++ [some y])
      have := h shown (some y :: B) (by rw [← hB]; simp) (some y) List.mem_cons_self
      cases this
    intro z hz
    rcases List.mem_cons.mp hz with rfl | hz
    · exact hy
    · refine ih ?_ z hz
      rw [push_later (by rw [kept_concat_none]; exact hy) (by simp)] at h
      exact h

theorem closed_of_no_mark (h : none ∉ shown) : Closed shown := by
  intro A B hAB
  exact absurd (by rw [hAB]; simp) h

theorem closed_concat_mark (h : none ∉ shown) : Closed (shown ++ [none]) := by
  intro A B hAB x hx
  rcases List.append_eq_append_iff.mp hAB with ⟨C, hC, hC'⟩ | ⟨C, hC, hC'⟩
  · cases C with
    | nil => cases hC'; cases hx
    | cons c C => cases C <;> simp at hC'
  · cases C with
    | nil => cases hC'; cases hx
    | cons c C => cases hC'; exact absurd (by rw [hC]; simp) h

theorem foldl_closed_iff (hn : none ∉ shown) :
    Closed (l.foldl (push fits) shown) ↔ StaysFull fits (kept shown) l := by
  induction l generalizing shown with
  | nil => exact ⟨fun _ => trivial, fun _ => closed_of_no_mark hn⟩
  | cons x l ih =>
    rw [List.foldl_cons, StaysFull]
    by_cases hf : fits (kept shown) x = true
    · rw [push_fits hf, if_pos hf, ← kept_concat_some]
      exact ih (by simpa using hn)
    · have hf' : fits (kept shown) x = false := by simpa using hf
      rw [push_first hf' hn, if_neg hf]
      refine ⟨full_of_closed, fun h => ?_⟩
      rw [foldl_full (by simp) (by rw [kept_concat_none]; exact h)]
      exact closed_concat_mark hn

theorem foldl_kept (h : none ∉ l.foldl (push fits) shown) :
    kept (l.foldl (push fits) shown) = kept shown ++ l := by
  induction l generalizing shown with
  | nil => exact (List.append_nil _).symm
  | cons x l ih =>
    rw [List.foldl_cons] at h ⊢
    by_cases hf : fits (kept shown) x = true
    · rw [push_fits hf] at h ⊢
      rw [ih h, kept_concat_some, List.append_assoc, List.singleton_append]
    · have hf' : fits (kept shown) x = false := by simpa using hf
      have hmark : none ∈ push fits shown x := by
        by_cases hn : none ∈ shown
        · rw [push_later hf' hn]
          exact hn
        · rw [push_first hf' hn]
          simp
      exact absurd ((prefix_foldl fits l _).subset hmark) h

/-- **Everything.** Without a mark the stream was kept whole. -/
theorem kept_of_no_mark (h : none ∉ shows fits l) : kept (shows fits l) = l := foldl_kept h

/-- **Closing.** Nothing is shown behind the mark exactly when nothing fits any
more. -/
theorem shows_closed_iff : Closed (shows fits l) ↔ StaysFull fits [] l :=
  foldl_closed_iff List.not_mem_nil

theorem foldl_isPrefix (hn : none ∉ shown) (h : StaysFull fits (kept shown) l) :
    kept (l.foldl (push fits) shown) <+: kept shown ++ l := by
  induction l generalizing shown with
  | nil => rw [List.append_nil]; exact List.prefix_rfl
  | cons x l ih =>
    rw [StaysFull] at h
    rw [List.foldl_cons]
    by_cases hf : fits (kept shown) x = true
    · rw [if_pos hf, ← kept_concat_some] at h
      rw [push_fits hf]
      have := ih (by simpa using hn) h
      rw [kept_concat_some, List.append_assoc] at this
      exact this
    · have hf' : fits (kept shown) x = false := by simpa using hf
      rw [if_neg hf] at h
      rw [push_first hf' hn, foldl_full (by simp) (by rw [kept_concat_none]; exact h),
        kept_concat_none]
      exact List.prefix_append _ _

/-- **Prefix.** What is kept is then a prefix of the stream. -/
theorem kept_isPrefix (h : StaysFull fits [] l) : kept (shows fits l) <+: l :=
  foldl_isPrefix List.not_mem_nil h

end EbpfDemo.Core.Selection
