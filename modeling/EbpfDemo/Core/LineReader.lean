import Mathlib.Data.List.Infix
import Mathlib.Data.List.TakeWhile

/-!
# Lines off the front of a bounded buffer

A stream arrives in chunks of any size and is read line by line; a line is what
stands in front of a separator. The reader gives up on a line of more than
`limit` elements, whether or not its separator has arrived (`overrun`), and at
the end of the stream it returns what is left.

`Short`: no stretch of more than `limit` elements is without a separator. It is
exactly what keeps the reader from giving up: a short buffer never overruns
(`not_overrun`), and a buffer that is not short overruns or gives a line behind
which it is still not short (`overrun_or_later`). Both hold however the stream is
cut into chunks, since they speak about the bytes alone.
-/
namespace EbpfDemo.Core

variable {α : Type} [DecidableEq α]

inductive Readline (α : Type) where
  /-- A line with its separator, or the end of the stream. -/
  | line (bytes rest : List α)
  /-- The line is too long; its separator was found, or not. -/
  | overrun (found : Bool) (rest : List α)
  /-- More has to arrive. -/
  | wait
  deriving DecidableEq

def readline (sep : α) (limit : Nat) (buffer : List α) (eof : Bool) : Readline α :=
  let content := buffer.takeWhile (· ≠ sep)
  match buffer.dropWhile (· ≠ sep) with
  | x :: rest => if content.length > limit then .overrun true rest else .line (content ++ [x]) rest
  | [] =>
    if content.length > limit then .overrun false []
    else if eof then .line content [] else .wait

/-- No stretch of more than `limit` elements is without a separator. -/
def Short (sep : α) (limit : Nat) (l : List α) : Prop :=
  ∀ B, B <:+: l → sep ∉ B → B.length ≤ limit

section
variable {sep : α} {limit : Nat} {l m : List α} {eof : Bool}

omit [DecidableEq α] in
theorem Short.of_infix (h : Short sep limit l) (hm : m <:+: l) : Short sep limit m :=
  fun B hB hs => h B (hB.trans hm) hs

theorem sep_notMem_takeWhile (l : List α) : sep ∉ l.takeWhile (· ≠ sep) := by
  intro h
  have := List.mem_takeWhile_imp h
  simp at this

/-- What a read returns comes off the front of the buffer. -/
theorem readline_append {bytes rest : List α} (h : readline sep limit l eof = .line bytes rest) :
    l = bytes ++ rest := by
  have hl := List.takeWhile_append_dropWhile (p := (· ≠ sep)) (l := l)
  unfold readline at h
  dsimp only at h
  split at h
  · rename_i x tail hd
    split at h
    · cases h
    · cases h
      rw [hd] at hl
      rw [List.append_assoc]; exact hl.symm
  · rename_i hd
    split at h
    · cases h
    · split at h
      · cases h
        rw [hd] at hl; exact hl.symm
      · cases h

/-- The reader gives up exactly when the line in front is too long. -/
theorem overrun_iff : (∃ found rest, readline sep limit l eof = .overrun found rest) ↔
    limit < (l.takeWhile (· ≠ sep)).length := by
  unfold readline
  dsimp only
  constructor
  · intro h
    obtain ⟨found, rest, h⟩ := h
    by_contra hle
    split at h
    · rw [if_neg hle] at h; cases h
    · rw [if_neg hle] at h
      split at h <;> cases h
  · intro h
    split
    · exact ⟨true, _, if_pos h⟩
    · exact ⟨false, [], if_pos h⟩

theorem not_overrun (h : Short sep limit l) (found : Bool) (rest : List α) :
    readline sep limit l eof ≠ .overrun found rest := by
  intro ho
  have hlt := overrun_iff.mp ⟨found, rest, ho⟩
  have hle := h _ (List.takeWhile_prefix _).isInfix (sep_notMem_takeWhile l)
  omega

omit [DecidableEq α] in
/-- A stretch without a separator lies in front of one or behind it. -/
theorem infix_of_split {A B R : List α} (h : B <:+: A ++ sep :: R) (hs : sep ∉ B) :
    B <:+: A ∨ B <:+: R := by
  induction A with
  | nil =>
    rcases List.infix_cons_iff.mp h with h | h
    · rcases List.prefix_cons_iff.mp h with rfl | ⟨B', rfl, -⟩
      · exact .inl List.nil_infix
      · exact absurd List.mem_cons_self hs
    · exact .inr h
  | cons a A ih =>
    rcases List.infix_cons_iff.mp h with h | h
    · -- it starts at `a` and stops in front of the separator
      have h : B <+: (a :: A) ++ sep :: R := h
      rcases List.prefix_or_prefix_of_prefix h (List.prefix_append (a :: A) _) with hB | ⟨C, rfl⟩
      · exact .inl hB.isInfix
      · rw [List.prefix_append_right_inj] at h
        rcases List.prefix_cons_iff.mp h with rfl | ⟨C', rfl, -⟩
        · exact .inl (by rw [List.append_nil])
        · exact absurd (List.mem_append_right _ List.mem_cons_self) hs
    · exact (ih h).imp_left fun h => List.infix_cons_iff.mpr (.inr h)

omit [DecidableEq α] in
theorem Short.of_length (h : l.length ≤ limit) : Short sep limit l :=
  fun _ hB _ => Nat.le_trans hB.length_le h

omit [DecidableEq α] in
theorem Short.append (hl : Short sep limit l) (hm : Short sep limit m) :
    Short sep limit (l ++ sep :: m) :=
  fun B hB hs => (infix_of_split hB hs).elim (fun h => hl B h hs) fun h => hm B h hs

/-- A buffer that is not short overruns, or gives a line and stays so behind it. -/
theorem overrun_or_later (h : ¬ Short sep limit l) :
    (∃ found rest, readline sep limit l eof = .overrun found rest) ∨
      ∃ bytes rest, readline sep limit l eof = .line bytes rest ∧ bytes ≠ [] ∧
        ¬ Short sep limit rest := by
  by_cases hlt : limit < (l.takeWhile (· ≠ sep)).length
  · exact .inl (overrun_iff.mpr hlt)
  right
  have hl := List.takeWhile_append_dropWhile (p := (· ≠ sep)) (l := l)
  cases hd : l.dropWhile (· ≠ sep) with
  | nil =>
    -- the whole buffer is one line, and that one is short
    rw [hd, List.append_nil] at hl
    rw [hl] at hlt
    exact absurd (Short.of_length (Nat.le_of_not_lt hlt)) h
  | cons x rest =>
    have hx : x = sep := by
      have := List.head_dropWhile_not (· ≠ sep) (by rw [hd]; exact List.cons_ne_nil _ _)
      simp only [hd, List.head_cons] at this
      simpa using this
    subst hx
    refine ⟨l.takeWhile (· ≠ x) ++ [x], rest, ?_, by simp, fun hr => h ?_⟩
    · unfold readline
      simp only [hd, if_neg hlt]
    · rw [← hl, hd]
      exact (Short.of_length (Nat.le_of_not_lt hlt)).append hr

end

end EbpfDemo.Core
