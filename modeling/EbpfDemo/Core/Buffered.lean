import Mathlib.Data.List.Basic

/-!
# Fully buffered output

What is written goes into a buffer of `size` elements, which is delivered by `flush`, or
when it is full and one more element comes: a full buffer stays until then. That the
buffer has room is a field. Writing neither loses nor reorders anything
(`written_write`); the last element written is in the buffer until it is flushed
(`Lagging`), so without a flush everything is delivered exactly when nothing was written
(`delivered_iff`).
-/
namespace EbpfDemo.Core

structure Buffered (α : Type) (size : Nat) where
  delivered : List α
  buffer : List α
  room : 0 < size
  fits : buffer.length ≤ size

namespace Buffered

variable {α : Type} {size : Nat}

def empty (h : 0 < size) : Buffered α size := ⟨[], [], h, Nat.zero_le _⟩

def flush (s : Buffered α size) : Buffered α size :=
  ⟨s.delivered ++ s.buffer, [], s.room, Nat.zero_le _⟩

def put (s : Buffered α size) (a : α) : Buffered α size :=
  if h : s.buffer.length < size then
    ⟨s.delivered, s.buffer ++ [a], s.room, by rw [List.length_append]; exact h⟩
  else ⟨s.delivered ++ s.buffer, [a], s.room, s.room⟩

def write (s : Buffered α size) (l : List α) : Buffered α size := l.foldl put s

/-- Everything that was written, delivered or not. -/
def written (s : Buffered α size) : List α := s.delivered ++ s.buffer

/-- Nothing was delivered that is not followed by something in the buffer. -/
def Lagging (s : Buffered α size) : Prop := s.buffer = [] → s.delivered = []

theorem written_put (s : Buffered α size) (a : α) : (s.put a).written = s.written ++ [a] := by
  unfold put written
  split
  · exact (List.append_assoc _ _ _).symm
  · rfl

theorem written_write (s : Buffered α size) (l : List α) : (s.write l).written = s.written ++ l := by
  induction l generalizing s with
  | nil => exact (List.append_nil _).symm
  | cons a l ih =>
    show ((s.put a).write l).written = _
    rw [ih, written_put, List.append_assoc]; rfl

theorem delivered_flush (s : Buffered α size) : s.flush.delivered = s.written := rfl

theorem written_flush (s : Buffered α size) : s.flush.written = s.written := List.append_nil _

/-- What is put stays in the buffer for now. -/
theorem lagging_put (s : Buffered α size) (a : α) : (s.put a).Lagging := by
  unfold put
  split
  · exact fun h => absurd h (List.append_ne_nil_of_right_ne_nil _ (List.cons_ne_nil a []))
  · exact fun h => absurd h (List.cons_ne_nil a [])

theorem lagging_write {s : Buffered α size} (h : s.Lagging) (l : List α) : (s.write l).Lagging := by
  induction l generalizing s with
  | nil => exact h
  | cons a l ih => exact ih (lagging_put s a)

/-- Nothing is left in the buffer exactly when nothing was written. -/
theorem delivered_iff {s : Buffered α size} (h : s.Lagging) :
    s.delivered = s.written ↔ s.written = [] := by
  unfold written
  rw [List.self_eq_append_right, List.append_eq_nil_iff]
  exact ⟨fun hb => ⟨h hb, hb⟩, fun hw => hw.2⟩

end Buffered
end EbpfDemo.Core
