import Mathlib.Algebra.Ring.Nat

/-!
# Stopwatches

A stopwatch has a total and, while it runs, the time it was started. `Within f
now`: it was first started at `f` or later, so its total is at most what has
elapsed, up to now or up to the start of the current run. This is what keeps a
total from overflowing, and it is preserved by waiting, stopping and starting.

A stopwatch in 64 bits that is right was started when it should (`eq_of_delta`).
-/
namespace EbpfDemo.Core

/-- The runs of the stopwatch lie one after the other between `f` and `now`. -/
structure Within (f now total : Nat) (since : Option Nat) : Prop where
  le : f ≤ now
  elapsed : total ≤ now - f
  running : ∀ t, since = some t → f ≤ t ∧ t ≤ now ∧ total ≤ t - f

namespace Within

variable {f now now' total : Nat} {since : Option Nat}

theorem fresh (now : Nat) : Within now now 0 none :=
  ⟨Nat.le_refl _, Nat.zero_le _, fun _ h => by cases h⟩

theorem wait (h : Within f now total since) (hle : now ≤ now') : Within f now' total since := by
  refine ⟨Nat.le_trans h.le hle, ?_, fun t ht => ?_⟩
  · have := h.elapsed; omega
  · obtain ⟨h1, h2, h3⟩ := h.running t ht
    exact ⟨h1, Nat.le_trans h2 hle, h3⟩

/-- The current run is added to the total. -/
theorem stop {t : Nat} (h : Within f now total (some t)) (hle : now ≤ now') :
    Within f now' (total + (now' - t)) none := by
  obtain ⟨h1, h2, h3⟩ := h.running t rfl
  exact ⟨Nat.le_trans h.le hle, by omega, fun _ h => by cases h⟩

/-- A new run begins now; one that was under way is dropped. -/
theorem start (h : Within f now total since) : Within f now total (some now) := by
  refine ⟨h.le, h.elapsed, fun t ht => ?_⟩
  cases ht
  exact ⟨h.le, Nat.le_refl _, h.elapsed⟩

end Within

/-- A wrapped total that has grown by the time since `began` was added the
difference to `began` itself, and did not wrap. -/
theorem eq_of_delta {start began now : UInt64} {total : Nat} (ht : total < 2 ^ 64)
    (hb : began ≤ now)
    (h : (total + (now - start).toNat) % 2 ^ 64 = total + (now.toNat - began.toNat)) :
    start = began ∧ total + (now.toNat - began.toNat) < 2 ^ 64 := by
  have hd := UInt64.toNat_sub_of_le _ _ hb
  have hlt := (now - start).toNat_lt
  have hsub : now - start = now - began := UInt64.toNat_inj.mp (by omega)
  refine ⟨?_, by omega⟩
  have := congrArg (fun x => now - x) hsub
  simpa using this

end EbpfDemo.Core
