import Mathlib.Data.List.Induction
import EbpfDemo.L1Encoding.Report

/-!
# Counts as the machine adds them

A loader that counts writes lines `key: n` with a 64-bit `n`, and on stderr, which the
client reads through the same pipe, lines that are no metric. `Line` is either; a `Note`
carries that `parse_output_metrics` passes over it.

`getD_metricsOf`: `parse_output_metrics` adds in doubles, yet what it has under a key is
the sum of the counts written under it, exactly, as long as that sum is below 2^53.
-/
namespace EbpfDemo.L1Encoding

open EbpfDemo.Core

/-- Text that is no metric. -/
structure Note where
  text : Str
  plain : ∀ c ∈ text, isBreak c = false ∧ c < 0x80
  ignored : ∀ (recLimit : Nat) (out : Metrics Binary64), parseLine binary64 recLimit out text = .ok out

inductive Line where
  | note (n : Note)
  | count (k : Key) (n : UInt64)

namespace Line

def text : Line → Str
  | .note n => n.text
  | .count k n => k.text ++ 0x3A :: 0x20 :: decimal n.toNat

/-- The line as it is written, with its end. -/
def written (l : Line) : List UInt8 := bytes (l.text ++ [0x0A])

/-- What it adds under the key `k`. -/
def amount (k : Key) : Line → Nat
  | .note _ => 0
  | .count k' n => if k' = k then n.toNat else 0

/-- What `parse_output_metrics` does with it. -/
def add (out : Metrics Binary64) : Line → Metrics Binary64
  | .note _ => out
  | .count k n => addTo binary64 out k.text (.ofRat (n.toNat : ℕ))

end Line

/-- The counts under a key. -/
def countAt (k : Key) (ls : List Line) : Nat := (ls.map (Line.amount k)).sum

def metricsOf64 (ls : List Line) : Metrics Binary64 := ls.foldl Line.add []

theorem countAt_append (k : Key) (ls ms : List Line) :
    countAt k (ls ++ ms) = countAt k ls + countAt k ms := by
  simp [countAt]

/-! ## Labels apart -/

theorem take_numbered {front back : Str} {n : Nat} {h} {len : Nat} (hl : len ≤ front.length) :
    (Key.numbered front back n h).text.take len = front.take len := by
  show (front ++ decimal n ++ back).take len = front.take len
  rw [List.append_assoc]
  exact List.take_append_of_le_length hl

/-- A label that does not begin like the others. -/
theorem numbered_ne {front back : Str} {n : Nat} {h} {k : Key}
    (hk : k.text.take front.length ≠ front) : Key.numbered front back n h ≠ k := by
  rintro rfl
  rw [take_numbered (Nat.le_refl _), List.take_length] at hk
  exact hk rfl

/-- Lines under other labels. -/
theorem countAt_other {α : Type} {k : Key} {key : α → Key} {f : α → UInt64} {l : List α}
    (h : ∀ e ∈ l, key e ≠ k) : countAt k (l.map fun e => .count (key e) (f e)) = 0 := by
  unfold countAt
  rw [List.map_map]
  refine List.sum_eq_zero fun n hn => ?_
  obtain ⟨e, he, rfl⟩ := List.mem_map.mp hn
  exact if_neg (h e he)

/-! ## Reading them -/

theorem plain_text (l : Line) {c : Nat} (h : c ∈ l.text) : isBreak c = false ∧ c < 0x80 := by
  cases l with
  | note n => exact n.plain c h
  | count k n => exact isBreak_row (r := ⟨k, .llu n.toNat⟩) h

theorem decode_written (l : Line) : decode l.written = l.text ++ [0x0A] := by
  apply decode_bytes
  intro c hc
  rcases List.mem_append.mp hc with hc | hc
  · exact (plain_text l hc).2
  · rw [List.mem_singleton.mp hc]
    decide

theorem isFinite_count (n : UInt64) : (Binary64.ofRat (n.toNat : ℕ)).isFinite = true := by
  have hlt : (n.toNat : ℚ) < 2 ^ 64 := by exact_mod_cast n.toNat_lt
  have htop : (2 : ℚ) ^ 64 ≤ Binary64.overflowThreshold := by
    have hunit : (2 : ℚ) ^ (12 : ℤ) ≤ 2 ^ (971 : ℤ) := zpow_le_zpow_right₀ (by decide) (by decide)
    refine le_trans ?_ (mul_le_mul_of_nonneg_left hunit (by norm_num))
    norm_num
  rw [Binary64.isFinite_ofRat, abs_of_nonneg (Nat.cast_nonneg _)]
  exact hlt.trans_le htop

theorem parseLine_text (recLimit : Nat) (out : Metrics Binary64) (l : Line) :
    parseLine binary64 recLimit out l.text = .ok (l.add out) := by
  cases l with
  | note n => exact n.ignored recLimit out
  | count k n =>
    have hspace : ∀ c ∈ decimal n.toNat, isSpace c = false :=
      fun c hc => isSpace_of_isKeyChar (isKeyChar_decimal hc)
    have hkv := kvLine_text k.ne k.safe (decimal_ne_nil n.toNat) hspace (number_decimal n.toNat)
    unfold parseLine
    rw [Line.text, hkv]
    exact if_pos ⟨k.short, isFinite_count n⟩

theorem splitlines_written (ls : List Line) :
    splitlines (ls.flatMap fun l => l.text ++ [0x0A]) = ls.map Line.text := by
  induction ls with
  | nil => rfl
  | cons l ls ih =>
    rw [List.flatMap_cons, List.append_assoc, List.singleton_append,
      splitlines_line fun c hc => (plain_text l hc).1, ih]
    rfl

/-- The lines as the client has them in its log. -/
theorem parse_written (recLimit : Nat) (ls : List Line) :
    parseOutputMetrics binary64 recLimit (ls.map fun l => decode l.written).flatten =
      .ok (metricsOf64 ls) := by
  have hlog : (ls.map fun l => decode l.written).flatten = ls.flatMap fun l => l.text ++ [0x0A] := by
    rw [List.flatMap_def, List.map_congr_left fun l _ => decode_written l]
  unfold parseOutputMetrics metricsOf64
  rw [hlog, splitlines_written]
  clear hlog
  generalize ([] : Metrics Binary64) = out
  induction ls generalizing out with
  | nil => rfl
  | cons l ls ih =>
    rw [List.map_cons, List.foldlM_cons, parseLine_text, List.foldl_cons]
    exact ih _

/-! ## The sums -/

theorem getD_add (k : Key) (out : Metrics Binary64) (l : Line) {n : Nat}
    (h : Dict.getD out k.text .zero = .ofRat (n : ℕ)) (hlt : n + l.amount k < 2 ^ 53) :
    Dict.getD (l.add out) k.text .zero = .ofRat ((n + l.amount k : ℕ) : ℚ) := by
  cases l with
  | note _ => exact h
  | count k' v =>
    simp only [Line.add, Line.amount, addTo, Dict.getD_set] at hlt ⊢
    by_cases hk : k' = k
    · subst hk
      rw [if_pos rfl] at hlt
      rw [if_pos rfl, if_pos rfl, show binary64.zero = .zero from rfl, h]
      exact Binary64.add_natCast hlt
    · have htext : k.text ≠ k'.text := fun ht => hk (Key.ext ht.symm)
      rw [if_neg htext, if_neg hk, h]
      rfl

/-- **Sums of counts** are exact below 2^53. -/
theorem getD_metricsOf (k : Key) {ls : List Line} (h : countAt k ls < 2 ^ 53) :
    Dict.getD (metricsOf64 ls) k.text .zero = .ofRat (countAt k ls : ℕ) := by
  induction ls using List.reverseRecOn with
  | nil => exact Binary64.ofRat_zero.symm
  | append_singleton ls l ih =>
    have hsum : countAt k (ls ++ [l]) = countAt k ls + l.amount k := by
      rw [countAt_append]
      simp [countAt]
    rw [hsum] at h ⊢
    have hls : countAt k ls < 2 ^ 53 := by omega
    rw [metricsOf64, List.foldl_append]
    exact getD_add k (metricsOf64 ls) l (ih hls) h

end EbpfDemo.L1Encoding
