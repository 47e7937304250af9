import Mathlib.Data.Int.Log
import Mathlib.Data.Rat.Floor
import Mathlib.Tactic.Linarith
import Mathlib.Tactic.NormNum
import Mathlib.Tactic.Positivity
import Mathlib.Tactic.FieldSimp

/-!
# Double precision numbers

A finite double is a rational `m * 2 ^ e` with a 53-bit `m` and an exponent in
range; the fact is a field of `fin`, so no other rational can be one. `ofRat`
rounds to nearest, ties to even, and overflows to an infinity; `add` rounds the
exact sum. The sign of zero is not kept: nothing here can tell `-0.0` from
`0.0`.

`ofRat_of_representable`: rounding does not change a representable number; in
particular the integers below `2 ^ 53` are exact (`representable_natCast`).
`isFinite_ofRat`: what rounds to an infinity is exactly what reaches
`overflowThreshold`, and `isFinite_foldl`: a sum is finite exactly when no step of
it does.
-/
namespace EbpfDemo.Core

/-- `q` is a finite double. -/
def Representable (q : ℚ) : Prop :=
  ∃ m e : ℤ, |m| < 2 ^ 53 ∧ -1074 ≤ e ∧ e ≤ 971 ∧ q = m * 2 ^ e

inductive Binary64 where
  | fin (q : ℚ) (h : Representable q)
  | inf (neg : Bool)
  | nan
  deriving DecidableEq

namespace Binary64

/-- The exponent of the unit in the last place of `q`. -/
def ulpExp (q : ℚ) : ℤ := max (-1074) (Int.log 2 |q| - 52)

def roundEven (x : ℚ) : ℤ :=
  if x - ⌊x⌋ < 1 / 2 then ⌊x⌋
  else if 1 / 2 < x - ⌊x⌋ then ⌊x⌋ + 1
  else if ⌊x⌋ % 2 = 0 then ⌊x⌋ else ⌊x⌋ + 1

/-- `q` rounded to a multiple of its unit in the last place. -/
def nearest (q : ℚ) : ℚ := roundEven (q / 2 ^ ulpExp q) * 2 ^ ulpExp q

theorem roundEven_intCast (n : ℤ) : roundEven n = n := by simp [roundEven]

/-- Rounding does not leave an interval with integer ends. -/
theorem roundEven_mem {x : ℚ} {n : ℤ} (h1 : -n ≤ x) (h2 : x ≤ n) :
    -n ≤ roundEven x ∧ roundEven x ≤ n := by
  have hf : -n ≤ ⌊x⌋ := Int.le_floor.mpr (by push_cast; exact h1)
  have hle : ⌊x⌋ ≤ n := by
    have : (⌊x⌋ : ℚ) ≤ n := (Int.floor_le x).trans h2
    exact_mod_cast this
  have hup : ⌊x⌋ = n → x - ⌊x⌋ < 1 / 2 := fun h => by rw [h]; linarith
  unfold roundEven
  by_cases hn : ⌊x⌋ = n
  · rw [if_pos (hup hn)]; omega
  · have hlt : ⌊x⌋ + 1 ≤ n := by omega
    split_ifs <;> omega

theorem abs_lt_zpow (q : ℚ) : |q| < 2 ^ (ulpExp q + 53) := by
  have h := Int.lt_zpow_succ_log_self (b := 2) (by decide) |q|
  refine lt_of_lt_of_le h (zpow_le_zpow_right₀ (by norm_num) ?_)
  unfold ulpExp
  omega

/-- In units of its last place a number is at most `2 ^ 53`. -/
theorem roundEven_unit (q : ℚ) :
    -(2 ^ 53 : ℤ) ≤ roundEven (q / 2 ^ ulpExp q) ∧ roundEven (q / 2 ^ ulpExp q) ≤ 2 ^ 53 := by
  have hpos : (0 : ℚ) < 2 ^ ulpExp q := zpow_pos (by norm_num) _
  have hx : |q / 2 ^ ulpExp q| ≤ 2 ^ 53 := by
    rw [abs_div, abs_of_pos hpos, div_le_iff₀ hpos]
    refine (abs_lt_zpow q).le.trans (le_of_eq ?_)
    rw [add_comm, zpow_add₀ (by norm_num)]; norm_cast
  obtain ⟨l1, l2⟩ := abs_le.mp hx
  exact roundEven_mem (by push_cast; exact l1) (by push_cast; exact l2)

theorem representable_nearest {q : ℚ} (hu : ulpExp q ≤ 971) (h : |nearest q| < 2 ^ (1024 : ℤ)) :
    Representable (nearest q) := by
  have hpos : (0 : ℚ) < 2 ^ ulpExp q := zpow_pos (by norm_num) _
  have hm := roundEven_unit q
  have he : -1074 ≤ ulpExp q := le_max_left _ _
  unfold nearest at *
  generalize roundEven (q / 2 ^ ulpExp q) = m at *
  generalize ulpExp q = e at *
  by_cases hlt : |m| < 2 ^ 53
  · exact ⟨m, e, hlt, he, hu, rfl⟩
  · -- the carry: `± 2 ^ 53` is `± 2 ^ 52` one exponent up
    have habs : |m| = 2 ^ 53 := le_antisymm (abs_le.mpr hm) (not_lt.mp hlt)
    have he' : e < 971 := by
      rw [abs_mul, abs_of_pos hpos, ← Int.cast_abs, habs] at h
      have h2 : ((2 : ℚ) ^ (53 + e)) < 2 ^ (1024 : ℤ) := by
        rw [zpow_add₀ (by norm_num)]; exact_mod_cast h
      have := (zpow_lt_zpow_iff_right₀ (by norm_num : (1 : ℚ) < 2)).mp h2
      omega
    have hshift : (2 : ℚ) ^ (e + 1) = 2 ^ e * 2 := zpow_add_one₀ (by norm_num) e
    rcases (abs_eq (by norm_num)).mp habs with rfl | rfl
    · refine ⟨2 ^ 52, e + 1, by norm_num, by omega, by omega, ?_⟩
      rw [hshift]; push_cast; ring
    · refine ⟨-2 ^ 52, e + 1, by norm_num, by omega, by omega, ?_⟩
      rw [hshift]; push_cast; ring

/-- `q` rounded; the exponent of `q` or its carry can be too large. -/
def ofRat (q : ℚ) : Binary64 :=
  if h : ulpExp q ≤ 971 ∧ |nearest q| < 2 ^ (1024 : ℤ) then
    fin (nearest q) (representable_nearest h.1 h.2)
  else inf (decide (q < 0))

def isFinite : Binary64 → Bool
  | fin .. => true
  | _ => false

def add : Binary64 → Binary64 → Binary64
  | fin a _, fin b _ => ofRat (a + b)
  | fin .., inf s => inf s
  | inf s, fin .. => inf s
  | inf s, inf t => if s = t then inf s else nan
  | nan, _ => nan
  | _, nan => nan

theorem representable_zero : Representable 0 := ⟨0, 0, by norm_num, by norm_num, by norm_num, by simp⟩

def zero : Binary64 := fin 0 representable_zero

theorem nearest_zero : nearest 0 = 0 := by simp [nearest, roundEven]

theorem ulpExp_zero : ulpExp 0 = -52 := by simp [ulpExp, Int.log_zero_right]

/-- The unit in the last place of `m * 2 ^ e` is at most `2 ^ e`. -/
theorem ulpExp_le {m e : ℤ} (hm0 : m ≠ 0) (hm : |m| < 2 ^ 53) (he : -1074 ≤ e) :
    ulpExp (m * 2 ^ e) ≤ e := by
  have hpos : (0 : ℚ) < 2 ^ e := zpow_pos (by norm_num) _
  have hlt : |(m : ℚ) * 2 ^ e| < ((2 : ℕ) : ℚ) ^ (e + 53) := by
    rw [abs_mul, abs_of_pos hpos, ← Int.cast_abs, add_comm, zpow_add₀ (by norm_num)]
    refine mul_lt_mul_of_pos_right ?_ hpos
    exact_mod_cast hm
  have h0 : 0 < |(m : ℚ) * 2 ^ e| := abs_pos.mpr (mul_ne_zero (by exact_mod_cast hm0) hpos.ne')
  have := (Int.lt_zpow_iff_log_lt (by decide) h0).mp hlt
  exact max_le he (by omega)

/-- A multiple of a larger power of two is not rounded. -/
theorem nearest_mul_zpow {m e : ℤ} (h : ulpExp (m * 2 ^ e) ≤ e) : nearest (m * 2 ^ e) = m * 2 ^ e := by
  unfold nearest
  generalize ulpExp (m * 2 ^ e) = u at h
  obtain ⟨k, rfl⟩ := Int.exists_add_of_le h
  have hu : (2 : ℚ) ^ u ≠ 0 := (zpow_pos (by norm_num) _).ne'
  have hq : (m : ℚ) * 2 ^ (u + (k : ℤ)) / 2 ^ u = ((m * 2 ^ k : ℤ) : ℚ) := by
    rw [zpow_add₀ (by norm_num), zpow_natCast]
    push_cast
    field_simp
  rw [hq, roundEven_intCast]
  rw [zpow_add₀ (by norm_num), zpow_natCast]
  push_cast
  ring

theorem lt_of_representable {q : ℚ} (h : Representable q) : |q| < 2 ^ (1024 : ℤ) := by
  obtain ⟨m, e, hm, -, he, rfl⟩ := h
  have hpos : (0 : ℚ) < 2 ^ e := zpow_pos (by norm_num) _
  rw [abs_mul, abs_of_pos hpos, ← Int.cast_abs]
  have h1 : ((|m| : ℤ) : ℚ) < 2 ^ (53 : ℤ) := by exact_mod_cast hm
  have h2 : (2 : ℚ) ^ e ≤ 2 ^ (971 : ℤ) := zpow_le_zpow_right₀ (by norm_num) he
  calc ((|m| : ℤ) : ℚ) * 2 ^ e < 2 ^ (53 : ℤ) * 2 ^ e := mul_lt_mul_of_pos_right h1 hpos
    _ ≤ 2 ^ (53 : ℤ) * 2 ^ (971 : ℤ) := mul_le_mul_of_nonneg_left h2 (by positivity)
    _ = 2 ^ (1024 : ℤ) := by rw [← zpow_add₀ (by norm_num)]; norm_num

/-- **Exactness.** Rounding keeps a representable number. -/
theorem ofRat_of_representable {q : ℚ} (h : Representable q) : ofRat q = fin q h := by
  have hlt := lt_of_representable h
  have hn : nearest q = q ∧ ulpExp q ≤ 971 := by
    obtain ⟨m, e, hm, he, he', rfl⟩ := id h
    by_cases hm0 : m = 0
    · subst hm0
      rw [Int.cast_zero, zero_mul, nearest_zero, ulpExp_zero]
      exact ⟨rfl, by norm_num⟩
    · have hu := ulpExp_le hm0 hm he
      exact ⟨nearest_mul_zpow hu, hu.trans he'⟩
  unfold ofRat
  rw [dif_pos ⟨hn.2, by rw [hn.1]; exact hlt⟩]
  simp only [hn.1]

theorem zero_add {q : ℚ} (h : Representable q) : add zero (fin q h) = fin q h := by
  show ofRat (0 + q) = fin q h
  rw [Rat.zero_add]; exact ofRat_of_representable h

theorem representable_natCast {n : ℕ} (h : n < 2 ^ 53) : Representable n :=
  ⟨n, 0, by rw [Nat.abs_cast]; exact_mod_cast h, by norm_num, by norm_num, by simp⟩

/-- Whole numbers are added exactly. -/
theorem add_natCast {a b : ℕ} (h : a + b < 2 ^ 53) :
    add (ofRat a) (ofRat b) = ofRat ((a + b : ℕ) : ℚ) := by
  have ha : a < 2 ^ 53 := by omega
  have hb : b < 2 ^ 53 := by omega
  rw [ofRat_of_representable (representable_natCast ha),
    ofRat_of_representable (representable_natCast hb), Nat.cast_add]
  rfl

theorem ofRat_zero : ofRat ((0 : ℕ) : ℚ) = zero := by
  rw [Nat.cast_zero]
  exact ofRat_of_representable representable_zero

/-! ## Overflow -/

/-- `2 ^ 1024` less half a unit: what is as large rounds to an infinity. -/
def overflowThreshold : ℚ := (2 ^ 53 - 1 / 2) * 2 ^ (971 : ℤ)

theorem one_lt_overflowThreshold : 1 < overflowThreshold := by
  have hunit : (1 : ℚ) ≤ 2 ^ (971 : ℤ) := one_le_zpow₀ (by norm_num) (by norm_num)
  have hpos : (0 : ℚ) < 2 ^ (971 : ℤ) := lt_of_lt_of_le one_pos hunit
  exact lt_of_le_of_lt hunit (lt_mul_of_one_lt_left hpos (by norm_num))

/-- Of the numbers around an even number, the ties round to it. -/
theorem le_roundEven {x : ℚ} {n : ℤ} (hn : n % 2 = 0) : n ≤ roundEven x ↔ n - 1 / 2 ≤ x := by
  have h1 := Int.floor_le x
  have h2 := Int.lt_floor_add_one x
  have hcast : ∀ a : ℤ, n ≤ a ↔ (n : ℚ) ≤ a := fun a => Int.cast_le.symm
  have hlt : ∀ a : ℤ, (n : ℚ) < a + 1 → n ≤ a := fun a h => Int.lt_add_one_iff.mp (by exact_mod_cast h)
  unfold roundEven
  split_ifs with ha hb he
  · exact ⟨fun h => by have := (hcast _).mp h; linarith, fun h => hlt _ (by linarith)⟩
  · refine ⟨fun h => ?_, fun h => hlt _ (by push_cast; linarith)⟩
    have := (hcast _).mp h
    push_cast at this
    linarith
  · -- a tie at an even floor
    refine ⟨fun h => by have := (hcast _).mp h; linarith, fun h => ?_⟩
    have := hlt (⌊x⌋ + 1) (by push_cast; linarith)
    omega
  · refine ⟨fun h => ?_, fun h => hlt _ (by push_cast; linarith)⟩
    have := (hcast _).mp h
    push_cast at this
    linarith

theorem roundEven_le {x : ℚ} {n : ℤ} (hn : n % 2 = 0) : roundEven x ≤ n ↔ x ≤ n + 1 / 2 := by
  have h1 := Int.floor_le x
  have h2 := Int.lt_floor_add_one x
  have hcast : ∀ a : ℤ, a ≤ n ↔ (a : ℚ) ≤ n := fun a => Int.cast_le.symm
  have hlt : ∀ a : ℤ, (a : ℚ) < n + 1 → a ≤ n := fun a h => Int.lt_add_one_iff.mp (by exact_mod_cast h)
  unfold roundEven
  split_ifs with ha hb he
  · exact ⟨fun h => by have := (hcast _).mp h; linarith, fun h => hlt _ (by linarith)⟩
  · refine ⟨fun h => ?_, fun h => hlt _ (by push_cast; linarith)⟩
    have := (hcast _).mp h
    push_cast at this
    linarith
  · exact ⟨fun h => by have := (hcast _).mp h; linarith, fun h => hlt _ (by linarith)⟩
  · refine ⟨fun h => ?_, fun h => ?_⟩
    · have := (hcast _).mp h
      push_cast at this
      linarith
    · -- a tie at an odd floor
      have := hlt ⌊x⌋ (by linarith)
      omega

theorem isFinite_ofRat_iff (q : ℚ) :
    (ofRat q).isFinite = true ↔ ulpExp q ≤ 971 ∧ |nearest q| < 2 ^ (1024 : ℤ) := by
  unfold ofRat
  split
  · rename_i h; exact ⟨fun _ => h, fun _ => rfl⟩
  · rename_i h; exact ⟨fun h' => (by cases h'), fun h' => absurd h' h⟩

theorem abs_roundEven_lt {x : ℚ} {n : ℤ} (hn : n % 2 = 0) :
    |roundEven x| < n ↔ |x| < n - 1 / 2 := by
  have hneg : (-n) % 2 = 0 := by omega
  have h1 := not_congr (le_roundEven (x := x) hn)
  have h2 := not_congr (roundEven_le (x := x) hneg)
  rw [not_le, not_le] at h1 h2
  push_cast at h2
  rw [abs_lt, abs_lt, h1, h2]
  constructor
  · rintro ⟨a, b⟩; exact ⟨by linarith, b⟩
  · rintro ⟨a, b⟩; exact ⟨by linarith, b⟩

theorem ulpExp_le_of_lt {q : ℚ} {e : ℤ} (he : -1 ≤ e) (h : |q| < 2 ^ (e + 53)) :
    ulpExp q ≤ e := by
  by_cases hq : q = 0
  · rw [hq, ulpExp_zero]; omega
  have hlog := (Int.lt_zpow_iff_log_lt (b := 2) (by decide) (abs_pos.mpr hq)).mp
    (by exact_mod_cast h)
  unfold ulpExp
  omega

theorem le_ulpExp {q : ℚ} {e : ℤ} (h : 2 ^ (e + 52) ≤ |q|) : e ≤ ulpExp q := by
  have hpos : 0 < |q| := lt_of_lt_of_le (zpow_pos (by norm_num) _) h
  have hlog := (Int.zpow_le_iff_le_log (b := 2) (by decide) hpos).mp (by exact_mod_cast h)
  unfold ulpExp
  omega

theorem abs_nearest_le (q : ℚ) : |nearest q| ≤ 2 ^ (53 : ℤ) * 2 ^ ulpExp q := by
  have hpos : (0 : ℚ) < 2 ^ ulpExp q := zpow_pos (by norm_num) _
  have hm : ((|roundEven (q / 2 ^ ulpExp q)| : ℤ) : ℚ) ≤ ((2 ^ 53 : ℤ) : ℚ) :=
    Int.cast_le.mpr (abs_le.mpr (roundEven_unit q))
  unfold nearest
  rw [abs_mul, abs_of_pos hpos, ← Int.cast_abs]
  refine mul_le_mul_of_nonneg_right (hm.trans (le_of_eq ?_)) hpos.le
  norm_cast

/-- **Overflow.** A number rounds to a finite double exactly when it is below
the threshold. -/
theorem isFinite_ofRat {q : ℚ} : (ofRat q).isFinite = true ↔ |q| < overflowThreshold := by
  rw [isFinite_ofRat_iff]
  have hunit : (0 : ℚ) < 2 ^ (971 : ℤ) := zpow_pos (by norm_num) _
  have htop : (2 : ℚ) ^ (1024 : ℤ) = 2 ^ 53 * 2 ^ (971 : ℤ) := by
    rw [show (1024 : ℤ) = 53 + 971 by norm_num, zpow_add₀ (by norm_num)]; rfl
  by_cases hbig : (2 : ℚ) ^ ((971 : ℤ) + 52) ≤ |q|
  · -- the unit is `2 ^ 971` or larger
    have hle := le_ulpExp hbig
    have hcase : ulpExp q ≤ 971 → (|nearest q| < 2 ^ (1024 : ℤ) ↔ |q| < overflowThreshold) := by
      intro hu
      have he : ulpExp q = 971 := le_antisymm hu hle
      have hx := abs_roundEven_lt (x := q / 2 ^ (971 : ℤ)) (n := 2 ^ 53) (by norm_num)
      rw [abs_div, abs_of_pos hunit, div_lt_iff₀ hunit, Int.cast_pow, Int.cast_ofNat] at hx
      unfold nearest overflowThreshold
      rw [he, abs_mul, abs_of_pos hunit, htop, mul_lt_mul_iff_of_pos_right hunit, ← hx,
        ← Int.cast_abs]
      exact_mod_cast Iff.rfl
    constructor
    · rintro ⟨hu, hn⟩; exact (hcase hu).mp hn
    · intro h
      have hu : ulpExp q ≤ 971 := by
        refine ulpExp_le_of_lt (by norm_num) (h.trans ?_)
        rw [zpow_add₀ (by norm_num), mul_comm]
        exact mul_lt_mul_of_pos_right (by norm_num) hunit
      exact ⟨hu, (hcase hu).mpr h⟩
  · -- the unit is smaller, so is the rounded number
    have hlt : |q| < 2 ^ ((970 : ℤ) + 53) := not_le.mp hbig
    have hu : ulpExp q ≤ 970 := ulpExp_le_of_lt (by norm_num) hlt
    have hhalf : (2 : ℚ) ^ ((970 : ℤ) + 53) = 2 ^ 52 * 2 ^ (971 : ℤ) := by
      rw [show (970 : ℤ) + 53 = 52 + 971 by norm_num, zpow_add₀ (by norm_num)]; rfl
    have hn : |nearest q| < 2 ^ (1024 : ℤ) := by
      refine lt_of_le_of_lt (abs_nearest_le q) ?_
      calc (2 : ℚ) ^ (53 : ℤ) * 2 ^ ulpExp q = 2 ^ (53 + ulpExp q) := by rw [zpow_add₀ (by norm_num)]
        _ < 2 ^ (1024 : ℤ) := zpow_lt_zpow_right₀ (by norm_num) (by omega)
    have hthr : |q| < overflowThreshold := by
      rw [hhalf] at hlt
      exact hlt.trans (mul_lt_mul_of_pos_right (by norm_num) hunit)
    exact ⟨fun _ => hthr, fun _ => ⟨by omega, hn⟩⟩

/-! ## Running sums -/

/-- No addition of the running sum reaches the threshold. -/
def SumFits : ℚ → List ℚ → Prop
  | _, [] => True
  | s, q :: qs => |s + nearest q| < overflowThreshold ∧ SumFits (nearest (s + nearest q)) qs

theorem ofRat_of_lt {q : ℚ} (h : |q| < overflowThreshold) :
    ∃ hr, ofRat q = fin (nearest q) hr := by
  have hf := (isFinite_ofRat_iff q).mp (isFinite_ofRat.mpr h)
  exact ⟨representable_nearest hf.1 hf.2, dif_pos hf⟩

/-- An infinite sum stays infinite. -/
theorem isFinite_add {x y : Binary64} (h : (add x y).isFinite = true) : x.isFinite = true := by
  cases x with
  | fin q hq => rfl
  | inf a =>
    cases y with
    | fin q hq => exact h
    | inf b =>
      simp only [add] at h
      split at h
      · exact h
      · cases h
    | nan => cases h
  | nan => cases h

theorem isFinite_of_foldl {qs : List ℚ} {x : Binary64}
    (h : (qs.foldl (fun x q => add x (ofRat q)) x).isFinite = true) : x.isFinite = true := by
  induction qs generalizing x with
  | nil => exact h
  | cons q qs ih => exact isFinite_add (ih h)

/-- **Sums.** A sum of finite numbers is finite exactly when no step overflows. -/
theorem isFinite_foldl {qs : List ℚ} (hqs : ∀ q ∈ qs, |q| < overflowThreshold) {s : ℚ}
    (hs : Representable s) :
    (qs.foldl (fun x q => add x (ofRat q)) (fin s hs)).isFinite = true ↔ SumFits s qs := by
  induction qs generalizing s with
  | nil => exact ⟨fun _ => trivial, fun _ => rfl⟩
  | cons q qs ih =>
    obtain ⟨hr, hq⟩ := ofRat_of_lt (hqs q List.mem_cons_self)
    have hqs' := fun x hx => hqs x (List.mem_cons_of_mem _ hx)
    have hadd : add (fin s hs) (ofRat q) = ofRat (s + nearest q) := by rw [hq]; rfl
    rw [List.foldl_cons, hadd, SumFits]
    by_cases hlt : |s + nearest q| < overflowThreshold
    · obtain ⟨hr', hsum⟩ := ofRat_of_lt hlt
      rw [hsum, ih hqs' hr']
      exact ⟨fun h => ⟨hlt, h⟩, fun h => h.2⟩
    · refine ⟨fun h => ?_, fun h => absurd h.1 hlt⟩
      exact absurd (isFinite_ofRat.mp (isFinite_of_foldl h)) hlt

end Binary64
end EbpfDemo.Core
