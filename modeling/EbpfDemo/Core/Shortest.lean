import EbpfDemo.Core.Binary64

/-!
# The shortest decimal of a double

A decimal is `N * 10 ^ e`. `shortest q` is the one a program prints for the
positive double `q`: of the decimals with as few significant digits as any that
rounds to `q`, the one next to `q`. The search stops at 17 digits because they
are always enough.

* `ofRat_of_near`: what is closer to a double than `2 ^ -54` of it rounds to it.
* `ofRat_shortest`: the shortest decimal of `q` rounds to `q`.
-/
namespace EbpfDemo.Core

namespace Binary64

/-! ## What rounds to a double -/

theorem roundEven_of_near {x : ℚ} {n : ℤ} (h : |x - n| < 1 / 2) : roundEven x = n := by
  obtain ⟨h1, h2⟩ := abs_lt.mp h
  have hf := Int.floor_le x
  have hc := Int.lt_floor_add_one x
  have hlo : n - 1 ≤ ⌊x⌋ := Int.le_floor.mpr (by push_cast; linarith)
  have hhi : ⌊x⌋ ≤ n := by
    have : (⌊x⌋ : ℚ) < n + 1 := by linarith
    exact Int.lt_add_one_iff.mp (by exact_mod_cast this)
  rcases (by omega : ⌊x⌋ = n ∨ ⌊x⌋ = n - 1) with hn | hn
  · unfold roundEven
    rw [hn, if_pos (by linarith)]
  · have hx : x - ((n - 1 : ℤ) : ℚ) > 1 / 2 := by push_cast; linarith
    unfold roundEven
    rw [hn, if_neg (by linarith), if_pos hx]
    omega

section
variable {q d : ℚ}

/-- The unit in the last place of what is near a double is not larger than that of
the double. -/
theorem ulpExp_le_of_near {m e : ℤ} (hm : |m| < 2 ^ 53) (he : -1074 ≤ e)
    (h : |d - m * 2 ^ e| < |(m : ℚ) * 2 ^ e| * 2 ^ (-54 : ℤ)) : ulpExp d ≤ e := by
  by_contra hlt
  have hpos : (0 : ℚ) < 2 ^ e := zpow_pos (by norm_num) _
  have hm1 : |(m : ℚ)| ≤ 2 ^ 53 - 1 := by
    have : |m| ≤ 2 ^ 53 - 1 := by omega
    exact_mod_cast this
  -- `d` is at least `2 ^ (e + 53)`, a whole unit above
  have hd : (2 : ℚ) ^ (e + 53) ≤ |d| := by
    have hd0 : d ≠ 0 := by
      rintro rfl
      rw [ulpExp_zero] at hlt
      have hz : |0 - (m : ℚ) * 2 ^ e| = |(m : ℚ) * 2 ^ e| := by rw [zero_sub, abs_neg]
      rw [hz] at h
      have : |(m : ℚ) * 2 ^ e| * 2 ^ (-54 : ℤ) ≤ |(m : ℚ) * 2 ^ e| :=
        mul_le_of_le_one_right (abs_nonneg _) (by norm_num)
      linarith
    have hlog : e + 53 ≤ Int.log 2 |d| := by
      unfold ulpExp at hlt
      omega
    exact_mod_cast (Int.zpow_le_iff_le_log (b := 2) (by decide) (abs_pos.mpr hd0)).mpr hlog
  have hq : |(m : ℚ) * 2 ^ e| ≤ (2 ^ 53 - 1) * 2 ^ e := by
    rw [abs_mul, abs_of_pos hpos]
    exact mul_le_mul_of_nonneg_right hm1 hpos.le
  have hsub := abs_sub_abs_le_abs_sub d (m * 2 ^ e)
  rw [zpow_add₀ (by norm_num)] at hd
  have hsmall : |(m : ℚ) * 2 ^ e| * 2 ^ (-54 : ℤ) < 2 ^ e := by
    calc |(m : ℚ) * 2 ^ e| * 2 ^ (-54 : ℤ) ≤ (2 ^ 53 - 1) * 2 ^ e * 2 ^ (-54 : ℤ) :=
          mul_le_mul_of_nonneg_right hq (by positivity)
      _ < 2 ^ e := by
          rw [mul_right_comm]
          exact mul_lt_of_lt_one_left hpos (by norm_num)
  norm_num at hd
  linarith

/-- A multiple of a unit below `2 ^ 53` others, rounded to a neighbour that is near. -/
theorem abs_le_of_near {m e : ℤ} (hm : |m| < 2 ^ 53) (hu : ulpExp d ≤ e)
    (h : |d - m * 2 ^ e| < |(m : ℚ) * 2 ^ e| * 2 ^ (-54 : ℤ)) :
    |(m : ℚ) * 2 ^ e| ≤ 2 ^ (ulpExp d + 53) := by
  by_contra hlt
  have hlt := not_le.mp hlt
  have hd := abs_lt_zpow d
  generalize ulpExp d = u at *
  have hpos : (0 : ℚ) < 2 ^ e := zpow_pos (by norm_num) _
  have hpu : (0 : ℚ) < 2 ^ u := zpow_pos (by norm_num) _
  -- a double above `2 ^ (u + 53)` is a multiple of `2 ^ (u + 1)`
  have hue : u + 1 ≤ e := by
    by_contra hn
    have : u = e := by omega
    subst this
    have hm1 : |(m : ℚ)| < 2 ^ 53 := by exact_mod_cast hm
    rw [abs_mul, abs_of_pos hpos, zpow_add₀ (by norm_num), mul_comm (2 ^ u)] at hlt
    have := lt_of_mul_lt_mul_right hlt hpos.le
    norm_num at this hm1
    linarith
  have hsub := abs_sub_abs_le_abs_sub ((m : ℚ) * 2 ^ e) d
  rw [abs_sub_comm] at hsub
  obtain ⟨k, hk⟩ := Int.exists_add_of_le hue
  have hcase : (2 : ℚ) ^ (u + 53) + 2 ^ (u + 1) ≤ |(m : ℚ) * 2 ^ e| := by
    have hmul : |(m : ℚ) * 2 ^ e| = ((|m| * 2 ^ k : ℤ) : ℚ) * 2 ^ (u + 1) := by
      rw [abs_mul, abs_of_pos hpos, hk, zpow_add₀ (by norm_num), zpow_natCast]
      push_cast
      ring
    have hpow : (2 : ℚ) ^ (u + 53) = ((2 ^ 52 : ℤ) : ℚ) * 2 ^ (u + 1) := by
      rw [show u + 53 = 52 + (u + 1) by ring, zpow_add₀ (by norm_num)]
      norm_cast
    have hpu1 : (0 : ℚ) < 2 ^ (u + 1) := zpow_pos (by norm_num) _
    rw [hmul, hpow] at hlt
    have hint : (2 ^ 52 : ℤ) < |m| * 2 ^ k := by
      exact_mod_cast lt_of_mul_lt_mul_right hlt hpu1.le
    have hint' : (((2 ^ 52 : ℤ) + 1 : ℤ) : ℚ) ≤ ((|m| * 2 ^ k : ℤ) : ℚ) := Int.cast_le.mpr hint
    rw [hmul, hpow]
    calc ((2 ^ 52 : ℤ) : ℚ) * 2 ^ (u + 1) + 2 ^ (u + 1)
        = (((2 ^ 52 : ℤ) + 1 : ℤ) : ℚ) * 2 ^ (u + 1) := by push_cast; ring
      _ ≤ _ := mul_le_mul_of_nonneg_right hint' hpu1.le
  have h53 : (2 : ℚ) ^ (u + 53) = 2 ^ 53 * 2 ^ u := by rw [zpow_add₀ (by norm_num), mul_comm]; rfl
  have h1 : (2 : ℚ) ^ (u + 1) = 2 * 2 ^ u := by rw [zpow_add₀ (by norm_num), mul_comm]; rfl
  rw [h53, h1] at hcase
  rw [h53] at hd
  generalize |(m : ℚ) * 2 ^ e| = x at h hcase hsub
  norm_num at h hcase hd
  linarith

/-- **Near a double.** What is closer to a double than `2 ^ -54` of it rounds to it. -/
theorem ofRat_of_near (hq : Representable q) (h : |d - q| < |q| * 2 ^ (-54 : ℤ)) :
    ofRat d = fin q hq := by
  obtain ⟨m, e, hm, he, he', rfl⟩ := id hq
  have hu := ulpExp_le_of_near hm he h
  have hle := abs_le_of_near hm hu h
  have hpu : (0 : ℚ) < 2 ^ ulpExp d := zpow_pos (by norm_num) _
  obtain ⟨k, hk⟩ := Int.exists_add_of_le hu
  have hmul : (m : ℚ) * 2 ^ e = ((m * 2 ^ k : ℤ) : ℚ) * 2 ^ ulpExp d := by
    rw [hk, zpow_add₀ (by norm_num), zpow_natCast]
    push_cast
    ring
  have hhalf : |d - m * 2 ^ e| < 1 / 2 * 2 ^ ulpExp d := by
    refine h.trans_le ((mul_le_mul_of_nonneg_right hle (by positivity)).trans (le_of_eq ?_))
    rw [zpow_add₀ (by norm_num)]
    norm_num
    ring
  have hnear : nearest d = m * 2 ^ e := by
    unfold nearest
    rw [hmul, roundEven_of_near]
    rw [hmul] at hhalf
    have : d / 2 ^ ulpExp d - ((m * 2 ^ k : ℤ) : ℚ) =
        (d - ((m * 2 ^ k : ℤ) : ℚ) * 2 ^ ulpExp d) / 2 ^ ulpExp d := by
      rw [sub_div, mul_div_cancel_right₀ _ hpu.ne']
    rw [this, abs_div, abs_of_pos hpu, div_lt_iff₀ hpu]
    exact hhalf
  have hfit : |nearest d| < 2 ^ (1024 : ℤ) := by rw [hnear]; exact lt_of_representable hq
  unfold ofRat
  rw [dif_pos ⟨hu.trans he', hfit⟩]
  simp only [hnear]

end

/-! ## The sign -/

theorem roundEven_neg (x : ℚ) : roundEven (-x) = -roundEven x := by
  have h1 := Int.floor_le x
  have h2 := Int.lt_floor_add_one x
  by_cases hx : x = ⌊x⌋
  · rw [hx, ← Int.cast_neg, roundEven_intCast, roundEven_intCast]
  · have hlt : (⌊x⌋ : ℚ) < x := lt_of_le_of_ne h1 fun h => hx h.symm
    have hf : ⌊-x⌋ = -⌊x⌋ - 1 :=
      Int.floor_eq_iff.mpr ⟨by push_cast; linarith, by push_cast; linarith⟩
    unfold roundEven
    rw [hf]
    generalize ⌊x⌋ = f at h1 h2
    push_cast
    -- the same side of the tie, and at the tie the even one of the two
    split_ifs <;> first
      | omega
      | exfalso; linarith

theorem nearest_neg (q : ℚ) : nearest (-q) = -nearest q := by
  have hu : ulpExp (-q) = ulpExp q := by unfold ulpExp; rw [abs_neg]
  unfold nearest
  rw [hu, neg_div, roundEven_neg]
  push_cast
  ring

theorem representable_neg {q : ℚ} (h : Representable q) : Representable (-q) := by
  obtain ⟨m, e, hm, h1, h2, rfl⟩ := h
  exact ⟨-m, e, by rwa [abs_neg], h1, h2, by push_cast; ring⟩

theorem ofRat_neg {q d : ℚ} (hq : Representable q) (h : ofRat d = fin q hq) :
    ofRat (-d) = fin (-q) (representable_neg hq) := by
  have hf := (isFinite_ofRat_iff d).mp (by rw [h]; rfl)
  have hd : ofRat d = fin (nearest d) (representable_nearest hf.1 hf.2) := dif_pos hf
  have hn : nearest d = q := by
    rw [hd] at h
    injection h
  have hu : ulpExp (-d) = ulpExp d := by unfold ulpExp; rw [abs_neg]
  have hn' : nearest (-d) = -q := by rw [nearest_neg, hn]
  unfold ofRat
  rw [dif_pos ⟨hu ▸ hf.1, by rw [nearest_neg, abs_neg]; exact hf.2⟩]
  simp only [hn']

/-! ## The search -/

theorem roundEven_mem_floor (x : ℚ) : roundEven x = ⌊x⌋ ∨ roundEven x = ⌊x⌋ + 1 := by
  unfold roundEven
  split_ifs <;> simp

theorem abs_sub_roundEven (x : ℚ) : |x - roundEven x| ≤ 1 / 2 := by
  have h1 := Int.floor_le x
  have h2 := Int.lt_floor_add_one x
  unfold roundEven
  split_ifs <;> rw [abs_le] <;> push_cast <;> constructor <;> linarith

end Binary64

open Binary64

/-- `digits * 10 ^ exp` -/
structure Decimal where
  digits : Nat
  exp : ℤ
  deriving DecidableEq

namespace Decimal

def value (d : Decimal) : ℚ := d.digits * 10 ^ d.exp

/-- The decimals of `n` significant digits below and above the positive `q`, the
nearer one first, of a tie the even one. -/
def neighbours (q : ℚ) (n : Nat) : List Decimal :=
  let e := Int.log 10 q - n + 1
  let f := ⌊q / 10 ^ e⌋₊
  if roundEven (q / 10 ^ e) = f then [⟨f, e⟩, ⟨f + 1, e⟩] else [⟨f + 1, e⟩, ⟨f, e⟩]

/-- The first that rounds to the double `q`, by number of digits. -/
def shortest (q : ℚ) : Decimal :=
  (((List.range' 1 17).flatMap (neighbours q)).find? fun d => ofRat d.value = ofRat q).getD ⟨0, 0⟩

variable {q : ℚ}

/-- The nearer neighbour. -/
theorem mem_neighbours (hq : 0 < q) (n : Nat) : ∃ d ∈ neighbours q n,
    |d.value - q| ≤ 1 / 2 * 10 ^ (Int.log 10 q - n + 1) := by
  unfold neighbours
  dsimp only
  generalize Int.log 10 q - n + 1 = e
  have hpos : (0 : ℚ) < 10 ^ e := zpow_pos (by norm_num) _
  have hx : 0 ≤ q / 10 ^ e := (div_pos hq hpos).le
  have hf : ((⌊q / 10 ^ e⌋₊ : ℕ) : ℤ) = ⌊q / 10 ^ e⌋ := Int.natCast_floor_eq_floor hx
  have hnear : ∀ k : ℕ, roundEven (q / 10 ^ e) = k →
      |Decimal.value ⟨k, e⟩ - q| ≤ 1 / 2 * 10 ^ e := by
    intro k hk
    have h := abs_sub_roundEven (q / 10 ^ e)
    rw [hk, abs_sub_comm, Int.cast_natCast] at h
    have hsub : Decimal.value ⟨k, e⟩ - q = (k - q / 10 ^ e) * 10 ^ e := by
      unfold Decimal.value
      field_simp
    rw [hsub, abs_mul, abs_of_pos hpos]
    exact mul_le_mul_of_nonneg_right h hpos.le
  split
  · rename_i h
    exact ⟨_, List.mem_cons_self, hnear _ h⟩
  · rename_i h
    refine ⟨_, List.mem_cons_self, hnear _ ?_⟩
    rw [hf] at h
    rw [(roundEven_mem_floor _).resolve_left h, ← hf]
    rfl

/-- **Seventeen digits are enough**, so the search finds a decimal. -/
theorem shortest_found (hq : 0 < q) (hr : Representable q) :
    (∃ n, 0 < n ∧ shortest q ∈ neighbours q n) ∧ ofRat (shortest q).value = fin q hr := by
  obtain ⟨d, hd, hle⟩ := mem_neighbours hq 17
  have hlog : (10 : ℚ) ^ Int.log 10 q ≤ q := by
    exact_mod_cast Int.zpow_log_le_self (b := 10) (by decide) hq
  have hnear : |d.value - q| < |q| * 2 ^ (-54 : ℤ) := by
    rw [abs_of_pos hq]
    refine hle.trans_lt ?_
    have hexp : (10 : ℚ) ^ (Int.log 10 q - (17 : ℕ) + 1) = 10 ^ Int.log 10 q * 10 ^ (-16 : ℤ) := by
      rw [← zpow_add₀ (by norm_num)]
      congr 1
      push_cast
      ring
    rw [hexp]
    calc 1 / 2 * ((10 : ℚ) ^ Int.log 10 q * 10 ^ (-16 : ℤ))
        ≤ 1 / 2 * (q * 10 ^ (-16 : ℤ)) := by gcongr
      _ = q * (1 / 2 * 10 ^ (-16 : ℤ)) := by ring
      _ < q * 2 ^ (-54 : ℤ) := mul_lt_mul_of_pos_left (by norm_num) hq
  have hfound := ofRat_of_near hr hnear
  have hself := ofRat_of_representable hr
  unfold shortest
  cases hs : ((List.range' 1 17).flatMap (neighbours q)).find? fun d => ofRat d.value = ofRat q with
  | none =>
    have := List.find?_eq_none.mp hs d (List.mem_flatMap.mpr ⟨17, by decide, hd⟩)
    rw [hfound, hself] at this
    exact absurd (decide_eq_true rfl) this
  | some d' =>
    obtain ⟨n, hn, hmem⟩ := List.mem_flatMap.mp (List.mem_of_find?_eq_some hs)
    have := List.find?_some hs
    exact ⟨⟨n, (List.mem_range'_1.mp hn).1, hmem⟩, (of_decide_eq_true this).trans hself⟩

theorem ofRat_shortest (hq : 0 < q) (hr : Representable q) :
    ofRat (shortest q).value = fin q hr := (shortest_found hq hr).2

/-- A neighbour has `n` digits, or is the next power of ten. -/
theorem digits_neighbours (hq : 0 < q) {n : Nat} (hn : 0 < n) {d : Decimal}
    (hd : d ∈ neighbours q n) : d.exp = Int.log 10 q - n + 1 ∧
      10 ^ (n - 1) ≤ d.digits ∧ d.digits ≤ 10 ^ n := by
  have hlo : (10 : ℚ) ^ Int.log 10 q ≤ q := by
    exact_mod_cast Int.zpow_log_le_self (b := 10) (by decide) hq
  have hhi : q < (10 : ℚ) ^ (Int.log 10 q + 1) := by
    exact_mod_cast Int.lt_zpow_succ_log_self (b := 10) (by decide) q
  have hpos : (0 : ℚ) < 10 ^ (Int.log 10 q - n + 1) := zpow_pos (by norm_num) _
  have hf : 10 ^ (n - 1) ≤ ⌊q / 10 ^ (Int.log 10 q - n + 1)⌋₊ := by
    refine Nat.le_floor ?_
    rw [le_div_iff₀ hpos]
    refine le_trans (le_of_eq ?_) hlo
    push_cast
    rw [← zpow_natCast, ← zpow_add₀ (by norm_num)]
    congr 1
    omega
  have hf' : ⌊q / 10 ^ (Int.log 10 q - n + 1)⌋₊ < 10 ^ n := by
    refine (Nat.floor_lt (div_nonneg hq.le hpos.le)).mpr ?_
    rw [div_lt_iff₀ hpos]
    refine hhi.trans_le (le_of_eq ?_)
    push_cast
    rw [← zpow_natCast, ← zpow_add₀ (by norm_num)]
    congr 1
    omega
  unfold neighbours at hd
  dsimp only at hd
  generalize ⌊q / 10 ^ (Int.log 10 q - n + 1)⌋₊ = f at hd hf hf'
  split at hd <;> simp only [List.mem_cons, List.not_mem_nil, or_false] at hd <;>
    rcases hd with rfl | rfl
  all_goals exact ⟨rfl, by dsimp only; omega, by dsimp only; omega⟩

theorem digits_shortest (hq : 0 < q) (hr : Representable q) : (shortest q).digits ≠ 0 := by
  intro h0
  have h := ofRat_shortest hq hr
  rw [value, h0, Nat.cast_zero, zero_mul, ofRat_of_representable representable_zero] at h
  injection h with h
  exact hq.ne h

example : shortest (5 / 2) = ⟨25, -1⟩ := by decide +kernel

end Decimal
end EbpfDemo.Core
