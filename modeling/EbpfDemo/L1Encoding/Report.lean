import EbpfDemo.Core.Tally
import EbpfDemo.L1Encoding.Labels

/-!
# Reports and what the client makes of them

A loader prints rows `key: value`, the value with `%llu` or `%.3f`. A `Key` is a
label that `parse_output_metrics` takes, by its fields. `reportedValue` is what
the client finds under a key in the text of a run, with the values added up
exactly.

`reportedValue_printed`: it is the sum of the values printed under the key, and
nothing when there are none. That sum lies between the smallest and the largest
of the values, none of which is negative, exactly when at most one of them is
not zero (`sum_between_iff`).
-/
namespace EbpfDemo.L1Encoding

open EbpfDemo.Core

/-- Numbers are exact. -/
def exactFloats : Floats ℚ := ⟨0, (· + ·), id, fun _ => true⟩

structure Key where
  text : Str
  ne : text ≠ []
  safe : ∀ c ∈ text, isKeyChar c = true
  short : text.length ≤ 128

theorem Key.ext {k k' : Key} (h : k.text = k'.text) : k = k' := by
  cases k; cases k'; cases h; rfl

instance : DecidableEq Key := fun k k' =>
  decidable_of_iff (k.text = k'.text) ⟨Key.ext, fun h => h ▸ rfl⟩

/-- A label that is text. -/
def Key.named (s : Str) (h : s ≠ [] ∧ s.all isKeyChar = true ∧ s.length ≤ 128) : Key :=
  ⟨s, h.1, List.all_eq_true.mp h.2.1, h.2.2⟩

/-- A number in a label that is otherwise text. -/
def Key.numbered (front back : Str) (n : Nat)
    (h : front ≠ [] ∧ (front ++ back).all isKeyChar = true ∧ front.length + back.length ≤ 100 ∧
      n < 2 ^ 64) : Key where
  text := front ++ decimal n ++ back
  ne := by simp [h.1]
  safe := by
    intro c hc
    have hall := List.all_eq_true.mp h.2.1
    rcases List.mem_append.mp hc with hc | hc
    · rcases List.mem_append.mp hc with hc | hc
      · exact hall c (List.mem_append_left _ hc)
      · exact isKeyChar_decimal hc
    · exact hall c (List.mem_append_right _ hc)
  short := by
    have := length_decimal h.2.2.2
    simp only [List.length_append]; omega

theorem decimal_inj {m n : Nat} (h : decimal m = decimal n) : m = n := by
  rw [← digitsVal_decimal m, h, digitsVal_decimal]

/-- Different numbers make different labels. -/
theorem numbered_inj (front back : Str) {m n : Nat}
    (h : front ++ decimal m ++ back = front ++ decimal n ++ back) : m = n :=
  decimal_inj (List.append_cancel_left (List.append_cancel_right h))

/-- What `%llu` and `%.3f` print; the second in thousandths. -/
inductive Numeral where
  | llu (n : Nat)
  | f3 (milli : Nat)
  deriving DecidableEq

/-- Three digits. -/
def digits3 (n : Nat) : Str := [0x30 + n / 100 % 10, 0x30 + n / 10 % 10, 0x30 + n % 10]

namespace Numeral

def text : Numeral → Str
  | .llu n => decimal n
  | .f3 m => decimal (m / 1000) ++ 0x2E :: digits3 (m % 1000)

def value : Numeral → ℚ
  | .llu n => n
  | .f3 m => m / 1000

theorem value_nonneg (n : Numeral) : 0 ≤ n.value := by
  cases n <;> simp only [value] <;> positivity

end Numeral

/-- `%.3f` of a number that is not negative. -/
def fixed3 (q : ℚ) : Numeral := .f3 (Binary64.roundEven (q * 1000)).toNat

/-- A number of thousandths is printed as it is. -/
theorem fixed3_thousandths (n : Nat) : fixed3 (n / 1000) = .f3 n := by
  have h : (n / 1000 : ℚ) * 1000 = ((n : ℤ) : ℚ) := by
    rw [div_mul_cancel₀ _ (by norm_num)]; norm_cast
  rw [fixed3, h, Binary64.roundEven_intCast]; rfl

/-! ## A numeral read back -/

theorem digits3_digit {n c : Nat} (h : c ∈ digits3 n) : 0x30 ≤ c ∧ c ≤ 0x39 := by
  simp only [digits3, List.mem_cons, List.not_mem_nil, or_false] at h
  omega

theorem digitsVal_append_digits3 (a : Nat) {r : Nat} (hr : r < 1000) :
    digitsVal (decimal a ++ digits3 r) = 1000 * a + r := by
  have hd : ∀ d, d < 10 → (digitVal (0x30 + d)).getD 0 = d := by
    intro d hd
    rw [digitVal_ascii (by omega)]
    show 0x30 + d - 0x30 = d
    omega
  have ha := digitsVal_decimal a
  unfold digitsVal at ha ⊢
  rw [List.foldl_append, ha, digits3]
  simp only [List.foldl_cons, List.foldl_nil]
  rw [hd _ (Nat.mod_lt _ (by decide)), hd _ (Nat.mod_lt _ (by decide)),
    hd _ (Nat.mod_lt _ (by decide))]
  omega

theorem number_f3 (m : Nat) :
    number (Numeral.text (.f3 m)) = some ((m : ℚ) / 1000) := by
  have hbody : decimalBody (Numeral.text (.f3 m)) = some ((m : ℚ) / 1000) := by
    have hdec : ∀ c ∈ decimal (m / 1000), isDecimal c = true := fun c hc => isDecimal_decimal hc
    have h3 : (digits3 (m % 1000)).all isDecimal = true := List.all_eq_true.mpr fun c hc => by
      rw [isDecimal, digitVal_ascii (digits3_digit hc)]; rfl
    have hpoint : isDecimal 0x2E = false := by decide
    have hdrop : (Numeral.text (.f3 m)).dropWhile isDecimal = 0x2E :: digits3 (m % 1000) := by
      rw [Numeral.text, List.dropWhile_append_of_pos hdec, List.dropWhile_cons, hpoint]; rfl
    have htake : (Numeral.text (.f3 m)).takeWhile isDecimal = decimal (m / 1000) := by
      rw [Numeral.text, List.takeWhile_append_of_pos hdec, List.takeWhile_cons, hpoint]
      exact List.append_nil _
    unfold decimalBody
    rw [hdrop, htake]
    show (if digits3 (m % 1000) ≠ [] ∧ (digits3 (m % 1000)).all isDecimal = true then
      some ((digitsVal (decimal (m / 1000) ++ digits3 (m % 1000)) : ℚ) /
        10 ^ (digits3 (m % 1000)).length) else none) = _
    rw [if_pos ⟨List.cons_ne_nil _ _, h3⟩, digitsVal_append_digits3 _ (Nat.mod_lt _ (by decide)),
      Nat.div_add_mod]
    norm_num [digits3]
  obtain ⟨c, s, hcs⟩ := List.exists_cons_of_ne_nil (decimal_ne_nil (m / 1000))
  have hc := decimal_digit (n := m / 1000) (hcs ▸ List.mem_cons_self)
  rw [← hbody]
  have ht : Numeral.text (.f3 m) = c :: (s ++ 0x2E :: digits3 (m % 1000)) := by
    rw [Numeral.text, hcs]; rfl
  rw [ht]
  unfold number
  split
  · rename_i h; cases h; omega
  · rename_i h; cases h; omega
  · rfl

namespace Numeral

theorem number_text (n : Numeral) : number n.text = some n.value := by
  cases n with
  | llu n => exact number_decimal n
  | f3 m => exact number_f3 m

theorem text_ne_nil (n : Numeral) : n.text ≠ [] := by
  cases n with
  | llu n => exact decimal_ne_nil n
  | f3 m => exact fun h => decimal_ne_nil _ (List.append_eq_nil_iff.mp h).1

/-- Digits, and a point. -/
theorem isKeyChar_text {n : Numeral} {c : Nat} (h : c ∈ n.text) : isKeyChar c = true := by
  cases n with
  | llu n => exact isKeyChar_decimal h
  | f3 m =>
    rcases List.mem_append.mp h with h | h
    · exact isKeyChar_decimal h
    · rcases List.mem_cons.mp h with rfl | h
      · decide
      · have := digits3_digit h
        simp [isKeyChar, this]

end Numeral

/-! ## Rows -/

structure Row where
  key : Key
  num : Numeral

def Row.text (r : Row) : Str := r.key.text ++ 0x3A :: 0x20 :: r.num.text ++ [0x0A]

/-- What is written to stdout. -/
def printed (rows : List Row) : List UInt8 := bytes (rows.flatMap Row.text)

/-- What the client finds under a key in the output of a run. -/
def reportedValue (recLimit : Nat) (out : List UInt8) (k : Key) : Option ℚ :=
  match parseOutputMetrics exactFloats recLimit (decode out) with
  | .ok metrics => Assoc.find k.text metrics
  | .error _ => none

/-- The values printed under a key. -/
def valuesAt (k : Key) (rows : List Row) : List ℚ :=
  (rows.filter fun r => r.key = k).map fun r => r.num.value

theorem valuesAt_append (k : Key) (rows rows' : List Row) :
    valuesAt k (rows ++ rows') = valuesAt k rows ++ valuesAt k rows' := by
  simp [valuesAt]

theorem valuesAt_nonneg {k : Key} {rows : List Row} : ∀ v ∈ valuesAt k rows, 0 ≤ v := by
  intro v hv
  obtain ⟨r, -, rfl⟩ := List.mem_map.mp hv
  exact r.num.value_nonneg

/-- The row read by the loop of `parse_output_metrics`. -/
theorem parseLine_row (recLimit : Nat) (out : Metrics ℚ) (r : Row) :
    parseLine exactFloats recLimit out (r.key.text ++ 0x3A :: 0x20 :: r.num.text) =
      .ok (addTo exactFloats out r.key.text r.num.value) := by
  unfold parseLine
  rw [kvLine_text r.key.ne r.key.safe r.num.text_ne_nil
    (fun c hc => isSpace_of_isKeyChar (Numeral.isKeyChar_text hc)) r.num.number_text]
  simp only [r.key.short, true_and]
  rfl

theorem isBreak_row {r : Row} {c : Nat} (h : c ∈ r.key.text ++ 0x3A :: 0x20 :: r.num.text) :
    isBreak c = false ∧ c < 0x80 := by
  have hkey : ∀ {c}, isKeyChar c = true → isBreak c = false ∧ c < 0x80 :=
    fun h => ⟨isBreak_of_isKeyChar h, isKeyChar_ascii h⟩
  rcases List.mem_append.mp h with h | h
  · exact hkey (r.key.safe c h)
  · rcases List.mem_cons.mp h with rfl | h
    · decide
    · rcases List.mem_cons.mp h with rfl | h
      · decide
      · exact hkey (Numeral.isKeyChar_text h)

theorem splitlines_rows (rows : List Row) :
    splitlines (rows.flatMap Row.text) =
      rows.map fun r => r.key.text ++ 0x3A :: 0x20 :: r.num.text := by
  induction rows with
  | nil => rfl
  | cons r rows ih =>
    rw [List.flatMap_cons, Row.text, List.append_assoc, List.singleton_append,
      splitlines_line fun c hc => (isBreak_row hc).1, ih]; rfl

theorem decode_printed (rows : List Row) : decode (printed rows) = rows.flatMap Row.text := by
  refine decode_bytes fun c hc => ?_
  obtain ⟨r, -, hr⟩ := List.mem_flatMap.mp hc
  rcases List.mem_append.mp hr with hr | hr
  · exact (isBreak_row hr).2
  · rw [List.mem_singleton.mp hr]; decide

/-- The metrics of the rows: every value is added under its key. -/
def metricsOf (rows : List Row) : Metrics ℚ :=
  rows.foldl (fun out r => addTo exactFloats out r.key.text r.num.value) []

theorem parse_printed (recLimit : Nat) (rows : List Row) :
    parseOutputMetrics exactFloats recLimit (decode (printed rows)) = .ok (metricsOf rows) := by
  unfold parseOutputMetrics metricsOf
  rw [decode_printed, splitlines_rows]
  generalize ([] : Metrics ℚ) = out
  induction rows generalizing out with
  | nil => rfl
  | cons r rows ih =>
    rw [List.map_cons, List.foldlM_cons, parseLine_row, List.foldl_cons]
    exact ih _

/-- The values under a key, added up. -/
theorem sumUnder_rows (k : Key) (rows : List Row) :
    Tally.sumUnder k.text (rows.map fun r => (r.key.text, r.num.value)) =
      if valuesAt k rows = [] then none else some (valuesAt k rows).sum := by
  induction rows with
  | nil => rfl
  | cons r rows ih =>
    rw [List.map_cons, Tally.sumUnder, ih, Tally.amount]
    by_cases hk : r.key = k
    · have hv : valuesAt k (r :: rows) = r.num.value :: valuesAt k rows := by simp [valuesAt, hk]
      rw [if_pos (congrArg Key.text hk), hv, if_neg (List.cons_ne_nil _ _), List.sum_cons]
      split
      · rename_i hnil; simp [hnil]
      · rfl
    · have hv : valuesAt k (r :: rows) = valuesAt k rows := by simp [valuesAt, hk]
      rw [if_neg fun h => hk (Key.ext h), hv]
      exact Option.merge_none_left

/-- **What the client reports** under a key is the sum of the values printed
under it. -/
theorem reportedValue_printed (recLimit : Nat) (rows : List Row) (k : Key) :
    reportedValue recLimit (printed rows) k =
      if valuesAt k rows = [] then none else some (valuesAt k rows).sum := by
  have hadd : metricsOf rows =
      (rows.map fun r => (r.key.text, r.num.value)).foldl Tally.add [] := by
    rw [List.foldl_map]; rfl
  unfold reportedValue
  rw [parse_printed]
  dsimp only
  rw [hadd, Tally.find_foldl_add, sumUnder_rows]
  exact Option.merge_none_left

/-- A key that was not printed counts as 0. -/
theorem reportedValue_getD (recLimit : Nat) (rows : List Row) (k : Key) :
    (reportedValue recLimit (printed rows) k).getD 0 = (valuesAt k rows).sum := by
  rw [reportedValue_printed]
  split
  · rename_i h; rw [h]; rfl
  · rfl

/-! ## Sums and their parts -/

/-- `q` lies between the smallest and the largest of the values. -/
def Between (q : ℚ) (vs : List ℚ) : Prop := (∃ v ∈ vs, v ≤ q) ∧ ∃ v ∈ vs, q ≤ v

theorem le_sum_of_mem {vs : List ℚ} (h0 : ∀ v ∈ vs, 0 ≤ v) {v : ℚ} (hv : v ∈ vs) : v ≤ vs.sum := by
  obtain ⟨A, B, rfl⟩ := List.append_of_mem hv
  have hA : 0 ≤ A.sum := List.sum_nonneg fun x hx => h0 x (List.mem_append_left _ hx)
  have hB : 0 ≤ B.sum := List.sum_nonneg fun x hx =>
    h0 x (List.mem_append_right _ (List.mem_cons_of_mem _ hx))
  rw [List.sum_append, List.sum_cons]
  linarith only [hA, hB]

theorem sum_eq_zero_of {vs : List ℚ} (h0 : ∀ v ∈ vs, 0 ≤ v) (h : vs.filter (0 < ·) = []) :
    vs.sum = 0 := by
  refine List.sum_eq_zero fun v hv => le_antisymm ?_ (h0 v hv)
  have := List.filter_eq_nil_iff.mp h v hv
  simpa using this

/-- A sum of numbers that are not negative lies between the parts exactly when
at most one of them is not zero. -/
theorem sum_between_iff {vs : List ℚ} (h0 : ∀ v ∈ vs, 0 ≤ v) (hne : vs ≠ []) :
    Between vs.sum vs ↔ (vs.filter (0 < ·)).length ≤ 1 := by
  obtain ⟨w, hw⟩ := List.exists_mem_of_ne_nil vs hne
  constructor
  · intro h
    obtain ⟨-, v, hv, hle⟩ := h
    obtain ⟨A, B, rfl⟩ := List.append_of_mem hv
    have hA0 : ∀ x ∈ A, 0 ≤ x := fun x hx => h0 x (List.mem_append_left _ hx)
    have hB0 : ∀ x ∈ B, 0 ≤ x := fun x hx =>
      h0 x (List.mem_append_right _ (List.mem_cons_of_mem _ hx))
    rw [List.sum_append, List.sum_cons] at hle
    have hA := List.sum_nonneg hA0
    have hB := List.sum_nonneg hB0
    -- the other parts add up to at most 0
    have hnil : ∀ {l : List ℚ}, (∀ x ∈ l, 0 ≤ x) → l.sum ≤ 0 → l.filter (0 < ·) = [] := by
      intro l hl hs
      refine List.filter_eq_nil_iff.mpr fun x hx => ?_
      have := le_sum_of_mem hl hx
      simpa using this.trans hs
    rw [List.filter_append, List.filter_cons, hnil hA0 (by linarith only [hle, hA, hB]),
      hnil hB0 (by linarith only [hle, hA, hB])]
    split <;> simp
  · intro h
    refine ⟨⟨w, hw, le_sum_of_mem h0 hw⟩, ?_⟩
    by_cases hpos : vs.filter (0 < ·) = []
    · exact ⟨w, hw, by rw [sum_eq_zero_of h0 hpos]; exact h0 w hw⟩
    · obtain ⟨v, hv⟩ := List.exists_mem_of_ne_nil _ hpos
      obtain ⟨hmem, hv0⟩ := List.mem_filter.mp hv
      obtain ⟨A, B, rfl⟩ := List.append_of_mem hmem
      refine ⟨v, hmem, ?_⟩
      rw [List.filter_append, List.filter_cons, if_pos hv0, List.length_append,
        List.length_cons] at h
      have hA := sum_eq_zero_of (fun x hx => h0 x (List.mem_append_left _ hx))
        (List.length_eq_zero_iff.mp (by omega : (A.filter (0 < ·)).length = 0))
      have hB := sum_eq_zero_of
        (fun x hx => h0 x (List.mem_append_right _ (List.mem_cons_of_mem _ hx)))
        (List.length_eq_zero_iff.mp (by omega : (B.filter (0 < ·)).length = 0))
      rw [List.sum_append, List.sum_cons, hA, hB, zero_add, add_zero]

example : printed [⟨Key.numbered (str "cpu_") (str "_freq_mhz") 3 (by decide), .f3 2400050⟩] =
    bytes (str "cpu_3_freq_mhz: 2400.050\n") := by decide

end EbpfDemo.L1Encoding
