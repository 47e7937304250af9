import EbpfDemo.Core.Tally
import EbpfDemo.L1Encoding.Usable

/-!
# parse_output_metrics adds up

On exact numbers an output is read as a tally (`Core.Tally`): its lines are read
one by one (`splitlines_append`), whether a line ends the call does not depend on
the other lines (`Readable`), and what is found under a key is the sum of the
`numbersOf` that stand under it (`find_parse`).

* `parseOutputMetrics_additive`: behind an output that is empty or ends with a
  newline, the result on both is the sum of the results, and newline-terminated
  pieces give the same result in any order.
-/
namespace EbpfDemo.L1Encoding

open EbpfDemo.Core EbpfDemo.Core.Tally
open EbpfDemo.Core.Binary64 (overflowThreshold)

/-- Exact numbers, with the machine's test for finite values. -/
def checkedFloats : Floats ℚ := ⟨0, (· + ·), id, fun q => |q| < overflowThreshold⟩

theorem tests_checkedFloats : checkedFloats.Tests := fun _ => decide_eq_true_iff

/-- Empty, or ends with a newline. -/
def Terminated (s : Str) : Prop := s = [] ∨ s.getLast? = some 0x0A

/-- The key-wise sum of two results: a key is there if it is in either. -/
structure SumOf (m ma mb : Metrics ℚ) : Prop where
  keys : ∀ k, k ∈ Assoc.keys m ↔ k ∈ Assoc.keys ma ∨ k ∈ Assoc.keys mb
  values : ∀ k, Dict.getD m k 0 = Dict.getD ma k 0 + Dict.getD mb k 0

/-- The numbers of the lines that are added, under their keys. -/
def numbersOf (recLimit : Nat) (lns : List Str) : List (Str × ℚ) :=
  (lns.flatMap (lineItems recLimit)).filterMap accepted

/-- No line ends the call. -/
structure Readable (recLimit : Nat) (lns : List Str) : Prop where
  nesting : ∀ ln ∈ lns, kvLine ln = none → Json.loads recLimit ln ≠ .error .recursion
  ints : ∀ ln ∈ lns, ∀ e ∈ lineItems recLimit ln, IntFits e

variable {recLimit : Nat}

/-! ## Lines -/

theorem readable_append {l m : List Str} :
    Readable recLimit (l ++ m) ↔ Readable recLimit l ∧ Readable recLimit m := by
  constructor
  · rintro ⟨hn, hi⟩
    constructor
    · exact ⟨fun ln h => hn ln (List.mem_append_left _ h),
        fun ln h => hi ln (List.mem_append_left _ h)⟩
    · exact ⟨fun ln h => hn ln (List.mem_append_right _ h),
        fun ln h => hi ln (List.mem_append_right _ h)⟩
  · rintro ⟨hl, hm⟩
    refine ⟨fun ln h => ?_, fun ln h => ?_⟩
    · exact (List.mem_append.mp h).elim (hl.nesting ln) (hm.nesting ln)
    · exact (List.mem_append.mp h).elim (hl.ints ln) (hm.ints ln)

theorem readable_perm {l m : List Str} (h : l.Perm m) (hl : Readable recLimit l) :
    Readable recLimit m :=
  ⟨fun ln hm => hl.nesting ln (h.mem_iff.mpr hm), fun ln hm => hl.ints ln (h.mem_iff.mpr hm)⟩

theorem numbersOf_append (l m : List Str) :
    numbersOf recLimit (l ++ m) = numbersOf recLimit l ++ numbersOf recLimit m := by
  unfold numbersOf
  rw [List.flatMap_append, List.filterMap_append]

theorem numbersOf_perm {l m : List Str} (h : l.Perm m) :
    (numbersOf recLimit l).Perm (numbersOf recLimit m) :=
  (h.flatMap_right _).filterMap _

/-- Newline-terminated pieces are read one after the other. -/
theorem splitlines_flatten : ∀ {ps : List Str}, (∀ p ∈ ps, p.getLast? = some 0x0A) →
    splitlines ps.flatten = ps.flatMap splitlines
  | [], _ => rfl
  | p :: ps, h => by
    rw [List.flatten_cons, splitlines_append (.inr (h p List.mem_cons_self)), List.flatMap_cons,
      splitlines_flatten fun q hq => h q (List.mem_cons_of_mem _ hq)]

/-! ## The result -/

/-- The call returns on readable lines only, with the numbers added up. -/
theorem parse_eq_ok_iff {output : Str} {m : Metrics ℚ} :
    parseOutputMetrics checkedFloats recLimit output = .ok m ↔
      Readable recLimit (splitlines output) ∧
        m = (numbersOf recLimit (splitlines output)).foldl Tally.add [] := by
  have hsum : ∀ hr : Readable recLimit (splitlines output),
      parseOutputMetrics checkedFloats recLimit output =
        .ok ((numbersOf recLimit (splitlines output)).foldl Tally.add []) := by
    intro hr
    have hints : ∀ e ∈ items recLimit output, IntFits e := by
      intro e he
      obtain ⟨ln, hln, he⟩ := List.mem_flatMap.mp he
      exact hr.ints ln hln e he
    rw [parseOutputMetrics_eq hr.nesting]
    exact foldlM_addItem tests_checkedFloats [] hints
  constructor
  · intro h
    have hnest := nesting_of_ok h
    have hr : Readable recLimit (splitlines output) := by
      refine ⟨hnest, fun ln hln e he => ?_⟩
      rw [parseOutputMetrics_eq hnest] at h
      exact ints_of_ok tests_checkedFloats h e (List.mem_flatMap.mpr ⟨ln, hln, he⟩)
    rw [hsum hr] at h
    exact ⟨hr, (Except.ok.inj h).symm⟩
  · rintro ⟨hr, rfl⟩
    exact hsum hr

theorem find_parse {output : Str} {m : Metrics ℚ}
    (h : parseOutputMetrics checkedFloats recLimit output = .ok m) (k : Str) :
    Assoc.find k m = sumUnder k (numbersOf recLimit (splitlines output)) := by
  obtain ⟨-, rfl⟩ := parse_eq_ok_iff.mp h
  rw [find_foldl_add]
  exact Option.merge_none_left

theorem sumOf_of_find {m ma mb : Metrics ℚ}
    (h : ∀ k, Assoc.find k m = plus (Assoc.find k ma) (Assoc.find k mb)) : SumOf m ma mb := by
  constructor
  · intro k
    rw [← Assoc.find_isSome_iff, ← Assoc.find_isSome_iff, ← Assoc.find_isSome_iff, h,
      Option.isSome_merge, Bool.or_eq_true]
  · intro k
    unfold Dict.getD
    rw [h]
    cases Assoc.find k ma <;> cases Assoc.find k mb <;> simp

theorem parse_append {a b : Str} {ma mb : Metrics ℚ} (ha : Terminated a)
    (hma : parseOutputMetrics checkedFloats recLimit a = .ok ma)
    (hmb : parseOutputMetrics checkedFloats recLimit b = .ok mb) :
    ∃ m, parseOutputMetrics checkedFloats recLimit (a ++ b) = .ok m ∧ SumOf m ma mb := by
  have hlines := splitlines_append ha b
  have hr : Readable recLimit (splitlines (a ++ b)) := by
    rw [hlines, readable_append]
    exact ⟨(parse_eq_ok_iff.mp hma).1, (parse_eq_ok_iff.mp hmb).1⟩
  have hm := parse_eq_ok_iff.mpr ⟨hr, rfl⟩
  refine ⟨_, hm, sumOf_of_find fun k => ?_⟩
  rw [find_parse hm, find_parse hma, find_parse hmb, hlines, numbersOf_append, sumUnder_append]

theorem parse_perm {ps qs : List Str} (hp : ps.Perm qs) (hps : ∀ p ∈ ps, p.getLast? = some 0x0A)
    {m : Metrics ℚ} (hm : parseOutputMetrics checkedFloats recLimit ps.flatten = .ok m) :
    ∃ m', parseOutputMetrics checkedFloats recLimit qs.flatten = .ok m' ∧
      ∀ k, Assoc.find k m' = Assoc.find k m := by
  have hlines : (splitlines ps.flatten).Perm (splitlines qs.flatten) := by
    rw [splitlines_flatten hps, splitlines_flatten fun q hq => hps q (hp.mem_iff.mpr hq)]
    exact hp.flatMap_right _
  have hm' := parse_eq_ok_iff.mpr ⟨readable_perm hlines (parse_eq_ok_iff.mp hm).1, rfl⟩
  refine ⟨_, hm', fun k => ?_⟩
  rw [find_parse hm', find_parse hm, sumUnder_perm k (numbersOf_perm hlines)]

/-- **Additivity.** The result on an output behind one that is empty or ends with
a newline is added to the result on that, key by key; and newline-terminated
pieces of an output can be put in any order. -/
theorem parseOutputMetrics_additive (recLimit : Nat) :
    (∀ a b ma mb, Terminated a → parseOutputMetrics checkedFloats recLimit a = .ok ma →
      parseOutputMetrics checkedFloats recLimit b = .ok mb →
      ∃ m, parseOutputMetrics checkedFloats recLimit (a ++ b) = .ok m ∧ SumOf m ma mb) ∧
    ∀ ps qs : List Str, ps.Perm qs → (∀ p ∈ ps, p.getLast? = some 0x0A) →
      ∀ m, parseOutputMetrics checkedFloats recLimit ps.flatten = .ok m →
      ∃ m', parseOutputMetrics checkedFloats recLimit qs.flatten = .ok m' ∧
        ∀ k, Assoc.find k m' = Assoc.find k m :=
  ⟨fun _ _ _ _ => parse_append, fun _ _ hp hps _ => parse_perm hp hps⟩

def keyLine : Str := str "a: 1\n"

def jsonLine : Str := str "\x7b\"a\": 2, \"b\": 3\x7d\n"

/-- A `key: number` line before a JSON line, and the two the other way round. -/
theorem parseOutputMetrics_twoLines : ∃ m m' : Metrics ℚ,
    parseOutputMetrics checkedFloats 10 (keyLine ++ jsonLine) = .ok m ∧
    SumOf m [(str "a", 1)] [(str "a", 2), (str "b", 3)] ∧
    parseOutputMetrics checkedFloats 10 [jsonLine, keyLine].flatten = .ok m' ∧
    ∀ k, Assoc.find k m' = Assoc.find k m := by
  have hk : parseOutputMetrics checkedFloats 10 keyLine = .ok [(str "a", 1)] := by decide +kernel
  have hj : parseOutputMetrics checkedFloats 10 jsonLine = .ok [(str "a", 2), (str "b", 3)] := by
    decide +kernel
  obtain ⟨hsum, hperm⟩ := parseOutputMetrics_additive 10
  obtain ⟨m, hm, hs⟩ := hsum keyLine jsonLine _ _ (.inr (by decide)) hk hj
  obtain ⟨m', hm', hfind⟩ := hperm [keyLine, jsonLine] [jsonLine, keyLine] (.swap ..)
    (by decide) m (by simpa using hm)
  exact ⟨m, m', hm, hs, hm', hfind⟩

end EbpfDemo.L1Encoding
