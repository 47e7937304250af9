import EbpfDemo.L1Encoding.Metrics

/-!
# When parse_output_metrics returns usable numbers

An output is the list of its `items`, the keys and values of its lines in order;
parsing adds up the ones that are `accepted`. Three things go wrong:

* a line nests deeper than `json.loads` follows, and its `RecursionError` is not
  caught;
* an integer of a JSON object is too large for a float, and the `OverflowError`
  of `math.isfinite` is not caught;
* every value of a key is finite, but their sum is not: it is not checked.

`parseOutputMetrics_iff`: the call returns, with keys of at most 128 characters
and finite values, exactly when none of these happens. `parse_hugeInt` and
`parse_infiniteSum` are a one-line and a two-line output on which it does not.
-/
namespace EbpfDemo.L1Encoding

open EbpfDemo.Core EbpfDemo.Core.Binary64

/-- The call returned, every key is short and every value finite. -/
def Usable (r : Except PyErr (Metrics Binary64)) : Prop :=
  ∃ out, r = .ok out ∧ ∀ e ∈ out, e.1.length ≤ 128 ∧ e.2.isFinite = true

/-- The keys and values of a line. -/
def lineItems (recLimit : Nat) (ln : Str) : List (Str × Json.Value) :=
  match kvLine ln with
  | some (key, q) => [(key, .float (.dec q))]
  | none =>
    match Json.loads recLimit ln with
    | .ok (.obj kvs) => kvs
    | _ => []

def items (recLimit : Nat) (output : Str) : List (Str × Json.Value) :=
  (splitlines output).flatMap (lineItems recLimit)

/-- The number a value stands for. -/
def numberOf : Json.Value → Option ℚ
  | .bool b => some (if b then 1 else 0)
  | .int n => some n
  | .float (.dec q) => some q
  | _ => none

/-- The key and number of an item that is added. -/
def accepted (e : Str × Json.Value) : Option (Str × ℚ) :=
  if e.1.length ≤ 128 then
    match numberOf e.2 with
    | some q => if |q| < overflowThreshold then some (e.1, q) else none
    | none => none
  else none

/-- The numbers of a key, in the order they are added. -/
def valuesOf (k : Str) (l : List (Str × ℚ)) : List ℚ := (l.filter fun p => p.1 = k).map Prod.snd

/-- An integer under a short key has a float. -/
def IntFits (e : Str × Json.Value) : Prop :=
  e.1.length ≤ 128 → ∀ n, e.2 = .int n → |(n : ℚ)| < overflowThreshold

/-- Nothing in the output leads to an uncaught exception or an infinite sum. -/
structure Tame (recLimit : Nat) (output : Str) : Prop where
  nesting : ∀ ln ∈ splitlines output, kvLine ln = none →
    Json.loads recLimit ln ≠ .error .recursion
  ints : ∀ e ∈ items recLimit output, IntFits e
  sums : ∀ k, SumFits 0 (valuesOf k ((items recLimit output).filterMap accepted))

/-! ## Lines as items -/

section
variable {F : Type} {N : Floats F} {recLimit : Nat}

theorem parseLine_eq {ln : Str} (h : kvLine ln = none → Json.loads recLimit ln ≠ .error .recursion)
    (out : Metrics F) :
    parseLine N recLimit out ln = (lineItems recLimit ln).foldlM (addItem N) out := by
  unfold parseLine lineItems
  cases hkv : kvLine ln with
  | some kq =>
    obtain ⟨key, q⟩ := kq
    simp only [List.foldlM_cons, List.foldlM_nil, addItem, finiteFloat]
    by_cases hlen : key.length ≤ 128
    · by_cases hf : N.isFinite (N.ofRat q) = true
      · simp [hlen, hf, pure, Except.pure, bind, Except.bind]
      · simp [hlen, hf, pure, Except.pure, bind, Except.bind]
    · simp [hlen, pure, Except.pure, bind, Except.bind]
  | none =>
    have hne := h hkv
    dsimp only
    cases hl : Json.loads recLimit ln with
    | ok v => cases v <;> rfl
    | error e =>
      rw [hl] at hne
      cases e with
      | recursion => exact absurd rfl hne
      | decode => rfl
      | tooManyDigits => rfl

theorem parseLine_recursion {ln : Str} (hkv : kvLine ln = none)
    (h : Json.loads recLimit ln = .error .recursion) (out : Metrics F) :
    parseLine N recLimit out ln = .error .recursion := by
  unfold parseLine
  rw [hkv, h]

theorem foldlM_parseLine : ∀ {lns : List Str} (out : Metrics F),
    (∀ ln ∈ lns, kvLine ln = none → Json.loads recLimit ln ≠ .error .recursion) →
    lns.foldlM (parseLine N recLimit) out =
      (lns.flatMap (lineItems recLimit)).foldlM (addItem N) out
  | [], _, _ => rfl
  | ln :: lns, out, h => by
    rw [List.foldlM_cons, List.flatMap_cons, List.foldlM_append,
      parseLine_eq (h ln List.mem_cons_self)]
    exact bind_congr fun o => foldlM_parseLine o fun x hx => h x (List.mem_cons_of_mem _ hx)

/-- Parsing adds the items one by one. -/
theorem parseOutputMetrics_eq {output : Str}
    (h : ∀ ln ∈ splitlines output, kvLine ln = none → Json.loads recLimit ln ≠ .error .recursion) :
    parseOutputMetrics N recLimit output = (items recLimit output).foldlM (addItem N) [] :=
  foldlM_parseLine [] h

/-- A line that nests too deep ends the call. -/
theorem nesting_of_ok : ∀ {lns : List Str} {out out' : Metrics F},
    lns.foldlM (parseLine N recLimit) out = .ok out' →
    ∀ ln ∈ lns, kvLine ln = none → Json.loads recLimit ln ≠ .error .recursion
  | [], _, _, _ => fun _ h => by cases h
  | ln :: lns, out, out', h => by
    intro x hx hkv hrec
    rw [List.foldlM_cons] at h
    cases hp : parseLine N recLimit out ln with
    | error e => rw [hp] at h; cases h
    | ok o =>
      rw [hp] at h
      rcases List.mem_cons.mp hx with rfl | hx
      · rw [parseLine_recursion hkv hrec] at hp; cases hp
      · exact nesting_of_ok h x hx hkv hrec

end

/-! ## Items as sums -/

section
variable {F : Type} {N : Floats F}

/-- The test for finite values is the one of the machine's floats. -/
def Floats.Tests (N : Floats F) : Prop :=
  ∀ q, N.isFinite (N.ofRat q) = true ↔ |q| < overflowThreshold

theorem tests_binary64 : binary64.Tests := fun _ => isFinite_ofRat

/-- `out[k] = out.get(k, 0.0) + q` -/
def addNumber (N : Floats F) (out : Metrics F) (p : Str × ℚ) : Metrics F :=
  addTo N out p.1 (N.ofRat p.2)

theorem finiteFloat_fits (hN : N.Tests) {v : Json.Value}
    (h : ∀ n, v = .int n → |(n : ℚ)| < overflowThreshold) :
    finiteFloat N v = .ok ((numberOf v).bind fun q =>
      if |q| < overflowThreshold then some (N.ofRat q) else none) := by
  have hone := one_lt_overflowThreshold
  cases v with
  | bool b =>
    have hb : |if b then (1 : ℚ) else 0| < overflowThreshold := by
      cases b
      · simpa using lt_trans one_pos hone
      · simpa using hone
    simp only [finiteFloat, numberOf, Option.bind_some, if_pos hb]
  | int n =>
    have hfin : finiteFloat N (.int n) = .ok (some (N.ofRat n)) := if_pos ((hN n).mpr (h n rfl))
    rw [hfin]
    simp only [numberOf, Option.bind_some, if_pos (h n rfl)]
  | float f =>
    cases f with
    | dec q => simp only [finiteFloat, numberOf, Option.bind_some, hN q]
    | nan => rfl
    | inf neg => rfl
  | null => rfl
  | str s => rfl
  | arr xs => rfl
  | obj kvs => rfl

theorem addItem_fits (hN : N.Tests) {e : Str × Json.Value} (h : IntFits e) (out : Metrics F) :
    addItem N out e = .ok ((accepted e).toList.foldl (addNumber N) out) := by
  unfold addItem accepted
  by_cases hlen : e.1.length ≤ 128
  · rw [if_pos hlen, if_pos hlen, finiteFloat_fits hN (h hlen)]
    cases numberOf e.2 with
    | none => rfl
    | some q =>
      dsimp only [Option.bind_some]
      by_cases hq : |q| < overflowThreshold
      · rw [if_pos hq, if_pos hq]; rfl
      · rw [if_neg hq, if_neg hq]; rfl
  · rw [if_neg hlen, if_neg hlen]; rfl

theorem intFits_of_ok (hN : N.Tests) {e : Str × Json.Value} {out out' : Metrics F}
    (h : addItem N out e = .ok out') : IntFits e := by
  intro hlen n hn
  unfold addItem at h
  rw [if_pos hlen, hn] at h
  by_contra hbig
  have hraise : finiteFloat N (.int n) = .error .overflow := if_neg fun hf => hbig ((hN n).mp hf)
  rw [hraise] at h
  cases h

theorem foldlM_addItem (hN : N.Tests) : ∀ {l : List (Str × Json.Value)} (out : Metrics F),
    (∀ e ∈ l, IntFits e) →
    l.foldlM (addItem N) out = .ok ((l.filterMap accepted).foldl (addNumber N) out)
  | [], _, _ => rfl
  | e :: l, out, h => by
    have ih := foldlM_addItem hN ((accepted e).toList.foldl (addNumber N) out)
      fun x hx => h x (List.mem_cons_of_mem _ hx)
    rw [List.foldlM_cons, addItem_fits hN (h e List.mem_cons_self), List.filterMap_cons]
    refine ih.trans ?_
    cases accepted e <;> rfl

/-- An integer too large for a float ends the call. -/
theorem ints_of_ok (hN : N.Tests) : ∀ {l : List (Str × Json.Value)} {out out' : Metrics F},
    l.foldlM (addItem N) out = .ok out' → ∀ e ∈ l, IntFits e
  | [], _, _, _ => fun _ h => by cases h
  | e :: l, out, out', h => by
    intro x hx
    rw [List.foldlM_cons] at h
    cases he : addItem N out e with
    | error err => rw [he] at h; cases h
    | ok o =>
      rw [he] at h
      rcases List.mem_cons.mp hx with rfl | hx
      · exact intFits_of_ok hN he
      · exact ints_of_ok hN h x hx

end

/-- `out[k] = out.get(k, 0.0) + q` -/
def put (out : Metrics Binary64) (p : Str × ℚ) : Metrics Binary64 :=
  addTo binary64 out p.1 (ofRat p.2)

/-- The value of a key is the sum of its numbers. -/
theorem getD_foldl_put (k : Str) : ∀ (l : List (Str × ℚ)) (out : Metrics Binary64),
    Dict.getD (l.foldl put out) k zero =
      (valuesOf k l).foldl (fun x q => add x (ofRat q)) (Dict.getD out k zero)
  | [], _ => rfl
  | p :: l, out => by
    rw [List.foldl_cons, getD_foldl_put k l, put, addTo, Dict.getD_set]
    unfold valuesOf
    by_cases hk : p.1 = k
    · rw [if_pos hk.symm, List.filter_cons_of_pos (by simp [hk]), hk]; rfl
    · rw [if_neg fun e => hk e.symm, List.filter_cons_of_neg (by simp [hk])]

theorem nodup_foldl_put : ∀ (l : List (Str × ℚ)) {out : Metrics Binary64},
    (Assoc.keys out).Nodup → (Assoc.keys (l.foldl put out)).Nodup
  | [], _, h => h
  | _ :: l, _, h => nodup_foldl_put l (Dict.nodup_set h)

theorem mem_keys_foldl_put : ∀ {l : List (Str × ℚ)} {out : Metrics Binary64} {k : Str},
    k ∈ Assoc.keys (l.foldl put out) → (∃ p ∈ l, p.1 = k) ∨ k ∈ Assoc.keys out
  | [], _, _, h => .inr h
  | p :: l, out, k, h => by
    rcases mem_keys_foldl_put (l := l) h with ⟨x, hx, hk⟩ | hk
    · exact .inl ⟨x, List.mem_cons_of_mem _ hx, hk⟩
    · rcases mem_keys_addTo.mp hk with rfl | hk
      · exact .inl ⟨p, List.mem_cons_self, rfl⟩
      · exact .inr hk

theorem accepted_spec {e : Str × Json.Value} {p : Str × ℚ} (h : accepted e = some p) :
    p.1.length ≤ 128 ∧ |p.2| < overflowThreshold := by
  unfold accepted at h
  split at h
  · rename_i hlen
    split at h
    · split at h
      · cases h; exact ⟨hlen, ‹_›⟩
      · cases h
    · cases h
  · cases h

theorem accepted_items {l : List (Str × Json.Value)} :
    ∀ p ∈ l.filterMap accepted, p.1.length ≤ 128 ∧ |p.2| < overflowThreshold := by
  intro p hp
  obtain ⟨e, -, he⟩ := List.mem_filterMap.mp hp
  exact accepted_spec he

theorem valuesOf_lt {l : List (Str × Json.Value)} {k : Str} :
    ∀ q ∈ valuesOf k (l.filterMap accepted), |q| < overflowThreshold := by
  intro q hq
  obtain ⟨p, hp, rfl⟩ := List.mem_map.mp hq
  exact (accepted_items p (List.mem_of_mem_filter hp)).2

/-- The values of the result are finite exactly when the sums fit. -/
theorem finite_iff_sums (l : List (Str × Json.Value)) :
    (∀ e ∈ (l.filterMap accepted).foldl put [], e.2.isFinite = true) ↔
      ∀ k, SumFits 0 (valuesOf k (l.filterMap accepted)) := by
  have hsum : ∀ k, (Dict.getD ((l.filterMap accepted).foldl put []) k zero).isFinite = true ↔
      SumFits 0 (valuesOf k (l.filterMap accepted)) := by
    intro k
    rw [getD_foldl_put]
    exact isFinite_foldl valuesOf_lt representable_zero
  have hnodup : (Assoc.keys ((l.filterMap accepted).foldl put [])).Nodup :=
    nodup_foldl_put _ List.nodup_nil
  constructor
  · intro h k
    rw [← hsum]
    unfold Dict.getD
    cases hf : Assoc.find k ((l.filterMap accepted).foldl put []) with
    | none => rfl
    | some v => exact h (k, v) (Assoc.mem_of_find hf)
  · intro h e he
    have hk := (hsum e.1).mpr (h e.1)
    unfold Dict.getD at hk
    rw [Assoc.find_of_mem (k := e.1) (v := e.2) hnodup he] at hk
    exact hk

theorem usable_of_tame {recLimit : Nat} {output : Str} (h : Tame recLimit output) :
    Usable (parseOutputMetrics binary64 recLimit output) := by
  refine ⟨((items recLimit output).filterMap accepted).foldl put [], ?_, fun e he => ⟨?_, ?_⟩⟩
  · rw [parseOutputMetrics_eq h.nesting]; exact foldlM_addItem tests_binary64 [] h.ints
  · rcases mem_keys_foldl_put (Assoc.mem_keys_of_mem he) with ⟨p, hp, hk⟩ | hk
    · rw [← hk]; exact (accepted_items p hp).1
    · cases hk
  · exact (finite_iff_sums _).mpr h.sums e he

theorem tame_of_usable {recLimit : Nat} {output : Str}
    (h : Usable (parseOutputMetrics binary64 recLimit output)) : Tame recLimit output := by
  obtain ⟨out, hout, hfin⟩ := h
  have hnest := nesting_of_ok hout
  rw [parseOutputMetrics_eq hnest] at hout
  have hints := ints_of_ok tests_binary64 hout
  refine ⟨hnest, hints, (finite_iff_sums _).mp fun e he => ?_⟩
  rw [foldlM_addItem tests_binary64 [] hints] at hout
  cases hout
  exact (hfin e he).2

/-- **Usable numbers.** The call returns with short keys and finite values
exactly when no line nests too deep, no integer is too large for a float and no
running sum of a key reaches the overflow threshold. -/
theorem parseOutputMetrics_iff (recLimit : Nat) (output : Str) :
    Usable (parseOutputMetrics binary64 recLimit output) ↔ Tame recLimit output :=
  ⟨tame_of_usable, usable_of_tame⟩

/-- The line `\x7b"a":1000...\x7d` with an integer of 310 digits. -/
def hugeInt : Str := str "\x7b\"a\":1" ++ List.replicate 309 0x30 ++ str "\x7d"

/-- Two lines with a value of `1e308` each. -/
def twice : Str := str "\x7b\"a\":1e308\x7d\n\x7b\"a\":1e308\x7d"

/-- **Counterexample.** `OverflowError` leaves the call. -/
theorem parse_hugeInt : ¬ Usable (parseOutputMetrics binary64 1000 hugeInt) := by
  have h : (parseOutputMetrics binary64 1000 hugeInt).map Assoc.keys = .error .overflow := by
    decide +kernel
  rintro ⟨out, hout, -⟩
  rw [hout] at h
  cases h

theorem parse_infiniteSum :
    (parseOutputMetrics binary64 1000 twice).map (·.map fun e => e.2.isFinite) = .ok [false] := by
  decide +kernel

end EbpfDemo.L1Encoding
