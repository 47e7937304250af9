import Mathlib.Data.List.Sort
import EbpfDemo.L1Encoding.Report
import EbpfDemo.L3Loader.CompleteDrain

/-!
# irq_stat: from the map to the client's sum

A poll drains `irq_stats` into `data`, sorts it, prints a JSON line for each of the
first five entries and one line `others` for what the rest adds up to; the client
adds up what the lines say. `Qsort` is what the C library promises of `qsort`: an
order in which nothing stands in front of what the comparison puts before it.

* `irqLines_eq`: the lines are the first five entries, and one line for the others unless
  they add up to nothing;
* `sum_irqLines`: the lines have the sum of the entries, if that does not wrap;
* `parse_irqText`: the client adds up the counts of the lines, whatever names they
  have, one of them `others` or not;
* `irqReport_conserved`: one poll of any content.
-/
namespace EbpfDemo.L3Loader

open EbpfDemo.Core EbpfDemo.L1Encoding
open L2Kernel

/-- What the standard says of `qsort`; equal elements come in any order. -/
structure Qsort {α : Type} (compare : α → α → Int) where
  sort : List α → List α
  perm : ∀ l, (sort l).Perm l
  sorted : ∀ l, (sort l).Pairwise fun a b => compare a b ≤ 0

namespace IrqReport

/-- mirrors src/my_tools/cpu/irq_stat.c:9-12 -/
structure Entry where
  name : Comm
  count : UInt64

/-- mirrors src/my_tools/cpu/irq_stat.c:14-19 -/
def compareEntries (left right : Entry) : Int :=
  if left.count < right.count then 1 else if left.count > right.count then -1 else 0

theorem compareEntries_le {a b : Entry} : compareEntries a b ≤ 0 ↔ b.count ≤ a.count := by
  unfold compareEntries
  rw [UInt64.le_iff_toNat_le]
  by_cases h : a.count < b.count
  · rw [if_pos h]
    have := UInt64.lt_iff_toNat_lt.mp h
    omega
  · rw [if_neg h]
    have := UInt64.lt_iff_toNat_lt.not.mp h
    split <;> omega

def showLimit : Nat := 5

/-- The entries that are printed, and `others_count`. -/
def printLoop (others : UInt64) : Nat → List Entry → List Entry × UInt64
  | _, [] => ([], others)
  | i, e :: data =>
    if i < showLimit then
      let rest := printLoop others (i + 1) data
      (e :: rest.1, rest.2)
    else printLoop (others + e.count) (i + 1) data

/-- The name of the last line. -/
def othersName : Comm := ⟨bytes (str "others"), by decide, by decide⟩

/-- The lines of a poll, as entries.
mirrors src/my_tools/cpu/irq_stat.c:73-84 -/
def irqLines (data : List Entry) : List Entry :=
  let printed := printLoop 0 0 data
  printed.1 ++ if printed.2 > 0 then [⟨othersName, printed.2⟩] else []

def irqText (lines : List Entry) : List UInt8 := lines.flatMap fun e => irqLine e.name e.count

/-- `data`, as the walk filled it.
mirrors src/my_tools/cpu/irq_stat.c:60-62 -/
def dataOf (seen : List (Comm × MyIrqInfo)) : List Entry := seen.map fun e => ⟨e.1, e.2.count⟩

/-- What a list of entries adds up to. -/
def sumCounts (l : List Entry) : Nat := (l.map fun e => e.count.toNat).sum

@[simp] theorem sumCounts_cons (e : Entry) (l : List Entry) :
    sumCounts (e :: l) = e.count.toNat + sumCounts l := by simp [sumCounts]

@[simp] theorem sumCounts_append (l m : List Entry) :
    sumCounts (l ++ m) = sumCounts l + sumCounts m := by simp [sumCounts]

theorem sumCounts_perm {l m : List Entry} (h : l.Perm m) : sumCounts l = sumCounts m :=
  (h.map _).sum_eq

/-! ## The lines of a poll -/

/-- The loop prints up to `show_limit` entries and adds up the others. -/
theorem printLoop_eq (data : List Entry) : ∀ (others : UInt64) (i : Nat),
    (printLoop others i data).1 = data.take (showLimit - i) ∧
    (printLoop others i data).2.toNat =
      (others.toNat + sumCounts (data.drop (showLimit - i))) % 2 ^ 64 := by
  induction data with
  | nil =>
    intro others i
    have := others.toNat_lt
    rw [List.take_nil, List.drop_nil]
    exact ⟨rfl, by show others.toNat = (others.toNat + 0) % 2 ^ 64; omega⟩
  | cons e data ih =>
    intro others i
    unfold printLoop
    by_cases hi : i < showLimit
    · obtain ⟨h1, h2⟩ := ih others (i + 1)
      rw [if_pos hi, show showLimit - i = showLimit - (i + 1) + 1 by omega, List.take_succ_cons,
        List.drop_succ_cons]
      exact ⟨congrArg (e :: ·) h1, h2⟩
    · obtain ⟨h1, h2⟩ := ih (others + e.count) (i + 1)
      rw [show showLimit - (i + 1) = 0 by omega, List.drop_zero, List.take_zero] at *
      rw [if_neg hi, show showLimit - i = 0 by omega, List.drop_zero, List.take_zero]
      refine ⟨h1, ?_⟩
      rw [h2, UInt64.toNat_add, sumCounts_cons]
      omega

/-- The line for what is folded, none if that adds up to nothing. -/
def othersLine (folded : List Entry) : List Entry :=
  if 0 < sumCounts folded then [⟨othersName, .ofNat (sumCounts folded)⟩] else []

theorem sumCounts_split (data : List Entry) :
    sumCounts data = sumCounts (data.take showLimit) + sumCounts (data.drop showLimit) := by
  rw [← sumCounts_append, List.take_append_drop]

/-- The first entries have lines of their own, the others one together, unless their sum
wraps. -/
theorem irqLines_eq {data : List Entry} (h : sumCounts data < 2 ^ 64) :
    irqLines data = data.take showLimit ++ othersLine (data.drop showLimit) := by
  obtain ⟨h1, h2⟩ := printLoop_eq data 0 0
  have hlt : sumCounts (data.drop showLimit) < 2 ^ 64 :=
    Nat.lt_of_le_of_lt (by rw [sumCounts_split data]; exact Nat.le_add_left _ _) h
  have hothers : (printLoop 0 0 data).2 = .ofNat (sumCounts (data.drop showLimit)) := by
    refine UInt64.toNat_inj.mp ?_
    rw [h2, UInt64.toNat_ofNat']
    exact congrArg (· % 2 ^ 64) (Nat.zero_add _)
  have hpos : (0 : UInt64) < .ofNat (sumCounts (data.drop showLimit)) ↔
      0 < sumCounts (data.drop showLimit) := by
    rw [UInt64.lt_iff_toNat_lt, UInt64.toNat_ofNat', Nat.mod_eq_of_lt hlt]; rfl
  unfold irqLines othersLine
  dsimp only
  rw [h1, hothers]
  simp only [gt_iff_lt, hpos, Nat.sub_zero]

theorem sum_othersLine {folded : List Entry} (h : sumCounts folded < 2 ^ 64) :
    sumCounts (othersLine folded) = sumCounts folded := by
  unfold othersLine
  split
  · rw [sumCounts_cons, UInt64.toNat_ofNat', Nat.mod_eq_of_lt h]; rfl
  · exact (Nat.eq_zero_of_not_pos ‹_›).symm

theorem length_irqLines (data : List Entry) : (irqLines data).length ≤ 6 := by
  have h := (printLoop_eq data 0 0).1
  unfold irqLines
  dsimp only
  rw [h, List.length_append, List.length_take]
  unfold showLimit
  split <;> simp

/-- The lines add up to what the entries do, unless that wraps. -/
theorem sum_irqLines {data : List Entry} (h : sumCounts data < 2 ^ 64) :
    sumCounts (irqLines data) = sumCounts data := by
  have hsplit := sumCounts_split data
  rw [irqLines_eq h, sumCounts_append, sum_othersLine (by omega), ← hsplit]

/-! ## Their text -/

/-- Printable ASCII without quote and backslash. -/
def PlainName (c : Comm) : Prop :=
  ∀ b ∈ c.bytes, (0x20 ≤ b.toNat ∧ b.toNat < 0x7F) ∧ b.toNat ≠ 0x22 ∧ b.toNat ≠ 0x5C

instance (c : Comm) : Decidable (PlainName c) := inferInstanceAs (Decidable (∀ b ∈ c.bytes, _))

theorem plainName_others : PlainName othersName := by decide +kernel

/-- The characters of a name. -/
def nameText (c : Comm) : Str := c.bytes.map UInt8.toNat

/-- A line without its end. -/
def lineText (e : Entry) : Str :=
  0x7B :: 0x22 :: (nameText e.name ++ 0x22 :: 0x3A :: 0x20 :: (decimal e.count.toNat ++ [0x7D]))

theorem plain_nameText {c : Comm} (h : PlainName c) {x : Nat} (hx : x ∈ nameText c) :
    plainChar x = true ∧ x < 0x80 := by
  obtain ⟨b, hb, rfl⟩ := List.mem_map.mp hx
  have := h b hb
  exact ⟨plainChar_iff.mpr (by omega), by omega⟩

theorem lineText_char {e : Entry} (h : PlainName e.name) {x : Nat} (hx : x ∈ lineText e) :
    isBreak x = false ∧ x < 0x80 := by
  simp only [lineText, List.mem_cons, List.mem_append, List.not_mem_nil, or_false] at hx
  rcases hx with rfl | rfl | hx | rfl | rfl | rfl | hx | rfl
  iterate 2 decide
  · exact ⟨isBreak_of_plain (plain_nameText h hx).1, (plain_nameText h hx).2⟩
  iterate 3 decide
  · exact ⟨isBreak_of_isKeyChar (isKeyChar_decimal hx), isKeyChar_ascii (isKeyChar_decimal hx)⟩
  · decide

theorem toNat_irqLine {e : Entry} :
    (irqLine e.name e.count).map UInt8.toNat = lineText e ++ [0x0A] := by
  have htail : ∀ x ∈ [0x22] ++ str ": " ++ decimal e.count.toNat ++ str "\x7d\n", x < 0x80 := by
    intro x hx
    simp only [List.mem_append] at hx
    rcases hx with ((hx | hx) | hx) | hx
    · rw [List.mem_singleton.mp hx]; decide
    · exact (show ∀ x ∈ str ": ", x < 0x80 by decide) x hx
    · have := decimal_digit hx; omega
    · exact (show ∀ x ∈ str "\x7d\n", x < 0x80 by decide) x hx
  unfold irqLine
  rw [List.map_append, List.map_append, toNat_bytes (by decide), toNat_bytes htail]
  have hopen : str "\x7b" = [0x7B] := rfl
  have hcolon : str ": " = [0x3A, 0x20] := rfl
  have hclose : str "\x7d\n" = [0x7D, 0x0A] := rfl
  simp [lineText, nameText, hopen, hcolon, hclose]

theorem decode_irqText {lines : List Entry} (h : ∀ e ∈ lines, PlainName e.name) :
    decode (irqText lines) = lines.flatMap fun e => lineText e ++ [0x0A] := by
  have hmap : (irqText lines).map UInt8.toNat = lines.flatMap fun e => lineText e ++ [0x0A] := by
    unfold irqText
    rw [List.map_flatMap]
    exact congrArg (List.flatMap · lines) (funext fun e => toNat_irqLine)
  rw [decode_ascii, hmap]
  intro b hb
  have hmem : b.toNat ∈ lines.flatMap fun e => lineText e ++ [0x0A] :=
    hmap ▸ List.mem_map_of_mem hb
  obtain ⟨e, he, hx⟩ := List.mem_flatMap.mp hmem
  rcases List.mem_append.mp hx with hx | hx
  · exact (lineText_char (h e he) hx).2
  · rw [List.mem_singleton.mp hx]; decide

theorem splitlines_irqText {lines : List Entry} (h : ∀ e ∈ lines, PlainName e.name) :
    splitlines (decode (irqText lines)) = lines.map lineText := by
  rw [decode_irqText h]
  induction lines with
  | nil => rfl
  | cons e lines ih =>
    rw [List.flatMap_cons, List.append_assoc, List.singleton_append,
      splitlines_line fun x hx => (lineText_char (h e List.mem_cons_self) hx).1,
      ih fun x hx => h x (List.mem_cons_of_mem _ hx)]
    rfl

/-- The line read by the loop of `parse_output_metrics`. -/
theorem parseLine_lineText (recLimit : Nat) (out : Metrics ℚ) {e : Entry} (h : PlainName e.name) :
    parseLine exactFloats (recLimit + 1) out (lineText e) =
      .ok (addTo exactFloats out (nameText e.name) e.count.toNat) := by
  have hlen : (nameText e.name).length ≤ 128 := by
    have := e.name.length_le
    rw [nameText, List.length_map]; omega
  unfold parseLine
  rw [lineText, kvLine_brace, loads_irqLine (fun c hc => (plain_nameText h hc).1) e.count.toNat_lt]
  simp only [List.foldlM_cons, List.foldlM_nil, addItem, if_pos hlen]
  rfl

theorem parse_irqText (recLimit : Nat) {lines : List Entry} (h : ∀ e ∈ lines, PlainName e.name) :
    parseOutputMetrics exactFloats (recLimit + 1) (decode (irqText lines)) =
      .ok (lines.foldl (fun out e => addTo exactFloats out (nameText e.name) e.count.toNat) []) := by
  unfold parseOutputMetrics
  rw [splitlines_irqText h]
  generalize ([] : Metrics ℚ) = out
  induction lines generalizing out with
  | nil => rfl
  | cons e lines ih =>
    rw [List.map_cons, List.foldlM_cons, parseLine_lineText _ _ (h e List.mem_cons_self),
      List.foldl_cons]
    exact ih (fun x hx => h x (List.mem_cons_of_mem _ hx)) _

/-- What is added to a key is added to the sum of the values. -/
theorem sum_addTo (out : Metrics ℚ) (k : Str) (v : ℚ) :
    ((addTo exactFloats out k v).map Prod.snd).sum = (out.map Prod.snd).sum + v := by
  unfold addTo Dict.getD
  induction out with
  | nil => simp [Dict.set, exactFloats, Assoc.find]
  | cons e out ih =>
    unfold Dict.set Assoc.find
    by_cases he : e.1 = k
    · rw [if_pos he, if_pos he]
      simp only [Option.getD_some, List.map_cons, List.sum_cons, exactFloats]
      ring
    · rw [if_neg he, if_neg he, List.map_cons, List.sum_cons, ih, List.map_cons, List.sum_cons,
        add_assoc]

theorem sum_metrics (lines : List Entry) (out : Metrics ℚ) :
    ((lines.foldl (fun out e => addTo exactFloats out (nameText e.name) e.count.toNat) out).map
      Prod.snd).sum = (out.map Prod.snd).sum + sumCounts lines := by
  induction lines generalizing out with
  | nil => simp [sumCounts]
  | cons e lines ih =>
    rw [List.foldl_cons, ih, sum_addTo, sumCounts_cons]
    push_cast
    ring

/-! ## One poll -/

/-- The lines of the poll that ended in `t`. -/
def reported (q : Qsort compareEntries) (t : DState Comm MyIrqInfo) : List Entry :=
  irqLines (q.sort (dataOf t.seen))

/-- The text of the poll that ended in `t`. -/
def printedText (q : Qsort compareEntries) (t : DState Comm MyIrqInfo) : Str :=
  decode (irqText (reported q t))

/-- `shown` are printed one by one, with their names and counts, `folded` as one line, and
nothing that is folded is larger than what is shown. -/
structure TopLines (lines : List Str) (shown folded : List Entry) : Prop where
  printed : lines = (shown ++ othersLine folded).map lineText
  full : folded = [] ∨ shown.length = showLimit
  few : shown.length ≤ showLimit
  top : ∀ a ∈ shown, ∀ b ∈ folded, b.count ≤ a.count

/-- The poll of `m` that ended in `t`: `data` held all entries, the map is empty, the
lines are few, those of the largest entries and one for the rest, and the client has the
sum. -/
structure Conserved (q : Qsort compareEntries) (recLimit : Nat) (m : HashMap Comm MyIrqInfo)
    (t : DState Comm MyIrqInfo) : Prop where
  fits : (dataOf t.seen).length ≤ 512
  emptied : t.map.elems = []
  lines : (splitlines (printedText q t)).length ≤ 6
  top : ∃ shown folded, (shown ++ folded).Perm (dataOf m.elems) ∧
    TopLines (splitlines (printedText q t)) shown folded
  sum : ∃ out, parseOutputMetrics exactFloats (recLimit + 1) (printedText q t) = .ok out ∧
    (out.map Prod.snd).sum = m.weigh fun _ i => i.count.toNat

variable {q : Qsort compareEntries} {data : List Entry}

/-- Nothing behind the limit is larger than what stands in front of it. -/
theorem top_sorted (q : Qsort compareEntries) (data : List Entry) :
    ∀ a ∈ (q.sort data).take showLimit, ∀ b ∈ (q.sort data).drop showLimit, b.count ≤ a.count := by
  have h := q.sorted data
  rw [← List.take_append_drop showLimit (q.sort data)] at h
  exact fun a ha b hb => compareEntries_le.mp ((List.pairwise_append.mp h).2.2 a ha b hb)

/-- The lines of sorted entries. -/
theorem topLines_sorted (hplain : ∀ e ∈ irqLines (q.sort data), PlainName e.name)
    (hsum : sumCounts (q.sort data) < 2 ^ 64) :
    TopLines (splitlines (decode (irqText (irqLines (q.sort data)))))
      ((q.sort data).take showLimit) ((q.sort data).drop showLimit) where
  printed := by rw [splitlines_irqText hplain, irqLines_eq hsum]
  full := by
    rcases Nat.le_total (q.sort data).length showLimit with h | h
    · exact .inl (List.drop_eq_nil_of_le h)
    · exact .inr (List.length_take_of_le h)
  few := List.length_take_le _ _
  top := top_sorted q data

theorem plain_irqLines (h : ∀ e ∈ data, PlainName e.name) :
    ∀ e ∈ irqLines data, PlainName e.name := by
  intro e he
  unfold irqLines at he
  dsimp only at he
  rw [(printLoop_eq data 0 0).1] at he
  rcases List.mem_append.mp he with he | he
  · exact h e (List.mem_of_mem_take he)
  · split at he
    · rw [List.mem_singleton.mp he]; exact plainName_others
    · cases he

/-- **One poll of irq_stat.** From any content of at most 512 printable names without
quote and backslash, whose counts add up to less than 2^64, the poll ends; it leaves
the map empty and prints at most six lines, one for each of the five largest entries and
one for the others, from which the client gets the sum of the counts in the map. -/
theorem irqReport_conserved (q : Qsort compareEntries) (recLimit : Nat)
    (m : HashMap Comm MyIrqInfo) (hsize : m.size ≤ 512) (hplain : ∀ k ∈ m.keys, PlainName k)
    (hsum : (m.weigh fun _ i => i.count.toNat) < 2 ^ 64) :
    ∃ fuel t, poll irqStat fuel (begin irqStat m) = some t ∧ Conserved q recLimit m t := by
  obtain ⟨fuel, t, ht, hempty, hperm⟩ :=
    drainsAll_of_null (d := irqStat) (fun _ _ => rfl) rfl (fun _ => rfl) m
  have hdata : ∀ e ∈ q.sort (dataOf t.seen), PlainName e.name := by
    intro e he
    obtain ⟨x, hx, rfl⟩ := List.mem_map.mp ((q.perm _).mem_iff.mp he)
    exact hplain x.1 (Assoc.mem_keys_of_mem (hperm.mem_iff.mp hx))
  have htotal : sumCounts (q.sort (dataOf t.seen)) = m.weigh fun _ i => i.count.toNat := by
    have hseen := HashMap.weigh_perm (g := fun _ (i : MyIrqInfo) => i.count.toNat) hperm
    rw [sumCounts_perm (q.perm _), HashMap.weigh, ← hseen]
    unfold sumCounts dataOf
    rw [List.map_map]; rfl
  have hlines := plain_irqLines hdata
  have hfits : sumCounts (q.sort (dataOf t.seen)) < 2 ^ 64 := htotal ▸ hsum
  refine ⟨fuel, t, ht, ?_, hempty, ?_, ⟨_, _, ?_, topLines_sorted hlines hfits⟩, _,
    parse_irqText recLimit hlines, ?_⟩
  · rw [dataOf, List.length_map, hperm.length_eq]; exact hsize
  · unfold printedText reported
    rw [splitlines_irqText hlines, List.length_map]
    exact length_irqLines _
  · rw [List.take_append_drop]
    exact (q.perm _).trans (hperm.map _)
  · rw [sum_metrics, reported, sum_irqLines hfits, htotal]
    simp

/-- Insertion into the sorted rest. -/
def insertion : Qsort compareEntries where
  sort := List.insertionSort fun a b => compareEntries a b ≤ 0
  perm := List.perm_insertionSort _
  sorted l := by
    have : Std.Total fun a b : Entry => compareEntries a b ≤ 0 :=
      ⟨fun a b => by rw [compareEntries_le, compareEntries_le]; exact (UInt64.le_total _ _).symm⟩
    have : IsTrans Entry fun a b => compareEntries a b ≤ 0 :=
      ⟨fun a b c hab hbc => compareEntries_le.mpr
        (UInt64.le_trans (compareEntries_le.mp hbc) (compareEntries_le.mp hab))⟩
    exact List.pairwise_insertionSort _ l

/-- Six names, one of them `others`. -/
def sixNames : HashMap Comm MyIrqInfo :=
  [(nameA, 3), (nameB, 5), (othersName, 7), (⟨[99], by decide, by decide⟩, 1),
    (⟨[100], by decide, by decide⟩, 2), (⟨[], by decide, by decide⟩, 4)].foldl
    (fun m e => m.put e.1 ⟨e.2⟩) (.empty (fun _ => 0) 512)

theorem irqReport_sixNames :
    ∃ fuel t, poll irqStat fuel (begin irqStat sixNames) = some t ∧
      Conserved insertion 999 sixNames t :=
  irqReport_conserved insertion 999 sixNames (by decide) (by decide +kernel) (by decide)

end IrqReport
end EbpfDemo.L3Loader
