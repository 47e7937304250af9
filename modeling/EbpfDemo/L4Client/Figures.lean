import EbpfDemo.L4Client.PageEvents
import EbpfDemo.L4Client.ToolConfig

/-!
# The figures of a run

The server sums the metrics up and names the five largest; the page draws the metrics.
A sort in between puts them in another order: by value on the server, and on the page
the keys that are array indices come first.

* `topKeys_largest`: the five are entries of the metrics, in descending order and ties in
  the order they were found; nothing left out is larger than one of them, the first is
  the maximum.
* `chart_complete`: of a success event the page can read, the chart has every metric
  once, with its value and in the order of `Object.entries`, except the counts of a
  latency tool; or no chart is left.

The order of values is that of exact numbers; an infinite sum or a NaN has none here.
-/
namespace EbpfDemo.L4Client

open EbpfDemo.Core EbpfDemo.L1Encoding

/-! ## The five largest -/

namespace ToolConfig

/-- `key=lambda x: x[1], reverse=True` -/
def descending (a b : Str × ℚ) : Bool := b.2 ≤ a.2

def byValue (metrics : Metrics ℚ) : Metrics ℚ := metrics.mergeSort descending

variable {metrics : Metrics ℚ}

theorem descending_trans (a b c : Str × ℚ) (hab : descending a b = true)
    (hbc : descending b c = true) : descending a c = true := by
  simp only [descending, decide_eq_true_eq] at *
  exact hbc.trans hab

theorem descending_total (a b : Str × ℚ) : (descending a b || descending b a) = true := by
  simp only [descending, Bool.or_eq_true, decide_eq_true_eq]
  exact le_total b.2 a.2

theorem byValue_perm (metrics : Metrics ℚ) : (byValue metrics).Perm metrics :=
  List.mergeSort_perm metrics _

theorem byValue_pairwise (metrics : Metrics ℚ) :
    (byValue metrics).Pairwise fun a b => b.2 ≤ a.2 := by
  have h := List.pairwise_mergeSort descending_trans descending_total metrics
  exact h.imp fun hab => of_decide_eq_true hab

/-- Entries of one value stay in their order. -/
theorem byValue_stable (metrics : Metrics ℚ) (q : ℚ) :
    (byValue metrics).filter (fun e => e.2 = q) = metrics.filter fun e => e.2 = q := by
  have hties : (metrics.filter fun e => e.2 = q).Pairwise fun a b => descending a b = true := by
    apply List.pairwise_of_forall_mem_list
    intro a ha b hb
    have ha := of_decide_eq_true (List.mem_filter.mp ha).2
    have hb := of_decide_eq_true (List.mem_filter.mp hb).2
    exact decide_eq_true (hb.trans ha.symm).le
  have hsub : (metrics.filter fun e => e.2 = q).Sublist (byValue metrics) :=
    List.sublist_mergeSort descending_trans descending_total hties List.filter_sublist
  have hfilter := hsub.filter fun e => decide (e.2 = q)
  rw [List.filter_filter] at hfilter
  simp only [Bool.and_self] at hfilter
  exact (hfilter.eq_of_length ((byValue_perm metrics).filter _).length_eq.symm).symm

/-- The first of a descending list is its maximum. -/
theorem max_of_pairwise {e : Str × ℚ} {l : Metrics ℚ}
    (h : (e :: l).Pairwise fun a b => b.2 ≤ a.2) (hp : (e :: l).Perm metrics) :
    (metrics.map Prod.snd).max? = some e.2 := by
  refine List.max?_eq_some_iff.mpr ⟨?_, fun q hq => ?_⟩
  · exact List.mem_map_of_mem (hp.mem_iff.mp List.mem_cons_self)
  · obtain ⟨f, hf, rfl⟩ := List.mem_map.mp hq
    rcases List.mem_cons.mp (hp.mem_iff.mpr hf) with rfl | hf
    · exact le_rfl
    · exact (List.pairwise_cons.mp h).1 f hf

variable {toolConfigs defaultConfig : Obj} {toolName : Str} {duration : ℚ} {s : Summary}

/-- What a summary holds, if there is one. -/
theorem summary_fields
    (h : summarizeToolMetrics toolConfigs defaultConfig toolName metrics duration = .ok (some s)) :
    metrics ≠ [] ∧ s.count = metrics.length ∧ s.max = (metrics.map Prod.snd).max?.getD 0 ∧
      s.topKeys = (byValue metrics).take 5 := by
  unfold summarizeToolMetrics at h
  dsimp only at h
  split at h
  · cases h
  · rename_i hne
    cases hcat : subscript (Dict.getD toolConfigs toolName (.obj defaultConfig)) (str "category") with
    | error e =>
      rw [hcat] at h
      cases h
    | ok toolType =>
      rw [hcat] at h
      cases h
      exact ⟨fun h => hne (congrArg (List.map Prod.snd) h), List.length_map _, rfl, rfl⟩

/-- **The five largest.** The entries named are the first five in descending order, equal
values in the order of the metrics; nothing left out is larger than one of them, and the
first has the maximum. -/
theorem topKeys_largest
    (h : summarizeToolMetrics toolConfigs defaultConfig toolName metrics duration = .ok (some s)) :
    s.topKeys.length = min 5 s.count ∧ (s.topKeys.Pairwise fun a b => b.2 ≤ a.2) ∧
      (∃ others, (s.topKeys ++ others).Perm metrics ∧
        ∀ e ∈ s.topKeys, ∀ f ∈ others, f.2 ≤ e.2) ∧
      (∀ q, (s.topKeys.filter fun e => e.2 = q) <+: metrics.filter fun e => e.2 = q) ∧
      s.topKeys.head?.map Prod.snd = some s.max := by
  obtain ⟨hne, hcount, hmax, htop⟩ := summary_fields h
  have hperm := byValue_perm metrics
  have hsplit := (byValue metrics).take_append_drop 5
  have hpair := byValue_pairwise metrics
  rw [hcount, hmax, htop]
  refine ⟨?_, ?_, ⟨(byValue metrics).drop 5, ?_, ?_⟩, fun q => ?_, ?_⟩
  · rw [List.length_take, hperm.length_eq]
  · exact hpair.sublist (List.take_sublist 5 _)
  · rw [hsplit]
    exact hperm
  · rw [← hsplit] at hpair
    exact (List.pairwise_append.mp hpair).2.2
  · rw [← byValue_stable metrics q]
    exact (List.take_prefix 5 (byValue metrics)).filter _
  · cases hl : byValue metrics with
    | nil =>
      rw [hl] at hperm
      exact absurd hperm.nil_eq.symm hne
    | cons e l =>
      rw [hl] at hpair hperm
      rw [max_of_pairwise hpair hperm]
      rfl

/-- Two entries of the value 3, found in this order, and four others. -/
def six : Metrics ℚ :=
  [(str "a", 1), (str "b", 3), (str "c", 2), (str "d", 3), (str "e", 0), (str "f", 5)]

theorem topKeys_largest_six : ∃ s,
    summarizeToolMetrics [] [(str "category", .str (str "count"))] (str "irq_stat") six 10 =
        .ok (some s) ∧
      s.topKeys.length = min 5 s.count ∧ s.topKeys.head?.map Prod.snd = some s.max := by
  obtain ⟨s, hs⟩ : ∃ s, summarizeToolMetrics [] [(str "category", .str (str "count"))]
      (str "irq_stat") six 10 = .ok (some s) := ⟨_, rfl⟩
  obtain ⟨hlength, -, -, -, hmax⟩ := topKeys_largest hs
  exact ⟨s, hs, hlength, hmax⟩

end ToolConfig

/-! ## The chart -/

namespace Dashboard

open Json (Py utf16)

/-- The entries of an object in the order of `Object.entries`: the array indices first and
ascending, then the other keys as they came. -/
structure Ordered {V : Type} (kvs shown : List (Str × V)) : Prop where
  perm : shown.Perm kvs
  indicesFirst : shown = (shown.filter fun e => isIndex e.1) ++ shown.filter fun e => !isIndex e.1
  ascending : (shown.filter fun e => isIndex e.1).Pairwise fun a b =>
    Json.digits a.1 ≤ Json.digits b.1
  others : (shown.filter fun e => !isIndex e.1) = kvs.filter fun e => !isIndex e.1

theorem ordered_entries {V : Type} (kvs : List (Str × V)) : Ordered kvs (objectEntries kvs) := by
  have hsort := List.mergeSort_perm (kvs.filter fun e => isIndex e.1) fun a b =>
    Json.digits a.1 ≤ Json.digits b.1
  have hindex : ((objectEntries kvs).filter fun e => isIndex e.1) =
      (kvs.filter fun e => isIndex e.1).mergeSort fun a b => Json.digits a.1 ≤ Json.digits b.1 := by
    rw [objectEntries, List.filter_append, List.filter_eq_self.mpr, List.filter_filter]
    · simp
    · intro e he
      exact (List.mem_filter.mp (hsort.mem_iff.mp he)).2
  have hothers : ((objectEntries kvs).filter fun e => !isIndex e.1) =
      kvs.filter fun e => !isIndex e.1 := by
    rw [objectEntries, List.filter_append, List.filter_eq_nil_iff.mpr, List.nil_append,
      List.filter_filter]
    · simp
    · intro e he
      simpa using (List.mem_filter.mp (hsort.mem_iff.mp he)).2
  refine ⟨(hsort.append_right _).trans (List.filter_append_perm _ kvs), ?_, ?_, hothers⟩
  · rw [hindex, hothers, objectEntries]
  · rw [hindex]
    have htrans : ∀ a b c : Str × V, decide (Json.digits a.1 ≤ Json.digits b.1) = true →
        decide (Json.digits b.1 ≤ Json.digits c.1) = true →
        decide (Json.digits a.1 ≤ Json.digits c.1) = true := fun a b c => by
      simpa using Nat.le_trans
    have h := List.pairwise_mergeSort htrans (fun a b => by simpa using Nat.le_total _ _)
      (kvs.filter fun e => isIndex e.1)
    exact h.imp fun hab => of_decide_eq_true hab

/-- Leaving entries out keeps the order. -/
theorem Ordered.filter {V : Type} {kvs shown : List (Str × V)} (h : Ordered kvs shown)
    (p : Str × V → Bool) : Ordered (kvs.filter p) (shown.filter p) where
  perm := h.perm.filter p
  indicesFirst := by
    rw [List.filter_comm _ p, List.filter_comm _ p, ← List.filter_append, ← h.indicesFirst]
  ascending := by
    rw [List.filter_comm _ p]
    exact h.ascending.filter _
  others := by rw [List.filter_comm _ p, h.others, List.filter_comm p]

variable (b : Browser) (w : Wire) (tool : Str)

/-- The metrics the page draws. -/
def drawn (parsed : Metrics Binary64) : List (Str × Js.Value) :=
  (parsed.map fun e => (utf16 e.1, .num e.2)).filter fun e =>
    !b.isSecondaryCountKey e.1 (Js.ofPy (w.config tool))

variable {b w tool} {parsed : Metrics Binary64}

/-- The object the page gets for the metrics. -/
theorem ofPy_metrics (hkeys : (parsed.map fun e => utf16 e.1).Nodup) :
    Js.ofPy (.dict (parsed.map fun e => (e.1, .float e.2))) =
      .obj (parsed.map fun e => (utf16 e.1, .num e.2)) := by
  have hitems : Js.ofItems (parsed.map fun e => (e.1, .float e.2)) =
      parsed.map fun e => (utf16 e.1, .num e.2) := by
    rw [Js.ofItems_eq, List.map_map]
    rfl
  have hnodup : (Assoc.keys (parsed.map fun e => (utf16 e.1, Js.Value.num e.2))).Nodup := by
    rw [Assoc.keys, List.map_map]
    exact hkeys
  rw [Js.ofPy, hitems, Dict.ofList_nodup hnodup]

theorem buildChartData_ordered (hkeys : (parsed.map fun e => utf16 e.1).Nodup) :
    Ordered (drawn b w tool parsed)
      (b.buildChartData (some (Js.ofPy (.dict (parsed.map fun e => (e.1, .float e.2)))))
        (Js.ofPy (w.config tool))) := by
  rw [ofPy_metrics hkeys]
  exact (ordered_entries _).filter _

/-- A chart that was drawn has the data. -/
theorem updateChart_data {parsedData : Option Js.Value} {config : Js.Value} {c : Chart}
    (h : (b.updateChart parsedData (some config)).1 = some c) :
    c.labels = (b.buildChartData parsedData config).map Prod.fst ∧
      c.values = (b.buildChartData parsedData config).map Prod.snd := by
  unfold Browser.updateChart at h
  rw [Option.getD_some] at h
  split at h
  · cases h
  · dsimp only at h
    generalize hd : b.draws _ _ _ = d at h
    cases d with
    | false => cases h
    | true => cases h; exact ⟨rfl, rfl⟩

/-- A success the page can read leaves its chart, whatever comes of the table. -/
theorem chart_receive {p : Page} {duration : ℚ} {summary : Py}
    (hf : w.readable tool (.success duration parsed summary) = true) :
    (receive b w tool p (.success duration parsed summary)).chart = (chartOf b w tool parsed).1 := by
  have hclean (q : Page) : q.cleanupConnection.chart = q.chart :=
    congrArg View.chart (view_cleanup q)
  simp only [receive, if_pos hf]
  split
  · exact hclean _
  · rfl

/-- **The chart.** Of a success event with finite numbers, whose metrics have different keys
on the page, every metric is drawn once, with its value and in the order of the page's
object, except the counts of a latency tool. -/
theorem chart_complete {p : Page} {duration : ℚ} {summary : Py} {data : Str}
    (hv : Js.valid (w.payload tool (.success duration parsed summary)) = true)
    (h : w.text tool (.success duration parsed summary) = .ok data)
    (hf : w.readable tool (.success duration parsed summary) = true)
    (hkeys : (parsed.map fun e => utf16 e.1).Nodup) {c : Chart}
    (hc : (p.onmessage b data).chart = some c) :
    c.labels.length = c.values.length ∧
      Ordered (drawn b w tool parsed) (c.labels.zip c.values) := by
  rw [onmessage_payload hv h, chart_receive hf] at hc
  obtain ⟨hlabels, hvalues⟩ := updateChart_data hc
  have hzip : c.labels.zip c.values = b.buildChartData
      (some (Js.ofPy (.dict (parsed.map fun e => (e.1, .float e.2))))) (Js.ofPy (w.config tool)) :=
    (List.zip_of_prod hlabels.symm hvalues.symm).symm
  rw [hzip, hlabels, hvalues, List.length_map, List.length_map]
  exact ⟨rfl, buildChartData_ordered hkeys⟩

/-- A latency tool. -/
def wireLatency : Wire := ⟨fun _ => .dict [(str "category", .str (str "latency"))], 10⟩

/-- A total, a count, and a key that is an array index. -/
def latencies : Metrics Binary64 :=
  [(str "read_us", .zero), (str "read_count", .zero), (str "7", .zero)]

theorem chart_complete_latency : ∃ data c,
    wireLatency.text (str "disk_read_delay") (.success 1 latencies (.dict [])) = .ok data ∧
      ((Page.start [] []).onmessage .ascii data).chart = some c ∧
      Ordered (drawn .ascii wireLatency (str "disk_read_delay") latencies)
        (c.labels.zip c.values) ∧
      (drawn .ascii wireLatency (str "disk_read_delay") latencies).map Prod.fst =
        [str "read_us", str "7"] := by
  have hv : Js.valid (wireLatency.payload (str "disk_read_delay") (.success 1 latencies (.dict []))) =
      true := by decide
  have hf : wireLatency.readable (str "disk_read_delay") (.success 1 latencies (.dict [])) = true := by
    decide +kernel
  obtain ⟨data, hdata⟩ : ∃ data, wireLatency.text (str "disk_read_delay")
      (.success 1 latencies (.dict [])) = .ok data := ⟨_, rfl⟩
  obtain ⟨c, hc⟩ : ∃ c, ((Page.start [] []).onmessage .ascii data).chart = some c := by
    rw [onmessage_payload hv hdata, chart_receive hf]
    exact ⟨_, rfl⟩
  exact ⟨data, c, hdata, hc, (chart_complete hv hdata hf (by decide) hc).2, by decide⟩

end Dashboard

end EbpfDemo.L4Client
