import EbpfDemo.Core.Machine
import EbpfDemo.L1Encoding.JsonParse

/-!
# app.js: the dashboard page

The page opens an `EventSource` for every run and keeps it in `currentEs`. `step`
is one event of the page: a click, a message or an error of a source, the answer
to the request for the tool list. What the browser itself does is a
parameter (`Browser`): the case mapping, the text of a value that is no
string, and whether the chart library takes a chart.

An exception leaves a handler where it is raised and keeps what was done before.
A source that was closed dispatches nothing more; one that has failed and was not
closed would connect again (`reconnect`).

* `single_exec`: in any order of events at most one source is open, it is
  `currentEs`, the button is disabled exactly as long as there is one, and every
  click that starts a run makes one request and no source a second one.
* `duration_mem`: whatever stands in the input, the duration sent is between 1
  and 300.
-/
namespace EbpfDemo.L4Client.Dashboard

open EbpfDemo.Core EbpfDemo.L1Encoding

/-- What the page asks of the browser and of the chart library. -/
structure Browser where
  toText : Js.Value → Str
  toLowerCase : Str → Str
  toUpperCase : Str → Str
  /-- `new Chart` with a type, labels and values. -/
  draws : Js.Value → List Str → List Js.Value → Bool

inductive BadgeClass where
  | idle | running | success
  deriving DecidableEq

/-- A text the page shows for a value: as it is, or with two decimals. -/
inductive Cell where
  | empty
  | plain (v : Js.Value)
  | fixed (x : Binary64)

/-- The table of `renderSummaryTable`; `none` is the empty state. -/
structure SummaryTable where
  rows : List (Str × Cell)
  topKeys : Option (List (Cell × Cell))

structure Chart where
  type : Js.Value
  labels : List Str
  values : List Js.Value

/-- An `EventSource`: how often it has connected, and whether it has failed since. -/
structure Source where
  tool : Str
  duration : Binary64
  isOpen : Bool
  failed : Bool
  requests : Nat

/-- mirrors src/client/static/app.js:1-10 -/
structure Page where
  /-- The tools of the list, `none` before the answer. -/
  tools : Option (List Str)
  sources : List Source
  currentEs : Option Nat
  disabled : Bool
  status : Str
  badge : BadgeClass
  output : Str
  chart : Option Chart
  summary : Option SummaryTable

/-- What the page can be notified of. -/
inductive UiEvent where
  | toolList (r : Option (List Str))
  | click (tool : Str) (duration : Binary64) (time : Str)
  | clear
  | message (i : Nat) (data : Str)
  | error (i : Nat)
  | reconnect (i : Nat)

/-! ## JavaScript -/

/-- `v.k`; `none` is `undefined`. Only of `null` it raises, see `onmessage`. -/
def prop (v : Js.Value) (k : String) : Option Js.Value :=
  match v with
  | .obj kvs => Assoc.find (Json.utf16 (str k)) kvs
  | _ => none

def truthy : Option Js.Value → Bool
  | none | some .null => false
  | some (.bool b) => b
  | some (.num (.fin q _)) => q ≠ 0
  | some (.num .nan) => false
  | some (.str s) => s ≠ []
  | _ => true

/-- A key that is an array index. -/
def isIndex (k : Str) : Bool :=
  k.all Json.isDigit && (k = [0x30] || k.head? ≠ some 0x30 && k ≠ []) &&
    Json.digits k < 4294967295

/-- `Object.entries` of an object: the indices in order, then the other keys. -/
def objectEntries {V : Type} (kvs : List (Str × V)) : List (Str × V) :=
  ((kvs.filter fun e => isIndex e.1).mergeSort fun a b => Json.digits a.1 ≤ Json.digits b.1) ++
    kvs.filter fun e => !isIndex e.1

/-- `Object.entries(v ?? {})` -/
def entries : Option Js.Value → List (Str × Js.Value)
  | some (.obj kvs) => objectEntries kvs
  | some (.arr xs) => xs.zipIdx.map fun e => (decimal e.2, e.1)
  | some (.str s) => s.zipIdx.map fun e => (decimal e.2, .str [e.1])
  | _ => []

namespace Browser
variable (b : Browser)

/-- `${v}` -/
def text : Js.Value → Str
  | .str s => s
  | v => b.toText v

/-! ## The functions of the page -/

/-- mirrors src/client/static/app.js:22-32 -/
def isSecondaryCountKey (key : Str) (config : Js.Value) : Bool :=
  let k := b.toLowerCase key
  let isCountPattern := (str "_count").isSuffixOf k || (str "_cnt").isSuffixOf k ||
    k = str "count" || k = str "total"
  match prop config "category" with
  | some (.str s) => s = str "latency" && isCountPattern
  | _ => false

/-- mirrors src/client/static/app.js:33-45 -/
def buildChartData (parsedData : Option Js.Value) (config : Js.Value) : List (Str × Js.Value) :=
  (entries parsedData).filter fun e => !b.isSecondaryCountKey e.1 config

/-- The chart of the page, and whether `updateChart` came to its end. A chart that
could not be drawn leaves none.
mirrors src/client/static/app.js:47-78 -/
def updateChart (parsedData config : Option Js.Value) : Option Chart × Bool :=
  match config.getD (.obj []) with
  | .null => (none, false)
  | config =>
    let data := b.buildChartData parsedData config
    let type := if truthy (prop config "chart_type") then
      (prop config "chart_type").getD .null else .str (str "bar")
    if b.draws type (data.map Prod.fst) (data.map Prod.snd) then
      (some ⟨type, data.map Prod.fst, data.map Prod.snd⟩, true)
    else (none, false)

end Browser

/-- `v?.toFixed(2)`, `?? ''`; `none` is the `TypeError` of a value without the method. -/
def toFixed : Option Js.Value → Option Cell
  | none | some .null => some .empty
  | some (.num x) => some (.fixed x)
  | _ => none

/-- `v ?? ''` -/
def cell : Option Js.Value → Cell
  | none | some .null => .empty
  | some v => .plain v

/-- `Object.keys(v).length === 0` -/
def isEmpty (v : Js.Value) : Bool := (entries (some v)).isEmpty

/-- The rows of `top_keys`. -/
def topRows : List Js.Value → Option (List (Cell × Cell))
  | [] => some []
  | .null :: _ => none
  | v :: vs => (topRows vs).map fun rows => (cell (prop v "key"), cell (prop v "value")) :: rows

/-- `none` is a `TypeError`, `some none` the empty state.
mirrors src/client/static/app.js:80-121 -/
def renderSummaryTable (summary : Option Js.Value) : Option (Option SummaryTable) :=
  match summary with
  | none => some none
  | some v =>
    if !truthy summary || isEmpty v then some none
    else do
      let sum ← toFixed (prop v "sum")
      let avg ← toFixed (prop v "avg")
      let rows := [(str "工具类型", cell (prop v "tool_type")), (str "总样本数", cell (prop v "count")),
        (str "数值总和", sum), (str "平均值", avg)]
      if truthy (prop v "top_keys") then
        match prop v "top_keys" with
        | some (.arr xs) => (topRows xs).map fun top => some ⟨rows, some top⟩
        | _ => none
      else some (some ⟨rows, none⟩)

namespace Page

/-- mirrors src/client/static/app.js:1-20, templates/index.html:25, 84-86 -/
def start (status output : Str) : Page where
  tools := none
  sources := []
  currentEs := none
  disabled := false
  status := status
  badge := .idle
  output := output
  chart := none
  summary := none

def close (p : Page) (i : Nat) : Page :=
  { p with sources := p.sources.modify i fun s => { s with isOpen := false } }

/-- The browser has lost the connection. -/
def fail (p : Page) (i : Nat) : Page :=
  { p with sources := p.sources.modify i fun s => { s with failed := true } }

/-- mirrors src/client/static/app.js:14-20 -/
def cleanupConnection (p : Page) : Page :=
  match p.currentEs with
  | some i => { p.close i with currentEs := none, disabled := false }
  | none => { p with disabled := false }

/-- `Math.min(Math.max(parseFloat(v) || 10, 1), 300)` -/
def clampDuration : Binary64 → Binary64
  | .nan => .ofRat 10
  | .inf neg => if neg then .ofRat 1 else .ofRat 300
  | .fin q h => if q = 0 then .ofRat 10 else if q < 1 then .ofRat 1 else
    if 300 < q then .ofRat 300 else .fin q h

/-- `[time] 正在启动 tool...` -/
def banner (tool time : Str) : Str :=
  str "[" ++ time ++ str "] 正在启动 " ++ tool ++ str "...\n"

/-- mirrors src/client/static/app.js:122-132 -/
def click (p : Page) (tool : Str) (duration : Binary64) (time : Str) : Page :=
  if tool = [] then p
  else
    let p := p.cleanupConnection
    { p with
      disabled := true
      status := str "RUNNING"
      badge := .running
      output := banner tool time
      currentEs := some p.sources.length
      sources := p.sources ++ [⟨tool, clampDuration duration, true, false, 1⟩] }

/-- `if (data.line)`
mirrors src/client/static/app.js:135-138 -/
def appendLine (b : Browser) (p : Page) (line : Option Js.Value) : Page :=
  match line with
  | some v => if truthy line then { p with output := p.output ++ b.text v } else p
  | none => p

/-- mirrors src/client/static/app.js:142-144; `false` is an exception. -/
def showResult (b : Browser) (p : Page) (data : Js.Value) : Page × Bool :=
  match b.updateChart (prop data "parsed_metrics") (prop data "config") with
  | (chart, false) => ({ p with chart := chart }, false)
  | (chart, true) =>
    match renderSummaryTable (prop data "parsed_summary") with
    | none => ({ p with chart := chart }, false)
    | some summary => ({ p with chart := chart, summary := summary }, true)

/-- `[错误] error` -/
def errorLine (error : Str) : Str := str "[错误] " ++ error ++ str "\n"

/-- mirrors src/client/static/app.js:145-148 -/
def appendError (b : Browser) (p : Page) (error : Option Js.Value) : Page :=
  match error with
  | some v => if truthy error then { p with output := p.output ++ errorLine (b.text v) } else p
  | none => p

/-- `if (data.status)`; a status that is no string has no `toUpperCase`.
mirrors src/client/static/app.js:139-150 -/
def showStatus (b : Browser) (p : Page) (data : Js.Value) : Page :=
  match prop data "status" with
  | some (.str st) =>
    if st = [] then p
    else
      let p := { p with
        status := b.toUpperCase st
        badge := if st = str "success" then .success else .idle }
      if st = str "success" then
        match showResult b p data with
        | (p, false) => p
        | (p, true) => p.cleanupConnection
      else (appendError b p (prop data "error")).cleanupConnection
  | _ => p

/-- What `JSON.parse` does not read, and a property of `null`, are exceptions.
mirrors src/client/static/app.js:133-151 -/
def onmessage (b : Browser) (p : Page) (data : Str) : Page :=
  match Js.parse data with
  | none | some .null => p
  | some v => showStatus b (appendLine b p (prop v "line")) v

/-- mirrors src/client/static/app.js:152-155 -/
def onerror (p : Page) : Page := { p with status := str "ERROR" }.cleanupConnection

/-- mirrors src/client/static/app.js:159-167 -/
def toolList (p : Page) : Option (List Str) → Page
  | some names => { p with tools := some names }
  | none => { p with tools := some [], status := str "OFFLINE" }

end Page

/-- The tool the list has selected: one of its options, nothing if it has none. -/
def Page.selects (p : Page) (tool : Str) : Bool :=
  match p.tools with
  | none | some [] => tool = []
  | some names => names.contains tool

/-- One event. A disabled button is not clicked, a closed source dispatches
nothing, the tool list is asked for once. -/
def step (b : Browser) (p : Page) : UiEvent → Option Page
  | .toolList r => if p.tools = none then some (p.toolList r) else none
  | .click tool duration time =>
    if p.disabled = false ∧ p.selects tool = true then some (p.click tool duration time) else none
  | .clear => some { p with output := [] }
  | .message i data => p.sources[i]?.bind fun s =>
      if s.isOpen then some (p.onmessage b data) else none
  | .error i => p.sources[i]?.bind fun s =>
      if s.isOpen then some (p.fail i).onerror else none
  | .reconnect i => p.sources[i]?.bind fun s =>
      if s.isOpen && s.failed then
        some { p with sources := p.sources.modify i fun s =>
          { s with failed := false, requests := s.requests + 1 } }
      else none

/-! ## The duration -/

/-- What the server accepts: `Query(10.0, gt=0.0, le=MAX_DURATION_SECONDS)`. -/
def InRange : Binary64 → Prop
  | .fin q _ => 1 ≤ q ∧ q ≤ 300
  | _ => False

theorem inRange_ofNat {n : Nat} (h1 : 1 ≤ n) (h2 : n ≤ 300) : InRange (.ofRat n) := by
  rw [Binary64.ofRat_of_representable (Binary64.representable_natCast (by omega))]
  exact ⟨by exact_mod_cast h1, by exact_mod_cast h2⟩

/-- **Duration.** Whatever number the input holds, none included, what is sent is in
the range the server accepts. -/
theorem duration_mem (x : Binary64) : InRange (Page.clampDuration x) := by
  have h1 : InRange (.ofRat 1) := by exact_mod_cast inRange_ofNat (n := 1) (by decide) (by decide)
  have h10 : InRange (.ofRat 10) := by
    exact_mod_cast inRange_ofNat (n := 10) (by decide) (by decide)
  have h300 : InRange (.ofRat 300) := by
    exact_mod_cast inRange_ofNat (n := 300) (by decide) (by decide)
  cases x with
  | nan => exact h10
  | inf neg => cases neg <;> assumption
  | fin q hq =>
    unfold Page.clampDuration
    dsimp only
    split_ifs with _ hlo hhi
    · exact h10
    · exact h1
    · exact h300
    · exact ⟨not_lt.mp hlo, not_lt.mp hhi⟩

/-! ## One source at a time -/

/-- The connections of a page. -/
structure Conns where
  sources : List Source
  currentEs : Option Nat
  disabled : Bool

def Page.conns (p : Page) : Conns := ⟨p.sources, p.currentEs, p.disabled⟩

/-- The last source or none is open, it is `currentEs`, and the button is disabled
meanwhile; every source has connected once. -/
structure Single (c : Conns) : Prop where
  last : ∀ i, c.currentEs = some i → i + 1 = c.sources.length
  opened : ∀ i, ∀ s ∈ c.sources[i]?, s.isOpen = true ↔ c.currentEs = some i
  disabled : c.disabled = c.currentEs.isSome
  once : ∀ s ∈ c.sources, s.requests = 1

/-- No source is about to connect again. -/
def Sound (c : Conns) : Prop := ∀ s ∈ c.sources, s.isOpen = true → s.failed = false

variable {b : Browser} {p p' : Page}

theorem cleanup_none (h : p.currentEs = none) :
    p.cleanupConnection = { p with disabled := false } := by
  unfold Page.cleanupConnection
  rw [h]

theorem cleanup_some {i : Nat} (h : p.currentEs = some i) :
    p.cleanupConnection = { p.close i with currentEs := none, disabled := false } := by
  unfold Page.cleanupConnection
  rw [h]

/-- `cleanupConnection` closes the only source that is open. -/
theorem single_cleanup (h : Single p.conns) :
    Single p.cleanupConnection.conns ∧ p.cleanupConnection.currentEs = none ∧
      p.cleanupConnection.sources.length = p.sources.length := by
  cases hc : p.currentEs with
  | none =>
    rw [cleanup_none hc]
    refine ⟨⟨h.last, h.opened, ?_, h.once⟩, hc, rfl⟩
    show false = p.currentEs.isSome
    rw [hc]
    rfl
  | some i =>
    rw [cleanup_some hc]
    have hget : ∀ j, ∀ s ∈ (p.close i).sources[j]?, ∃ t ∈ p.sources[j]?,
        s = if i = j then { t with isOpen := false } else t := by
      intro j s hs
      rw [Page.close, List.getElem?_modify] at hs
      obtain ⟨t, ht, rfl⟩ := Option.map_eq_some_iff.mp hs
      exact ⟨t, ht, rfl⟩
    have hmem : ∀ s ∈ (p.close i).sources, ∃ t ∈ p.sources, s = t ∨ s = { t with isOpen := false } := by
      intro s hs
      obtain ⟨j, hj⟩ := List.mem_iff_getElem?.mp hs
      obtain ⟨t, ht, rfl⟩ := hget j s hj
      refine ⟨t, List.mem_of_getElem? ht, ?_⟩
      split
      · exact .inr rfl
      · exact .inl rfl
    refine ⟨⟨fun j hj => (by cases hj), fun j s hs => ?_, rfl, fun s hs => ?_⟩, rfl,
      List.length_modify ..⟩
    · obtain ⟨t, ht, rfl⟩ := hget j s hs
      refine iff_of_false (fun ho => ?_) (fun he => by cases he)
      split at ho
      · cases ho
      · rename_i hne
        have := (h.opened j t ht).mp ho
        exact hne (Option.some.inj (hc.symm.trans this))
    · obtain ⟨t, ht, hst | hst⟩ := hmem s hs
      · rw [hst]; exact h.once t ht
      · rw [hst]; exact h.once t ht

/-- The connections after `cleanupConnection` are a matter of those before. -/
theorem cleanup_congr (h : p'.conns = p.conns) :
    p'.cleanupConnection.conns = p.cleanupConnection.conns := by
  obtain ⟨h1, h2, -⟩ := Conns.mk.injEq .. ▸ h
  unfold Page.cleanupConnection
  rw [h2]
  cases p.currentEs with
  | none => simp only [Page.conns, h1]
  | some i => simp only [Page.conns, Page.close, h1]

theorem appendLine_conns (line : Option Js.Value) : (p.appendLine b line).conns = p.conns := by
  unfold Page.appendLine
  split
  · split <;> rfl
  · rfl

theorem appendError_conns (e : Option Js.Value) : (p.appendError b e).conns = p.conns := by
  unfold Page.appendError
  split
  · split <;> rfl
  · rfl

theorem showResult_conns (data : Js.Value) : (p.showResult b data).1.conns = p.conns := by
  unfold Page.showResult
  split
  · rfl
  · split <;> rfl

/-- A message touches the connections with `cleanupConnection` or not at all. -/
theorem onmessage_conns (p : Page) (data : Str) : (p.onmessage b data).conns = p.conns ∨
    (p.onmessage b data).conns = p.cleanupConnection.conns := by
  unfold Page.onmessage
  split
  · exact .inl rfl
  · exact .inl rfl
  · rename_i v _ _
    have hline := appendLine_conns (b := b) (p := p) (prop v "line")
    generalize p.appendLine b (prop v "line") = q at hline
    unfold Page.showStatus
    split
    · rename_i st _
      split
      · exact .inl hline
      · dsimp only
        generalize hr : ({ q with
          status := b.toUpperCase st
          badge := if st = str "success" then .success else .idle } : Page) = r
        have hrq : r.conns = p.conns := by rw [← hr]; exact hline
        split
        · split
          · rename_i t ht
            have := showResult_conns (b := b) (p := r) v
            rw [ht] at this
            exact .inl (this.trans hrq)
          · rename_i t ht
            have := showResult_conns (b := b) (p := r) v
            rw [ht] at this
            exact .inr (cleanup_congr (this.trans hrq))
        · exact .inr (cleanup_congr ((appendError_conns _).trans hrq))
    · exact .inl hline

/-- A click that starts a run. -/
def UiEvent.runs : UiEvent → Bool
  | .click tool _ _ => tool ≠ []
  | _ => false

theorem Single.closed {c : Conns} (h : Single c) (hc : c.currentEs = none) :
    ∀ s ∈ c.sources, s.isOpen = false := by
  intro s hs
  obtain ⟨i, hi⟩ := List.mem_iff_getElem?.mp hs
  have := h.opened i s hi
  rw [hc] at this
  simpa using this

theorem sound_cleanup (h : Single p.conns) : Sound p.cleanupConnection.conns := by
  obtain ⟨h1, h2, -⟩ := single_cleanup h
  intro s hs ho
  rw [h1.closed h2 s hs] at ho
  cases ho

/-- A failed source is closed by the handler before it could connect again. -/
theorem single_onerror (i : Nat) (h : Single p.conns) :
    Single (p.fail i).onerror.conns ∧ Sound (p.fail i).onerror.conns ∧
      (p.fail i).onerror.sources.length = p.sources.length ∧ (p.fail i).onerror.currentEs = none := by
  have hget : ∀ (j : Nat) (s : Source), (p.fail i).sources[j]? = some s →
      ∃ t, p.sources[j]? = some t ∧ s.isOpen = t.isOpen ∧ s.requests = t.requests := by
    intro j s hs
    rw [Page.fail, List.getElem?_modify] at hs
    obtain ⟨t, ht, rfl⟩ := Option.map_eq_some_iff.mp hs
    refine ⟨t, ht, ?_⟩
    split <;> exact ⟨rfl, rfl⟩
  have hfail : Single (Page.conns { p.fail i with status := str "ERROR" }) := by
    refine ⟨fun j hj => ?_, fun j s hs => ?_, h.disabled, fun s hs => ?_⟩
    · exact (h.last j hj).trans (List.length_modify ..).symm
    · obtain ⟨t, ht, ho, -⟩ := hget j s hs
      rw [ho]
      exact h.opened j t ht
    · obtain ⟨j, hj⟩ := List.mem_iff_getElem?.mp hs
      obtain ⟨t, ht, -, hr⟩ := hget j s hj
      exact hr.trans (h.once t (List.mem_of_getElem? ht))
  obtain ⟨h1, h2, h3⟩ := single_cleanup hfail
  exact ⟨h1, sound_cleanup hfail, h3.trans (List.length_modify ..), h2⟩

/-- A click makes the new source the only open one. -/
theorem single_click {tool : Str} (d : Binary64) (time : Str) (ht : tool ≠ [])
    (h : Single p.conns) : Single (p.click tool d time).conns ∧ Sound (p.click tool d time).conns ∧
      (p.click tool d time).sources.length = p.sources.length + 1 := by
  obtain ⟨h1, h2, h3⟩ := single_cleanup h
  have hclosed := h1.closed h2
  unfold Page.click
  rw [if_neg ht]
  dsimp only [Page.conns] at h1 h2 hclosed ⊢
  generalize p.cleanupConnection = q at *
  have hget : ∀ i, ∀ s ∈ (q.sources ++ [⟨tool, Page.clampDuration d, true, false, 1⟩])[i]?,
      (i < q.sources.length ∧ s ∈ q.sources) ∨
        i = q.sources.length ∧ s = ⟨tool, Page.clampDuration d, true, false, 1⟩ := by
    intro i s hs
    rcases Nat.lt_trichotomy i q.sources.length with hi | rfl | hi
    · rw [List.getElem?_append_left hi] at hs
      exact .inl ⟨hi, List.mem_of_getElem? hs⟩
    · rw [List.getElem?_concat_length] at hs
      exact .inr ⟨rfl, (Option.some.inj hs).symm⟩
    · rw [List.getElem?_eq_none (by simp; omega)] at hs
      cases hs
  refine ⟨⟨fun i hi => ?_, fun i s hs => ?_, rfl, ?_⟩, ?_, ?_⟩
  · rw [← Option.some.inj hi, List.length_append]
    rfl
  · rcases hget i s hs with ⟨hi, hm⟩ | ⟨rfl, rfl⟩
    · refine iff_of_false (by rw [hclosed s hm]; exact Bool.false_ne_true) fun he => ?_
      exact Nat.ne_of_lt hi (Option.some.inj he).symm
    · exact iff_of_true rfl rfl
  · exact List.forall_mem_append.mpr ⟨h1.once, List.forall_mem_singleton.mpr rfl⟩
  · intro s hs ho
    rcases List.mem_append.mp hs with hm | hm
    · rw [hclosed s hm] at ho
      cases ho
    · rw [List.mem_singleton.mp hm]
  · rw [List.length_append, h3]
    rfl

/-- Every page event keeps it, and a click that starts a run adds a source. -/
theorem single_step {e : UiEvent} (h : Single p.conns) (hf : Sound p.conns)
    (hs : step b p e = some p') : Single p'.conns ∧ Sound p'.conns ∧
      p'.sources.length = p.sources.length + e.runs.toNat := by
  cases e with
  | toolList r =>
    simp only [step, Option.ite_none_right_eq_some, Option.some.injEq] at hs
    obtain ⟨-, rfl⟩ := hs
    cases r <;> exact ⟨h, hf, rfl⟩
  | click tool d time =>
    simp only [step, Option.ite_none_right_eq_some, Option.some.injEq] at hs
    obtain ⟨-, rfl⟩ := hs
    by_cases ht : tool = []
    · have hp : p.click tool d time = p := if_pos ht
      rw [hp, UiEvent.runs, ht]
      exact ⟨h, hf, rfl⟩
    · obtain ⟨h1, h2, h3⟩ := single_click d time ht h
      refine ⟨h1, h2, h3.trans ?_⟩
      rw [UiEvent.runs, decide_eq_true ht]
      rfl
  | clear =>
    cases hs
    exact ⟨h, hf, rfl⟩
  | message i data =>
    obtain ⟨s, -, hs⟩ := Option.bind_eq_some_iff.mp hs
    simp only [Option.ite_none_right_eq_some, Option.some.injEq] at hs
    obtain ⟨-, rfl⟩ := hs
    rcases onmessage_conns (b := b) p data with hc | hc
    · have hlen := congrArg (fun c => c.sources.length) hc
      rw [hc]
      exact ⟨h, hf, hlen⟩
    · obtain ⟨h1, -, h3⟩ := single_cleanup h
      have hlen := congrArg (fun c => c.sources.length) hc
      rw [hc]
      exact ⟨h1, sound_cleanup h, hlen.trans h3⟩
  | error i =>
    obtain ⟨s, -, hs⟩ := Option.bind_eq_some_iff.mp hs
    simp only [Option.ite_none_right_eq_some, Option.some.injEq] at hs
    obtain ⟨-, rfl⟩ := hs
    obtain ⟨h1, h2, h3, -⟩ := single_onerror i h
    exact ⟨h1, h2, h3⟩
  | reconnect i =>
    obtain ⟨s, hget, hs⟩ := Option.bind_eq_some_iff.mp hs
    simp only [Option.ite_none_right_eq_some, Option.some.injEq, Bool.and_eq_true] at hs
    have := hf s (List.mem_of_getElem? hget) hs.1.1
    rw [hs.1.2] at this
    cases this

/-! ## Any order of events -/

/-- The sources that are open. -/
def Page.opened (p : Page) : Nat := p.sources.countP fun s => s.isOpen

/-- All connections the page has asked for. -/
def Page.requests (p : Page) : Nat := (p.sources.map Source.requests).sum

theorem single_start (status output : Str) : Single (Page.start status output).conns ∧
    Sound (Page.start status output).conns :=
  ⟨⟨fun _ h => (by cases h), fun _ _ h => (by cases h), rfl, List.forall_mem_nil _⟩,
    List.forall_mem_nil _⟩

theorem single_run {es : List UiEvent} (h : Single p.conns) (hf : Sound p.conns)
    (hx : exec (step b) p es = some p') : Single p'.conns ∧
      p'.sources.length = p.sources.length + es.countP UiEvent.runs := by
  induction es generalizing p with
  | nil => cases hx; exact ⟨h, rfl⟩
  | cons e es ih =>
    obtain ⟨q, hs, hx⟩ := exec_cons_some hx
    obtain ⟨h1, h2, h3⟩ := single_step h hf hs
    obtain ⟨h4, h5⟩ := ih h1 h2 hx
    refine ⟨h4, h5.trans ?_⟩
    rw [h3, List.countP_cons]
    cases e.runs
    · rfl
    · simp only [Bool.toNat_true, if_true]
      omega

theorem opened_of_single (h : Single p.conns) : p.opened = p.currentEs.isSome.toNat := by
  unfold Page.opened
  cases hc : p.currentEs with
  | none =>
    refine List.countP_eq_zero.mpr fun s hs => ?_
    rw [h.closed hc s hs]
    exact Bool.false_ne_true
  | some i =>
    have hlast : i + 1 = p.sources.length := h.last i hc
    have hopen : ∀ j, ∀ s ∈ p.sources[j]?, s.isOpen = true ↔ j = i := fun j s hs =>
      (h.opened j s hs).trans ⟨fun e => Option.some.inj (e.symm.trans hc), fun e => e ▸ hc⟩
    obtain ⟨l, s, hl⟩ : ∃ l s, p.sources = l ++ [s] :=
      (List.eq_nil_or_concat' p.sources).resolve_left fun h0 => by rw [h0] at hlast; cases hlast
    rw [hl] at hlast hopen ⊢
    have hi : i = l.length := by simpa using hlast
    have hs : s.isOpen = true := (hopen l.length s (by simp)).mpr hi.symm
    have hl0 : l.countP (fun s => s.isOpen) = 0 := by
      refine List.countP_eq_zero.mpr fun t ht ho => ?_
      obtain ⟨j, hj⟩ := List.mem_iff_getElem?.mp ht
      obtain ⟨hlt, -⟩ := List.getElem?_eq_some_iff.mp hj
      have := (hopen j t (by rw [List.getElem?_append_left hlt]; exact hj)).mp ho
      omega
    rw [List.countP_append, hl0, List.countP_singleton, if_pos hs]
    rfl

theorem requests_of_single (h : Single p.conns) : p.requests = p.sources.length := by
  have : p.sources.map Source.requests = List.replicate p.sources.length 1 :=
    List.eq_replicate_iff.mpr ⟨List.length_map .., List.forall_mem_map.mpr h.once⟩
  rw [Page.requests, this, List.sum_replicate_nat, Nat.mul_one]

/-- **One run at a time.** In any order of page events the button is disabled exactly
while one source is open, never are two, and the page has made one request for every
click that starts a run. -/
theorem single_exec (b : Browser) (status output : Str) (es : List UiEvent)
    (hx : exec (step b) (.start status output) es = some p) :
    p.opened = p.disabled.toNat ∧ p.requests = es.countP UiEvent.runs ∧
      ∀ i, ∀ s ∈ p.sources[i]?, s.isOpen = true ↔ p.currentEs = some i := by
  obtain ⟨h0, hf⟩ := single_start status output
  obtain ⟨h, hlen⟩ := single_run h0 hf hx
  refine ⟨(opened_of_single h).trans (congrArg Bool.toNat h.disabled.symm), ?_, h.opened⟩
  exact (requests_of_single h).trans (hlen.trans (Nat.zero_add _))

/-- ASCII letters have a case, and every chart is drawn. -/
def Browser.ascii : Browser where
  toText _ := str "[object Object]"
  toLowerCase s := s.map fun c => if 0x41 ≤ c ∧ c ≤ 0x5A then c + 0x20 else c
  toUpperCase s := s.map fun c => if 0x61 ≤ c ∧ c ≤ 0x7A then c - 0x20 else c
  draws _ _ _ := true

/-- Two runs, the first one lost. -/
theorem single_lost : ∃ p, exec (step .ascii) (.start (str "系统就绪") [])
    [.toolList (some [str "irq_stat"]), .click (str "irq_stat") .nan (str "12:00:00"), .error 0,
      .click (str "irq_stat") .nan (str "12:00:10")] = some p ∧
    p.opened = p.disabled.toNat ∧ p.requests = 2 := by
  refine ⟨_, rfl, ?_⟩
  have h := single_exec .ascii (str "系统就绪") []
    [.toolList (some [str "irq_stat"]), .click (str "irq_stat") .nan (str "12:00:00"), .error 0,
      .click (str "irq_stat") .nan (str "12:00:10")] rfl
  exact ⟨h.1, h.2.1⟩

end EbpfDemo.L4Client.Dashboard
