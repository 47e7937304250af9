import EbpfDemo.L4Client.Dashboard
import EbpfDemo.L4Client.Outcome

/-!
# The events of a run on the page

`payload` is the `dict` of an event, as `event_generator` hands it to
`json.dumps`; the page gets its text. What the handler of the page makes of it is
`receive`, event by event (`onmessage_payload`):

* a line goes to the output as it is, in UTF-16;
* an error ends the run on the page, with its text in the output;
* a success is shown and ends the run, unless a number in it is not finite: then
  the text is no JSON, the handler raises, and the page changes in nothing.
-/
namespace EbpfDemo.L4Client.Dashboard

open EbpfDemo.Core EbpfDemo.L1Encoding
open Json (Py utf16)

/-! ## The texts of the server -/

/-- `TOOL_CONFIGS.get(tool, DEFAULT_CONFIG)`, and how deep `json.dumps` goes. -/
structure Wire where
  config : Str → Py
  recLimit : Nat

/-- mirrors src/client/main.py:257 -/
def lineDict (line : Str) : Py := .dict [(str "line", .str line)]

/-- mirrors src/client/main.py:219, 318 -/
def errorDict (error : Str) : Py :=
  .dict [(str "status", .str (str "error")), (str "error", .str error)]

namespace Wire
variable (w : Wire)

/-- mirrors src/client/main.py:300-310 -/
def successDict (tool : Str) (duration : ℚ) (parsed : Metrics Binary64) (summary : Py) : Py :=
  .dict [(str "status", .str (str "success")), (str "duration_seconds", .float (.ofRat duration)),
    (str "config", w.config tool),
    (str "parsed_metrics", .dict (parsed.map fun e => (e.1, .float e.2))),
    (str "parsed_summary", summary)]

/-- mirrors src/client/main.py:219, 257, 260, 300-310, 318 -/
def payload (tool : Str) : Event Py → Py
  | .rejected => errorDict (str "Tool is already running")
  | .line text => lineDict text
  | .truncated => lineDict (str "[output truncated]\n")
  | .success duration parsed summary => w.successDict tool duration parsed summary
  | .error msg => errorDict msg

/-- The `data` of an event. -/
def text (tool : Str) (e : Event Py) : Except Json.DumpErr Str :=
  Json.dumps w.recLimit (w.payload tool e)

/-- The page can read the event. -/
def readable (tool : Str) (e : Event Py) : Bool := Js.finite (w.payload tool e)

end Wire

/-! ## The texts of the page -/

/-- What an event adds to the output. -/
def pageText : Event Py → Str
  | .line text => utf16 text
  | .truncated => str "[output truncated]\n"
  | .rejected => Page.errorLine (str "Tool is already running")
  | .error msg => if msg = [] then [] else Page.errorLine (utf16 msg)
  | .success _ _ _ => []

/-- The metrics of a run on the page. -/
def chartOf (b : Browser) (w : Wire) (tool : Str) (parsed : Metrics Binary64) :
    Option Chart × Bool :=
  b.updateChart (some (Js.ofPy (.dict (parsed.map fun e => (e.1, .float e.2)))))
    (some (Js.ofPy (w.config tool)))

/-- Chart and summary are both shown. -/
def shows (b : Browser) (w : Wire) (tool : Str) (parsed : Metrics Binary64) (summary : Py) : Bool :=
  (chartOf b w tool parsed).2 && (renderSummaryTable (some (Js.ofPy summary))).isSome

/-- The handler comes to its `cleanupConnection`. -/
def closes (b : Browser) (w : Wire) (tool : Str) (e : Event Py) : Bool :=
  match e with
  | .line _ | .truncated => false
  | .rejected | .error _ => true
  | .success _ parsed summary => w.readable tool e && shows b w tool parsed summary

/-- What the page makes of an event. -/
def receive (b : Browser) (w : Wire) (tool : Str) (p : Page) (e : Event Py) : Page :=
  match e with
  | .line _ | .truncated => { p with output := p.output ++ pageText e }
  | .rejected | .error _ => Page.cleanupConnection { p with
      status := b.toUpperCase (str "error")
      badge := .idle
      output := p.output ++ pageText e }
  | .success _ parsed summary =>
    if w.readable tool e then
      let p := { p with
        status := b.toUpperCase (str "success")
        badge := .success
        chart := (chartOf b w tool parsed).1 }
      if shows b w tool parsed summary then
        Page.cleanupConnection { p with
          summary := (renderSummaryTable (some (Js.ofPy summary))).getD none }
      else p
    else p

/-! ## The handler -/

variable {b : Browser} {w : Wire} {tool : Str} {p : Page}

theorem utf16_eq_nil {s : Str} : utf16 s = [] ↔ s = [] := by
  cases s with
  | nil => exact iff_of_true rfl rfl
  | cons c s =>
    refine iff_of_false (fun h => ?_) (List.cons_ne_nil _ _)
    unfold utf16 Json.unitsOf at h
    rw [List.flatMap_cons] at h
    split at h <;> cases h

/-- A text the page reads is handled by its fields. -/
theorem onmessage_read {v : Py} {data : Str} {recLimit : Nat} (hv : Js.valid v = true)
    (h : Json.dumps recLimit v = .ok data) : p.onmessage b data =
      if Js.finite v then
        match Js.ofPy v with
        | .null => p
        | x => (p.appendLine b (prop x "line")).showStatus b x
      else p := by
  unfold Page.onmessage
  rw [Js.parse_encode hv h]
  cases Js.finite v with
  | false => rfl
  | true => cases Js.ofPy v <;> rfl

theorem appendLine_str (p : Page) (s : Str) :
    p.appendLine b (some (.str s)) = { p with output := p.output ++ s } := by
  unfold Page.appendLine
  by_cases h : s = []
  · subst h
    simp [truthy]
  · simp [truthy, h, Browser.text]

theorem onmessage_line {line data : Str} {recLimit : Nat} (hv : Js.valid (lineDict line) = true)
    (h : Json.dumps recLimit (lineDict line) = .ok data) :
    p.onmessage b data = { p with output := p.output ++ utf16 line } := by
  have hf : Js.finite (lineDict line) = true := rfl
  rw [onmessage_read hv h, if_pos hf]
  exact appendLine_str p (utf16 line)

theorem onmessage_error {error data : Str} {recLimit : Nat}
    (hv : Js.valid (errorDict error) = true) (h : Json.dumps recLimit (errorDict error) = .ok data) :
    p.onmessage b data = Page.cleanupConnection { p with
      status := b.toUpperCase (str "error")
      badge := .idle
      output := p.output ++ if error = [] then [] else Page.errorLine (utf16 error) } := by
  have hf : Js.finite (errorDict error) = true := rfl
  have hst : prop (Js.ofPy (errorDict error)) "status" = some (.str (str "error")) := rfl
  have herr : prop (Js.ofPy (errorDict error)) "error" = some (.str (utf16 error)) := rfl
  have hne : str "error" ≠ [] := by decide
  have hno : ¬ str "error" = str "success" := by decide
  have hread : (p.onmessage b data) = Page.showStatus b p (Js.ofPy (errorDict error)) := by
    rw [onmessage_read hv h, if_pos hf]
    rfl
  rw [hread]
  simp only [Page.showStatus, hst, herr, if_neg hne, if_neg hno, Page.appendError, truthy,
    decide_eq_true_eq, Browser.text]
  by_cases he : error = []
  · subst he
    simp [utf16]
  · have hu : utf16 error ≠ [] := fun h => he (utf16_eq_nil.mp h)
    rw [if_pos hu, if_neg he]

theorem onmessage_success {duration : ℚ} {parsed : Metrics Binary64} {summary : Py} {data : Str}
    (hv : Js.valid (w.successDict tool duration parsed summary) = true)
    (h : w.text tool (.success duration parsed summary) = .ok data) :
    p.onmessage b data = receive b w tool p (.success duration parsed summary) := by
  have hst : prop (Js.ofPy (w.successDict tool duration parsed summary)) "status" =
      some (.str (str "success")) := rfl
  have hline : prop (Js.ofPy (w.successDict tool duration parsed summary)) "line" = none := rfl
  have hconfig : prop (Js.ofPy (w.successDict tool duration parsed summary)) "config" =
      some (Js.ofPy (w.config tool)) := rfl
  have hparsed : prop (Js.ofPy (w.successDict tool duration parsed summary)) "parsed_metrics" =
      some (Js.ofPy (.dict (parsed.map fun e => (e.1, .float e.2)))) := rfl
  have hsummary : prop (Js.ofPy (w.successDict tool duration parsed summary)) "parsed_summary" =
      some (Js.ofPy summary) := rfl
  have hne : str "success" ≠ [] := by decide
  have hread : p.onmessage b data =
      if w.readable tool (.success duration parsed summary) then
        Page.showStatus b p (Js.ofPy (w.successDict tool duration parsed summary))
      else p := by
    rw [onmessage_read hv h]
    rfl
  rw [hread, receive]
  refine if_congr Iff.rfl ?_ rfl
  simp only [Page.showStatus, hst, if_neg hne, if_true, Page.showResult, hconfig, hparsed, hsummary]
  unfold shows chartOf
  generalize b.updateChart _ _ = r
  obtain ⟨chart, drawn⟩ := r
  cases drawn with
  | false => rfl
  | true =>
    cases renderSummaryTable (some (Js.ofPy summary)) <;> rfl

/-- **One event.** The handler of the page on the text of an event. -/
theorem onmessage_payload {e : Event Py} {data : Str} (hv : Js.valid (w.payload tool e) = true)
    (h : w.text tool e = .ok data) : p.onmessage b data = receive b w tool p e := by
  cases e with
  | rejected => exact onmessage_error hv h
  | line text => exact onmessage_line hv h
  | truncated => exact onmessage_line hv h
  | success duration parsed summary => exact onmessage_success hv h
  | error msg => exact onmessage_error hv h

/-! ## What an event leaves of the page -/

/-- The fields that are about the run shown. -/
structure View where
  status : Str
  badge : BadgeClass
  output : Str
  chart : Option Chart
  summary : Option SummaryTable

def Page.view (p : Page) : View := ⟨p.status, p.badge, p.output, p.chart, p.summary⟩

@[simp] theorem view_cleanup (p : Page) : p.cleanupConnection.view = p.view := by
  unfold Page.cleanupConnection
  split <;> rfl

/-- Every event adds its text to the output. -/
theorem output_receive (p : Page) (e : Event Py) :
    (receive b w tool p e).output = p.output ++ pageText e := by
  have hclean (q : Page) : q.cleanupConnection.output = q.output :=
    congrArg View.output (view_cleanup q)
  cases e with
  | line _ | truncated => rfl
  | rejected | error _ => exact hclean _
  | success d parsed summary =>
    simp only [receive, pageText, List.append_nil]
    split
    · split
      · exact hclean _
      · rfl
    · rfl

/-- The connection is closed with the events that close it. -/
theorem conns_receive (p : Page) (e : Event Py) : (receive b w tool p e).conns =
    if closes b w tool e then p.cleanupConnection.conns else p.conns := by
  cases e with
  | line _ | truncated => rfl
  | rejected | error _ => exact cleanup_congr rfl
  | success d parsed summary =>
    simp only [receive, closes, Bool.and_eq_true]
    by_cases hr : w.readable tool (.success d parsed summary) = true
    · by_cases hs : shows b w tool parsed summary = true
      · rw [if_pos hr, if_pos hs, if_pos ⟨hr, hs⟩]
        exact cleanup_congr rfl
      · rw [if_pos hr, if_neg hs, if_neg fun h => hs h.2]
        rfl
    · rw [if_neg hr, if_neg fun h => hr h.1]

/-- Only a status event that can be read changes the badge. -/
theorem badge_receive (p : Page) (e : Event Py) : (receive b w tool p e).badge =
    match e.status with
    | none => p.badge
    | some .error => .idle
    | some .success => if w.readable tool e then .success else p.badge := by
  have hclean (q : Page) : q.cleanupConnection.badge = q.badge :=
    congrArg View.badge (view_cleanup q)
  cases e with
  | line _ | truncated => rfl
  | rejected | error _ => exact hclean _
  | success d parsed summary =>
    simp only [receive, Event.status]
    split
    · split
      · exact hclean _
      · rfl
    · rfl

end EbpfDemo.L4Client.Dashboard
