import EbpfDemo.Core.Stretch
import EbpfDemo.L1Encoding.Url
import EbpfDemo.L4Client.Dashboard
import EbpfDemo.L4Client.ToolPath

/-!
# The request of a run

A click writes the tool and the duration into a URL; the server takes them out of its path
and its query, checks the duration and looks the tool up. The page clamps the duration so
that the server does not answer 422.

**The framework (`Framework`, a parameter).** FastAPI takes the tool out of the path and the
duration out of the query and calls the handler. What is used of it is `Documented`:
* a path parameter is one segment of the path, with its escapes undone;
* letters, digits, points and dashes in a query stand for themselves;
* a decimal number is read as the double next to it, and passes if it is within the bounds;
* a request whose parameters are there and pass is answered by the handler.

**Results.**
* `request_answered`: whatever number stands in the input, the server looks up the very
  tool of the option, for the very duration the page shows; so every listed tool that
  `Plain` allows can be started.
-/
namespace EbpfDemo.L4Client.Request

open EbpfDemo.Core EbpfDemo.L1Encoding
open Url (encodeURIComponent numberText unquote)
open Dashboard.Page (clampDuration)

/-! ## The page -/

/-- `none` is the `URIError` of `encodeURIComponent`.
mirrors src/client/static/app.js:132 -/
def url (tool : Str) (duration : Binary64) : Option Str :=
  (encodeURIComponent tool).map fun t =>
    str "/run/stream/" ++ (t ++ (str "?duration=" ++ numberText duration))

/-! ## The server -/

/-- `status` is an answer of the framework itself. -/
inductive Answer where
  | status (code : Nat)
  | raises (e : ToolError)
  | streams (toolPath : Path) (duration : Binary64)
  deriving DecidableEq

/-- mirrors src/client/main.py:205-213 -/
def runToolStream (s : Site) (toolName : Str) (duration : Binary64) : Answer :=
  if duration.isFinite then
    match s.getToolPath toolName with
    | .ok toolPath => .streams toolPath duration
    | .error e => .raises e
  else .raises (.http 400 "duration must be finite")

/-- `name: float = Query(default, gt=gt, le=le)` -/
structure FloatQuery where
  name : Str
  default : ℚ
  gt : ℚ
  le : ℚ

/-- mirrors src/client/main.py:95, 209 -/
def durationQuery : FloatQuery := ⟨str "duration", 10, 0, 300⟩

/-- The framework around a handler of the route `/run/stream/{tool_name}`. -/
structure Framework where
  /-- `tool_name` -/
  toolName : Str → Option Str
  /-- The value of a name in the query. -/
  queryParam : Str → Str → Option Str
  /-- A number above `gt` and up to `le`. -/
  float : ℚ → ℚ → Str → Option Binary64
  respond : FloatQuery → (Str → Binary64 → Answer) → Str → Answer

/-- What its documentation says. -/
structure Framework.Documented (F : Framework) : Prop where
  segment : ∀ {e t : Str} (query : Str), (∀ c ∈ e, Url.isKept c = true ∨ c = 0x25) →
    unquote e = t → t ≠ [] → 0x2F ∉ t →
    F.toolName (str "/run/stream/" ++ (e ++ 0x3F :: query)) = some t
  plain : ∀ {path name v : Str}, 0x3F ∉ path → (∀ c ∈ name ++ v, isKeyChar c = true) →
    F.queryParam name (path ++ 0x3F :: (name ++ 0x3D :: v)) = some v
  decimal : ∀ {gt le q d : ℚ} {v : Str} (hd : Representable d), Js.unsigned v = some (q, []) →
    Binary64.ofRat q = .fin d hd → gt < d → d ≤ le → F.float gt le v = some (.fin d hd)
  handled : ∀ {q : FloatQuery} (handler : Str → Binary64 → Answer) {url t v : Str} {d : Binary64},
    F.toolName url = some t → F.queryParam q.name url = some v → F.float q.gt q.le v = some d →
    F.respond q handler url = handler t d

/-- What comes of a request. -/
def answer (F : Framework) (s : Site) (url : Str) : Answer :=
  F.respond durationQuery (runToolStream s) url

/-! ## The request -/

variable {F : Framework} {s : Site} {t : Str}

/-- The page's duration is within the bounds, and its text a plain decimal. -/
theorem float_clamp (hF : F.Documented) (x : Binary64) :
    F.float durationQuery.gt durationQuery.le (numberText (clampDuration x)) =
        some (clampDuration x) ∧
      (∀ c ∈ numberText (clampDuration x), isKeyChar c = true) ∧
      (clampDuration x).isFinite = true := by
  have hrange := Dashboard.duration_mem x
  generalize clampDuration x = d at hrange
  cases d with
  | nan => exact hrange.elim
  | inf neg => exact hrange.elim
  | fin q hq =>
    obtain ⟨h1, h300⟩ := hrange
    have hpos : 0 < q := one_pos.trans_le h1
    obtain ⟨htext, hchars⟩ := Url.unsigned_numberText hq h1 (h300.trans_lt (by norm_num))
    refine ⟨hF.decimal hq htext (Decimal.ofRat_shortest hpos hq) hpos h300, ?_, rfl⟩
    intro c hc
    rcases hchars c hc with h | rfl
    · simp only [Json.isDigit, Bool.and_eq_true, decide_eq_true_eq] at h
      simp [isKeyChar, h]
    · decide

/-- The handler gets the tool and the duration of the page. -/
theorem answer_click (hF : F.Documented) (s : Site) (ht : Name.Proper t) (hs : ∀ c ∈ t, Scalar c)
    (x : Binary64) : ∃ u, url (Json.utf16 t) (clampDuration x) = some u ∧
      answer F s u = runToolStream s t (clampDuration x) := by
  obtain ⟨hspecial, hslash⟩ := ht
  have hne : t ≠ [] := fun h => hspecial (.inl (.inl h))
  obtain ⟨e, hencode, hunquote, hkept⟩ := Url.unquote_component hs
  obtain ⟨hfloat, hplain, -⟩ := float_clamp hF x
  have hpath : 0x3F ∉ str "/run/stream/" ++ e := by
    intro hc
    rcases List.mem_append.mp hc with hc | hc
    · exact absurd hc (by decide)
    · rcases hkept _ hc with h | h <;> cases h
  have hkey : ∀ c ∈ str "duration" ++ numberText (clampDuration x), isKeyChar c = true := by
    intro c hc
    rcases List.mem_append.mp hc with hc | hc
    · have hname : ∀ c ∈ str "duration", isKeyChar c = true := by decide
      exact hname c hc
    · exact hplain c hc
  have htool := hF.segment (str "duration=" ++ numberText (clampDuration x)) hkept hunquote hne
    hslash
  have hquery := hF.plain hpath hkey
  rw [List.append_assoc] at hquery
  exact ⟨_, congrArg (Option.map _) hencode,
    hF.handled (runToolStream s) htool hquery hfloat⟩

/-- **The answer to a click.** Whatever stood in the input, the server looks up the tool of
the option for the duration of the page; so a listed tool with a plain name and no link in
its way is started. -/
theorem request_answered (F : Framework) (hF : F.Documented) (s : Site) (ht : Name.Proper t)
    (hs : ∀ c ∈ t, Scalar c) (x : Binary64) : ∃ u,
      url (Json.utf16 t) (clampDuration x) = some u ∧
      (∀ p, s.getToolPath t = .ok p → answer F s u = .streams p (clampDuration x)) ∧
      (∀ e, s.getToolPath t = .error e → answer F s u = .raises e) ∧
      (s.Listed t → s.Plain t → ∃ bin,
        answer F s u = .streams (bin ++ [t]) (clampDuration x) ∧
        s.fs.node (bin ++ [t]) = some (.file true)) := by
  obtain ⟨u, hu, hanswer⟩ := answer_click hF s ht hs x
  obtain ⟨-, -, hfinite⟩ := float_clamp hF x
  have hok : ∀ p, s.getToolPath t = .ok p →
      runToolStream s t (clampDuration x) = .streams p (clampDuration x) := by
    intro p hp
    rw [runToolStream, if_pos hfinite, hp]
  refine ⟨u, hu, ?_⟩
  rw [hanswer]
  refine ⟨hok, ?_, ?_⟩
  · intro e he
    rw [runToolStream, if_pos hfinite, he]
  · intro hlist hplain
    have hagree := Site.agree_of_plain hplain
    obtain ⟨p, hp⟩ := hagree.same.mpr hlist
    obtain ⟨bin, -, rfl, hnode⟩ := hagree.direct p hp
    exact ⟨bin, hok _ hp, hnode⟩

/-! ## A small framework -/

namespace Small

def toolName (target : Str) : Option Str :=
  let path := unquote (target.takeWhile (· ≠ 0x3F))
  let name := path.drop (str "/run/stream/").length
  if str "/run/stream/" <+: path ∧ name ≠ [] ∧ 0x2F ∉ name then some name else none

/-- A single parameter, without escapes. -/
def queryParam (name target : Str) : Option Str :=
  let query := (target.dropWhile (· ≠ 0x3F)).drop 1
  if name ++ [0x3D] <+: query then some (query.drop (name ++ [0x3D]).length) else none

/-- Numbers as JSON has them, without a sign. -/
def float (gt le : ℚ) (v : Str) : Option Binary64 :=
  match Js.unsigned v with
  | some (q, []) =>
    match Binary64.ofRat q with
    | .fin d hd => if gt < d ∧ d ≤ le then some (.fin d hd) else none
    | _ => none
  | _ => none

def respond (q : FloatQuery) (handler : Str → Binary64 → Answer) (target : Str) : Answer :=
  match toolName target, queryParam q.name target with
  | none, _ => .status 404
  | some t, none => handler t (.ofRat q.default)
  | some t, some v =>
    match float q.gt q.le v with
    | none => .status 422
    | some d => handler t d

end Small

def Framework.small : Framework := ⟨Small.toolName, Small.queryParam, Small.float, Small.respond⟩

theorem small_documented : Framework.small.Documented where
  segment := by
    intro e t query hkept hunquote hne hslash
    have hpath : ∀ c ∈ str "/run/stream/" ++ e, decide (c ≠ 0x3F) = true := by
      intro c hc
      apply decide_eq_true
      rintro rfl
      rcases List.mem_append.mp hc with hc | hc
      · exact absurd hc (by decide)
      · rcases hkept _ hc with h | h <;> cases h
    have hroute : ∀ c ∈ str "/run/stream/", c < 0x80 ∧ c ≠ 0x25 := by decide
    show Small.toolName _ = some t
    unfold Small.toolName
    dsimp only
    rw [← List.append_assoc, takeWhile_stop hpath (by intro c hc; cases hc; rfl),
      Url.unquote_plain hroute, hunquote, List.drop_left]
    exact if_pos ⟨List.prefix_append _ _, hne, hslash⟩
  plain := by
    intro path name v hpath _
    have hstop : ∀ c ∈ path, decide (c ≠ 0x3F) = true := fun c hc =>
      decide_eq_true fun h => hpath (h ▸ hc)
    show Small.queryParam name _ = some v
    unfold Small.queryParam
    dsimp only
    rw [dropWhile_stop hstop (by intro c hc; cases hc; rfl), List.drop_one, List.tail_cons,
      List.append_cons name 0x3D v, if_pos (List.prefix_append _ _), List.drop_left]
  decimal := by
    intro gt le q d v hd hv hq hgt hle
    show Small.float gt le v = _
    unfold Small.float
    rw [hv]
    dsimp only
    rw [hq]
    exact if_pos ⟨hgt, hle⟩
  handled := by
    intro q handler target t v d ht hv hd
    show Small.respond q handler target = _
    unfold Small.respond
    rw [show Small.toolName target = some t from ht,
      show Small.queryParam q.name target = some v from hv]
    dsimp only
    rw [show Small.float q.gt q.le v = some d from hd]

/-- No number in the input: ten seconds. -/
theorem request_answered_empty : ∃ u,
    url (Json.utf16 (str "irq_stat")) (clampDuration .nan) = some u ∧
      answer .small .served u = .streams [str "b", str "irq_stat"] (.ofRat 10) := by
  have hpath : Site.served.getToolPath (str "irq_stat") = .ok [str "b", str "irq_stat"] := by decide
  obtain ⟨u, hu, hok, -⟩ := request_answered (t := str "irq_stat") .small small_documented .served
    (by decide) (by decide) .nan
  exact ⟨u, hu, hok _ hpath⟩

end EbpfDemo.L4Client.Request
