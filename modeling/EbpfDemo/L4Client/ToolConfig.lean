import EbpfDemo.L1Encoding.Metrics

/-!
# What load_tool_config accepts

The client checks its configuration once, when it is imported: the document, its
`tools` and its `default` have to be objects, and a tool's configuration that
lacks a required field is a `RuntimeError`. Whether a field is there is asked
with `in`, and that the configuration of a tool is an object is not asked at all:
`in` looks for an equal element in a list, for a part of a string, and raises
`TypeError` on a number, a boolean or null.

* `loadToolConfig_iff`: for a document that parses, the call raises
  `RuntimeError` or returns configurations whose fields can be read exactly when
  the document is `Checkable`: every tool's configuration is an object, or the
  loop comes to one that lacks a field before it comes to one `in` cannot search.
* `loadToolConfig_unchecked`: a number for a configuration, and a string that
  names both fields.
* `summarize_of_ready`, `summarize_raises`: whether the field can be read shows
  at the end of a run.
-/
namespace EbpfDemo.L4Client.ToolConfig

open EbpfDemo.Core EbpfDemo.L1Encoding

/-- A JSON object as a `dict`. -/
abbrev Obj := List (Str × Json.Value)

/-- What leaves a call: `RuntimeError`, `TypeError`, `KeyError`, a `ValueError` that
is no `JSONDecodeError`, `RecursionError`. -/
inductive PyExc where
  | runtimeError (msg : Str)
  | typeError
  | keyError
  | valueError
  | recursionError
  deriving DecidableEq

/-- What opening and reading the file comes to. -/
inductive ConfigFile where
  | osError (msg : Str)
  | undecodable
  | text (s : Str)

/-- `CONFIG_PATH` as a text, the message of the `JSONDecodeError` of a text, how deep
`json` follows nested values. -/
structure Site where
  configPath : Str
  decodeError : Str → Str
  recLimit : Nat

/-- mirrors src/client/main.py:34 -/
def REQUIRED_TOOL_CONFIG_KEYS : List Str := [str "category", str "chart_type"]

/-! ## The operators -/

/-- `k in config`; `none` is the `TypeError`. -/
def contains (k : Str) : Json.Value → Option Bool
  | .obj kvs => some (Assoc.find k kvs).isSome
  | .arr xs => some (xs.any fun x => match x with
      | .str s => s = k
      | _ => false)
  | .str s => some (decide (k <:+: s))
  | _ => none

/-- `config[k]` -/
def subscript (config : Json.Value) (k : Str) : Except PyExc Json.Value :=
  match config with
  | .obj kvs =>
    match Assoc.find k kvs with
    | some v => .ok v
    | none => .error .keyError
  | _ => .error .typeError

/-! ## The functions -/

/-- `[k for k in keys if k not in tool_config]` -/
def missing : List Str → Json.Value → Option (List Str)
  | [], _ => some []
  | k :: ks, config => do
    let present ← contains k config
    let rest ← missing ks config
    pure (if present then rest else k :: rest)

namespace Site

/-- mirrors src/client/main.py:42 -/
def cannotLoad (c : Site) (error : Str) : PyExc :=
  .runtimeError (str "无法加载工具配置 " ++ c.configPath ++ str ": " ++ error)

/-- mirrors src/client/main.py:45 -/
def notAnObject (c : Site) : PyExc :=
  .runtimeError (str "工具配置必须是 JSON 对象: " ++ c.configPath)

/-- mirrors src/client/main.py:50 -/
def partsNotObjects (c : Site) : PyExc :=
  .runtimeError (str "工具配置的 tools/default 必须是 JSON 对象: " ++ c.configPath)

/-- mirrors src/client/main.py:54-56 -/
def lacksFields (c : Site) (toolName : Str) (missing : List Str) : PyExc :=
  .runtimeError (str "工具 " ++ toolName ++ str " 的配置缺少必需字段: " ++
    (str ", ").intercalate missing ++ str " (" ++ c.configPath ++ str ")")

/-- mirrors src/client/main.py:38-42 -/
def readConfig (c : Site) : ConfigFile → Except PyExc Json.Value
  | .osError msg => .error (c.cannotLoad msg)
  | .undecodable => .error .valueError
  | .text s =>
    match Json.loads c.recLimit s with
    | .ok v => .ok v
    | .error .decode => .error (c.cannotLoad (c.decodeError s))
    | .error .tooManyDigits => .error .valueError
    | .error .recursion => .error .recursionError

/-- mirrors src/client/main.py:51-56 -/
def checkTools (c : Site) : Obj → Except PyExc Unit
  | [] => .ok ()
  | (toolName, toolConfig) :: rest =>
    match missing REQUIRED_TOOL_CONFIG_KEYS toolConfig with
    | none => .error .typeError
    | some [] => c.checkTools rest
    | some ks => .error (c.lacksFields toolName ks)

/-- `TOOL_CONFIGS` and `DEFAULT_CONFIG`.
mirrors src/client/main.py:37-57 -/
def loadToolConfig (c : Site) (file : ConfigFile) : Except PyExc (Obj × Obj) := do
  match ← c.readConfig file with
  | .obj config =>
    match Dict.getD config (str "tools") (.obj []), Dict.getD config (str "default") (.obj []) with
    | .obj toolConfigs, .obj defaultConfig => do
      c.checkTools toolConfigs
      pure (toolConfigs, defaultConfig)
    | _, _ => .error c.partsNotObjects
  | _ => .error c.notAnObject

end Site

structure Summary where
  toolType : Json.Value
  count : Nat
  sum : ℚ
  avg : ℚ
  max : ℚ
  ratePerSec : ℚ
  topKeys : List (Str × ℚ)

/-- The summary of a run, `none` if there are no metrics; on exact numbers.
mirrors src/client/main.py:159-177 -/
def summarizeToolMetrics (toolConfigs defaultConfig : Obj) (toolName : Str) (metrics : Metrics ℚ)
    (duration : ℚ) : Except PyExc (Option Summary) :=
  let config := Dict.getD toolConfigs toolName (.obj defaultConfig)
  let vals := metrics.map Prod.snd
  if vals = [] then .ok none
  else do
    let toolType ← subscript config (str "category")
    pure (some {
      toolType := toolType
      count := vals.length
      sum := vals.sum
      avg := vals.sum / vals.length
      max := vals.max?.getD 0
      ratePerSec := if duration > 0 then vals.length / duration else 0
      topKeys := (metrics.mergeSort fun a b => b.2 ≤ a.2).take 5 })

/-! ## What a configuration is good for -/

/-- Both fields can be read. -/
def Ready (config : Json.Value) : Prop :=
  ∀ k ∈ REQUIRED_TOOL_CONFIG_KEYS, ∃ v, subscript config k = .ok v

/-- `RuntimeError`, or configurations whose fields can be read. -/
def Validated (r : Except PyExc (Obj × Obj)) : Prop :=
  (∃ msg, r = .error (.runtimeError msg)) ∨
    ∃ toolConfigs defaultConfig, r = .ok (toolConfigs, defaultConfig) ∧
      ∀ e ∈ toolConfigs, (∃ kvs, e.2 = .obj kvs) ∧ Ready e.2

def isObject : Json.Value → Bool
  | .obj _ => true
  | _ => false

/-- A value `in` can search. -/
def isSearchable : Json.Value → Bool
  | .obj _ | .arr _ | .str _ => true
  | _ => false

/-- `in` does not find every field. -/
def Lacks (config : Json.Value) : Prop :=
  ∃ k ∈ REQUIRED_TOOL_CONFIG_KEYS, contains k config = some false

/-- A configuration lacks a field, and all before it can be searched. -/
def ComesToLack : Obj → Prop
  | [] => False
  | e :: rest => Lacks e.2 ∨ isSearchable e.2 = true ∧ ComesToLack rest

/-- The members of an object. -/
def members : Json.Value → Obj
  | .obj kvs => kvs
  | _ => []

/-- `config.get(k, {})` -/
def part (v : Json.Value) (k : String) : Json.Value := Dict.getD (members v) (str k) (.obj [])

/-- If the document and its two parts are objects, every tool's configuration is
an object, or the loop comes to one that lacks a field. -/
def Checkable (v : Json.Value) : Prop :=
  isObject v = true → isObject (part v "tools") = true → isObject (part v "default") = true →
    (∀ e ∈ members (part v "tools"), isObject e.2 = true) ∨ ComesToLack (members (part v "tools"))

instance (config : Json.Value) : Decidable (Lacks config) :=
  inferInstanceAs (Decidable (∃ k ∈ REQUIRED_TOOL_CONFIG_KEYS, _))

instance decidableComesToLack : ∀ tools : Obj, Decidable (ComesToLack tools)
  | [] => isFalse id
  | e :: rest =>
    have := decidableComesToLack rest
    inferInstanceAs (Decidable (Lacks e.2 ∨ isSearchable e.2 = true ∧ ComesToLack rest))

instance : DecidablePred Checkable := fun v =>
  inferInstanceAs (Decidable (isObject v = true → _ → _ →
    _ ∨ ComesToLack (members (part v "tools"))))

variable {config : Json.Value}

theorem isObject_iff : isObject config = true ↔ ∃ kvs, config = .obj kvs := by
  cases config <;> simp [isObject]

theorem searchable_of_object (h : isObject config = true) : isSearchable config = true := by
  obtain ⟨kvs, rfl⟩ := isObject_iff.mp h
  rfl

theorem contains_searchable (h : isSearchable config = true) (k : Str) :
    ∃ b, contains k config = some b := by
  cases config <;> first | exact ⟨_, rfl⟩ | cases h

theorem contains_unsearchable (h : isSearchable config = false) (k : Str) :
    contains k config = none := by
  cases config <;> first | rfl | cases h

/-- In an object a field is found exactly when it can be read. -/
theorem subscript_of_contains (ho : isObject config = true) {k : Str}
    (h : contains k config = some true) : ∃ v, subscript config k = .ok v := by
  obtain ⟨kvs, rfl⟩ := isObject_iff.mp ho
  obtain ⟨v, hv⟩ := Option.isSome_iff_exists.mp (Option.some.inj h)
  exact ⟨v, by simp only [subscript, hv]⟩

/-- The list of what is missing, for a configuration `in` can search. -/
theorem missing_searchable (h : isSearchable config = true) : ∀ ks : List Str,
    ∃ ms, missing ks config = some ms ∧ (ms = [] ↔ ∀ k ∈ ks, contains k config = some true)
  | [] => ⟨[], rfl, by simp⟩
  | k :: ks => by
    obtain ⟨b, hb⟩ := contains_searchable h k
    obtain ⟨ms, hms, hiff⟩ := missing_searchable h ks
    have heq : missing (k :: ks) config = some (if b then ms else k :: ms) := by
      simp only [missing, hb, hms]; rfl
    refine ⟨_, heq, ?_⟩
    cases b with
    | true => simp [hb, hiff]
    | false => simp [hb]

theorem lacks_iff (h : isSearchable config = true) :
    Lacks config ↔ ¬ ∀ k ∈ REQUIRED_TOOL_CONFIG_KEYS, contains k config = some true := by
  unfold Lacks
  constructor
  · rintro ⟨k, hk, hf⟩ hall
    rw [hall k hk] at hf
    cases hf
  · intro hn
    simp only [not_forall] at hn
    obtain ⟨k, hk, hne⟩ := hn
    obtain ⟨b, hb⟩ := contains_searchable h k
    cases b with
    | true => exact absurd hb hne
    | false => exact ⟨k, hk, hb⟩

theorem not_lacks (h : isSearchable config = false) : ¬ Lacks config := by
  rintro ⟨k, -, hf⟩
  rw [contains_unsearchable h k] at hf
  cases hf

/-- What the test of one configuration comes to. -/
theorem missing_cases (config : Json.Value) :
    (missing REQUIRED_TOOL_CONFIG_KEYS config = none ∧ isSearchable config = false) ∨
    (missing REQUIRED_TOOL_CONFIG_KEYS config = some [] ∧ isSearchable config = true ∧
      ¬ Lacks config) ∨
    (∃ k ks, missing REQUIRED_TOOL_CONFIG_KEYS config = some (k :: ks)) ∧ Lacks config := by
  cases hs : isSearchable config with
  | false =>
    refine .inl ⟨?_, rfl⟩
    simp only [REQUIRED_TOOL_CONFIG_KEYS, missing, contains_unsearchable hs]; rfl
  | true =>
    obtain ⟨ms, hms, hiff⟩ := missing_searchable hs REQUIRED_TOOL_CONFIG_KEYS
    rw [hms]
    cases ms with
    | nil => exact .inr (.inl ⟨rfl, rfl, fun hl => (lacks_iff hs).mp hl (hiff.mp rfl)⟩)
    | cons k ks =>
      refine .inr (.inr ⟨⟨k, ks, rfl⟩, (lacks_iff hs).mpr fun hall => ?_⟩)
      cases hiff.mpr hall

/-! ## The loop -/

variable {c : Site}

/-- It ends when nothing is missing anywhere. -/
theorem checkTools_ok : ∀ {tools : Obj},
    c.checkTools tools = .ok () ↔ ∀ e ∈ tools, isSearchable e.2 = true ∧ ¬ Lacks e.2
  | [] => by simp [Site.checkTools]
  | (name, config) :: rest => by
    have ih : c.checkTools rest = .ok () ↔ _ := checkTools_ok
    unfold Site.checkTools
    rw [List.forall_mem_cons, ← ih]
    rcases missing_cases config with ⟨hm, hs⟩ | ⟨hm, hs, hl⟩ | ⟨⟨k, ks, hm⟩, hl⟩
    · simp [hm, hs]
    · simp [hm, hs, hl]
    · simp [hm, hl]

theorem checkTools_runtimeError : ∀ {tools : Obj},
    (∃ msg, c.checkTools tools = .error (.runtimeError msg)) ↔ ComesToLack tools
  | [] => by simp [Site.checkTools, ComesToLack]
  | (name, config) :: rest => by
    have ih : (∃ msg, c.checkTools rest = .error (.runtimeError msg)) ↔ _ := checkTools_runtimeError
    unfold Site.checkTools ComesToLack
    rw [← ih]
    rcases missing_cases config with ⟨hm, hs⟩ | ⟨hm, hs, hl⟩ | ⟨⟨k, ks, hm⟩, hl⟩
    · simp [hm, hs, not_lacks hs]
    · simp [hm, hs, hl]
    · simp [hm, hl, Site.lacksFields]

/-- Nothing is missing in a list of objects that do not come to a lack. -/
theorem complete_of_objects : ∀ {tools : Obj}, (∀ e ∈ tools, isObject e.2 = true) →
    ¬ ComesToLack tools → ∀ e ∈ tools, isSearchable e.2 = true ∧ ¬ Lacks e.2
  | [], _, _ => fun _ he => absurd he List.not_mem_nil
  | e :: rest, ho, hn => by
    have hs := searchable_of_object (ho e List.mem_cons_self)
    rw [List.forall_mem_cons]
    refine ⟨⟨hs, fun hl => hn (.inl hl)⟩, ?_⟩
    exact complete_of_objects (fun x hx => ho x (List.mem_cons_of_mem _ hx))
      fun hr => hn (.inr ⟨hs, hr⟩)

theorem not_comesToLack : ∀ {tools : Obj}, (∀ e ∈ tools, ¬ Lacks e.2) → ¬ ComesToLack tools
  | [], _ => id
  | e :: rest, h => by
    rintro (hl | ⟨-, hr⟩)
    · exact h e List.mem_cons_self hl
    · exact not_comesToLack (fun x hx => h x (List.mem_cons_of_mem _ hx)) hr

theorem ready_of_complete (ho : isObject config = true) (hl : ¬ Lacks config) : Ready config := by
  intro k hk
  have hall := not_not.mp (mt (lacks_iff (searchable_of_object ho)).mpr hl)
  exact subscript_of_contains ho (hall k hk)

/-- **The loop.** It leaves a `RuntimeError` or configurations whose fields can
be read exactly when all are objects or one that lacks a field comes first. -/
theorem validated_tools (toolConfigs defaultConfig : Obj) :
    Validated (do c.checkTools toolConfigs; pure (toolConfigs, defaultConfig)) ↔
      (∀ e ∈ toolConfigs, isObject e.2 = true) ∨ ComesToLack toolConfigs := by
  unfold Validated
  cases hr : c.checkTools toolConfigs with
  | ok u =>
    have hcomplete := checkTools_ok.mp hr
    have hn := not_comesToLack fun e he => (hcomplete e he).2
    constructor
    · rintro (⟨msg, hmsg⟩ | ⟨t, d, heq, hall⟩)
      · cases hmsg
      · cases heq
        exact .inl fun e he => isObject_iff.mpr (hall e he).1
    · intro h
      have ho := h.resolve_right hn
      exact .inr ⟨_, _, rfl, fun e he =>
        ⟨isObject_iff.mp (ho e he), ready_of_complete (ho e he) (hcomplete e he).2⟩⟩
  | error e =>
    constructor
    · rintro (⟨msg, hmsg⟩ | ⟨t, d, heq, hall⟩)
      · cases hmsg
        exact .inr (checkTools_runtimeError.mp ⟨msg, hr⟩)
      · cases heq
    · intro h
      by_cases hl : ComesToLack toolConfigs
      · obtain ⟨msg, hmsg⟩ := checkTools_runtimeError (c := c).mpr hl
        rw [hmsg] at hr
        cases hr
        exact .inl ⟨msg, rfl⟩
      · have hok := checkTools_ok (c := c).mpr (complete_of_objects (h.resolve_right hl) hl)
        rw [hok] at hr
        cases hr

/-! ## The document -/

theorem readConfig_loads {text : Str} {v : Json.Value} (h : Json.loads c.recLimit text = .ok v) :
    c.readConfig (.text text) = .ok v := by
  simp only [Site.readConfig, h]

theorem validated_runtimeError (msg : Str) : Validated (.error (.runtimeError msg)) :=
  .inl ⟨msg, rfl⟩

/-- **Configuration.** A document that parses is answered with `RuntimeError` or
with configurations whose fields can be read exactly when every tool's
configuration is an object, or the loop comes to one that lacks a field. -/
theorem loadToolConfig_iff (c : Site) {text : Str} {v : Json.Value}
    (h : Json.loads c.recLimit text = .ok v) :
    Validated (c.loadToolConfig (.text text)) ↔ Checkable v := by
  unfold Site.loadToolConfig
  rw [readConfig_loads h]
  cases v with
  | obj config =>
    have hparts : ∀ x y : Json.Value, Validated (match x, y with
        | .obj toolConfigs, .obj defaultConfig => do
          c.checkTools toolConfigs
          pure (toolConfigs, defaultConfig)
        | _, _ => .error c.partsNotObjects) ↔
        (isObject x = true → isObject y = true →
          (∀ e ∈ members x, isObject e.2 = true) ∨ ComesToLack (members x)) := by
      intro x y
      split
      · rw [validated_tools]
        exact ⟨fun hr _ _ => hr, fun hr => hr rfl rfl⟩
      · rename_i hne
        refine ⟨fun _ hx hy => ?_, fun _ => validated_runtimeError _⟩
        obtain ⟨t, rfl⟩ := isObject_iff.mp hx
        obtain ⟨d, rfl⟩ := isObject_iff.mp hy
        exact absurd rfl (hne t d rfl)
    exact (hparts _ _).trans ⟨fun hr _ => hr, fun hr => hr rfl⟩
  | null | bool | int | float | str | arr =>
    exact ⟨fun _ hv => (by cases hv), fun _ => validated_runtimeError _⟩

/-! ## At the end of a run -/

variable {toolConfigs defaultConfig : Obj} {toolName : Str} {metrics : Metrics ℚ}

/-- A configuration whose fields can be read is no obstacle to a summary. -/
theorem summarize_of_ready (hready : ∀ e ∈ toolConfigs, Ready e.2)
    (hname : toolName ∈ Assoc.keys toolConfigs) (duration : ℚ) :
    ∃ s, summarizeToolMetrics toolConfigs defaultConfig toolName metrics duration = .ok s := by
  obtain ⟨config, hf⟩ := Option.isSome_iff_exists.mp (Assoc.find_isSome_iff.mpr hname)
  obtain ⟨v, hv⟩ := hready _ (Assoc.mem_of_find hf) (str "category") List.mem_cons_self
  unfold summarizeToolMetrics
  dsimp only
  split
  · exact ⟨_, rfl⟩
  · rw [Dict.getD, hf, Option.getD_some, hv]
    exact ⟨_, rfl⟩

/-- A configuration that is no object is one as soon as there are metrics. -/
theorem summarize_raises {config : Json.Value} (hf : Assoc.find toolName toolConfigs = some config)
    (ho : isObject config = false) (hm : metrics ≠ []) (duration : ℚ) :
    summarizeToolMetrics toolConfigs defaultConfig toolName metrics duration =
      .error .typeError := by
  have hs : subscript config (str "category") = .error .typeError := by
    cases config <;> first | rfl | cases ho
  unfold summarizeToolMetrics
  dsimp only
  rw [if_neg (by simpa using hm), Dict.getD, hf, Option.getD_some, hs]
  rfl

/-! ## Three documents -/

/-- A path, and a decoder that follows ten levels. -/
def Site.plain : Site := ⟨str "config/tool_configs.json", fun _ => str "Expecting value", 10⟩

/-- The document with one tool. -/
def document (config : String) : Str :=
  str "\x7b\"tools\": \x7b\"a\": " ++ str config ++ str "\x7d\x7d"

/-- A configuration with both fields is accepted, a list without them is refused. -/
theorem loadToolConfig_both :
    (Validated (Site.plain.loadToolConfig
        (.text (document "\x7b\"category\": \"cpu\", \"chart_type\": \"bar\"\x7d"))) ∧
      (Site.plain.loadToolConfig
        (.text (document "\x7b\"category\": \"cpu\", \"chart_type\": \"bar\"\x7d"))).isOk = true) ∧
    Validated (Site.plain.loadToolConfig (.text (document "[]"))) ∧
      (Site.plain.loadToolConfig (.text (document "[]"))).isOk = false := by
  have hvalid : ∀ text, (Json.loads Site.plain.recLimit text).map (fun v => decide (Checkable v)) =
      .ok true → Validated (Site.plain.loadToolConfig (.text text)) := by
    intro text hd
    cases hl : Json.loads Site.plain.recLimit text with
    | error e => rw [hl] at hd; cases hd
    | ok v =>
      rw [hl] at hd
      have hc : decide (Checkable v) = true := Except.ok.inj hd
      exact (loadToolConfig_iff Site.plain hl).mpr (of_decide_eq_true hc)
  exact ⟨⟨hvalid _ (by decide +kernel), by decide +kernel⟩, hvalid _ (by decide +kernel),
    by decide +kernel⟩

/-- A text that parses and is not answered as it should be. -/
def Escapes (text : Str) : Prop :=
  (∃ v, Json.loads Site.plain.recLimit text = .ok v) ∧
    ¬ Validated (Site.plain.loadToolConfig (.text text))

/-- **Counterexample.** A number for a configuration is a `TypeError`; a string
that names both fields is accepted, and no field of it can be read. -/
theorem loadToolConfig_unchecked :
    Escapes (document "5") ∧ Escapes (document "\"category, chart_type\"") := by
  have hparse : ∀ text, (Json.loads Site.plain.recLimit text).toOption.isSome = true →
      ∃ v, Json.loads Site.plain.recLimit text = .ok v := by
    intro text h
    cases hl : Json.loads Site.plain.recLimit text with
    | error e => rw [hl] at h; cases h
    | ok v => exact ⟨v, rfl⟩
  refine ⟨⟨hparse _ (by decide +kernel), ?_⟩, ⟨hparse _ (by decide +kernel), ?_⟩⟩
  · have h : (Site.plain.loadToolConfig (.text (document "5"))).map (fun _ => ()) =
        .error .typeError := by decide +kernel
    rintro (⟨msg, hmsg⟩ | ⟨t, d, heq, -⟩)
    · rw [hmsg] at h; cases h
    · rw [heq] at h; cases h
  · have h : (Site.plain.loadToolConfig (.text (document "\"category, chart_type\""))).map
        (·.1.map fun e => isObject e.2) = .ok [false] := by decide +kernel
    rintro (⟨msg, hmsg⟩ | ⟨t, d, heq, hall⟩)
    · rw [hmsg] at h; cases h
    · rw [heq] at h
      have hf : t.map (fun e => isObject e.2) = [false] := Except.ok.inj h
      obtain ⟨e, he, ho⟩ := List.mem_map.mp (hf ▸ List.mem_cons_self)
      obtain ⟨kvs, hobj⟩ := (hall e he).1
      rw [hobj] at ho
      cases ho

end EbpfDemo.L4Client.ToolConfig
