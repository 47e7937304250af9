import Mathlib.Logic.Function.Basic
import EbpfDemo.Core.Machine
import EbpfDemo.L1Encoding.Metrics

/-!
# event_generator: one run of a tool

The generator behind `/run/stream/{tool_name}`. It stops at every `await` and
every `yield`; `resume` runs it from one such point to the next. What it is
resumed with (`Resume`) and what the calls of that stretch return (`Env`: the
two clock readings, the error of the fork if there is one, and the result of the
signal, of which a stretch sends at most one) is up to the environment, and so is when
the event loop collects the exit status of the child (`Gen.reap`).

`create_subprocess_exec` forks before it waits for anything, then connects the pipe of
the child; `process` is bound when that is done. If the wait ends in a cancellation or
an error, asyncio kills the child and waits for it before it passes that on (`giveUp`);
a kill that is refused (the child is `sudo`, which belongs to root) raises instead.

The blocks of the source are definitions of their own: `enter` (the check and
set of the running flag, and the fork), `stop` (SIGTERM, then wait), `report` (the success
bookkeeping), `fail` (the `except Exception` block), `cleanup` (the `finally`
block). An exception that leaves a block goes where Python takes it: `fail` from
inside the `try`, `cleanup` from the handlers and from cancellation, nowhere
from `cleanup` itself.

`Moves` lists what a step can do to the flag, the gauge and the child; the
invariants of whole runs are derived from it.
-/
namespace EbpfDemo.L4Client

open EbpfDemo.Core
open L1Encoding

inductive Status where
  | success | error
  deriving DecidableEq, Repr

/-- An entry of `TOOL_STATS`; `running` is the truth value of its flag. -/
structure ToolStats where
  running : Bool
  durationSeconds : Option ℚ
  status : Option Status
  error : Option Str

/-- The state all runs share: `TOOL_STATS` and the metrics.
mirrors src/client/main.py:68-94 -/
structure App (Tool : Type) where
  toolStats : Tool → Option ToolStats
  toolRunning : Int
  toolRuns : Tool → Status → Nat
  toolLastDuration : Tool → Option ℚ
  toolLastSuccess : Tool → Option Nat
  toolLastOutputBytes : Tool → Option Nat

/-- mirrors src/client/main.py:96 -/
def MAX_OUTPUT_BYTES : Nat := 2 * 1024 * 1024

/-- mirrors src/client/main.py:97 -/
def MAX_OUTPUT_LINES : Nat := 20000

/-- What ends a coroutine early. -/
inductive Exc where
  | cancelled
  | generatorExit
  | raised (msg : Str)
  deriving DecidableEq

inductive Signal where
  | term | kill
  deriving DecidableEq, Repr

/-- `os.killpg` or `Popen.kill`: done, `ProcessLookupError`, `PermissionError`. -/
inductive KillResult where
  | ok | noProcess | notPermitted
  deriving DecidableEq, Repr

/-- `str(error)` of the `PermissionError`. -/
def permissionError : Str := str "[Errno 1] Operation not permitted"

/-- The `await` or `yield` a generator stands at, by its line in main.py. -/
inductive Pc where
  | created
  | rejecting      -- yield 219
  | spawning       -- await 232, the pipe of the child
  | closing (error : Option Str)     -- await 232, the end of the child behind `giveUp`
  | polling        -- await 242
  | reading        -- await 247
  | lineYield      -- yield 257, 260
  | stopping       -- await 275
  | killing        -- await 284
  | successYield   -- yield 300
  | errorYield     -- yield 318
  | reaping (pending : Option Exc)   -- await 330
  | finished (exc : Option Exc)
  deriving DecidableEq

/-- The child: `returncode` is `None` until it was reaped. -/
structure Proc where
  returncode : Option Int
  deriving DecidableEq

inductive Event (Summary : Type) where
  | rejected
  | line (text : Str)
  | truncated
  | success (duration : ℚ) (metrics : Metrics Binary64) (summary : Summary)
  | error (msg : Str)

/-- What a run has done that others can see; `gaveUp`: connecting the pipe of the child
has failed. -/
inductive Act (Summary : Type) where
  | yielded (e : Event Summary)
  | signalled (s : Signal) (r : KillResult)
  | waitExpired
  | gaveUp

structure Gen (Tool Summary : Type) where
  tool : Tool
  duration : ℚ
  pc : Pc
  startTime : ℚ
  logContent : List Str
  outputBytes : Nat
  outputLines : Nat
  outputTruncated : Bool
  /-- The child that was forked. -/
  child : Option Proc
  /-- `process` is bound to it. -/
  bound : Bool
  acts : List (Act Summary)

/-- The decoder and the summary; an error is the text of the exception. -/
structure Host (Tool Summary : Type) where
  parse : Str → Except Str (Metrics Binary64)
  summarize : Tool → Metrics Binary64 → ℚ → Except Str Summary

/-- Finds no metrics and has no summary for them. -/
def Host.quiet : Host String Unit where
  parse _ := .ok []
  summarize _ _ _ := .ok ()

/-- `spawn` is what `create_subprocess_exec` raises when it cannot fork or execute. -/
structure Env where
  now : ℚ
  later : ℚ
  spawn : Option Str
  kill : KillResult

/-- What a generator is resumed with. -/
inductive Resume where
  | next
  | close
  | cancel
  | raised (msg : Str)
  | spawned
  | disconnected (b : Bool)
  | readLine (bytes : List UInt8)
  | readTimeout
  | waited
  | waitTimeout
  deriving DecidableEq

variable {Tool Summary : Type}

/-- A new request. -/
def Gen.new (t : Tool) (duration : ℚ) : Gen Tool Summary where
  tool := t
  duration := duration
  pc := .created
  startTime := 0
  logContent := []
  outputBytes := 0
  outputLines := 0
  outputTruncated := false
  child := none
  bound := false
  acts := []

namespace Gen

/-- A child that is spawned and not yet reaped. -/
def unreaped (g : Gen Tool Summary) : Bool := g.child = some ⟨none⟩

/-- `process is not None and process.returncode is None` -/
def held (g : Gen Tool Summary) : Bool := g.bound && g.unreaped

/-- The event loop collects the exit status of the child. -/
def reap (g : Gen Tool Summary) (code : Int) : Option (Gen Tool Summary) :=
  if g.unreaped then some { g with child := some ⟨some code⟩ } else none

def yield (g : Gen Tool Summary) (e : Event Summary) (pc : Pc) : Gen Tool Summary :=
  { g with pc := pc, acts := g.acts ++ [.yielded e] }

def signal (g : Gen Tool Summary) (s : Signal) (r : KillResult) : Gen Tool Summary :=
  { g with acts := g.acts ++ [.signalled s r] }

end Gen

theorem unreaped_congr {g g' : Gen Tool Summary} (h : g'.child = g.child) :
    g'.unreaped = g.unreaped := by rw [Gen.unreaped, Gen.unreaped, h]

theorem unreaped_eq_false {g : Gen Tool Summary} (h : g.child = none) : g.unreaped = false := by
  simp [Gen.unreaped, h]

theorem held_eq_false {g : Gen Tool Summary} (h : g.unreaped = false) : g.held = false := by
  rw [Gen.held, h, Bool.and_false]

theorem reap_some {g g' : Gen Tool Summary} {code : Int} (h : g.reap code = some g') :
    g.unreaped = true ∧ g' = { g with child := some ⟨some code⟩ } ∧ g'.unreaped = false := by
  unfold Gen.reap at h
  split at h
  · rename_i hu
    cases h
    exact ⟨hu, rfl, by simp [Gen.unreaped]⟩
  · cases h

variable [DecidableEq Tool]

namespace App

/-- No request so far. -/
def start : App Tool := ⟨fun _ => none, 0, fun _ _ => 0, fun _ => none, fun _ => none, fun _ => none⟩

/-- `TOOL_STATS.get(tool, {}).get("running")` -/
def running (a : App Tool) (t : Tool) : Bool := match a.toolStats t with
  | none => false
  | some st => st.running

/-- `TOOL_STATS.setdefault(tool, {})`, then an update of the entry. -/
def modifyStats (a : App Tool) (t : Tool) (f : ToolStats → ToolStats) : App Tool :=
  { a with
    toolStats :=
      Function.update a.toolStats t (some (f ((a.toolStats t).getD ⟨false, none, none, none⟩))) }

def countRun (a : App Tool) (t : Tool) (s : Status) : App Tool :=
  { a with
    toolRuns :=
      Function.update a.toolRuns t (Function.update (a.toolRuns t) s (a.toolRuns t s + 1)) }

end App

/-! ## The blocks of the source -/

/-- `except Exception`
mirrors src/client/main.py:313-318 -/
def fail (a : App Tool) (g : Gen Tool Summary) (msg : Str) : App Tool × Gen Tool Summary :=
  ({ (a.countRun g.tool .error).modifyStats g.tool
        (fun st => { st with status := some .error, error := some msg }) with
      toolLastSuccess := Function.update a.toolLastSuccess g.tool (some 0) },
    g.yield (.error msg) .errorYield)

/-- The flag is set and the gauge raised.
mirrors src/client/main.py:222-223 -/
def occupy (a : App Tool) (t : Tool) : App Tool :=
  { a.modifyStats t (fun st => { st with running := true }) with toolRunning := a.toolRunning + 1 }

/-- The check and the set of the flag, and the fork; no other coroutine runs in between.
mirrors src/client/main.py:215-240 -/
def enter (a : App Tool) (g : Gen Tool Summary) (env : Env) : App Tool × Gen Tool Summary :=
  if a.running g.tool then (a, g.yield .rejected .rejecting)
  else
    let g := { g with startTime := env.now }
    match env.spawn with
    | some msg => fail (occupy a g.tool) g msg
    | none => (occupy a g.tool, { g with pc := .spawning, child := some ⟨none⟩ })

/-- What asyncio does to the child of a spawn that it gives up. -/
def dropped (g : Gen Tool Summary) (error : Option Str) (env : Env) : List (Act Summary) :=
  (if error.isSome then [.gaveUp] else []) ++
    if g.unreaped then [.signalled .kill env.kill] else []

/-- The pipe of the child is not connected: `error` was raised, or the task is cancelled.
asyncio closes its transport, which kills the child; a refused kill raises in its turn. -/
def giveUp (a : App Tool) (g : Gen Tool Summary) (error : Option Str) (env : Env) :
    App Tool × Gen Tool Summary :=
  let g' := { g with acts := g.acts ++ dropped g error env }
  if g.unreaped ∧ env.kill = .notPermitted then fail a g' permissionError
  else (a, { g' with pc := .closing error })

/-- `finally`. An exception of `os.killpg` leaves the generator without a wait.
mirrors src/client/main.py:319-330 -/
def cleanup (a : App Tool) (g : Gen Tool Summary) (pending : Option Exc) (env : Env) :
    App Tool × Gen Tool Summary :=
  ({ a.modifyStats g.tool (fun st => { st with running := false }) with
      toolRunning := a.toolRunning - 1 },
    if g.held then
      { g.signal .kill env.kill with
        pc := if env.kill = .notPermitted then .finished (some (.raised permissionError))
              else .reaping pending }
    else { g with pc := .finished pending })

/-- `round(q, 2)` -/
def round2 (q : ℚ) : ℚ := Binary64.roundEven (q * 100) / 100

/-- mirrors src/client/main.py:286-310 -/
def report (host : Host Tool Summary) (a : App Tool) (g : Gen Tool Summary) (now : ℚ) :
    App Tool × Gen Tool Summary :=
  let duration := now - g.startTime
  let output := g.logContent.flatten
  match host.parse output with
  | .error e => fail a g e
  | .ok parsed =>
    match host.summarize g.tool parsed duration with
    | .error e => fail a g e
    | .ok summary =>
      ({ (a.countRun g.tool .success).modifyStats g.tool
            (fun st => { st with durationSeconds := some duration, status := some .success }) with
          toolLastDuration := Function.update a.toolLastDuration g.tool (some duration)
          toolLastSuccess := Function.update a.toolLastSuccess g.tool (some 1)
          toolLastOutputBytes :=
            Function.update a.toolLastOutputBytes g.tool (some (encode output).length) },
        g.yield (.success (round2 duration) parsed summary) .successYield)

/-- Behind the loop: SIGTERM to a child that still runs, then wait for it.
mirrors src/client/main.py:266-275 -/
def stop (host : Host Tool Summary) (a : App Tool) (g : Gen Tool Summary) (env : Env) :
    App Tool × Gen Tool Summary :=
  if g.held then
    if env.kill = .notPermitted then fail a (g.signal .term env.kill) permissionError
    else (a, { g.signal .term env.kill with pc := .stopping })
  else report host a g env.later

/-- The 2 seconds are over: SIGKILL.
mirrors src/client/main.py:276-284 -/
def forceKill (a : App Tool) (g : Gen Tool Summary) (env : Env) : App Tool × Gen Tool Summary :=
  let g := { g with acts := g.acts ++ [Act.waitExpired] }
  if env.kill = .notPermitted then fail a (g.signal .kill env.kill) permissionError
  else (a, { g.signal .kill env.kill with pc := .killing })

/-- mirrors src/client/main.py:250-260 -/
def accept (g : Gen Tool Summary) (bytes : List UInt8) : Gen Tool Summary :=
  if g.outputLines < MAX_OUTPUT_LINES ∧ g.outputBytes + bytes.length ≤ MAX_OUTPUT_BYTES then
    { g with
      logContent := g.logContent ++ [decode bytes]
      outputLines := g.outputLines + 1
      outputBytes := g.outputBytes + bytes.length }.yield (.line (decode bytes)) .lineYield
  else if g.outputTruncated then { g with pc := .polling }
  else { g with outputTruncated := true }.yield .truncated .lineYield

/-- From one `await` or `yield` to the next. -/
def resume (host : Host Tool Summary) (a : App Tool) (g : Gen Tool Summary) (r : Resume)
    (env : Env) : Option (App Tool × Gen Tool Summary) :=
  match g.pc, r with
  | .created, .next => some (enter a g env)
  | .created, .close => some (a, { g with pc := .finished (some .generatorExit) })
  | .rejecting, .next => some (a, { g with pc := .finished none })
  | .rejecting, .close => some (a, { g with pc := .finished (some .generatorExit) })
  | .spawning, .spawned => some (a, { g with pc := .polling, bound := true })
  | .spawning, .cancel => some (giveUp a g none env)
  | .spawning, .raised msg => some (giveUp a g (some msg) env)
  | .closing none, .waited => if g.unreaped then none else some (cleanup a g (some .cancelled) env)
  | .closing (some msg), .waited => if g.unreaped then none else some (fail a g msg)
  | .polling, .disconnected true => some (cleanup a g (some .cancelled) env)
  | .polling, .disconnected false =>
    if env.now - g.startTime ≥ g.duration then some (stop host a g env)
    else some (a, { g with pc := .reading })
  | .reading, .readLine bytes =>
    if bytes = [] then some (stop host a g env) else some (a, accept g bytes)
  | .reading, .readTimeout =>
    if env.now - g.startTime > g.duration then some (stop host a g env)
    else some (a, { g with pc := .polling })
  | .lineYield, .next => some (a, { g with pc := .polling })
  | .stopping, .waited => if g.unreaped then none else some (report host a g env.later)
  | .stopping, .waitTimeout => some (forceKill a g env)
  | .killing, .waited => if g.unreaped then none else some (report host a g env.later)
  | .successYield, .next => some (cleanup a g none env)
  | .errorYield, .next => some (cleanup a g none env)
  | .reaping pending, .waited =>
    if g.unreaped then none else some (a, { g with pc := .finished pending })
  | .reaping _, .cancel => some (a, { g with pc := .finished (some .cancelled) })
  | .reaping _, .raised msg => some (a, { g with pc := .finished (some (.raised msg)) })
  -- an exception at an await of the try block
  | .polling, .raised msg | .reading, .raised msg | .stopping, .raised msg
  | .killing, .raised msg => some (fail a g msg)
  | .closing _, .cancel | .polling, .cancel | .reading, .cancel | .stopping, .cancel
  | .killing, .cancel => some (cleanup a g (some .cancelled) env)
  -- `aclose` at a yield
  | .lineYield, .close | .successYield, .close | .errorYield, .close =>
    some (cleanup a g (some .generatorExit) env)
  | _, _ => none

/-! ## What a step can do -/

/-- Before the set of the flag (or rejected), between it and the `finally`
block, or behind its decrement of the gauge. -/
inductive Phase where
  | before | running | past
  deriving DecidableEq

def Pc.phase : Pc → Phase
  | .created | .rejecting => .before
  | .reaping _ | .finished _ => .past
  | _ => .running

@[simp] theorem phase_created : Pc.created.phase = .before := rfl
@[simp] theorem phase_rejecting : Pc.rejecting.phase = .before := rfl
@[simp] theorem phase_spawning : Pc.spawning.phase = .running := rfl
@[simp] theorem phase_closing (e : Option Str) : (Pc.closing e).phase = .running := rfl
@[simp] theorem phase_polling : Pc.polling.phase = .running := rfl
@[simp] theorem phase_reaping (e : Option Exc) : (Pc.reaping e).phase = .past := rfl
@[simp] theorem phase_finished (e : Option Exc) : (Pc.finished e).phase = .past := rfl

/-- The step goes through the `finally` block. -/
def runsFinally : Pc → Resume → Bool
  | .polling, .disconnected true => true
  | .closing none, .waited => true
  | .closing _, .cancel | .polling, .cancel | .reading, .cancel | .stopping, .cancel
  | .killing, .cancel => true
  | .lineYield, .close | .successYield, .close | .errorYield, .close => true
  | .successYield, .next | .errorYield, .next => true
  | _, _ => false

/-- The flags and the gauge are the same. -/
def App.Same (a a' : App Tool) : Prop :=
  a'.toolRunning = a.toolRunning ∧ ∀ t, a'.running t = a.running t

omit [DecidableEq Tool] in
theorem App.same_refl (a : App Tool) : a.Same a := ⟨rfl, fun _ => rfl⟩

theorem App.running_modifyStats (a : App Tool) (t : Tool) (f : ToolStats → ToolStats) (t' : Tool) :
    (a.modifyStats t f).running t' =
      if t' = t then (f ((a.toolStats t).getD ⟨false, none, none, none⟩)).running
      else a.running t' := by
  unfold App.running App.modifyStats
  by_cases h : t' = t
  · subst h; simp
  · simp [h]

omit [DecidableEq Tool] in
theorem App.running_of_map {a : App Tool} {t : Tool} {b : Bool}
    (h : (a.toolStats t).map ToolStats.running = some b) : a.running t = b := by
  obtain ⟨st, hst, rfl⟩ := Option.map_eq_some_iff.mp h
  rw [App.running, hst]

/-- An update that leaves the flag of the entry alone. -/
theorem App.running_keep (a : App Tool) (t : Tool) {f : ToolStats → ToolStats}
    (hf : ∀ st, (f st).running = st.running) (t' : Tool) :
    (a.modifyStats t f).running t' = a.running t' := by
  rw [App.running_modifyStats, hf]
  split
  · rename_i h; subst h
    unfold App.running
    cases a.toolStats t' <;> rfl
  · rfl

theorem App.same_of_stats {a a' : App Tool} (t : Tool) (f : ToolStats → ToolStats)
    (hf : ∀ st, (f st).running = st.running) (h1 : a'.toolRunning = a.toolRunning)
    (h2 : a'.toolStats = (a.modifyStats t f).toolStats) : a.Same a' := by
  refine ⟨h1, fun t' => ?_⟩
  have := App.running_keep a t hf t'
  unfold App.running at this ⊢
  rw [h2]; exact this

/-- A stretch that stays inside the run. -/
structure Inside (a : App Tool) (g : Gen Tool Summary) (x : App Tool × Gen Tool Summary) : Prop where
  same : a.Same x.1
  tool : x.2.tool = g.tool
  child : x.2.child = g.child
  phase : x.2.pc.phase = .running

theorem inside_fail (a : App Tool) (g : Gen Tool Summary) (msg : Str) : Inside a g (fail a g msg) where
  same := App.same_of_stats g.tool
    (fun st => { st with status := some .error, error := some msg }) (fun _ => rfl) rfl rfl
  tool := rfl
  child := rfl
  phase := rfl

variable {host : Host Tool Summary} {a : App Tool} {g : Gen Tool Summary} {env : Env}

theorem inside_report (now : ℚ) : Inside a g (report host a g now) := by
  unfold report
  dsimp only
  split
  · exact inside_fail a g _
  · split
    · exact inside_fail a g _
    · refine ⟨App.same_of_stats g.tool (fun st => { st with
        durationSeconds := some (now - g.startTime), status := some .success }) (fun _ => rfl) rfl rfl,
        rfl, rfl, rfl⟩

theorem inside_stop : Inside a g (stop host a g env) := by
  unfold stop
  split
  · split
    · obtain ⟨h1, h2, h3, h4⟩ := inside_fail a (g.signal .term env.kill) permissionError
      exact ⟨h1, h2, h3, h4⟩
    · exact ⟨a.same_refl, rfl, rfl, rfl⟩
  · exact inside_report _

theorem inside_forceKill : Inside a g (forceKill a g env) := by
  unfold forceKill
  dsimp only
  split
  · obtain ⟨h1, h2, h3, h4⟩ :=
      inside_fail a ({ g with acts := g.acts ++ [Act.waitExpired] }.signal .kill env.kill)
        permissionError
    exact ⟨h1, h2, h3, h4⟩
  · exact ⟨a.same_refl, rfl, rfl, rfl⟩

theorem inside_giveUp (error : Option Str) : Inside a g (giveUp a g error env) := by
  unfold giveUp
  dsimp only
  split
  · obtain ⟨h1, h2, h3, h4⟩ :=
      inside_fail a { g with acts := g.acts ++ dropped g error env } permissionError
    exact ⟨h1, h2, h3, h4⟩
  · exact ⟨a.same_refl, rfl, rfl, rfl⟩

omit [DecidableEq Tool] in
theorem inside_accept (bytes : List UInt8) : Inside a g (a, accept g bytes) := by
  unfold accept
  split
  · exact ⟨a.same_refl, rfl, rfl, rfl⟩
  · split <;> exact ⟨a.same_refl, rfl, rfl, rfl⟩

/-- The stretch starts a child: the run is admitted and the fork works. -/
def forks (a : App Tool) (g : Gen Tool Summary) (r : Resume) (env : Env) : Bool :=
  g.pc = .created && r = .next && !a.running g.tool && env.spawn.isNone

/-- What a step can do to the flag, the gauge and the child. -/
inductive Moves (a : App Tool) (g : Gen Tool Summary) (r : Resume) (env : Env) (a' : App Tool)
    (g' : Gen Tool Summary) : Prop where
  | outside : runsFinally g.pc r = false → forks a g r env = false → g.pc.phase = .before →
      a' = a → g'.pc.phase ≠ .running → g'.tool = g.tool → g'.child = g.child → Moves a g r env a' g'
  | enters : runsFinally g.pc r = false → r = .next → g.pc = .created → a.running g.tool = false →
      (∀ t, a'.running t = if t = g.tool then true else a.running t) →
      a'.toolRunning = a.toolRunning + 1 → g'.pc.phase = .running → g'.tool = g.tool →
      g'.child = (if env.spawn = none then some ⟨none⟩ else g.child) → Moves a g r env a' g'
  | inside : runsFinally g.pc r = false → g.pc.phase = .running → Inside a g (a', g') →
      Moves a g r env a' g'
  | leaves : runsFinally g.pc r = true → g.pc.phase = .running →
      (a'.toolStats g.tool).map ToolStats.running = some false →
      (∀ t, t ≠ g.tool → a'.running t = a.running t) → a'.toolRunning = a.toolRunning - 1 →
      g'.tool = g.tool → g'.child = g.child →
      (if g.held = true ∧ env.kill ≠ .notPermitted then ∃ e, g'.pc = .reaping e
        else ∃ e, g'.pc = .finished e) → Moves a g r env a' g'
  | ends {e e' : Option Exc} : runsFinally g.pc r = false → g.pc = .reaping e → a' = a →
      g'.pc = .finished e' → g'.tool = g.tool → g'.child = g.child →
      (r = .waited ∧ g.unreaped = false ∨ r = .cancel ∨ ∃ m, r = .raised m) → Moves a g r env a' g'

/-- Behind the `finally` block, with or without a wait for the child. -/
theorem phase_of_leaves {p : Pc} {c : Prop} [Decidable c]
    (h : if c then ∃ e, p = .reaping e else ∃ e, p = .finished e) : p.phase = .past := by
  split at h <;> obtain ⟨e, rfl⟩ := h <;> rfl

theorem moves_cleanup {r : Resume} (hr : runsFinally g.pc r = true) (hp : g.pc.phase = .running)
    (pending : Option Exc) :
    Moves a g r env (cleanup a g pending env).1 (cleanup a g pending env).2 := by
  refine .leaves hr hp ?_ (fun t ht => ?_) rfl ?_ ?_ ?_
  · simp [cleanup, App.modifyStats]
  · have := App.running_modifyStats a g.tool (fun st => { st with running := false }) t
    rw [if_neg ht] at this
    exact this
  · unfold cleanup; dsimp only; split <;> rfl
  · unfold cleanup; dsimp only; split <;> rfl
  · unfold cleanup
    dsimp only
    by_cases hu : g.held = true
    · by_cases hk : env.kill = .notPermitted
      · simp [hu, hk]
      · simp [hu, hk]
    · simp [hu]

theorem running_occupy (a : App Tool) (t t' : Tool) :
    (occupy a t).running t' = if t' = t then true else a.running t' :=
  App.running_modifyStats a t (fun st => { st with running := true }) t'

theorem moves_enter {r : Resume} (hpc : g.pc = .created) (hr : r = .next) :
    Moves a g r env (enter a g env).1 (enter a g env).2 := by
  subst hr
  have hf : runsFinally g.pc .next = false := by rw [hpc]; rfl
  unfold enter
  split
  · rename_i hrun
    exact .outside hf (by simp [forks, hrun]) (by rw [hpc]; rfl) rfl
      (by simp [Gen.yield, Pc.phase]) rfl rfl
  · rename_i hrun
    have hfree : a.running g.tool = false := by simpa using hrun
    dsimp only
    split
    · rename_i msg hmsg
      obtain ⟨hsame, -, hchild, hph⟩ :=
        inside_fail (occupy a g.tool) { g with startTime := env.now } msg
      refine .enters hf rfl hpc hfree (fun t => ?_) hsame.1 hph rfl ?_
      · rw [hsame.2, running_occupy]
      · rw [hchild, hmsg, if_neg (Option.some_ne_none msg)]
    · rename_i hnone
      exact .enters hf rfl hpc hfree (running_occupy a g.tool) rfl rfl rfl (by rw [if_pos hnone])

section
variable {r : Resume} {a' : App Tool} {g' : Gen Tool Summary} {p : Pc}

theorem moves_inside {x : App Tool × Gen Tool Summary} (hpc : g.pc = p)
    (h : some x = some (a', g')) (hi : Inside a g x) (hf : runsFinally p r = false)
    (hp : p.phase = .running) : Moves a g r env a' g' := by
  subst hpc
  cases h
  exact .inside hf hp hi

theorem moves_outside {q : Pc} (hpc : g.pc = p) (h : some (a, { g with pc := q }) = some (a', g'))
    (hq : q.phase ≠ .running) (hf : runsFinally p r = false) (hp : p.phase = .before)
    (hr : forks a g r env = false) : Moves a g r env a' g' := by
  subst hpc
  cases h
  exact .outside hf hr hp rfl hq rfl rfl

theorem moves_finally {pending : Option Exc} (hpc : g.pc = p)
    (h : some (cleanup a g pending env) = some (a', g')) (hf : runsFinally p r = true)
    (hp : p.phase = .running) : Moves a g r env a' g' := by
  subst hpc
  have : Moves a g r env (cleanup a g pending env).1 (cleanup a g pending env).2 :=
    moves_cleanup hf hp pending
  rw [Option.some.inj h] at this; exact this

theorem moves_ends {e e' : Option Exc} (hpc : g.pc = .reaping e)
    (h : some (a, { g with pc := .finished e' }) = some (a', g'))
    (hr : r = .waited ∧ g.unreaped = false ∨ r = .cancel ∨ ∃ m, r = .raised m)
    (hf : runsFinally (.reaping e) r = false) : Moves a g r env a' g' := by
  cases h
  exact .ends (by rw [hpc]; exact hf) hpc rfl rfl rfl rfl hr

/-- **One step.** Everything a step can do to the flag, the gauge and the child. -/
theorem moves_of_resume (h : resume host a g r env = some (a', g')) : Moves a g r env a' g' := by
  cases hpc : g.pc <;> cases r <;> simp only [resume, hpc, reduceCtorEq] at h
  case created.next =>
    have : Moves a g .next env (enter a g env).1 (enter a g env).2 := moves_enter hpc rfl
    rw [Option.some.inj h] at this; exact this
  case created.close | rejecting.next | rejecting.close =>
    exact moves_outside hpc h (by simp [Pc.phase]) rfl rfl (by simp [forks, hpc])
  case spawning.spawned => exact moves_inside hpc h ⟨a.same_refl, rfl, rfl, rfl⟩ rfl rfl
  case spawning.cancel | spawning.raised => exact moves_inside hpc h (inside_giveUp _) rfl rfl
  case closing.waited error =>
    cases error <;> dsimp only at h
    · split at h
      · cases h
      · exact moves_finally hpc h rfl rfl
    · split at h
      · cases h
      · exact moves_inside hpc h (inside_fail a g _) rfl rfl
  -- an exception at an await of the try block
  case polling.raised | reading.raised | stopping.raised | killing.raised =>
    exact moves_inside hpc h (inside_fail a g _) rfl rfl
  case closing.cancel error => cases error <;> exact moves_finally hpc h rfl rfl
  case polling.cancel | reading.cancel | stopping.cancel | killing.cancel | lineYield.close |
      successYield.close | errorYield.close | successYield.next | errorYield.next =>
    exact moves_finally hpc h rfl rfl
  case polling.disconnected b =>
    cases b <;> dsimp only at h
    · split at h
      · exact moves_inside hpc h inside_stop rfl rfl
      · exact moves_inside hpc h ⟨a.same_refl, rfl, rfl, rfl⟩ rfl rfl
    · exact moves_finally hpc h rfl rfl
  case reading.readLine bytes =>
    split at h
    · exact moves_inside hpc h inside_stop rfl rfl
    · exact moves_inside hpc h (inside_accept bytes) rfl rfl
  case reading.readTimeout =>
    split at h
    · exact moves_inside hpc h inside_stop rfl rfl
    · exact moves_inside hpc h ⟨a.same_refl, rfl, rfl, rfl⟩ rfl rfl
  case lineYield.next => exact moves_inside hpc h ⟨a.same_refl, rfl, rfl, rfl⟩ rfl rfl
  case stopping.waited | killing.waited =>
    split at h
    · cases h
    · exact moves_inside hpc h (inside_report _) rfl rfl
  case stopping.waitTimeout => exact moves_inside hpc h inside_forceKill rfl rfl
  case reaping.waited e =>
    split at h
    · cases h
    · rename_i hu
      exact moves_ends hpc h (.inl ⟨rfl, by simpa using hu⟩) rfl
  case reaping.cancel e => exact moves_ends hpc h (.inr (.inl rfl)) rfl
  case reaping.raised e msg => exact moves_ends hpc h (.inr (.inr ⟨msg, rfl⟩)) rfl

end

/-- Before the fork there is no child. -/
def Gen.Childless (g : Gen Tool Summary) : Prop := g.pc.phase = .before → g.child = none

omit [DecidableEq Tool] in
theorem forks_iff {r : Resume} : forks a g r env = true ↔
    g.pc = .created ∧ r = .next ∧ a.running g.tool = false ∧ env.spawn = none := by
  simp [forks, and_assoc]

namespace Moves
variable {r : Resume} {a' : App Tool} {g' : Gen Tool Summary}

theorem tool (h : Moves a g r env a' g') : g'.tool = g.tool := by
  cases h with
  | outside _ _ _ _ _ ht _ => exact ht
  | enters _ _ _ _ _ _ _ ht _ => exact ht
  | inside _ _ hi => exact hi.tool
  | leaves _ _ _ _ _ ht _ _ => exact ht
  | ends _ _ _ _ ht _ _ => exact ht

/-- Only the fork makes a child. -/
theorem child (h : Moves a g r env a' g') (hf : forks a g r env = false) : g'.child = g.child := by
  cases h with
  | outside _ _ _ _ _ _ hc => exact hc
  | enters _ hr hpc hfree _ _ _ _ hc =>
    rw [hc, if_neg]
    intro hspawn
    rw [forks_iff.mpr ⟨hpc, hr, hfree, hspawn⟩] at hf
    cases hf
  | inside _ _ hi => exact hi.child
  | leaves _ _ _ _ _ _ hc _ => exact hc
  | ends _ _ _ _ _ hc _ => exact hc

theorem forked (h : Moves a g r env a' g') (hf : forks a g r env = true) :
    g'.child = some ⟨none⟩ := by
  obtain ⟨hpc, -, -, hspawn⟩ := forks_iff.mp hf
  cases h with
  | outside _ hno _ _ _ _ _ => rw [hf] at hno; cases hno
  | enters _ _ _ _ _ _ _ _ hc => rw [hc, if_pos hspawn]
  | inside _ hph _ => rw [hpc] at hph; cases hph
  | leaves _ hph _ _ _ _ _ _ => rw [hpc] at hph; cases hph
  | ends _ hpc' _ _ _ _ _ => rw [hpc] at hpc'; cases hpc'

theorem childless (h : Moves a g r env a' g') (hg : g.Childless) : g'.Childless := by
  cases h with
  | outside _ _ hph _ _ _ hc => exact fun _ => hc.trans (hg hph)
  | enters _ _ _ _ _ _ hph' _ _ => intro hp; rw [hph'] at hp; cases hp
  | inside _ _ hi => intro hp; rw [hi.phase] at hp; cases hp
  | leaves _ _ _ _ _ _ _ hpc' => intro hp; rw [phase_of_leaves hpc'] at hp; cases hp
  | ends _ _ _ hpc' _ _ _ => intro hp; simp [hpc'] at hp

end Moves

end EbpfDemo.L4Client
