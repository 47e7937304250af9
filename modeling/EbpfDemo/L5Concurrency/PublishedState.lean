import EbpfDemo.L4Client.Outcome
import EbpfDemo.L5Concurrency.RunLock

/-!
# Whose numbers are these?

`/api/stats` and the gauges show one record for each tool, and every completed
run updates it. A success does not touch the `error` text of the entry, and an
error touches neither a duration nor the output size: what an earlier run left
there stays.

`Chronicle` is the whole system beside the list of the runs completed so far, in
the order of their status events. What is published of a tool is the fold of its
outcomes (`told_exec`), and the rest is about lists of outcomes.

* `published_iff`: in any interleaving, what is published of a tool is what its
  last completed run came to exactly when all its runs came to the same status.
* `published_stale`: a run fails, the next succeeds, the error text stays.
-/
namespace EbpfDemo.L5Concurrency.RunLock

open EbpfDemo.Core EbpfDemo.L1Encoding
open L4Client

/-- What a completed run came to. -/
inductive Outcome where
  | success (duration : ℚ) (outputBytes : Nat)
  | error (msg : Str)
  deriving DecidableEq

namespace Outcome

def status : Outcome → Status
  | .success _ _ => .success
  | .error _ => .error

/-- The record that describes this run alone. -/
def shows : Outcome → Published
  | .success d n => ⟨some .success, none, some d, some d, some 1, some n⟩
  | .error msg => ⟨some .error, some msg, none, none, some 0, none⟩

/-- What the bookkeeping of a run makes of the record.
mirrors src/client/main.py:290-298, 315-317 -/
def book (p : Published) : Outcome → Published
  | .success d n => { p with
      status := some .success
      durationSeconds := some d
      toolLastDuration := some d
      toolLastSuccess := some 1
      toolLastOutputBytes := some n }
  | .error msg => { p with status := some .error, error := some msg, toolLastSuccess := some 0 }

/-- The record of a tool that has not run. -/
def unpublished : Published := ⟨none, none, none, none, none, none⟩

/-- The record of a tool with these runs. -/
def record (os : List Outcome) : Published := os.foldl book unpublished

theorem record_concat (os : List Outcome) (o : Outcome) :
    record (os ++ [o]) = book (record os) o := List.foldl_concat ..

/-! ## Lists of outcomes -/

variable {os : List Outcome}

/-- The error text is that of the last run that failed. -/
theorem record_error_eq_none :
    (record os).error = none ↔ ∀ o ∈ os, o.status = .success := by
  induction os using List.reverseRecOn with
  | nil => simp [record, unpublished]
  | append_singleton os o ih =>
    rw [record_concat, List.forall_mem_append, List.forall_mem_singleton]
    cases o with
    | success d n => simpa [book, status] using ih
    | error msg => simp [book, status]

/-- The duration is that of the last run that succeeded. -/
theorem record_duration_eq_none :
    (record os).durationSeconds = none ↔ ∀ o ∈ os, o.status = .error := by
  induction os using List.reverseRecOn with
  | nil => simp [record, unpublished]
  | append_singleton os o ih =>
    rw [record_concat, List.forall_mem_append, List.forall_mem_singleton]
    cases o with
    | success d n => simp [book, status]
    | error msg => simpa [book, status] using ih

/-- So are its gauge and the output size. -/
theorem record_success_fields (os : List Outcome) :
    (record os).toolLastDuration = (record os).durationSeconds ∧
      ((record os).toolLastOutputBytes = none ↔ (record os).durationSeconds = none) := by
  induction os using List.reverseRecOn with
  | nil => simp [record, unpublished]
  | append_singleton os o ih =>
    rw [record_concat]
    cases o with
    | success d n => exact ⟨rfl, by simp [book]⟩
    | error msg => exact ih

/-- The record describes the last run exactly when all came to the same status. -/
theorem record_eq_shows {o : Outcome} :
    record (os ++ [o]) = o.shows ↔ ∀ o' ∈ os, o'.status = o.status := by
  rw [record_concat]
  cases o with
  | success d n =>
    rw [show (Outcome.success d n).status = .success from rfl, ← record_error_eq_none]
    simp [book, shows]
  | error msg =>
    obtain ⟨h1, h2⟩ := record_success_fields os
    rw [show (Outcome.error msg).status = .error from rfl, ← record_duration_eq_none]
    simp [book, shows, h1, h2]

end Outcome

variable {Tool Summary : Type}

/-- What an event of a run tells of its outcome: the clock and the log are those
of the stretch that sends it. -/
def outcome (g : Gen Tool Summary) (env : Env) : Event Summary → Option Outcome
  | .success _ _ _ =>
    some (.success (env.later - g.startTime) (encode g.logContent.flatten).length)
  | .error msg => some (.error msg)
  | _ => none

/-- The outcomes a stretch tells. -/
def outcomes (g : Gen Tool Summary) (env : Env) (g' : Gen Tool Summary) : List Outcome :=
  ((eventsOf g'.acts).drop (eventsOf g.acts).length).filterMap (outcome g env)

/-- The system and the runs completed so far, each with its tool. -/
structure Chronicle (Tool Summary : Type) where
  sys : Sys Tool Summary
  completed : List (Tool × Outcome)

variable [DecidableEq Tool] {host : Host Tool Summary}

namespace Chronicle

/-- The outcomes a step of the system tells. -/
def told (s s' : Sys Tool Summary) : Lbl Tool → List (Tool × Outcome)
  | .resume i _ env => match s.gens[i]?, s'.gens[i]? with
    | some g, some g' => (outcomes g env g').map fun o => (g.tool, o)
    | _, _ => []
  | _ => []

def step (host : Host Tool Summary) (c : Chronicle Tool Summary) (l : Lbl Tool) :
    Option (Chronicle Tool Summary) :=
  (RunLock.step host c.sys l).map fun s => ⟨s, c.completed ++ told c.sys s l⟩

def start : Chronicle Tool Summary := ⟨RunLock.start, []⟩

/-- The outcomes of the completed runs of a tool. -/
def outcomesOf (c : Chronicle Tool Summary) (t : Tool) : List Outcome :=
  c.completed.filterMap fun x => if x.1 = t then some x.2 else none

/-- Each tool's record is that of its completed runs. -/
def Recorded (c : Chronicle Tool Summary) : Prop :=
  ∀ t, c.sys.app.published t = Outcome.record (c.outcomesOf t)

end Chronicle

/-! ## One step -/

section
variable {a : App Tool} {g : Gen Tool Summary} {r : Resume} {env : Env}
  {x : App Tool × Gen Tool Summary}

omit [DecidableEq Tool] in
theorem outcomes_of_events {g' : Gen Tool Summary} (es : List (Event Summary))
    (h : eventsOf g'.acts = eventsOf g.acts ++ es) :
    outcomes g env g' = es.filterMap (outcome g env) := by
  rw [outcomes, h, List.drop_left]

omit [DecidableEq Tool] in
theorem outcome_of_line {e : Event Summary} (h : e.status = none) : outcome g env e = none := by
  cases e <;> first | rfl | cases h

/-- A stretch updates the record of its tool by the outcomes it tells. -/
theorem published_block (hb : Block host a g r env x) (t : Tool) :
    x.1.published t = if t = g.tool then (outcomes g env x.2).foldl Outcome.book (a.published t)
      else a.published t := by
  have hquiet : ∀ es : List (Event Summary), eventsOf x.2.acts = eventsOf g.acts ++ es →
      es.filterMap (outcome g env) = [] → x.1.published t = a.published t →
      x.1.published t = if t = g.tool then
        (outcomes g env x.2).foldl Outcome.book (a.published t) else a.published t := by
    intro es he hn hp
    rw [outcomes_of_events es he, hn, hp, List.foldl_nil, ite_self]
  cases hb with
  | rejects _ _ _ => exact hquiet [.rejected] (eventsOf_append _ _) rfl rfl
  | declines _ => exact hquiet [] (List.append_nil _).symm rfl rfl
  | @noChild msg _ _ _ _ =>
    rw [outcomes_of_events [.error msg] (eventsOf_append _ _), published_fail, published_occupy]
    rfl
  | enters _ _ _ _ => exact hquiet [] (List.append_nil _).symm rfl (published_occupy a g.tool t)
  | spawns _ _ => exact hquiet [] (List.append_nil _).symm rfl rfl
  | drops _ _ _ =>
    refine hquiet [] ?_ rfl rfl
    rw [eventsOf_append, Solo.dropped_silent]
  | loops _ _ => exact hquiet [] (List.append_nil _).symm rfl rfl
  | @hears bytes _ _ _ =>
    obtain ⟨-, es, he, hes⟩ := Solo.accept_events g bytes
    refine hquiet es he (List.filterMap_eq_nil_iff.mpr fun e hm => ?_) rfl
    exact outcome_of_line (hes e hm)
  | terms _ _ _ => exact hquiet [] (eventsOf_append _ _) rfl rfl
  | kills _ _ _ => exact hquiet [] (eventsOf_append _ _) rfl rfl
  | @succeeds parsed summary _ _ _ =>
    rw [outcomes_of_events [.success (round2 (env.later - g.startTime)) parsed summary]
      (eventsOf_append _ _), published_succeed]
    rfl
  | @fails acts msg _ hrf =>
    have he : eventsOf (g.acts ++ acts) = eventsOf g.acts := by
      rw [eventsOf_append, Solo.refused_silent hrf, List.append_nil]
    rw [outcomes_of_events [.error msg] ((eventsOf_append _ _).trans (by rw [he]; rfl)),
      published_fail]
    rfl
  | leaves _ =>
    obtain ⟨-, hs⟩ := Solo.cleanup_silent a g _ env
    exact hquiet [] (hs.events.trans (List.append_nil _).symm) rfl (hs.published t)
  | ends _ => exact hquiet [] (List.append_nil _).symm rfl rfl

end

namespace Chronicle
variable {c c' : Chronicle Tool Summary}

theorem outcomesOf_append (s : Sys Tool Summary) (t' : Tool) (os : List Outcome) (t : Tool) :
    outcomesOf ⟨s, c.completed ++ os.map fun o => (t', o)⟩ t =
      c.outcomesOf t ++ if t = t' then os else [] := by
  unfold outcomesOf
  rw [List.filterMap_append, List.filterMap_map]
  by_cases h : t' = t
  · subst h; simp
  · simp [h, Ne.symm h]

theorem recorded_step {l : Lbl Tool} (h : Recorded c) (hs : step host c l = some c') :
    Recorded c' := by
  obtain ⟨s, hstep, rfl⟩ := Option.map_eq_some_iff.mp hs
  intro t
  cases l with
  | request t' d =>
    cases hstep
    simpa [outcomesOf, told] using h t
  | reap i code =>
    obtain ⟨g, g', -, rfl, -, -, -⟩ := step_reap hstep
    simpa [outcomesOf, told] using h t
  | resume i r env =>
    obtain ⟨g, hg, hstep⟩ := Option.bind_eq_some_iff.mp hstep
    obtain ⟨x, hx, rfl⟩ := Option.map_eq_some_iff.mp hstep
    obtain ⟨hi, -⟩ := List.getElem?_eq_some_iff.mp hg
    have htold : told c.sys ⟨x.1, c.sys.gens.set i x.2⟩ (.resume i r env) =
        (outcomes g env x.2).map fun o => (g.tool, o) := by
      simp only [told, hg, List.getElem?_set_self hi]
    rw [htold, outcomesOf_append]
    refine (published_block (block_of_resume hx) t).trans ?_
    rw [h t]
    split
    · exact (List.foldl_append ..).symm
    · rw [List.append_nil]

/-- What is published of a tool is the record of its completed runs. -/
theorem recorded_exec {ls : List (Lbl Tool)} (hx : exec (step host) start ls = some c) :
    Recorded c := inv_exec (fun _ _ _ => recorded_step) (fun _ => rfl) hx

/-- **Published state.** In any interleaving, what is published of a tool is
what its last completed run came to exactly when its completed runs all came to
the same status. -/
theorem published_iff (host : Host Tool Summary) (ls : List (Lbl Tool))
    (hx : exec (step host) start ls = some c) (t : Tool) (os : List Outcome) {o : Outcome}
    (ho : c.outcomesOf t = os ++ [o]) :
    c.sys.app.published t = o.shows ↔ ∀ o' ∈ os, o'.status = o.status := by
  rw [recorded_exec hx t, ho]
  exact Outcome.record_eq_shows

/-! ## Runs one after the other -/

/-- Run `i` of a tool: `sudo` cannot be executed. -/
def failing (t : String) (i : Nat) : List (Lbl String) :=
  [.request t 10, .resume i .next { Solo.second 0 with spawn := some (str "sudo") },
    .resume i .next (Solo.second 0)]

/-- Run `i` of a tool: the tool ends after one second. -/
def succeeding (t : String) (i : Nat) : List (Lbl String) :=
  [.request t 10, .resume i .next (Solo.second 0), .resume i .spawned (Solo.second 0), .reap i 0,
    .resume i (.disconnected false) (Solo.second 1), .resume i (.readLine []) (Solo.second 1),
    .resume i .next (Solo.second 1)]

/-- Two runs fail. -/
theorem published_failing : ∃ c, exec (step Host.quiet) start
    (failing "irq_stat" 0 ++ failing "irq_stat" 1) = some c ∧
      c.sys.app.published "irq_stat" = (Outcome.error (str "sudo")).shows := by
  refine ⟨_, rfl, ?_⟩
  exact (published_iff .quiet (failing "irq_stat" 0 ++ failing "irq_stat" 1) rfl "irq_stat"
    [.error (str "sudo")] rfl).mpr (by decide)

theorem failing_succeeding_shows : ((exec (step Host.quiet) start
    (failing "irq_stat" 0 ++ succeeding "irq_stat" 1)).map fun c =>
      (c.outcomesOf "irq_stat", c.sys.app.published "irq_stat")) =
        some ([.error (str "sudo"), .success 1 0],
          ⟨some .success, some (str "sudo"), some 1, some 1, some 1, some 0⟩) := by
  decide +kernel

/-- **Counterexample.** A run fails and the next one succeeds: the entry has the
status of the second and the error text of the first. -/
theorem published_stale : ∃ c os o, exec (step Host.quiet) start
    (failing "irq_stat" 0 ++ succeeding "irq_stat" 1) = some c ∧
      c.outcomesOf "irq_stat" = os ++ [o] ∧ c.sys.app.published "irq_stat" ≠ o.shows := by
  obtain ⟨c, hc, he⟩ := Option.map_eq_some_iff.mp failing_succeeding_shows
  obtain ⟨hos, hp⟩ := Prod.mk.injEq .. ▸ he
  refine ⟨c, [.error (str "sudo")], .success 1 0, hc, hos, ?_⟩
  rw [hp]
  exact fun h => nomatch congrArg Published.error h

end Chronicle

end EbpfDemo.L5Concurrency.RunLock
