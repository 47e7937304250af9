import EbpfDemo.L4Client.SentEvents
import EbpfDemo.L5Concurrency.RunLock

/-!
# What `my_tools_tool_run_count` counts

`tool_runs.labels(tool, status).inc()` stands in front of the status event of a run, in
two places of `event_generator`; other requests may come, run and fail between any two
awaits. The counter is that of the status events sent, and no run is counted twice.

* `runs_counted`: in every reachable state the counter of a tool and a status is the
  number of requests for the tool that were sent that status. A request that was turned
  away, and a run that was broken off before its status event, count nowhere.
-/
namespace EbpfDemo.L5Concurrency.RunLock

open EbpfDemo.Core
open L4Client

variable {Tool Summary : Type}

/-- The outcome an event tells of a run that was admitted. -/
def outcomeOf : Event Summary → Option Status
  | .success _ _ _ => some .success
  | .error _ => some .error
  | _ => none

/-- The request was sent the outcome `st`. -/
def sent (st : Status) (g : Gen Tool Summary) : Bool :=
  (eventsOf g.acts).any fun e => outcomeOf e = some st

section
variable {g g' : Gen Tool Summary} {st : Status}

theorem outcomeOf_of_line {e : Event Summary} (h : e.status = none) : outcomeOf e = none := by
  cases e <;> first | rfl | cases h

theorem sent_append {es : List (Event Summary)} (h : eventsOf g'.acts = eventsOf g.acts ++ es) :
    sent st g' = (sent st g || es.any fun e => outcomeOf e = some st) := by
  rw [sent, h, List.any_append, sent]

/-- Events that tell no outcome. -/
theorem sent_quiet {es : List (Event Summary)} (h : eventsOf g'.acts = eventsOf g.acts ++ es)
    (hes : ∀ e ∈ es, outcomeOf e = none) : sent st g' = sent st g := by
  have hno : (es.any fun e => decide (outcomeOf e = some st)) = false := by
    apply List.any_eq_false.mpr
    intro e he
    rw [hes e he]
    simp
  rw [sent_append h, hno, Bool.or_false]

/-- Before its status event nothing was sent. -/
theorem sent_of_shape (h : Shape g) (hs : g.pc.over = false) : sent st g = false := by
  apply List.any_eq_false.mpr
  intro e he
  rw [outcomeOf_of_line (h.lines hs e he)]
  simp

end

variable [DecidableEq Tool] {host : Host Tool Summary}

section
variable {a : App Tool} {g : Gen Tool Summary} {r : Resume} {env : Env}
  {x : App Tool × Gen Tool Summary}

/-- The requests for `t` that were sent `st`, of one. -/
def sentTo (t : Tool) (st : Status) (g : Gen Tool Summary) : Bool := g.tool = t && sent st g

theorem toolRuns_countRun (a : App Tool) (t t' : Tool) (st st' : Status) :
    (a.countRun t' st').toolRuns t st =
      a.toolRuns t st + (decide (t' = t) && decide (st' = st)).toNat := by
  unfold App.countRun
  by_cases ht : t = t'
  · subst ht
    by_cases hst : st = st'
    · subst hst; simp
    · simp [hst, Ne.symm hst]
  · simp [ht, Ne.symm ht]

/-- A stretch that tells the outcome `st'` and counts it. -/
theorem counted_tell {g' : Gen Tool Summary} {a' : App Tool} (h : Shape g)
    (hs : g.pc.over = false) {e : Event Summary} {st' : Status}
    (he : eventsOf g'.acts = eventsOf g.acts ++ [e]) (ho : outcomeOf e = some st')
    (htool : g'.tool = g.tool) (ha : a'.toolRuns = (a.countRun g.tool st').toolRuns)
    (t : Tool) (st : Status) :
    a'.toolRuns t st + (sentTo t st g).toNat = a.toolRuns t st + (sentTo t st g').toNat := by
  have hbefore : sent st g = false := sent_of_shape h hs
  have hafter : sent st g' = decide (st' = st) := by
    rw [sent_append he, hbefore, Bool.false_or, List.any_cons, List.any_nil, Bool.or_false, ho]
    simp
  unfold sentTo
  rw [ha, toolRuns_countRun, hbefore, hafter, htool, Bool.and_false]
  rfl

/-- **One stretch** counts what it tells. -/
theorem counted_block (h : Shape g) (hb : Block host a g r env x) (t : Tool) (st : Status) :
    x.1.toolRuns t st + (sentTo t st g).toNat = a.toolRuns t st + (sentTo t st x.2).toNat := by
  have hquiet : x.1.toolRuns = a.toolRuns → x.2.tool = g.tool →
      (∃ es, eventsOf x.2.acts = eventsOf g.acts ++ es ∧ ∀ e ∈ es, outcomeOf e = none) →
      x.1.toolRuns t st + (sentTo t st g).toNat = a.toolRuns t st + (sentTo t st x.2).toNat := by
    rintro ha ht ⟨es, he, hes⟩
    rw [ha, sentTo, sentTo, ht, sent_quiet he hes]
  have hnone : ∃ es, eventsOf g.acts = eventsOf g.acts ++ es ∧
      ∀ e ∈ es, outcomeOf (e : Event Summary) = none :=
    ⟨[], (List.append_nil _).symm, List.forall_mem_nil _⟩
  cases hb with
  | rejects _ _ _ =>
    exact hquiet rfl rfl ⟨[.rejected], eventsOf_append _ _, fun e he => by
      rw [List.mem_singleton.mp he]; rfl⟩
  | declines _ => exact hquiet rfl rfl hnone
  | @noChild msg hpc _ _ _ =>
    have he : eventsOf (fail (occupy a g.tool) { g with startTime := env.now } msg).2.acts =
        eventsOf g.acts ++ [.error msg] := eventsOf_append _ _
    exact counted_tell h (by rw [hpc]; rfl) he rfl rfl rfl t st
  | enters _ _ _ _ => exact hquiet rfl rfl hnone
  | spawns _ _ => exact hquiet rfl rfl hnone
  | drops _ _ _ =>
    refine hquiet rfl rfl ⟨[], ?_, List.forall_mem_nil _⟩
    rw [eventsOf_append, Solo.dropped_silent]
  | loops _ _ => exact hquiet rfl rfl hnone
  | @hears bytes _ _ _ =>
    obtain ⟨-, es, he, hes⟩ := Solo.accept_events g bytes
    have ht : (accept g bytes).tool = g.tool := by
      unfold accept
      split_ifs <;> rfl
    exact hquiet rfl ht ⟨es, he, fun e hm => outcomeOf_of_line (hes e hm)⟩
  | terms _ _ _ => exact hquiet rfl rfl ⟨[], eventsOf_append _ _, List.forall_mem_nil _⟩
  | kills _ _ _ => exact hquiet rfl rfl ⟨[], eventsOf_append _ _, List.forall_mem_nil _⟩
  | @succeeds parsed summary hr _ _ =>
    have he : eventsOf (succeed a g env.later parsed summary).2.acts = eventsOf g.acts ++
        [.success (round2 (env.later - g.startTime)) parsed summary] := eventsOf_append _ _
    exact counted_tell h (not_over_of_busy (reports_busy hr)) he rfl rfl rfl t st
  | @fails acts msg hbusy hrf =>
    have he : eventsOf (fail a { g with acts := g.acts ++ acts } msg).2.acts =
        eventsOf g.acts ++ [.error msg] := by
      refine (eventsOf_append _ _).trans ?_
      rw [eventsOf_append, Solo.refused_silent hrf, List.append_nil]
      rfl
    exact counted_tell h (not_over_of_busy hbusy) he rfl rfl rfl t st
  | leaves _ =>
    obtain ⟨-, hs⟩ := Solo.cleanup_silent a g _ env
    refine hquiet rfl ?_ ⟨[], hs.events.trans (List.append_nil _).symm, List.forall_mem_nil _⟩
    unfold cleanup
    dsimp only
    split_ifs <;> rfl
  | ends _ => exact hquiet rfl rfl hnone

end

/-- The counters and what was sent, over all requests. -/
structure Counted (s : Sys Tool Summary) : Prop where
  shape : ∀ g ∈ s.gens, Shape g
  runs : ∀ t st, s.app.toolRuns t st = s.gens.countP (sentTo t st)

variable {s s' : Sys Tool Summary}

/-- **One step** of the server. -/
theorem counted_step {l : Lbl Tool} (h : Counted s) (hs : step host s l = some s') :
    Counted s' := by
  cases l with
  | request t' d =>
    cases hs
    refine ⟨fun g hg => ?_, fun t st => ?_⟩
    · rcases List.mem_append.mp hg with hg | hg
      · exact h.shape g hg
      · rw [List.mem_singleton.mp hg]; exact shape_new t' d
    · have hnew : sentTo t st (.new t' d : Gen Tool Summary) = false := Bool.and_false _
      rw [List.countP_append, List.countP_singleton, hnew, if_neg Bool.false_ne_true]
      exact h.runs t st
  | reap i code =>
    obtain ⟨g, g', hg, rfl, -, rfl, -⟩ := step_reap hs
    refine ⟨fun q hq => ?_, fun t st => ?_⟩
    · rcases List.mem_or_eq_of_mem_set hq with hq | rfl
      · exact h.shape q hq
      · exact h.shape g (List.mem_of_getElem? hg)
    · have hset := countP_set_of_getElem? (sentTo t st)
        (y := { g with child := some ⟨some code⟩ }) hg
      have hsame : sentTo t st { g with child := some ⟨some code⟩ } = sentTo t st g := rfl
      rw [hsame] at hset
      exact (h.runs t st).trans (Nat.add_right_cancel hset).symm
  | resume i r env =>
    obtain ⟨g, hg, hs⟩ := Option.bind_eq_some_iff.mp hs
    obtain ⟨x, hx, rfl⟩ := Option.map_eq_some_iff.mp hs
    have hshape := h.shape g (List.mem_of_getElem? hg)
    have hblock := block_of_resume hx
    refine ⟨fun q hq => ?_, fun t st => ?_⟩
    · rcases List.mem_or_eq_of_mem_set hq with hq | rfl
      · exact h.shape q hq
      · exact (shape_block hshape hblock).1
    · have hset := countP_set_of_getElem? (sentTo t st) (y := x.2) hg
      have hcount := counted_block hshape hblock t st
      have hruns := h.runs t st
      dsimp only
      omega

/-- **The run counter.** In every interleaving of any number of requests, and however
their runs end: `my_tools_tool_run_count{tool, status}` is the number of requests for the
tool that were sent the status. -/
theorem runs_counted (host : Host Tool Summary) (ls : List (Lbl Tool))
    (hx : exec (step host) start ls = some s) (t : Tool) (st : Status) :
    s.app.toolRuns t st = s.gens.countP fun g => g.tool = t ∧ sent st g = true := by
  have h : Counted s := inv_exec (fun _ _ _ => counted_step)
    ⟨fun _ hg => (by cases hg), fun _ _ => rfl⟩ hx
  rw [h.runs t st]
  apply List.countP_congr
  intro g _
  simp [sentTo]

/-- Two requests for one tool; the second is turned away, the first fails. -/
def turnedAway : List (Lbl String) :=
  [.request "irq_stat" 10, .request "irq_stat" 10] ++ begins 0 ++
    [.resume 1 .next env, .resume 0 (.raised (L1Encoding.str "EIO")) env]

theorem runs_counted_turnedAway : ∃ s, exec (step Host.quiet) start turnedAway = some s ∧
    s.gens.length = 2 ∧ s.app.toolRuns "irq_stat" .error = 1 ∧
    s.app.toolRuns "irq_stat" .error =
      s.gens.countP fun g => g.tool = "irq_stat" ∧ sent .error g = true :=
  ⟨_, rfl, rfl, rfl, runs_counted Host.quiet turnedAway rfl "irq_stat" .error⟩

end EbpfDemo.L5Concurrency.RunLock
