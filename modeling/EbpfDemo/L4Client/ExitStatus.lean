import EbpfDemo.L4Client.Outcome

/-!
# Does a success mean that the tool worked?

`sudo` that refuses and a loader that cannot load or attach its program both
tell so by their exit status only. `event_generator` tests `returncode` for
`None` and nowhere else: what the child ended with does not reach the status.

`Watched` is a run beside what happened to its child: the status it ended with,
and whether it was alive when the client stopped it at the deadline. A child
ends when it likes (`exits`); the event loop collects that status later.

* `exitStatus_iff`: the outcome is honest throughout a run exactly when no step
  comes to the success bookkeeping with a child that neither ended with 0 nor was
  stopped at the deadline, unless its output cannot be parsed or summed up.
* `exitStatus_refused`: `sudo` refuses with status 1, the run is a success.
-/
namespace EbpfDemo.L4Client

open EbpfDemo.Core
open Solo (Open Over Staged Told second)

variable {Tool Summary : Type}

structure Watched (Tool Summary : Type) where
  solo : Solo Tool Summary
  /-- What the child ended with. -/
  exit : Option Int
  /-- SIGTERM at the deadline found the child alive. -/
  stopped : Bool

inductive Watch where
  | turn (l : Turn)
  | exits (code : Int)

namespace Watched

def stopsAtLimit (w : Watched Tool Summary) (r : Resume) (env : Env) : Bool :=
  limitReached w.solo.gen r env && w.solo.gen.held && w.exit.isNone && env.kill = .ok

/-- It ended with 0 or was stopped at the deadline. -/
def worked (w : Watched Tool Summary) : Bool := w.exit = some 0 || w.stopped

variable [DecidableEq Tool]

def step (host : Host Tool Summary) (w : Watched Tool Summary) :
    Watch → Option (Watched Tool Summary)
  | .exits code =>
    if w.solo.gen.unreaped = true ∧ w.exit = none then some { w with exit := some code } else none
  | .turn (.reap code) =>
    if w.exit = some code then
      (Solo.step host w.solo (.reap code)).map fun s => { w with solo := s }
    else none
  | .turn (.resume r env) =>
    (Solo.step host w.solo (.resume r env)).map fun s =>
      { w with solo := s, stopped := w.stopped || w.stopsAtLimit r env }

/-- A request, before it is admitted. -/
def request (a : App Tool) (t : Tool) (d : ℚ) : Watched Tool Summary := ⟨⟨a, .new t d⟩, none, false⟩

/-- Success is told of a tool that worked only; where a tool failed by itself
and its run is told, then as an error, in the counter and the gauge as well. -/
structure Honest (a : App Tool) (t : Tool) (w : Watched Tool Summary) : Prop where
  success : ∀ e ∈ eventsOf w.solo.gen.acts, e.status = some .success → w.worked = true
  failure : ∀ code, w.exit = some code → code ≠ 0 → w.stopped = false →
    ∀ e ∈ eventsOf w.solo.gen.acts, e.status ≠ none →
      w.solo.Told a t .error ∧ w.solo.app.toolLastSuccess t = some 0

/-- What comes to the bookkeeping has worked, or its output is no use. -/
def WorkedIfReported (host : Host Tool Summary) (w : Watched Tool Summary) : Watch → Prop
  | .turn (.resume r env) =>
    reports w.solo.gen r env = true → w.worked = true ∨ Raises host w.solo.gen env
  | _ => True

instance (host : Host Tool Summary) (w : Watched Tool Summary) :
    ∀ l, Decidable (WorkedIfReported host w l)
  | .turn (.resume _ _) => inferInstanceAs (Decidable (_ → _))
  | .turn (.reap _) => .isTrue trivial
  | .exits _ => .isTrue trivial

/-! ## One step -/

variable {host : Host Tool Summary} {a : App Tool} {t : Tool} {w w' : Watched Tool Summary}

theorem honest_untold (h : w.solo.Untold a) : w.Honest a t := by
  refine ⟨fun e he hst => ?_, fun _ _ _ _ e he hst => absurd (h.lines e he) hst⟩
  rw [h.lines e he] at hst; cases hst

/-- Only what is told a success has to be founded. -/
theorem honest_iff (h : Staged a t w.solo) :
    w.Honest a t ↔ (Over a t .success w.solo → w.worked = true) := by
  constructor
  · intro hw ho
    obtain ⟨e, he, hst⟩ := ho.has_status
    exact hw.success e he hst
  · intro hw
    rcases h with h | ⟨st, h⟩ | h
    · exact honest_untold h.untold
    · cases st with
      | success =>
        have hworked := hw h
        refine ⟨fun _ _ _ => hworked, fun code hx hne hs => ?_⟩
        simp [worked, hx, hne, hs] at hworked
      | error =>
        refine ⟨fun e he hst => ?_, fun _ _ _ _ _ _ _ => ⟨h.told, h.gauge⟩⟩
        rcases h.status_eq he with h1 | h1 <;> rw [h1] at hst <;> cases hst
    · exact honest_untold h.untold

theorem step_exits {code : Int} (h : step host w (.exits code) = some w') :
    w.exit = none ∧ w' = { w with exit := some code } := by
  simp only [step] at h
  split at h
  · rename_i hc
    exact ⟨hc.2, (Option.some.inj h).symm⟩
  · cases h

theorem step_reap {code : Int} (h : step host w (.turn (.reap code)) = some w') :
    Solo.step host w.solo (.reap code) = some w'.solo ∧ w'.worked = w.worked := by
  simp only [step] at h
  split at h
  · obtain ⟨s, hs, rfl⟩ := Option.map_eq_some_iff.mp h
    exact ⟨hs, rfl⟩
  · cases h

theorem step_resume {r : Resume} {env : Env} (h : step host w (.turn (.resume r env)) = some w') :
    Solo.step host w.solo (.resume r env) = some w'.solo ∧
      w'.worked = (w.worked || w.stopsAtLimit r env) := by
  obtain ⟨s, hs, rfl⟩ := Option.map_eq_some_iff.mp h
  unfold worked
  exact ⟨hs, (Bool.or_assoc _ _ _).symm⟩

theorem solo_step {l : Turn} (h : step host w (.turn l) = some w') :
    Solo.step host w.solo l = some w'.solo := by
  cases l with
  | reap code => exact (step_reap h).1
  | resume r env => exact (step_resume h).1

theorem staged_step {l : Watch} (h : Staged a t w.solo) (hs : step host w l = some w') :
    Staged a t w'.solo := by
  cases l with
  | exits code =>
    obtain ⟨-, rfl⟩ := step_exits hs
    exact h
  | turn l => exact Solo.staged_step h (solo_step hs)

/-- The bookkeeping of an open run, with a child that is reaped. -/
theorem over_report {r : Resume} {env : Env} {s' : Solo Tool Summary} (h : Open a t w.solo)
    (hr : reports w.solo.gen r env = true)
    (hs : Solo.step host w.solo (.resume r env) = some s') :
    Raises host w.solo.gen env ∧ Over a t .error s' ∨
      ¬ Raises host w.solo.gen env ∧ Over a t .success s' := by
  obtain ⟨x, hx, rfl⟩ := Option.map_eq_some_iff.mp hs
  rw [resume_report hr hx]
  rcases report_cases host w.solo.app w.solo.gen env with ⟨hraise, msg, he⟩ | ⟨hraise, p, q, he⟩
  · have hf := Solo.over_fail h.tool h.untold [] rfl msg
    rw [List.append_nil] at hf
    rw [he]
    exact .inl ⟨hraise, hf⟩
  · rw [he]
    exact .inr ⟨hraise, Solo.over_succeed h env.later p q⟩

/-- From elsewhere no success is told. -/
theorem not_success_of_open {r : Resume} {env : Env} {s' : Solo Tool Summary}
    (h : Open a t w.solo) (hr : reports w.solo.gen r env = false)
    (hs : Solo.step host w.solo (.resume r env) = some s') : ¬ Over a t .success s' := by
  intro ho
  obtain ⟨x, hx, rfl⟩ := Option.map_eq_some_iff.mp hs
  cases hb : (Turn.resume r env).breaks with
  | true =>
    rcases Solo.open_step h hs with ⟨-, ⟨-, h1⟩ | ⟨-, h1⟩⟩ | ⟨h1, -⟩
    · exact ho.not_untold h1.untold
    · cases ho.unique h1
    · rw [hb] at h1; cases h1
  | false =>
    rcases Solo.open_block h hb (block_of_resume hx) with h1 | h1 | ⟨h1, -⟩
    · exact ho.not_untold h1.untold
    · cases ho.unique h1
    · rw [hr] at h1; cases h1

omit [DecidableEq Tool] in
theorem stopsAtLimit_reported {r : Resume} {env : Env} (h : reports w.solo.gen r env = true) :
    w.stopsAtLimit r env = false := by
  simp [stopsAtLimit, reports_held h]

/-- A stretch keeps the outcome honest exactly when what it reports has worked. -/
theorem honest_resume {r : Resume} {env : Env} (h : Staged a t w.solo) (hw : w.Honest a t)
    (hs : step host w (.turn (.resume r env)) = some w') :
    w'.Honest a t ↔ WorkedIfReported host w (.turn (.resume r env)) := by
  rw [honest_iff (staged_step h hs)]
  obtain ⟨hsolo, hworked⟩ := step_resume hs
  have hvacuous : reports w.solo.gen r env = false →
      WorkedIfReported host w (.turn (.resume r env)) := fun hr h => by rw [hr] at h; cases h
  rcases h with ho | ⟨st, ho⟩ | ho
  · cases hr : reports w.solo.gen r env with
    | false =>
      have hno := not_success_of_open ho hr hsolo
      exact iff_of_true (fun h => absurd h hno) (hvacuous hr)
    | true =>
      rw [stopsAtLimit_reported hr, Bool.or_false] at hworked
      rw [hworked]
      rcases over_report ho hr hsolo with ⟨hraise, h1⟩ | ⟨hraise, h1⟩
      · exact iff_of_true (fun h2 => nomatch h2.unique h1) fun _ => .inr hraise
      · exact ⟨fun h2 _ => .inl (h2 h1), fun h2 _ => (h2 hr).resolve_right hraise⟩
  · -- behind the status event nothing changes
    refine iff_of_true (fun h1 => ?_) (hvacuous (reports_settled ho.settled))
    cases h1.unique (Solo.over_step ho hsolo)
    rw [hworked, (honest_iff (.inr (.inl ⟨_, ho⟩))).mp hw ho]; rfl
  · refine iff_of_true (fun h1 => ?_) (hvacuous (reports_settled ho.pc))
    exact absurd (Solo.gone_step ho hsolo).untold h1.not_untold

theorem honest_step {l : Watch} (h : Staged a t w.solo) (hw : w.Honest a t)
    (hs : step host w l = some w') : w'.Honest a t ↔ WorkedIfReported host w l := by
  cases l with
  | exits code =>
    refine iff_of_true ?_ trivial
    rw [honest_iff (staged_step h hs)]
    obtain ⟨hnone, rfl⟩ := step_exits hs
    intro ho
    have hstopped : w.stopped = true := by
      simpa [worked, hnone] using (honest_iff h).mp hw ho
    simp [worked, hstopped]
  | turn l =>
    cases l with
    | resume r env => exact honest_resume h hw hs
    | reap code =>
      refine iff_of_true ?_ trivial
      rw [honest_iff (staged_step h hs)]
      obtain ⟨hsolo, hworked⟩ := step_reap hs
      obtain ⟨-, -, -, he⟩ := Solo.step_reap hsolo
      intro ho
      rw [he] at ho
      rw [hworked]
      exact (honest_iff h).mp hw ⟨ho.pc, ho.told.congr rfl rfl, ho.gauge⟩

/-! ## A whole run -/

/-- **Honest.** Throughout an accepted run, whatever its child does, the outcome
is honest exactly when every step that comes to the bookkeeping found a child
that had worked, or output that is no use. -/
theorem exitStatus_iff (host : Host Tool Summary) {d : ℚ} (env : Env) (ls : List Watch)
    (hfree : a.running t = false)
    (hx : exec (step host) (request a t d) (.turn (.resume .next env) :: ls) = some w) :
    Always (step host) (Honest a t) (request a t d) (.turn (.resume .next env) :: ls) ↔
      Along (step host) (WorkedIfReported host) (request a t d)
        (.turn (.resume .next env) :: ls) := by
  obtain ⟨w1, h1, hx1⟩ := exec_cons_some hx
  have hstaged : Staged a t w1.solo := Solo.staged_enter hfree (solo_step h1)
  have hfirst : WorkedIfReported host (request a t d) (.turn (.resume .next env)) :=
    fun h => nomatch h
  have h0 : Honest a t (request a t d : Watched Tool Summary) :=
    honest_untold ⟨List.forall_mem_nil _, rfl⟩
  have hhonest : Honest a t w1 := (honest_iff hstaged).mpr fun ho => by
    rcases Solo.open_enter hfree (solo_step h1) with h | h
    · exact absurd h.untold ho.not_untold
    · cases ho.unique h
  rw [always_cons h1, along_cons h1, and_iff_right h0, and_iff_right hfirst]
  exact always_iff_along (fun _ _ _ => staged_step) (fun _ _ _ => honest_step) hstaged hhonest hx1

/-! ## Two runs -/

/-- The tool runs up to the deadline and ends by SIGTERM. -/
def untilLimit : List Watch :=
  [.turn (.resume .spawned (second 0)), .turn (.resume (.disconnected false) (second 10)),
    .exits (-15), .turn (.reap (-15)), .turn (.resume .waited (second 11)),
    .turn (.resume .next (second 11))]

theorem exitStatus_limit :
    (exec (step Host.quiet) (request .start "irq_stat" 10)
        (.turn (.resume .next (second 0)) :: untilLimit)).isSome = true ∧
      Always (step Host.quiet) (Honest .start "irq_stat") (request .start "irq_stat" 10)
        (.turn (.resume .next (second 0)) :: untilLimit) := by
  have hsome : (exec (step Host.quiet) (request .start "irq_stat" 10)
      (.turn (.resume .next (second 0)) :: untilLimit)).isSome = true := by decide +kernel
  obtain ⟨w, hw⟩ := Option.isSome_iff_exists.mp hsome
  exact ⟨hsome, (exitStatus_iff .quiet (second 0) untilLimit rfl hw).mpr (by decide +kernel)⟩

/-- `sudo` ends with status 1 before the first line. -/
def sudoRefuses : List Watch :=
  [.turn (.resume .next (second 0)), .turn (.resume .spawned (second 0)), .exits 1,
    .turn (.reap 1), .turn (.resume (.disconnected false) (second 1)),
    .turn (.resume (.readLine []) (second 1))]

theorem sudoRefuses_shows : ((exec (step Host.quiet) (request .start "irq_stat" 10) sudoRefuses).map
    fun w => (w.exit, w.stopped, (eventsOf w.solo.gen.acts).filterMap Event.status)) =
      some (some 1, false, [.success]) := by decide +kernel

/-- **Counterexample.** The child failed by itself, the run is a success. -/
theorem exitStatus_refused : ∃ w,
    exec (step Host.quiet) (request .start "irq_stat" 10) sudoRefuses = some w ∧
      w.exit = some 1 ∧ w.stopped = false ∧
      ¬ Always (step Host.quiet) (Honest .start "irq_stat") (request .start "irq_stat" 10)
        sudoRefuses := by
  obtain ⟨w, hw, he⟩ := Option.map_eq_some_iff.mp sudoRefuses_shows
  simp only [Prod.mk.injEq] at he
  obtain ⟨hexit, hstop, hev⟩ := he
  refine ⟨w, hw, hexit, hstop, fun h => ?_⟩
  have hst : Status.success ∈ (eventsOf w.solo.gen.acts).filterMap Event.status := by simp [hev]
  obtain ⟨e, he, hst⟩ := List.mem_filterMap.mp hst
  have hworked := (h.last hw).success e he hst
  simp [worked, hexit, hstop] at hworked

end Watched

end EbpfDemo.L4Client
