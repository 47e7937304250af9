import EbpfDemo.L4Client.EventGenerator

/-!
# Does every exit of a run clean up?

`Solo` is one generator on its own: it is resumed until it has finished, and
while it runs the event loop may collect the exit status of its child at any
point. An accepted run is one whose first stretch finds the flag clear.

The flag and the gauge are reset on every path, because they come first in the
`finally` block (`finished_booked`). The child is not. Both handlers around
`os.killpg` catch `ProcessLookupError` only: a `PermissionError` (the child is
`sudo`, so it belongs to root) leaves the `finally` block before its
`process.wait()`. That last wait is itself an `await` without a handler: a
cancellation there ends the generator with the child still running. And a child whose
pipe was never connected is not bound to `process`: the `finally` block does not see it.

* `cleanup_iff`: once an accepted run has finished, flag, gauge and child are as
  they should be exactly when no step of the run did either (`Reaps`).
* `cleanup_notPermitted`: the client disconnects and SIGKILL is refused.
-/
namespace EbpfDemo.L4Client

open EbpfDemo.Core

variable {Tool Summary : Type} [DecidableEq Tool] {host : Host Tool Summary}

structure Solo (Tool Summary : Type) where
  app : App Tool
  gen : Gen Tool Summary

inductive Turn where
  | resume (r : Resume) (env : Env)
  | reap (code : Int)

def Gen.isFinished (g : Gen Tool Summary) : Bool := match g.pc with
  | .finished _ => true
  | _ => false

/-- An exception at the `await`. -/
def Resume.breaksOff : Resume → Bool
  | .cancel | .raised _ => true
  | _ => false

namespace Solo

/-- Nothing happens to a run that has finished. -/
def step (host : Host Tool Summary) (s : Solo Tool Summary) : Turn → Option (Solo Tool Summary)
  | .resume r env => (resume host s.app s.gen r env).map fun x => ⟨x.1, x.2⟩
  | .reap code =>
    if s.gen.isFinished then none else (s.gen.reap code).map fun g => { s with gen := g }

/-- What the `finally` block is for: the flag is clear, the gauge is what it
was before the run, no child is left. -/
def Clean (t : Tool) (before : App Tool) (s : Solo Tool Summary) : Prop :=
  (s.app.toolStats t).map ToolStats.running = some false ∧
    s.app.toolRunning = before.toolRunning ∧ s.gen.unreaped = false

/-- With a child that is not reaped, the `finally` block is not entered while `process` is
`None` or when `os.killpg` is refused, and its wait is neither cancelled nor raises. -/
def Reaps (s : Solo Tool Summary) : Turn → Prop
  | .reap _ => True
  | .resume r env => s.gen.unreaped = true →
    ¬ (runsFinally s.gen.pc r = true ∧ (s.gen.bound = false ∨ env.kill = .notPermitted)) ∧
      ¬ (s.gen.pc.phase = .past ∧ r.breaksOff = true)

instance (s : Solo Tool Summary) : ∀ l, Decidable (s.Reaps l)
  | .reap _ => .isTrue trivial
  | .resume _ _ => inferInstanceAs (Decidable (_ → _))

/-- The run is over and left its child behind. -/
def Abandons (s : Solo Tool Summary) : Prop := s.gen.isFinished = true ∧ s.gen.unreaped = true

/-! ## One step -/

variable {s s' : Solo Tool Summary} {l : Turn}

theorem step_resume {r : Resume} {env : Env} (h : step host s (.resume r env) = some s') :
    Moves s.app s.gen r env s'.app s'.gen := by
  obtain ⟨x, hx, rfl⟩ := Option.map_eq_some_iff.mp h
  exact moves_of_resume hx

theorem step_reap {code : Int} (h : step host s (.reap code) = some s') :
    s.gen.isFinished = false ∧ s.gen.unreaped = true ∧ s'.gen.unreaped = false ∧
      s' = { s with gen := { s.gen with child := some ⟨some code⟩ } } := by
  simp only [step] at h
  split at h
  · cases h
  · rename_i hf
    obtain ⟨g, hg, rfl⟩ := Option.map_eq_some_iff.mp h
    obtain ⟨hu, rfl, hu'⟩ := reap_some hg
    exact ⟨by simpa using hf, hu, hu', rfl⟩

theorem not_finished_of_step (h : step host s l = some s') : s.gen.isFinished = false := by
  cases l with
  | reap code => exact (step_reap h).1
  | resume r env =>
    obtain ⟨x, hx, -⟩ := Option.map_eq_some_iff.mp h
    unfold Gen.isFinished
    split
    · rename_i hpc
      cases r <;> simp [resume, hpc] at hx
    · rfl

omit [DecidableEq Tool] in
theorem isFinished_of_phase {g : Gen Tool Summary} (h : g.pc.phase ≠ .past) :
    g.isFinished = false := by
  unfold Gen.isFinished
  split
  · rename_i hpc
    exact absurd (by rw [hpc]; rfl) h
  · rfl

theorem childless_step (hc : s.gen.Childless) (h : step host s l = some s') :
    s'.gen.Childless := by
  cases l with
  | resume r env => exact (step_resume h).childless hc
  | reap code =>
    obtain ⟨-, hu, -, rfl⟩ := step_reap h
    intro hp
    rw [unreaped_eq_false (hc hp)] at hu; cases hu

/-- A step abandons the child exactly when it does not meet `Reaps`. -/
theorem abandons_step (hc : s.gen.Childless) (h : step host s l = some s') :
    ¬ s'.Abandons ↔ s.Reaps l := by
  unfold Abandons Reaps
  cases l with
  | reap code => simp [(step_reap h).2.2.1]
  | resume r env =>
    cases step_resume h with
    | outside _ _ hph _ _ _ hp =>
      have hu := unreaped_eq_false (hc hph)
      simp [unreaped_congr hp, hu]
    | enters _ _ hpc _ _ _ hph' _ _ =>
      have hu := unreaped_eq_false (hc (by simp [hpc]))
      have hf : s'.gen.isFinished = false := isFinished_of_phase (by rw [hph']; simp)
      simp [hf, hu]
    | inside hr hph hi =>
      have hf : s'.gen.isFinished = false := isFinished_of_phase (by rw [hi.phase]; simp)
      simp [hf, hr, hph]
    | leaves hr hph _ _ _ _ hp hpc' =>
      -- an unreaped child is left exactly when the block is left without a wait
      rw [unreaped_congr hp]
      have hheld : s.gen.held = true ↔ s.gen.bound = true ∧ s.gen.unreaped = true := by
        simp [Gen.held]
      split at hpc' <;> rename_i hk <;> obtain ⟨e, he⟩ := hpc' <;>
        simp [Gen.isFinished, he, hr, hph] <;> grind
    | ends hr hpc _ hpc' _ hp hw =>
      rw [unreaped_congr hp]
      rcases hw with ⟨rfl, hu⟩ | rfl | ⟨m, rfl⟩
      · simp [hu]
      · simp [Gen.isFinished, hpc, hpc', runsFinally, Resume.breaksOff]
      · simp [Gen.isFinished, hpc, hpc', runsFinally, Resume.breaksOff]

/-! ## A whole run -/

/-- The flag and the gauge of an accepted run. -/
structure Booked (t : Tool) (before : App Tool) (s : Solo Tool Summary) : Prop where
  tool : s.gen.tool = t
  accepted : s.gen.pc.phase ≠ .before
  gauge : s.app.toolRunning = before.toolRunning + if s.gen.pc.phase = .running then 1 else 0
  flag : s.gen.pc.phase = .past → (s.app.toolStats t).map ToolStats.running = some false

theorem booked_step {t : Tool} {before : App Tool} (hb : Booked t before s)
    (h : step host s l = some s') : Booked t before s' := by
  obtain ⟨ht, hacc, hgauge, hflag⟩ := hb
  cases l with
  | reap code =>
    obtain ⟨-, -, -, rfl⟩ := step_reap h
    exact ⟨ht, hacc, hgauge, hflag⟩
  | resume r env =>
    have hm := step_resume h
    have ht' : s'.gen.tool = t := hm.tool.trans ht
    cases hm with
    | outside _ _ hph _ _ _ _ => exact absurd hph hacc
    | enters _ _ hpc _ _ _ _ _ _ => exact absurd (by simp [hpc]) hacc
    | inside _ hph hi =>
      have hph' : s'.gen.pc.phase = .running := hi.phase
      exact ⟨ht', by simp [hph'], by rw [hi.same.1, hgauge, hph, hph'], by simp [hph']⟩
    | leaves _ hph hf _ hg _ _ hpc' =>
      have hph' : s'.gen.pc.phase = .past := phase_of_leaves hpc'
      refine ⟨ht', by simp [hph'], ?_, fun _ => ht ▸ hf⟩
      rw [hg, hgauge, hph, hph']; simp
    | ends _ hpc ha hpc' _ _ _ =>
      exact ⟨ht', by simp [hpc'], by simp [ha, hgauge, hpc, hpc'],
        fun _ => ha ▸ hflag (by simp [hpc])⟩

omit [DecidableEq Tool] in
/-- Once an accepted run has finished, the flag and the gauge are reset. -/
theorem finished_booked {t : Tool} {before : App Tool} (hb : Booked t before s)
    (hf : s.gen.isFinished = true) :
    (s.app.toolStats t).map ToolStats.running = some false ∧
      s.app.toolRunning = before.toolRunning := by
  have hph : s.gen.pc.phase = .past := by
    unfold Gen.isFinished at hf
    split at hf
    · rename_i hpc; rw [hpc]; rfl
    · cases hf
  refine ⟨hb.flag hph, ?_⟩
  rw [hb.gauge, hph]; simp

/-- A finished run has reaped its child exactly when every step met `Reaps`. -/
theorem reaped_iff {t : Solo Tool Summary} {ls : List Turn} (hc : s.gen.Childless)
    (h0 : s.gen.isFinished = false) (hx : exec (step host) s ls = some t)
    (hf : t.gen.isFinished = true) :
    t.gen.unreaped = false ↔ Along (step host) Reaps s ls := by
  have hopen : ∀ {s : Solo Tool Summary}, s.gen.isFinished = false → ¬ s.Abandons := by
    intro s hs ha
    rw [ha.1] at hs; cases hs
  have hend : ¬ t.Abandons ↔ t.gen.unreaped = false := by simp [Abandons, hf]
  rw [← hend, ← always_iff_along (Q := fun s => ¬ s.Abandons)
    (fun _ _ _ hc h => childless_step hc h) (fun _ _ _ hc _ h => abandons_step hc h) hc
    (hopen h0) hx]
  exact ⟨always_of_last (fun _ _ _ h => hopen (not_finished_of_step h)) hx, fun h => h.last hx⟩

/-- The first stretch of an accepted run. -/
theorem booked_enter {a : App Tool} {t : Tool} {d : ℚ} {env : Env} (hfree : a.running t = false)
    (h : step host ⟨a, .new t d⟩ (.resume .next env) = some s) : Booked t a s := by
  have hm := step_resume h
  have ht : s.gen.tool = t := hm.tool
  cases hm with
  | enters _ _ _ _ _ hg hph _ _ => exact ⟨ht, by simp [hph], by simp [hg, hph], by simp [hph]⟩
  | outside _ _ _ ha hph _ _ =>
    -- only a set flag turns a new request away
    refine absurd ?_ hph
    have hs : s = ⟨(enter a (.new t d) env).1, (enter a (.new t d) env).2⟩ :=
      (Option.some.inj h).symm
    rw [hs, enter, if_neg (by simp [Gen.new, hfree])]
    dsimp only
    split <;> rfl
  | inside _ hph _ => cases hph
  | leaves _ hph _ _ _ _ _ _ => cases hph
  | ends _ hpc _ _ _ _ _ => cases hpc

/-- **Cleanup.** Once an accepted run has finished, the flag is clear, the gauge
is what it was and the child is reaped exactly when every step met `Reaps`. -/
theorem cleanup_iff (host : Host Tool Summary) {a : App Tool} {t : Tool} {d : ℚ} (env : Env)
    (ls : List Turn) (hfree : a.running t = false)
    (hx : exec (step host) ⟨a, .new t d⟩ (.resume .next env :: ls) = some s)
    (hf : s.gen.isFinished = true) :
    s.Clean t a ↔ Along (step host) Reaps ⟨a, .new t d⟩ (.resume .next env :: ls) := by
  obtain ⟨s1, hs1, hx1⟩ := exec_cons_some hx
  have hb : Booked t a s := inv_exec (fun _ _ _ => booked_step) (booked_enter hfree hs1) hx1
  obtain ⟨hflag, hgauge⟩ := finished_booked hb hf
  rw [← reaped_iff (fun _ => rfl) rfl hx hf]
  exact ⟨fun h => h.2.2, fun h => ⟨hflag, hgauge, h⟩⟩

/-! ## A client that leaves -/

/-- `os.killpg` answers `k`. -/
def signals (k : KillResult) : Env := ⟨0, 0, none, k⟩

/-- At `n` seconds, and `os.killpg` works. -/
def second (n : ℚ) : Env := ⟨n, n, none, .ok⟩

/-- The tool is started and the client disconnects. -/
def leaving (k : KillResult) : List Turn :=
  [.resume .spawned (signals k), .resume (.disconnected true) (signals k)]

/-- SIGKILL works: the run cleans up. -/
theorem cleanup_killed : ∃ s, exec (step Host.quiet) ⟨.start, .new "mem_oom" 10⟩
    (.resume .next (signals .ok) ::
      (leaving .ok ++ [.reap (-9), .resume .waited (signals .ok)])) = some s ∧
      s.Clean "mem_oom" .start :=
  ⟨_, rfl, (cleanup_iff .quiet (signals .ok)
    (leaving .ok ++ [.reap (-9), .resume .waited (signals .ok)]) rfl rfl rfl).mpr (by decide)⟩

/-- **Counterexample.** SIGKILL is refused: the run has finished, its child is
neither killed nor waited for. -/
theorem cleanup_notPermitted : ∃ s, exec (step Host.quiet) ⟨.start, .new "mem_oom" 10⟩
    (.resume .next (signals .ok) :: leaving .notPermitted) = some s ∧
      s.gen.isFinished = true ∧ s.gen.unreaped = true ∧ ¬ s.Clean "mem_oom" .start :=
  ⟨_, rfl, rfl, rfl, fun h => absurd h.2.2 (by decide)⟩

/-- The client disconnects while the pipe is being connected, and a second cancellation
breaks off the wait of asyncio: `process` is still `None`. -/
example : ∃ s, exec (step Host.quiet) ⟨.start, .new "mem_oom" 10⟩
    [.resume .next (signals .ok), .resume .cancel (signals .ok),
      .resume .cancel (signals .ok)] = some s ∧
      s.gen.isFinished = true ∧ s.gen.unreaped = true := ⟨_, rfl, rfl, rfl⟩

end Solo

end EbpfDemo.L4Client
