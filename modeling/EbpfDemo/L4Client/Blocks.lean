import EbpfDemo.L4Client.RunCleanup

/-!
# Which block of the source a step runs

`Moves` says what a step does to the flag, the gauge and the child. `Block` says
the rest: what it sends, which signals it makes and what it publishes. Every
step of `resume` runs one of the blocks of `event_generator` (`block_of_resume`),
and each block is given as the state it leaves.

A run that was admitted is *busy* until its status event is sent; `noChild`, `succeeds`
and `fails` send it, `leaves` runs the `finally` block. From a status event on, or from a
cancellation on, it is *settled*.
-/
namespace EbpfDemo.L4Client

open EbpfDemo.Core EbpfDemo.L1Encoding

variable {Tool Summary : Type}

/-- Inside the `try` block, with no status event and no cancellation so far. -/
def Pc.busy : Pc → Bool
  | .spawning | .closing (some _) | .polling | .reading | .lineYield | .stopping | .killing => true
  | _ => false

/-- At an `await` or `yield` of the loop. -/
def Pc.looping : Pc → Bool
  | .polling | .reading | .lineYield => true
  | _ => false

/-- Behind the status event. -/
def Pc.told : Pc → Bool
  | .successYield | .errorYield => true
  | _ => false

/-- Behind the status event, or behind a cancellation. -/
def Pc.settled : Pc → Bool
  | .closing none | .successYield | .errorYield | .reaping _ | .finished _ => true
  | _ => false

theorem Pc.busy_of_looping {p : Pc} (h : p.looping = true) : p.busy = true := by
  cases p <;> first | rfl | cases h

theorem Pc.phase_of_busy {p : Pc} (h : p.busy = true) : p.phase = .running := by
  cases p <;> first | rfl | cases h

theorem Pc.settled_of_told {p : Pc} (h : p.told = true) : p.settled = true := by
  cases p <;> first | rfl | cases h

theorem Pc.settled_of_past {p : Pc} (h : p.phase = .past) : p.settled = true := by
  cases p <;> first | rfl | cases h

theorem Pc.not_busy_of_settled {p : Pc} (h : p.settled = true) : p.busy = false := by
  cases p
  case closing error => cases error <;> first | rfl | cases h
  all_goals first | rfl | cases h

theorem Pc.not_before_of_settled {p : Pc} (h : p.settled = true) : p.phase ≠ .before := by
  intro hp
  cases p <;> cases hp <;> cases h

/-- One of the two tests of the deadline succeeds.
mirrors src/client/main.py:244, 262 -/
def limitReached (g : Gen Tool Summary) (r : Resume) (env : Env) : Bool := match g.pc, r with
  | .polling, .disconnected false => env.now - g.startTime ≥ g.duration
  | .reading, .readTimeout => env.now - g.startTime > g.duration
  | _, _ => false

/-- The loop ends: the deadline, or the end of the output. -/
def leavesLoop (g : Gen Tool Summary) (r : Resume) (env : Env) : Bool :=
  limitReached g r env || (g.pc = .reading && r = .readLine [])

/-- No child is left and the step comes to the end of the `try` block. -/
def reports (g : Gen Tool Summary) (r : Resume) (env : Env) : Bool :=
  leavesLoop g r env && !g.held ||
    (g.pc = .stopping || g.pc = .killing) && r = .waited && !g.unreaped

theorem looping_of_leavesLoop {g : Gen Tool Summary} {r : Resume} {env : Env}
    (h : leavesLoop g r env = true) : g.pc.looping = true := by
  unfold leavesLoop limitReached at h
  cases hpc : g.pc <;> first | rfl | simp [hpc] at h

theorem reports_busy {g : Gen Tool Summary} {r : Resume} {env : Env}
    (h : reports g r env = true) : g.pc.busy = true := by
  unfold reports at h
  simp only [Bool.and_eq_true, Bool.or_eq_true, decide_eq_true_eq] at h
  obtain ⟨hl, -⟩ | ⟨⟨hp | hp, -⟩, -⟩ := h
  · exact Pc.busy_of_looping (looping_of_leavesLoop hl)
  · rw [hp]; rfl
  · rw [hp]; rfl

theorem reports_spawned {g : Gen Tool Summary} {r : Resume} {env : Env}
    (h : reports g r env = true) : g.pc ≠ .spawning := by
  intro hpc
  simp [reports, leavesLoop, limitReached, hpc] at h

theorem reports_held {g : Gen Tool Summary} {r : Resume} {env : Env}
    (h : reports g r env = true) : g.held = false := by
  unfold reports at h
  simp only [Bool.and_eq_true, Bool.or_eq_true, Bool.not_eq_true'] at h
  obtain ⟨-, hh⟩ | ⟨-, hu⟩ := h
  · exact hh
  · exact held_eq_false hu

theorem reports_settled {g : Gen Tool Summary} {r : Resume} {env : Env}
    (h : g.pc.settled = true) : reports g r env = false := by
  by_contra hr
  have hb := reports_busy (by simpa using hr)
  rw [Pc.not_busy_of_settled h] at hb; cases hb

variable [DecidableEq Tool]

/-- The success bookkeeping, once the output is parsed and summed up.
mirrors src/client/main.py:290-310 -/
def succeed (a : App Tool) (g : Gen Tool Summary) (now : ℚ) (parsed : Metrics Binary64)
    (summary : Summary) : App Tool × Gen Tool Summary :=
  let duration := now - g.startTime
  ({ (a.countRun g.tool .success).modifyStats g.tool
        (fun st => { st with durationSeconds := some duration, status := some .success }) with
      toolLastDuration := Function.update a.toolLastDuration g.tool (some duration)
      toolLastSuccess := Function.update a.toolLastSuccess g.tool (some 1)
      toolLastOutputBytes :=
        Function.update a.toolLastOutputBytes g.tool (some (encode g.logContent.flatten).length) },
    g.yield (.success (round2 duration) parsed summary) .successYield)

/-- The error that the `await` raises. -/
def Resume.error : Resume → Option Str
  | .raised msg => some msg
  | _ => none

/-- The signals of a block whose kill is refused. -/
inductive Refused (g : Gen Tool Summary) (r : Resume) (env : Env) : List (Act Summary) → Prop
  | nothing : g.pc ≠ .spawning → Refused g r env []
  | drop : g.pc = .spawning → r.breaksOff = true → g.unreaped = true →
      env.kill = .notPermitted → Refused g r env (dropped g r.error env)
  | term : g.pc.looping = true → g.held = true → env.kill = .notPermitted →
      Refused g r env [.signalled .term env.kill]
  | kill : g.pc = .stopping → r = .waitTimeout → env.kill = .notPermitted →
      Refused g r env [.waitExpired, .signalled .kill env.kill]

/-- The block a step runs, and the state it leaves. -/
inductive Block (host : Host Tool Summary) (a : App Tool) (g : Gen Tool Summary) (r : Resume)
    (env : Env) : App Tool × Gen Tool Summary → Prop
  | rejects : g.pc = .created → r = .next → a.running g.tool = true →
      Block host a g r env (a, g.yield .rejected .rejecting)
  | declines {e : Option Exc} : g.pc.phase = .before →
      Block host a g r env (a, { g with pc := .finished e })
  | noChild {msg : Str} : g.pc = .created → r = .next → a.running g.tool = false →
      env.spawn = some msg →
      Block host a g r env (fail (occupy a g.tool) { g with startTime := env.now } msg)
  | enters : g.pc = .created → r = .next → a.running g.tool = false → env.spawn = none →
      Block host a g r env (occupy a g.tool,
        { g with pc := .spawning, startTime := env.now, child := some ⟨none⟩ })
  | spawns : g.pc = .spawning → r = .spawned →
      Block host a g r env (a, { g with pc := .polling, bound := true })
  | drops : g.pc = .spawning → r.breaksOff = true →
      ¬ (g.unreaped = true ∧ env.kill = .notPermitted) →
      Block host a g r env
        (a, { g with pc := .closing r.error, acts := g.acts ++ dropped g r.error env })
  | loops {p : Pc} : g.pc.looping = true → p.looping = true →
      Block host a g r env (a, { g with pc := p })
  | hears {bytes : List UInt8} : g.pc = .reading → r = .readLine bytes → bytes ≠ [] →
      Block host a g r env (a, accept g bytes)
  | terms : g.pc.looping = true → g.held = true → env.kill ≠ .notPermitted →
      Block host a g r env (a, { g.signal .term env.kill with pc := .stopping })
  | kills : g.pc = .stopping → r = .waitTimeout → env.kill ≠ .notPermitted →
      Block host a g r env (a, { g with
        pc := .killing
        acts := g.acts ++ [.waitExpired, .signalled .kill env.kill] })
  | succeeds {parsed : Metrics Binary64} {summary : Summary} : reports g r env = true →
      host.parse g.logContent.flatten = .ok parsed →
      host.summarize g.tool parsed (env.later - g.startTime) = .ok summary →
      Block host a g r env (succeed a g env.later parsed summary)
  | fails {acts : List (Act Summary)} {msg : Str} : g.pc.busy = true → Refused g r env acts →
      Block host a g r env (fail a { g with acts := g.acts ++ acts } msg)
  | leaves {pending : Option Exc} : runsFinally g.pc r = true →
      Block host a g r env (cleanup a g pending env)
  | ends {e e' : Option Exc} : g.pc = .reaping e →
      Block host a g r env (a, { g with pc := .finished e' })

variable {host : Host Tool Summary} {a : App Tool} {g : Gen Tool Summary} {r : Resume} {env : Env}

theorem block_fail (h : g.pc.busy = true) (hs : g.pc ≠ .spawning) (msg : Str) :
    Block host a g r env (fail a g msg) := by
  have hb : Block host a g r env (fail a { g with acts := g.acts ++ [] } msg) :=
    .fails h (.nothing hs)
  rw [List.append_nil] at hb; exact hb

theorem block_report (h : reports g r env = true) :
    Block host a g r env (report host a g env.later) := by
  have hb := reports_busy h
  have hs := reports_spawned h
  unfold report
  dsimp only
  cases hp : host.parse g.logContent.flatten with
  | error e => exact block_fail hb hs e
  | ok parsed =>
    dsimp only
    cases hq : host.summarize g.tool parsed (env.later - g.startTime) with
    | error e => exact block_fail hb hs e
    | ok summary => exact .succeeds h hp hq

theorem block_stop (h : leavesLoop g r env = true) : Block host a g r env (stop host a g env) := by
  have hl := looping_of_leavesLoop h
  unfold stop
  split
  · rename_i hu
    split
    · rename_i hk
      exact .fails (Pc.busy_of_looping hl) (.term hl hu hk)
    · rename_i hk
      exact .terms hl hu hk
  · rename_i hu
    exact block_report (by simp [reports, hu, h])

theorem block_forceKill (h : g.pc = .stopping) (hr : r = .waitTimeout) :
    Block host a g r env (forceKill a g env) := by
  have hb : g.pc.busy = true := by rw [h]; rfl
  have hacts : g.acts ++ [Act.waitExpired] ++ [Act.signalled .kill env.kill] =
      g.acts ++ [.waitExpired, .signalled .kill env.kill] := List.append_assoc _ _ _
  unfold forceKill
  dsimp only
  split
  · rename_i hk
    unfold Gen.signal
    dsimp only
    rw [hacts]; exact .fails hb (.kill h hr hk)
  · rename_i hk
    unfold Gen.signal
    dsimp only
    rw [hacts]; exact .kills h hr hk

theorem block_giveUp (h : g.pc = .spawning) (hr : r.breaksOff = true) :
    Block host a g r env (giveUp a g r.error env) := by
  unfold giveUp
  dsimp only
  split
  · rename_i hk
    exact .fails (by rw [h]; rfl) (.drop h hr hk.1 hk.2)
  · rename_i hk
    exact .drops h hr hk

/-- **One step** runs one block. -/
theorem block_of_resume {x : App Tool × Gen Tool Summary} (h : resume host a g r env = some x) :
    Block host a g r env x := by
  cases hpc : g.pc <;> cases r <;> simp only [resume, hpc, reduceCtorEq] at h
  case created.next =>
    unfold enter at h
    split at h
    · rename_i hrun
      cases h; exact .rejects hpc rfl hrun
    · rename_i hrun
      have hfree : a.running g.tool = false := by simpa using hrun
      dsimp only at h
      split at h
      · rename_i hmsg
        cases h; exact .noChild hpc rfl hfree hmsg
      · rename_i hnone
        cases h; exact .enters hpc rfl hfree hnone
  case created.close | rejecting.next | rejecting.close =>
    cases h; exact .declines (by rw [hpc]; rfl)
  case spawning.spawned => cases h; exact .spawns hpc rfl
  case spawning.cancel | spawning.raised => cases h; exact block_giveUp hpc rfl
  case closing.waited error =>
    cases error <;> dsimp only at h
    · split at h
      · cases h
      · cases h; exact .leaves (by rw [hpc]; rfl)
    · split at h
      · cases h
      · cases h; exact block_fail (by rw [hpc]; rfl) (by simp [hpc]) _
  case closing.cancel error =>
    cases h; exact .leaves (by rw [hpc]; cases error <;> rfl)
  -- an exception at an await of the try block
  case polling.raised | reading.raised | stopping.raised | killing.raised =>
    cases h; exact block_fail (by rw [hpc]; rfl) (by simp [hpc]) _
  case polling.cancel | reading.cancel | stopping.cancel | killing.cancel | lineYield.close |
      successYield.close | errorYield.close | successYield.next | errorYield.next =>
    cases h; exact .leaves (by rw [hpc]; rfl)
  case polling.disconnected b =>
    cases b <;> dsimp only at h
    · split at h
      · rename_i hd
        cases h; exact block_stop (by simp [leavesLoop, limitReached, hpc, hd])
      · cases h; exact .loops (by rw [hpc]; rfl) rfl
    · cases h; exact .leaves (by rw [hpc]; rfl)
  case reading.readLine bytes =>
    split at h
    · rename_i he
      cases h; exact block_stop (by simp [leavesLoop, hpc, he])
    · rename_i hne
      cases h; exact .hears hpc rfl hne
  case reading.readTimeout =>
    split at h
    · rename_i hd
      cases h; exact block_stop (by simp [leavesLoop, limitReached, hpc, hd])
    · cases h; exact .loops (by rw [hpc]; rfl) rfl
  case lineYield.next => cases h; exact .loops (by rw [hpc]; rfl) rfl
  case stopping.waited | killing.waited =>
    split at h
    · cases h
    · rename_i hu
      cases h; exact block_report (by simp [reports, hpc, hu])
  case stopping.waitTimeout => cases h; exact block_forceKill hpc rfl
  case reaping.waited e =>
    split at h
    · cases h
    · cases h; exact .ends hpc
  case reaping.cancel e => cases h; exact .ends hpc
  case reaping.raised e msg => cases h; exact .ends hpc

/-! ## The end of the `try` block -/

/-- Parsing the output or summing it up raises. -/
def Raises (host : Host Tool Summary) (g : Gen Tool Summary) (env : Env) : Prop :=
  ∀ parsed, host.parse g.logContent.flatten = .ok parsed →
    ∃ e, host.summarize g.tool parsed (env.later - g.startTime) = .error e

instance : Decidable (Raises host g env) := match hp : host.parse g.logContent.flatten with
  | .error e => .isTrue fun p h => by rw [hp] at h; cases h
  | .ok parsed => match hs : host.summarize g.tool parsed (env.later - g.startTime) with
    | .error e => .isTrue fun p h => by rw [hp] at h; cases h; exact ⟨e, hs⟩
    | .ok summary => .isFalse fun h => by
      obtain ⟨e, he⟩ := h parsed hp
      rw [hs] at he; cases he

theorem report_cases (host : Host Tool Summary) (a : App Tool) (g : Gen Tool Summary) (env : Env) :
    Raises host g env ∧ (∃ msg, report host a g env.later = fail a g msg) ∨
      ¬ Raises host g env ∧
        ∃ parsed summary, report host a g env.later = succeed a g env.later parsed summary := by
  unfold report Raises
  dsimp only
  cases hp : host.parse g.logContent.flatten with
  | error e => exact .inl ⟨nofun, e, rfl⟩
  | ok parsed =>
    dsimp only
    cases hs : host.summarize g.tool parsed (env.later - g.startTime) with
    | error e => exact .inl ⟨fun p hp => by cases hp; exact ⟨e, hs⟩, e, rfl⟩
    | ok summary =>
      refine .inr ⟨fun h => ?_, parsed, summary, rfl⟩
      obtain ⟨e, he⟩ := h parsed rfl
      rw [hs] at he; cases he

theorem resume_report {x : App Tool × Gen Tool Summary} (hr : reports g r env = true)
    (h : resume host a g r env = some x) : x = report host a g env.later := by
  have hh := reports_held hr
  cases hpc : g.pc <;> cases r <;> simp only [resume, hpc, reduceCtorEq] at h <;>
    simp [reports, leavesLoop, limitReached, hpc, hh] at hr
  case polling.disconnected b =>
    cases b <;> dsimp only at h
    · rw [if_pos (by simpa using hr), stop, hh] at h
      exact (Option.some.inj h).symm
    · cases hr
  case reading.readLine bytes =>
    rw [if_pos hr, stop, hh] at h
    exact (Option.some.inj h).symm
  case reading.readTimeout =>
    rw [if_pos hr, stop, hh] at h
    exact (Option.some.inj h).symm
  case stopping.waited | killing.waited =>
    rw [hr] at h
    exact (Option.some.inj h).symm

/-! ## What is published -/

/-- The entry of a tool in `TOOL_STATS`, without the flag, and its gauges. -/
structure Published where
  status : Option Status
  error : Option Str
  durationSeconds : Option ℚ
  toolLastDuration : Option ℚ
  toolLastSuccess : Option Nat
  toolLastOutputBytes : Option Nat
  deriving DecidableEq

omit [DecidableEq Tool] in
def App.published (a : App Tool) (t : Tool) : Published :=
  let st := (a.toolStats t).getD ⟨false, none, none, none⟩
  ⟨st.status, st.error, st.durationSeconds, a.toolLastDuration t, a.toolLastSuccess t,
    a.toolLastOutputBytes t⟩

/-- The flag and the gauge are no part of it. -/
theorem published_flag (a : App Tool) (t : Tool) (b : Bool) (n : Int) (t' : Tool) :
    App.published { a.modifyStats t (fun st => { st with running := b }) with toolRunning := n } t' =
      a.published t' := by
  by_cases h : t' = t
  · subst h; simp [App.published, App.modifyStats]
  · simp [App.published, App.modifyStats, h]

theorem published_occupy (a : App Tool) (t t' : Tool) : (occupy a t).published t' = a.published t' :=
  published_flag a t true _ t'

theorem published_succeed (now : ℚ) (parsed : Metrics Binary64) (summary : Summary) (t : Tool) :
    (succeed a g now parsed summary).1.published t = if t = g.tool then
      ⟨some .success, (a.published t).error, some (now - g.startTime), some (now - g.startTime),
        some 1, some (encode g.logContent.flatten).length⟩ else a.published t := by
  split
  · rename_i h
    subst h; simp [App.published, succeed, App.modifyStats, App.countRun]
  · rename_i h
    simp [App.published, succeed, App.modifyStats, App.countRun, h]

theorem published_fail (msg : Str) (t : Tool) :
    (fail a g msg).1.published t = if t = g.tool then
      { a.published t with status := some .error, error := some msg, toolLastSuccess := some 0 }
      else a.published t := by
  split
  · rename_i h
    subst h; simp [App.published, fail, App.modifyStats, App.countRun]
  · rename_i h
    simp [App.published, fail, App.modifyStats, App.countRun, h]

end EbpfDemo.L4Client
