import EbpfDemo.L4Client.Blocks

/-!
# One outcome per run

The success bookkeeping of `event_generator` stands inside the `try` block whose
handler does the error bookkeeping. An accepted run is *open* until one of the
two was done, then it is *told* its outcome; a run that is cancelled or closed
while it is open is *gone* without one. The steps go from open to told or to
gone and from there nowhere else (`open_step`, `over_step`, `gone_step`).

A cancellation that arrives while `create_subprocess_exec` waits need not be what
reaches the generator: asyncio kills the child first, and a kill that is refused
raises a `PermissionError` in its place, which `except Exception` takes for an error
of the run.

* `outcome_iff`: a run has one outcome exactly when every cancellation reaches the
  generator (`Delivers`). The status event and its counter go together in any run
  (`Outcome.once`, `Outcome.told`); it is `Outcome.untold` that can fail.
* `outcome_refused`: the kill of a cancelled spawn is refused.
-/
namespace EbpfDemo.L4Client

open EbpfDemo.Core EbpfDemo.L1Encoding

variable {Tool Summary : Type}

/-- The value of `tool_last_success`. -/
def Status.gauge : Status → Nat
  | .success => 1
  | .error => 0

/-- The `status` an event carries; a line event has none. -/
def Event.status : Event Summary → Option Status
  | .line _ | .truncated => none
  | .success _ _ _ => some .success
  | .error _ | .rejected => some .error

def Act.event : Act Summary → Option (Event Summary)
  | .yielded e => some e
  | _ => none

/-- The events a run has sent. -/
def eventsOf (acts : List (Act Summary)) : List (Event Summary) := acts.filterMap Act.event

theorem eventsOf_append (as bs : List (Act Summary)) :
    eventsOf (as ++ bs) = eventsOf as ++ eventsOf bs := List.filterMap_append

/-- The task is cancelled, the generator closed, or the client gone. -/
def Turn.breaks : Turn → Bool
  | .resume .cancel _ | .resume .close _ | .resume (.disconnected true) _ => true
  | _ => false

variable [DecidableEq Tool] {host : Host Tool Summary}

namespace Solo

/-- No status event, nothing counted. -/
structure Untold (a : App Tool) (s : Solo Tool Summary) : Prop where
  lines : ∀ e ∈ eventsOf s.gen.acts, e.status = none
  runs : s.app.toolRuns = a.toolRuns

/-- The last event is the only one with a status, and that status is counted. -/
def Told (a : App Tool) (t : Tool) (st : Status) (s : Solo Tool Summary) : Prop :=
  (∃ lines e, eventsOf s.gen.acts = lines ++ [e] ∧ (∀ x ∈ lines, x.status = none) ∧
    e.status = some st) ∧ s.app.toolRuns = (a.countRun t st).toolRuns

/-- Inside the `try` block. -/
structure Open (a : App Tool) (t : Tool) (s : Solo Tool Summary) : Prop where
  pc : s.gen.pc.busy = true
  tool : s.gen.tool = t
  untold : s.Untold a

/-- Behind the status event. -/
structure Over (a : App Tool) (t : Tool) (st : Status) (s : Solo Tool Summary) : Prop where
  pc : s.gen.pc.told = true ∨ s.gen.pc.phase = .past
  told : s.Told a t st
  gauge : s.app.toolLastSuccess t = some st.gauge

/-- Cancelled or in the `finally` block, without a status event. -/
structure Gone (a : App Tool) (s : Solo Tool Summary) : Prop where
  pc : s.gen.pc.settled = true
  untold : s.Untold a

/-- Where an accepted run can be. -/
def Staged (a : App Tool) (t : Tool) (s : Solo Tool Summary) : Prop :=
  Open a t s ∨ (∃ st, Over a t st s) ∨ Gone a s

/-- A cancellation while the pipe of the child is being connected reaches the generator:
the kill of the child is not refused. -/
def Delivers (s : Solo Tool Summary) : Turn → Prop
  | .resume .cancel env =>
    s.gen.pc = .spawning → s.gen.unreaped = true → env.kill ≠ .notPermitted
  | _ => True

instance (s : Solo Tool Summary) (l : Turn) : Decidable (s.Delivers l) := by
  unfold Delivers
  split <;> infer_instance

/-- One outcome per run, for the run `ls` from a request to `s`. -/
structure Outcome (host : Host Tool Summary) (a : App Tool) (t : Tool) (d : ℚ) (ls : List Turn)
    (s : Solo Tool Summary) : Prop where
  /-- Line events and nothing counted, or one status event behind them, counted once. -/
  once : s.Untold a ∨ ∃ st, s.Told a t st
  /-- A run that ends without being cancelled or closed is told. -/
  told : s.gen.isFinished = true → (∀ l ∈ ls, l.breaks = false) → ∃ st, s.Told a t st
  /-- Cancelled or closed before its status event it stays without. -/
  untold : ∀ ls1 l ls2 s1, ls = ls1 ++ l :: ls2 →
    exec (step host) ⟨a, .new t d⟩ ls1 = some s1 →
    (∀ e ∈ eventsOf s1.gen.acts, e.status = none) → l.breaks = true → s.Untold a

/-- Nothing is sent, counted or published. -/
structure Silent (app : App Tool) (g : Gen Tool Summary) (x : App Tool × Gen Tool Summary) :
    Prop where
  events : eventsOf x.2.acts = eventsOf g.acts
  runs : x.1.toolRuns = app.toolRuns
  published : ∀ t, x.1.published t = app.published t

/-! ## One step -/

variable {a : App Tool} {t : Tool} {s s' : Solo Tool Summary} {l : Turn}

omit [DecidableEq Tool] in
theorem Untold.congr (h : s.Untold a) (he : eventsOf s'.gen.acts = eventsOf s.gen.acts)
    (hr : s'.app.toolRuns = s.app.toolRuns) : s'.Untold a :=
  ⟨he ▸ h.lines, hr.trans h.runs⟩

theorem Told.congr {st : Status} (h : s.Told a t st)
    (he : eventsOf s'.gen.acts = eventsOf s.gen.acts)
    (hr : s'.app.toolRuns = s.app.toolRuns) : s'.Told a t st :=
  ⟨he ▸ h.1, hr.trans h.2⟩

omit [DecidableEq Tool] in
/-- Line events. -/
theorem Untold.append {es : List (Event Summary)} (h : s.Untold a)
    (hes : ∀ e ∈ es, e.status = none) (hs : eventsOf s'.gen.acts = eventsOf s.gen.acts ++ es)
    (hr : s'.app.toolRuns = s.app.toolRuns) : s'.Untold a := by
  refine ⟨fun x hx => ?_, hr.trans h.runs⟩
  rw [hs, List.mem_append] at hx
  rcases hx with hx | hx
  · exact h.lines x hx
  · exact hes x hx

/-- A status event. -/
theorem Untold.tell {e : Event Summary} {st : Status} (h : s.Untold a) (he : e.status = some st)
    (hs : eventsOf s'.gen.acts = eventsOf s.gen.acts ++ [e])
    (hr : s'.app.toolRuns = (s.app.countRun t st).toolRuns) : s'.Told a t st := by
  refine ⟨⟨_, e, hs, h.lines, he⟩, ?_⟩
  rw [hr]
  unfold App.countRun
  rw [h.runs]

theorem cleanup_silent (a : App Tool) (g : Gen Tool Summary) (e : Option Exc) (env : Env) :
    (cleanup a g e env).2.pc.phase = .past ∧ Silent a g (cleanup a g e env) := by
  have hpub : ∀ t, (cleanup a g e env).1.published t = a.published t :=
    published_flag a g.tool false _
  unfold cleanup at hpub ⊢
  dsimp only at hpub ⊢
  split
  · refine ⟨?_, ?_, rfl, hpub⟩
    · dsimp only; split <;> rfl
    · exact (eventsOf_append _ _).trans (List.append_nil _)
  · exact ⟨rfl, rfl, rfl, hpub⟩

omit [DecidableEq Tool] in
theorem dropped_silent (g : Gen Tool Summary) (error : Option Str) (env : Env) :
    eventsOf (dropped g error env) = [] := by
  unfold dropped
  split <;> split <;> rfl

theorem resume_leaves {a : App Tool} {g : Gen Tool Summary} {r : Resume} {env : Env}
    {x : App Tool × Gen Tool Summary} (hf : runsFinally g.pc r = true)
    (h : resume host a g r env = some x) : ∃ e, x = cleanup a g e env := by
  cases hpc : g.pc <;> cases r <;> simp only [resume, hpc, reduceCtorEq] at h <;>
    simp only [hpc, runsFinally, Bool.false_eq_true] at hf
  case polling.disconnected b =>
    cases b
    · cases hf
    · exact ⟨_, (Option.some.inj h).symm⟩
  case closing.waited error =>
    cases error
    · dsimp only at h
      split at h
      · cases h
      · exact ⟨_, (Option.some.inj h).symm⟩
    · cases hf
  all_goals exact ⟨_, (Option.some.inj h).symm⟩

omit [DecidableEq Tool] in
theorem refused_silent {g : Gen Tool Summary} {r : Resume} {env : Env} {acts : List (Act Summary)}
    (h : Refused g r env acts) : eventsOf acts = [] := by
  cases h with
  | drop _ _ _ _ => exact dropped_silent g _ env
  | nothing _ => rfl
  | term _ _ _ => rfl
  | kill _ _ _ => rfl

omit [DecidableEq Tool] in
/-- The read loop goes on, with a line event or none. -/
theorem accept_events (g : Gen Tool Summary) (bytes : List UInt8) :
    (accept g bytes).pc.looping = true ∧ ∃ es,
      eventsOf (accept g bytes).acts = eventsOf g.acts ++ es ∧ ∀ e ∈ es, e.status = none := by
  unfold accept
  split
  · refine ⟨rfl, [.line (decode bytes)], eventsOf_append _ _, ?_⟩
    exact List.forall_mem_singleton.mpr rfl
  · split
    · exact ⟨rfl, [], (List.append_nil _).symm, List.forall_mem_nil _⟩
    · exact ⟨rfl, [.truncated], eventsOf_append _ _, List.forall_mem_singleton.mpr rfl⟩

omit [DecidableEq Tool] in
theorem open_accept (h : Open a t s) (bytes : List UInt8) :
    Open a t ⟨s.app, accept s.gen bytes⟩ := by
  obtain ⟨hpc, es, hev, hes⟩ := accept_events s.gen bytes
  have htool : (accept s.gen bytes).tool = s.gen.tool := (inside_accept (a := s.app) bytes).tool
  exact ⟨Pc.busy_of_looping hpc, htool.trans h.tool, h.untold.append hes hev rfl⟩

theorem over_succeed (h : Open a t s) (now : ℚ) (parsed : Metrics Binary64) (summary : Summary) :
    Over a t .success ⟨(succeed s.app s.gen now parsed summary).1,
      (succeed s.app s.gen now parsed summary).2⟩ := by
  obtain ⟨-, rfl, hu⟩ := h
  have he : Event.status (.success (round2 (now - s.gen.startTime)) parsed summary) =
      some Status.success := rfl
  exact ⟨.inl rfl, hu.tell he (eventsOf_append _ _) rfl, Function.update_self ..⟩

theorem over_fail (htool : s.gen.tool = t) (hu : s.Untold a) (acts : List (Act Summary))
    (hacts : eventsOf acts = []) (msg : Str) :
    Over a t .error ⟨(fail s.app { s.gen with acts := s.gen.acts ++ acts } msg).1,
      (fail s.app { s.gen with acts := s.gen.acts ++ acts } msg).2⟩ := by
  subst htool
  have hev : eventsOf (s.gen.acts ++ acts) = eventsOf s.gen.acts := by
    rw [eventsOf_append, hacts, List.append_nil]
  refine ⟨.inl rfl, hu.tell (e := .error msg) rfl ?_ rfl, Function.update_self ..⟩
  exact (eventsOf_append _ _).trans (by rw [hev]; rfl)

omit [DecidableEq Tool] in
/-- In the `try` block the `finally` block comes next only if the run is cancelled or closed. -/
theorem breaks_of_runsFinally {g : Gen Tool Summary} {r : Resume} {env : Env}
    (h : g.pc.busy = true) (hf : runsFinally g.pc r = true) :
    (Turn.resume r env).breaks = true := by
  generalize g.pc = p at h hf
  unfold runsFinally at hf
  split at hf <;> first | rfl | cases h | cases hf

/-- A block of the `try` block leaves it with a status event or not at all. -/
theorem open_block {r : Resume} {env : Env} {x : App Tool × Gen Tool Summary} (h : Open a t s)
    (hr : (Turn.resume r env).breaks = false) (hb : Block host s.app s.gen r env x) :
    Open a t ⟨x.1, x.2⟩ ∨ Over a t .error ⟨x.1, x.2⟩ ∨
      reports s.gen r env = true ∧ Over a t .success ⟨x.1, x.2⟩ := by
  have hph := Pc.phase_of_busy h.pc
  cases hb with
  | rejects hpc _ _ => rw [hpc] at hph; cases hph
  | declines hpc => rw [hpc] at hph; cases hph
  | noChild hpc _ _ _ => rw [hpc] at hph; cases hph
  | enters hpc _ _ _ => rw [hpc] at hph; cases hph
  | ends hpc => rw [hpc] at hph; cases hph
  | leaves hf => rw [breaks_of_runsFinally h.pc hf] at hr; cases hr
  | spawns _ _ => exact .inl ⟨rfl, h.tool, h.untold.congr rfl rfl⟩
  | drops _ hoff _ =>
    -- not a cancellation, so an error that comes when the child is gone
    have hpc : (Pc.closing r.error).busy = true := by
      cases r with
      | raised msg => rfl
      | cancel => cases hr
      | _ => cases hoff
    refine .inl ⟨hpc, h.tool, h.untold.congr ?_ rfl⟩
    rw [eventsOf_append, dropped_silent, List.append_nil]
  | loops _ hp => exact .inl ⟨Pc.busy_of_looping hp, h.tool, h.untold.congr rfl rfl⟩
  | hears _ _ _ => exact .inl (open_accept h _)
  | terms _ _ _ =>
    refine .inl ⟨rfl, h.tool, h.untold.congr ?_ rfl⟩
    exact (eventsOf_append _ _).trans (List.append_nil _)
  | kills _ _ _ =>
    refine .inl ⟨rfl, h.tool, h.untold.congr ?_ rfl⟩
    exact (eventsOf_append _ _).trans (List.append_nil _)
  | succeeds hrep _ _ => exact .inr (.inr ⟨hrep, over_succeed h _ _ _⟩)
  | fails _ hrf => exact .inr (.inl (over_fail h.tool h.untold _ (refused_silent hrf) _))

/-- Elsewhere than at the spawn it is the cancellations and closes that go to the
`finally` block. -/
theorem runsFinally_eq {a : App Tool} {g : Gen Tool Summary} {r : Resume} {env : Env}
    {x : App Tool × Gen Tool Summary} (h : g.pc.busy = true)
    (hs : ¬ (g.pc = .spawning ∧ r = .cancel)) (hx : resume host a g r env = some x) :
    runsFinally g.pc r = (Turn.resume r env).breaks := by
  cases hpc : g.pc <;> rw [hpc] at h hs <;> cases r <;>
    simp only [resume, hpc, reduceCtorEq] at hx
  case polling.disconnected b => cases b <;> rfl
  case closing.waited error => cases error <;> first | rfl | cases h
  case closing.cancel error => cases error <;> rfl
  case spawning.cancel => exact absurd ⟨rfl, rfl⟩ hs
  all_goals first | rfl | cases h

/-- A cancelled spawn: what reaches the generator is the cancellation or the error of the
refused kill. -/
theorem spawning_cancel {env : Env} {x : App Tool × Gen Tool Summary} (h : Open a t s)
    (hpc : s.gen.pc = .spawning) (hx : resume host s.app s.gen .cancel env = some x) :
    s.Delivers (.resume .cancel env) ∧ Gone a ⟨x.1, x.2⟩ ∨
      ¬ s.Delivers (.resume .cancel env) ∧ Over a t .error ⟨x.1, x.2⟩ := by
  simp only [resume, hpc, Option.some.injEq] at hx
  subst hx
  unfold giveUp
  dsimp only
  split
  · rename_i hk
    refine .inr ⟨fun hd => hd hpc hk.1 hk.2, ?_⟩
    exact over_fail h.tool h.untold _ (dropped_silent s.gen none env) _
  · rename_i hk
    refine .inl ⟨fun _ hu hr => hk ⟨hu, hr⟩, rfl, h.untold.congr ?_ rfl⟩
    rw [eventsOf_append, dropped_silent, List.append_nil]

/-- From an open run. -/
theorem open_step (h : Open a t s) (hs : step host s l = some s') :
    l.breaks = true ∧ (s.Delivers l ∧ Gone a s' ∨ ¬ s.Delivers l ∧ Over a t .error s') ∨
      l.breaks = false ∧ (Open a t s' ∨ ∃ st, Over a t st s') := by
  cases l with
  | reap code =>
    obtain ⟨-, -, -, rfl⟩ := step_reap hs
    exact .inr ⟨rfl, .inl ⟨h.pc, h.tool, h.untold.congr rfl rfl⟩⟩
  | resume r env =>
    obtain ⟨x, hx, rfl⟩ := Option.map_eq_some_iff.mp hs
    by_cases hc : s.gen.pc = .spawning ∧ r = .cancel
    · obtain ⟨hpc, rfl⟩ := hc
      exact .inl ⟨rfl, spawning_cancel h hpc hx⟩
    · have hf := runsFinally_eq h.pc hc hx
      cases hb : (Turn.resume r env).breaks with
      | true =>
        obtain ⟨e, rfl⟩ := resume_leaves (hf.trans hb) hx
        obtain ⟨h1, h2⟩ := cleanup_silent s.app s.gen e env
        have hd : s.Delivers (.resume r env) := by
          unfold Delivers
          split
          · rename_i hl
            cases hl
            exact fun hpc => absurd ⟨hpc, rfl⟩ hc
          · trivial
        exact .inl ⟨rfl, .inl ⟨hd, Pc.settled_of_past h1, h.untold.congr h2.events h2.runs⟩⟩
      | false =>
        refine .inr ⟨rfl, ?_⟩
        rcases open_block h hb (block_of_resume hx) with h1 | h1 | ⟨-, h1⟩
        · exact .inl h1
        · exact .inr ⟨_, h1⟩
        · exact .inr ⟨_, h1⟩

/-- Behind the status event or the cancellation nothing more is sent, counted or
published. -/
theorem settled_block {g : Gen Tool Summary} {app : App Tool} {r : Resume} {env : Env}
    {x : App Tool × Gen Tool Summary} (h : g.pc.settled = true) (hb : Block host app g r env x) :
    x.2.pc.phase = .past ∧ Silent app g x := by
  have hbusy := Pc.not_busy_of_settled h
  have hph := Pc.not_before_of_settled h
  cases hb with
  | rejects hpc _ _ => exact absurd (by rw [hpc]; rfl) hph
  | declines hpc => exact absurd hpc hph
  | noChild hpc _ _ _ => exact absurd (by rw [hpc]; rfl) hph
  | enters hpc _ _ _ => exact absurd (by rw [hpc]; rfl) hph
  | spawns hpc _ => rw [hpc] at hbusy; cases hbusy
  | drops hpc _ _ => rw [hpc] at hbusy; cases hbusy
  | loops hp _ => rw [Pc.busy_of_looping hp] at hbusy; cases hbusy
  | hears hpc _ _ => rw [hpc] at hbusy; cases hbusy
  | terms hp _ _ => rw [Pc.busy_of_looping hp] at hbusy; cases hbusy
  | kills hpc _ _ => rw [hpc] at hbusy; cases hbusy
  | succeeds hr _ _ => rw [reports_busy hr] at hbusy; cases hbusy
  | fails hp _ => rw [hp] at hbusy; cases hbusy
  | leaves _ => exact cleanup_silent app g _ env
  | ends _ => exact ⟨rfl, rfl, rfl, fun _ => rfl⟩

theorem Over.settled {st : Status} (h : Over a t st s) : s.gen.pc.settled = true :=
  h.pc.elim Pc.settled_of_told Pc.settled_of_past

theorem over_step {st : Status} (h : Over a t st s) (hs : step host s l = some s') :
    Over a t st s' := by
  cases l with
  | reap code =>
    obtain ⟨-, -, -, rfl⟩ := step_reap hs
    exact ⟨h.pc, h.told.congr rfl rfl, h.gauge⟩
  | resume r env =>
    obtain ⟨x, hx, rfl⟩ := Option.map_eq_some_iff.mp hs
    obtain ⟨h1, h2⟩ := settled_block h.settled (block_of_resume hx)
    have hg : x.1.toolLastSuccess t = s.app.toolLastSuccess t :=
      congrArg Published.toolLastSuccess (h2.published t)
    exact ⟨.inr h1, h.told.congr h2.events h2.runs, hg.trans h.gauge⟩

theorem gone_step (h : Gone a s) (hs : step host s l = some s') : Gone a s' := by
  cases l with
  | reap code =>
    obtain ⟨-, -, -, rfl⟩ := step_reap hs
    exact ⟨h.pc, h.untold.congr rfl rfl⟩
  | resume r env =>
    obtain ⟨x, hx, rfl⟩ := Option.map_eq_some_iff.mp hs
    obtain ⟨h1, h2⟩ := settled_block h.pc (block_of_resume hx)
    exact ⟨Pc.settled_of_past h1, h.untold.congr h2.events h2.runs⟩

theorem staged_step (h : Staged a t s) (hs : step host s l = some s') : Staged a t s' := by
  rcases h with h | ⟨st, h⟩ | h
  · rcases open_step h hs with ⟨-, ⟨-, h1⟩ | ⟨-, h1⟩⟩ | ⟨-, h1 | h1⟩
    · exact .inr (.inr h1)
    · exact .inr (.inl ⟨_, h1⟩)
    · exact .inl h1
    · exact .inr (.inl h1)
  · exact .inr (.inl ⟨st, over_step h hs⟩)
  · exact .inr (.inr (gone_step h hs))

/-! ## A whole run -/

theorem over_exec {st : Status} {ls : List Turn} (h : Over a t st s)
    (hx : exec (step host) s ls = some s') : Over a t st s' :=
  inv_exec (fun _ _ _ => over_step) h hx

theorem gone_exec {ls : List Turn} (h : Gone a s) (hx : exec (step host) s ls = some s') :
    Gone a s' :=
  inv_exec (fun _ _ _ => gone_step) h hx

/-- A run that is not cancelled or closed is open or told its outcome. -/
theorem open_exec {ls : List Turn} (h : Open a t s) (hl : ∀ l ∈ ls, l.breaks = false)
    (hx : exec (step host) s ls = some s') : Open a t s' ∨ ∃ st, Over a t st s' := by
  induction ls generalizing s with
  | nil => cases hx; exact .inl h
  | cons l ls ih =>
    obtain ⟨s1, hs, hx⟩ := exec_cons_some hx
    rcases open_step h hs with ⟨hb, -⟩ | ⟨-, h1 | ⟨st, h1⟩⟩
    · rw [hl l List.mem_cons_self] at hb; cases hb
    · exact ih h1 (fun k hk => hl k (List.mem_cons_of_mem l hk)) hx
    · exact .inr ⟨st, over_exec h1 hx⟩

theorem staged_exec {ls : List Turn} (h : Staged a t s)
    (hx : exec (step host) s ls = some s') : Staged a t s' :=
  inv_exec (fun _ _ _ => staged_step) h hx

/-- The first stretch of an accepted run; without a child it is told an error. -/
theorem open_enter {d : ℚ} {env : Env} (hfree : a.running t = false)
    (h : step host ⟨a, .new t d⟩ (.resume .next env) = some s) :
    Open a t s ∨ Over a t .error s := by
  have hs : s = ⟨(enter a (.new t d) env).1, (enter a (.new t d) env).2⟩ :=
    (Option.some.inj h).symm
  rw [enter, if_neg (by simp [Gen.new, hfree])] at hs
  subst hs
  dsimp only
  split
  · rename_i msg _
    have hu : Untold a ⟨occupy a t, { (Gen.new t d : Gen Tool Summary) with startTime := env.now }⟩ :=
      ⟨List.forall_mem_nil _, rfl⟩
    exact .inr (over_fail rfl hu [] rfl msg)
  · exact .inl ⟨rfl, rfl, List.forall_mem_nil _, rfl⟩

theorem staged_enter {d : ℚ} {env : Env} (hfree : a.running t = false)
    (h : step host ⟨a, .new t d⟩ (.resume .next env) = some s) : Staged a t s :=
  (open_enter hfree h).imp_right fun h => .inl ⟨_, h⟩

omit [DecidableEq Tool] in
theorem Open.not_finished (h : Open a t s) : s.gen.isFinished = false :=
  isFinished_of_phase (by rw [Pc.phase_of_busy h.pc]; simp)

theorem Over.has_status {st : Status} (h : Over a t st s) :
    ∃ e ∈ eventsOf s.gen.acts, e.status = some st := by
  obtain ⟨⟨lines, e, he, -, hst⟩, -⟩ := h.told
  exact ⟨e, by simp [he], hst⟩

theorem Over.status_eq {st : Status} (h : Over a t st s) {e : Event Summary}
    (he : e ∈ eventsOf s.gen.acts) : e.status = none ∨ e.status = some st := by
  obtain ⟨⟨lines, x, hx, hnone, hst⟩, -⟩ := h.told
  rw [hx, List.mem_append, List.mem_singleton] at he
  rcases he with he | rfl
  · exact .inl (hnone e he)
  · exact .inr hst

theorem Over.unique {st st' : Status} (h : Over a t st s) (h' : Over a t st' s) : st = st' := by
  obtain ⟨e, he, hst⟩ := h.has_status
  rcases h'.status_eq he with h1 | h1 <;> rw [h1] at hst <;> cases hst
  rfl

theorem Over.not_untold {st : Status} (h : Over a t st s) : ¬ s.Untold a := by
  intro hu
  obtain ⟨e, he, hst⟩ := h.has_status
  rw [hu.lines e he] at hst; cases hst

/-- A run that is cancelled or closed before its status event stays without, if the
cancellation reaches it. -/
theorem untold_of_breaks {ls : List Turn} (h : Staged a t s)
    (hnone : ∀ e ∈ eventsOf s.gen.acts, e.status = none) (hb : l.breaks = true)
    (hd : s.Delivers l) (hx : exec (step host) s (l :: ls) = some s') : s'.Untold a := by
  rcases h with h | ⟨st, h⟩ | h
  · obtain ⟨s1, hs, hx1⟩ := exec_cons_some hx
    rcases open_step h hs with ⟨-, ⟨-, hg⟩ | ⟨hd', -⟩⟩ | ⟨hb', -⟩
    · exact (gone_exec hg hx1).untold
    · exact absurd hd hd'
    · rw [hb] at hb'; cases hb'
  · obtain ⟨e, he, hst⟩ := h.has_status
    rw [hnone e he] at hst; cases hst
  · exact (gone_exec h hx).untold

omit [DecidableEq Tool] in
theorem not_delivers (h : ¬ s.Delivers l) : s.gen.pc = .spawning ∧ l.breaks = true := by
  unfold Delivers at h
  split at h
  · refine ⟨?_, rfl⟩
    by_contra hne
    exact h fun hpc => absurd hpc hne
  · exact absurd trivial h

theorem Staged.open_of_spawning (h : Staged a t s) (hpc : s.gen.pc = .spawning) : Open a t s := by
  rcases h with h | ⟨st, h⟩ | h
  · exact h
  · have hsettled := h.settled
    rw [hpc] at hsettled; cases hsettled
  · have hsettled := h.pc
    rw [hpc] at hsettled; cases hsettled

/-- If cancelled runs stay without a status event, the cancellations reach them. -/
theorem delivers_of_untold {ls : List Turn} (h : Staged a t s)
    (hx : exec (step host) s ls = some s')
    (hu : ∀ ls1 l ls2 s1, ls = ls1 ++ l :: ls2 → exec (step host) s ls1 = some s1 →
      (∀ e ∈ eventsOf s1.gen.acts, e.status = none) → l.breaks = true → s'.Untold a) :
    Along (step host) Delivers s ls := by
  induction ls generalizing s with
  | nil => trivial
  | cons l ls ih =>
    obtain ⟨s1, hs, hx1⟩ := exec_cons_some hx
    refine (along_cons hs).mpr ⟨?_, ih (staged_step h hs) hx1 fun ls1 k ls2 s2 hls hx2 => ?_⟩
    · by_contra hd
      obtain ⟨hpc, hb⟩ := not_delivers hd
      have ho := h.open_of_spawning hpc
      rcases open_step ho hs with ⟨-, ⟨hd', -⟩ | ⟨-, h1⟩⟩ | ⟨hb', -⟩
      · exact hd hd'
      · exact (over_exec h1 hx1).not_untold (hu [] l ls s rfl rfl ho.untold.lines hb)
      · rw [hb] at hb'; cases hb'
    · exact hu (l :: ls1) k ls2 s2 (by rw [hls]; rfl) (by rw [exec_cons, hs]; exact hx2)

/-- **One outcome.** An accepted run has one outcome exactly when every cancellation that
arrives while the pipe of its child is being connected reaches the generator. -/
theorem outcome_iff (host : Host Tool Summary) {d : ℚ} (env : Env) (ls : List Turn)
    (hfree : a.running t = false)
    (hx : exec (step host) ⟨a, .new t d⟩ (.resume .next env :: ls) = some s) :
    Outcome host a t d (.resume .next env :: ls) s ↔
      Along (step host) Delivers ⟨a, .new t d⟩ (.resume .next env :: ls) := by
  obtain ⟨s0, h0, hx0⟩ := exec_cons_some hx
  have hstaged := staged_enter hfree h0
  rw [along_cons h0, and_iff_right (show Delivers ⟨a, .new t d⟩ (.resume .next env) from trivial)]
  constructor
  · intro ho
    refine delivers_of_untold hstaged hx0 fun ls1 l ls2 s1 hls hx1 => ?_
    exact ho.untold (.resume .next env :: ls1) l ls2 s1 (by rw [hls]; rfl)
      (by rw [exec_cons, h0]; exact hx1)
  · intro hd
    refine ⟨?_, fun hf hl => ?_, fun ls1 l ls2 s1 hls hx1 hnone hb => ?_⟩
    · rcases staged_exec hstaged hx0 with h | ⟨st, h⟩ | h
      · exact .inl h.untold
      · exact .inr ⟨st, h.told⟩
      · exact .inl h.untold
    · rcases open_enter hfree h0 with h | h
      · rcases open_exec h (fun l h => hl l (List.mem_cons_of_mem _ h)) hx0 with h | ⟨st, h⟩
        · rw [h.not_finished] at hf; cases hf
        · exact ⟨st, h.told⟩
      · exact ⟨_, (over_exec h hx0).told⟩
    · cases ls1 with
      | nil => cases hls; cases hb
      | cons k ls1 =>
        obtain ⟨rfl, rfl⟩ : .resume .next env = k ∧ ls = ls1 ++ l :: ls2 := by
          exact List.cons.inj hls
        obtain ⟨s0', h0', hx1⟩ := exec_cons_some hx1
        rw [h0] at h0'
        cases h0'
        rw [exec_append, hx1, Option.bind_some] at hx0
        have hd1 := (along_append hx1).mp hd
        obtain ⟨s2, hs2, -⟩ := exec_cons_some hx0
        exact untold_of_breaks (staged_exec hstaged hx1) hnone hb ((along_cons hs2).mp hd1.2).1 hx0

/-- The client leaves before the pipe of the child is connected; asyncio kills the child. -/
def leavingEarly (k : KillResult) : List Turn := [.resume .cancel (signals k)]

/-- The kill works: the run ends without a status event. -/
theorem outcome_cancelled : ∃ s : Solo String Unit,
    exec (step Host.quiet) ⟨.start, .new "mem_oom" 10⟩
      (.resume .next (signals .ok) ::
        (leavingEarly .ok ++ [.reap (-9), .resume .waited (signals .ok)])) = some s ∧
      s.gen.isFinished = true ∧ s.Untold .start := by
  refine ⟨_, rfl, rfl, ?_⟩
  have hfree : (App.start : App String).running "mem_oom" = false := rfl
  have ho := (outcome_iff .quiet (d := 10) (signals .ok)
    (leavingEarly .ok ++ [.reap (-9), .resume .waited (signals .ok)]) hfree rfl).mpr (by decide)
  exact ho.untold [_] _ _ _ rfl rfl (by decide) rfl

/-- **Counterexample.** The kill is refused: the cancelled run sends an error event and
counts it. -/
theorem outcome_refused : ∃ s : Solo String Unit,
    exec (step Host.quiet) ⟨.start, .new "mem_oom" 10⟩
      (.resume .next (signals .ok) :: leavingEarly .notPermitted) = some s ∧
      s.app.toolRuns "mem_oom" .error = 1 ∧
      ¬ Outcome Host.quiet .start "mem_oom" 10
        (.resume .next (signals .ok) :: leavingEarly .notPermitted) s := by
  refine ⟨_, rfl, rfl, fun ho => ?_⟩
  have hu := ho.untold [_] _ _ _ rfl rfl (by decide) rfl
  exact absurd (congrFun (congrFun hu.runs "mem_oom") .error) (by decide)

end Solo

end EbpfDemo.L4Client
