import EbpfDemo.Core.Past
import EbpfDemo.L4Client.Outcome

/-!
# Is SIGKILL the last resort?

Behind the read loop a child that still runs gets SIGTERM, and SIGKILL when the
2 seconds of the wait are over. Another place that sends SIGKILL is the
`finally` block, and it asks only whether there is a `returncode`: a client that
disconnects, a cancellation or a close at an `await` or `yield` of the loop, and
a cancellation inside the wait all go there directly. The third is asyncio: it kills the
child of a spawn that is cancelled before the pipe is connected.

A run that failed before any SIGTERM, with an error event or because the pipe of its
child could not be connected, is not stopped by the client; asyncio or the `finally`
block cleans up behind it.

* `gracefulStop_iff`: throughout a run every SIGKILL comes behind SIGTERM and the
  end of the wait exactly when, with a child that is not reaped, the spawn is never
  cancelled and the `finally` block never entered from the loop or the wait, or behind a
  wait that an exception cut short.
* `gracefulStop_disconnect`: the client disconnects.
-/
namespace EbpfDemo.L4Client

open EbpfDemo.Core EbpfDemo.L1Encoding

variable {Tool Summary : Type}

namespace Act

def isTerm : Act Summary → Bool
  | .signalled .term _ => true
  | _ => false

def isKill : Act Summary → Bool
  | .signalled .kill _ => true
  | _ => false

def isExpired : Act Summary → Bool
  | .waitExpired => true
  | _ => false

/-- The run has failed by itself. -/
def isError : Act Summary → Bool
  | .yielded (.error _) | .gaveUp => true
  | _ => false

/-- Not one of these. -/
def quiet (x : Act Summary) : Bool := !x.isTerm && !x.isKill && !x.isExpired && !x.isError

end Act

/-- SIGTERM, and behind it the end of the 2 seconds. -/
def RanOut (acts : List (Act Summary)) : Prop :=
  Then (fun x => x.isTerm = true) (fun x => x.isExpired = true) acts

/-- A failure, and no SIGTERM so far. -/
def FailedFirst (acts : List (Act Summary)) : Prop :=
  (∃ x ∈ acts, x.isError = true) ∧ ∀ x ∈ acts, x.isTerm = false

/-- SIGKILL comes when the wait behind SIGTERM is over, or behind a run that
failed. -/
def Graceful (acts : List (Act Summary)) : Prop :=
  Guarded (fun x => x.isKill = true) (fun pre => RanOut pre ∨ FailedFirst pre) acts

/-- SIGTERM was sent, the 2 seconds were not over. -/
def Gen.cutShort (g : Gen Tool Summary) : Bool :=
  g.acts.any Act.isTerm && !g.acts.any Act.isExpired

/-- The `finally` block finds a child to kill only behind the wait, or behind an
error event that did not cut the wait short; a cancelled spawn finds none. -/
def Solo.Gentle (s : Solo Tool Summary) : Turn → Prop
  | .reap _ => True
  | .resume r _ =>
    (runsFinally s.gen.pc r = true → s.gen.held = true →
      s.gen.pc = .killing ∨ s.gen.pc = .errorYield ∧ s.gen.cutShort = false) ∧
    (s.gen.pc = .spawning → r = .cancel → s.gen.unreaped = false)

instance (s : Solo Tool Summary) : ∀ l, Decidable (s.Gentle l)
  | .reap _ => .isTrue trivial
  | .resume _ _ => inferInstanceAs (Decidable (_ ∧ _))

/-! ## Where a run stands -/

/-- What a generator has done by the `await` or `yield` it stands at. -/
inductive Course (g : Gen Tool Summary) : Prop
  | quiet : g.pc.phase = .before ∨ g.pc = .spawning ∨ g.pc.looping = true →
      (g.pc.looping = false → g.bound = false) → (∀ x ∈ g.acts, x.quiet = true) → Course g
  | closing {error : Option Str} : g.pc = .closing error → g.bound = false →
      (∀ x ∈ g.acts, x.isExpired = false) → Course g
  | stopping : g.pc = .stopping → (∃ x ∈ g.acts, x.isTerm = true) →
      (∀ x ∈ g.acts, x.isExpired = false) → Course g
  | killing : g.pc = .killing → RanOut g.acts → Course g
  | failed : g.pc = .errorYield → (∃ x ∈ g.acts, x.isError = true) →
      ((∃ x ∈ g.acts, x.isExpired = true) → RanOut g.acts) → Course g
  | succeeded : g.pc = .successYield → g.held = false → Course g
  | past : g.pc.phase = .past → Course g

variable {g : Gen Tool Summary}

theorem quiet_iff {x : Act Summary} : x.quiet = true ↔
    x.isTerm = false ∧ x.isKill = false ∧ x.isExpired = false ∧ x.isError = false := by
  simp [Act.quiet, and_assoc]

theorem course_early (h : Course g)
    (hp : g.pc.phase = .before ∨ g.pc = .spawning ∨ g.pc.looping = true) :
    (g.pc.looping = false → g.bound = false) ∧ ∀ x ∈ g.acts, x.quiet = true := by
  cases h with
  | quiet _ hb hq => exact ⟨hb, hq⟩
  | closing hpc _ _ => rw [hpc] at hp; rcases hp with hp | hp | hp <;> cases hp
  | stopping hpc _ _ => rw [hpc] at hp; rcases hp with hp | hp | hp <;> cases hp
  | killing hpc _ => rw [hpc] at hp; rcases hp with hp | hp | hp <;> cases hp
  | failed hpc _ _ => rw [hpc] at hp; rcases hp with hp | hp | hp <;> cases hp
  | succeeded hpc _ => rw [hpc] at hp; rcases hp with hp | hp | hp <;> cases hp
  | past hph =>
    rcases hp with hp | hp | hp
    · rw [hph] at hp; cases hp
    · rw [hp] at hph; cases hph
    · rw [Pc.phase_of_busy (Pc.busy_of_looping hp)] at hph; cases hph

theorem course_stopping (h : Course g) (hp : g.pc = .stopping) :
    (∃ x ∈ g.acts, x.isTerm = true) ∧ ∀ x ∈ g.acts, x.isExpired = false := by
  cases h with
  | quiet hpc _ _ => rw [hp] at hpc; rcases hpc with hpc | hpc | hpc <;> cases hpc
  | closing hpc _ _ => rw [hp] at hpc; cases hpc
  | stopping _ ht he => exact ⟨ht, he⟩
  | killing hpc _ => rw [hp] at hpc; cases hpc
  | failed hpc _ _ => rw [hp] at hpc; cases hpc
  | succeeded hpc _ => rw [hp] at hpc; cases hpc
  | past hph => rw [hp] at hph; cases hph

/-- Up to the status event the wait ends behind SIGTERM. -/
theorem course_ordered (h : Course g) (hb : g.pc.busy = true)
    (he : ∃ x ∈ g.acts, x.isExpired = true) : RanOut g.acts := by
  obtain ⟨x, hx, he⟩ := he
  cases h with
  | quiet _ _ hq => rw [(quiet_iff.mp (hq x hx)).2.2.1] at he; cases he
  | closing _ _ hno => rw [hno x hx] at he; cases he
  | stopping _ _ hno => rw [hno x hx] at he; cases he
  | killing _ hr => exact hr
  | failed hpc _ _ => rw [hpc] at hb; cases hb
  | succeeded hpc _ => rw [hpc] at hb; cases hb
  | past hph => rw [Pc.phase_of_busy hb] at hph; cases hph

theorem quiet_concat {as : List (Act Summary)} {x : Act Summary}
    (ha : ∀ y ∈ as, y.quiet = true) (hx : x.quiet = true) : ∀ y ∈ as ++ [x], y.quiet = true := by
  intro y hy
  rcases List.mem_append.mp hy with hy | hy
  · exact ha y hy
  · rw [List.mem_singleton.mp hy]; exact hx

/-- The end of the wait, and the signal behind it. -/
theorem ranOut_kill (h : ∃ x ∈ g.acts, x.isTerm = true) (k : KillResult) :
    RanOut (g.acts ++ [.waitExpired, .signalled .kill k]) := by
  have h1 : RanOut (g.acts ++ [.waitExpired]) := then_concat h rfl
  have h2 := h1.append [.signalled .kill k]
  rw [List.append_assoc] at h2; exact h2

/-- A spawn that is given up has not waited. -/
theorem dropped_expired (g : Gen Tool Summary) (error : Option Str) (env : Env) :
    ∀ x ∈ dropped g error env, x.isExpired = false := by
  intro x hx
  rcases List.mem_append.mp hx with hx | hx <;> split at hx <;> simp at hx <;> subst hx <;> rfl

/-- The wait that ends in a refused signal is over. -/
theorem refused_ordered {r : Resume} {env : Env} {acts : List (Act Summary)} (hc : Course g)
    (hb : g.pc.busy = true) (h : Refused g r env acts)
    (he : ∃ x ∈ g.acts ++ acts, x.isExpired = true) : RanOut (g.acts ++ acts) := by
  cases h with
  | nothing _ =>
    rw [List.append_nil] at he ⊢
    exact course_ordered hc hb he
  | drop _ _ _ _ =>
    obtain ⟨x, hx, hxe⟩ := he
    rcases List.mem_append.mp hx with hx | hx
    · exact (course_ordered hc hb ⟨x, hx, hxe⟩).append _
    · rw [dropped_expired g _ env x hx] at hxe; cases hxe
  | term _ _ _ =>
    obtain ⟨x, hx, hxe⟩ := he
    rcases List.mem_append.mp hx with hx | hx
    · exact (course_ordered hc hb ⟨x, hx, hxe⟩).append _
    · rw [List.mem_singleton.mp hx] at hxe; cases hxe
  | kill hpc _ _ => exact ranOut_kill (course_stopping hc hpc).1 env.kill

theorem course_accept (h : Course g) (hpc : g.pc = .reading) (bytes : List UInt8) :
    Course (accept g bytes) := by
  have hq := (course_early h (.inr (.inr (by rw [hpc]; rfl)))).2
  unfold accept
  split
  · exact .quiet (.inr (.inr rfl)) nofun (quiet_concat hq rfl)
  · split
    · exact .quiet (.inr (.inr rfl)) nofun hq
    · exact .quiet (.inr (.inr rfl)) nofun (quiet_concat hq rfl)

variable [DecidableEq Tool] {host : Host Tool Summary} {a : App Tool} {r : Resume} {env : Env}
  {x : App Tool × Gen Tool Summary}

theorem course_block (h : Course g) (hb : Block host a g r env x) : Course x.2 := by
  cases hb with
  | rejects hpc _ _ =>
    obtain ⟨hb, hq⟩ := course_early h (.inl (by rw [hpc]; rfl))
    exact .quiet (.inl rfl) (fun _ => hb (by rw [hpc]; rfl)) (quiet_concat hq rfl)
  | declines _ => exact .past rfl
  | @noChild msg hpc _ _ _ =>
    obtain ⟨-, hq⟩ := course_early h (.inl (by rw [hpc]; rfl))
    refine .failed rfl ⟨.yielded (.error msg), List.mem_append_right _ (by simp), rfl⟩ ?_
    rintro ⟨y, hy, hye⟩
    rcases List.mem_append.mp hy with hy | hy
    · rw [(quiet_iff.mp (hq y hy)).2.2.1] at hye; cases hye
    · rw [List.mem_singleton.mp hy] at hye; cases hye
  | enters hpc _ _ _ =>
    obtain ⟨hb, hq⟩ := course_early h (.inl (by rw [hpc]; rfl))
    exact .quiet (.inr (.inl rfl)) (fun _ => hb (by rw [hpc]; rfl)) hq
  | spawns hpc _ =>
    have hq := (course_early h (.inr (.inl hpc))).2
    exact .quiet (.inr (.inr rfl)) nofun hq
  | drops hpc _ _ =>
    obtain ⟨hb, hq⟩ := course_early h (.inr (.inl hpc))
    refine .closing rfl (hb (by rw [hpc]; rfl)) fun y hy => ?_
    rcases List.mem_append.mp hy with hy | hy
    · exact (quiet_iff.mp (hq y hy)).2.2.1
    · exact dropped_expired g _ env y hy
  | loops hl hp =>
    have hq := (course_early h (.inr (.inr hl))).2
    exact .quiet (.inr (.inr hp)) (fun hno => by rw [hp] at hno; cases hno) hq
  | hears hpc _ _ => exact course_accept h hpc _
  | terms hl _ _ =>
    have hq := (course_early h (.inr (.inr hl))).2
    refine .stopping rfl ⟨.signalled .term env.kill, List.mem_append_right _ (by simp), rfl⟩ ?_
    intro y hy
    rcases List.mem_append.mp hy with hy | hy
    · exact (quiet_iff.mp (hq y hy)).2.2.1
    · rw [List.mem_singleton.mp hy]; rfl
  | kills hpc _ _ => exact .killing rfl (ranOut_kill (course_stopping h hpc).1 env.kill)
  | succeeds hr _ _ =>
    have hh : g.held = false := reports_held hr
    exact .succeeded rfl hh
  | @fails acts msg hbusy hrf =>
    refine .failed rfl ⟨.yielded (.error msg), List.mem_append_right _ (by simp), rfl⟩ ?_
    rintro ⟨y, hy, hye⟩
    refine Then.append (refused_ordered h hbusy hrf ⟨y, ?_, hye⟩) _
    rcases List.mem_append.mp hy with hy | hy
    · exact hy
    · rw [List.mem_singleton.mp hy] at hye; cases hye
  | leaves _ => exact .past (Solo.cleanup_silent a g _ env).1
  | ends _ => exact .past rfl

omit [DecidableEq Tool] in
theorem graceful_kill (hg : Graceful g.acts) (ht : ∃ x ∈ g.acts, x.isTerm = true)
    (k : KillResult) : Graceful (g.acts ++ [.waitExpired, .signalled .kill k]) := by
  have h1 : Graceful (g.acts ++ [.waitExpired]) := guarded_append hg (by simp [Act.isKill])
  have h2 : RanOut (g.acts ++ [.waitExpired]) := then_concat ht rfl
  have h3 : Graceful (g.acts ++ [.waitExpired] ++ [.signalled .kill k]) :=
    guarded_concat.mpr ⟨h1, fun _ => .inl h2⟩
  rw [List.append_assoc] at h3; exact h3

omit [DecidableEq Tool] in
theorem graceful_accept (hg : Graceful g.acts) (bytes : List UInt8) :
    Graceful (accept g bytes).acts := by
  unfold accept
  split
  · exact guarded_append hg (by simp [Act.isKill])
  · split
    · exact hg
    · exact guarded_append hg (by simp [Act.isKill])

omit [DecidableEq Tool] in
/-- A kill that follows nothing but a quiet stretch. -/
theorem not_graceful_kill (hg : ∀ x ∈ g.acts, x.quiet = true) (k : KillResult) :
    ¬ Graceful (g.acts ++ [.signalled .kill k]) := by
  intro h
  rcases (guarded_concat.mp h).2 rfl with hw | ⟨⟨x, hx, he⟩, -⟩
  · obtain ⟨x, hx, ht⟩ := hw.fst
    rw [(quiet_iff.mp (hg x hx)).1] at ht; cases ht
  · rw [(quiet_iff.mp (hg x hx)).2.2.2] at he; cases he

omit [DecidableEq Tool] in
/-- The kill of a spawn that is given up comes behind its failure; behind a cancellation
there must be no child. -/
theorem graceful_dropped (hq : ∀ x ∈ g.acts, x.quiet = true) (hg : Graceful g.acts)
    (hr : r.breaksOff = true) :
    Graceful (g.acts ++ dropped g r.error env) ↔ (r = .cancel → g.unreaped = false) := by
  cases r with
  | cancel =>
    cases hu : g.unreaped with
    | false => simpa [dropped, Resume.error, hu] using hg
    | true => simpa [dropped, Resume.error, hu] using not_graceful_kill hq env.kill
  | raised msg =>
    refine iff_of_true ?_ fun h => nomatch h
    have h1 : Graceful (g.acts ++ [.gaveUp]) := guarded_append hg (by simp [Act.isKill])
    cases hu : g.unreaped with
    | false => simpa [dropped, Resume.error, hu] using h1
    | true =>
      have hterm : ∀ x ∈ g.acts ++ [.gaveUp], x.isTerm = false := by
        intro x hx
        rcases List.mem_append.mp hx with hx | hx
        · exact (quiet_iff.mp (hq x hx)).1
        · rw [List.mem_singleton.mp hx]; rfl
      have h2 : Graceful (g.acts ++ [.gaveUp] ++ [.signalled .kill env.kill]) :=
        guarded_concat.mpr ⟨h1, fun _ => .inr ⟨⟨.gaveUp, by simp, rfl⟩, hterm⟩⟩
      simpa [dropped, Resume.error, hu] using h2
  | _ => cases hr

/-- A spawn that is given up: behind its signals comes an error event at most. -/
theorem graceful_giveUp (hq : ∀ x ∈ g.acts, x.quiet = true) (hg : Graceful g.acts)
    (hr : r.breaksOff = true) :
    Graceful (giveUp a g r.error env).2.acts ↔ (r = .cancel → g.unreaped = false) := by
  rw [← graceful_dropped hq hg hr]
  unfold giveUp
  dsimp only
  split
  · exact guarded_concat.trans (and_iff_left fun h => nomatch h)
  · exact Iff.rfl

/-- Ahead of the `finally` block SIGKILL comes behind the wait, but for a cancelled spawn. -/
theorem graceful_block (h : Course g) (hg : Graceful g.acts) (hr : runsFinally g.pc r = false)
    (hs : ¬ (g.pc = .spawning ∧ r.breaksOff = true)) (hb : Block host a g r env x) :
    Graceful x.2.acts := by
  cases hb with
  | rejects _ _ _ => exact guarded_append hg (by simp [Act.isKill])
  | declines _ => exact hg
  | noChild _ _ _ _ => exact guarded_append hg (by simp [Act.isKill])
  | enters _ _ _ _ => exact hg
  | spawns _ _ => exact hg
  | drops hpc hoff _ => exact absurd ⟨hpc, hoff⟩ hs
  | loops _ _ => exact hg
  | hears _ _ _ => exact graceful_accept hg _
  | terms _ _ _ => exact guarded_append hg (by simp [Act.isKill])
  | kills hpc _ _ => exact graceful_kill hg (course_stopping h hpc).1 env.kill
  | succeeds _ _ _ => exact guarded_append hg (by simp [Act.isKill])
  | @fails acts msg hbusy hrf =>
    have hsignals : Graceful (g.acts ++ acts) := by
      cases hrf with
      | nothing _ => rw [List.append_nil]; exact hg
      | drop hpc hoff _ _ => exact absurd ⟨hpc, hoff⟩ hs
      | term _ _ _ => exact guarded_append hg (by simp [Act.isKill])
      | kill hpc _ _ => exact graceful_kill hg (course_stopping h hpc).1 env.kill
    exact guarded_append hsignals (by simp [Act.isKill])
  | leaves hf => rw [hf] at hr; cases hr
  | ends _ => exact hg

omit [DecidableEq Tool] in
theorem phase_of_runsFinally {p : Pc} (h : runsFinally p r = true) : p.phase = .running := by
  cases p <;> first | rfl | simp [runsFinally] at h

omit [DecidableEq Tool] in
theorem cutShort_eq_false : g.cutShort = false ↔
    (∀ x ∈ g.acts, x.isTerm = false) ∨ ∃ x ∈ g.acts, x.isExpired = true := by
  unfold Gen.cutShort
  rw [Bool.and_eq_false_iff, Bool.not_eq_false', List.any_eq_false, List.any_eq_true]
  simp only [Bool.not_eq_true]

omit [DecidableEq Tool] in
/-- What the `finally` block finds behind it when it has a child to kill. -/
theorem warned_iff (h : Course g) (hf : runsFinally g.pc r = true) (hu : g.held = true) :
    RanOut g.acts ∨ FailedFirst g.acts ↔
      g.pc = .killing ∨ g.pc = .errorYield ∧ g.cutShort = false := by
  cases h with
  | closing hpc hb _ => rw [Gen.held, hb] at hu; cases hu
  | quiet hpc _ hq =>
    refine iff_of_false ?_ ?_
    · intro hcase
      rcases hcase with hw | ⟨⟨x, hx, he⟩, -⟩
      · obtain ⟨x, hx, ht⟩ := hw.fst
        rw [(quiet_iff.mp (hq x hx)).1] at ht; cases ht
      · rw [(quiet_iff.mp (hq x hx)).2.2.2] at he; cases he
    · rintro (hp | ⟨hp, -⟩) <;> rw [hp] at hpc <;> rcases hpc with hpc | hpc | hpc <;> cases hpc
  | stopping hpc ht hno =>
    refine iff_of_false ?_ ?_
    · intro hcase
      rcases hcase with hw | ⟨-, hw⟩
      · obtain ⟨x, hx, he⟩ := hw.snd
        rw [hno x hx] at he; cases he
      · obtain ⟨x, hx, he⟩ := ht
        rw [hw x hx] at he; cases he
    · rintro (hp | ⟨hp, -⟩) <;> rw [hp] at hpc <;> cases hpc
  | killing hpc hw => exact iff_of_true (.inl hw) (.inl hpc)
  | failed hpc he hord =>
    have hne : g.pc ≠ .killing := by
      intro hp
      cases hpc.symm.trans hp
    rw [or_iff_right hne, and_iff_right hpc, cutShort_eq_false]
    constructor
    · intro hcase
      rcases hcase with hw | ⟨-, hno⟩
      · exact .inr hw.snd
      · exact .inl hno
    · intro hcase
      rcases hcase with hno | hx
      · exact .inr ⟨he, hno⟩
      · exact .inl (hord hx)
  | succeeded _ hreaped => rw [hreaped] at hu; cases hu
  | past hph => rw [phase_of_runsFinally hf] at hph; cases hph

/-! ## A whole run -/

namespace Solo
variable {s s' : Solo Tool Summary} {l : Turn}

theorem course_step (h : Course s.gen) (hs : step host s l = some s') : Course s'.gen := by
  cases l with
  | resume r env =>
    obtain ⟨x, hx, rfl⟩ := Option.map_eq_some_iff.mp hs
    exact course_block h (block_of_resume hx)
  | reap code =>
    obtain ⟨-, -, hu, rfl⟩ := step_reap hs
    cases h with
    | quiet hpc hb hq => exact .quiet hpc hb hq
    | closing hpc hb hno => exact .closing hpc hb hno
    | stopping hpc ht hno => exact .stopping hpc ht hno
    | killing hpc hw => exact .killing hpc hw
    | failed hpc he hord => exact .failed hpc he hord
    | succeeded hpc _ => exact .succeeded hpc (held_eq_false hu)
    | past hph => exact .past hph

/-- A step keeps the stop graceful exactly when it is gentle. -/
theorem graceful_step (h : Course s.gen) (hg : Graceful s.gen.acts)
    (hs : step host s l = some s') : Graceful s'.gen.acts ↔ s.Gentle l := by
  cases l with
  | reap code =>
    obtain ⟨-, -, -, rfl⟩ := step_reap hs
    exact iff_of_true hg trivial
  | resume r env =>
    obtain ⟨x, hx, rfl⟩ := Option.map_eq_some_iff.mp hs
    by_cases hspawn : s.gen.pc = .spawning ∧ r.breaksOff = true
    · obtain ⟨hpc, hoff⟩ := hspawn
      have hf : runsFinally s.gen.pc r = false := by rw [hpc]; rfl
      have hx' : x = giveUp s.app s.gen r.error env := by
        cases r with
        | cancel | raised msg => simpa [resume, hpc, Resume.error] using hx.symm
        | _ => cases hoff
      rw [hx', graceful_giveUp (course_early h (.inr (.inl hpc))).2 hg hoff]
      refine ⟨fun hu => ⟨fun hf' => ?_, fun _ => hu⟩, fun hg => hg.2 hpc⟩
      rw [hf] at hf'; cases hf'
    have hcalm : s.gen.pc = .spawning → r = .cancel → s.gen.unreaped = false :=
      fun hpc hr => absurd ⟨hpc, by rw [hr]; rfl⟩ hspawn
    cases hf : runsFinally s.gen.pc r with
    | false =>
      refine iff_of_true (graceful_block h hg hf hspawn (block_of_resume hx))
        ⟨fun hf' => ?_, hcalm⟩
      rw [hf] at hf'; cases hf'
    | true =>
      obtain ⟨e, rfl⟩ := resume_leaves hf hx
      cases hu : s.gen.held with
      | false =>
        have hacts : (cleanup s.app s.gen e env).2.acts = s.gen.acts := by simp [cleanup, hu]
        refine iff_of_true (hacts ▸ hg) ⟨fun _ hu' => ?_, hcalm⟩
        rw [hu] at hu'; cases hu'
      | true =>
        have hacts : (cleanup s.app s.gen e env).2.acts =
            s.gen.acts ++ [.signalled .kill env.kill] := by simp [cleanup, hu, Gen.signal]
        have hkill : Graceful (s.gen.acts ++ [.signalled .kill env.kill]) ↔
            RanOut s.gen.acts ∨ FailedFirst s.gen.acts :=
          guarded_concat.trans ⟨fun h => h.2 rfl, fun h => ⟨hg, fun _ => h⟩⟩
        rw [hacts, hkill, warned_iff h hf hu]
        exact ⟨fun h => ⟨fun _ _ => h, hcalm⟩, fun h => h.1 hf hu⟩

/-- **Graceful stop.** Throughout a run every SIGKILL comes behind SIGTERM and
the end of the 2 seconds, or behind a run that failed, exactly when every step
was gentle. -/
theorem gracefulStop_iff (host : Host Tool Summary) (a : App Tool) (t : Tool) (d : ℚ)
    (ls : List Turn) (hx : exec (step host) ⟨a, .new t d⟩ ls = some s) :
    Always (step host) (fun s => Graceful s.gen.acts) ⟨a, .new t d⟩ ls ↔
      Along (step host) Gentle ⟨a, .new t d⟩ ls :=
  always_iff_along (fun _ _ _ => course_step) (fun _ _ _ => graceful_step)
    (.quiet (.inl rfl) (fun _ => rfl) (List.forall_mem_nil _)) guarded_nil hx

/-- At the deadline the child ignores SIGTERM. -/
def ignoresTerm : List Turn :=
  [.resume .next (second 0), .resume .spawned (second 0), .resume (.disconnected false) (second 10),
    .resume .waitTimeout (second 12), .reap (-9), .resume .waited (second 12)]

theorem gracefulStop_limit :
    (exec (step Host.quiet) ⟨.start, .new "mem_oom" 10⟩ ignoresTerm).isSome = true ∧
      Always (step Host.quiet) (fun s => Graceful s.gen.acts) ⟨.start, .new "mem_oom" 10⟩
        ignoresTerm := by
  have hsome : (exec (step Host.quiet) ⟨.start, .new "mem_oom" 10⟩ ignoresTerm).isSome = true := by
    decide +kernel
  obtain ⟨s, hs⟩ := Option.isSome_iff_exists.mp hsome
  exact ⟨hsome, (gracefulStop_iff .quiet .start "mem_oom" 10 ignoresTerm hs).mpr
    (by decide +kernel)⟩

/-- **Counterexample.** The client disconnects: SIGKILL is the first signal. -/
theorem gracefulStop_disconnect : ∃ s, exec (step Host.quiet) ⟨.start, .new "mem_oom" 10⟩
    (.resume .next (signals .ok) :: leaving .ok) = some s ∧
      ¬ Always (step Host.quiet) (fun s => Graceful s.gen.acts) ⟨.start, .new "mem_oom" 10⟩
        (.resume .next (signals .ok) :: leaving .ok) := by
  refine ⟨_, rfl, fun h => ?_⟩
  have hlast : Graceful ([.signalled .kill .ok] : List (Act Unit)) := h.last rfl
  rcases hlast [] _ [] rfl rfl with hw | ⟨⟨x, hx, -⟩, -⟩
  · obtain ⟨x, hx, -⟩ := hw.fst
    cases hx
  · cases hx

end Solo

end EbpfDemo.L4Client
