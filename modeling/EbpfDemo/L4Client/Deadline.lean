import Mathlib.Tactic.Linarith
import EbpfDemo.L4Client.Blocks

/-!
# A run ends in time

`Outcome` and `RunCleanup` say how a run ends, not when. The generator reads the clock
after `is_disconnected` and after a read that timed out, so a line, or a client that is
slow to take one, can carry it past its deadline; then come the two seconds of the
SIGTERM, and waits without a limit of their own.

`Waits` says how long the awaits may take that the code does not limit, and how late the
event loop resumes a coroutine whose time has come. `budget` is what a run may still need
once its deadline has passed.

* `ends_in_time`: if no await takes longer than that, every stretch of an admitted run
  begins at most `overrun` after its deadline, whatever the awaits answer: 2.1 seconds and
  at most seven of those waits;
* and at most seven of its stretches begin after the deadline.
-/
namespace EbpfDemo.L4Client

open EbpfDemo.Core EbpfDemo.L1Encoding

/-- How long an await may take, in seconds: the spawn, `is_disconnected`, the client at a
`yield`, the end of a child that was sent SIGKILL; `late` is the delay of the event loop
behind a timeout. -/
structure Waits where
  spawn : ℚ
  poll : ℚ
  client : ℚ
  exit : ℚ
  late : ℚ
  nonneg : 0 ≤ spawn ∧ 0 ≤ poll ∧ 0 ≤ client ∧ 0 ≤ exit ∧ 0 ≤ late

namespace Waits
variable (W : Waits)

/-- The limit of an await.
mirrors src/client/main.py:247-249, 275 for the two timeouts -/
def limit : Pc → ℚ
  | .created | .rejecting => 0
  | .spawning => W.spawn
  | .polling => W.poll
  | .reading => 1 / 10 + W.late
  | .lineYield | .successYield | .errorYield => W.client
  | .stopping => 2 + W.late
  | .closing _ | .killing | .reaping _ => W.exit
  | .finished _ => 0

/-- What a run may need from an await on, behind its deadline. -/
def budget : Pc → ℚ
  | .created | .rejecting | .finished _ => 0
  | .reaping _ => W.exit
  | .successYield | .errorYield => W.client + W.exit
  | .closing _ | .killing => W.exit + (W.client + W.exit)
  | .stopping => 2 + W.late + (W.exit + (W.client + W.exit))
  | .polling => W.poll + (2 + W.late + (W.exit + (W.client + W.exit)))
  | .lineYield => W.client + (W.poll + (2 + W.late + (W.exit + (W.client + W.exit))))
  | .reading =>
    1 / 10 + W.late + (W.client + (W.poll + (2 + W.late + (W.exit + (W.client + W.exit)))))
  | .spawning => W.spawn + (W.poll + (2 + W.late + (W.exit + (W.client + W.exit))))

/-- The longest of them. -/
def overrun : ℚ := max (W.budget .spawning) (W.budget .reading)

end Waits

/-- The same count for the stretches. -/
def stretches : Pc → Nat
  | .created | .rejecting | .finished _ => 0
  | .reaping _ => 1
  | .successYield | .errorYield => 2
  | .closing _ | .killing => 3
  | .stopping => 4
  | .polling => 5
  | .lineYield | .spawning => 6
  | .reading => 7

/-- What remains behind an await is no more than behind another: in time and in
stretches. -/
structure Within (W : Waits) (p q : Pc) : Prop where
  time : W.budget p ≤ W.budget q
  count : stretches p ≤ stretches q

theorem Within.refl (W : Waits) (p : Pc) : Within W p p := ⟨le_rfl, le_rfl⟩

theorem Within.trans {W : Waits} {p q r : Pc} (h : Within W p q) (h' : Within W q r) :
    Within W p r := ⟨h.time.trans h'.time, h.count.trans h'.count⟩

section
variable (W : Waits)

theorem within_finished (e : Option Exc) (p : Pc) : Within W (.finished e) p := by
  obtain ⟨h1, h2, h3, h4, h5⟩ := W.nonneg
  constructor
  · cases p <;> simp only [Waits.budget] <;> linarith
  · exact Nat.zero_le _

theorem reaping_within (e : Option Exc) : Within W (.reaping e) .errorYield := by
  obtain ⟨h1, h2, h3, h4, h5⟩ := W.nonneg
  refine ⟨?_, Nat.le_succ 1⟩
  simp only [Waits.budget]
  linarith

theorem told_within : Within W .errorYield .killing := by
  obtain ⟨h1, h2, h3, h4, h5⟩ := W.nonneg
  refine ⟨?_, by decide⟩
  simp only [Waits.budget]
  linarith

theorem killing_within : Within W .killing .stopping := by
  obtain ⟨h1, h2, h3, h4, h5⟩ := W.nonneg
  refine ⟨?_, by decide⟩
  simp only [Waits.budget]
  linarith

theorem stopping_within : Within W .stopping .polling := by
  obtain ⟨h1, h2, h3, h4, h5⟩ := W.nonneg
  refine ⟨?_, by decide⟩
  simp only [Waits.budget]
  linarith

theorem polling_within : Within W .polling .lineYield := by
  obtain ⟨h1, h2, h3, h4, h5⟩ := W.nonneg
  refine ⟨?_, by decide⟩
  simp only [Waits.budget]
  linarith

/-- Where the try block can be left for, seen from an await of it. -/
theorem told_within_busy {p : Pc} (h : p = .killing ∨ p = .stopping ∨ p = .polling ∨ p = .lineYield) :
    Within W .errorYield p := by
  have hs := (told_within W).trans (killing_within W)
  have hp := hs.trans (stopping_within W)
  rcases h with rfl | rfl | rfl | rfl
  · exact told_within W
  · exact hs
  · exact hp
  · exact hp.trans (polling_within W)

end

/-! ## The blocks -/

variable {Tool Summary : Type} [DecidableEq Tool] {host : Host Tool Summary} {a : App Tool}
  {g : Gen Tool Summary} {r : Resume} {env : Env} {x : App Tool × Gen Tool Summary}

section
variable (W : Waits)

theorem within_report (now : ℚ) : Within W (report host a g now).2.pc .errorYield := by
  unfold report
  dsimp only
  split
  · exact .refl W _
  · split <;> exact ⟨le_rfl, le_rfl⟩

theorem within_stop : Within W (stop host a g env).2.pc .stopping := by
  unfold stop
  split_ifs
  · exact told_within_busy W (.inr (.inl rfl))
  · exact .refl W _
  · exact (within_report W env.later).trans (told_within_busy W (.inr (.inl rfl)))

theorem within_giveUp (error : Option Str) : Within W (giveUp a g error env).2.pc .polling := by
  have hkilled : Within W .killing .polling := (killing_within W).trans (stopping_within W)
  unfold giveUp
  dsimp only
  split
  · exact (told_within W).trans hkilled
  · exact ⟨hkilled.time, hkilled.count⟩

theorem within_forceKill : Within W (forceKill a g env).2.pc .killing := by
  unfold forceKill
  dsimp only
  split_ifs
  · exact told_within W
  · exact .refl W _

theorem within_cleanup (pending : Option Exc) :
    Within W (cleanup a g pending env).2.pc (.reaping none) := by
  unfold cleanup
  dsimp only
  split_ifs
  · exact within_finished W _ _
  · exact ⟨le_rfl, le_rfl⟩
  · exact within_finished W _ _

omit [DecidableEq Tool] in
theorem within_accept (bytes : List UInt8) : Within W (accept g bytes).pc .lineYield := by
  unfold accept
  split_ifs
  · exact .refl W _
  · exact polling_within W
  · exact .refl W _

end

/-- The longest way on from an await, behind the deadline. -/
def Pc.next : Pc → Pc
  | .spawning | .lineYield => .polling
  | .polling => .stopping
  | .reading => .lineYield
  | .stopping => .killing
  | .closing _ | .killing => .errorYield
  | .successYield | .errorYield => .reaping none
  | _ => .finished none

/-- An await is given its limit of what is left. -/
theorem limit_next (W : Waits) {p : Pc} (hp : p.phase ≠ .before) (hf : ∀ e, p ≠ .finished e) :
    W.limit p + W.budget p.next = W.budget p ∧ stretches p.next + 1 = stretches p := by
  cases p with
  | created | rejecting => exact absurd rfl hp
  | finished e => exact absurd rfl (hf e)
  | reaping e => exact ⟨add_zero _, rfl⟩
  | _ => exact ⟨rfl, rfl⟩

/-- Behind the deadline a stretch goes no longer way. -/
theorem late_next (W : Waits) (hp : g.pc.phase ≠ .before)
    (hlate : g.duration < env.now - g.startTime) (h : resume host a g r env = some x) :
    (∀ e, g.pc ≠ .finished e) ∧ Within W x.2.pc g.pc.next := by
  have hraised {msg : Str} {p : Pc} (hq : p = .killing ∨ p = .stopping ∨ p = .polling ∨
      p = .lineYield) : Within W (fail a g msg).2.pc p := told_within_busy W hq
  have hleft {e : Option Exc} {p : Pc} (hq : p = .killing ∨ p = .stopping ∨ p = .polling ∨
      p = .lineYield) : Within W (cleanup a g e env).2.pc p :=
    ((within_cleanup W e).trans (reaping_within W none)).trans (told_within_busy W hq)
  cases hpc : g.pc <;> cases r <;> simp only [resume, hpc, reduceCtorEq] at h
  case created.next | created.close | rejecting.next | rejecting.close =>
    rw [hpc] at hp
    exact absurd rfl hp
  all_goals refine ⟨fun e he => (by cases he), ?_⟩
  case spawning.spawned => cases h; exact .refl W _
  case spawning.raised | spawning.cancel => cases h; exact within_giveUp W _
  case closing.waited error =>
    cases error <;> dsimp only at h <;> split at h <;> cases h
    · exact (within_cleanup W _).trans (reaping_within W none)
    · exact .refl W _
  case closing.cancel =>
    cases h
    exact (within_cleanup W _).trans (reaping_within W none)
  case polling.disconnected b =>
    cases b <;> dsimp only at h
    · rw [if_pos hlate.le] at h
      cases h
      exact within_stop W
    · cases h
      exact hleft (.inr (.inl rfl))
  case polling.raised => cases h; exact hraised (.inr (.inl rfl))
  case polling.cancel => cases h; exact hleft (.inr (.inl rfl))
  case reading.readLine bytes =>
    split at h
    · cases h
      exact ((within_stop W).trans (stopping_within W)).trans (polling_within W)
    · cases h
      exact within_accept W bytes
  case reading.readTimeout =>
    rw [if_pos hlate] at h
    cases h
    exact ((within_stop W).trans (stopping_within W)).trans (polling_within W)
  case reading.raised => cases h; exact hraised (.inr (.inr (.inr rfl)))
  case reading.cancel => cases h; exact hleft (.inr (.inr (.inr rfl)))
  case lineYield.next => cases h; exact .refl W _
  case lineYield.close => cases h; exact hleft (.inr (.inr (.inl rfl)))
  case stopping.waited =>
    split at h
    · cases h
    · cases h
      exact (within_report W env.later).trans (told_within W)
  case stopping.waitTimeout => cases h; exact within_forceKill W
  case stopping.raised => cases h; exact hraised (.inl rfl)
  case stopping.cancel => cases h; exact hleft (.inl rfl)
  case killing.waited =>
    split at h
    · cases h
    · cases h
      exact within_report W env.later
  case killing.raised => cases h; exact .refl W _
  case killing.cancel =>
    cases h
    exact (within_cleanup W _).trans (reaping_within W none)
  case successYield.next | successYield.close | errorYield.next | errorYield.close =>
    cases h
    exact within_cleanup W _
  case reaping.waited =>
    split at h
    · cases h
    · cases h
      exact within_finished W _ _
  case reaping.cancel | reaping.raised => cases h; exact within_finished W _ _

/-- An admitted run keeps its deadline. -/
theorem keeps_deadline (hp : g.pc.phase ≠ .before) (h : resume host a g r env = some x) :
    x.2.startTime = g.startTime ∧ x.2.duration = g.duration ∧ x.2.pc.phase ≠ .before := by
  cases block_of_resume h with
  | rejects hpc _ _ | noChild hpc _ _ _ | enters hpc _ _ _ => rw [hpc] at hp; exact absurd rfl hp
  | declines hpc => exact absurd hpc hp
  | loops _ hq => exact ⟨rfl, rfl, by rw [Pc.phase_of_busy (Pc.busy_of_looping hq)]; nofun⟩
  | hears _ _ _ => unfold accept; split_ifs <;> exact ⟨rfl, rfl, nofun⟩
  | leaves _ => unfold cleanup; dsimp only; split_ifs <;> exact ⟨rfl, rfl, nofun⟩
  | _ => exact ⟨rfl, rfl, nofun⟩

/-! ## Runs with a clock -/

/-- A run, and when its last stretch began. -/
structure Clocked (Tool Summary : Type) where
  solo : Solo Tool Summary
  last : ℚ

/-- When a stretch begins. -/
def Turn.clock : Turn → Option ℚ
  | .resume _ env => some env.now
  | .reap _ => none

/-- A stretch that begins behind `deadline`. -/
def Turn.isAfter (deadline : ℚ) (l : Turn) : Bool := l.clock.any fun now => deadline < now

namespace Clocked

def step (host : Host Tool Summary) (s : Clocked Tool Summary) (l : Turn) :
    Option (Clocked Tool Summary) :=
  (Solo.step host s.solo l).map fun solo => ⟨solo, l.clock.getD s.last⟩

variable {s s' : Clocked Tool Summary} {l : Turn} {ls : List Turn} {W : Waits} {deadline : ℚ}

/-- `time.monotonic` does not go back. -/
def Forward (s : Clocked Tool Summary) (l : Turn) : Prop := ∀ now ∈ l.clock, s.last ≤ now

/-- No await takes longer than its limit. -/
def OnTime (W : Waits) (s : Clocked Tool Summary) (l : Turn) : Prop :=
  ∀ now ∈ l.clock, now ≤ s.last + W.limit s.solo.gen.pc

instance (s : Clocked Tool Summary) (l : Turn) : Decidable (Forward s l) :=
  inferInstanceAs (Decidable (∀ now ∈ l.clock, _))

instance (W : Waits) (s : Clocked Tool Summary) (l : Turn) : Decidable (OnTime W s l) :=
  inferInstanceAs (Decidable (∀ now ∈ l.clock, _))

/-- An admitted run with this deadline. -/
structure Admitted (deadline : ℚ) (s : Clocked Tool Summary) : Prop where
  deadline : s.solo.gen.startTime + s.solo.gen.duration = deadline
  phase : s.solo.gen.pc.phase ≠ .before

/-- **One step**: a reaped child changes nothing, a stretch begins at its clock, and one
that begins late shortens the rest by the limit of its await. -/
theorem step_cases (h : Admitted deadline s) (hs : step host s l = some s') :
    Admitted deadline s' ∧
      (l.clock = none ∧ s'.last = s.last ∧ s'.solo.gen.pc = s.solo.gen.pc ∨
        l.clock = some s'.last ∧ ∀ W : Waits, deadline < s'.last →
          W.limit s.solo.gen.pc + W.budget s'.solo.gen.pc ≤ W.budget s.solo.gen.pc ∧
            stretches s'.solo.gen.pc + 1 ≤ stretches s.solo.gen.pc) := by
  obtain ⟨solo, hsolo, rfl⟩ := Option.map_eq_some_iff.mp hs
  cases l with
  | reap code =>
    obtain ⟨-, -, -, rfl⟩ := Solo.step_reap hsolo
    exact ⟨⟨h.deadline, h.phase⟩, .inl ⟨rfl, rfl, rfl⟩⟩
  | resume r env =>
    obtain ⟨x, hx, rfl⟩ := Option.map_eq_some_iff.mp hsolo
    obtain ⟨hstart, hduration, hphase⟩ := keeps_deadline h.phase hx
    refine ⟨⟨?_, hphase⟩, .inr ⟨rfl, fun W hlate => ?_⟩⟩
    · rw [← h.deadline]
      exact congrArg₂ (· + ·) hstart hduration
    · have hover : s.solo.gen.duration < env.now - s.solo.gen.startTime := by
        rw [← h.deadline] at hlate
        exact lt_sub_iff_add_lt'.mpr hlate
      obtain ⟨hf, hwithin⟩ := late_next W h.phase hover hx
      obtain ⟨htime, hcount⟩ := limit_next W h.phase hf
      have h1 := hwithin.time
      have h2 := hwithin.count
      dsimp only
      constructor
      · linarith only [htime, h1]
      · omega

theorem stretches_le (p : Pc) : stretches p ≤ 7 := by cases p <;> simp [stretches]

/-- Once the deadline has passed only so many stretches are left. -/
theorem late_exec (h : Admitted deadline s) (hf : Along (step host) Forward s ls)
    (hx : exec (step host) s ls = some s') : ls.countP (Turn.isAfter deadline) ≤
      if deadline < s.last then stretches s.solo.gen.pc else 7 := by
  induction ls generalizing s with
  | nil => exact Nat.zero_le _
  | cons l ls ih =>
    obtain ⟨s1, hs, hx⟩ := exec_cons_some hx
    obtain ⟨hl, hrest⟩ := (along_cons hs).mp hf
    obtain ⟨h1, hcases⟩ := step_cases h hs
    have hih := ih h1 hrest hx
    rw [List.countP_cons]
    rcases hcases with ⟨hc, hlast, hpc⟩ | ⟨hc, hlate⟩
    · rw [hlast, hpc] at hih
      simpa [Turn.isAfter, hc] using hih
    · have hafter : Turn.isAfter deadline l = decide (deadline < s1.last) := by
        rw [Turn.isAfter, hc]
        rfl
      rw [hafter]
      by_cases hd : deadline < s1.last
      · obtain ⟨-, hcount⟩ := hlate ⟨0, 0, 0, 0, 0, by decide⟩ hd
        have hle := stretches_le s.solo.gen.pc
        rw [if_pos hd] at hih
        rw [decide_eq_true hd, if_pos rfl]
        split_ifs <;> omega
      · have hbefore : ¬ deadline < s.last := fun h => hd (h.trans_le (hl s1.last hc))
        rw [if_neg hd] at hih
        rw [decide_eq_false hd, if_neg Bool.false_ne_true, if_neg hbefore]
        exact hih

/-- What is left fits behind the deadline. -/
structure Fits (W : Waits) (deadline : ℚ) (s : Clocked Tool Summary) : Prop where
  admitted : Admitted deadline s
  time : s.last + W.budget s.solo.gen.pc ≤ deadline + W.overrun

theorem budget_le (W : Waits) (p : Pc) : 0 ≤ W.budget p ∧ W.budget p ≤ W.overrun := by
  obtain ⟨h1, h2, h3, h4, h5⟩ := W.nonneg
  have hread : W.budget .reading ≤ W.overrun := le_max_right _ _
  have hspawn : W.budget .spawning ≤ W.overrun := le_max_left _ _
  constructor
  · cases p <;> simp only [Waits.budget] <;> linarith
  · cases p <;> simp only [Waits.budget] at * <;> linarith

theorem fits_step (h : Fits W deadline s) (hl : OnTime W s l) (hs : step host s l = some s') :
    Fits W deadline s' := by
  obtain ⟨h1, ⟨hc, hlast, hpc⟩ | ⟨hc, hlate⟩⟩ := step_cases h.admitted hs
  · exact ⟨h1, by rw [hlast, hpc]; exact h.time⟩
  · have hnow := hl s'.last hc
    refine ⟨h1, ?_⟩
    by_cases hd : deadline < s'.last
    · obtain ⟨hbudget, -⟩ := hlate W hd
      linarith only [h.time, hnow, hbudget]
    · have hle := (budget_le W s'.solo.gen.pc).2
      linarith only [hle, not_lt.mp hd]

/-- **In time.** An admitted run begins at most seven stretches behind its deadline, and
if no await takes longer than its limit, none later than `overrun` behind it. -/
theorem ends_in_time (host : Host Tool Summary) (a : App Tool) (t : Tool) {d : ℚ} (hd : 0 ≤ d)
    (ha : a.running t = false) (env : Env) (ls : List Turn)
    (hx : exec (step host) ⟨⟨a, .new t d⟩, env.now⟩ (.resume .next env :: ls) = some s)
    (hf : Along (step host) Forward ⟨⟨a, .new t d⟩, env.now⟩ (.resume .next env :: ls)) :
    ls.countP (Turn.isAfter (env.now + d)) ≤ 7 ∧
      ∀ W, Along (step host) (OnTime W) ⟨⟨a, .new t d⟩, env.now⟩ (.resume .next env :: ls) →
        s.last ≤ env.now + d + W.overrun := by
  obtain ⟨s1, hs, hx⟩ := exec_cons_some hx
  have henter : s1 = ⟨⟨(enter a (.new t d) env).1, (enter a (.new t d : Gen Tool Summary) env).2⟩,
      env.now⟩ := (Option.some.inj hs).symm
  have h1 : Admitted (env.now + d) s1 := by
    have hfree : ¬ a.running (Gen.new t d : Gen Tool Summary).tool = true := by
      rw [show (Gen.new t d : Gen Tool Summary).tool = t from rfl, ha]
      exact Bool.false_ne_true
    rw [henter, enter, if_neg hfree]
    dsimp only
    split <;> exact ⟨rfl, fun h => by cases h⟩
  constructor
  · have hlate := late_exec h1 ((along_cons hs).mp hf).2 hx
    have hle := stretches_le s1.solo.gen.pc
    split_ifs at hlate <;> omega
  · intro W hw
    have hlast : s1.last = env.now := by rw [henter]
    have hfits : Fits W (env.now + d) s1 := by
      refine ⟨h1, ?_⟩
      have hle := (budget_le W s1.solo.gen.pc).2
      linarith only [hle, hlast, hd]
    have hend : Fits W (env.now + d) s :=
      (Along.always (fun _ _ _ h hl hs => fits_step h hl hs) hfits ((along_cons hs).mp hw).2).last hx
    have h0 := (budget_le W s.solo.gen.pc).1
    linarith only [hend.time, h0]

/-- A client that takes a line only after the deadline, and a tool that ignores SIGTERM. -/
def slow : List Turn :=
  [.resume .spawned (Solo.second 9), .resume (.disconnected false) (Solo.second 9),
    .resume (.readLine [0x61, 10]) (Solo.second 9), .resume .next (Solo.second 12),
    .resume (.disconnected false) (Solo.second 12), .resume .waitTimeout (Solo.second 14),
    .reap (-9), .resume .waited (Solo.second 15), .resume .next (Solo.second 17)]

/-- Nine seconds for the spawn, three for the client, one for the end of the child. -/
def slowWaits : Waits := ⟨9, 0, 3, 1, 0, by decide⟩

def slowStart : Clocked String Unit := ⟨⟨.start, .new "irq_stat" 10⟩, 0⟩

theorem ends_in_time_slow : ∃ s,
    exec (step Host.quiet) slowStart (.resume .next (Solo.second 0) :: slow) = some s ∧
      s.last = 17 ∧ slow.countP (Turn.isAfter 10) = 5 ∧ slow.countP (Turn.isAfter (0 + 10)) ≤ 7 ∧
      s.last ≤ 0 + 10 + slowWaits.overrun := by
  have hx : (exec (step Host.quiet) slowStart (.resume .next (Solo.second 0) :: slow)).map
      Clocked.last = some 17 := by decide +kernel
  obtain ⟨s, hs, hlast⟩ := Option.map_eq_some_iff.mp hx
  have hf : Along (step Host.quiet) Forward slowStart (.resume .next (Solo.second 0) :: slow) := by
    decide +kernel
  have hw : Along (step Host.quiet) (OnTime slowWaits) slowStart
      (.resume .next (Solo.second 0) :: slow) := by decide +kernel
  obtain ⟨hcount, htime⟩ := ends_in_time Host.quiet .start "irq_stat" (d := 10) (by decide) rfl
    (Solo.second 0) slow hs hf
  exact ⟨s, hs, hlast, by decide +kernel, hcount, htime slowWaits hw⟩

end Clocked

end EbpfDemo.L4Client
