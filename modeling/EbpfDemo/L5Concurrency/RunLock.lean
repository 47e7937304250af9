import EbpfDemo.L4Client.EventGenerator

/-!
# At most one child of a tool?

Any number of requests for any tools, their generators interleaved at every
`await` and `yield`, children reaped at any time. The flag
`TOOL_STATS[tool]["running"]` is checked and set, and the child forked, without an
`await` in between, so at most one generator of a tool stands between line 222 and the
`finally` block (`inRun_moves`). But the `finally` block clears the flag before it
waits for the child: from there on a second run may start while the first
child is still alive, be it during the wait, or for good when the wait was
cancelled or never reached (`L4Client.RunCleanup`).

* `atMostOne_iff`: a run of the whole system has at most one unreaped child per
  tool in every state exactly when every fork comes after the children of the
  runs that have cleared the flag (`Clear`).
* `atMostOne_disconnect`: two requests, and a disconnect of the first, make two.
-/
namespace EbpfDemo.L5Concurrency.RunLock

open EbpfDemo.Core
open L4Client

variable {Tool Summary : Type} [DecidableEq Tool] {host : Host Tool Summary}

structure Sys (Tool Summary : Type) where
  app : App Tool
  gens : List (Gen Tool Summary)

inductive Lbl (Tool : Type) where
  | request (t : Tool) (duration : ℚ)
  | resume (i : Nat) (r : Resume) (env : Env)
  | reap (i : Nat) (code : Int)

def step (host : Host Tool Summary) (s : Sys Tool Summary) : Lbl Tool → Option (Sys Tool Summary)
  | .request t d => some { s with gens := s.gens ++ [.new t d] }
  | .resume i r env => s.gens[i]?.bind fun g =>
      (resume host s.app g r env).map fun x => ⟨x.1, s.gens.set i x.2⟩
  | .reap i code => s.gens[i]?.bind fun g =>
      (g.reap code).map fun g' => { s with gens := s.gens.set i g' }

/-- The server has started, nobody has asked for anything. -/
def start : Sys Tool Summary := ⟨.start, []⟩

/-- Children of a tool that are spawned and not yet reaped. -/
def children (s : Sys Tool Summary) (t : Tool) : Nat :=
  s.gens.countP fun g => g.tool = t ∧ g.unreaped = true

def AtMostOne (s : Sys Tool Summary) : Prop := ∀ t, children s t ≤ 1

/-- A fork comes after the children of the runs of the same tool that have
cleared the flag. -/
def Clear (s : Sys Tool Summary) : Lbl Tool → Prop
  | .resume i r env => ∀ g ∈ s.gens[i]?, forks s.app g r env = true → ∀ h ∈ s.gens,
      h.tool = g.tool → h.pc.phase = .past → h.unreaped = false
  | _ => True

instance (s : Sys Tool Summary) : ∀ l, Decidable (Clear s l)
  | .resume i _ _ => inferInstanceAs (Decidable (∀ g ∈ s.gens[i]?, _))
  | .request _ _ | .reap _ _ => .isTrue trivial

/-! ## One step -/

variable {s s' : Sys Tool Summary}

/-- What replacing one element does to a count. -/
theorem countP_set_of_getElem? {α : Type} (p : α → Bool) {l : List α} {i : Nat} {x y : α}
    (h : l[i]? = some x) :
    (l.set i y).countP p + (p x).toNat = l.countP p + (p y).toNat := by
  obtain ⟨hi, rfl⟩ := List.getElem?_eq_some_iff.mp h
  have hle : (p l[i]).toNat ≤ l.countP p := by
    cases hp : p l[i] with
    | false => simp
    | true => exact List.countP_pos_iff.mpr ⟨l[i], List.getElem_mem hi, hp⟩
  rw [List.countP_set hi]
  cases hx : p l[i] <;> cases p y <;> simp only [hx, Bool.toNat_true, Bool.toNat_false,
    if_true, if_false, Bool.false_eq_true] at hle ⊢ <;> omega

/-- Generators of a tool between the set and the clear of the flag. -/
def inRun (s : Sys Tool Summary) (t : Tool) : Nat :=
  s.gens.countP fun g => g.tool = t ∧ g.pc.phase = .running

/-- The flag counts the generators in the run, and a child belongs to a
generator that has forked it. -/
structure Inv (s : Sys Tool Summary) : Prop where
  flag : ∀ t, inRun s t = (s.app.running t).toNat
  childless : ∀ g ∈ s.gens, g.Childless

theorem inv_start : Inv (start : Sys Tool Summary) := ⟨fun _ => rfl, fun _ h => by cases h⟩

theorem step_resume {i : Nat} {r : Resume} {env : Env}
    (h : step host s (.resume i r env) = some s') :
    ∃ g g', s.gens[i]? = some g ∧ s'.gens = s.gens.set i g' ∧ Moves s.app g r env s'.app g' := by
  obtain ⟨g, hg, h⟩ := Option.bind_eq_some_iff.mp h
  obtain ⟨x, hx, rfl⟩ := Option.map_eq_some_iff.mp h
  exact ⟨g, x.2, hg, rfl, moves_of_resume hx⟩

theorem step_reap {i : Nat} {code : Int} (h : step host s (.reap i code) = some s') :
    ∃ g g', s.gens[i]? = some g ∧ s' = { s with gens := s.gens.set i g' } ∧
      g.unreaped = true ∧ g' = { g with child := some ⟨some code⟩ } ∧ g'.unreaped = false := by
  obtain ⟨g, hg, h⟩ := Option.bind_eq_some_iff.mp h
  obtain ⟨g', hg', rfl⟩ := Option.map_eq_some_iff.mp h
  exact ⟨g, g', hg, rfl, reap_some hg'⟩

/-- A stretch keeps the flag and the number of generators in the run equal. -/
theorem inRun_moves {g g' : Gen Tool Summary} {r : Resume} {env : Env} {a' : App Tool} {i : Nat}
    (hs : Inv s) (hg : s.gens[i]? = some g) (hm : Moves s.app g r env a' g') (t : Tool) :
    inRun ⟨a', s.gens.set i g'⟩ t = (a'.running t).toNat := by
  have hc := countP_set_of_getElem? (fun g => decide (g.tool = t ∧ g.pc.phase = .running))
    (y := g') hg
  have hf := hs.flag t
  have ht := hm.tool
  unfold inRun at hf ⊢
  rw [hf] at hc
  dsimp only at hc ⊢
  cases hm with
  | outside _ _ hph ha hph' _ _ => simpa [hph, hph', ha] using hc
  | enters _ _ hpc hfree hflag _ hpc' _ _ =>
    simp only [hpc, hpc', phase_created, ht, reduceCtorEq, and_true, and_false] at hc
    rw [hflag]
    by_cases h : t = g.tool
    · subst h; simpa [hfree] using hc
    · simpa [h, Ne.symm h] using hc
  | inside _ hph hi =>
    have hph' : g'.pc.phase = .running := hi.phase
    simpa [hph, hph', ht, hi.same.2 t] using hc
  | leaves _ hph hflag hother _ _ _ hpc' =>
    have hph' : g'.pc.phase = .past := phase_of_leaves hpc'
    simp only [hph, hph', reduceCtorEq, and_true, and_false] at hc
    by_cases h : t = g.tool
    · subst h
      rw [App.running_of_map hflag]
      have hle := Bool.toNat_le (s.app.running g.tool)
      simp only [decide_true, decide_false, Bool.toNat_true, Bool.toNat_false] at hc ⊢
      omega
    · rw [hother t h]
      simpa [Ne.symm h] using hc
  | ends _ hpc ha hpc' _ _ _ => simpa [hpc, hpc', ha] using hc

theorem inv_step {l : Lbl Tool} (hs : Inv s) (h : step host s l = some s') : Inv s' := by
  cases l with
  | request t d =>
    cases h
    refine ⟨fun t' => ?_, fun g hg => ?_⟩
    · have hf := hs.flag t'
      unfold inRun at hf ⊢
      rw [← hf]
      simp [Gen.new, Pc.phase]
    · rcases List.mem_append.mp hg with hg | hg
      · exact hs.childless g hg
      · rw [List.mem_singleton.mp hg]; exact fun _ => rfl
  | resume i r env =>
    obtain ⟨g, g', hg, hgens, hm⟩ := step_resume h
    refine ⟨fun t => ?_, fun k hk => ?_⟩
    · have := inRun_moves hs hg hm t
      rw [← hgens] at this; exact this
    · rw [hgens] at hk
      rcases List.mem_or_eq_of_mem_set hk with hk | rfl
      · exact hs.childless k hk
      · exact hm.childless (hs.childless g (List.mem_of_getElem? hg))
  | reap i code =>
    obtain ⟨g, g', hg, rfl, hu, rfl, -⟩ := step_reap h
    refine ⟨fun t => ?_, fun k hk => ?_⟩
    · have hc := countP_set_of_getElem? (fun g => decide (g.tool = t ∧ g.pc.phase = .running))
        (y := { g with child := some ⟨some code⟩ }) hg
      rw [← hs.flag t]
      exact Nat.add_right_cancel hc
    · rcases List.mem_or_eq_of_mem_set hk with hk | rfl
      · exact hs.childless k hk
      · intro hp
        rw [unreaped_eq_false (hs.childless g (List.mem_of_getElem? hg) hp)] at hu; cases hu

/-- In front of a fork, the unreaped children of the tool belong to runs that have
cleared the flag. -/
theorem clear_iff {g : Gen Tool Summary} {i : Nat} {r : Resume} {env : Env} (hs : Inv s)
    (hg : s.gens[i]? = some g) (hf : forks s.app g r env = true) :
    Clear s (.resume i r env) ↔ children s g.tool = 0 := by
  simp only [Clear, hg, hf, forall_const, Option.mem_some, forall_eq', children,
    List.countP_eq_zero, decide_eq_true_eq, not_and, Bool.not_eq_true]
  refine ⟨fun h k hk htool => ?_, fun h k hk htool _ => h k hk htool⟩
  cases hph : k.pc.phase with
  | before => exact unreaped_eq_false (hs.childless k hk hph)
  | past => exact h k hk htool hph
  | running =>
    -- the flag is clear, so nobody is in a run of the tool
    have hrun : inRun s g.tool = 0 := by
      rw [hs.flag, (forks_iff.mp hf).2.2.1]; rfl
    have hno := List.countP_eq_zero.mp hrun k hk
    exact absurd (by simp [htool, hph]) hno

theorem atMostOne_of_le (hq : AtMostOne s) (h : ∀ t, children s' t ≤ children s t) :
    AtMostOne s' := fun t => Nat.le_trans (h t) (hq t)

/-- What one generator does to the number of children. -/
theorem children_set {i : Nat} {g g' : Gen Tool Summary} (hg : s.gens[i]? = some g)
    (hgens : s'.gens = s.gens.set i g') (t : Tool) :
    children s' t + (decide (g.tool = t ∧ g.unreaped = true)).toNat =
      children s t + (decide (g'.tool = t ∧ g'.unreaped = true)).toNat := by
  unfold children
  rw [hgens]
  exact countP_set_of_getElem? (fun g => decide (g.tool = t ∧ g.unreaped = true)) hg

/-- A fork adds a child of its tool. -/
theorem atMostOne_fork {i : Nat} {g g' : Gen Tool Summary} (hq : AtMostOne s)
    (hg : s.gens[i]? = some g) (hgens : s'.gens = s.gens.set i g') (ht : g'.tool = g.tool)
    (hu : g.unreaped = false) (hu' : g'.unreaped = true) :
    AtMostOne s' ↔ children s g.tool = 0 := by
  have hc : ∀ t, children s' t = children s t + (decide (g.tool = t)).toNat := fun t => by
    have := children_set hg hgens t
    simpa only [ht, hu, hu', Bool.false_eq_true, and_false, and_true, decide_false,
      Bool.toNat_false, Nat.add_zero] using this
  constructor
  · intro h
    have h1 := h g.tool
    rw [hc, decide_eq_true rfl, Bool.toNat_true] at h1
    omega
  · intro h t
    rw [hc]
    by_cases hgt : g.tool = t
    · subst hgt; simp [h]
    · simpa [hgt] using hq t

/-- A step keeps the children apart exactly when it meets `Clear`. -/
theorem atMostOne_step {l : Lbl Tool} (hs : Inv s) (hq : AtMostOne s)
    (h : step host s l = some s') : AtMostOne s' ↔ Clear s l := by
  cases l with
  | request t d =>
    cases h
    refine iff_of_true (atMostOne_of_le hq fun t' => ?_) trivial
    simp [children, Gen.new, Gen.unreaped]
  | reap i code =>
    obtain ⟨g, g', hg, rfl, -, -, hu⟩ := step_reap h
    refine iff_of_true (atMostOne_of_le hq fun t => ?_) trivial
    have hc : children { s with gens := s.gens.set i g' } t + _ = _ := children_set hg rfl t
    simp only [hu, Bool.false_eq_true, and_false, decide_false, Bool.toNat_false] at hc
    omega
  | resume i r env =>
    obtain ⟨g, g', hg, hgens, hm⟩ := step_resume h
    cases hf : forks s.app g r env with
    | true =>
      have hph : g.pc.phase = .before := by rw [(forks_iff.mp hf).1]; rfl
      have hu : g.unreaped = false :=
        unreaped_eq_false (hs.childless g (List.mem_of_getElem? hg) hph)
      rw [clear_iff hs hg hf]
      exact atMostOne_fork hq hg hgens hm.tool hu (by simp [Gen.unreaped, hm.forked hf])
    | false =>
      refine iff_of_true (atMostOne_of_le hq fun t => ?_) fun k hk hfork => ?_
      · have hc := children_set hg hgens t
        rw [hm.tool, unreaped_congr (hm.child hf)] at hc
        omega
      · rw [hg] at hk
        cases hk
        rw [hf] at hfork; cases hfork

/-- **Mutual exclusion.** From the start of the server and in any interleaving, no
state has two unreaped children of one tool exactly when every fork comes after
the children of the runs of its tool that have cleared the flag. -/
theorem atMostOne_iff (host : Host Tool Summary) (ls : List (Lbl Tool)) {s : Sys Tool Summary}
    (hx : exec (step host) start ls = some s) :
    Always (step host) AtMostOne start ls ↔ Along (step host) Clear start ls :=
  always_iff_along (fun _ _ _ => inv_step) (fun _ _ _ => atMostOne_step) inv_start
    (fun _ => Nat.zero_le 1) hx

/-! ## Two requests -/

/-- `os.killpg` works. -/
def env : Env := ⟨0, 0, none, .ok⟩

def begins (i : Nat) : List (Lbl String) := [.resume i .next env, .resume i .spawned env]

/-- The client is gone: SIGKILL, then the wait for the child. -/
def leaves (i : Nat) : Lbl String := .resume i (.disconnected true) env

/-- The second request starts when the first child is reaped. -/
theorem atMostOne_turns : Always (step Host.quiet) AtMostOne start
    (.request "irq_stat" 10 :: .request "irq_stat" 10 :: begins 0 ++
      [leaves 0, .reap 0 (-9), .resume 0 .waited env] ++ begins 1) :=
  (atMostOne_iff Host.quiet (.request "irq_stat" 10 :: .request "irq_stat" 10 :: begins 0 ++
    [leaves 0, .reap 0 (-9), .resume 0 .waited env] ++ begins 1) rfl).mpr (by decide)

/-- **Counterexample.** The second request starts while the first waits for its
child. -/
theorem atMostOne_disconnect : ∃ s, exec (step Host.quiet) start
    (.request "irq_stat" 10 :: .request "irq_stat" 10 :: begins 0 ++ [leaves 0] ++ begins 1) =
      some s ∧ children s "irq_stat" = 2 ∧ ¬ AtMostOne s :=
  ⟨_, rfl, by decide, fun h => absurd (h "irq_stat") (by decide)⟩

end EbpfDemo.L5Concurrency.RunLock
