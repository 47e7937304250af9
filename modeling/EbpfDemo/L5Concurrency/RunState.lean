import Mathlib.Data.Set.Card
import EbpfDemo.L5Concurrency.RunLock

/-!
# Flag, gauge and runs

The flag of a tool and the gauge are two pieces of shared state, set and reset by
every run of every tool. `RunLock.Inv` ties the flags to the generators in
their run; here the gauge is tied to the generators, and both are counted.

`runState_consistent`: in every state, for any interleaving and any exception,
cancellation or early close, the gauge is the number of flags that are set and the
number of generators in their run, no tool has two of them, and a request that
is rejected leaves everything as it was.
-/
namespace EbpfDemo.L5Concurrency.RunLock

open EbpfDemo.Core
open L4Client

variable {Tool Summary : Type} [DecidableEq Tool] {host : Host Tool Summary}
  {s s' : Sys Tool Summary}

/-- Between the set of the flag and the decrement of the gauge. -/
def isRunning (g : Gen Tool Summary) : Bool := g.pc.phase = .running

/-- The gauge counts the flags and the generators in their run. -/
structure Consistent (s : Sys Tool Summary) : Prop where
  finite : {t | s.app.running t = true}.Finite
  flags : s.app.toolRunning = Set.ncard {t | s.app.running t = true}
  runs : s.app.toolRunning = s.gens.countP isRunning
  once : ∀ t, inRun s t ≤ 1

/-- A step of a generator that is rejected, or was, leaves the shared state
alone. -/
def LeavesAlone (host : Host Tool Summary) (s : Sys Tool Summary) : Lbl Tool → Prop
  | .resume i r env => ∀ g ∈ s.gens[i]?,
      g.pc = .rejecting ∨ g.pc = .created ∧ s.app.running g.tool = true →
      ∀ s', step host s (.resume i r env) = some s' → s'.app = s.app
  | _ => True

/-- The gauge counts the generators in their run. -/
structure Gauged (s : Sys Tool Summary) : Prop where
  inv : Inv s
  gauge : s.app.toolRunning = s.gens.countP isRunning

theorem gauged_start : Gauged (start : Sys Tool Summary) := ⟨inv_start, rfl⟩

/-- A stretch moves the gauge as it moves the generator. -/
theorem gauge_moves {g g' : Gen Tool Summary} {r : Resume} {env : Env} {a' : App Tool}
    (hm : Moves s.app g r env a' g') :
    a'.toolRunning + (isRunning g).toNat = s.app.toolRunning + (isRunning g').toNat := by
  unfold isRunning
  cases hm with
  | outside _ _ hph ha hph' _ _ => simp [hph, hph', ha]
  | enters _ _ hpc _ _ hg hpc' _ _ => simp [hpc, hpc', hg]
  | inside _ hph hi =>
    have hph' : g'.pc.phase = .running := hi.phase
    have hsame : a'.toolRunning = s.app.toolRunning := hi.same.1
    simp [hph, hph', hsame]
  | leaves _ hph _ _ hg _ _ hpc' =>
    have hph' : g'.pc.phase = .past := phase_of_leaves hpc'
    simp [hph, hph', hg]
  | ends _ hpc ha hpc' _ _ _ => simp [hpc, hpc', ha]

theorem gauged_step {l : Lbl Tool} (hs : Gauged s) (h : step host s l = some s') : Gauged s' := by
  refine ⟨inv_step hs.inv h, ?_⟩
  have hg := hs.gauge
  cases l with
  | request t d =>
    cases h
    simpa [isRunning, Gen.new] using hg
  | resume i r env =>
    obtain ⟨g, g', hi, hgens, hm⟩ := step_resume h
    have h1 := gauge_moves hm
    have h2 := countP_set_of_getElem? isRunning (y := g') hi
    rw [hgens]
    omega
  | reap i code =>
    obtain ⟨g, g', hi, rfl, -, rfl, -⟩ := step_reap h
    have h2 := countP_set_of_getElem? isRunning
      (y := { g with child := some ⟨some code⟩ }) hi
    exact hg.trans (congrArg Nat.cast (Nat.add_right_cancel h2).symm)

/-- The tools of the generators in their run, each once. -/
theorem nodup_tools (hs : Inv s) : ((s.gens.filter isRunning).map Gen.tool).Nodup := by
  rw [List.nodup_iff_count_le_one]
  intro t
  have h1 : inRun s t ≤ 1 := by rw [hs.flag]; exact Bool.toNat_le _
  have h2 : ((s.gens.filter isRunning).map Gen.tool).count t = inRun s t := by
    rw [List.count_eq_countP, List.countP_map, List.countP_filter]
    apply List.countP_congr
    intro g _
    simp [isRunning]
  rw [h2]; exact h1

/-- A flag is set exactly for those tools. -/
theorem running_iff (hs : Inv s) (t : Tool) :
    s.app.running t = true ↔ t ∈ (s.gens.filter isRunning).map Gen.tool := by
  have hf := hs.flag t
  have hpos : s.app.running t = true ↔ 0 < inRun s t := by
    rw [hf]
    cases s.app.running t <;> simp
  rw [hpos, inRun, List.countP_pos_iff, List.mem_map]
  constructor
  · rintro ⟨g, hg, hp⟩
    obtain ⟨ht, hph⟩ := of_decide_eq_true hp
    exact ⟨g, List.mem_filter.mpr ⟨hg, by simpa [isRunning] using hph⟩, ht⟩
  · rintro ⟨g, hg, ht⟩
    obtain ⟨hg, hph⟩ := List.mem_filter.mp hg
    exact ⟨g, hg, by simpa [isRunning, ht] using hph⟩

theorem consistent_of_gauged (hs : Gauged s) : Consistent s := by
  have hset : {t | s.app.running t = true} =
      (((s.gens.filter isRunning).map Gen.tool).toFinset : Set Tool) := by
    ext t
    simp only [Set.mem_ofPred_eq, List.coe_toFinset, running_iff hs.inv t]
  refine ⟨hset ▸ Finset.finite_toSet _, ?_, hs.gauge, fun t => ?_⟩
  · rw [hs.gauge, hset, Set.ncard_coe_finset, List.toFinset_card_of_nodup (nodup_tools hs.inv),
      List.length_map, List.countP_eq_length_filter]
  · rw [hs.inv.flag]
    exact Bool.toNat_le _

theorem leavesAlone (s : Sys Tool Summary) (l : Lbl Tool) : LeavesAlone host s l := by
  cases l with
  | request t d => trivial
  | reap i code => trivial
  | resume i r env =>
    intro g hg hrej s' h
    obtain ⟨g', x, hi, -, hm⟩ := step_resume h
    rw [hi] at hg
    cases hg
    cases hm with
    | outside _ _ _ ha _ _ _ => exact ha
    | enters _ _ hpc hfree _ _ _ _ _ =>
      rcases hrej with hp | ⟨-, hrun⟩
      · rw [hpc] at hp; cases hp
      · rw [hfree] at hrun; cases hrun
    | inside _ hph _ => rcases hrej with hp | ⟨hp, -⟩ <;> rw [hp] at hph <;> cases hph
    | leaves _ hph _ _ _ _ _ _ => rcases hrej with hp | ⟨hp, -⟩ <;> rw [hp] at hph <;> cases hph
    | ends _ hpc ha _ _ _ _ => exact ha

/-- **Run state.** From the start of the server and in any interleaving, every
state is consistent, and no step of a rejected request changes the shared state. -/
theorem runState_consistent (host : Host Tool Summary) (ls : List (Lbl Tool)) :
    Always (step host) Consistent start ls ∧ Along (step host) (LeavesAlone host) start ls := by
  have hI : Always (step host) Gauged start ls :=
    inv_always (fun _ _ _ hs h => gauged_step hs h) gauged_start ls
  exact ⟨hI.mono fun _ => consistent_of_gauged, along_of_always (fun s l _ => leavesAlone s l) hI⟩

end EbpfDemo.L5Concurrency.RunLock
