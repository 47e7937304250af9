import EbpfDemo.Core.Totals
import EbpfDemo.L2Kernel.CpuUsage

/-!
# cpu_usage: the two views

`handle_sched_switch` adds the time a task was on a CPU twice, to `cpu_time`
under its PID and to `cpu_busy` under the CPU. `cpu_busy` is an array and takes
every addition. `cpu_time` is a hash map that nothing is ever deleted from; once
it holds `max_entries` PIDs the insert for a new one fails, its result is
ignored, and the time is counted in one view only. The events here are any
context switches at all: the program relies on nothing else.

* `views_iff`: the two maps add up to the same throughout a run exactly when
  every event that counts time finds its PID in `cpu_time`, or room for it, or
  no time to count;
* `views_churn`: 10,241 short-lived tasks one after the other.
-/
namespace EbpfDemo.L2Kernel

open EbpfDemo.Core

namespace Views

/-- The program and the time of the last event. -/
structure State where
  prog : CpuUsage
  clock : UInt64

def start (p : CpuUsage) : State := ⟨p, 0⟩

/-- An event on a CPU the array knows, no earlier than the last one. -/
def step (s : State) (e : SwitchEvent) : Option State :=
  if e.cpu.toNat < 256 ∧ s.clock ≤ e.now then
    some ⟨s.prog.handleSchedSwitch e.cpu e.prev e.next e.now, e.now⟩
  else none

/-- The time over all PIDs is the busy time over all CPUs. -/
def Agree (s : State) : Prop := s.prog.cpuTime.total ≡ s.prog.cpuBusy.total [MOD 2 ^ 64]

/-- What the event counts goes into both maps, or it is nothing. -/
def Counted (s : State) (e : SwitchEvent) : Prop :=
  ∀ start ∈ s.prog.found e.prev, HasRoom s.prog.cpuTime e.prev ∨ e.now = start

instance (s : State) (e : SwitchEvent) : Decidable (Counted s e) :=
  Option.decidableForallMem (s.prog.found e.prev)

theorem step_some {s s' : State} {e : SwitchEvent} (h : step s e = some s') :
    e.cpu.toNat < 256 ∧
      s' = ⟨s.prog.handleSchedSwitch e.cpu e.prev e.next e.now, e.now⟩ := by
  unfold step at h
  split at h
  · rename_i hl; cases h; exact ⟨hl.1, rfl⟩
  · cases h

/-- `cpu_time` takes what it has room for. -/
theorem total_count {m : HashMap UInt32 UInt64} {p : UInt32} (h : HasRoom m p) (d : UInt64) :
    (countEvent (· + d) d .any m p).total ≡ m.total + d.toNat [MOD 2 ^ 64] := by
  rw [HashMap.total_eq_weigh, HashMap.total_eq_weigh]
  exact weigh_countEvent (fun v => toNat_add_modEq v d) rfl h

/-- **One event** keeps the views equal exactly when it is counted in both. -/
theorem agree_step {s s' : State} {e : SwitchEvent} (hA : Agree s) (h : step s e = some s') :
    Agree s' ↔ Counted s e := by
  obtain ⟨hcpu, rfl⟩ := step_some h
  unfold Agree Counted
  rw [CpuUsage.cpuTime_handle, CpuUsage.cpuBusy_handle]
  cases hf : s.prog.found e.prev with
  | none => exact ⟨fun _ _ h => (by cases h), fun _ => hA⟩
  | some t =>
    have hbusy := ArrayMap.total_modifyElem (m := s.prog.cpuBusy) hcpu (e.now - t)
    simp only [Option.mem_def, Option.some.injEq, forall_eq']
    by_cases hr : HasRoom s.prog.cpuTime e.prev
    · refine ⟨fun _ => .inl hr, fun _ => ?_⟩
      exact ((total_count hr _).trans (hA.add_right _)).trans hbusy.symm
    · have h0 : e.now - t = 0 ↔ e.now = t := by rw [UInt64.sub_eq_iff_eq_add, UInt64.zero_add]
      rw [countEvent_noRoom hr, or_iff_right hr, ← h0, ← modEq_add_right_iff hA (e.now - t)]
      exact ⟨fun h => h.trans hbusy, fun h => h.trans hbusy.symm⟩

theorem agree_start (bs bt : UInt32 → Nat) : Agree (start (.init bs bt)) := by
  unfold Agree
  have hb : (start (.init bs bt)).prog.cpuBusy.total = 0 := ArrayMap.total_replicate 256
  rw [hb]; rfl

/-- **The two views.** Over any run of context switches the time over all PIDs is
the busy time over all CPUs, modulo 2^64, in every state exactly when every
event finds room for the time it counts. -/
theorem views_iff (bs bt : UInt32 → Nat) (es : List SwitchEvent) {s : State}
    (h : exec step (start (.init bs bt)) es = some s) :
    Always step Agree (start (.init bs bt)) es ↔ Along step Counted (start (.init bs bt)) es :=
  always_iff_along (I := fun _ => True) (fun _ _ _ _ _ => trivial)
    (fun _ _ _ _ hA hs => agree_step hA hs) trivial (agree_start bs bt) h

/-- PID 1 moves from CPU 0 to CPU 1. -/
def moving : List SwitchEvent :=
  [⟨0, 0, 1, 100⟩, ⟨0, 1, 0, 250⟩, ⟨1, 0, 1, 300⟩, ⟨1, 1, 0, 400⟩]

theorem views_move :
    (exec step (start (.init (fun _ => 0) fun _ => 0)) moving).map
      (fun s => (s.prog.cpuTime.total, s.prog.cpuBusy.total)) = some (250, 250) ∧
    Always step Agree (start (.init (fun _ => 0) fun _ => 0)) moving := by
  have hx : (exec step (start (.init (fun _ => 0) fun _ => 0)) moving).map
      (fun s => (s.prog.cpuTime.total, s.prog.cpuBusy.total)) = some (250, 250) := by
    decide +kernel
  obtain ⟨s, hs, -⟩ := Option.map_eq_some_iff.mp hx
  exact ⟨hx, (views_iff _ _ moving hs).mpr (by decide +kernel)⟩

/-! ## More tasks than the map has room for -/

/-- Task `i` hands CPU 0 to task `i + 1`, one nanosecond after the task before. -/
def handOver (i : Nat) : SwitchEvent := ⟨0, .ofNat i, .ofNat (i + 1), .ofNat i⟩

def churn (n : Nat) : List SwitchEvent := (List.range n).map handOver

theorem churn_succ (n : Nat) : churn (n + 1) = churn n ++ [handOver n] := by
  unfold churn
  rw [List.range_succ, List.map_append]; rfl

/-- After `n + 1` hand-overs task `n + 1` is on the CPU, and each of the `n` tasks
before it has had its nanosecond. -/
structure Churned (n : Nat) (s : State) : Prop where
  clock : s.clock = .ofNat n
  started : s.prog.cpuStart.elems = [(.ofNat (n + 1), .ofNat n)]
  roomy : s.prog.cpuStart.maxEntries = 10240
  capacity : s.prog.cpuTime.maxEntries = 10240
  size : s.prog.cpuTime.size = n
  old : ∀ p ∈ s.prog.cpuTime.keys, p.toNat ≤ n
  agree : Agree s

section
variable {n : Nat} {s : State}

theorem toNat_pid (h : n ≤ 10242) : (UInt32.ofNat n).toNat = n := by
  rw [UInt32.toNat_ofNat']; omega

theorem pid_pos (h : n ≤ 10241) : UInt32.ofNat (n + 1) > 0 := by
  rw [gt_iff_lt, UInt32.lt_iff_toNat_lt, toNat_pid (by omega)]; exact Nat.succ_pos n

theorem Churned.found (h : Churned n s) (hn : n ≤ 10240) :
    s.prog.found (.ofNat (n + 1)) = some (.ofNat n) := by
  unfold CpuUsage.found HashMap.lookupElem
  rw [if_pos (pid_pos (by omega)), h.started]
  simp [Assoc.find]

theorem Churned.absent (h : Churned n s) (hn : n ≤ 10240) :
    UInt32.ofNat (n + 1) ∉ s.prog.cpuTime.keys := by
  intro hk
  have hle := h.old _ hk
  rw [toNat_pid (by omega)] at hle
  omega

/-- The start times after a hand-over: the old one is gone, the new one is there. -/
theorem Churned.started_next (h : Churned n s) (hn : n ≤ 10240) :
    (s.prog.handleSchedSwitch 0 (.ofNat (n + 1)) (.ofNat (n + 2)) (.ofNat (n + 1))).cpuStart.elems =
        [(.ofNat (n + 2), .ofNat (n + 1))] ∧
    (s.prog.handleSchedSwitch 0 (.ofNat (n + 1)) (.ofNat (n + 2))
      (.ofNat (n + 1))).cpuStart.maxEntries = 10240 := by
  have hl : s.prog.left (.ofNat (n + 1)) = s.prog.cpuStart.deleteElem (.ofNat (n + 1)) :=
    if_pos (pid_pos (by omega))
  have hnil : (s.prog.cpuStart.deleteElem (.ofNat (n + 1))).elems = [] :=
    HashMap.elems_deleteElem_head h.started
  have hroom : ¬ (s.prog.cpuStart.deleteElem (.ofNat (n + 1))).Full := by
    unfold HashMap.Full HashMap.size
    rw [hnil]
    show ¬ s.prog.cpuStart.maxEntries ≤ 0
    rw [h.roomy]; decide
  rw [CpuUsage.cpuStart_handle, if_pos (pid_pos (by omega)), hl,
    HashMap.update_absent (by rw [HashMap.keys_eq_nil_iff.mpr hnil]; exact List.not_mem_nil)
      (by decide) hroom]
  refine ⟨?_, h.roomy⟩
  show Assoc.place _ _ (Assoc.erase _ (s.prog.cpuStart.deleteElem _).elems) = _
  rw [hnil]; rfl

theorem Churned.step_next (h : Churned n s) (hn : n ≤ 10240) :
    step s (handOver (n + 1)) = some ⟨s.prog.handleSchedSwitch 0 (.ofNat (n + 1)) (.ofNat (n + 2))
      (.ofNat (n + 1)), .ofNat (n + 1)⟩ := by
  refine if_pos ⟨show (0 : UInt32).toNat < 256 by decide, ?_⟩
  rw [h.clock]
  show UInt64.ofNat n ≤ UInt64.ofNat (n + 1)
  rw [UInt64.le_iff_toNat_le, UInt64.toNat_ofNat', UInt64.toNat_ofNat']
  omega

/-- As long as there is room the next task is counted in both views. -/
theorem Churned.next (h : Churned n s) (hn : n < 10240) :
    ∃ s', step s (handOver (n + 1)) = some s' ∧ Churned (n + 1) s' := by
  have hstep := h.step_next (Nat.le_of_lt hn)
  have hroom : ¬ s.prog.cpuTime.Full := by
    unfold HashMap.Full
    rw [h.capacity, h.size]; omega
  have habs := h.absent (Nat.le_of_lt hn)
  have htime : (s.prog.handleSchedSwitch 0 (.ofNat (n + 1)) (.ofNat (n + 2))
      (.ofNat (n + 1))).cpuTime = s.prog.cpuTime.put (.ofNat (n + 1))
        (.ofNat (n + 1) - .ofNat n) := by
    rw [CpuUsage.cpuTime_handle, h.found (Nat.le_of_lt hn)]
    exact countEvent_absent (HashMap.lookupElem_eq_none.mpr habs) (by decide) hroom
  obtain ⟨hstarted, hroomy⟩ := h.started_next (Nat.le_of_lt hn)
  refine ⟨_, hstep, rfl, hstarted, hroomy, ?_, ?_, ?_, ?_⟩
  · rw [htime]; exact h.capacity
  · rw [htime, HashMap.size_put_absent habs, h.size]
  · intro p hp
    rw [htime] at hp
    rcases HashMap.mem_keys_put.mp hp with rfl | hp
    · rw [toNat_pid (by omega)]
    · exact Nat.le_succ_of_le (h.old p hp)
  · exact (agree_step h.agree hstep).mpr fun _ _ => .inl (.inr hroom)

/-- When `cpu_time` is full the next task is counted under its CPU only. -/
theorem Churned.disagree (h : Churned 10240 s) :
    ∃ s', step s (handOver 10241) = some s' ∧ ¬ Agree s' := by
  have hstep := h.step_next (Nat.le_refl _)
  refine ⟨_, hstep, fun hA => ?_⟩
  have hc := (agree_step h.agree hstep).mp hA (.ofNat 10240) (h.found (Nat.le_refl _))
  rcases hc with (hmem | hroom) | htime
  · exact h.absent (Nat.le_refl _) hmem
  · apply hroom
    unfold HashMap.Full
    rw [h.capacity, h.size]
  · revert htime; decide

end

theorem churned_zero : ∃ s, step (start (.init (fun _ => 0) fun _ => 0)) (handOver 0) = some s ∧
    Churned 0 s := by
  have hf : (CpuUsage.init (fun _ => 0) fun _ => 0).found (handOver 0).prev = none := rfl
  refine ⟨_, rfl, rfl, rfl, rfl, rfl, rfl, List.forall_mem_nil _, ?_⟩
  refine (agree_step (agree_start (fun _ => 0) fun _ => 0) (e := handOver 0) rfl).mpr ?_
  intro t ht
  rw [start, hf] at ht; cases ht

theorem churn_run (n : Nat) (hn : n ≤ 10240) :
    ∃ s, exec step (start (.init (fun _ => 0) fun _ => 0)) (churn (n + 1)) = some s ∧
      Churned n s := by
  induction n with
  | zero =>
    obtain ⟨s, hs, hc⟩ := churned_zero
    exact ⟨s, by simp [churn, exec_cons, hs], hc⟩
  | succ n ih =>
    obtain ⟨s, hs, hc⟩ := ih (Nat.le_of_succ_le hn)
    obtain ⟨s', hs', hc'⟩ := hc.next hn
    refine ⟨s', ?_, hc'⟩
    rw [churn_succ (n + 1)]
    exact exec_trans hs (by rw [exec_cons, hs']; rfl)

/-- **Counterexample.** 10,241 tasks follow each other on CPU 0, each for one
nanosecond. The last of them is counted under the CPU and under no PID. -/
theorem views_churn :
    ∃ s, exec step (start (.init (fun _ => 0) fun _ => 0)) (churn 10242) = some s ∧ ¬ Agree s := by
  obtain ⟨s, hs, hc⟩ := churn_run 10240 (Nat.le_refl _)
  obtain ⟨s', hs', hA⟩ := hc.disagree
  refine ⟨s', ?_, hA⟩
  rw [churn_succ 10241]
  exact exec_trans hs (by rw [exec_cons, hs']; rfl)

end Views
end EbpfDemo.L2Kernel
