import EbpfDemo.L2Kernel.DiskIoSched

/-!
# disk_io_sched: five aggregates of one latency

A completion that finds a time of at most 10 s ago adds the latency to a sum, a number
and a maximum, and to a sum and a number of its PID. The handlers are called in any
order, from any PIDs and CPUs: a completion may find the time of another request, of
none, or of one completed before.

* `complete_counted`, `complete_skipped`: all five aggregates take the same latency, or
  none of them does;
* `aggregates_consistent`: in every state of a run in which no insert fails and neither
  the total latency nor the number of latencies reaches 2^64, the sums and numbers agree,
  and the sum lies between the maximum and the number times it;
* `aggregates_wrap`: 2^64 latencies, all but one of 0 ns, make a number of 0.
-/
namespace EbpfDemo.L2Kernel

open EbpfDemo.Core

namespace IoSched

/-- The latency a completion counts, if any. -/
def counts (s : IoSched) (c : Task) (now : UInt64) : Option UInt64 :=
  (s.rqIssueTs.lookupElem c.key).bind fun start =>
    if now - start > limit then none else some (now - start)

variable {s : IoSched} {c : Task} {now delta : UInt64}

theorem counts_le (h : s.counts c now = some delta) : delta ≤ limit := by
  obtain ⟨start, -, hs⟩ := Option.bind_eq_some_iff.mp h
  split at hs
  · cases hs
  · cases hs; exact UInt64.not_lt.mp ‹_›

theorem complete_skipped (h : s.counts c now = none) :
    (s.handleRqComplete c now).ioLatencyStats = s.ioLatencyStats ∧
    (s.handleRqComplete c now).pidIoLatency = s.pidIoLatency ∧
    (s.handleRqComplete c now).pidIoCount = s.pidIoCount := by
  unfold handleRqComplete
  unfold counts at h
  cases hl : s.rqIssueTs.lookupElem c.key with
  | none => exact ⟨rfl, rfl, rfl⟩
  | some start =>
    rw [hl, Option.bind_some] at h
    split at h
    · rename_i hd
      simp only [if_pos hd, and_self]
    · cases h

theorem complete_counted (h : s.counts c now = some delta) :
    (s.handleRqComplete c now).ioLatencyStats = addStats s.ioLatencyStats delta ∧
    (s.handleRqComplete c now).pidIoLatency =
      countEvent (· + delta) delta .any s.pidIoLatency c.pid ∧
    (s.handleRqComplete c now).pidIoCount = countEvent (· + 1) 1 .any s.pidIoCount c.pid := by
  unfold handleRqComplete
  unfold counts at h
  cases hl : s.rqIssueTs.lookupElem c.key with
  | none => rw [hl] at h; cases h
  | some start =>
    rw [hl, Option.bind_some] at h
    split at h
    · cases h
    · rename_i hd
      cases h
      simp only [if_neg hd, and_self]

/-- The five aggregates fit together. -/
structure Consistent (s : IoSched) : Prop where
  latency : s.pidIoLatency.total = stat s.ioLatencyStats 0
  count : s.pidIoCount.total = stat s.ioLatencyStats 1
  keys : ∀ p, p ∈ s.pidIoLatency.keys ↔ p ∈ s.pidIoCount.keys
  max_le : stat s.ioLatencyStats 2 ≤ stat s.ioLatencyStats 0
  le_mul : stat s.ioLatencyStats 0 ≤ stat s.ioLatencyStats 1 * stat s.ioLatencyStats 2
  mul_le : stat s.ioLatencyStats 1 * stat s.ioLatencyStats 2 ≤ stat s.ioLatencyStats 1 * 10 ^ 10

theorem Consistent.of_eq {s' : IoSched} (h : Consistent s)
    (hstats : s'.ioLatencyStats = s.ioLatencyStats) (hlat : s'.pidIoLatency = s.pidIoLatency)
    (hcount : s'.pidIoCount = s.pidIoCount) : Consistent s' := by
  refine ⟨?_, ?_, ?_, ?_, ?_, ?_⟩
  · rw [hlat, hstats]; exact h.latency
  · rw [hcount, hstats]; exact h.count
  · rw [hlat, hcount]; exact h.keys
  · rw [hstats]; exact h.max_le
  · rw [hstats]; exact h.le_mul
  · rw [hstats]; exact h.mul_le

end IoSched

namespace IoAggregates

open IoSched

/-- A call of a handler. -/
inductive Call where
  | issue (c : Task) (ts : UInt64)
  | complete (c : Task) (now : UInt64)

/-- The programs, the clock, and the total and the number of the latencies counted. -/
structure State where
  sched : IoSched
  clock : UInt64
  spent : Nat
  number : Nat

def start (sched : IoSched) : State := ⟨sched, 0, 0, 0⟩

def State.complete (s : State) (c : Task) (now : UInt64) : State where
  sched := s.sched.handleRqComplete c now
  clock := now
  spent := s.spent + ((s.sched.counts c now).getD 0).toNat
  number := s.number + if (s.sched.counts c now).isSome then 1 else 0

def step (s : State) : Call → Option State
  | .issue c ts => some { s with sched := s.sched.handleRqIssue c ts, clock := ts }
  | .complete c now => some (s.complete c now)

/-- The clock does not go back, no insert fails, and the total latency stays below
2^64 ns. -/
def Legal (s : State) : Call → Prop
  | .issue c ts => s.clock ≤ ts ∧ HasRoom s.sched.rqIssueTs c.key
  | .complete c now => s.clock ≤ now ∧
      (s.sched.counts c now ≠ none →
        HasRoom s.sched.pidIoLatency c.pid ∧ HasRoom s.sched.pidIoCount c.pid) ∧
      (s.complete c now).spent < 2 ^ 64

/-- So does the number of latencies. -/
def Few (s : State) : Call → Prop
  | .issue .. => True
  | .complete c now => (s.complete c now).number < 2 ^ 64

/-- The aggregates fit together, and are what was counted. -/
structure Inv (s : State) : Prop where
  consistent : Consistent s.sched
  spent : stat s.sched.ioLatencyStats 0 = s.spent
  number : stat s.sched.ioLatencyStats 1 = s.number
  max_le : stat s.sched.ioLatencyStats 2 ≤ 10 ^ 10

theorem inv_start (b : UInt64 → Nat) (bl bc : UInt32 → Nat) : Inv (start (.init b bl bc)) :=
  ⟨⟨rfl, rfl, fun _ => Iff.rfl, Nat.le_refl _, Nat.le_refl _, Nat.zero_le _⟩, rfl, rfl,
    Nat.zero_le _⟩

section
variable {s : State} {c : Task} {now delta : UInt64}

/-- A completion that counts nothing. -/
theorem inv_skipped (hI : Inv s) (h : s.sched.counts c now = none) : Inv (s.complete c now) := by
  obtain ⟨hstats, hlat, hcount⟩ := complete_skipped h
  refine ⟨hI.consistent.of_eq hstats hlat hcount, ?_, ?_, ?_⟩
  · show stat (s.sched.handleRqComplete c now).ioLatencyStats 0 = s.spent + _
    rw [hstats, h, hI.spent]; rfl
  · show stat (s.sched.handleRqComplete c now).ioLatencyStats 1 = s.number + _
    rw [hstats, h, hI.number]; rfl
  · show stat (s.sched.handleRqComplete c now).ioLatencyStats 2 ≤ _
    rw [hstats]
    exact hI.max_le

/-- What one latency does to the three statistics when neither of the two wraps. -/
theorem stats_counted (hI : Inv s) (hs : s.spent + delta.toNat < 2 ^ 64)
    (hn : s.number + 1 < 2 ^ 64) :
    stat (addStats s.sched.ioLatencyStats delta) 0 = stat s.sched.ioLatencyStats 0 + delta.toNat ∧
    stat (addStats s.sched.ioLatencyStats delta) 1 = stat s.sched.ioLatencyStats 1 + 1 ∧
    stat (addStats s.sched.ioLatencyStats delta) 2 =
      max delta.toNat (stat s.sched.ioLatencyStats 2) := by
  obtain ⟨h0, h1, h2⟩ := stat_addStats s.sched.ioLatencyStats delta
  refine ⟨?_, ?_, h2⟩
  · rw [h0, Nat.mod_eq_of_lt]
    rw [hI.spent]; exact hs
  · rw [h1, Nat.mod_eq_of_lt]
    rw [hI.number]; exact hn

/-- The new latency is at most the new maximum, and so were all before. -/
theorem bounds_counted {sum number most : Nat} (d : Nat) (hmax : most ≤ sum)
    (hmul : sum ≤ number * most) :
    max d most ≤ sum + d ∧ sum + d ≤ (number + 1) * max d most := by
  refine ⟨by omega, ?_⟩
  calc sum + d ≤ number * max d most + max d most :=
        Nat.add_le_add (hmul.trans (Nat.mul_le_mul_left number (Nat.le_max_right d most)))
          (Nat.le_max_left d most)
    _ = (number + 1) * max d most := (Nat.succ_mul number _).symm

/-- A completion that counts a latency. -/
theorem inv_counted (hI : Inv s) (h : s.sched.counts c now = some delta)
    (hl : HasRoom s.sched.pidIoLatency c.pid) (hc : HasRoom s.sched.pidIoCount c.pid)
    (hs : s.spent + delta.toNat < 2 ^ 64) (hn : s.number + 1 < 2 ^ 64) :
    Inv (s.complete c now) := by
  obtain ⟨hstats, hlat, hcount⟩ := complete_counted h
  obtain ⟨h0, h1, h2⟩ := stats_counted hI hs hn
  obtain ⟨⟨qlat, qcount, qkeys, qmax, qmul, -⟩, qs, qn, qlim⟩ := hI
  obtain ⟨hge, hle⟩ := bounds_counted delta.toNat qmax qmul
  have hlimit : delta.toNat ≤ 10 ^ 10 := UInt64.le_iff_toNat_le.mp (counts_le h)
  rw [← hstats] at h0 h1 h2
  have hmax : max delta.toNat (stat s.sched.ioLatencyStats 2) ≤ 10 ^ 10 := max_le hlimit qlim
  refine ⟨⟨?_, ?_, ?_, ?_, ?_, ?_⟩, ?_, ?_, ?_⟩
  · show (s.sched.handleRqComplete c now).pidIoLatency.total = _
    rw [hlat, total_countEvent hl (by rw [qlat, qs]; exact hs), qlat]
    exact h0.symm
  · show (s.sched.handleRqComplete c now).pidIoCount.total = _
    rw [hcount, total_countEvent hc (by rw [qcount, qn]; exact hn), qcount]
    exact h1.symm
  · show ∀ p, p ∈ (s.sched.handleRqComplete c now).pidIoLatency.keys ↔
      p ∈ (s.sched.handleRqComplete c now).pidIoCount.keys
    rw [hlat, hcount]
    exact keys_countEvent hl hc qkeys
  · show stat (s.sched.handleRqComplete c now).ioLatencyStats 2 ≤
      stat (s.sched.handleRqComplete c now).ioLatencyStats 0
    rw [h0, h2]
    exact hge
  · show stat (s.sched.handleRqComplete c now).ioLatencyStats 0 ≤
      stat (s.sched.handleRqComplete c now).ioLatencyStats 1 *
        stat (s.sched.handleRqComplete c now).ioLatencyStats 2
    rw [h0, h1, h2]
    exact hle
  · show stat (s.sched.handleRqComplete c now).ioLatencyStats 1 *
        stat (s.sched.handleRqComplete c now).ioLatencyStats 2 ≤
      stat (s.sched.handleRqComplete c now).ioLatencyStats 1 * 10 ^ 10
    rw [h2]
    exact Nat.mul_le_mul_left _ hmax
  · show stat (s.sched.handleRqComplete c now).ioLatencyStats 0 = s.spent + _
    rw [h0, qs, h]; rfl
  · show stat (s.sched.handleRqComplete c now).ioLatencyStats 1 = s.number + _
    rw [h1, qn, h]; rfl
  · show stat (s.sched.handleRqComplete c now).ioLatencyStats 2 ≤ _
    rw [h2]
    exact hmax

end

/-- **One call.** -/
theorem inv_step (s : State) (l : Call) (s' : State) (hI : Inv s) (h : Legal s l ∧ Few s l)
    (hs : step s l = some s') : Inv s' := by
  cases l with
  | issue c ts =>
    cases hs
    exact ⟨hI.consistent.of_eq rfl rfl rfl, hI.spent, hI.number, hI.max_le⟩
  | complete c now =>
    cases hs
    obtain ⟨⟨-, hroom, hlt⟩, hfew⟩ := h
    cases hc : s.sched.counts c now with
    | none => exact inv_skipped hI hc
    | some delta =>
      obtain ⟨hl, hn⟩ := hroom (by rw [hc]; exact Option.some_ne_none delta)
      have hspent : (s.complete c now).spent = s.spent + delta.toNat := by
        show s.spent + _ = _
        rw [hc]; rfl
      have hnumber : (s.complete c now).number = s.number + 1 := by
        show s.number + _ = _
        rw [hc]; rfl
      exact inv_counted hI hc hl hn (hspent ▸ hlt) (hnumber ▸ hfew)

/-- **Consistent aggregates.** In every state of a run of the handlers in which time
does not go back, no insert fails, and neither the total latency nor the number of
latencies reaches 2^64. -/
theorem aggregates_consistent (b : UInt64 → Nat) (bl bc : UInt32 → Nat) (ls : List Call)
    (h : Along step (fun s l => Legal s l ∧ Few s l) (start (.init b bl bc)) ls) :
    Always step (fun s => Consistent s.sched) (start (.init b bl bc)) ls :=
  (h.always inv_step (inv_start b bl bc)).mono fun _ hI => hI.consistent

/-- Two PIDs, a completion that finds nothing, and an issue that hides the one before. -/
def twoPids : List Call :=
  [.issue ⟨1, 0⟩ 100, .issue ⟨2, 1⟩ 150, .complete ⟨1, 0⟩ 350, .complete ⟨3, 0⟩ 400,
    .issue ⟨2, 1⟩ 500, .complete ⟨2, 1⟩ 600]

theorem aggregates_twoPids :
    (exec step (start (.init (fun _ => 0) (fun _ => 0) fun _ => 0)) twoPids).map
      (fun s => (stat s.sched.ioLatencyStats 0, stat s.sched.ioLatencyStats 1,
        stat s.sched.ioLatencyStats 2, s.sched.pidIoLatency.keys)) =
      some (350, 2, 250, [2, 1]) ∧
    Always step (fun s => Consistent s.sched)
      (start (.init (fun _ => 0) (fun _ => 0) fun _ => 0)) twoPids := by
  refine ⟨by decide +kernel, aggregates_consistent _ _ _ twoPids ?_⟩
  refine ⟨⟨⟨by decide, .inr (by decide)⟩, trivial⟩, fun s hs => ?_⟩
  cases hs
  refine ⟨⟨⟨by decide, .inr (by decide)⟩, trivial⟩, fun s hs => ?_⟩
  cases hs
  refine ⟨⟨⟨by decide, fun _ => ⟨.inr (by decide), .inr (by decide)⟩, by decide +kernel⟩,
    show State.number _ < 2 ^ 64 by decide +kernel⟩, fun s hs => ?_⟩
  cases hs
  refine ⟨⟨⟨by decide, fun h => absurd (by decide) h, by decide +kernel⟩,
    show State.number _ < 2 ^ 64 by decide +kernel⟩, fun s hs => ?_⟩
  cases hs
  refine ⟨⟨⟨by decide, .inl (by decide)⟩, trivial⟩, fun s hs => ?_⟩
  cases hs
  exact ⟨⟨⟨by decide, fun _ => ⟨.inr (by decide), .inr (by decide)⟩, by decide +kernel⟩,
    show State.number _ < 2 ^ 64 by decide +kernel⟩, fun s hs => trivial⟩

/-! ## A number that wraps -/

def task1 : Task := ⟨1, 0⟩

/-- Request 1 takes from `ts` to `now`. -/
def turn (ts now : UInt64) : List Call := [.issue task1 ts, .complete task1 now]

/-- Nothing is in flight, and there is room for PID 1. -/
structure Ready (s : State) : Prop where
  empty : s.sched.rqIssueTs.elems = []
  capacity : s.sched.rqIssueTs.maxEntries = 10240
  roomLatency : HasRoom s.sched.pidIoLatency 1
  roomCount : HasRoom s.sched.pidIoCount 1

theorem Ready.turn {s : State} (h : Ready s) (ts now : UInt64) (hts : s.clock ≤ ts)
    (hnow : ts ≤ now) (hlim : now - ts ≤ limit) (hspent : s.spent + (now - ts).toNat < 2 ^ 64) :
    ∃ s', exec step s (turn ts now) = some s' ∧ Along step Legal s (turn ts now) ∧ Ready s' ∧
      s'.clock = now ∧ s'.spent = s.spent + (now - ts).toNat ∧
      stat s'.sched.ioLatencyStats 0 =
        (stat s.sched.ioLatencyStats 0 + (now - ts).toNat) % 2 ^ 64 ∧
      stat s'.sched.ioLatencyStats 1 = (stat s.sched.ioLatencyStats 1 + 1) % 2 ^ 64 := by
  have habs : task1.key ∉ s.sched.rqIssueTs.keys := by
    rw [HashMap.keys_eq_nil_iff.mpr h.empty]; exact List.not_mem_nil
  have hroom : ¬ s.sched.rqIssueTs.Full := by
    unfold HashMap.Full HashMap.size
    rw [h.capacity, h.empty]; decide
  have hput : s.sched.rqIssueTs.update task1.key ts .any = s.sched.rqIssueTs.put task1.key ts :=
    HashMap.update_absent habs (show UpdateFlag.any ≠ .exist by decide) hroom ts
  -- the state in which the request is in flight
  let m : State := { s with sched := s.sched.handleRqIssue task1 ts, clock := ts }
  have hl : m.sched.rqIssueTs.lookupElem task1.key = some ts := by
    show (s.sched.rqIssueTs.update task1.key ts .any).lookupElem task1.key = _
    rw [hput, HashMap.lookupElem_put_self]
  have hc : m.sched.counts task1 now = some (now - ts) := by
    unfold counts
    rw [hl, Option.bind_some, if_neg (UInt64.not_lt.mpr hlim)]
  obtain ⟨hstats, hlat, hcount⟩ := complete_counted hc
  have hq : (m.sched.handleRqComplete task1 now).rqIssueTs =
      (s.sched.rqIssueTs.put task1.key ts).deleteElem task1.key := by
    unfold handleRqComplete
    rw [hl]
    simp only [if_neg (UInt64.not_lt.mpr hlim)]
    exact congrArg (HashMap.deleteElem · task1.key) hput
  have hsp : (m.complete task1 now).spent = s.spent + (now - ts).toNat := by
    show s.spent + _ = _
    rw [hc]; rfl
  obtain ⟨h0, h1, -⟩ := stat_addStats s.sched.ioLatencyStats (now - ts)
  refine ⟨m.complete task1 now, rfl, ?_, ⟨?_, ?_, ?_, ?_⟩, rfl, hsp, ?_, ?_⟩
  · refine ⟨⟨hts, .inr hroom⟩, fun s' hs => ?_⟩
    cases hs
    exact ⟨⟨hnow, fun _ => ⟨h.roomLatency, h.roomCount⟩, by rw [hsp]; exact hspent⟩,
      fun _ _ => trivial⟩
  · show (m.sched.handleRqComplete task1 now).rqIssueTs.elems = []
    rw [hq]
    show Assoc.erase task1.key (Assoc.place _ (task1.key, ts)
      (Assoc.erase task1.key s.sched.rqIssueTs.elems)) = []
    rw [h.empty]
    simp [Assoc.erase, Assoc.place]
  · show (m.sched.handleRqComplete task1 now).rqIssueTs.maxEntries = 10240
    rw [hq]
    exact h.capacity
  · show HasRoom (m.sched.handleRqComplete task1 now).pidIoLatency 1
    rw [hlat]
    exact .inl (mem_keys_countEvent (by decide) h.roomLatency)
  · show HasRoom (m.sched.handleRqComplete task1 now).pidIoCount 1
    rw [hcount]
    exact .inl (mem_keys_countEvent (by decide) h.roomCount)
  · show stat (m.sched.handleRqComplete task1 now).ioLatencyStats 0 = _
    rw [hstats]
    exact h0
  · show stat (m.sched.handleRqComplete task1 now).ioLatencyStats 1 = _
    rw [hstats]
    exact h1

/-- One request of 1 ns, and `n` of 0 ns. -/
def turns (n : Nat) : List Call := turn 0 1 ++ (List.replicate n (turn 1 1)).flatten

theorem turns_succ (n : Nat) : turns (n + 1) = turns n ++ turn 1 1 := by
  unfold turns
  rw [List.replicate_succ', List.flatten_append, List.append_assoc]
  simp

theorem turns_run (n : Nat) : ∃ s,
    exec step (start (.init (fun _ => 0) (fun _ => 0) fun _ => 0)) (turns n) = some s ∧
    Along step Legal (start (.init (fun _ => 0) (fun _ => 0) fun _ => 0)) (turns n) ∧
    Ready s ∧ s.clock = 1 ∧ s.spent = 1 ∧ stat s.sched.ioLatencyStats 0 = 1 ∧
    stat s.sched.ioLatencyStats 1 = (n + 1) % 2 ^ 64 := by
  induction n with
  | zero =>
    have h0 : Ready (start (.init (fun _ => 0) (fun _ => 0) fun _ => 0)) :=
      ⟨rfl, rfl, .inr (by decide), .inr (by decide)⟩
    obtain ⟨s, hx, hl, hr, hc, hs, hs0, hs1⟩ :=
      h0.turn 0 1 (by decide) (by decide) (by decide) (by decide)
    exact ⟨s, hx, hl, hr, hc, hs, hs0, hs1⟩
  | succ n ih =>
    obtain ⟨s, hx, hl, hr, hc, hs, hs0, hs1⟩ := ih
    obtain ⟨s', hx', hl', hr', hc', hs', hs0', hs1'⟩ :=
      hr.turn 1 1 (by rw [hc]; decide) (by decide) (by decide)
        (by rw [hs]; decide)
    rw [turns_succ]
    refine ⟨s', exec_trans hx hx', (along_append hx).mpr ⟨hl, hl'⟩, hr', hc', ?_, ?_, ?_⟩
    · rw [hs', hs]; rfl
    · rw [hs0', hs0]; rfl
    · rw [hs1', hs1]
      exact Nat.mod_add_mod _ _ _

/-- **Counterexample.** The total latency is 1 ns. After 2^64 latencies their number is
0, and the sum exceeds the number times the maximum. -/
theorem aggregates_wrap :
    Along step Legal (start (.init (fun _ => 0) (fun _ => 0) fun _ => 0)) (turns (2 ^ 64 - 1)) ∧
    ∃ s, exec step (start (.init (fun _ => 0) (fun _ => 0) fun _ => 0)) (turns (2 ^ 64 - 1)) =
        some s ∧ s.spent = 1 ∧ stat s.sched.ioLatencyStats 0 = 1 ∧
      stat s.sched.ioLatencyStats 1 = 0 ∧ ¬ Consistent s.sched := by
  obtain ⟨s, hx, hl, -, -, hs, hs0, hs1⟩ := turns_run (2 ^ 64 - 1)
  have h1 : stat s.sched.ioLatencyStats 1 = 0 := hs1
  refine ⟨hl, s, hx, hs, hs0, h1, fun h => ?_⟩
  have := h.le_mul
  rw [hs0, h1, Nat.zero_mul] at this
  exact absurd this (by decide)

end IoAggregates
end EbpfDemo.L2Kernel
