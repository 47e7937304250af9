import Mathlib.Algebra.Ring.Nat
import EbpfDemo.Core.ArrayMap
import EbpfDemo.Core.Machine
import EbpfDemo.Core.Stopwatch
import EbpfDemo.L2Kernel.Counters

/-!
# disk_io_sched: block request latency

`handle_rq_issue` stores the issue time under the PID and CPU it runs on,
`handle_rq_complete` looks for one under the PID and CPU *it* runs on. The
request itself is not part of the key. `Trace` runs the two handlers over any
trace of requests and keeps what they should measure: the issue time of every
request in flight and the latencies of the completed ones.

A completion counts its own latency exactly when the time stored under its PID
and CPU is the issue time of its request (`FindsOwn`; a request that took more
than 10 s must find nothing, or a time that is as old). `ioSched_iff`: the three
statistics are right after every prefix exactly when every completion does.
`always_measured_of_inPlace` is the case the code has in mind: completions run
where the request was issued, and a PID has one request in flight per CPU.
`ioSched_otherCpu`: a completion interrupt on another CPU is not counted.
-/
namespace EbpfDemo.L2Kernel

open EbpfDemo.Core

/-- Where a handler runs: the current PID and CPU. -/
structure Task where
  pid : UInt32
  cpu : UInt32
  deriving DecidableEq

/-- mirrors src/my_tools/disk/disk_io_sched.bpf.c:44, 55 -/
def Task.key (c : Task) : UInt64 := c.pid.toUInt64 <<< 32 ||| c.cpu.toUInt64

theorem Task.key_toNat (c : Task) : c.key.toNat = c.pid.toNat * 2 ^ 32 + c.cpu.toNat := by
  have hp := c.pid.toNat_lt
  have hc := c.cpu.toNat_lt
  unfold Task.key
  rw [UInt64.toNat_or, UInt64.toNat_shiftLeft, UInt32.toNat_toUInt64, UInt32.toNat_toUInt64,
    show (32 : UInt64).toNat % 64 = 32 from rfl, Nat.shiftLeft_eq, Nat.mod_eq_of_lt (by omega),
    ← Nat.shiftLeft_eq, ← Nat.shiftLeft_add_eq_or_of_lt hc]

/-- Different PIDs or CPUs have different keys. -/
theorem Task.key_inj {c d : Task} : c.key = d.key ↔ c = d := by
  refine ⟨fun h => ?_, fun h => congrArg Task.key h⟩
  have hk := congrArg UInt64.toNat h
  rw [key_toNat, key_toNat] at hk
  have hc := c.cpu.toNat_lt
  have hd := d.cpu.toNat_lt
  have hpid : c.pid = d.pid := UInt32.toNat_inj.mp (by omega)
  have hcpu : c.cpu = d.cpu := UInt32.toNat_inj.mp (by omega)
  cases c; cases d; exact congrArg₂ Task.mk hpid hcpu

/-- mirrors src/my_tools/disk/disk_io_sched.bpf.c:9-38 -/
structure IoSched where
  rqIssueTs : HashMap UInt64 UInt64
  ioLatencyStats : ArrayMap UInt64 8
  pidIoLatency : HashMap UInt32 UInt64
  pidIoCount : HashMap UInt32 UInt64

namespace IoSched

/-- 10 seconds. -/
def limit : UInt64 := 10 * 1000 * 1000 * 1000

/-- mirrors src/my_tools/disk/disk_io_sched.bpf.c:40-49 -/
def handleRqIssue (s : IoSched) (c : Task) (ts : UInt64) : IoSched :=
  { s with rqIssueTs := s.rqIssueTs.update c.key ts .any }

/-- mirrors src/my_tools/disk/disk_io_sched.bpf.c:72-95 -/
def addStats (m : ArrayMap UInt64 8) (delta : UInt64) : ArrayMap UInt64 8 :=
  ((m.bump 0 (· + delta) delta).bump 1 (· + 1) 1).bump 2 (fun v => if delta > v then delta else v) delta

/-- mirrors src/my_tools/disk/disk_io_sched.bpf.c:51-112 -/
def handleRqComplete (s : IoSched) (c : Task) (now : UInt64) : IoSched :=
  match s.rqIssueTs.lookupElem c.key with
  | none => s
  | some start =>
    let delta := now - start
    if delta > limit then { s with rqIssueTs := s.rqIssueTs.deleteElem c.key }
    else
      { rqIssueTs := s.rqIssueTs.deleteElem c.key
        ioLatencyStats := addStats s.ioLatencyStats delta
        pidIoLatency := countEvent (· + delta) delta .any s.pidIoLatency c.pid
        pidIoCount := countEvent (· + 1) 1 .any s.pidIoCount c.pid }

/-- Element `i` of the statistics. -/
def stat (m : ArrayMap UInt64 8) (i : UInt32) : Nat := ((m.lookupElem i).getD 0).toNat

/-- Programs as loaded: nothing counted, no time stored. -/
def init (b : UInt64 → Nat) (bl bc : UInt32 → Nat) : IoSched where
  rqIssueTs := .empty b 10240
  ioLatencyStats := Vector.replicate 8 0
  pidIoLatency := .empty bl 10240
  pidIoCount := .empty bc 10240

/-- What a completion does to the statistics. -/
theorem complete_cases (s : IoSched) (c : Task) (now : UInt64) :
    (∀ start, s.rqIssueTs.lookupElem c.key = some start → now - start > limit) ∧
      (handleRqComplete s c now).ioLatencyStats = s.ioLatencyStats ∨
    ∃ start, s.rqIssueTs.lookupElem c.key = some start ∧ now - start ≤ limit ∧
      (handleRqComplete s c now).ioLatencyStats = addStats s.ioLatencyStats (now - start) := by
  unfold handleRqComplete
  cases h : s.rqIssueTs.lookupElem c.key with
  | none => exact .inl ⟨fun _ h => (by cases h), rfl⟩
  | some start =>
    by_cases hd : now - start > limit
    · exact .inl ⟨fun x hx => by cases hx; exact hd, by simp only [if_pos hd]⟩
    · exact .inr ⟨start, rfl, UInt64.not_lt.mp hd, by simp only [if_neg hd]⟩

theorem stat_lt (m : ArrayMap UInt64 8) (i : UInt32) : stat m i < 2 ^ 64 := UInt64.toNat_lt _

/-- One more latency in the statistics. -/
theorem stat_addStats (m : ArrayMap UInt64 8) (delta : UInt64) :
    stat (addStats m delta) 0 = (stat m 0 + delta.toNat) % 2 ^ 64 ∧
    stat (addStats m delta) 1 = (stat m 1 + 1) % 2 ^ 64 ∧
    stat (addStats m delta) 2 = max delta.toNat (stat m 2) := by
  have h0 := m.lookupElem_of_lt (k := 0) (by decide)
  have h1 := m.lookupElem_of_lt (k := 1) (by decide)
  have h2 := m.lookupElem_of_lt (k := 2) (by decide)
  unfold stat addStats
  simp only [ArrayMap.lookupElem_bump]
  rw [h0, h1, h2]
  refine ⟨UInt64.toNat_add _ _, UInt64.toNat_add _ _, ?_⟩
  simp only [reduceIte, Option.map_some, Option.getD_some, show ¬ (2 : UInt32) = 1 by decide,
    show ¬ (2 : UInt32) = 0 by decide]
  split
  · rename_i h; rw [gt_iff_lt, UInt64.lt_iff_toNat_lt] at h; omega
  · rename_i h; rw [gt_iff_lt, UInt64.lt_iff_toNat_lt] at h; omega

end IoSched

/-! ## Traces of requests -/

structure Req where
  id : Nat
  task : Task
  issued : UInt64

/-- The programs, the clock, the requests in flight and the latencies of the
completed requests that took at most 10 s. -/
structure Trace where
  sched : IoSched
  clock : UInt64
  inFlight : List Req
  done : List Nat

inductive RqEvent where
  | issue (id : Nat) (c : Task) (ts : UInt64)
  | complete (id : Nat) (c : Task) (now : UInt64)

namespace Trace

open IoSched

def find (s : Trace) (id : Nat) : Option Req := s.inFlight.find? fun r => r.id = id

/-- The clock does not go back, a request is issued once and completes while it
is in flight. -/
def step (s : Trace) : RqEvent → Option Trace
  | .issue id c ts =>
    if s.clock ≤ ts ∧ s.find id = none then
      some { s with
        sched := s.sched.handleRqIssue c ts
        clock := ts
        inFlight := ⟨id, c, ts⟩ :: s.inFlight }
    else none
  | .complete id c now =>
    match s.find id with
    | none => none
    | some r =>
      if s.clock ≤ now then
        let lat := now.toNat - r.issued.toNat
        some
          { sched := s.sched.handleRqComplete c now
            clock := now
            inFlight := s.inFlight.filter fun r => r.id ≠ id
            done := if lat ≤ limit.toNat then lat :: s.done else s.done }
      else none

def init (sched : IoSched) : Trace := ⟨sched, 0, [], []⟩

/-- The largest element (0 of none). -/
def longest (l : List Nat) : Nat := l.foldr max 0

/-- The statistics are the sum, the number and the maximum of the latencies. -/
def Measured (s : Trace) : Prop :=
  stat s.sched.ioLatencyStats 0 = s.done.sum ∧ stat s.sched.ioLatencyStats 1 = s.done.length ∧
    stat s.sched.ioLatencyStats 2 = longest s.done

/-- The completion of a request finds the request's own issue time, and the
totals do not wrap; one that took more than 10 s finds no time that is less
old. -/
def FindsOwn (s : Trace) : RqEvent → Prop
  | .issue .. => True
  | .complete id c now => ∀ r, s.find id = some r →
      if now.toNat - r.issued.toNat ≤ limit.toNat then
        s.sched.rqIssueTs.lookupElem c.key = some r.issued ∧
          s.done.sum + (now.toNat - r.issued.toNat) < 2 ^ 64 ∧ s.done.length + 1 < 2 ^ 64
      else ∀ start, s.sched.rqIssueTs.lookupElem c.key = some start → now - start > limit

instance (s : Trace) (l : RqEvent) : Decidable (FindsOwn s l) :=
  match l with
  | .issue .. => isTrue trivial
  | .complete id c now =>
    have : Decidable (∀ start, s.sched.rqIssueTs.lookupElem c.key = some start →
        now - start > limit) :=
      Option.decidableForallMem (s.sched.rqIssueTs.lookupElem c.key)
    Option.decidableForallMem (s.find id)

/-- Nothing in flight was issued in the future. -/
def Inv (s : Trace) : Prop := ∀ r ∈ s.inFlight, r.issued ≤ s.clock

/-- The state after request `r` completed as `c` at `now`. -/
def finish (s : Trace) (r : Req) (c : Task) (now : UInt64) : Trace :=
  let lat := now.toNat - r.issued.toNat
  { sched := s.sched.handleRqComplete c now
    clock := now
    inFlight := s.inFlight.filter fun x => x.id ≠ r.id
    done := if lat ≤ limit.toNat then lat :: s.done else s.done }

theorem step_issue {s s' : Trace} {id : Nat} {c : Task} {ts : UInt64}
    (h : step s (.issue id c ts) = some s') :
    s.clock ≤ ts ∧ s.find id = none ∧ s' = { s with
      sched := s.sched.handleRqIssue c ts
      clock := ts
      inFlight := ⟨id, c, ts⟩ :: s.inFlight } := by
  simp only [step] at h
  split at h
  · rename_i hg; cases h; exact ⟨hg.1, hg.2, rfl⟩
  · cases h

theorem step_complete {s s' : Trace} {id : Nat} {c : Task} {now : UInt64}
    (h : step s (.complete id c now) = some s') :
    ∃ r, s.find id = some r ∧ s.clock ≤ now ∧ s' = s.finish r c now := by
  simp only [step] at h
  cases hf : s.find id with
  | none => rw [hf] at h; cases h
  | some r =>
    rw [hf] at h
    have hid : r.id = id := by simpa using List.find?_some hf
    simp only at h
    split at h
    · cases h; exact ⟨r, rfl, ‹_›, by simp only [finish, hid]⟩
    · cases h

theorem inv_step (s : Trace) (l : RqEvent) (s' : Trace) (hI : Inv s) (h : step s l = some s') :
    Inv s' := by
  cases l with
  | issue id c ts =>
    obtain ⟨hc, -, rfl⟩ := step_issue h
    intro r hr
    rcases List.mem_cons.mp hr with rfl | hr
    · exact UInt64.le_refl _
    · exact UInt64.le_trans (hI r hr) hc
  | complete id c now =>
    obtain ⟨r, -, hc, rfl⟩ := step_complete h
    intro x hx
    exact UInt64.le_trans (hI x (List.mem_of_mem_filter hx)) hc

/-- The code's difference is the latency: the clock has not gone back. -/
theorem latency_toNat {s : Trace} (hI : Inv s) {id : Nat} {r : Req} {now : UInt64}
    (hf : s.find id = some r) (hc : s.clock ≤ now) :
    (now - r.issued).toNat = now.toNat - r.issued.toNat :=
  UInt64.toNat_sub_of_le _ _ (UInt64.le_trans (hI r (List.mem_of_find?_eq_some hf)) hc)

section
variable {s : Trace} {id : Nat} {r : Req} {c : Task} {now : UInt64}

/-- A request of at most 10 s is measured when its own time is found. -/
theorem measured_counted (hI : Inv s) (hQ : Measured s) (hf : s.find id = some r)
    (hc : s.clock ≤ now) (hle : now.toNat - r.issued.toNat ≤ limit.toNat) :
    Measured (s.finish r c now) ↔ s.sched.rqIssueTs.lookupElem c.key = some r.issued ∧
      s.done.sum + (now.toNat - r.issued.toNat) < 2 ^ 64 ∧ s.done.length + 1 < 2 ^ 64 := by
  have hlat := latency_toNat hI hf hc
  obtain ⟨q0, q1, q2⟩ := hQ
  have b0 := stat_lt s.sched.ioLatencyStats 0
  have b1 := stat_lt s.sched.ioLatencyStats 1
  unfold Measured finish
  dsimp only
  rw [if_pos hle, List.sum_cons, List.length_cons]
  rcases complete_cases s.sched c now with ⟨hstale, he⟩ | ⟨start, hs, hd, he⟩
  · -- not counted: the number is one short
    rw [he, q1]
    refine ⟨fun h => by omega, fun h => absurd (hstale _ h.1) ?_⟩
    rw [gt_iff_lt, UInt64.lt_iff_toNat_lt]; omega
  · obtain ⟨a0, a1, a2⟩ := stat_addStats s.sched.ioLatencyStats (now - start)
    have hlt := (now - start).toNat_lt
    rw [he, a0, a1, a2, q0, q1, q2, hs]
    constructor
    · rintro ⟨h0, h1, -⟩
      have hissued := UInt64.le_trans (hI r (List.mem_of_find?_eq_some hf)) hc
      rw [q0] at b0
      obtain ⟨rfl, hsum⟩ := eq_of_delta b0 hissued (h0.trans (Nat.add_comm _ _))
      exact ⟨rfl, hsum, by omega⟩
    · rintro ⟨hst, h0, h1⟩
      cases hst
      rw [hlat]
      exact ⟨by omega, by omega, rfl⟩

/-- A longer one when nothing is counted for it. -/
theorem measured_skipped (hQ : Measured s) (hle : ¬ now.toNat - r.issued.toNat ≤ limit.toNat) :
    Measured (s.finish r c now) ↔
      ∀ start, s.sched.rqIssueTs.lookupElem c.key = some start → now - start > limit := by
  obtain ⟨q0, q1, q2⟩ := hQ
  have b1 := stat_lt s.sched.ioLatencyStats 1
  unfold Measured finish
  dsimp only
  rw [if_neg hle]
  rcases complete_cases s.sched c now with ⟨hstale, he⟩ | ⟨start, hs, hd, he⟩
  · rw [he]; exact ⟨fun _ => hstale, fun _ => ⟨q0, q1, q2⟩⟩
  · -- some other time was counted
    obtain ⟨-, a1, -⟩ := stat_addStats s.sched.ioLatencyStats (now - start)
    rw [he, a1, q1]
    refine ⟨fun h => by omega, fun h => absurd (h start hs) ?_⟩
    rw [gt_iff_lt]; exact UInt64.not_lt.mpr hd

end

/-- **One event** keeps the statistics right exactly when it finds its own
issue time. -/
theorem measured_step (s : Trace) (l : RqEvent) (s' : Trace) (hI : Inv s) (hQ : Measured s)
    (h : step s l = some s') : Measured s' ↔ FindsOwn s l := by
  cases l with
  | issue id c ts =>
    obtain ⟨-, -, rfl⟩ := step_issue h
    exact ⟨fun _ => trivial, fun _ => hQ⟩
  | complete id c now =>
    obtain ⟨r, hf, hc, rfl⟩ := step_complete h
    simp only [FindsOwn, hf, Option.some.injEq, forall_eq']
    split
    · exact measured_counted hI hQ hf hc ‹_›
    · exact measured_skipped hQ ‹_›

theorem measured_init (b : UInt64 → Nat) (bl bc : UInt32 → Nat) :
    Measured (init (IoSched.init b bl bc)) := ⟨rfl, rfl, rfl⟩

theorem inv_init (b : UInt64 → Nat) (bl bc : UInt32 → Nat) :
    Inv (init (IoSched.init b bl bc)) := fun _ h => by cases h

/-- **Request latency.** Along any trace the statistics are, after every prefix,
the sum, the number and the maximum of the latencies up to 10 s exactly when
every completion finds the issue time of its own request. -/
theorem ioSched_iff (b : UInt64 → Nat) (bl bc : UInt32 → Nat) (ls : List RqEvent) (t : Trace)
    (hx : exec step (init (IoSched.init b bl bc)) ls = some t) :
    Always step Measured (init (IoSched.init b bl bc)) ls ↔
      Along step FindsOwn (init (IoSched.init b bl bc)) ls :=
  always_iff_along inv_step measured_step (inv_init b bl bc) (measured_init b bl bc) hx

/-! ## One request in flight per PID and CPU -/

/-- A request is issued where none is in flight and there is room for its time;
it completes where it was issued, and the totals do not wrap. -/
def InPlace (s : Trace) : RqEvent → Prop
  | .issue _ c _ => (∀ r ∈ s.inFlight, r.task ≠ c) ∧ HasRoom s.sched.rqIssueTs c.key
  | .complete id c now => ∀ r, s.find id = some r → c = r.task ∧
      s.done.sum + (now.toNat - r.issued.toNat) < 2 ^ 64 ∧ s.done.length + 1 < 2 ^ 64

/-- The issue time of every request in flight is stored under its own key. -/
structure Stored (s : Trace) : Prop where
  past : Inv s
  apart : s.inFlight.Pairwise fun a b => a.task ≠ b.task
  found : ∀ r ∈ s.inFlight, s.sched.rqIssueTs.lookupElem r.task.key = some r.issued

theorem rqIssueTs_complete (s : IoSched) (c : Task) (now : UInt64) {k : UInt64} (h : k ≠ c.key) :
    (s.handleRqComplete c now).rqIssueTs.lookupElem k = s.rqIssueTs.lookupElem k := by
  unfold handleRqComplete
  cases s.rqIssueTs.lookupElem c.key with
  | none => rfl
  | some start =>
    dsimp only
    split
    · exact HashMap.lookupElem_deleteElem_ne h _
    · exact HashMap.lookupElem_deleteElem_ne h _

theorem stored_step (s : Trace) (l : RqEvent) (s' : Trace) (hS : Stored s) (hP : InPlace s l)
    (h : step s l = some s') : Stored s' := by
  have hpast := inv_step s l s' hS.past h
  cases l with
  | issue id c ts =>
    obtain ⟨-, -, rfl⟩ := step_issue h
    refine ⟨hpast, List.pairwise_cons.mpr ⟨fun r hr => (hP.1 r hr).symm, hS.apart⟩, fun r hr => ?_⟩
    show (s.sched.rqIssueTs.update c.key ts .any).lookupElem r.task.key = _
    rw [lookup_update_room hP.2]
    rcases List.mem_cons.mp hr with rfl | hr
    · exact if_pos rfl
    · rw [if_neg fun e => hP.1 r hr (Task.key_inj.mp e)]; exact hS.found r hr
  | complete id c now =>
    obtain ⟨r, hf, -, rfl⟩ := step_complete h
    obtain ⟨rfl, -, -⟩ := hP r hf
    refine ⟨hpast, hS.apart.filter _, fun x hx => ?_⟩
    obtain ⟨hx, hid⟩ := List.mem_filter.mp hx
    have hne : x.task ≠ r.task := by
      intro e
      have hr := List.mem_of_find?_eq_some hf
      refine of_decide_eq_true hid (congrArg Req.id ?_)
      exact List.inj_on_of_nodup_map (f := Req.task)
        (List.pairwise_map.mpr (hS.apart.imp fun h => h)) hx hr e
    show (s.sched.handleRqComplete r.task now).rqIssueTs.lookupElem x.task.key = _
    rw [rqIssueTs_complete _ _ _ fun e => hne (Task.key_inj.mp e)]
    exact hS.found x hx

theorem findsOwn_of_inPlace (s : Trace) (l : RqEvent) (s' : Trace) (hS : Stored s)
    (hP : InPlace s l) (h : step s l = some s') : FindsOwn s l := by
  cases l with
  | issue id c ts => trivial
  | complete id c now =>
    intro r hf
    obtain ⟨rfl, h0, h1⟩ := hP r hf
    have hfound := hS.found r (List.mem_of_find?_eq_some hf)
    split
    · exact ⟨hfound, h0, h1⟩
    · intro start hs
      rw [hfound] at hs; cases hs
      obtain ⟨-, -, hc, -⟩ := step_complete h
      rw [gt_iff_lt, UInt64.lt_iff_toNat_lt, latency_toNat hS.past hf hc]
      omega

/-- **In place.** If requests complete where they were issued and a PID has one
in flight per CPU, the statistics are right after every prefix. -/
theorem always_measured_of_inPlace (b : UInt64 → Nat) (bl bc : UInt32 → Nat) (ls : List RqEvent)
    (t : Trace) (hx : exec step (init (IoSched.init b bl bc)) ls = some t)
    (hP : Along step InPlace (init (IoSched.init b bl bc)) ls) :
    Always step Measured (init (IoSched.init b bl bc)) ls := by
  refine (always_iff_along inv_step measured_step (inv_init b bl bc) (measured_init b bl bc) hx).mpr ?_
  exact hP.imp stored_step findsOwn_of_inPlace
    ⟨inv_init b bl bc, List.Pairwise.nil, fun _ h => by cases h⟩ hx

/-- A process, and where its requests are issued and completed. -/
def onCpu0 : Task := ⟨1, 0⟩

/-- Two requests are in flight at a time, each completed where it was issued; the second one
takes 20 s. -/
def sameCpu : List RqEvent :=
  [.issue 1 onCpu0 100, .issue 2 ⟨2, 1⟩ 200, .complete 1 onCpu0 350, .issue 3 onCpu0 400,
    .complete 3 onCpu0 900, .complete 2 ⟨2, 1⟩ 20000000200]

theorem ioSched_sameCpu :
    (exec step (init (IoSched.init (fun _ => 0) (fun _ => 0) fun _ => 0)) sameCpu).map Trace.done =
      some [500, 250] ∧
    Always step Measured (init (IoSched.init (fun _ => 0) (fun _ => 0) fun _ => 0)) sameCpu :=
  ⟨by decide, (ioSched_iff _ _ _ sameCpu _ rfl).mpr (by decide +kernel)⟩

/-- **Counterexample.** Process 1 issues a request on CPU 0; the completion
interrupt runs on CPU 1, in the idle task. The request is not counted. -/
theorem ioSched_otherCpu :
    ∃ t, exec step (init (IoSched.init (fun _ => 0) (fun _ => 0) fun _ => 0))
      [.issue 1 onCpu0 100, .complete 1 ⟨0, 1⟩ 350] = some t ∧ t.done = [250] ∧ ¬ Measured t :=
  ⟨_, rfl, by decide, by unfold Measured; decide⟩

end Trace
end EbpfDemo.L2Kernel
