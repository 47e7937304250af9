import Mathlib.Algebra.Ring.Nat
import Mathlib.Logic.Function.Basic
import EbpfDemo.Core.ArrayMap
import EbpfDemo.Core.Machine
import EbpfDemo.Core.Stopwatch
import EbpfDemo.L2Kernel.Counters

/-!
# cpu_usage: time on a CPU

`handle_sched_switch` stops the clock of the task that leaves the CPU and
starts the one of the task that enters it. The start times are kept under the
PID alone, for all CPUs together. `Trace` runs the handler over the events of
any number of CPUs and keeps what it should measure: who is on which CPU, since
when that was observed, and the intervals that are over.

Every PID and every CPU has a stopwatch (`Core.Within`). A PID is on one CPU at a
time, so what is found under the PID that leaves is the time it entered this
CPU (`lookup_prev`), and the two watches are stopped together.

`cpuUsage_exact`: after every prefix of a legal trace the start times, the times
per PID and the busy times per CPU are exactly those of the trace, no CPU is
busy for longer than has elapsed, and no difference of times underflows.
-/
namespace EbpfDemo.L2Kernel

open EbpfDemo.Core

/-- mirrors src/my_tools/cpu/cpu_usage.bpf.c:10-32 -/
structure CpuUsage where
  cpuStart : HashMap UInt32 UInt64
  cpuTime : HashMap UInt32 UInt64
  cpuBusy : ArrayMap UInt64 256

namespace CpuUsage

/-- Account CPU time for the task being switched out.
mirrors src/my_tools/cpu/cpu_usage.bpf.c:42-61 -/
def leave (s : CpuUsage) (cpu prev : UInt32) (now : UInt64) : CpuUsage :=
  if prev > 0 then
    match s.cpuStart.lookupElem prev with
    | none => { s with cpuStart := s.cpuStart.deleteElem prev }
    | some start =>
      let delta := now - start
      { cpuStart := s.cpuStart.deleteElem prev
        cpuTime := countEvent (· + delta) delta .any s.cpuTime prev
        cpuBusy := s.cpuBusy.modifyElem cpu (· + delta) }
  else s

/-- Record start time for the task being switched in.
mirrors src/my_tools/cpu/cpu_usage.bpf.c:63-66 -/
def enter (s : CpuUsage) (next : UInt32) (now : UInt64) : CpuUsage :=
  if next > 0 then { s with cpuStart := s.cpuStart.update next now .any } else s

/-- mirrors src/my_tools/cpu/cpu_usage.bpf.c:34-69 -/
def handleSchedSwitch (s : CpuUsage) (cpu prev next : UInt32) (now : UInt64) : CpuUsage :=
  (s.leave cpu prev now).enter next now

/-- The program as loaded. -/
def init (bs bt : UInt32 → Nat) : CpuUsage where
  cpuStart := .empty bs 10240
  cpuTime := .empty bt 10240
  cpuBusy := Vector.replicate 256 0

/-- The start time the handler finds for the task that leaves. -/
def found (s : CpuUsage) (prev : UInt32) : Option UInt64 :=
  if prev > 0 then s.cpuStart.lookupElem prev else none

/-- The start times the handler leaves for the second part. -/
def left (s : CpuUsage) (prev : UInt32) : HashMap UInt32 UInt64 :=
  if prev > 0 then s.cpuStart.deleteElem prev else s.cpuStart

section
variable (s : CpuUsage) (cpu prev next : UInt32) (now : UInt64)

theorem cpuStart_leave : (s.leave cpu prev now).cpuStart = s.left prev := by
  unfold leave left
  split
  · cases s.cpuStart.lookupElem prev <;> rfl
  · rfl

theorem cpuStart_handle : (s.handleSchedSwitch cpu prev next now).cpuStart =
    if next > 0 then (s.left prev).update next now .any else s.left prev := by
  rw [← cpuStart_leave s cpu prev now]
  unfold handleSchedSwitch enter
  split <;> rfl

theorem cpuTime_handle : (s.handleSchedSwitch cpu prev next now).cpuTime =
    match s.found prev with
    | some start => countEvent (· + (now - start)) (now - start) .any s.cpuTime prev
    | none => s.cpuTime := by
  have h : (s.handleSchedSwitch cpu prev next now).cpuTime = (s.leave cpu prev now).cpuTime := by
    unfold handleSchedSwitch enter
    split <;> rfl
  rw [h]
  unfold leave found
  split
  · cases s.cpuStart.lookupElem prev <;> rfl
  · rfl

theorem cpuBusy_handle : (s.handleSchedSwitch cpu prev next now).cpuBusy =
    match s.found prev with
    | some start => s.cpuBusy.modifyElem cpu (· + (now - start))
    | none => s.cpuBusy := by
  have h : (s.handleSchedSwitch cpu prev next now).cpuBusy = (s.leave cpu prev now).cpuBusy := by
    unfold handleSchedSwitch enter
    split <;> rfl
  rw [h]
  unfold leave found
  split
  · cases s.cpuStart.lookupElem prev <;> rfl
  · rfl

variable {s prev}

theorem lookup_left (p : UInt32) : (s.left prev).lookupElem p =
    if p = prev ∧ prev > 0 then none else s.cpuStart.lookupElem p := by
  unfold left
  by_cases h : prev > 0
  · by_cases hp : p = prev
    · subst hp; simp [h]
    · rw [if_pos h, if_neg fun e => hp e.1, HashMap.lookupElem_deleteElem_ne hp]
  · rw [if_neg h, if_neg fun e => h e.2]

/-- The start times after an event, when there is room for the new one. -/
theorem lookup_handle {next : UInt32} (h : next > 0 → HasRoom (s.left prev) next) (p : UInt32) :
    (s.handleSchedSwitch cpu prev next now).cpuStart.lookupElem p =
      if p = next ∧ next > 0 then some now
      else if p = prev ∧ prev > 0 then none
      else s.cpuStart.lookupElem p := by
  rw [cpuStart_handle]
  by_cases hn : next > 0
  · rw [if_pos hn, lookup_update_room (h hn), lookup_left]
    by_cases hp : p = next
    · rw [if_pos hp, if_pos ⟨hp, hn⟩]
    · rw [if_neg hp, if_neg fun e : p = next ∧ next > 0 => hp e.1]
  · rw [if_neg hn, if_neg fun e : p = next ∧ next > 0 => hn e.2, lookup_left]

end
end CpuUsage

/-! ## Traces of sched_switch events -/

/-- An observed interval of a PID on a CPU. -/
structure Stint where
  pid : UInt32
  cpu : UInt32
  start : UInt64
  stop : UInt64

def Stint.length (i : Stint) : Nat := i.stop.toNat - i.start.toNat

/-- The total length of the intervals with key `k` (their PID, or their CPU). -/
def totalBy (κ : Stint → UInt32) (k : UInt32) : List Stint → Nat
  | [] => 0
  | i :: l => (if κ i = k then i.length else 0) + totalBy κ k l

structure SwitchEvent where
  cpu : UInt32
  prev : UInt32
  next : UInt32
  now : UInt64

namespace Sched

/-- The program; who is on each CPU, and since when that was observed; the
intervals that are over; the time of the last event and of the first one. -/
structure Trace where
  prog : CpuUsage
  cur : UInt32 → UInt32
  since : UInt32 → Option UInt64
  done : List Stint
  clock : UInt64
  first : Option UInt64

/-- The interval an event ends, if its start was observed and it is not that of
the idle task. -/
def Trace.ended (s : Trace) (e : SwitchEvent) : List Stint :=
  match s.since e.cpu with
  | some t => if e.prev > 0 then [⟨e.prev, e.cpu, t, e.now⟩] else []
  | none => []

def Trace.after (s : Trace) (e : SwitchEvent) : Trace where
  prog := s.prog.handleSchedSwitch e.cpu e.prev e.next e.now
  cur := Function.update s.cur e.cpu e.next
  since := Function.update s.since e.cpu (some e.now)
  done := s.ended e ++ s.done
  clock := e.now
  first := some (s.first.getD e.now)

def step (s : Trace) (e : SwitchEvent) : Option Trace := some (s.after e)

def init (p : CpuUsage) (cur : UInt32 → UInt32) : Trace := ⟨p, cur, fun _ => none, [], 0, none⟩

/-- A PID above 0 is on at most one CPU. -/
def Apart (cur : UInt32 → UInt32) : Prop := ∀ c c', cur c = cur c' → 0 < cur c → c = c'

/-- What the events of a trace satisfy: a CPU below 256, a clock that does not go
back, the task that leaves is the one on the CPU, the task that enters is on no
other CPU, and the map updates the handler makes find room. -/
structure Legal (s : Trace) (e : SwitchEvent) : Prop where
  cpu : e.cpu.toNat < 256
  clock : s.clock ≤ e.now
  prev : e.prev = s.cur e.cpu
  next : e.next = 0 ∨ ∀ c, s.cur c = e.next → c = e.cpu
  roomTime : s.prog.found e.prev ≠ none → HasRoom s.prog.cpuTime e.prev
  roomStart : e.next > 0 → HasRoom (s.prog.left e.prev) e.next

/-- The time since the first event. -/
def Trace.elapsed (s : Trace) : Nat := s.clock.toNat - (s.first.getD s.clock).toNat

/-- The maps say what the trace says. -/
structure Exact (s : Trace) : Prop where
  start : ∀ p t, s.prog.cpuStart.lookupElem p = some t ↔
    0 < p ∧ ∃ c, s.cur c = p ∧ s.since c = some t
  time : ∀ p, valueOf s.prog.cpuTime p = totalBy Stint.pid p s.done
  busy : ∀ c, s.prog.cpuBusy.valueAt c = totalBy Stint.cpu c s.done
  bounded : ∀ c, s.prog.cpuBusy.valueAt c ≤ s.elapsed

/-- The difference the handler forms does not underflow. -/
def NoUnderflow (s : Trace) (e : SwitchEvent) : Prop :=
  ∀ start, s.prog.found e.prev = some start → start ≤ e.now

/-- The watch of key `k` is sound at `now`. -/
def Watch (s : Trace) (κ : Stint → UInt32) (k : UInt32) (since : Option UInt64) : Prop :=
  Within (s.first.getD s.clock).toNat s.clock.toNat (totalBy κ k s.done) (since.map UInt64.toNat)

/-- The maps are exact, and every CPU and every PID has its stopwatch. -/
structure Inv (s : Trace) : Prop where
  exact : Exact s
  apart : Apart s.cur
  cpus : ∀ c, Watch s Stint.cpu c (s.since c)
  pids : ∀ p, Watch s Stint.pid p (s.prog.cpuStart.lookupElem p)
  fresh : s.first = none → s.done = [] ∧ ∀ c, s.since c = none

section
variable {s : Trace} {e : SwitchEvent}

/-- What the handler finds is the time the task that leaves entered this CPU. -/
theorem found_prev (hI : Inv s) (h : Legal s e) :
    s.prog.found e.prev = if e.prev > 0 then s.since e.cpu else none := by
  unfold CpuUsage.found
  by_cases hp : e.prev > 0
  · rw [if_pos hp, if_pos hp]
    apply Option.ext
    intro t
    rw [hI.exact.start]
    constructor
    · rintro ⟨-, c, hc, ht⟩
      have hcpu : c = e.cpu := hI.apart c e.cpu (by rw [hc, h.prev]) (by rw [hc]; exact hp)
      rw [← hcpu]; exact ht
    · exact fun ht => ⟨hp, e.cpu, h.prev.symm, ht⟩
  · rw [if_neg hp, if_neg hp]

/-- An event ends at most one interval, and the handler finds its start. -/
theorem ended_cases (hI : Inv s) (h : Legal s e) :
    s.prog.found e.prev = none ∧ s.ended e = [] ∨
    ∃ t, e.prev > 0 ∧ s.prog.found e.prev = some t ∧ s.since e.cpu = some t ∧
      s.prog.cpuStart.lookupElem e.prev = some t ∧ s.ended e = [⟨e.prev, e.cpu, t, e.now⟩] := by
  rw [found_prev hI h]
  unfold Trace.ended
  by_cases hp : e.prev > 0
  · cases hs : s.since e.cpu with
    | none => exact .inl ⟨if_pos hp, rfl⟩
    | some t =>
      refine .inr ⟨t, hp, if_pos hp, rfl, ?_, if_pos hp⟩
      exact (hI.exact.start _ _).mpr ⟨hp, e.cpu, h.prev.symm, hs⟩
  · refine .inl ⟨if_neg hp, ?_⟩
    cases s.since e.cpu with
    | none => rfl
    | some t => exact if_neg hp

/-- A start time is not in the future. -/
theorem le_of_lookup (hI : Inv s) {p : UInt32} {t : UInt64}
    (h : s.prog.cpuStart.lookupElem p = some t) : t ≤ s.clock := by
  have hw := hI.pids p
  rw [h] at hw
  exact UInt64.le_iff_toNat_le.mpr (hw.running t.toNat rfl).2.1

/-- The watches run on to the next event. -/
theorem watch_wait (hI : Inv s) (hc : s.clock ≤ e.now) {κ : Stint → UInt32} {k : UInt32}
    {o : Option UInt64} (h : Watch s κ k o) (ho : s.first = none → o = none) :
    Within (s.first.getD e.now).toNat e.now.toNat (totalBy κ k s.done) (o.map UInt64.toNat) := by
  cases hf : s.first with
  | none =>
    rw [(hI.fresh hf).1, ho hf]
    exact Within.fresh _
  | some f =>
    unfold Watch at h
    rw [hf] at h
    exact h.wait (UInt64.le_iff_toNat_le.mp hc)

theorem watch_cpu (hI : Inv s) (h : Legal s e) (c : UInt32) :
    Within (s.first.getD e.now).toNat e.now.toNat (totalBy Stint.cpu c s.done)
      ((s.since c).map UInt64.toNat) :=
  watch_wait hI h.clock (hI.cpus c) fun hf => (hI.fresh hf).2 c

theorem watch_pid (hI : Inv s) (h : Legal s e) (p : UInt32) :
    Within (s.first.getD e.now).toNat e.now.toNat (totalBy Stint.pid p s.done)
      ((s.prog.cpuStart.lookupElem p).map UInt64.toNat) := by
  refine watch_wait hI h.clock (hI.pids p) fun hf => ?_
  -- nothing was observed yet, so nothing is stored
  cases hl : s.prog.cpuStart.lookupElem p with
  | none => rfl
  | some t =>
    obtain ⟨-, c, -, hc⟩ := (hI.exact.start p t).mp hl
    rw [(hI.fresh hf).2 c] at hc; cases hc

/-- The watch of a key that the interval belongs to is stopped. -/
theorem totalBy_stop {f now : Nat} {κ : Stint → UInt32} {k : UInt32} {i : Stint} {l : List Stint}
    (hk : κ i = k) (hn : i.stop.toNat = now)
    (h : Within f now (totalBy κ k l) (some i.start.toNat)) :
    Within f now (totalBy κ k (i :: l)) none := by
  have hs := h.stop (Nat.le_refl now)
  rw [totalBy, if_pos hk, Stint.length, hn, Nat.add_comm]
  exact hs

theorem totalBy_ne {κ : Stint → UInt32} {k : UInt32} {i : Stint} {l : List Stint} (hk : κ i ≠ k) :
    totalBy κ k (i :: l) = totalBy κ k l := by rw [totalBy, if_neg hk, Nat.zero_add]

theorem cpus_after (hI : Inv s) (h : Legal s e) (c : UInt32) :
    Watch (s.after e) Stint.cpu c ((s.after e).since c) := by
  show Within (s.first.getD e.now).toNat e.now.toNat (totalBy Stint.cpu c (s.ended e ++ s.done))
    ((Function.update s.since e.cpu (some e.now) c).map UInt64.toNat)
  have hw := watch_cpu hI h c
  by_cases hc : c = e.cpu
  · subst hc
    rw [Function.update_self]
    rcases ended_cases hI h with ⟨-, he⟩ | ⟨t, -, -, hs, -, he⟩
    · rw [he]; exact hw.start
    · rw [hs] at hw
      have hstop := totalBy_stop (κ := Stint.cpu) (i := ⟨e.prev, e.cpu, t, e.now⟩) rfl rfl hw
      rw [he]; exact hstop.start
  · rw [Function.update_of_ne hc]
    rcases ended_cases hI h with ⟨-, he⟩ | ⟨t, -, -, -, -, he⟩
    · rw [he]; exact hw
    · rw [he, List.singleton_append, totalBy_ne fun e => hc e.symm]; exact hw

theorem pids_after (hI : Inv s) (h : Legal s e) (p : UInt32) :
    Watch (s.after e) Stint.pid p ((s.after e).prog.cpuStart.lookupElem p) := by
  show Within (s.first.getD e.now).toNat e.now.toNat (totalBy Stint.pid p (s.ended e ++ s.done))
    (((s.prog.handleSchedSwitch e.cpu e.prev e.next e.now).cpuStart.lookupElem p).map UInt64.toNat)
  have hw := watch_pid hI h p
  rw [CpuUsage.lookup_handle _ _ h.roomStart]
  -- after the first part of the handler
  have hleft : Within (s.first.getD e.now).toNat e.now.toNat
      (totalBy Stint.pid p (s.ended e ++ s.done))
      ((if p = e.prev ∧ e.prev > 0 then none else s.prog.cpuStart.lookupElem p).map
        UInt64.toNat) := by
    rcases ended_cases hI h with ⟨hf, he⟩ | ⟨t, hp, -, -, hl, he⟩
    · rw [he]
      split
      · rename_i hpp
        unfold CpuUsage.found at hf
        rw [if_pos hpp.2, ← hpp.1] at hf
        rw [hf] at hw; exact hw
      · exact hw
    · rw [he]
      split
      · rename_i hpp
        rw [hpp.1, hl] at hw
        rw [hpp.1]
        exact totalBy_stop (κ := Stint.pid) (i := ⟨e.prev, e.cpu, t, e.now⟩) rfl rfl hw
      · rename_i hpp
        rw [List.singleton_append, totalBy_ne fun e => hpp ⟨e.symm, hp⟩]; exact hw
  split
  · exact hleft.start
  · exact hleft

theorem apart_after (hI : Inv s) (h : Legal s e) : Apart (s.after e).cur := by
  intro c c' hcc hpos
  simp only [Trace.after, Function.update_apply] at hcc hpos
  -- a PID that is not idle enters this CPU only
  have henter : ∀ c', 0 < e.next → e.next = s.cur c' → c' = e.cpu := by
    intro c' hn hc'
    rcases h.next with h0 | hall
    · rw [h0] at hn; exact absurd hn (by decide)
    · exact hall c' hc'.symm
  split at hcc
  · rename_i hc
    split at hcc
    · rename_i hc'; rw [hc, hc']
    · rw [if_pos hc] at hpos; rw [hc]; exact (henter c' hpos hcc).symm
  · rename_i hc
    rw [if_neg hc] at hpos
    split at hcc
    · rename_i hc'; rw [hc']; exact henter c (hcc ▸ hpos) hcc.symm
    · exact hI.apart c c' hcc hpos

/-- The start times are those of the tasks on a CPU. -/
theorem start_after (hI : Inv s) (h : Legal s e) (p : UInt32) (t : UInt64) :
    (s.after e).prog.cpuStart.lookupElem p = some t ↔
      0 < p ∧ ∃ c, (s.after e).cur c = p ∧ (s.after e).since c = some t := by
  show (s.prog.handleSchedSwitch e.cpu e.prev e.next e.now).cpuStart.lookupElem p = some t ↔
    0 < p ∧ ∃ c, Function.update s.cur e.cpu e.next c = p ∧
      Function.update s.since e.cpu (some e.now) c = some t
  rw [CpuUsage.lookup_handle _ _ h.roomStart]
  by_cases hn : p = e.next ∧ e.next > 0
  · -- the task that enters
    obtain ⟨rfl, hpos⟩ := hn
    rw [if_pos ⟨rfl, hpos⟩]
    constructor
    · intro ht
      exact ⟨hpos, e.cpu, Function.update_self .., by rw [Function.update_self]; exact ht⟩
    · rintro ⟨-, c, hc, ht⟩
      by_cases hcpu : c = e.cpu
      · rw [hcpu, Function.update_self] at ht; exact ht
      · rw [Function.update_of_ne hcpu] at hc
        rcases h.next with h0 | hall
        · rw [h0] at hpos; exact absurd hpos (by decide)
        · exact absurd (hall c hc) hcpu
  · rw [if_neg hn]
    by_cases hp : p = e.prev ∧ e.prev > 0
    · -- the task that leaves
      obtain ⟨rfl, hpos⟩ := hp
      rw [if_pos ⟨rfl, hpos⟩]
      constructor
      · intro ht; cases ht
      · rintro ⟨-, c, hc, -⟩
        by_cases hcpu : c = e.cpu
        · rw [hcpu, Function.update_self] at hc
          exact absurd ⟨hc.symm, by rw [hc]; exact hpos⟩ hn
        · rw [Function.update_of_ne hcpu] at hc
          exact absurd (hI.apart c e.cpu (by rw [hc, h.prev]) (by rw [hc]; exact hpos)) hcpu
    · -- the others stay where they are
      rw [if_neg hp, hI.exact.start p t]
      constructor
      · rintro ⟨hpos, c, hc, ht⟩
        have hcpu : c ≠ e.cpu := by
          intro he
          have hpp : p = e.prev := by rw [h.prev, ← he, hc]
          exact hp ⟨hpp, hpp ▸ hpos⟩
        exact ⟨hpos, c, by rw [Function.update_of_ne hcpu]; exact hc,
          by rw [Function.update_of_ne hcpu]; exact ht⟩
      · rintro ⟨hpos, c, hc, ht⟩
        have hcpu : c ≠ e.cpu := by
          intro he
          rw [he, Function.update_self] at hc
          exact hn ⟨hc.symm, hc ▸ hpos⟩
        rw [Function.update_of_ne hcpu] at hc ht
        exact ⟨hpos, c, hc, ht⟩

theorem sub_toNat (hI : Inv s) (h : Legal s e) {p : UInt32} {t : UInt64}
    (hl : s.prog.cpuStart.lookupElem p = some t) :
    (e.now - t).toNat = e.now.toNat - t.toNat :=
  UInt64.toNat_sub_of_le _ _ (UInt64.le_trans (le_of_lookup hI hl) h.clock)

theorem time_after (hI : Inv s) (h : Legal s e) (p : UInt32) :
    valueOf (s.after e).prog.cpuTime p = totalBy Stint.pid p (s.after e).done := by
  have hlt : totalBy Stint.pid p (s.after e).done < 2 ^ 64 := by
    have h1 := (pids_after hI h p).elapsed
    have h2 := (s.after e).clock.toNat_lt
    omega
  revert hlt
  show totalBy Stint.pid p (s.ended e ++ s.done) < 2 ^ 64 →
    valueOf (s.prog.handleSchedSwitch e.cpu e.prev e.next e.now).cpuTime p =
      totalBy Stint.pid p (s.ended e ++ s.done)
  intro hlt
  rw [CpuUsage.cpuTime_handle]
  rcases ended_cases hI h with ⟨hf, he⟩ | ⟨t, hpos, hf, -, hl, he⟩
  · rw [hf, he]; exact hI.exact.time p
  · rw [he] at hlt
    rw [hf, he]
    dsimp only
    rw [valueOf_countEvent (h.roomTime (by rw [hf]; exact fun h => by cases h)), sub_toNat hI h hl,
      hI.exact.time, hI.exact.time]
    by_cases hp : p = e.prev
    · subst hp
      rw [List.singleton_append, totalBy, if_pos rfl, Stint.length] at hlt ⊢
      rw [if_pos rfl, Nat.add_comm]; exact Nat.mod_eq_of_lt hlt
    · rw [if_neg hp, List.singleton_append, totalBy_ne fun e => hp e.symm]

theorem busy_after (hI : Inv s) (h : Legal s e) (c : UInt32) :
    (s.after e).prog.cpuBusy.valueAt c = totalBy Stint.cpu c (s.after e).done := by
  have hlt : totalBy Stint.cpu c (s.after e).done < 2 ^ 64 := by
    have h1 := (cpus_after hI h c).elapsed
    have h2 := (s.after e).clock.toNat_lt
    omega
  revert hlt
  show totalBy Stint.cpu c (s.ended e ++ s.done) < 2 ^ 64 →
    (s.prog.handleSchedSwitch e.cpu e.prev e.next e.now).cpuBusy.valueAt c =
      totalBy Stint.cpu c (s.ended e ++ s.done)
  intro hlt
  rw [CpuUsage.cpuBusy_handle]
  rcases ended_cases hI h with ⟨hf, he⟩ | ⟨t, hpos, hf, -, hl, he⟩
  · rw [hf, he]; exact hI.exact.busy c
  · rw [he] at hlt
    rw [hf, he]
    dsimp only
    rw [ArrayMap.valueAt_modifyElem h.cpu, sub_toNat hI h hl, hI.exact.busy, hI.exact.busy]
    by_cases hc : c = e.cpu
    · subst hc
      rw [List.singleton_append, totalBy, if_pos rfl, Stint.length] at hlt ⊢
      rw [if_pos rfl, Nat.add_comm]; exact Nat.mod_eq_of_lt hlt
    · rw [if_neg hc, List.singleton_append, totalBy_ne fun e => hc e.symm]

/-- **One event** of a legal trace keeps the maps exact. -/
theorem inv_after (hI : Inv s) (h : Legal s e) : Inv (s.after e) where
  exact :=
    { start := start_after hI h
      time := time_after hI h
      busy := busy_after hI h
      bounded := fun c => by rw [busy_after hI h c]; exact (cpus_after hI h c).elapsed }
  apart := apart_after hI h
  cpus := cpus_after hI h
  pids := pids_after hI h
  fresh := fun hf => by cases hf

theorem noUnderflow (hI : Inv s) (h : Legal s e) : NoUnderflow s e := by
  intro start hs
  rcases ended_cases hI h with ⟨hf, -⟩ | ⟨t, -, hf, -, hl, -⟩
  · rw [hf] at hs; cases hs
  · rw [hf] at hs; cases hs
    exact UInt64.le_trans (le_of_lookup hI hl) h.clock

end

theorem inv_init (bs bt : UInt32 → Nat) {cur : UInt32 → UInt32} (h : Apart cur) :
    Inv (init (CpuUsage.init bs bt) cur) := by
  have hbusy : ∀ c, (CpuUsage.init bs bt).cpuBusy.valueAt c = 0 := by
    intro c
    show (((Vector.replicate 256 (0 : UInt64))[c.toNat]?).getD 0).toNat = 0
    by_cases hc : c.toNat < 256
    · rw [Vector.getElem?_eq_getElem hc, Vector.getElem_replicate]; rfl
    · rw [Vector.getElem?_eq_none (Nat.le_of_not_lt hc)]; rfl
  refine ⟨⟨fun p t => ?_, fun p => rfl, hbusy, fun c => ?_⟩, h, fun c => Within.fresh _,
    fun p => Within.fresh _, fun _ => ⟨rfl, fun _ => rfl⟩⟩
  · constructor
    · intro hl; cases hl
    · rintro ⟨-, c, -, hc⟩; cases hc
  · have h0 : (init (CpuUsage.init bs bt) cur).prog.cpuBusy.valueAt c = 0 := hbusy c
    rw [h0]; exact Nat.zero_le _

/-- **CPU accounting.** Over any legal trace of context switches the start
times, the times per PID and the busy times per CPU are exact after every
prefix, and no difference underflows. -/
theorem cpuUsage_exact (bs bt : UInt32 → Nat) (cur : UInt32 → UInt32) (hcur : Apart cur)
    (es : List SwitchEvent) (h : Along step Legal (init (CpuUsage.init bs bt) cur) es) :
    Always step Exact (init (CpuUsage.init bs bt) cur) es ∧
      Along step NoUnderflow (init (CpuUsage.init bs bt) cur) es := by
  have hstep : ∀ s e s', Inv s → Legal s e → step s e = some s' → Inv s' := by
    intro s e s' hI hl hs
    cases hs
    exact inv_after hI hl
  have hI := h.always hstep (inv_init bs bt hcur)
  exact ⟨hI.mono fun s hs => hs.exact, h.of_always (fun s e => noUnderflow) hI⟩

/-- PID 1 is on CPU 0 at first, CPU 1 is idle. -/
def before : UInt32 → UInt32 := fun c => if c = 0 then 1 else 0

/-- PID 1 moves to CPU 1, PID 2 runs on CPU 0 and then on CPU 1. -/
def migration : List SwitchEvent :=
  [⟨0, 1, 2, 100⟩, ⟨1, 0, 1, 200⟩, ⟨0, 2, 0, 300⟩, ⟨1, 1, 2, 450⟩, ⟨1, 2, 0, 500⟩]

theorem cpuUsage_migration :
    (exec step (init (CpuUsage.init (fun _ => 0) fun _ => 0) before) migration).map
      (fun t => (valueOf t.prog.cpuTime 1, valueOf t.prog.cpuTime 2, t.prog.cpuBusy.valueAt 1)) =
      some (250, 250, 300) ∧
    Always step Exact (init (CpuUsage.init (fun _ => 0) fun _ => 0) before) migration ∧
    Along step NoUnderflow (init (CpuUsage.init (fun _ => 0) fun _ => 0) before) migration := by
  refine ⟨by decide +kernel, cpuUsage_exact _ _ before ?_ migration ?_⟩
  · intro c c' hc hpos
    simp only [before] at hc hpos
    grind
  · refine ⟨⟨by decide, by decide, rfl, .inr fun c hc => ?_, by decide, by decide⟩, fun s hs => ?_⟩
    · simp only [init, before] at hc; grind
    cases hs
    refine ⟨⟨by decide, by decide, rfl, .inr fun c hc => ?_, by decide, by decide⟩, fun s hs => ?_⟩
    · simp only [init, before, Trace.after, Function.update_apply] at hc; grind
    cases hs
    refine ⟨⟨by decide, by decide, rfl, .inl rfl, by decide, by decide⟩, fun s hs => ?_⟩
    cases hs
    refine ⟨⟨by decide, by decide, rfl, .inr fun c hc => ?_, by decide, by decide⟩, fun s hs => ?_⟩
    · simp only [init, before, Trace.after, Function.update_apply] at hc; grind
    cases hs
    exact ⟨⟨by decide, by decide, rfl, .inl rfl, by decide, by decide⟩, fun _ _ => trivial⟩

end Sched
end EbpfDemo.L2Kernel
