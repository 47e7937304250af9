import EbpfDemo.Core.Machine
import EbpfDemo.Core.Stopwatch
import EbpfDemo.L2Kernel.Counters

/-!
# cpu_run_delay: from a wakeup to the CPU

A wakeup stores its time under the PID, a later one overwrites it. When the PID
enters a CPU the stored time is taken out; its distance goes to `run_delay`, one
to `wakeup_count`. `Trace` runs the three programs over the events of any PIDs
and keeps the events. What should be counted is said over these alone: the
latest event of a PID is a wakeup (`pending`) or not, and a switch-in has a
delay exactly when it is (`delays`).

`runDelay_exact`: after every prefix of a trace the sums, the numbers modulo
2^64 and the key sets are those of the trace, and no difference underflows. A
sum cannot wrap: the delays of a PID lie one after the other (`Core.Within`).
A number can, at one and the same time (`runDelay_wraps`).
-/
namespace EbpfDemo.L2Kernel

open EbpfDemo.Core

/-- mirrors src/my_tools/cpu/cpu_run_delay.bpf.c:17-36 -/
structure CpuRunDelay where
  wakeupTs : HashMap UInt32 UInt64
  runDelay : HashMap UInt32 UInt64
  wakeupCount : HashMap UInt32 UInt64

namespace CpuRunDelay

/-- mirrors src/my_tools/cpu/cpu_run_delay.bpf.c:38-47 -/
def handleSchedWakeup (s : CpuRunDelay) (pid : UInt32) (ts : UInt64) : CpuRunDelay :=
  { s with wakeupTs := s.wakeupTs.update pid ts .any }

/-- mirrors src/my_tools/cpu/cpu_run_delay.bpf.c:49-58 -/
def handleSchedWakeupNew (s : CpuRunDelay) (pid : UInt32) (ts : UInt64) : CpuRunDelay :=
  { s with wakeupTs := s.wakeupTs.update pid ts .any }

/-- mirrors src/my_tools/cpu/cpu_run_delay.bpf.c:60-92 -/
def handleSchedSwitch (s : CpuRunDelay) (nextPid : UInt32) (now : UInt64) : CpuRunDelay :=
  match s.wakeupTs.lookupElem nextPid with
  | none => s
  | some wakeup =>
    let delay := now - wakeup
    { runDelay := countEvent (· + delay) delay .any s.runDelay nextPid
      wakeupCount := countEvent (· + 1) 1 .any s.wakeupCount nextPid
      wakeupTs := s.wakeupTs.deleteElem nextPid }

/-- The programs as loaded. -/
def init (b bd bc : UInt32 → Nat) : CpuRunDelay where
  wakeupTs := .empty b 10240
  runDelay := .empty bd 10240
  wakeupCount := .empty bc 10240

section
variable {s : CpuRunDelay} {next : UInt32} {wakeup : UInt64}

theorem switch_none (h : s.wakeupTs.lookupElem next = none) (now : UInt64) :
    s.handleSchedSwitch next now = s := by
  unfold handleSchedSwitch
  rw [h]

theorem switch_some (h : s.wakeupTs.lookupElem next = some wakeup) (now : UInt64) :
    s.handleSchedSwitch next now =
      { runDelay := countEvent (· + (now - wakeup)) (now - wakeup) .any s.runDelay next
        wakeupCount := countEvent (· + 1) 1 .any s.wakeupCount next
        wakeupTs := s.wakeupTs.deleteElem next } := by
  unfold handleSchedSwitch
  rw [h]

end
end CpuRunDelay

/-! ## What should be counted -/

inductive RunqEvent where
  | wakeup (pid : UInt32) (ts : UInt64)
  | wakeupNew (pid : UInt32) (ts : UInt64)
  | switch (next : UInt32) (now : UInt64)

namespace RunqEvent

def pid : RunqEvent → UInt32
  | .wakeup pid _ | .wakeupNew pid _ => pid
  | .switch next _ => next

def time : RunqEvent → UInt64
  | .wakeup _ ts | .wakeupNew _ ts => ts
  | .switch _ now => now

def wokenAt : RunqEvent → Option UInt64
  | .wakeup _ ts | .wakeupNew _ ts => some ts
  | .switch .. => none

end RunqEvent

/-- The time of the latest wakeup of `p` since it last entered a CPU. `past` has
the latest event first. -/
def pending (p : UInt32) (past : List RunqEvent) : Option UInt64 :=
  (past.find? fun e => e.pid = p).bind RunqEvent.wokenAt

/-- The delays of the switch-ins of `p` that had a wakeup. -/
def delays (p : UInt32) : List RunqEvent → List Nat
  | [] => []
  | .switch next now :: past =>
    if next = p then
      match pending p past with
      | some w => (now.toNat - w.toNat) :: delays p past
      | none => delays p past
    else delays p past
  | _ :: past => delays p past

theorem pending_own {e : RunqEvent} {p : UInt32} (h : e.pid = p) (past : List RunqEvent) :
    pending p (e :: past) = e.wokenAt := by simp [pending, h]

theorem pending_other {e : RunqEvent} {p : UInt32} (h : e.pid ≠ p) (past : List RunqEvent) :
    pending p (e :: past) = pending p past := by simp [pending, h]

theorem delays_other {e : RunqEvent} {p : UInt32} (h : e.pid ≠ p) (past : List RunqEvent) :
    delays p (e :: past) = delays p past := by
  cases e with
  | switch next now => exact if_neg h
  | wakeup => rfl
  | wakeupNew => rfl

theorem delays_some {p : UInt32} {past : List RunqEvent} {w : UInt64} (h : pending p past = some w)
    (now : UInt64) :
    delays p (.switch p now :: past) = (now.toNat - w.toNat) :: delays p past := by
  rw [delays, if_pos rfl, h]

theorem delays_none {p : UInt32} {past : List RunqEvent} (h : pending p past = none)
    (now : UInt64) : delays p (.switch p now :: past) = delays p past := by
  rw [delays, if_pos rfl, h]

/-! ## Traces -/

namespace RunQueue

/-- The programs, the time of the last event and all events. -/
structure Trace where
  prog : CpuRunDelay
  clock : UInt64
  past : List RunqEvent

def handle (s : CpuRunDelay) : RunqEvent → CpuRunDelay
  | .wakeup pid ts => s.handleSchedWakeup pid ts
  | .wakeupNew pid ts => s.handleSchedWakeupNew pid ts
  | .switch next now => s.handleSchedSwitch next now

def step (s : Trace) (e : RunqEvent) : Option Trace := some ⟨handle s.prog e, e.time, e :: s.past⟩

def init (p : CpuRunDelay) : Trace := ⟨p, 0, []⟩

/-- The updates the event makes find room. -/
def Room (s : CpuRunDelay) : RunqEvent → Prop
  | .wakeup pid _ | .wakeupNew pid _ => HasRoom s.wakeupTs pid
  | .switch next _ => s.wakeupTs.lookupElem next ≠ none →
      HasRoom s.runDelay next ∧ HasRoom s.wakeupCount next

/-- The clock does not go back, and no map update fails. -/
structure Legal (s : Trace) (e : RunqEvent) : Prop where
  clock : s.clock ≤ e.time
  room : Room s.prog e

/-- The maps say what the trace says. -/
structure Exact (s : Trace) : Prop where
  delay : ∀ p, valueOf s.prog.runDelay p = (delays p s.past).sum
  count : ∀ p, valueOf s.prog.wakeupCount p = (delays p s.past).length % 2 ^ 64
  keys : ∀ p, p ∈ s.prog.runDelay.keys ↔ p ∈ s.prog.wakeupCount.keys

/-- The difference the handler forms does not underflow. -/
def NoUnderflow (s : Trace) : RunqEvent → Prop
  | .switch next now => ∀ w, s.prog.wakeupTs.lookupElem next = some w → w ≤ now
  | _ => True

/-- What the maps say of one PID. `Within`: its delays lie one after the other, in
front of a wakeup that is pending. -/
structure Tracks (s : Trace) (p : UInt32) : Prop where
  pending : s.prog.wakeupTs.lookupElem p = pending p s.past
  delay : valueOf s.prog.runDelay p = (delays p s.past).sum
  count : valueOf s.prog.wakeupCount p = (delays p s.past).length % 2 ^ 64
  keys : p ∈ s.prog.runDelay.keys ↔ p ∈ s.prog.wakeupCount.keys
  watch : Within 0 s.clock.toNat (delays p s.past).sum
    ((L2Kernel.pending p s.past).map UInt64.toNat)

/-- The maps are unchanged for every other PID. -/
theorem lookup_other {s : CpuRunDelay} {e : RunqEvent} {p : UInt32} (hr : Room s e)
    (hp : p ≠ e.pid) : (handle s e).wakeupTs.lookupElem p = s.wakeupTs.lookupElem p ∧
      (handle s e).runDelay.lookupElem p = s.runDelay.lookupElem p ∧
      (handle s e).wakeupCount.lookupElem p = s.wakeupCount.lookupElem p := by
  cases e with
  | wakeup pid ts =>
    exact ⟨(lookup_update_room hr p ts).trans (if_neg hp), rfl, rfl⟩
  | wakeupNew pid ts =>
    exact ⟨(lookup_update_room hr p ts).trans (if_neg hp), rfl, rfl⟩
  | switch next now =>
    have hp : p ≠ next := hp
    rw [show handle s (.switch next now) = s.handleSchedSwitch next now from rfl]
    cases hl : s.wakeupTs.lookupElem next with
    | none => rw [CpuRunDelay.switch_none hl]; exact ⟨rfl, rfl, rfl⟩
    | some w =>
      rw [CpuRunDelay.switch_some hl]
      refine ⟨HashMap.lookupElem_deleteElem_ne hp _, ?_, ?_⟩
      · exact (lookupElem_countEvent (by decide) p).trans (if_neg hp)
      · exact (lookupElem_countEvent (by decide) p).trans (if_neg hp)

section
variable {s : Trace} {e : RunqEvent} {p : UInt32}

/-- An event of another PID. -/
theorem tracks_other (hT : Tracks s p) (h : Legal s e) (hp : e.pid ≠ p) :
    Tracks ⟨handle s.prog e, e.time, e :: s.past⟩ p := by
  obtain ⟨hts, hdelay, hcount⟩ := lookup_other h.room (Ne.symm hp)
  refine ⟨?_, ?_, ?_, ?_, ?_⟩
  · show (handle s.prog e).wakeupTs.lookupElem p = pending p (e :: s.past)
    rw [hts, pending_other hp, hT.pending]
  · show valueOf (handle s.prog e).runDelay p = (delays p (e :: s.past)).sum
    rw [delays_other hp, ← hT.delay, valueOf, hdelay, valueOf]
  · show valueOf (handle s.prog e).wakeupCount p = (delays p (e :: s.past)).length % 2 ^ 64
    rw [delays_other hp, ← hT.count, valueOf, hcount, valueOf]
  · show p ∈ (handle s.prog e).runDelay.keys ↔ p ∈ (handle s.prog e).wakeupCount.keys
    rw [HashMap.mem_keys_iff, HashMap.mem_keys_iff, hdelay, hcount, ← HashMap.mem_keys_iff,
      ← HashMap.mem_keys_iff]
    exact hT.keys
  · show Within 0 e.time.toNat (delays p (e :: s.past)).sum ((pending p (e :: s.past)).map _)
    rw [delays_other hp, pending_other hp]
    exact hT.watch.wait (UInt64.le_iff_toNat_le.mp h.clock)

/-- A wakeup of `p`: what was pending is dropped. -/
theorem tracks_wakeup (hT : Tracks s p) {ts : UInt64} (hc : s.clock ≤ ts)
    (hr : HasRoom s.prog.wakeupTs p) {e : RunqEvent} (hp : e.pid = p) (hw : e.wokenAt = some ts)
    (hd : delays p (e :: s.past) = delays p s.past) :
    Tracks ⟨{ s.prog with wakeupTs := s.prog.wakeupTs.update p ts .any }, ts, e :: s.past⟩ p := by
  have hpend : pending p (e :: s.past) = some ts := (pending_own hp _).trans hw
  refine ⟨?_, ?_, ?_, hT.keys, ?_⟩
  · exact ((lookup_update_room hr p ts).trans (if_pos rfl)).trans hpend.symm
  · exact hT.delay.trans (congrArg List.sum hd.symm)
  · exact hT.count.trans (congrArg (List.length · % 2 ^ 64) hd.symm)
  · show Within 0 ts.toNat (delays p (e :: s.past)).sum ((pending p (e :: s.past)).map _)
    rw [hd, hpend]
    exact (hT.watch.wait (UInt64.le_iff_toNat_le.mp hc)).start

/-- What is pending is not in the future. -/
theorem le_of_pending (hT : Tracks s p) {w : UInt64}
    (h : s.prog.wakeupTs.lookupElem p = some w) : w ≤ s.clock := by
  have hw := hT.watch
  rw [← hT.pending, h] at hw
  exact UInt64.le_iff_toNat_le.mpr (hw.running w.toNat rfl).2.1

/-- `p` enters a CPU without a wakeup. -/
theorem tracks_unwoken (hT : Tracks s p) {now : UInt64} (h : Legal s (.switch p now))
    (hl : s.prog.wakeupTs.lookupElem p = none) :
    Tracks ⟨s.prog.handleSchedSwitch p now, now, .switch p now :: s.past⟩ p := by
  have hle := UInt64.le_iff_toNat_le.mp (show s.clock ≤ now from h.clock)
  have hpend : pending p (.switch p now :: s.past) = none := pending_own rfl _
  have hnone : pending p s.past = none := hT.pending.symm.trans hl
  have hd := delays_none hnone now
  have hw := hT.watch
  rw [hnone] at hw
  rw [CpuRunDelay.switch_none hl]
  refine ⟨hl.trans hpend.symm, ?_, ?_, hT.keys, ?_⟩
  · exact hT.delay.trans (congrArg List.sum hd.symm)
  · exact hT.count.trans (congrArg (List.length · % 2 ^ 64) hd.symm)
  · show Within 0 now.toNat (delays p (_ :: s.past)).sum ((pending p (_ :: s.past)).map _)
    rw [hd, hpend]
    exact hw.wait hle

/-- It enters after one: the delay is counted. -/
theorem tracks_woken (hT : Tracks s p) {now w : UInt64} (h : Legal s (.switch p now))
    (hl : s.prog.wakeupTs.lookupElem p = some w) :
    Tracks ⟨s.prog.handleSchedSwitch p now, now, .switch p now :: s.past⟩ p := by
  have hclock : s.clock ≤ now := h.clock
  have hpend : pending p (.switch p now :: s.past) = none := pending_own rfl _
  have hsome : pending p s.past = some w := hT.pending.symm.trans hl
  have hsum := delays_some hsome now
  obtain ⟨hrd, hrc⟩ := h.room (by rw [hl]; exact Option.some_ne_none w)
  have hstop : Within 0 now.toNat (delays p (.switch p now :: s.past)).sum none := by
    have hw := hT.watch
    rw [hsome] at hw
    rw [hsum, List.sum_cons, Nat.add_comm]
    exact hw.stop (UInt64.le_iff_toNat_le.mp hclock)
  have hsub : (now - w).toNat = now.toNat - w.toNat :=
    UInt64.toNat_sub_of_le _ _ (UInt64.le_trans (le_of_pending hT hl) hclock)
  rw [CpuRunDelay.switch_some hl]
  refine ⟨?_, ?_, ?_, ?_, ?_⟩
  · exact (HashMap.lookupElem_deleteElem_self _ _).trans hpend.symm
  · -- the sum is at most the time, so it does not wrap
    have hlt : (delays p (.switch p now :: s.past)).sum < 2 ^ 64 :=
      Nat.lt_of_le_of_lt hstop.elapsed now.toNat_lt
    rw [hsum, List.sum_cons] at hlt
    show valueOf (countEvent _ _ _ _ _) p = (delays p _).sum
    rw [valueOf_countEvent hrd, if_pos rfl, hT.delay, hsub, hsum, List.sum_cons, Nat.add_comm]
    exact Nat.mod_eq_of_lt hlt
  · show valueOf (countEvent _ _ _ _ _) p = (delays p _).length % 2 ^ 64
    rw [valueOf_countEvent hrc, if_pos rfl, hT.count, hsum, List.length_cons]
    exact Nat.mod_add_mod _ _ _
  · exact iff_of_true (mem_keys_countEvent (by decide) hrd) (mem_keys_countEvent (by decide) hrc)
  · show Within 0 now.toNat (delays p _).sum ((pending p _).map _)
    rw [hpend]
    exact hstop

theorem tracks_switch (hT : Tracks s p) {now : UInt64} (h : Legal s (.switch p now)) :
    Tracks ⟨s.prog.handleSchedSwitch p now, now, .switch p now :: s.past⟩ p := by
  cases hl : s.prog.wakeupTs.lookupElem p with
  | none => exact tracks_unwoken hT h hl
  | some w => exact tracks_woken hT h hl

/-- **One event** of a legal trace keeps every PID exact. -/
theorem tracks_step (hT : ∀ p, Tracks s p) (h : Legal s e) (p : UInt32) :
    Tracks ⟨handle s.prog e, e.time, e :: s.past⟩ p := by
  by_cases hp : e.pid = p
  · cases e with
    | wakeup pid ts =>
      cases hp
      exact tracks_wakeup (hT _) h.clock h.room rfl rfl rfl
    | wakeupNew pid ts =>
      cases hp
      exact tracks_wakeup (hT _) h.clock h.room rfl rfl rfl
    | switch next now =>
      cases hp
      exact tracks_switch (hT _) h
  · exact tracks_other (hT p) h hp

theorem tracks_init (b bd bc : UInt32 → Nat) (p : UInt32) : Tracks (init (.init b bd bc)) p :=
  ⟨rfl, rfl, rfl, Iff.rfl, Within.fresh 0⟩

theorem exact_of_tracks (hT : ∀ p, Tracks s p) : Exact s :=
  ⟨fun p => (hT p).delay, fun p => (hT p).count, fun p => (hT p).keys⟩

theorem noUnderflow (hT : ∀ p, Tracks s p) (h : Legal s e) : NoUnderflow s e := by
  cases e with
  | switch next now => exact fun w hw => UInt64.le_trans (le_of_pending (hT next) hw) h.clock
  | wakeup => trivial
  | wakeupNew => trivial

end

/-- **Run queue accounting.** Over any trace in time order in which no update
fails, delays and numbers are those of the trace for every PID after every
prefix, the numbers modulo 2^64, and no difference underflows. -/
theorem runDelay_exact (b bd bc : UInt32 → Nat) (es : List RunqEvent)
    (h : Along step Legal (init (.init b bd bc)) es) :
    Always step Exact (init (.init b bd bc)) es ∧
      Along step NoUnderflow (init (.init b bd bc)) es := by
  have hT : Always step (fun s => ∀ p, Tracks s p) (init (.init b bd bc)) es := by
    refine h.always (fun s e s' hT hl hs => ?_) (tracks_init b bd bc)
    cases hs
    exact tracks_step hT hl
  exact ⟨hT.mono fun s => exact_of_tracks, h.of_always (fun s e => noUnderflow) hT⟩

/-- PID 1 is woken twice before it runs, then it runs without a wakeup; PID 2 is new. -/
def mixed : List RunqEvent :=
  [.wakeup 1 100, .wakeupNew 2 150, .wakeup 1 200, .switch 1 350, .switch 2 400, .switch 1 500]

theorem runDelay_mixed :
    (exec step (init (.init (fun _ => 0) (fun _ => 0) fun _ => 0)) mixed).map
      (fun t => (valueOf t.prog.runDelay 1, valueOf t.prog.wakeupCount 1,
        valueOf t.prog.runDelay 2)) = some (150, 1, 250) ∧
    Always step Exact (init (.init (fun _ => 0) (fun _ => 0) fun _ => 0)) mixed ∧
    Along step NoUnderflow (init (.init (fun _ => 0) (fun _ => 0) fun _ => 0)) mixed := by
  refine ⟨by decide +kernel, runDelay_exact _ _ _ mixed ?_⟩
  refine ⟨⟨by decide, .inr (by decide)⟩, fun s hs => ?_⟩
  cases hs
  refine ⟨⟨by decide, .inr (by decide)⟩, fun s hs => ?_⟩
  cases hs
  refine ⟨⟨by decide, .inl (by decide)⟩, fun s hs => ?_⟩
  cases hs
  refine ⟨⟨by decide, fun _ => ⟨.inr (by decide), .inr (by decide)⟩⟩, fun s hs => ?_⟩
  cases hs
  refine ⟨⟨by decide, fun _ => ⟨.inr (by decide), .inr (by decide)⟩⟩, fun s hs => ?_⟩
  cases hs
  exact ⟨⟨by decide, fun h => absurd (by decide) h⟩, fun s hs => trivial⟩

/-! ## A number that wraps -/

/-- PID 1 is woken and runs, `n` times over, within one nanosecond. -/
def rounds (n : Nat) : List RunqEvent := (List.replicate n [.wakeup 1 0, .switch 1 0]).flatten

structure Looped (n : Nat) (s : Trace) : Prop where
  clock : s.clock = 0
  counted : (delays 1 s.past).length = n
  empty : s.prog.wakeupTs.elems = []
  capacity : s.prog.wakeupTs.maxEntries = 10240
  roomDelay : HasRoom s.prog.runDelay 1
  roomCount : HasRoom s.prog.wakeupCount 1
  tracks : ∀ p, Tracks s p

theorem Looped.round {n : Nat} {s : Trace} (h : Looped n s) :
    ∃ s', exec step s [.wakeup 1 0, .switch 1 0] = some s' ∧
      Along step Legal s [.wakeup 1 0, .switch 1 0] ∧ Looped (n + 1) s' := by
  have habs : 1 ∉ s.prog.wakeupTs.keys := by
    rw [HashMap.keys_eq_nil_iff.mpr h.empty]; exact List.not_mem_nil
  have hroom : ¬ s.prog.wakeupTs.Full := by
    unfold HashMap.Full HashMap.size
    rw [h.capacity, h.empty]; decide
  have hl1 : Legal s (.wakeup 1 0) := ⟨by rw [h.clock]; decide, .inr hroom⟩
  have hl2 : Legal ⟨handle s.prog (.wakeup 1 0), 0, .wakeup 1 0 :: s.past⟩ (.switch 1 0) :=
    ⟨UInt64.le_refl _, fun _ => ⟨h.roomDelay, h.roomCount⟩⟩
  have hT := tracks_step h.tracks hl1
  have hpend : pending 1 (.wakeup 1 0 :: s.past) = some 0 := pending_own (e := .wakeup 1 0) rfl _
  have hswitch : handle (handle s.prog (.wakeup 1 0)) (.switch 1 0) =
      { runDelay := countEvent (· + (0 - 0)) (0 - 0) .any s.prog.runDelay 1
        wakeupCount := countEvent (· + 1) 1 .any s.prog.wakeupCount 1
        wakeupTs := (s.prog.wakeupTs.update 1 0 .any).deleteElem 1 } :=
    CpuRunDelay.switch_some ((hT 1).pending.trans hpend) 0
  have hput : (s.prog.wakeupTs.update 1 0 .any) = s.prog.wakeupTs.put 1 0 :=
    HashMap.update_absent habs (show UpdateFlag.any ≠ .exist by decide) hroom 0
  refine ⟨_, rfl, ⟨hl1, fun s' hs => ?_⟩, ⟨rfl, ?_, ?_, ?_, ?_, ?_, tracks_step hT hl2⟩⟩
  · cases hs
    exact ⟨hl2, fun _ _ => trivial⟩
  · show (delays 1 (.switch 1 0 :: .wakeup 1 0 :: s.past)).length = n + 1
    rw [delays_some hpend, List.length_cons]
    exact congrArg (· + 1) h.counted
  · show (handle (handle s.prog (.wakeup 1 0)) (.switch 1 0)).wakeupTs.elems = []
    rw [hswitch, hput]
    show Assoc.erase 1 (Assoc.place _ (1, 0) (Assoc.erase 1 s.prog.wakeupTs.elems)) = []
    rw [h.empty]; rfl
  · show (handle (handle s.prog (.wakeup 1 0)) (.switch 1 0)).wakeupTs.maxEntries = 10240
    rw [hswitch, hput]
    exact h.capacity
  · show HasRoom (handle (handle s.prog (.wakeup 1 0)) (.switch 1 0)).runDelay 1
    rw [hswitch]
    exact .inl (mem_keys_countEvent (by decide) h.roomDelay)
  · show HasRoom (handle (handle s.prog (.wakeup 1 0)) (.switch 1 0)).wakeupCount 1
    rw [hswitch]
    exact .inl (mem_keys_countEvent (by decide) h.roomCount)

theorem rounds_run (n : Nat) : ∃ s,
    exec step (init (.init (fun _ => 0) (fun _ => 0) fun _ => 0)) (rounds n) = some s ∧
    Along step Legal (init (.init (fun _ => 0) (fun _ => 0) fun _ => 0)) (rounds n) ∧
    Looped n s := by
  induction n with
  | zero =>
    exact ⟨_, rfl, trivial, rfl, rfl, rfl, rfl, .inr (by decide), .inr (by decide),
      tracks_init _ _ _⟩
  | succ n ih =>
    obtain ⟨s, hs, hl, h⟩ := ih
    obtain ⟨s', hs', hl', h'⟩ := h.round
    have happ : rounds (n + 1) = rounds n ++ [.wakeup 1 0, .switch 1 0] := by
      unfold rounds
      rw [List.replicate_succ', List.flatten_append]; simp
    rw [happ]
    exact ⟨s', exec_trans hs hs', (along_append hs).mpr ⟨hl, hl'⟩, h'⟩

/-- **Counterexample.** PID 1 runs 2^64 times after a wakeup, and the number is 0. -/
theorem runDelay_wraps :
    Along step Legal (init (.init (fun _ => 0) (fun _ => 0) fun _ => 0)) (rounds (2 ^ 64)) ∧
    ∃ s, exec step (init (.init (fun _ => 0) (fun _ => 0) fun _ => 0)) (rounds (2 ^ 64)) = some s ∧
      (delays 1 s.past).length = 2 ^ 64 ∧ valueOf s.prog.wakeupCount 1 = 0 := by
  obtain ⟨s, hs, hl, h⟩ := rounds_run (2 ^ 64)
  refine ⟨hl, s, hs, h.counted, ?_⟩
  rw [(h.tracks 1).count, h.counted, Nat.mod_self]

end RunQueue
end EbpfDemo.L2Kernel
