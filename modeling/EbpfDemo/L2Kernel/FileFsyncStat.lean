import Mathlib.Algebra.Ring.Nat
import EbpfDemo.Core.ArrayMap
import EbpfDemo.Core.Machine
import EbpfDemo.Core.Stopwatch
import EbpfDemo.L2Kernel.Counters

/-!
# file_fsync_stat: latency of `vfs_fsync_range`

The entry probe stores the time under the PID (`fsync_start`), the return probe
takes what is stored under the PID for the entry time of its call, adds the
difference to the statistics and deletes it. `Trace` runs the two probes over
any interleaving of calls: a thread's calls nest (a stacked file system calls
`vfs_fsync_range` again), the threads of a process overlap.

A process has one slot for all its open calls. A call is accounted exactly when
the time in the slot is its own (`FindsOwn`). `fsync_iff`: the total and the
count are right after every prefix exactly when every return finds its own
entry time. `always_accounted_of_oneAtATime`: that is the case when a process
has one call open at a time. `fsync_nested`: an inner call overwrites the time of
the outer one and then deletes it, so the outer call is not counted.
-/
namespace EbpfDemo.L2Kernel

open EbpfDemo.Core

/-- mirrors src/my_tools/file/file_fsync_stat.bpf.c:9-37 -/
structure FileFsync where
  fsyncStart : HashMap UInt32 UInt64
  fsyncStats : ArrayMap UInt64 8
  pidFsyncLatency : HashMap UInt32 UInt64
  pidFsyncCount : HashMap UInt32 UInt64

namespace FileFsync

/-- mirrors src/my_tools/file/file_fsync_stat.bpf.c:39-44 -/
def recordFsyncEntry (s : FileFsync) (pid : UInt32) (ts : UInt64) : FileFsync :=
  { s with fsyncStart := s.fsyncStart.update pid ts .any }

/-- mirrors src/my_tools/file/file_fsync_stat.bpf.c:46-82 -/
def recordFsyncExit (s : FileFsync) (idx pid : UInt32) (now : UInt64) : FileFsync :=
  match s.fsyncStart.lookupElem pid with
  | none => s
  | some start =>
    let delta := now - start
    { fsyncStart := s.fsyncStart.deleteElem pid
      fsyncStats := (s.fsyncStats.bump idx (· + delta) delta).bump (idx + 1) (· + 1) 1
      pidFsyncLatency := countEvent (· + delta) delta .any s.pidFsyncLatency pid
      pidFsyncCount := countEvent (· + 1) 1 .any s.pidFsyncCount pid }

/-- mirrors src/my_tools/file/file_fsync_stat.bpf.c:84-89 -/
def handleFsyncEntry (s : FileFsync) (pid : UInt32) (ts : UInt64) : FileFsync :=
  s.recordFsyncEntry pid ts

/-- mirrors src/my_tools/file/file_fsync_stat.bpf.c:91-96 -/
def handleFsyncExit (s : FileFsync) (pid : UInt32) (now : UInt64) : FileFsync :=
  s.recordFsyncExit 0 pid now

/-- Programs as loaded: nothing counted, no time stored. -/
def init (b bl bc : UInt32 → Nat) : FileFsync where
  fsyncStart := .empty b 10240
  fsyncStats := Vector.replicate 8 0
  pidFsyncLatency := .empty bl 10240
  pidFsyncCount := .empty bc 10240

variable {s : FileFsync} {pid : UInt32} {start : UInt64}

theorem exit_none (h : s.fsyncStart.lookupElem pid = none) (now : UInt64) :
    s.handleFsyncExit pid now = s := by
  unfold handleFsyncExit recordFsyncExit
  rw [h]

theorem exit_stats (h : s.fsyncStart.lookupElem pid = some start) (now : UInt64) :
    (s.handleFsyncExit pid now).fsyncStats.valueAt 0 =
      (s.fsyncStats.valueAt 0 + (now - start).toNat) % 2 ^ 64 ∧
    (s.handleFsyncExit pid now).fsyncStats.valueAt 1 =
      (s.fsyncStats.valueAt 1 + 1) % 2 ^ 64 := by
  unfold handleFsyncExit recordFsyncExit
  rw [h]
  dsimp only
  have h01 : (0 : UInt32) ≠ 0 + 1 := by decide
  have h10 : (1 : UInt32) ≠ 0 := by decide
  have h11 : (1 : UInt32) = 0 + 1 := by decide
  constructor
  · rw [ArrayMap.valueAt_bump (by decide), if_neg h01, ArrayMap.valueAt_bump (by decide), if_pos rfl]
  · rw [ArrayMap.valueAt_bump (by decide), if_pos h11, ← h11, ArrayMap.valueAt_bump (by decide),
      if_neg h10]
    rfl

/-- A return touches the slot of its own process only. -/
theorem exit_start_ne {k : UInt32} (h : k ≠ pid) (now : UInt64) :
    (s.handleFsyncExit pid now).fsyncStart.lookupElem k = s.fsyncStart.lookupElem k := by
  unfold handleFsyncExit recordFsyncExit
  cases s.fsyncStart.lookupElem pid with
  | none => rfl
  | some start => exact HashMap.lookupElem_deleteElem_ne h _

end FileFsync

/-! ## Traces of calls -/

/-- A call that has not returned. -/
structure Call where
  pid : UInt32
  tid : UInt32
  entered : UInt64
  deriving DecidableEq

namespace Fsync

/-- The programs, the clock, the open calls (the latest first) and the
latencies of the completed ones. -/
structure Trace where
  prog : FileFsync
  clock : UInt64
  calls : List Call
  done : List Nat

inductive Event where
  | entry (pid tid : UInt32) (ts : UInt64)
  | ret (pid tid : UInt32) (now : UInt64)

/-- The innermost open call of a thread. -/
def Trace.inner (s : Trace) (pid tid : UInt32) : Option Call :=
  s.calls.find? fun c => c.pid = pid ∧ c.tid = tid

/-- The state after the return of call `c` at `now`. -/
def Trace.finish (s : Trace) (c : Call) (now : UInt64) : Trace where
  prog := s.prog.handleFsyncExit c.pid now
  clock := now
  calls := s.calls.erase c
  done := (now.toNat - c.entered.toNat) :: s.done

/-- The clock does not go back; what returns is the innermost call of its
thread. -/
def step (s : Trace) : Event → Option Trace
  | .entry pid tid ts =>
    if s.clock ≤ ts then
      some { s with
        prog := s.prog.handleFsyncEntry pid ts
        clock := ts
        calls := ⟨pid, tid, ts⟩ :: s.calls }
    else none
  | .ret pid tid now =>
    match s.inner pid tid with
    | none => none
    | some c => if s.clock ≤ now then some (s.finish c now) else none

def init (p : FileFsync) : Trace := ⟨p, 0, [], []⟩

/-- The statistics are the sum and the number of the latencies. -/
def Accounted (s : Trace) : Prop :=
  s.prog.fsyncStats.valueAt 0 = s.done.sum ∧ s.prog.fsyncStats.valueAt 1 = s.done.length

/-- A return finds the entry time of its own call in the slot of its process,
and the totals do not wrap. -/
def FindsOwn (s : Trace) : Event → Prop
  | .entry .. => True
  | .ret pid tid now => ∀ c, s.inner pid tid = some c →
      s.prog.fsyncStart.lookupElem pid = some c.entered ∧
        s.done.sum + (now.toNat - c.entered.toNat) < 2 ^ 64 ∧ s.done.length + 1 < 2 ^ 64

instance (s : Trace) (l : Event) : Decidable (FindsOwn s l) :=
  match l with
  | .entry .. => isTrue trivial
  | .ret pid tid now => inferInstanceAs (Decidable (∀ c ∈ s.inner pid tid,
      s.prog.fsyncStart.lookupElem pid = some c.entered ∧
        s.done.sum + (now.toNat - c.entered.toNat) < 2 ^ 64 ∧ s.done.length + 1 < 2 ^ 64))

/-- No open call was entered in the future. -/
def Inv (s : Trace) : Prop := ∀ c ∈ s.calls, c.entered ≤ s.clock

theorem step_entry {s s' : Trace} {pid tid : UInt32} {ts : UInt64}
    (h : step s (.entry pid tid ts) = some s') :
    s.clock ≤ ts ∧ s' = { s with
      prog := s.prog.handleFsyncEntry pid ts
      clock := ts
      calls := ⟨pid, tid, ts⟩ :: s.calls } := by
  simp only [step] at h
  split at h
  · cases h; exact ⟨‹_›, rfl⟩
  · cases h

theorem step_ret {s s' : Trace} {pid tid : UInt32} {now : UInt64}
    (h : step s (.ret pid tid now) = some s') :
    ∃ c ∈ s.calls, s.inner pid tid = some c ∧ c.pid = pid ∧ s.clock ≤ now ∧
      s' = s.finish c now := by
  simp only [step] at h
  cases hf : s.inner pid tid with
  | none => rw [hf] at h; cases h
  | some c =>
    rw [hf] at h
    simp only at h
    have hp : c.pid = pid ∧ c.tid = tid := by simpa using List.find?_some hf
    split at h
    · cases h; exact ⟨c, List.mem_of_find?_eq_some hf, rfl, hp.1, ‹_›, rfl⟩
    · cases h

theorem inv_step (s : Trace) (l : Event) (s' : Trace) (hI : Inv s) (h : step s l = some s') :
    Inv s' := by
  cases l with
  | entry pid tid ts =>
    obtain ⟨hc, rfl⟩ := step_entry h
    intro c hmem
    rcases List.mem_cons.mp hmem with rfl | hmem
    · exact UInt64.le_refl _
    · exact UInt64.le_trans (hI c hmem) hc
  | ret pid tid now =>
    obtain ⟨c, -, -, -, hc, rfl⟩ := step_ret h
    intro x hx
    exact UInt64.le_trans (hI x (List.mem_of_mem_erase hx)) hc

/-- **One event** keeps the statistics right exactly when a return finds its own
entry time. -/
theorem accounted_step (s : Trace) (l : Event) (s' : Trace) (hI : Inv s) (hQ : Accounted s)
    (h : step s l = some s') : Accounted s' ↔ FindsOwn s l := by
  cases l with
  | entry pid tid ts =>
    obtain ⟨-, rfl⟩ := step_entry h
    exact ⟨fun _ => trivial, fun _ => hQ⟩
  | ret pid tid now =>
    obtain ⟨c, hmem, hf, rfl, hc, rfl⟩ := step_ret h
    have hle : c.entered ≤ now := UInt64.le_trans (hI c hmem) hc
    simp only [FindsOwn, hf, Option.some.injEq, forall_eq']
    obtain ⟨q0, q1⟩ := hQ
    have b0 := s.prog.fsyncStats.valueAt_lt 0
    have b1 := s.prog.fsyncStats.valueAt_lt 1
    unfold Accounted Trace.finish
    dsimp only
    rw [List.sum_cons, List.length_cons]
    cases hs : s.prog.fsyncStart.lookupElem c.pid with
    | none =>
      -- nothing stored: the count is one short
      rw [FileFsync.exit_none hs, q1]
      refine ⟨fun h => by omega, fun h => by cases h.1⟩
    | some start =>
      obtain ⟨a0, a1⟩ := FileFsync.exit_stats hs now
      have hlt := (now - start).toNat_lt
      rw [a0, a1, q0, q1]
      constructor
      · rintro ⟨h0, h1⟩
        rw [q0] at b0
        obtain ⟨rfl, hsum⟩ := eq_of_delta b0 hle (h0.trans (Nat.add_comm _ _))
        exact ⟨rfl, hsum, by omega⟩
      · rintro ⟨hst, h0, h1⟩
        cases hst
        rw [UInt64.toNat_sub_of_le _ _ hle]
        exact ⟨by omega, by omega⟩

theorem accounted_init (b bl bc : UInt32 → Nat) : Accounted (init (FileFsync.init b bl bc)) :=
  ⟨rfl, rfl⟩

theorem inv_init (p : FileFsync) : Inv (init p) := fun _ h => by cases h

/-- **fsync latency.** Over any interleaving of calls the total and the count
are, after every prefix, those of the completed calls exactly when every return
finds the entry time of its own call. -/
theorem fsync_iff (b bl bc : UInt32 → Nat) (ls : List Event) (t : Trace)
    (hx : exec step (init (FileFsync.init b bl bc)) ls = some t) :
    Always step Accounted (init (FileFsync.init b bl bc)) ls ↔
      Along step FindsOwn (init (FileFsync.init b bl bc)) ls :=
  always_iff_along inv_step accounted_step (inv_init _) (accounted_init b bl bc) hx

/-! ## One call at a time -/

/-- A call is entered while its process has no other open, and there is room for
its time; the totals do not wrap. -/
def OneAtATime (s : Trace) : Event → Prop
  | .entry pid _ _ => (∀ c ∈ s.calls, c.pid ≠ pid) ∧ HasRoom s.prog.fsyncStart pid
  | .ret pid tid now => ∀ c, s.inner pid tid = some c →
      s.done.sum + (now.toNat - c.entered.toNat) < 2 ^ 64 ∧ s.done.length + 1 < 2 ^ 64

/-- The entry time of every open call is in the slot of its process. -/
structure Stored (s : Trace) : Prop where
  apart : s.calls.Pairwise fun a b => a.pid ≠ b.pid
  found : ∀ c ∈ s.calls, s.prog.fsyncStart.lookupElem c.pid = some c.entered

theorem stored_step (s : Trace) (l : Event) (s' : Trace) (hS : Stored s) (hP : OneAtATime s l)
    (h : step s l = some s') : Stored s' := by
  cases l with
  | entry pid tid ts =>
    obtain ⟨-, rfl⟩ := step_entry h
    refine ⟨List.pairwise_cons.mpr ⟨fun c hc => (hP.1 c hc).symm, hS.apart⟩, fun c hc => ?_⟩
    show (s.prog.fsyncStart.update pid ts .any).lookupElem c.pid = _
    rw [lookup_update_room hP.2]
    rcases List.mem_cons.mp hc with rfl | hc
    · exact if_pos rfl
    · rw [if_neg (hP.1 c hc)]; exact hS.found c hc
  | ret pid tid now =>
    obtain ⟨c, hmem, -, rfl, -, rfl⟩ := step_ret h
    refine ⟨hS.apart.erase c, fun x hx => ?_⟩
    have hne : x.pid ≠ c.pid := by
      have hmove := (List.pairwise_cons.mp
        ((List.perm_cons_erase hmem).pairwise hS.apart fun h => h.symm)).1
      exact (hmove x hx).symm
    show (s.prog.handleFsyncExit c.pid now).fsyncStart.lookupElem x.pid = _
    rw [FileFsync.exit_start_ne hne]
    exact hS.found x (List.mem_of_mem_erase hx)

theorem findsOwn_of_oneAtATime (s : Trace) (l : Event) (s' : Trace) (hS : Stored s)
    (hP : OneAtATime s l) (h : step s l = some s') : FindsOwn s l := by
  cases l with
  | entry pid tid ts => trivial
  | ret pid tid now =>
    intro c hf
    obtain ⟨c', hmem, hf', rfl, -, -⟩ := step_ret h
    rw [hf] at hf'; cases hf'
    exact ⟨hS.found c hmem, hP c hf⟩

/-- **One at a time.** If no process has two calls open at once, the statistics
are right after every prefix. -/
theorem always_accounted_of_oneAtATime (b bl bc : UInt32 → Nat) (ls : List Event) (t : Trace)
    (hx : exec step (init (FileFsync.init b bl bc)) ls = some t)
    (hP : Along step OneAtATime (init (FileFsync.init b bl bc)) ls) :
    Always step Accounted (init (FileFsync.init b bl bc)) ls := by
  refine (fsync_iff b bl bc ls t hx).mpr ?_
  exact hP.imp stored_step findsOwn_of_oneAtATime
    ⟨List.Pairwise.nil, fun _ h => by cases h⟩ hx

/-- A call of process 2 overlaps two of process 1, which come one after the other and from
two threads. -/
def oneByOne : List Event :=
  [.entry 1 1 100, .entry 2 2 150, .ret 1 1 350, .entry 1 3 400, .ret 2 2 500, .ret 1 3 600]

theorem fsync_oneByOne :
    (exec step (init (FileFsync.init (fun _ => 0) (fun _ => 0) fun _ => 0)) oneByOne).map
      Trace.done = some [200, 350, 250] ∧
    Always step Accounted (init (FileFsync.init (fun _ => 0) (fun _ => 0) fun _ => 0)) oneByOne :=
  ⟨by decide, (fsync_iff _ _ _ oneByOne _ rfl).mpr (by decide +kernel)⟩

/-- **Counterexample.** A call of a stacked file system, open from 100 to 500,
contains a call of the file system below, from 200 to 300. The inner one is
counted, the outer one is not. -/
theorem fsync_nested :
    ∃ t, exec step (init (FileFsync.init (fun _ => 0) (fun _ => 0) fun _ => 0))
      [.entry 1 1 100, .entry 1 1 200, .ret 1 1 300, .ret 1 1 500] = some t ∧
      t.done = [400, 100] ∧ t.prog.fsyncStats.valueAt 0 = 100 ∧ ¬ Accounted t :=
  ⟨_, rfl, by decide, by decide, by unfold Accounted; decide⟩

end Fsync
end EbpfDemo.L2Kernel
