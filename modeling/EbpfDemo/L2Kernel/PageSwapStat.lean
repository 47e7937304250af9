import Mathlib.Algebra.Ring.Nat
import Mathlib.Logic.Function.Basic
import EbpfDemo.Core.Machine
import EbpfDemo.Core.Stopwatch
import EbpfDemo.L2Kernel.Counters

/-!
# page_swap_stat: time in direct reclaim

`handle_begin` stores the time under the PID (`start_ts`), `handle_end` takes what
is stored under the PID for the begin of its reclaim, adds the difference to the
process (`total_delay`) and deletes it. `Trace` runs the two over any
interleaving: a thread begins and ends in turn, the threads of a process overlap.

The begin that is stored is that of the process's latest reclaim. A reclaim is
accounted exactly when it finds its own begin, or finds nothing and took no time
(`FindsOwn`).

* `reclaim_iff`: the total of every process is right after every prefix exactly
  when every end finds its own begin;
* `accounted_of_oneAtATime`: so it is when a process has one reclaim open at a
  time;
* `reclaim_overlap`: two threads of one process, 500 ns spent, 100 ns counted.
-/
namespace EbpfDemo.L2Kernel

open EbpfDemo.Core

/-- mirrors src/my_tools/memo/page_swap_stat.bpf.c:5-19 -/
structure PageSwap where
  startTs : HashMap UInt32 UInt64
  totalDelay : HashMap UInt32 UInt64

namespace PageSwap

/-- mirrors src/my_tools/memo/page_swap_stat.bpf.c:21-29 -/
def handleBegin (s : PageSwap) (pid : UInt32) (ts : UInt64) : PageSwap :=
  { s with startTs := s.startTs.update pid ts .any }

/-- mirrors src/my_tools/memo/page_swap_stat.bpf.c:31-50 -/
def handleEnd (s : PageSwap) (pid : UInt32) (now : UInt64) : PageSwap :=
  match s.startTs.lookupElem pid with
  | none => s
  | some start =>
    let delta := now - start
    { totalDelay := countEvent (· + delta) delta .any s.totalDelay pid
      startTs := s.startTs.deleteElem pid }

/-- The programs as loaded. -/
def init (b bt : UInt32 → Nat) : PageSwap := ⟨.empty b 10240, .empty bt 10240⟩

variable {s : PageSwap} {pid : UInt32} {start : UInt64}

theorem handleEnd_none (h : s.startTs.lookupElem pid = none) (now : UInt64) :
    s.handleEnd pid now = s := by
  unfold handleEnd
  rw [h]

theorem totalDelay_handleEnd (h : s.startTs.lookupElem pid = some start)
    (hroom : HasRoom s.totalDelay pid) (now : UInt64) (p : UInt32) :
    valueOf (s.handleEnd pid now).totalDelay p =
      if p = pid then (valueOf s.totalDelay pid + (now - start).toNat) % 2 ^ 64
      else valueOf s.totalDelay p := by
  unfold handleEnd
  rw [h]
  exact valueOf_countEvent hroom (now - start) p

theorem startTs_handleEnd_ne {p : UInt32} (h : p ≠ pid) (now : UInt64) :
    (s.handleEnd pid now).startTs.lookupElem p = s.startTs.lookupElem p := by
  unfold handleEnd
  cases s.startTs.lookupElem pid with
  | none => rfl
  | some start => exact HashMap.lookupElem_deleteElem_ne h _

end PageSwap

/-! ## Traces of reclaims -/

namespace Reclaim

structure Thread where
  pid : UInt32
  tid : UInt32
  deriving DecidableEq

/-- A completed reclaim. -/
structure Done where
  pid : UInt32
  began : UInt64
  ended : UInt64

/-- What it took. -/
def Done.delay (d : Done) : Nat := d.ended.toNat - d.began.toNat

/-- The programs, the clock, the begin of the reclaim each thread is in, and the
completed ones. -/
structure Trace where
  prog : PageSwap
  clock : UInt64
  since : Thread → Option UInt64
  done : List Done

inductive Event where
  | reclaimBegin (t : Thread) (ts : UInt64)
  | reclaimEnd (t : Thread) (now : UInt64)

/-- What the completed reclaims of a process took. -/
def Trace.spent (s : Trace) (pid : UInt32) : Nat :=
  ((s.done.filter fun d => d.pid = pid).map Done.delay).sum

def Trace.enter (s : Trace) (t : Thread) (ts : UInt64) : Trace :=
  { s with
    prog := s.prog.handleBegin t.pid ts
    clock := ts
    since := Function.update s.since t (some ts) }

def Trace.leave (s : Trace) (t : Thread) (began now : UInt64) : Trace where
  prog := s.prog.handleEnd t.pid now
  clock := now
  since := Function.update s.since t none
  done := ⟨t.pid, began, now⟩ :: s.done

/-- The clock does not go back, a thread begins and ends in turn, and no update of
the maps fails. -/
def step (s : Trace) : Event → Option Trace
  | .reclaimBegin t ts =>
    if s.clock ≤ ts ∧ s.since t = none ∧ HasRoom s.prog.startTs t.pid then some (s.enter t ts)
    else none
  | .reclaimEnd t now =>
    match s.since t with
    | none => none
    | some began =>
      if s.clock ≤ now ∧ (t.pid ∈ s.prog.startTs.keys → HasRoom s.prog.totalDelay t.pid) then
        some (s.leave t began now)
      else none

def init (p : PageSwap) : Trace := ⟨p, 0, fun _ => none, []⟩

/-- The total of every process is what its completed reclaims took. -/
def Accounted (s : Trace) : Prop := ∀ pid, valueOf s.prog.totalDelay pid = s.spent pid

/-- An end finds the begin of its own reclaim stored under the process, or nothing
where the reclaim took no time; the total does not wrap. -/
def FindsOwn (s : Trace) : Event → Prop
  | .reclaimBegin .. => True
  | .reclaimEnd t now => ∀ began, s.since t = some began →
      (s.prog.startTs.lookupElem t.pid = some began ∨
        s.prog.startTs.lookupElem t.pid = none ∧ now = began) ∧
      s.spent t.pid + (now.toNat - began.toNat) < 2 ^ 64

/-- No reclaim began in the future. -/
def Inv (s : Trace) : Prop := ∀ t began, s.since t = some began → began ≤ s.clock

theorem step_begin {s s' : Trace} {t : Thread} {ts : UInt64}
    (h : step s (.reclaimBegin t ts) = some s') :
    s.clock ≤ ts ∧ s.since t = none ∧ HasRoom s.prog.startTs t.pid ∧ s' = s.enter t ts := by
  simp only [step] at h
  split at h
  · rename_i hg; cases h; exact ⟨hg.1, hg.2.1, hg.2.2, rfl⟩
  · cases h

theorem step_end {s s' : Trace} {t : Thread} {now : UInt64}
    (h : step s (.reclaimEnd t now) = some s') :
    ∃ began, s.since t = some began ∧ s.clock ≤ now ∧
      (t.pid ∈ s.prog.startTs.keys → HasRoom s.prog.totalDelay t.pid) ∧
      s' = s.leave t began now := by
  simp only [step] at h
  cases hs : s.since t with
  | none => rw [hs] at h; cases h
  | some began =>
    simp only [hs] at h
    split at h
    · rename_i hg; cases h; exact ⟨began, rfl, hg.1, hg.2, rfl⟩
    · cases h

theorem spent_leave (s : Trace) (t : Thread) (began now : UInt64) (pid : UInt32) :
    (s.leave t began now).spent pid =
      if pid = t.pid then s.spent pid + (now.toNat - began.toNat) else s.spent pid := by
  unfold Trace.spent Trace.leave
  by_cases h : pid = t.pid
  · rw [if_pos h, List.filter_cons_of_pos (by simp [h]), List.map_cons, List.sum_cons, Nat.add_comm]
    rfl
  · rw [if_neg h, List.filter_cons_of_neg (by simp [Ne.symm h])]

theorem inv_step (s : Trace) (l : Event) (s' : Trace) (hI : Inv s) (h : step s l = some s') :
    Inv s' := by
  cases l with
  | reclaimBegin t ts =>
    obtain ⟨hc, -, -, rfl⟩ := step_begin h
    intro x b hb
    simp only [Trace.enter, Function.update_apply] at hb
    split at hb
    · cases hb; exact UInt64.le_refl _
    · exact UInt64.le_trans (hI x b hb) hc
  | reclaimEnd t now =>
    obtain ⟨began, -, hc, -, rfl⟩ := step_end h
    intro x b hb
    simp only [Trace.leave, Function.update_apply] at hb
    split at hb
    · cases hb
    · exact UInt64.le_trans (hI x b hb) hc

/-- Nothing is stored and nothing added: right only if there is nothing to add. -/
theorem accounted_missed {s : Trace} {t : Thread} {began now : UInt64} (hQ : Accounted s)
    (hle : began ≤ now) (hl : s.prog.startTs.lookupElem t.pid = none) :
    Accounted (s.leave t began now) ↔ now = began := by
  unfold Accounted
  simp only [spent_leave]
  have hprog : (s.leave t began now).prog = s.prog := PageSwap.handleEnd_none hl now
  rw [hprog]
  constructor
  · intro hA
    have h0 := hA t.pid
    rw [if_pos rfl, hQ] at h0
    have := UInt64.le_iff_toNat_le.mp hle
    exact UInt64.toNat_inj.mp (by omega)
  · rintro rfl pid
    rw [hQ, Nat.sub_self, Nat.add_zero, ite_self]

/-- What is stored is taken for the begin. -/
theorem accounted_found {s : Trace} {t : Thread} {began start now : UInt64} (hQ : Accounted s)
    (hle : began ≤ now) (hl : s.prog.startTs.lookupElem t.pid = some start)
    (hroom : HasRoom s.prog.totalDelay t.pid) :
    Accounted (s.leave t began now) ↔
      start = began ∧ s.spent t.pid + (now.toNat - began.toNat) < 2 ^ 64 := by
  have hval := PageSwap.totalDelay_handleEnd hl hroom now
  have hlt : s.spent t.pid < 2 ^ 64 := by rw [← hQ]; exact UInt64.toNat_lt _
  unfold Accounted
  simp only [spent_leave]
  constructor
  · intro hA
    have h0 := hA t.pid
    rw [if_pos rfl] at h0
    apply eq_of_delta hlt hle
    rw [← h0, ← hQ t.pid]
    exact ((hval t.pid).trans (if_pos rfl)).symm
  · rintro ⟨rfl, hb⟩ pid
    refine (hval pid).trans ?_
    by_cases hp : pid = t.pid
    · rw [if_pos hp, if_pos hp, hp, hQ, UInt64.toNat_sub_of_le _ _ hle, Nat.mod_eq_of_lt hb]
    · rw [if_neg hp, if_neg hp, hQ]

/-- **One event** keeps the totals right exactly when an end finds its own begin. -/
theorem accounted_step (s : Trace) (l : Event) (s' : Trace) (hI : Inv s) (hQ : Accounted s)
    (h : step s l = some s') : Accounted s' ↔ FindsOwn s l := by
  cases l with
  | reclaimBegin t ts =>
    obtain ⟨-, -, -, rfl⟩ := step_begin h
    exact iff_of_true hQ trivial
  | reclaimEnd t now =>
    obtain ⟨began, hs, hc, hroom, rfl⟩ := step_end h
    have hle : began ≤ now := UInt64.le_trans (hI t began hs) hc
    have hlt : s.spent t.pid < 2 ^ 64 := by rw [← hQ]; exact UInt64.toNat_lt _
    simp only [FindsOwn, hs, Option.some.injEq, forall_eq']
    cases hl : s.prog.startTs.lookupElem t.pid with
    | none =>
      rw [accounted_missed hQ hle hl]
      constructor
      · rintro rfl
        exact ⟨.inr ⟨rfl, rfl⟩, by omega⟩
      · rintro ⟨⟨⟨⟩⟩ | ⟨-, he⟩, -⟩
        exact he
    | some start =>
      rw [accounted_found hQ hle hl (hroom (HashMap.mem_keys_of_lookup hl))]
      refine and_congr_left fun _ => ⟨fun he => .inl (congrArg some he), ?_⟩
      rintro (he | ⟨⟨⟩, -⟩)
      exact Option.some.inj he

theorem inv_init (p : PageSwap) : Inv (init p) := fun _ _ h => by cases h

theorem accounted_init (b bt : UInt32 → Nat) : Accounted (init (PageSwap.init b bt)) := fun _ => rfl

/-- **Time in reclaim.** Over any interleaving the total of every process is, after
every prefix, what its completed reclaims took exactly when every end finds the
begin of its own reclaim. -/
theorem reclaim_iff (b bt : UInt32 → Nat) (ls : List Event) (t : Trace)
    (hx : exec step (init (PageSwap.init b bt)) ls = some t) :
    Always step Accounted (init (PageSwap.init b bt)) ls ↔
      Along step FindsOwn (init (PageSwap.init b bt)) ls :=
  always_iff_along inv_step accounted_step (inv_init _) (accounted_init b bt) hx

/-- The programs as loaded, every key in one bucket. -/
def loaded : Trace := init (PageSwap.init (fun _ => 0) fun _ => 0)

/-- Two threads of one process, one after the other, and one of another process. -/
def inTurn : List Event :=
  [.reclaimBegin ⟨7, 1⟩ 100, .reclaimBegin ⟨8, 1⟩ 150, .reclaimEnd ⟨7, 1⟩ 300,
    .reclaimBegin ⟨7, 2⟩ 300, .reclaimEnd ⟨8, 1⟩ 400, .reclaimEnd ⟨7, 2⟩ 500]

theorem reclaim_inTurn :
    (exec step loaded inTurn).map (fun t => (valueOf t.prog.totalDelay 7,
      valueOf t.prog.totalDelay 8)) = some (400, 250) ∧
    Always step Accounted loaded inTurn := by
  have hx : (exec step loaded inTurn).map (fun t => (valueOf t.prog.totalDelay 7,
      valueOf t.prog.totalDelay 8)) = some (400, 250) := by decide +kernel
  obtain ⟨t, ht, -⟩ := Option.map_eq_some_iff.mp hx
  refine ⟨hx, (reclaim_iff _ _ inTurn t ht).mpr ?_⟩
  -- every end finds the begin of its own reclaim
  refine ⟨trivial, fun s hs => ?_⟩
  cases hs
  refine ⟨trivial, fun s hs => ?_⟩
  cases hs
  refine ⟨fun b hb => by cases hb; decide, fun s hs => ?_⟩
  cases hs
  refine ⟨trivial, fun s hs => ?_⟩
  cases hs
  refine ⟨fun b hb => by cases hb; decide, fun s hs => ?_⟩
  cases hs
  exact ⟨fun b hb => by cases hb; decide, fun _ _ => trivial⟩

/-- **Counterexample.** One thread is in reclaim from 100 to 300, another of its
process from 200 to 500. The begin of the second replaces that of the first, and
the first end takes it away: 100 ns of the 500. -/
theorem reclaim_overlap :
    ∃ t, exec step loaded [.reclaimBegin ⟨7, 1⟩ 100, .reclaimBegin ⟨7, 2⟩ 200,
        .reclaimEnd ⟨7, 1⟩ 300, .reclaimEnd ⟨7, 2⟩ 500] = some t ∧
      t.spent 7 = 500 ∧ valueOf t.prog.totalDelay 7 = 100 ∧ ¬ Accounted t :=
  ⟨_, rfl, by decide, by decide, fun h => absurd (h 7) (by decide)⟩

/-! ## One reclaim at a time -/

/-- A thread begins while no thread of its process is in reclaim; the totals do not
wrap. -/
def OneAtATime (s : Trace) : Event → Prop
  | .reclaimBegin t _ => ∀ x, x.pid = t.pid → s.since x = none
  | .reclaimEnd t now => ∀ began, s.since t = some began →
      s.spent t.pid + (now.toNat - began.toNat) < 2 ^ 64

/-- The begin of every reclaim under way is stored under its process. -/
structure Stored (s : Trace) : Prop where
  apart : ∀ t x b c, s.since t = some b → s.since x = some c → t.pid = x.pid → t = x
  found : ∀ t b, s.since t = some b → s.prog.startTs.lookupElem t.pid = some b

theorem stored_enter {s : Trace} (hS : Stored s) {t : Thread}
    (hfree : ∀ x, x.pid = t.pid → s.since x = none) (hroom : HasRoom s.prog.startTs t.pid)
    (ts : UInt64) : Stored (s.enter t ts) := by
  have hother : ∀ x b, x ≠ t → (s.enter t ts).since x = some b →
      s.since x = some b ∧ x.pid ≠ t.pid := by
    intro x b hx hb
    simp only [Trace.enter, Function.update_apply, if_neg hx] at hb
    refine ⟨hb, fun e => ?_⟩
    rw [hfree x e] at hb; cases hb
  constructor
  · intro x y b c hb hc hp
    by_cases hx : x = t
    · by_cases hy : y = t
      · rw [hx, hy]
      · exact absurd (hx ▸ hp).symm (hother y c hy hc).2
    · by_cases hy : y = t
      · exact absurd (hy ▸ hp) (hother x b hx hb).2
      · exact hS.apart x y b c (hother x b hx hb).1 (hother y c hy hc).1 hp
  · intro x b hb
    show (s.prog.startTs.update t.pid ts .any).lookupElem x.pid = _
    rw [lookup_update_room hroom]
    by_cases hx : x = t
    · simp only [Trace.enter, Function.update_apply, if_pos hx] at hb
      rw [if_pos (by rw [hx])]; exact hb
    · rw [if_neg (hother x b hx hb).2]
      exact hS.found x b (hother x b hx hb).1

theorem stored_leave {s : Trace} (hS : Stored s) {t : Thread} {began : UInt64}
    (ht : s.since t = some began) (now : UInt64) : Stored (s.leave t began now) := by
  have hother : ∀ x b, (s.leave t began now).since x = some b → x ≠ t ∧ s.since x = some b := by
    intro x b hb
    simp only [Trace.leave, Function.update_apply] at hb
    split at hb
    · cases hb
    · exact ⟨‹_›, hb⟩
  constructor
  · intro x y b c hb hc
    exact hS.apart x y b c (hother x b hb).2 (hother y c hc).2
  · intro x b hb
    obtain ⟨hx, hb⟩ := hother x b hb
    have hp : x.pid ≠ t.pid := fun e => hx (hS.apart x t b began hb ht e)
    exact (PageSwap.startTs_handleEnd_ne hp now).trans (hS.found x b hb)

theorem stored_step (s : Trace) (l : Event) (s' : Trace) (hS : Stored s) (hP : OneAtATime s l)
    (h : step s l = some s') : Stored s' := by
  cases l with
  | reclaimBegin t ts =>
    obtain ⟨-, -, hroom, rfl⟩ := step_begin h
    exact stored_enter hS hP hroom ts
  | reclaimEnd t now =>
    obtain ⟨began, ht, -, -, rfl⟩ := step_end h
    exact stored_leave hS ht now

theorem findsOwn_of_oneAtATime (s : Trace) (l : Event) (s' : Trace) (hS : Stored s)
    (hP : OneAtATime s l) (h : step s l = some s') : FindsOwn s l := by
  cases l with
  | reclaimBegin t ts => trivial
  | reclaimEnd t now => exact fun began hb => ⟨.inl (hS.found t began hb), hP began hb⟩

/-- **One at a time.** If no process has two reclaims open at once, the totals are
right after every prefix. -/
theorem accounted_of_oneAtATime (b bt : UInt32 → Nat) (ls : List Event) (t : Trace)
    (hx : exec step (init (PageSwap.init b bt)) ls = some t)
    (hP : Along step OneAtATime (init (PageSwap.init b bt)) ls) :
    Always step Accounted (init (PageSwap.init b bt)) ls := by
  refine (always_iff_along inv_step accounted_step (inv_init _) (accounted_init b bt) hx).mpr ?_
  exact hP.imp stored_step findsOwn_of_oneAtATime
    ⟨fun _ _ _ _ h => (by cases h), fun _ _ h => (by cases h)⟩ hx

end Reclaim
end EbpfDemo.L2Kernel
