import EbpfDemo.L3Loader.Accounts

/-!
# mem_oom_stat: kills and victims

Every call of `oom_kill_process` is counted in `oom_stats[0]` and under the PID that
runs the kill. A poll prints what the total has grown by since its last successful
lookup, and then walks the PIDs and deletes what it reads.

* `oom_views`: the growth printed and not yet printed are the kills, whatever lookups
  fail, and nothing else; so are, for any set of PIDs, the lines of the PIDs with what
  the map holds and what did not land.
-/
namespace EbpfDemo.L5Concurrency.OomStat

open EbpfDemo.Core
open L2Kernel
open L3Loader

/-- mirrors src/my_tools/memo/mem_oom_stat.bpf.c:10-14 -/
structure OomVictim where
  count : UInt64
  comm : Comm
  deriving DecidableEq

def OomVictim.add (v : OomVictim) : OomVictim := { v with count := v.count + 1 }

/-- mirrors src/my_tools/memo/mem_oom_stat.bpf.c:16-29 -/
structure Maps where
  oomVictimMap : HashMap UInt32 OomVictim
  oomStats : ArrayMap UInt64 4

/-- mirrors src/my_tools/memo/mem_oom_stat.bpf.c:33-61 -/
def handleOomKillProcess (m : Maps) (pid : UInt32) (comm : Comm) : Maps where
  oomStats := m.oomStats.bump 0 (· + 1) 1
  oomVictimMap := countEvent .add ⟨1, comm⟩ .any m.oomVictimMap pid

/-- mirrors src/my_tools/memo/mem_oom_stat.c:67-80 -/
def oomVictims : Drain UInt32 OomVictim where
  start := some 0
  shown v := decide (v.count > 0)
  clear m k := m.deleteElem k

/-- The poll stands before the lookup of the total, or in the walk. -/
inductive Phase where
  | total | victims
  deriving DecidableEq

/-- `oomStats` has the map of this name, `prev_oom_count`, and the values of
`oom_kill_events` printed so far. -/
structure State where
  victims : DState UInt32 OomVictim
  oomStats : SlotTotal
  phase : Phase

def State.maps (s : State) : Maps := ⟨s.victims.map, s.oomStats.stats⟩

def State.withMaps (s : State) (m : Maps) : State := { s with
  victims := { s.victims with map := m.oomVictimMap }
  oomStats := { s.oomStats with stats := m.oomStats } }

def start (b : UInt32 → Nat) : State where
  victims := .fresh (.empty b 10240)
  oomStats := .fresh
  phase := .total

/-- `ok`: the lookup succeeds.
mirrors src/my_tools/memo/mem_oom_stat.c:55-65 -/
def State.readTotal (s : State) (ok : Bool) : State := { s with oomStats := s.oomStats.read ok }

/-- A map call of the poll.
mirrors src/my_tools/memo/mem_oom_stat.c:52-83 -/
def State.poll (s : State) (ok : Bool) : State :=
  match s.phase with
  | .total => { s.readTotal ok with phase := .victims }
  | .victims =>
    let victims := pollStep oomVictims s.victims
    { s with victims := victims, phase := if victims.pc = .idle then .total else .victims }

inductive Label where
  | kill (pid : UInt32) (comm : Comm)
  | poll (ok : Bool)

def step (s : State) : Label → Option State
  | .kill pid comm => some (s.withMaps (handleOomKillProcess s.maps pid comm))
  | .poll ok => some (s.poll ok)

/-! ## The books -/

/-- The total as the loader sees it. -/
def State.growing (s : State) : Growing := s.oomStats.growing

def Label.kills : Label → Nat
  | .kill _ _ => 1
  | .poll _ => 0

/-- A kill under its PID. -/
def Label.victim : Label → Hit UInt32
  | .kill pid _ => some (pid, 1)
  | .poll _ => none

def Label.killsOf (P : UInt32 → Bool) (l : Label) : Nat := l.victim.owed P

def lost (P : UInt32 → Bool) (s : State) (l : Label) : Nat := s.victims.lostOf P l.victim

section
variable {s s' : State} {l : Label}

theorem growing_step (h : step s l = some s') :
    Wrapped (2 ^ 64) s'.growing.account (s.growing.account + l.kills) := by
  cases l with
  | kill pid comm =>
    cases h
    exact s.oomStats.account_bump
  | poll ok =>
    cases h
    refine .of_eq ?_
    unfold State.poll
    cases s.phase with
    | total => exact s.oomStats.account_read ok
    | victims => rfl

theorem step_touch (h : step s l = some s') :
    Touch oomVictims OomVictim.count s.victims l.victim s'.victims := by
  cases l with
  | kill pid comm => cases h; exact .event (fun _ => rfl) rfl
  | poll ok =>
    cases h
    cases hp : s.phase <;> simp only [State.poll, hp]
    · exact .still
    · exact .call

end

/-- **Kills.** In every interleaving of kills and map calls of the polls, and whatever
lookups of the total fail: the growth printed and that not yet printed are the kills; and
for every set of PIDs the lines of its PIDs, what the map still holds of them and the
kills that did not land are its kills. -/
theorem oom_views (b : UInt32 → Nat) (ls : List Label) {t : State}
    (hx : exec step (start b) ls = some t) (P : UInt32 → Bool) :
    Wrapped (2 ^ 64) t.growing.account (ls.map Label.kills).sum ∧
      Wrapped (2 ^ 64)
        (t.victims.account (within P OomVictim.count) + sumAlong step (lost P) (start b) ls)
        (ls.map (Label.killsOf P)).sum := by
  constructor
  · have h0 : (start b).growing.account = 0 := SlotTotal.account_fresh
    have h := wrapped_sumAlong (fun _ _ _ h => growing_step h) hx
    rw [h0, Nat.zero_add, sumAlong_labels hx] at h
    exact h
  · exact account_touches (fun _ _ => rfl) (fun _ => eq_zero_of_hidden)
      (fun _ _ _ h => step_touch h) rfl hx

/-- The first lookup of the total fails; a kill comes while its PID is being deleted. -/
def failing : List Label :=
  [.kill 7 nameA, .poll false, .poll true, .poll true, .poll true, .kill 7 nameA] ++
    List.replicate 3 (.poll true)

theorem oom_views_failing : ∃ t, exec step (start UInt32.toNat) failing = some t ∧
    t.oomStats.deltas = [2] ∧ t.victims.shown = [(7, ⟨1, nameA⟩)] ∧
    Wrapped (2 ^ 64) t.growing.account (failing.map Label.kills).sum := by
  have hx : (exec step (start UInt32.toNat) failing).map
      (fun t => (t.oomStats.deltas, t.victims.shown)) = some ([2], [(7, ⟨1, nameA⟩)]) := by
    decide +kernel
  obtain ⟨t, ht, hp⟩ := Option.map_eq_some_iff.mp hx
  obtain ⟨h1, h2⟩ := Prod.mk.inj hp
  exact ⟨t, ht, h1, h2, (oom_views _ failing ht fun _ => true).1⟩

end EbpfDemo.L5Concurrency.OomStat
