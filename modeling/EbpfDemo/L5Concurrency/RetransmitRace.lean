import EbpfDemo.L3Loader.Accounts
import EbpfDemo.L3Loader.RetransmitViews

/-!
# net_tcp_retransmit: the three views while events come in

`L3Loader.RetransmitViews` compares the three views after polls that no event
interrupts. Here events come between any two map calls of a poll, and the lookup of the
total may fail.

* `retransmit_race`: each view accounts for all events, the walks with what did not land
  in their map; so two views differ by what their walks lost and by what the poll has
  not yet come to.
-/
namespace EbpfDemo.L5Concurrency.RetransmitRace

open EbpfDemo.Core
open L2Kernel
open L3Loader

inductive Phase where
  | total | pids | comms
  deriving DecidableEq

/-- `retransStats` has the map of this name, `prev_total`, and the values of
`tcp_retransmit_delta` printed so far. -/
structure State where
  pids : DState UInt32 ConnInfo
  comms : DState Comm UInt64
  retransStats : SlotTotal
  phase : Phase

def State.prog (s : State) : TcpRetransmit := ⟨s.pids.map, s.comms.map, s.retransStats.stats⟩

def State.withProg (s : State) (p : TcpRetransmit) : State := { s with
  pids := { s.pids with map := p.retransMap }
  comms := { s.comms with map := p.retransCommMap }
  retransStats := { s.retransStats with stats := p.retransStats } }

def start (b : UInt32 → Nat) (bc : Comm → Nat) : State where
  pids := .fresh (.empty b 10240)
  comms := .fresh (.empty bc 10240)
  retransStats := .fresh
  phase := .total

/-- mirrors src/my_tools/network/net_tcp_retransmit.c:52-63 -/
def State.readTotal (s : State) (ok : Bool) : State :=
  { s with retransStats := s.retransStats.read ok }

/-- mirrors src/my_tools/network/net_tcp_retransmit.c:49-103 -/
def State.poll (s : State) (ok : Bool) : State :=
  match s.phase with
  | .total => { s.readTotal ok with phase := .pids }
  | .pids =>
    let pids := pollStep netTcpRetransmit s.pids
    { s with pids := pids, phase := if pids.pc = .idle then .comms else .pids }
  | .comms =>
    let comms := pollStep netTcpRetransmitComm s.comms
    { s with comms := comms, phase := if comms.pc = .idle then .total else .comms }

inductive Label where
  | event (pid : UInt32) (comm : Comm)
  | poll (ok : Bool)

def step (s : State) : Label → Option State
  | .event pid comm => some (s.withProg (handleTcpRetransmit s.prog pid comm))
  | .poll ok => some (s.poll ok)

/-! ## The books -/

def State.growing (s : State) : Growing := s.retransStats.growing

def Label.events : Label → Nat
  | .event _ _ => 1
  | .poll _ => 0

/-- An event under its PID, -/
def Label.pid : Label → Hit UInt32
  | .event pid _ => some (pid, 1)
  | .poll _ => none

/-- and under its name. -/
def Label.comm : Label → Hit Comm
  | .event _ comm => some (comm, 1)
  | .poll _ => none

section
variable (P : UInt32 → Bool) (Q : Comm → Bool)

def Label.ofPids (l : Label) : Nat := l.pid.owed P

def Label.ofComms (l : Label) : Nat := l.comm.owed Q

def lostPids (s : State) (l : Label) : Nat := s.pids.lostOf P l.pid

def lostComms (s : State) (l : Label) : Nat := s.comms.lostOf Q l.comm

end

section
variable {s s' : State} {l : Label}

theorem growing_step (h : step s l = some s') :
    Wrapped (2 ^ 64) s'.growing.account (s.growing.account + l.events) := by
  cases l with
  | event pid comm =>
    cases h
    exact s.retransStats.account_bump
  | poll ok =>
    cases h
    refine .of_eq ?_
    unfold State.poll
    cases s.phase with
    | total => exact s.retransStats.account_read ok
    | pids => rfl
    | comms => rfl

/-- **One step** in the two walks. -/
theorem step_touches (h : step s l = some s') :
    Touch netTcpRetransmit ConnInfo.count s.pids l.pid s'.pids ∧
      Touch netTcpRetransmitComm id s.comms l.comm s'.comms := by
  cases l with
  | event pid comm =>
    cases h
    exact ⟨.event (fun _ => rfl) rfl, .event (fun _ => rfl) rfl⟩
  | poll ok =>
    cases h
    cases hp : s.phase <;> simp only [State.poll, hp]
    · exact ⟨.still, .still⟩
    · exact ⟨.call, .still⟩
    · exact ⟨.still, .call⟩

end

/-- **Three views in a race.** In every interleaving of retransmissions with the map
calls of the polls: the growth printed and not yet printed is the events; the lines of
any set of PIDs, and of any set of names, with what their map holds and what did not land
in it are the events of that set. -/
theorem retransmit_race (b : UInt32 → Nat) (bc : Comm → Nat) (ls : List Label) {t : State}
    (hx : exec step (start b bc) ls = some t) (P : UInt32 → Bool) (Q : Comm → Bool) :
    Wrapped (2 ^ 64) t.growing.account (ls.map Label.events).sum ∧
      Wrapped (2 ^ 64) (t.pids.account (within P ConnInfo.count) +
        sumAlong step (lostPids P) (start b bc) ls) (ls.map (Label.ofPids P)).sum ∧
      Wrapped (2 ^ 64) (t.comms.account (within Q id) +
        sumAlong step (lostComms Q) (start b bc) ls) (ls.map (Label.ofComms Q)).sum := by
  refine ⟨?_, ?_, ?_⟩
  · have h0 : (start b bc).growing.account = 0 := SlotTotal.account_fresh
    have h := wrapped_sumAlong (fun _ _ _ h => growing_step h) hx
    rw [h0, Nat.zero_add, sumAlong_labels hx] at h
    exact h
  · exact account_touches netTcpRetransmit_deletes (fun _ => eq_zero_of_hidden)
      (fun _ _ _ h => (step_touches h).1) rfl hx
  · exact account_touches (f := id) netTcpRetransmitComm_deletes (fun _ => eq_zero_of_hidden)
      (fun _ _ _ h => (step_touches h).2) rfl hx

/-- The second event of PID 7 comes between the lookup of its entry and the delete, and
before the poll has come to the names. -/
def racing : List Label :=
  [.event 7 nameA, .poll true, .poll true, .poll true, .poll true, .event 7 nameA] ++
    List.replicate 7 (.poll true)

theorem retransmit_race_lost : ∃ t, exec step (start UInt32.toNat fun _ => 0) racing = some t ∧
    t.retransStats.deltas = [1] ∧ t.pids.shown = [(7, ⟨1, nameA⟩)] ∧ t.comms.shown = [(nameA, 2)] ∧
    Wrapped (2 ^ 64) t.growing.account (racing.map Label.events).sum := by
  have hx : (exec step (start UInt32.toNat fun _ => 0) racing).map
      (fun t => (t.retransStats.deltas, t.pids.shown, t.comms.shown)) =
        some ([1], [(7, ⟨1, nameA⟩)], [(nameA, 2)]) := by decide +kernel
  obtain ⟨t, ht, hp⟩ := Option.map_eq_some_iff.mp hx
  obtain ⟨h1, h2⟩ := Prod.mk.inj hp
  obtain ⟨h2, h3⟩ := Prod.mk.inj h2
  exact ⟨t, ht, h1, h2, h3, (retransmit_race _ _ racing ht (fun _ => true) fun _ => true).1⟩

end EbpfDemo.L5Concurrency.RetransmitRace
