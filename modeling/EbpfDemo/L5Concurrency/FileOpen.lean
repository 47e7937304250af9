import EbpfDemo.L3Loader.Accounts

/-!
# file_open_stat: three views of the open calls

`handle_openat_enter` counts a call under its PID and under its current name,
`handle_openat_exit` a failed one under its PID. A poll walks the three maps one after
the other and deletes what it reads. Events come between any two map calls of it.

* `open_views`: whatever has been printed, what the maps still hold and the events that
  did not land are together the events, for every set of PIDs and of names; so the two
  views of the calls differ by what each of them lost.
-/
namespace EbpfDemo.L5Concurrency.FileOpen

open EbpfDemo.Core
open L2Kernel
open L3Loader

/-- mirrors src/my_tools/file/file_open_stat.bpf.c:10-32 -/
structure Maps where
  openCounter : HashMap UInt32 UInt64
  openCommCounter : HashMap Comm UInt64
  openFailCounter : HashMap UInt32 UInt64

/-- mirrors src/my_tools/file/file_open_stat.bpf.c:34-61 -/
def handleOpenatEnter (m : Maps) (pid : UInt32) (comm : Comm) : Maps := { m with
  openCounter := countEvent (· + 1) 1 .any m.openCounter pid
  openCommCounter := countEvent (· + 1) 1 .any m.openCommCounter comm }

/-- mirrors src/my_tools/file/file_open_stat.bpf.c:64-83 -/
def handleOpenatExit (m : Maps) (pid : UInt32) (ret : Int64) : Maps :=
  if ret < 0 then { m with
    openFailCounter := countEvent (· + 1) 1 .any m.openFailCounter pid }
  else m

/-- mirrors src/my_tools/file/file_open_stat.c:45-59 -/
def openCalls : Drain UInt32 UInt64 := countDrain (some 0)

/-- mirrors src/my_tools/file/file_open_stat.c:61-75 -/
def openFails : Drain UInt32 UInt64 := countDrain (some 0)

/-- The cursor starts at `NULL`.
mirrors src/my_tools/file/file_open_stat.c:77-98 -/
def openComms : Drain Comm UInt64 := countDrain none

/-- The walk the poll is in. -/
inductive Loop where
  | calls | fails | comms
  deriving DecidableEq

/-- The three walks, each with its map; `loop` says whose turn it is. -/
structure State where
  calls : DState UInt32 UInt64
  fails : DState UInt32 UInt64
  comms : DState Comm UInt64
  loop : Loop

def State.maps (s : State) : Maps := ⟨s.calls.map, s.comms.map, s.fails.map⟩

def State.withMaps (s : State) (m : Maps) : State := { s with
  calls := { s.calls with map := m.openCounter }
  fails := { s.fails with map := m.openFailCounter }
  comms := { s.comms with map := m.openCommCounter } }

def start (b bf : UInt32 → Nat) (bc : Comm → Nat) : State where
  calls := .fresh (.empty b 10240)
  fails := .fresh (.empty bf 10240)
  comms := .fresh (.empty bc 10240)
  loop := .calls

/-- A map call of the poll; a walk that ends hands over to the next one.
mirrors src/my_tools/file/file_open_stat.c:41-101 -/
def State.poll (s : State) : State :=
  match s.loop with
  | .calls =>
    let calls := pollStep openCalls s.calls
    { s with calls := calls, loop := if calls.pc = .idle then .fails else .calls }
  | .fails =>
    let fails := pollStep openFails s.fails
    { s with fails := fails, loop := if fails.pc = .idle then .comms else .fails }
  | .comms =>
    let comms := pollStep openComms s.comms
    { s with comms := comms, loop := if comms.pc = .idle then .calls else .comms }

inductive Label where
  | enter (pid : UInt32) (comm : Comm)
  | exit (pid : UInt32) (ret : Int64)
  | poll

def step (s : State) : Label → Option State
  | .enter pid comm => some (s.withMaps (handleOpenatEnter s.maps pid comm))
  | .exit pid ret => some (s.withMaps (handleOpenatExit s.maps pid ret))
  | .poll => some s.poll

/-! ## The books -/

/-- A call under its PID, -/
def Label.call : Label → Hit UInt32
  | .enter pid _ => some (pid, 1)
  | _ => none

/-- one that failed, -/
def Label.fail : Label → Hit UInt32
  | .exit pid ret => if ret < 0 then some (pid, 1) else none
  | _ => none

/-- and a call under its name. -/
def Label.name : Label → Hit Comm
  | .enter _ comm => some (comm, 1)
  | _ => none

section
variable (P : UInt32 → Bool) (Q : Comm → Bool)

def Label.called (l : Label) : Nat := l.call.owed P

def Label.failed (l : Label) : Nat := l.fail.owed P

def Label.named (l : Label) : Nat := l.name.owed Q

def lostCalls (s : State) (l : Label) : Nat := s.calls.lostOf P l.call

def lostFails (s : State) (l : Label) : Nat := s.fails.lostOf P l.fail

def lostComms (s : State) (l : Label) : Nat := s.comms.lostOf Q l.name

end

/-- **One step**, a map call or an event, in the three walks. -/
theorem step_touches {s s' : State} {l : Label} (h : step s l = some s') :
    Touch openCalls id s.calls l.call s'.calls ∧ Touch openFails id s.fails l.fail s'.fails ∧
      Touch openComms id s.comms l.name s'.comms := by
  cases l with
  | enter pid comm =>
    cases h
    exact ⟨.event (fun _ => rfl) rfl, .still, .event (fun _ => rfl) rfl⟩
  | exit pid ret =>
    cases h
    simp only [handleOpenatExit, Label.fail]
    split_ifs
    · exact ⟨.still, .event (fun _ => rfl) rfl, .still⟩
    · exact ⟨.still, .still, .still⟩
  | poll =>
    cases h
    cases hl : s.loop <;> simp only [State.poll, hl]
    · exact ⟨.call, .still, .still⟩
    · exact ⟨.still, .call, .still⟩
    · exact ⟨.still, .still, .call⟩

/-- **Every open call is accounted for.** In every interleaving of open calls, returns
and the map calls of the polls: the lines printed for the PIDs in `P`, what the map still
holds of them and the calls that did not land are the calls of `P`, less whole
multiples of 2^64; so with the failed calls, and with the names in `Q`. -/
theorem open_views (b bf : UInt32 → Nat) (bc : Comm → Nat) (ls : List Label) {t : State}
    (hx : exec step (start b bf bc) ls = some t) (P : UInt32 → Bool) (Q : Comm → Bool) :
    Wrapped (2 ^ 64)
        (t.calls.account (within P id) + sumAlong step (lostCalls P) (start b bf bc) ls)
        (ls.map (Label.called P)).sum ∧
      Wrapped (2 ^ 64)
        (t.fails.account (within P id) + sumAlong step (lostFails P) (start b bf bc) ls)
        (ls.map (Label.failed P)).sum ∧
      Wrapped (2 ^ 64)
        (t.comms.account (within Q id) + sumAlong step (lostComms Q) (start b bf bc) ls)
        (ls.map (Label.named Q)).sum := by
  refine ⟨account_touches (fun _ _ => rfl) (fun _ => eq_zero_of_hidden)
      (fun _ _ _ h => (step_touches h).1) rfl hx,
    account_touches (fun _ _ => rfl) (fun _ => eq_zero_of_hidden)
      (fun _ _ _ h => (step_touches h).2.1) rfl hx,
    account_touches (fun _ _ => rfl) (fun _ => eq_zero_of_hidden)
      (fun _ _ _ h => (step_touches h).2.2) rfl hx⟩

/-- PID 7 opens a file before a poll and another one between the lookup and the delete. -/
def racing : List Label :=
  [.enter 7 nameA, .exit 7 (-2), .poll, .poll, .poll, .enter 7 nameB, .poll, .poll]

theorem open_views_racing : ∃ t,
    exec step (start UInt32.toNat UInt32.toNat fun _ => 0) racing = some t ∧
      t.calls.shown = [(7, 1)] ∧
      sumAlong step (lostCalls fun _ => true)
        (start UInt32.toNat UInt32.toNat fun _ => 0) racing = 1 ∧
      Wrapped (2 ^ 64)
        (t.calls.account (within (fun _ => true) id) + sumAlong step (lostCalls fun _ => true)
          (start UInt32.toNat UInt32.toNat fun _ => 0) racing)
        (racing.map (Label.called fun _ => true)).sum :=
  ⟨_, rfl, rfl, by decide +kernel,
    (open_views UInt32.toNat UInt32.toNat (fun _ => 0) racing rfl (fun _ => true)
      fun _ => true).1⟩

end EbpfDemo.L5Concurrency.FileOpen
