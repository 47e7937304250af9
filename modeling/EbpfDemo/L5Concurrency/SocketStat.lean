import EbpfDemo.L1Encoding.Text
import EbpfDemo.L3Loader.Accounts

/-!
# socket_stat: what is printed and what the exporter maps keep

A socket call is counted four times: under its family and its PID in the maps that the
poll reads and clears, under its family and its name in two exporter maps that no one
clears. Several families are printed under one name (`familyName`), so the books are
kept for sets of families. Calls come between any two map calls of the poll, also
between the lookup of an entry and its delete.

* `socket_views`: printed, still in the map and lost make up the calls, for every set of
  families and of PIDs; the exporter maps lose a call only when a new key finds no room,
  so they have what the other two lose to the poll.
-/
namespace EbpfDemo.L5Concurrency.SocketStat

open EbpfDemo.Core EbpfDemo.L1Encoding
open L2Kernel
open L3Loader

/-- mirrors src/my_tools/network/socket_stat.bpf.c:19-45 -/
structure Maps where
  familyCount : HashMap UInt32 FamilyInfo
  socketPidCount : HashMap UInt32 ConnInfo
  familyExporter : HashMap UInt32 UInt64
  socketPidExporter : HashMap Comm UInt64

def bumpFamily (i : FamilyInfo) : FamilyInfo := { i with count := i.count + 1 }

/-- mirrors src/my_tools/network/socket_stat.bpf.c:47-84 -/
def handleSocketEnter (m : Maps) (family pid : UInt32) (comm : Comm) : Maps where
  familyCount := countEvent bumpFamily ⟨1⟩ .any m.familyCount family
  socketPidCount := countEvent .add ⟨1, comm⟩ .any m.socketPidCount pid
  familyExporter := countEvent (· + 1) 1 .any m.familyExporter family
  socketPidExporter := countEvent (· + 1) 1 .any m.socketPidExporter comm

/-- The constants are those of Linux: `AF_UNIX` 1, `AF_INET` 2, `AF_INET6` 10,
`AF_PACKET` 17.
mirrors src/my_tools/network/socket_stat.c:24-38 -/
def familyName (family : UInt32) : Str :=
  if family = 2 then str "AF_INET"
  else if family = 10 then str "AF_INET6"
  else if family = 1 then str "AF_UNIX"
  else if family = 17 then str "AF_PACKET"
  else str "OTHER"

/-- The walk the poll is in. -/
inductive Loop where
  | families | pids
  deriving DecidableEq

structure State where
  families : DState UInt32 FamilyInfo
  pids : DState UInt32 ConnInfo
  familyExporter : HashMap UInt32 UInt64
  socketPidExporter : HashMap Comm UInt64
  loop : Loop

def State.maps (s : State) : Maps :=
  ⟨s.families.map, s.pids.map, s.familyExporter, s.socketPidExporter⟩

def State.withMaps (s : State) (m : Maps) : State := { s with
  families := { s.families with map := m.familyCount }
  pids := { s.pids with map := m.socketPidCount }
  familyExporter := m.familyExporter
  socketPidExporter := m.socketPidExporter }

def start (b bp be : UInt32 → Nat) (bc : Comm → Nat) : State where
  families := .fresh (.empty b 256)
  pids := .fresh (.empty bp 10240)
  familyExporter := .empty be 256
  socketPidExporter := .empty bc 10240
  loop := .families

/-- A map call of the poll.
mirrors src/my_tools/network/socket_stat.c:40-72 -/
def State.poll (s : State) : State :=
  match s.loop with
  | .families =>
    let families := pollStep socketStatFamily s.families
    { s with families := families, loop := if families.pc = .idle then .pids else .families }
  | .pids =>
    let pids := pollStep socketStatPid s.pids
    { s with pids := pids, loop := if pids.pc = .idle then .families else .pids }

inductive Label where
  | socket (family pid : UInt32) (comm : Comm)
  | poll

def step (s : State) : Label → Option State
  | .socket family pid comm => some (s.withMaps (handleSocketEnter s.maps family pid comm))
  | .poll => some s.poll

/-! ## The books -/

/-! ### Maps that only count -/

section
variable {K S L : Type} [DecidableEq K]

def counted (m : HashMap K UInt64) : Hit K → HashMap K UInt64
  | none => m
  | some (k, x) => countEvent (· + x) x .any m k

/-- What finds room in such a map, -/
def landed (P : K → Bool) (m : HashMap K UInt64) : Hit K → Nat
  | none => 0
  | some (k, x) => if HasRoom m k then amount P k x else 0

/-- and what does not. -/
def missed (P : K → Bool) (m : HashMap K UInt64) : Hit K → Nat
  | none => 0
  | some (k, x) => if HasRoom m k then 0 else amount P k x

theorem landed_add_missed (P : K → Bool) (m : HashMap K UInt64) (h : Hit K) :
    landed P m h + missed P m h = h.owed P := by
  cases h with
  | none => rfl
  | some e =>
    simp only [landed, missed, Hit.owed]
    split_ifs <;> omega

theorem weigh_counted (P : K → Bool) (m : HashMap K UInt64) (h : Hit K) :
    Wrapped (2 ^ 64) ((counted m h).weigh (within P id))
      (m.weigh (within P id) + landed P m h) := by
  cases h with
  | none => exact .refl _ _
  | some e =>
    exact (pays_within (f := id) (d := e.2) P (fun _ => rfl) rfl (by decide) m e.1).weigh

/-- What the map holds and what it missed are what the events counted. -/
theorem weigh_counts {P : K → Bool} {step : S → L → Option S} {view : S → HashMap K UInt64}
    {hit : L → Hit K} (hview : ∀ s l s', step s l = some s' → view s' = counted (view s) (hit l))
    {s t : S} {ls : List L} (h0 : (view s).weigh (within P id) = 0)
    (hx : exec step s ls = some t) :
    Wrapped (2 ^ 64)
      ((view t).weigh (within P id) + sumAlong step (fun s l => missed P (view s) (hit l)) s ls)
      (ls.map fun l => (hit l).owed P).sum := by
  have hstep : ∀ s l s', step s l = some s' → Wrapped (2 ^ 64) ((view s').weigh (within P id))
      ((view s).weigh (within P id) + landed P (view s) (hit l)) := by
    intro s l s' h
    rw [hview s l s' h]
    exact weigh_counted P (view s) (hit l)
  exact wrapped_amounts hstep (fun s l => landed_add_missed P (view s) (hit l)) h0 hx

end

/-! ### The events -/

/-- A call under its family, -/
def Label.familyHit : Label → Hit UInt32
  | .socket family _ _ => some (family, 1)
  | .poll => none

/-- under its PID -/
def Label.pidHit : Label → Hit UInt32
  | .socket _ pid _ => some (pid, 1)
  | .poll => none

/-- and under its name. -/
def Label.nameHit : Label → Hit Comm
  | .socket _ _ comm => some (comm, 1)
  | .poll => none

section
variable (P : UInt32 → Bool) (Q : Comm → Bool)

def Label.family (l : Label) : Nat := l.familyHit.owed P

def Label.pid (l : Label) : Nat := l.pidHit.owed P

def Label.name (l : Label) : Nat := l.nameHit.owed Q

def lostFamily (s : State) (l : Label) : Nat := s.families.lostOf P l.familyHit

def lostPid (s : State) (l : Label) : Nat := s.pids.lostOf P l.pidHit

def lostFamilyExporter (s : State) (l : Label) : Nat := missed P s.familyExporter l.familyHit

def lostNameExporter (s : State) (l : Label) : Nat := missed Q s.socketPidExporter l.nameHit

end

section
variable {s s' : State} {l : Label}

/-- **One step** in the two maps that are cleared. -/
theorem step_touches (h : step s l = some s') :
    Touch socketStatFamily FamilyInfo.count s.families l.familyHit s'.families ∧
      Touch socketStatPid ConnInfo.count s.pids l.pidHit s'.pids := by
  cases l with
  | socket family pid comm =>
    cases h
    exact ⟨.event (fun _ => rfl) rfl, .event (fun _ => rfl) rfl⟩
  | poll =>
    cases h
    cases hl : s.loop <;> simp only [State.poll, hl]
    · exact ⟨.call, .still⟩
    · exact ⟨.still, .call⟩

/-- The poll leaves the exporter maps alone. -/
theorem step_exporters (h : step s l = some s') :
    s'.familyExporter = counted s.familyExporter l.familyHit ∧
      s'.socketPidExporter = counted s.socketPidExporter l.nameHit := by
  cases l with
  | socket family pid comm => cases h; exact ⟨rfl, rfl⟩
  | poll =>
    cases h
    unfold State.poll
    cases s.loop <;> exact ⟨rfl, rfl⟩

end

/-- **Console and exporter.** In every interleaving of socket calls with the map calls of
the polls and for all sets of families, PIDs and names: what was printed, what the map
still holds and what did not land are the calls; what an exporter map holds and what
found no room in it are the same calls. -/
theorem socket_views (b bp be : UInt32 → Nat) (bc : Comm → Nat) (ls : List Label) {t : State}
    (hx : exec step (start b bp be bc) ls = some t) (P : UInt32 → Bool) (Q : Comm → Bool) :
    Wrapped (2 ^ 64) (t.families.account (within P FamilyInfo.count) +
        sumAlong step (lostFamily P) (start b bp be bc) ls) (ls.map (Label.family P)).sum ∧
      Wrapped (2 ^ 64) (t.pids.account (within P ConnInfo.count) +
        sumAlong step (lostPid P) (start b bp be bc) ls) (ls.map (Label.pid P)).sum ∧
      Wrapped (2 ^ 64) (t.familyExporter.weigh (within P id) +
        sumAlong step (lostFamilyExporter P) (start b bp be bc) ls)
        (ls.map (Label.family P)).sum ∧
      Wrapped (2 ^ 64) (t.socketPidExporter.weigh (within Q id) +
        sumAlong step (lostNameExporter Q) (start b bp be bc) ls) (ls.map (Label.name Q)).sum := by
  have hhidden : ∀ {V : Type} {f : V → UInt64} (v : V), true = false → f v = 0 := by
    intro V f v h
    cases h
  have hfamily : ∀ s l s', step s l = some s' →
      s'.familyExporter = counted s.familyExporter l.familyHit :=
    fun _ _ _ h => (step_exporters h).1
  have hname : ∀ s l s', step s l = some s' →
      s'.socketPidExporter = counted s.socketPidExporter l.nameHit :=
    fun _ _ _ h => (step_exporters h).2
  exact ⟨account_touches (fun _ _ => rfl) (fun v => hhidden v)
      (fun _ _ _ h => (step_touches h).1) rfl hx,
    account_touches (fun _ _ => rfl) (fun v => hhidden v)
      (fun _ _ _ h => (step_touches h).2) rfl hx,
    weigh_counts hfamily rfl hx, weigh_counts hname rfl hx⟩

/-- Families 16 and 40 share a name; the second call of family 16 comes between the
lookup and the delete. -/
def racing : List Label :=
  [.socket 16 7 nameA, .socket 40 7 nameA, .poll, .poll, .poll, .socket 16 7 nameB] ++
    List.replicate 20 .poll

theorem socket_views_racing : ∃ t,
    exec step (start UInt32.toNat UInt32.toNat UInt32.toNat fun _ => 0) racing = some t ∧
      t.families.shown = [(16, ⟨1⟩), (40, ⟨1⟩)] ∧ t.familyExporter.elems = [(16, 2), (40, 1)] ∧
      Wrapped (2 ^ 64)
        (t.families.account (within (fun f => familyName f = str "OTHER") FamilyInfo.count) +
          sumAlong step (lostFamily fun f => familyName f = str "OTHER")
            (start UInt32.toNat UInt32.toNat UInt32.toNat fun _ => 0) racing)
        (racing.map (Label.family fun f => familyName f = str "OTHER")).sum := by
  have hx : (exec step (start UInt32.toNat UInt32.toNat UInt32.toNat fun _ => 0) racing).map
      (fun t => (t.families.shown, t.familyExporter.elems)) =
        some ([(16, ⟨1⟩), (40, ⟨1⟩)], [(16, 2), (40, 1)]) := by decide +kernel
  obtain ⟨t, ht, hp⟩ := Option.map_eq_some_iff.mp hx
  obtain ⟨h1, h2⟩ := Prod.mk.inj hp
  exact ⟨t, ht, h1, h2, (socket_views _ _ _ _ racing ht _ fun _ => true).1⟩

end EbpfDemo.L5Concurrency.SocketStat
