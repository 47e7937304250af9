import EbpfDemo.Core.Machine
import EbpfDemo.L3Loader.PollAlone

/-!
# tcp_connect: connections by name, on the console and for the exporter

`record_conn` counts a connection under the PID (`conn_count`) and under the current
name (`conn_exporter`). An element of `conn_count` has the name of the event that
created it and keeps it until a poll deletes it; `conn_exporter` reads the name at
every event. Events carry any PID and any name, so threads may have names of their
own and processes may change theirs; no event is inside a poll.

* `attributed_step`: an event keeps every name's count right on both sides exactly
  when the element of its PID, if there is one, has its name, and the count does not
  wrap;
* `attribution_iff`: over whole runs;
* `attribution_renamed`: one process, two names in one interval.
-/
namespace EbpfDemo.L3Loader

open EbpfDemo.Core
open L2Kernel

theorem tcpConnect_deletes : tcpConnect.Deletes := fun _ _ => rfl

/-- The count of an entry that is labelled `c`. -/
def labelled (c : Comm) (i : ConnInfo) : Nat := if i.comm = c then i.count.toNat else 0

namespace ConnNames

/-- The maps, the entries the polls printed, and the names of the events. -/
structure State where
  prog : ConnMaps
  reported : List (UInt32 × ConnInfo)
  names : List Comm

inductive Label where
  | event (pid : UInt32) (comm : Comm)
  | poll

def start (b : UInt32 → Nat) (bc : Comm → Nat) : State :=
  ⟨⟨.empty b 10240, .empty bc 10240⟩, [], []⟩

def State.event (s : State) (pid : UInt32) (comm : Comm) : State :=
  { s with prog := recordConn s.prog pid comm, names := comm :: s.names }

/-- mirrors src/my_tools/network/tcp_connect.c:21-36 -/
def State.poll (s : State) : State :=
  let t := pollAlone tcpConnect tcpConnect_deletes s.prog.connCount
  { s with prog := { s.prog with connCount := t.map }, reported := t.seen ++ s.reported }

/-- No map insert fails. -/
def step (s : State) : Label → Option State
  | .event pid comm =>
    if HasRoom s.prog.connCount pid ∧ HasRoom s.prog.connExporter comm then some (s.event pid comm)
    else none
  | .poll => some s.poll

/-- What was reported and is still held under the label `c`. -/
def State.console (s : State) (c : Comm) : Nat :=
  (s.reported.map fun e => labelled c e.2).sum + s.prog.connCount.weigh fun _ => labelled c

/-- Both sides have, for every name, the number of events made under it. -/
def Attributed (s : State) : Prop :=
  ∀ c, s.console c = s.names.count c ∧ valueOf s.prog.connExporter c = s.names.count c

/-- An event finds no element of its PID, or one with its name; its count does not
wrap. -/
def OwnName (s : State) : Label → Prop
  | .event pid comm => (∀ i, s.prog.connCount.lookupElem pid = some i → i.comm = comm) ∧
      s.names.count comm + 1 < 2 ^ 64
  | .poll => True

instance (s : State) : (l : Label) → Decidable (OwnName s l)
  | .event pid comm =>
    decidable_of_iff ((∀ i ∈ s.prog.connCount.lookupElem pid, i.comm = comm) ∧
      s.names.count comm + 1 < 2 ^ 64) Iff.rfl
  | .poll => .isTrue trivial

theorem step_event {s s' : State} {pid : UInt32} {comm : Comm}
    (h : step s (.event pid comm) = some s') :
    HasRoom s.prog.connCount pid ∧ HasRoom s.prog.connExporter comm ∧ s' = s.event pid comm := by
  simp only [step] at h
  split at h
  · rename_i hg; cases h; exact ⟨hg.1, hg.2, rfl⟩
  · cases h

/-! ## One event -/

theorem exporter_event {s : State} {comm : Comm} (hroom : HasRoom s.prog.connExporter comm)
    (pid : UInt32) (c : Comm) : valueOf (s.event pid comm).prog.connExporter c =
      if c = comm then (valueOf s.prog.connExporter comm + 1) % 2 ^ 64
      else valueOf s.prog.connExporter c :=
  valueOf_countEvent hroom 1 c

theorem count_event (s : State) (pid : UInt32) (comm c : Comm) :
    (s.event pid comm).names.count c = s.names.count c + if c = comm then 1 else 0 := by
  show (comm :: s.names).count c = _
  rw [List.count_cons]
  by_cases h : c = comm
  · rw [if_pos h, h, beq_self_eq_true, if_pos rfl]
  · rw [if_neg h, beq_false_of_ne (Ne.symm h), if_neg Bool.false_ne_true]

/-- A first event creates an element with its own name. -/
theorem console_new {s : State} {pid : UInt32} (hroom : HasRoom s.prog.connCount pid)
    (hl : s.prog.connCount.lookupElem pid = none) (comm c : Comm) :
    (s.event pid comm).console c = s.console c + if c = comm then 1 else 0 := by
  have hk := HashMap.lookupElem_eq_none.mp hl
  have hmap : (s.event pid comm).prog.connCount = s.prog.connCount.put pid ⟨1, comm⟩ :=
    countEvent_absent hl (by decide) (hroom.resolve_left hk)
  have hone : labelled c ⟨1, comm⟩ = if c = comm then 1 else 0 := by
    simp only [labelled, eq_comm (a := comm)]
    rfl
  unfold State.console
  rw [hmap, HashMap.weigh_put_absent _ hk, hone, ← Nat.add_assoc]
  rfl

/-- Later ones raise it under the name it has. -/
theorem console_known {s : State} {pid : UInt32} {i : ConnInfo}
    (hl : s.prog.connCount.lookupElem pid = some i) (comm c : Comm) :
    (s.event pid comm).console c + labelled c i = s.console c + labelled c i.add := by
  have hmap : (s.event pid comm).prog.connCount = s.prog.connCount.modifyElem pid .add :=
    countEvent_present hl
  have h := HashMap.weigh_modifyElem (fun _ => labelled c) .add hl
  unfold State.console
  rw [hmap, Nat.add_assoc, h, Nat.add_assoc]
  rfl

theorem count_add (i : ConnInfo) : i.add.count.toNat = (i.count.toNat + 1) % 2 ^ 64 :=
  UInt64.toNat_add _ _

/-- The exporter stays right while the count of the name does not wrap. -/
theorem exporter_iff {s : State} (hQ : Attributed s) {comm : Comm}
    (hroom : HasRoom s.prog.connExporter comm) (pid : UInt32) :
    (∀ c, valueOf (s.event pid comm).prog.connExporter c = (s.event pid comm).names.count c) ↔
      s.names.count comm + 1 < 2 ^ 64 := by
  constructor
  · intro h
    have h0 := h comm
    rw [exporter_event hroom, if_pos rfl, count_event, if_pos rfl, (hQ comm).2] at h0
    omega
  · intro h c
    rw [exporter_event hroom, count_event, (hQ comm).2, (hQ c).2]
    by_cases hc : c = comm
    · rw [if_pos hc, if_pos hc, hc, Nat.mod_eq_of_lt h]
    · rw [if_neg hc, if_neg hc, Nat.add_zero]

/-- The console stays right if the element that goes up has the name of the event. -/
theorem console_iff {s : State} (hQ : Attributed s) {pid : UInt32} {comm : Comm}
    {i : ConnInfo} (hl : s.prog.connCount.lookupElem pid = some i)
    (hlt : s.names.count comm + 1 < 2 ^ 64) :
    (∀ c, (s.event pid comm).console c = (s.event pid comm).names.count c) ↔ i.comm = comm := by
  have hknown := console_known hl comm
  have hadd := count_add i
  constructor
  · -- under a name of its own the element would not have gone up
    intro h
    by_contra hne
    have h0 := hknown i.comm
    rw [h, count_event, if_neg hne, (hQ i.comm).1] at h0
    simp only [labelled, ConnInfo.add, if_true] at h0 hadd
    have := i.count.toNat_lt
    omega
  · intro he c
    have h0 := hknown c
    rw [count_event, ← (hQ c).1]
    by_cases hc : c = comm
    · have hle : i.count.toNat ≤ s.names.count comm := by
        have h1 := HashMap.le_weigh (fun _ => labelled comm) hl
        rw [labelled, if_pos he] at h1
        rw [← (hQ comm).1]
        exact Nat.le_trans h1 (Nat.le_add_left _ _)
      rw [Nat.mod_eq_of_lt (by omega)] at hadd
      subst hc
      simp only [labelled, if_pos he, show i.add.comm = i.comm from rfl, hadd] at h0
      rw [if_pos rfl]
      omega
    · have hic : i.comm ≠ c := fun e => hc (e.symm.trans he)
      simp only [labelled, if_neg hic, show i.add.comm = i.comm from rfl] at h0
      rw [if_neg hc]
      exact h0

/-- **One event** keeps both sides right exactly when it is counted under its own
name. -/
theorem attributed_event {s : State} (hQ : Attributed s) {pid : UInt32} {comm : Comm}
    (hroom : HasRoom s.prog.connCount pid) (hroom' : HasRoom s.prog.connExporter comm) :
    Attributed (s.event pid comm) ↔ OwnName s (.event pid comm) := by
  have hsplit : Attributed (s.event pid comm) ↔
      (∀ c, (s.event pid comm).console c = (s.event pid comm).names.count c) ∧
        s.names.count comm + 1 < 2 ^ 64 := by
    rw [← exporter_iff hQ hroom' pid]; exact forall_and
  rw [hsplit]
  refine and_congr_left fun hlt => ?_
  cases hl : s.prog.connCount.lookupElem pid with
  | none =>
    refine iff_of_true (fun c => ?_) fun i hi => by cases hi
    rw [console_new hroom hl, count_event, (hQ c).1]
  | some i =>
    simp only [Option.some.injEq, forall_eq']
    exact console_iff hQ hl hlt

/-! ## Runs -/

theorem attributed_poll {s : State} (hQ : Attributed s) : Attributed s.poll := by
  intro c
  refine ⟨?_, (hQ c).2⟩
  have hsum := sum_poll tcpConnect_deletes (f := labelled c) (fun _ h => by cases h)
    s.prog.connCount
  rw [show s.poll.names = s.names from rfl, ← (hQ c).1]
  unfold State.console State.poll
  dsimp only
  rw [List.map_append, List.sum_append, ← hsum]
  omega

theorem attributed_step (s : State) (l : Label) (s' : State) (hQ : Attributed s)
    (h : step s l = some s') : Attributed s' ↔ OwnName s l := by
  cases l with
  | event pid comm =>
    obtain ⟨hroom, hroom', rfl⟩ := step_event h
    exact attributed_event hQ hroom hroom'
  | poll => cases h; exact iff_of_true (attributed_poll hQ) trivial

/-- **By name.** Over any run the counts by name are, on both sides and after every
prefix, the numbers of events made under the names exactly when every event finds no
element of its PID or one with its name. -/
theorem attribution_iff (b : UInt32 → Nat) (bc : Comm → Nat) (ls : List Label) (t : State)
    (hx : exec step (start b bc) ls = some t) :
    Always step Attributed (start b bc) ls ↔ Along step OwnName (start b bc) ls :=
  always_iff_along (I := fun _ => True) (fun _ _ _ _ _ => trivial)
    (fun s l s' _ hQ h => attributed_step s l s' hQ h) trivial (fun _ => ⟨rfl, rfl⟩) hx

/-- Every key in one bucket. -/
def loaded : State := start (fun _ => 0) fun _ => 0

/-- Two processes; the first takes another name after the poll. -/
def renamedBetween : List Label :=
  [.event 5 nameA, .event 6 nameB, .event 5 nameA, .poll, .event 5 nameB, .poll]

theorem attribution_renamedBetween :
    (exec step loaded renamedBetween).map (fun t => (t.console nameA, t.console nameB)) =
      some (2, 2) ∧
    Always step Attributed loaded renamedBetween := by
  have hx : (exec step loaded renamedBetween).map (fun t => (t.console nameA, t.console nameB)) =
      some (2, 2) := by decide +kernel
  obtain ⟨t, ht, -⟩ := Option.map_eq_some_iff.mp hx
  exact ⟨hx, (attribution_iff _ _ renamedBetween t ht).mpr (by decide +kernel)⟩

/-- **Counterexample.** A process connects, changes its name and connects again
before the next poll: two connections of its old name, one each for the exporter. -/
theorem attribution_renamed :
    ∃ t, exec step loaded [.event 5 nameA, .event 5 nameB, .poll] = some t ∧
      (t.console nameA, t.console nameB) = (2, 0) ∧
      (valueOf t.prog.connExporter nameA, valueOf t.prog.connExporter nameB) = (1, 1) ∧
      ¬ Attributed t := by
  have hx : (exec step loaded [.event 5 nameA, .event 5 nameB, .poll]).map (fun t =>
      ((t.console nameA, t.console nameB), valueOf t.prog.connExporter nameA,
        valueOf t.prog.connExporter nameB)) = some ((2, 0), 1, 1) := by decide +kernel
  obtain ⟨t, ht, hv⟩ := Option.map_eq_some_iff.mp hx
  obtain ⟨hc, he⟩ := Prod.mk.inj hv
  refine ⟨t, ht, hc, he, fun hA => ?_⟩
  have ha := hA nameA
  rw [(Prod.mk.inj hc).1, (Prod.mk.inj he).1] at ha
  omega

end ConnNames
end EbpfDemo.L3Loader
