import EbpfDemo.Core.Machine
import EbpfDemo.L3Loader.PollAlone

/-!
# net_tcp_retransmit: three views of one stream of events

`handle_tcp_retransmit` counts an event three times: in `retrans_stats`, under the
PID and under the current name. A poll prints the first as the difference to the
poll before and the other two entry by entry, deleting what it reads; the walk over
the PIDs starts at key 0, that over the names at the front. Events and polls come in
any order, no event inside a poll.

* `inv_step`: what an event and a poll keep (`Inv`): every view accounts for what
  `retrans_stats` holds;
* `retransmit_agree`: after each poll the three views have printed the same, up to
  what is left in the maps.
-/
namespace EbpfDemo.L3Loader

open EbpfDemo.Core
open L2Kernel

/-- mirrors src/my_tools/network/net_tcp_retransmit.bpf.c:16-38 -/
structure TcpRetransmit where
  retransMap : HashMap UInt32 ConnInfo
  retransCommMap : HashMap Comm UInt64
  retransStats : ArrayMap UInt64 4

/-- mirrors src/my_tools/network/net_tcp_retransmit.bpf.c:41-79 -/
def handleTcpRetransmit (s : TcpRetransmit) (pid : UInt32) (comm : Comm) : TcpRetransmit where
  retransStats := s.retransStats.bump 0 (· + 1) 1
  retransMap := countEvent .add ⟨1, comm⟩ .any s.retransMap pid
  retransCommMap := countEvent (· + 1) 1 .any s.retransCommMap comm

/-- mirrors src/my_tools/network/net_tcp_retransmit.c:80-100 -/
def netTcpRetransmitComm : Drain Comm UInt64 where
  start := none
  shown count := decide (count > 0)
  clear m k := m.deleteElem k

theorem netTcpRetransmit_deletes : netTcpRetransmit.Deletes := fun _ _ => rfl

theorem netTcpRetransmitComm_deletes : netTcpRetransmitComm.Deletes := fun _ _ => rfl

namespace Retransmit

/-- The maps, `prev_total`, and what was printed. -/
structure State where
  prog : TcpRetransmit
  prevTotal : UInt64
  deltas : List UInt64
  pids : List (UInt32 × ConnInfo)
  comms : List (Comm × UInt64)

inductive Label where
  | event (pid : UInt32) (comm : Comm)
  | poll

/-- The programs as loaded. -/
def start (b : UInt32 → Nat) (bc : Comm → Nat) : State :=
  ⟨⟨.empty b 10240, .empty bc 10240, Vector.replicate 4 0⟩, 0, [], [], []⟩

/-- mirrors src/my_tools/network/net_tcp_retransmit.c:52-63 -/
def State.pollTotal (s : State) : State :=
  match s.prog.retransStats.lookupElem 0 with
  | none => s
  | some total =>
    let delta := total - s.prevTotal
    { s with deltas := if delta > 0 then delta :: s.deltas else s.deltas, prevTotal := total }

/-- mirrors src/my_tools/network/net_tcp_retransmit.c:65-78 -/
def State.pollPids (s : State) : State :=
  let t := pollAlone netTcpRetransmit netTcpRetransmit_deletes s.prog.retransMap
  { s with prog := { s.prog with retransMap := t.map }, pids := t.seen ++ s.pids }

/-- mirrors src/my_tools/network/net_tcp_retransmit.c:80-100 -/
def State.pollComms (s : State) : State :=
  let t := pollAlone netTcpRetransmitComm netTcpRetransmitComm_deletes s.prog.retransCommMap
  { s with prog := { s.prog with retransCommMap := t.map }, comms := t.seen ++ s.comms }

/-- mirrors src/my_tools/network/net_tcp_retransmit.c:49-103 -/
def State.poll (s : State) : State := s.pollTotal.pollPids.pollComms

def step (s : State) : Label → Option State
  | .event pid comm => some { s with prog := handleTcpRetransmit s.prog pid comm }
  | .poll => some s.poll

/-- The inserts of a new PID and of a new name do not fail. -/
def Fits (s : State) : Label → Prop
  | .event pid comm => HasRoom s.prog.retransMap pid ∧ HasRoom s.prog.retransCommMap comm
  | .poll => True

instance (s : State) : (l : Label) → Decidable (Fits s l)
  | .event _ _ => inferInstanceAs (Decidable (_ ∧ _))
  | .poll => .isTrue trivial

/-- What the PID view has printed and still holds, -/
def State.byPid (s : State) : Nat :=
  (s.pids.map fun e => e.2.count.toNat).sum + s.prog.retransMap.weigh fun _ i => i.count.toNat

/-- and the name view. -/
def State.byComm (s : State) : Nat :=
  (s.comms.map fun e => e.2.toNat).sum + s.prog.retransCommMap.weigh fun _ => UInt64.toNat

/-- The three views. -/
structure Agree (s : State) : Prop where
  pids : sumOf s.deltas ≡ s.byPid [MOD 2 ^ 64]
  comms : sumOf s.deltas ≡ s.byComm [MOD 2 ^ 64]

/-- `retrans_stats[0]`. -/
def State.total (s : State) : Nat := s.prog.retransStats.valueAt 0

/-- Each view accounts for the total, the differences for the total at the last
poll. -/
structure Inv (s : State) : Prop where
  deltas : sumOf s.deltas ≡ s.prevTotal.toNat [MOD 2 ^ 64]
  pids : s.total ≡ s.byPid [MOD 2 ^ 64]
  comms : s.total ≡ s.byComm [MOD 2 ^ 64]

theorem inv_event {s : State} (hI : Inv s) {pid : UInt32} {comm : Comm}
    (hF : Fits s (.event pid comm)) :
    Inv { s with prog := handleTcpRetransmit s.prog pid comm } := by
  have htotal : (s.prog.retransStats.bump 0 (· + 1) 1).valueAt 0 ≡ s.total + 1 [MOD 2 ^ 64] := by
    rw [ArrayMap.valueAt_bump (by decide), if_pos rfl]
    exact Nat.mod_modEq _ _
  have hpids : (countEvent ConnInfo.add ⟨1, comm⟩ .any s.prog.retransMap pid).weigh
      (fun _ i => i.count.toNat) ≡ (s.prog.retransMap.weigh fun _ i => i.count.toNat) + 1
      [MOD 2 ^ 64] :=
    weigh_countEvent (fun i => toNat_add_modEq i.count 1) rfl hF.1
  have hcomms : ((countEvent (· + 1) 1 .any s.prog.retransCommMap comm).weigh fun _ => UInt64.toNat) ≡
      (s.prog.retransCommMap.weigh fun _ => UInt64.toNat) + 1 [MOD 2 ^ 64] :=
    weigh_countEvent (fun v => toNat_add_modEq v 1) rfl hF.2
  refine ⟨hI.deltas, ?_, ?_⟩
  · refine (htotal.trans (hI.pids.add_right 1)).trans ?_
    rw [State.byPid, Nat.add_assoc]
    exact hpids.symm.add_left _
  · refine (htotal.trans (hI.comms.add_right 1)).trans ?_
    rw [State.byComm, Nat.add_assoc]
    exact hcomms.symm.add_left _

/-- A difference of 0 is not printed, and adds nothing. -/
theorem sumOf_shown (delta : UInt64) (l : List UInt64) :
    sumOf (if delta > 0 then delta :: l else l) = delta.toNat + sumOf l := by
  by_cases h : delta > 0
  · rw [if_pos h, sumOf_cons]
  · have h0 : delta.toNat = 0 := by
      have := UInt64.lt_iff_toNat_lt.not.mp h
      simpa using this
    rw [if_neg h, h0, Nat.zero_add]

theorem pollTotal_eq (s : State) : ∃ total, s.prog.retransStats.lookupElem 0 = some total ∧
    total.toNat = s.total ∧ s.pollTotal = { s with
      deltas := if total - s.prevTotal > 0 then (total - s.prevTotal) :: s.deltas else s.deltas
      prevTotal := total } := by
  have hl := ArrayMap.lookupElem_of_lt s.prog.retransStats (k := 0) (by decide)
  refine ⟨_, hl, ?_, ?_⟩
  · rw [State.total, ArrayMap.valueAt, hl]; rfl
  · unfold State.pollTotal
    rw [hl]

/-- The differences now add up to the total. -/
theorem inv_pollTotal {s : State} (hI : Inv s) :
    Inv s.pollTotal ∧ s.pollTotal.prevTotal.toNat = s.pollTotal.total := by
  obtain ⟨total, -, htotal, heq⟩ := pollTotal_eq s
  rw [heq]
  refine ⟨⟨?_, hI.pids, hI.comms⟩, htotal⟩
  show sumOf (if total - s.prevTotal > 0 then _ else _) ≡ total.toNat [MOD 2 ^ 64]
  rw [sumOf_shown]
  have hback : total.toNat ≡ (total - s.prevTotal).toNat + s.prevTotal.toNat [MOD 2 ^ 64] := by
    have h := toNat_add_modEq (total - s.prevTotal) s.prevTotal
    rwa [UInt64.sub_add_cancel] at h
  exact (hI.deltas.add_left _).trans hback.symm

/-- A walk that deletes prints what it takes; entries it does not print count 0. -/
theorem byPid_pollPids (s : State) : s.pollPids.byPid = s.byPid := by
  have hsum := sum_poll netTcpRetransmit_deletes (f := fun i => i.count.toNat) (fun i hi => by
    have h := UInt64.lt_iff_toNat_lt.not.mp (of_decide_eq_false hi)
    simpa using h) s.prog.retransMap
  unfold State.byPid State.pollPids
  dsimp only
  rw [List.map_append, List.sum_append, ← hsum]
  omega

theorem byComm_pollComms (s : State) : s.pollComms.byComm = s.byComm := by
  have hsum := sum_poll netTcpRetransmitComm_deletes (f := UInt64.toNat) (fun v hv => by
    have h := UInt64.lt_iff_toNat_lt.not.mp (of_decide_eq_false hv)
    simpa using h) s.prog.retransCommMap
  unfold State.byComm State.pollComms
  dsimp only
  rw [List.map_append, List.sum_append, ← hsum]
  omega

theorem inv_poll {s : State} (hI : Inv s) :
    Inv s.poll ∧ s.poll.prevTotal.toNat = s.poll.total := by
  obtain ⟨h, hprev⟩ := inv_pollTotal hI
  refine ⟨⟨h.deltas, ?_, ?_⟩, hprev⟩
  · show s.pollTotal.total ≡ s.pollTotal.pollPids.byPid [MOD 2 ^ 64]
    rw [byPid_pollPids]; exact h.pids
  · show s.pollTotal.total ≡ s.pollTotal.pollPids.pollComms.byComm [MOD 2 ^ 64]
    rw [byComm_pollComms]; exact h.comms

/-- **One step**, an event or a poll. -/
theorem inv_step (s : State) (l : Label) (s' : State) (hI : Inv s) (hF : Fits s l)
    (h : step s l = some s') : Inv s' := by
  cases l with
  | event pid comm => cases h; exact inv_event hI hF
  | poll => cases h; exact (inv_poll hI).1

theorem inv_start (b : UInt32 → Nat) (bc : Comm → Nat) : Inv (start b bc) := by
  have h0 : (start b bc).total = 0 := by
    show ArrayMap.valueAt (Vector.replicate 4 0) 0 = 0
    decide
  refine ⟨rfl, ?_, ?_⟩
  · rw [h0]; rfl
  · rw [h0]; rfl

/-- **Three views.** In any run in which no insert fails, after each poll the
printed differences add up to what the PID rows have printed and `retrans_map`
holds, and to what the name rows have printed and `retrans_comm_map` holds. -/
theorem retransmit_agree (b : UInt32 → Nat) (bc : Comm → Nat) (ls : List Label) (t : State)
    (hx : exec step (start b bc) (ls ++ [.poll]) = some t)
    (hF : Along step Fits (start b bc) ls) : Agree t := by
  rw [exec_append] at hx
  obtain ⟨s, hs, hpoll⟩ := Option.bind_eq_some_iff.mp hx
  cases hpoll
  have hI : Inv s := (hF.always inv_step (inv_start b bc)).last hs
  obtain ⟨hI', hprev⟩ := inv_poll hI
  have hd := hI'.deltas
  rw [hprev] at hd
  exact ⟨hd.trans hI'.pids, hd.trans hI'.comms⟩

/-- At the first poll PID 0 is alone in its map and is not read, at the second PID 5
stands behind it. -/
def zeroFirst : List Label :=
  [.event 0 nameA, .poll, .event 5 nameA, .event 5 nameB, .event 0 nameA]

theorem retransmit_zeroFirst :
    ∃ t, exec step (start UInt32.toNat fun _ => 0) (zeroFirst ++ [.poll]) = some t ∧ Agree t ∧
      t.deltas = [3, 1] ∧ t.prog.retransMap.elems = [] := by
  have hx : (exec step (start UInt32.toNat fun _ => 0) (zeroFirst ++ [.poll])).map
      (fun t => (t.deltas, t.prog.retransMap.elems)) = some ([3, 1], []) := by decide +kernel
  obtain ⟨t, ht, hv⟩ := Option.map_eq_some_iff.mp hx
  obtain ⟨hd, hm⟩ := Prod.mk.inj hv
  exact ⟨t, ht, retransmit_agree _ _ zeroFirst t ht (by decide +kernel), hd, hm⟩

end Retransmit
end EbpfDemo.L3Loader
