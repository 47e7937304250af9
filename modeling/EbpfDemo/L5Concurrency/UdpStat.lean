import Mathlib.Data.Fintype.Basic
import Mathlib.Tactic.FinCases
import EbpfDemo.L3Loader.Accounts

/-!
# net_udp_stat: totals and PIDs

A send is counted under its PID, in `udp_stats[0]` and, with its length, in
`udp_stats[2]` and under its PID again; a successful receive in `udp_stats[1]`, with its
length in `udp_stats[3]`, and under its PID. A poll looks up the four totals, prints
what each has grown by, and then walks the three maps and deletes what it reads. A
lookup of a total may fail and then counts as 0. Events come between any two map calls.

* `udp_totals`: the printed differences and what each total has grown by since add up
  to the events, whatever lookups fail: the wrapped difference after a failed lookup is
  taken back by the next one;
* `udp_pids`: so do the lines of the PIDs, what the maps hold and what did not land.
-/
namespace EbpfDemo.L5Concurrency.UdpStat

open EbpfDemo.Core
open L2Kernel
open L3Loader

/-- mirrors src/my_tools/network/net_udp_stat.bpf.c:10-40 -/
structure Maps where
  udpSendMap : HashMap UInt32 UInt64
  udpRecvMap : HashMap UInt32 UInt64
  udpSendBytesMap : HashMap UInt32 UInt64
  udpStats : ArrayMap UInt64 8

/-- `len` is the third argument, a `size_t`.
mirrors src/my_tools/network/net_udp_stat.bpf.c:42-81 -/
def handleUdpSendmsg (m : Maps) (pid : UInt32) (len : UInt64) : Maps := { m with
  udpSendMap := countEvent (· + 1) 1 .any m.udpSendMap pid
  udpStats := (m.udpStats.bump 0 (· + 1) 1).bump 2 (· + len) len
  udpSendBytesMap := countEvent (· + len) len .any m.udpSendBytesMap pid }

/-- `(__u64)ret` -/
def received (ret : Int32) : UInt64 := ret.toInt64.toUInt64

/-- mirrors src/my_tools/network/net_udp_stat.bpf.c:83-117 -/
def handleUdpRecvmsg (m : Maps) (pid : UInt32) (ret : Int32) : Maps :=
  if ret ≤ 0 then m
  else { m with
    udpRecvMap := countEvent (· + 1) 1 .any m.udpRecvMap pid
    udpStats := (m.udpStats.bump 1 (· + 1) 1).bump 3 (· + received ret) (received ret) }

/-- mirrors src/my_tools/network/net_udp_stat.c:73-87 -/
def udpSend : Drain UInt32 UInt64 := countDrain (some 0)

/-- mirrors src/my_tools/network/net_udp_stat.c:89-103 -/
def udpRecv : Drain UInt32 UInt64 := countDrain (some 0)

/-- mirrors src/my_tools/network/net_udp_stat.c:105-120 -/
def udpSendBytes : Drain UInt32 UInt64 := countDrain (some 0)

/-- Where the poll stands: before the lookup of `udp_stats[i]`, before the differences
are printed, or in a walk. -/
inductive Phase where
  | look (i : Fin 4)
  | print
  | send
  | recv
  | sendBytes
  deriving DecidableEq

/-- `prev` are `prev_send`, `prev_recv`, `prev_send_bytes` and `prev_recv_bytes`, `cur`
is the array of that name; `printed` the differences printed so far. -/
structure State where
  send : DState UInt32 UInt64
  recv : DState UInt32 UInt64
  sendBytes : DState UInt32 UInt64
  stats : ArrayMap UInt64 8
  phase : Phase
  cur : Fin 4 → UInt64
  prev : Fin 4 → UInt64
  printed : List (Fin 4 × UInt64)

def State.maps (s : State) : Maps := ⟨s.send.map, s.recv.map, s.sendBytes.map, s.stats⟩

def State.withMaps (s : State) (m : Maps) : State := { s with
  send := { s.send with map := m.udpSendMap }
  recv := { s.recv with map := m.udpRecvMap }
  sendBytes := { s.sendBytes with map := m.udpSendBytesMap }
  stats := m.udpStats }

def start (b br bb : UInt32 → Nat) : State where
  send := .fresh (.empty b 10240)
  recv := .fresh (.empty br 10240)
  sendBytes := .fresh (.empty bb 10240)
  stats := Vector.replicate 8 0
  phase := .look ⟨0, by decide⟩
  cur := fun _ => 0
  prev := fun _ => 0
  printed := []

def key : Fin 4 → UInt32
  | 0 => 0
  | 1 => 1
  | 2 => 2
  | 3 => 3

/-- A lookup that fails leaves the 0 of `cur[4] = {0}`.
mirrors src/my_tools/network/net_udp_stat.c:46-51 -/
def State.look (s : State) (i : Fin 4) (ok : Bool) : State := { s with
  cur := fun j => if j = i then (if ok then (s.stats.lookupElem (key i)).getD 0 else 0) else s.cur j
  phase := if h : i.val + 1 < 4 then .look ⟨i.val + 1, h⟩ else .print }

/-- The differences, the lines of those that are not 0, and the new `prev`.
mirrors src/my_tools/network/net_udp_stat.c:53-71 -/
def State.print (s : State) : State := { s with
  printed := s.printed ++ ((List.finRange 4).map fun i => (i, s.cur i - s.prev i)).filter
    fun e => decide (e.2 > 0)
  prev := s.cur
  phase := .send }

/-- A map call of the poll; `ok` is whether a lookup of `udp_stats` succeeds.
mirrors src/my_tools/network/net_udp_stat.c:42-123 -/
def State.poll (s : State) (ok : Bool) : State :=
  match s.phase with
  | .look i => s.look i ok
  | .print => s.print
  | .send =>
    let send := pollStep udpSend s.send
    { s with send := send, phase := if send.pc = .idle then .recv else .send }
  | .recv =>
    let recv := pollStep udpRecv s.recv
    { s with recv := recv, phase := if recv.pc = .idle then .sendBytes else .recv }
  | .sendBytes =>
    let sendBytes := pollStep udpSendBytes s.sendBytes
    { s with
      sendBytes := sendBytes
      phase := if sendBytes.pc = .idle then .look ⟨0, by decide⟩ else .sendBytes
      cur := fun _ => 0 }

inductive Event where
  | sendmsg (pid : UInt32) (len : UInt64)
  | recvmsg (pid : UInt32) (ret : Int32)

def Event.handle (m : Maps) : Event → Maps
  | .sendmsg pid len => handleUdpSendmsg m pid len
  | .recvmsg pid ret => handleUdpRecvmsg m pid ret

inductive Label where
  | event (e : Event)
  | poll (ok : Bool)

def step (s : State) : Label → Option State
  | .event e => some (s.withMaps (e.handle s.maps))
  | .poll ok => some (s.poll ok)

/-! ## The totals -/

/-- What an event adds to `udp_stats[i]`. -/
def Event.total (i : Fin 4) : Event → UInt64
  | .sendmsg _ len => match i with
    | 0 => 1
    | 2 => len
    | _ => 0
  | .recvmsg _ ret => if ret ≤ 0 then 0 else match i with
    | 1 => 1
    | 3 => received ret
    | _ => 0

def Label.total (i : Fin 4) : Label → Nat
  | .event e => (e.total i).toNat
  | .poll _ => 0

/-- What was printed of the total `i`, -/
def State.reported (s : State) (i : Fin 4) : Nat :=
  (s.printed.map fun e => if e.1 = i then e.2.toNat else 0).sum

/-- and what it has grown by since, as the next poll would compute it. -/
def State.pending (s : State) (i : Fin 4) : UInt64 :=
  (s.stats.lookupElem (key i)).getD 0 - s.prev i

section
variable {s s' : State} {l : Label} {i : Fin 4}

theorem valueAt_bump_modEq {m : ArrayMap UInt64 8} {k : UInt32} (h : k.toNat < 8) (d first : UInt64)
    (k' : UInt32) : (m.bump k (· + d) first).valueAt k' ≡
      m.valueAt k' + (if k' = k then d.toNat else 0) [MOD 2 ^ 64] := by
  rw [ArrayMap.valueAt_bump h]
  by_cases hk : k' = k
  · rw [if_pos hk, if_pos hk, hk]
    exact Nat.mod_modEq _ _
  · rw [if_neg hk, if_neg hk]
    exact Nat.ModEq.refl _

/-- Two adds. -/
theorem valueAt_bump_bump {m : ArrayMap UInt64 8} {k q : UInt32} (hk : k.toNat < 8)
    (hq : q.toNat < 8) (d e first first' : UInt64) (k' : UInt32) :
    ((m.bump k (· + d) first).bump q (· + e) first').valueAt k' ≡ m.valueAt k' +
      ((if k' = k then d.toNat else 0) + if k' = q then e.toNat else 0) [MOD 2 ^ 64] := by
  rw [← Nat.add_assoc]
  exact (valueAt_bump_modEq hq e first' k').trans ((valueAt_bump_modEq hk d first k').add_right _)

/-- An event in the totals. -/
theorem valueAt_handle (m : Maps) (e : Event) (i : Fin 4) :
    (e.handle m).udpStats.valueAt (key i) ≡
      m.udpStats.valueAt (key i) + (e.total i).toNat [MOD 2 ^ 64] := by
  cases e with
  | sendmsg pid len =>
    refine (valueAt_bump_bump (by decide) (by decide) 1 len 1 len (key i)).trans ?_
    fin_cases i <;> simp [key, Event.total, Nat.ModEq.refl]
  | recvmsg pid ret =>
    simp only [Event.handle, handleUdpRecvmsg, Event.total]
    split_ifs
    · exact Nat.ModEq.refl _
    · refine (valueAt_bump_bump (by decide) (by decide) 1 (received ret) 1 (received ret)
        (key i)).trans ?_
      fin_cases i <;> simp [key, Nat.ModEq.refl]

/-- Subtracting and adding back, modulo 2^64. -/
theorem toNat_sub_add (a b : UInt64) : (a - b).toNat + b.toNat ≡ a.toNat [MOD 2 ^ 64] := by
  have h := toNat_add_modEq (a - b) b
  rw [UInt64.sub_add_cancel] at h
  exact h.symm

/-- The differences printed so far lead to `prev`. -/
def Chained (s : State) : Prop := ∀ i, s.reported i ≡ (s.prev i).toNat [MOD 2 ^ 64]

/-- A difference of 0 has no line, and adds nothing. -/
theorem sum_shown (i : Fin 4) (l : List (Fin 4 × UInt64)) :
    ((l.filter fun e => decide (e.2 > 0)).map fun e => if e.1 = i then e.2.toNat else 0).sum =
      (l.map fun e => if e.1 = i then e.2.toNat else 0).sum := by
  induction l with
  | nil => rfl
  | cons e l ih =>
    rw [List.filter_cons, List.map_cons, List.sum_cons, ← ih]
    cases hs : decide (e.2 > 0) with
    | true => rw [if_pos rfl, List.map_cons, List.sum_cons]
    | false =>
      have h0 : e.2.toNat = 0 := by rw [eq_zero_of_hidden hs]; rfl
      rw [if_neg Bool.false_ne_true, h0, ite_self, Nat.zero_add]

theorem reported_print (s : State) (i : Fin 4) :
    s.print.reported i = s.reported i + (s.cur i - s.prev i).toNat := by
  have hfour (f : Fin 4 → UInt64) : (((List.finRange 4).map fun j => (j, f j)).map
      fun e => if e.1 = i then e.2.toNat else 0).sum = (f i).toNat := by
    rw [show List.finRange 4 = [0, 1, 2, 3] from rfl]
    fin_cases i <;> simp
  unfold State.reported State.print
  rw [List.map_append, List.sum_append, sum_shown, hfour]

theorem chained_print (h : Chained s) : Chained s.print := by
  intro i
  rw [reported_print, Nat.add_comm]
  exact ((h i).add_left _).trans (toNat_sub_add (s.cur i) (s.prev i))

/-- **One step** keeps the chain of differences. -/
theorem chained_step (s : State) (l : Label) (s' : State) (h : Chained s)
    (hs : step s l = some s') : Chained s' := by
  cases l with
  | event e => cases hs; exact h
  | poll ok =>
    cases hs
    unfold State.poll
    cases hp : s.phase with
    | print => exact chained_print h
    | _ => exact h

/-- A poll does not touch the totals. -/
theorem stats_poll (s : State) (ok : Bool) : (s.poll ok).stats = s.stats := by
  unfold State.poll
  cases s.phase <;> rfl

theorem stats_step (h : step s l = some s') (i : Fin 4) :
    s'.stats.valueAt (key i) ≡ s.stats.valueAt (key i) + l.total i [MOD 2 ^ 64] := by
  cases l with
  | event e => cases h; exact valueAt_handle s.maps e i
  | poll ok => cases h; rw [stats_poll]; exact Nat.ModEq.refl _

/-- **The totals.** In every interleaving of sends, receives and the map calls of the
polls, and whatever lookups fail: the differences printed for a total and what it has
grown by since are the events, modulo 2^64. -/
theorem udp_totals (b br bb : UInt32 → Nat) (ls : List Label) {t : State}
    (hx : exec step (start b br bb) ls = some t) (i : Fin 4) :
    t.reported i + (t.pending i).toNat ≡ (ls.map (Label.total i)).sum [MOD 2 ^ 64] := by
  have hchain : Chained t := inv_exec chained_step (fun _ => Nat.ModEq.refl _) hx
  have hstats := modEq_sumAlong (fun s l s' h => stats_step (s := s) h i) hx
  have h0 : (start b br bb).stats.valueAt (key i) = 0 := by
    fin_cases i <;> rfl
  rw [h0, Nat.zero_add, sumAlong_labels hx] at hstats
  have hpending := toNat_sub_add ((t.stats.lookupElem (key i)).getD 0) (t.prev i)
  rw [Nat.add_comm]
  exact ((hchain i).add_left _).trans (hpending.trans hstats)

end

/-- Two sends of 100 and 50 bytes before the first poll; in the second the lookup of
`udp_stats[2]` fails. -/
def failedLookup : List Label :=
  [.event (.sendmsg 7 100), .event (.sendmsg 7 50)] ++ List.replicate 17 (.poll true) ++
    [.poll true, .poll true, .poll false, .poll true, .poll true]

theorem udp_totals_failed : ∃ t,
    exec step (start UInt32.toNat UInt32.toNat UInt32.toNat) failedLookup = some t ∧
      t.printed = [(0, 2), (2, 150), (2, 0 - 150)] ∧
      t.reported 2 + (t.pending 2).toNat ≡ (failedLookup.map (Label.total 2)).sum [MOD 2 ^ 64] := by
  have hx : (exec step (start UInt32.toNat UInt32.toNat UInt32.toNat) failedLookup).map
      State.printed = some [(0, 2), (2, 150), (2, 0 - 150)] := by decide +kernel
  obtain ⟨t, ht, hp⟩ := Option.map_eq_some_iff.mp hx
  exact ⟨t, ht, hp, udp_totals _ _ _ failedLookup ht 2⟩

/-! ## The PIDs -/

/-- A send, -/
def Label.send : Label → Hit UInt32
  | .event (.sendmsg pid _) => some (pid, 1)
  | _ => none

/-- a receive, -/
def Label.recv : Label → Hit UInt32
  | .event (.recvmsg pid ret) => if ret ≤ 0 then none else some (pid, 1)
  | _ => none

/-- and the bytes of a send. -/
def Label.sendBytes : Label → Hit UInt32
  | .event (.sendmsg pid len) => some (pid, len)
  | _ => none

section
variable (P : UInt32 → Bool)

def Label.sends (l : Label) : Nat := l.send.owed P

def Label.recvs (l : Label) : Nat := l.recv.owed P

def Label.bytes (l : Label) : Nat := l.sendBytes.owed P

def lostSends (s : State) (l : Label) : Nat := s.send.lostOf P l.send

def lostRecvs (s : State) (l : Label) : Nat := s.recv.lostOf P l.recv

def lostBytes (s : State) (l : Label) : Nat := s.sendBytes.lostOf P l.sendBytes

end

/-- **One step** in the three walks. -/
theorem step_touches {s s' : State} {l : Label} (h : step s l = some s') :
    Touch udpSend id s.send l.send s'.send ∧ Touch udpRecv id s.recv l.recv s'.recv ∧
      Touch udpSendBytes id s.sendBytes l.sendBytes s'.sendBytes := by
  cases l with
  | event e =>
    cases h
    cases e with
    | sendmsg pid len =>
      exact ⟨.event (fun _ => rfl) rfl, .still, .event (fun _ => rfl) rfl⟩
    | recvmsg pid ret =>
      simp only [Event.handle, handleUdpRecvmsg, Label.recv]
      split_ifs
      · exact ⟨.still, .still, .still⟩
      · exact ⟨.still, .event (fun _ => rfl) rfl, .still⟩
  | poll ok =>
    cases h
    cases hp : s.phase <;> simp only [State.poll, hp]
    case send => exact ⟨.call, .still, .still⟩
    case recv => exact ⟨.still, .call, .still⟩
    case sendBytes => exact ⟨.still, .still, .call⟩
    all_goals exact ⟨.still, .still, .still⟩

/-! The books of a whole run. -/

section
variable (b br bb : UInt32 → Nat) {ls : List Label} {t : State}

theorem sends_exec (hx : exec step (start b br bb) ls = some t) (P : UInt32 → Bool) :
    Wrapped (2 ^ 64)
      (t.send.account (within P id) + sumAlong step (lostSends P) (start b br bb) ls)
      (ls.map (Label.sends P)).sum :=
  account_touches (fun _ _ => rfl) (fun _ => eq_zero_of_hidden)
    (fun _ _ _ h => (step_touches h).1) rfl hx

theorem recvs_exec (hx : exec step (start b br bb) ls = some t) (P : UInt32 → Bool) :
    Wrapped (2 ^ 64)
      (t.recv.account (within P id) + sumAlong step (lostRecvs P) (start b br bb) ls)
      (ls.map (Label.recvs P)).sum :=
  account_touches (fun _ _ => rfl) (fun _ => eq_zero_of_hidden)
    (fun _ _ _ h => (step_touches h).2.1) rfl hx

theorem bytes_exec (hx : exec step (start b br bb) ls = some t) (P : UInt32 → Bool) :
    Wrapped (2 ^ 64)
      (t.sendBytes.account (within P id) + sumAlong step (lostBytes P) (start b br bb) ls)
      (ls.map (Label.bytes P)).sum :=
  account_touches (fun _ _ => rfl) (fun _ => eq_zero_of_hidden)
    (fun _ _ _ h => (step_touches h).2.2) rfl hx

end

/-- **The PIDs.** In every such run the lines printed for the PIDs in `P`, what the map
still holds of them and the events that did not land are the events of `P`, less whole
multiples of 2^64: for the sends, the receives and the bytes sent. -/
theorem udp_pids (b br bb : UInt32 → Nat) (ls : List Label) {t : State}
    (hx : exec step (start b br bb) ls = some t) (P : UInt32 → Bool) :
    Wrapped (2 ^ 64)
        (t.send.account (within P id) + sumAlong step (lostSends P) (start b br bb) ls)
        (ls.map (Label.sends P)).sum ∧
      Wrapped (2 ^ 64)
        (t.recv.account (within P id) + sumAlong step (lostRecvs P) (start b br bb) ls)
        (ls.map (Label.recvs P)).sum ∧
      Wrapped (2 ^ 64)
        (t.sendBytes.account (within P id) + sumAlong step (lostBytes P) (start b br bb) ls)
        (ls.map (Label.bytes P)).sum :=
  ⟨sends_exec b br bb hx P, recvs_exec b br bb hx P, bytes_exec b br bb hx P⟩

/-- A send of 80 bytes while its PID is between the lookup and the delete. -/
def racing : List Label :=
  [.event (.sendmsg 7 100), .event (.recvmsg 7 (-11))] ++ List.replicate 8 (.poll true) ++
    [.event (.sendmsg 7 80)] ++ List.replicate 8 (.poll true)

theorem udp_pids_racing : ∃ t,
    exec step (start UInt32.toNat UInt32.toNat UInt32.toNat) racing = some t ∧
      t.send.shown = [(7, 1)] ∧ t.sendBytes.shown = [(7, 180)] ∧
      Wrapped (2 ^ 64)
        (t.send.account (within (fun _ => true) id) + sumAlong step (lostSends fun _ => true)
          (start UInt32.toNat UInt32.toNat UInt32.toNat) racing)
        (racing.map (Label.sends fun _ => true)).sum := by
  have hx : (exec step (start UInt32.toNat UInt32.toNat UInt32.toNat) racing).map
      (fun t => (t.send.shown, t.sendBytes.shown)) = some ([(7, 1)], [(7, 180)]) := by
    decide +kernel
  obtain ⟨t, ht, hp⟩ := Option.map_eq_some_iff.mp hx
  obtain ⟨h1, h2⟩ := Prod.mk.inj hp
  exact ⟨t, ht, h1, h2, (udp_pids _ _ _ racing ht fun _ => true).1⟩

end EbpfDemo.L5Concurrency.UdpStat
