import Mathlib.Algebra.Ring.Nat
import Mathlib.Logic.Function.Basic
import Mathlib.Data.List.Perm.Subperm
import EbpfDemo.Core.Machine
import EbpfDemo.L2Kernel.Counters

/-!
# disk_read_delay: what the block figures count

`handle_blk_mq_start_request` stores a time under the address of the request,
`handle_blk_update_request` takes it out at the first call for the request and
adds to `disk_read_stats[2]` and `[3]`. Neither looks at the request itself.
`Trace` runs the four programs over any events and keeps what the two figures
should be about: the requests in flight, with their direction, and the latencies
of the finished reads (from the start to the *last* update).

`readDelay_iff`: the figures are right after every prefix of a trace exactly when
every `blk_update_request` finishes a read (`FinishesRead`): no write is ever
completed and no read in two parts. The finished reads themselves are a matter
of the events of reads (`reads_exec`), the figures are not: `readDelay_write`
completes a write.
-/
namespace EbpfDemo.L2Kernel

open EbpfDemo.Core

/-- mirrors src/my_tools/disk/disk_read_delay.bpf.c:7-26 -/
structure DiskReadDelay where
  tsStartPid : HashMap UInt64 UInt64
  tsStartReq : HashMap UInt64 UInt64
  diskReadStats : HashMap UInt32 UInt64

namespace DiskReadDelay

/-- mirrors src/my_tools/disk/disk_read_delay.bpf.c:28-36 -/
def updateStat (m : HashMap UInt32 UInt64) (key : UInt32) (delta : UInt64) :
    HashMap UInt32 UInt64 :=
  countEvent (· + delta) delta .any m key

/-- mirrors src/my_tools/disk/disk_read_delay.bpf.c:38-45 -/
def handleVfsRead (s : DiskReadDelay) (tid ts : UInt64) : DiskReadDelay :=
  { s with tsStartPid := s.tsStartPid.update tid ts .any }

/-- mirrors src/my_tools/disk/disk_read_delay.bpf.c:47-58 -/
def handleVfsReadRet (s : DiskReadDelay) (tid now : UInt64) : DiskReadDelay :=
  match s.tsStartPid.lookupElem tid with
  | none => s
  | some start =>
    { s with
      diskReadStats := updateStat (updateStat s.diskReadStats 0 (now - start)) 1 1
      tsStartPid := s.tsStartPid.deleteElem tid }

/-- mirrors src/my_tools/disk/disk_read_delay.bpf.c:60-67 -/
def handleBlkMqStartRequest (s : DiskReadDelay) (rq ts : UInt64) : DiskReadDelay :=
  { s with tsStartReq := s.tsStartReq.update rq ts .any }

/-- mirrors src/my_tools/disk/disk_read_delay.bpf.c:69-80 -/
def handleBlkUpdateRequest (s : DiskReadDelay) (rq now : UInt64) : DiskReadDelay :=
  match s.tsStartReq.lookupElem rq with
  | none => s
  | some start =>
    { s with
      diskReadStats := updateStat (updateStat s.diskReadStats 2 (now - start)) 3 1
      tsStartReq := s.tsStartReq.deleteElem rq }

/-- The programs as loaded. -/
def init (bp br : UInt64 → Nat) (bs : UInt32 → Nat) : DiskReadDelay where
  tsStartPid := .empty bp 10240
  tsStartReq := .empty br 10240
  diskReadStats := .empty bs 4

/-! ## The four statistics -/

/-- Room for four keys, and no others in use. -/
structure FourKeys (m : HashMap UInt32 UInt64) : Prop where
  room : m.maxEntries = 4
  small : ∀ k ∈ m.keys, k.toNat < 4

section
variable {m : HashMap UInt32 UInt64} {k : UInt32} {s : DiskReadDelay} {rq start : UInt64}

/-- The map is never full for a key of its own. -/
theorem FourKeys.hasRoom (h : FourKeys m) (hk : k.toNat < 4) : HasRoom m k := by
  by_cases hmem : k ∈ m.keys
  · exact .inl hmem
  · right
    have hnd : ((k :: m.keys).map UInt32.toNat).Nodup :=
      (List.nodup_cons.mpr ⟨hmem, m.nodup⟩).map fun _ _ e => UInt32.toNat_inj.mp e
    have hsub : (k :: m.keys).map UInt32.toNat ⊆ List.range 4 := by
      intro x hx
      obtain ⟨y, hy, rfl⟩ := List.mem_map.mp hx
      refine List.mem_range.mpr ?_
      rcases List.mem_cons.mp hy with rfl | hy
      · exact hk
      · exact h.small y hy
    have hlen := (List.subperm_of_subset hnd hsub).length_le
    simp only [List.length_map, List.length_cons, List.length_range, HashMap.keys,
      Assoc.keys] at hlen
    unfold HashMap.Full HashMap.size
    rw [h.room]
    omega

theorem FourKeys.updateStat (h : FourKeys m) (hk : k.toNat < 4) (d : UInt64) :
    FourKeys (updateStat m k d) := by
  refine ⟨(maxEntries_countEvent _ _ _ _ _).trans h.room, fun x hx => ?_⟩
  rcases mem_keys_of_countEvent (by decide) hx with rfl | hx
  · exact hk
  · exact h.small x hx

theorem FourKeys.valueOf_updateStat (h : FourKeys m) (hk : k.toNat < 4) (d : UInt64) (k' : UInt32) :
    valueOf (DiskReadDelay.updateStat m k d) k' =
      if k' = k then (valueOf m k + d.toNat) % 2 ^ 64 else valueOf m k' :=
  valueOf_countEvent (h.hasRoom hk) d k'

theorem updateRequest_none (h : s.tsStartReq.lookupElem rq = none) (now : UInt64) :
    s.handleBlkUpdateRequest rq now = s := by
  unfold handleBlkUpdateRequest
  rw [h]

theorem updateRequest_some (h : s.tsStartReq.lookupElem rq = some start) (now : UInt64) :
    s.handleBlkUpdateRequest rq now = { s with
      diskReadStats := DiskReadDelay.updateStat
        (DiskReadDelay.updateStat s.diskReadStats 2 (now - start)) 3 1
      tsStartReq := s.tsStartReq.deleteElem rq } := by
  unfold handleBlkUpdateRequest
  rw [h]

/-- The figures of the block layer: nanoseconds and requests. -/
def blockFigures (s : DiskReadDelay) : Nat × Nat :=
  (valueOf s.diskReadStats 2, valueOf s.diskReadStats 3)

/-- One stored time is taken out and counted. -/
theorem figures_updateRequest (hk : FourKeys s.diskReadStats)
    (h : s.tsStartReq.lookupElem rq = some start) (now : UInt64) :
    (s.handleBlkUpdateRequest rq now).blockFigures =
      ((s.blockFigures.1 + (now - start).toNat) % 2 ^ 64, (s.blockFigures.2 + 1) % 2 ^ 64) := by
  have hk2 := hk.updateStat (k := 2) (by decide) (now - start)
  rw [updateRequest_some h]
  unfold blockFigures
  refine Prod.ext ?_ ?_
  · show valueOf (DiskReadDelay.updateStat _ 3 1) 2 = _
    rw [hk2.valueOf_updateStat (by decide), if_neg (by decide), hk.valueOf_updateStat (by decide),
      if_pos rfl]
  · show valueOf (DiskReadDelay.updateStat _ 3 1) 3 = _
    rw [hk2.valueOf_updateStat (by decide), if_pos rfl, hk.valueOf_updateStat (by decide),
      if_neg (by decide)]
    rfl

/-- The handlers of `vfs_read` leave the block figures alone. -/
theorem figures_vfsReadRet (hk : FourKeys s.diskReadStats) (tid now : UInt64) :
    (s.handleVfsReadRet tid now).blockFigures = s.blockFigures ∧
      FourKeys (s.handleVfsReadRet tid now).diskReadStats := by
  unfold handleVfsReadRet
  cases s.tsStartPid.lookupElem tid with
  | none => exact ⟨rfl, hk⟩
  | some start =>
    have hk0 := hk.updateStat (k := 0) (by decide) (now - start)
    refine ⟨Prod.ext ?_ ?_, hk0.updateStat (by decide) 1⟩
    · show valueOf (DiskReadDelay.updateStat _ 1 1) 2 = _
      rw [hk0.valueOf_updateStat (by decide), if_neg (by decide), hk.valueOf_updateStat (by decide),
        if_neg (by decide)]
      rfl
    · show valueOf (DiskReadDelay.updateStat _ 1 1) 3 = _
      rw [hk0.valueOf_updateStat (by decide), if_neg (by decide), hk.valueOf_updateStat (by decide),
        if_neg (by decide)]
      rfl

theorem tsStartReq_vfsReadRet (s : DiskReadDelay) (tid now : UInt64) :
    (s.handleVfsReadRet tid now).tsStartReq = s.tsStartReq := by
  unfold handleVfsReadRet
  split <;> rfl

end
end DiskReadDelay

/-! ## Traces of requests -/

/-- What a request does. -/
inductive BlockOp where
  | read | write
  deriving DecidableEq

/-- A request in flight; `updated`: `blk_update_request` has been called for it. -/
structure BlockRq where
  op : BlockOp
  started : UInt64
  updated : Bool
  deriving DecidableEq

/-- A call for the request at an address; `last`: it finishes the request. -/
inductive DelayEvent where
  | start (rq : UInt64) (op : BlockOp) (ts : UInt64)
  | update (rq : UInt64) (op : BlockOp) (last : Bool) (now : UInt64)
  | vfsRead (tid ts : UInt64)
  | vfsReadRet (tid now : UInt64)

def DelayEvent.ofWrite : DelayEvent → Bool
  | .start _ op _ | .update _ op _ _ => op = .write
  | .vfsRead .. | .vfsReadRet .. => false

namespace ReadDelay

open DiskReadDelay

/-- The programs, the clock, the request in flight at each address and the
latencies of the finished reads. -/
structure Trace where
  maps : DiskReadDelay
  clock : UInt64
  inFlight : UInt64 → Option BlockRq
  done : List Nat

/-- The state after `blk_update_request` was called for `r`. -/
def afterUpdate (s : Trace) (rq : UInt64) (r : BlockRq) (last : Bool) (now : UInt64) : Trace where
  maps := s.maps.handleBlkUpdateRequest rq now
  clock := now
  inFlight := Function.update s.inFlight rq (if last then none else some { r with updated := true })
  done := if last ∧ r.op = .read then (now.toNat - r.started.toNat) :: s.done else s.done

/-- The clock does not go back, an address is that of one request in flight, a
request is updated while it is in flight and its start time finds room. -/
def step (s : Trace) : DelayEvent → Option Trace
  | .start rq op ts =>
    if s.clock ≤ ts ∧ s.inFlight rq = none ∧ HasRoom s.maps.tsStartReq rq then
      some { s with
        maps := s.maps.handleBlkMqStartRequest rq ts
        clock := ts
        inFlight := Function.update s.inFlight rq (some ⟨op, ts, false⟩) }
    else none
  | .update rq op last now =>
    match s.inFlight rq with
    | none => none
    | some r => if s.clock ≤ now ∧ r.op = op then some (afterUpdate s rq r last now) else none
  | .vfsRead tid ts =>
    if s.clock ≤ ts then some { s with maps := s.maps.handleVfsRead tid ts, clock := ts }
    else none
  | .vfsReadRet tid now =>
    if s.clock ≤ now then some { s with maps := s.maps.handleVfsReadRet tid now, clock := now }
    else none

def init (maps : DiskReadDelay) : Trace := ⟨maps, 0, fun _ => none, []⟩

/-- The block figures are the latencies of the finished reads and their number. -/
def Measured (s : Trace) : Prop := s.maps.blockFigures = (s.done.sum, s.done.length)

/-- `blk_update_request` finishes a read, and the totals do not wrap. -/
def FinishesRead (s : Trace) : DelayEvent → Prop
  | .update rq op last now => op = .read ∧ last = true ∧ ∀ r, s.inFlight rq = some r →
      s.done.sum + (now.toNat - r.started.toNat) < 2 ^ 64 ∧ s.done.length + 1 < 2 ^ 64
  | _ => True

instance (s : Trace) (l : DelayEvent) : Decidable (FinishesRead s l) :=
  match l with
  | .start .. | .vfsRead .. | .vfsReadRet .. => .isTrue trivial
  | .update rq op last now =>
    match h : s.inFlight rq with
    | none => decidable_of_iff (op = .read ∧ last = true) (by simp [FinishesRead, h])
    | some r =>
      decidable_of_iff (op = .read ∧ last = true ∧
        s.done.sum + (now.toNat - r.started.toNat) < 2 ^ 64 ∧ s.done.length + 1 < 2 ^ 64)
        (by simp [FinishesRead, h])

section
variable {s s' : Trace} {rq : UInt64} {op : BlockOp} {last : Bool} {ts now tid : UInt64}

theorem step_start (h : step s (.start rq op ts) = some s') :
    s.clock ≤ ts ∧ s.inFlight rq = none ∧ HasRoom s.maps.tsStartReq rq ∧ s' = { s with
      maps := s.maps.handleBlkMqStartRequest rq ts
      clock := ts
      inFlight := Function.update s.inFlight rq (some ⟨op, ts, false⟩) } := by
  simp only [step] at h
  split at h
  · rename_i hg; cases h; exact ⟨hg.1, hg.2.1, hg.2.2, rfl⟩
  · cases h

theorem step_update (h : step s (.update rq op last now) = some s') :
    ∃ r, s.inFlight rq = some r ∧ s.clock ≤ now ∧ r.op = op ∧
      s' = afterUpdate s rq r last now := by
  simp only [step] at h
  cases hf : s.inFlight rq with
  | none => rw [hf] at h; cases h
  | some r =>
    simp only [hf] at h
    split at h
    · rename_i hg; cases h; exact ⟨r, rfl, hg.1, hg.2, rfl⟩
    · cases h

theorem step_vfsRead (h : step s (.vfsRead tid ts) = some s') :
    s.clock ≤ ts ∧ s' = { s with maps := s.maps.handleVfsRead tid ts, clock := ts } := by
  simp only [step] at h
  split at h
  · cases h; exact ⟨‹_›, rfl⟩
  · cases h

theorem step_vfsReadRet (h : step s (.vfsReadRet tid now) = some s') :
    s.clock ≤ now ∧ s' = { s with maps := s.maps.handleVfsReadRet tid now, clock := now } := by
  simp only [step] at h
  split at h
  · cases h; exact ⟨‹_›, rfl⟩
  · cases h

end

/-- A start time is stored exactly for the requests in flight that have not been
updated, and none of them lies in the future. -/
structure Inv (s : Trace) : Prop where
  past : ∀ a r, s.inFlight a = some r → r.started ≤ s.clock
  stored : ∀ a, s.maps.tsStartReq.lookupElem a =
    (s.inFlight a).bind fun r => if r.updated then none else some r.started
  slots : FourKeys s.maps.diskReadStats

theorem tsStartReq_updateRequest (m : DiskReadDelay) (rq now a : UInt64) :
    (m.handleBlkUpdateRequest rq now).tsStartReq.lookupElem a =
      if a = rq then none else m.tsStartReq.lookupElem a := by
  cases h : m.tsStartReq.lookupElem rq with
  | none =>
    rw [updateRequest_none h]
    split
    · rename_i e; rw [e, h]
    · rfl
  | some start =>
    rw [updateRequest_some h]
    show (m.tsStartReq.deleteElem rq).lookupElem a = _
    split
    · rename_i e; rw [e, HashMap.lookupElem_deleteElem_self]
    · rename_i e; exact HashMap.lookupElem_deleteElem_ne e _

theorem fourKeys_updateRequest {m : DiskReadDelay} (h : FourKeys m.diskReadStats)
    (rq now : UInt64) : FourKeys (m.handleBlkUpdateRequest rq now).diskReadStats := by
  cases hl : m.tsStartReq.lookupElem rq with
  | none => rw [updateRequest_none hl]; exact h
  | some start =>
    rw [updateRequest_some hl]
    exact (h.updateStat (by decide) _).updateStat (by decide) _

section
variable {s : Trace} {rq : UInt64}

theorem Inv.stored_of (hI : Inv s) {r : BlockRq} (hr : s.inFlight rq = some r) :
    s.maps.tsStartReq.lookupElem rq = if r.updated then none else some r.started := by
  rw [hI.stored, hr]; rfl

theorem inv_start (hI : Inv s) {ts : UInt64} (hc : s.clock ≤ ts)
    (hroom : HasRoom s.maps.tsStartReq rq) (op : BlockOp) :
    Inv { s with
      maps := s.maps.handleBlkMqStartRequest rq ts
      clock := ts
      inFlight := Function.update s.inFlight rq (some ⟨op, ts, false⟩) } := by
  refine ⟨fun a r hr => ?_, fun a => ?_, hI.slots⟩
  · simp only [Function.update_apply] at hr
    split at hr
    · cases hr; exact UInt64.le_refl _
    · exact UInt64.le_trans (hI.past a r hr) hc
  · show (s.maps.tsStartReq.update rq ts .any).lookupElem a = _
    rw [lookup_update_room hroom]
    simp only [Function.update_apply]
    split
    · rfl
    · exact hI.stored a

theorem inv_afterUpdate (hI : Inv s) {r : BlockRq} (hr : s.inFlight rq = some r) {now : UInt64}
    (hc : s.clock ≤ now) (last : Bool) : Inv (afterUpdate s rq r last now) := by
  refine ⟨fun a x hx => ?_, fun a => ?_, fourKeys_updateRequest hI.slots rq now⟩
  · simp only [afterUpdate, Function.update_apply] at hx
    split at hx
    · cases last with
      | true => cases hx
      | false => cases hx; exact UInt64.le_trans (hI.past rq r hr) hc
    · exact UInt64.le_trans (hI.past a x hx) hc
  · show (s.maps.handleBlkUpdateRequest rq now).tsStartReq.lookupElem a = _
    rw [tsStartReq_updateRequest]
    simp only [afterUpdate, Function.update_apply]
    split
    · cases last <;> rfl
    · exact hI.stored a

end

theorem inv_step (s : Trace) (l : DelayEvent) (s' : Trace) (hI : Inv s) (h : step s l = some s') :
    Inv s' := by
  cases l with
  | start rq op ts =>
    obtain ⟨hc, -, hroom, rfl⟩ := step_start h
    exact inv_start hI hc hroom op
  | update rq op last now =>
    obtain ⟨r, hr, hc, -, rfl⟩ := step_update h
    exact inv_afterUpdate hI hr hc last
  | vfsRead tid ts =>
    obtain ⟨hc, rfl⟩ := step_vfsRead h
    exact ⟨fun a r hr => UInt64.le_trans (hI.past a r hr) hc, hI.stored, hI.slots⟩
  | vfsReadRet tid now =>
    obtain ⟨hc, rfl⟩ := step_vfsReadRet h
    refine ⟨fun a r hr => UInt64.le_trans (hI.past a r hr) hc, fun a => ?_,
      (figures_vfsReadRet hI.slots tid now).2⟩
    show (s.maps.handleVfsReadRet tid now).tsStartReq.lookupElem a = _
    rw [tsStartReq_vfsReadRet]
    exact hI.stored a

/-- A first update finishes a read, and the totals do not wrap; a later one does
not finish a read. -/
def Counts (s : Trace) : DelayEvent → Prop
  | .update rq op last now => ∀ r, s.inFlight rq = some r →
      if r.updated then ¬ (last = true ∧ op = .read)
      else (last = true ∧ op = .read) ∧
        s.done.sum + (now.toNat - r.started.toNat) < 2 ^ 64 ∧ s.done.length + 1 < 2 ^ 64
  | _ => True

section
variable {s : Trace} {rq : UInt64} {r : BlockRq} {last : Bool} {now : UInt64}

/-- The first update of a request is counted, whatever it is. -/
theorem measured_first (hI : Inv s) (hQ : Measured s) (hr : s.inFlight rq = some r)
    (hc : s.clock ≤ now) (hu : r.updated = false) :
    Measured (afterUpdate s rq r last now) ↔ (last = true ∧ r.op = .read) ∧
      s.done.sum + (now.toNat - r.started.toNat) < 2 ^ 64 ∧ s.done.length + 1 < 2 ^ 64 := by
  have hs : s.maps.tsStartReq.lookupElem rq = some r.started := by
    rw [hI.stored_of hr, hu]; rfl
  have hlat := UInt64.toNat_sub_of_le _ _ (UInt64.le_trans (hI.past rq r hr) hc)
  unfold Measured
  show (s.maps.handleBlkUpdateRequest rq now).blockFigures = _ ↔ _
  rw [figures_updateRequest hI.slots hs, hQ, hlat]
  have hlen : s.done.length < 2 ^ 64 := by
    have h3 : valueOf s.maps.diskReadStats 3 = s.done.length := congrArg Prod.snd hQ
    rw [← h3]; exact UInt64.toNat_lt _
  by_cases hread : last = true ∧ r.op = .read
  · simp only [afterUpdate, if_pos hread, List.sum_cons, List.length_cons, Prod.mk.injEq]
    rw [iff_true_intro hread, true_and]
    omega
  · -- nothing finished, or a write: the number is one ahead
    simp only [afterUpdate, if_neg hread, Prod.mk.injEq]
    exact ⟨fun h => by omega, fun h => absurd h.1 hread⟩

/-- A later one finds no start time. -/
theorem measured_later (hI : Inv s) (hQ : Measured s) (hr : s.inFlight rq = some r)
    (hu : r.updated = true) :
    Measured (afterUpdate s rq r last now) ↔ ¬ (last = true ∧ r.op = .read) := by
  have hs : s.maps.tsStartReq.lookupElem rq = none := by
    rw [hI.stored_of hr, hu]; rfl
  unfold Measured
  show (s.maps.handleBlkUpdateRequest rq now).blockFigures = _ ↔ _
  rw [updateRequest_none hs, hQ]
  by_cases hread : last = true ∧ r.op = .read
  · simp only [afterUpdate, if_pos hread, List.length_cons, Prod.mk.injEq]
    exact ⟨fun h => by omega, fun h => absurd hread h⟩
  · simp only [afterUpdate, if_neg hread]
    simp [hread]

end

theorem measured_step (s : Trace) (l : DelayEvent) (s' : Trace) (hI : Inv s) (hQ : Measured s)
    (h : step s l = some s') : Measured s' ↔ Counts s l := by
  cases l with
  | start rq op ts =>
    obtain ⟨-, -, -, rfl⟩ := step_start h
    exact ⟨fun _ => trivial, fun _ => hQ⟩
  | update rq op last now =>
    obtain ⟨r, hr, hc, rfl, rfl⟩ := step_update h
    simp only [Counts, hr, Option.some.injEq, forall_eq']
    cases hu : r.updated with
    | true => exact measured_later hI hQ hr hu
    | false => exact measured_first hI hQ hr hc hu
  | vfsRead tid ts =>
    obtain ⟨-, rfl⟩ := step_vfsRead h
    exact ⟨fun _ => trivial, fun _ => hQ⟩
  | vfsReadRet tid now =>
    obtain ⟨-, rfl⟩ := step_vfsReadRet h
    exact ⟨fun _ => trivial, fun _ => (figures_vfsReadRet hI.slots tid now).1.trans hQ⟩

/-- No request in flight has been updated. -/
def Untouched (s : Trace) : Prop := ∀ a r, s.inFlight a = some r → r.updated = false

theorem untouched_step (s : Trace) (l : DelayEvent) (s' : Trace) (hU : Untouched s)
    (hlast : ∀ rq op last now, l = .update rq op last now → last = true)
    (h : step s l = some s') : Untouched s' := by
  cases l with
  | start rq op ts =>
    obtain ⟨-, -, -, rfl⟩ := step_start h
    intro a r hr
    simp only [Function.update_apply] at hr
    split at hr
    · cases hr; rfl
    · exact hU a r hr
  | update rq op last now =>
    obtain ⟨r, -, -, -, rfl⟩ := step_update h
    cases hlast rq op last now rfl
    intro a x hx
    simp only [afterUpdate, Function.update_apply] at hx
    split at hx
    · cases hx
    · exact hU a x hx
  | vfsRead tid ts => obtain ⟨-, rfl⟩ := step_vfsRead h; exact hU
  | vfsReadRet tid now => obtain ⟨-, rfl⟩ := step_vfsReadRet h; exact hU

/-- While no request in flight has been updated, every update is a first one. -/
theorem counts_iff (s : Trace) (l : DelayEvent) (s' : Trace) (hU : Untouched s)
    (h : step s l = some s') : Counts s l ↔ FinishesRead s l := by
  cases l with
  | update rq op last now =>
    obtain ⟨r, hr, -, -, -⟩ := step_update h
    simp only [Counts, FinishesRead, hr, Option.some.injEq, forall_eq', hU rq r hr]
    simp [and_comm, and_left_comm, and_assoc]
  | start => exact Iff.rfl
  | vfsRead => exact Iff.rfl
  | vfsReadRet => exact Iff.rfl

theorem untouched_finishes (s : Trace) (l : DelayEvent) (s' : Trace) (hU : Untouched s)
    (hF : FinishesRead s l) (h : step s l = some s') : Untouched s' := by
  refine untouched_step s l s' hU (fun rq op last now e => ?_) h
  cases e
  exact hF.2.1

theorem along_counts_iff {s t : Trace} {ls : List DelayEvent} (hU : Untouched s)
    (hx : exec step s ls = some t) : Along step Counts s ls ↔ Along step FinishesRead s ls := by
  constructor
  · intro h
    refine h.imp (I := Untouched) (fun s l s' hU hC h => ?_) (fun s l s' hU hC h => ?_) hU hx
    · exact untouched_finishes s l s' hU ((counts_iff s l s' hU h).mp hC) h
    · exact (counts_iff s l s' hU h).mp hC
  · intro h
    exact h.imp (I := Untouched) untouched_finishes
      (fun s l s' hU hF h => (counts_iff s l s' hU h).mpr hF) hU hx

/-! ## The reads alone -/

/-- Start times of the reads in flight and latencies of the finished ones. -/
structure Reads where
  started : UInt64 → Option UInt64
  done : List Nat

def Trace.reads (s : Trace) : Reads where
  started a := (s.inFlight a).bind fun r => if r.op = .read then some r.started else none
  done := s.done

/-- What an event that is not of a write does to them. -/
def Reads.next (v : Reads) : DelayEvent → Reads
  | .start rq _ ts => { v with started := Function.update v.started rq (some ts) }
  | .update rq _ last now =>
    if last then
      { started := Function.update v.started rq none
        done := (now.toNat - ((v.started rq).getD 0).toNat) :: v.done }
    else v
  | .vfsRead .. | .vfsReadRet .. => v

theorem reads_afterUpdate {s : Trace} {rq : UInt64} {r : BlockRq} (hr : s.inFlight rq = some r)
    (last : Bool) (now : UInt64) : (afterUpdate s rq r last now).reads =
      if r.op = .write then s.reads else s.reads.next (.update rq r.op last now) := by
  have hown : s.reads.started rq = if r.op = .read then some r.started else none := by
    simp [Trace.reads, hr]
  cases hop : r.op with
  | write =>
    rw [hop] at hown
    refine congrArg₂ Reads.mk (funext fun a => ?_) (by simp [afterUpdate, hop])
    simp only [afterUpdate, Function.update_apply]
    split
    · rename_i e; rw [e]; refine Eq.trans ?_ hown.symm; cases last <;> simp [hop]
    · rfl
  | read =>
    rw [hop] at hown
    cases last with
    | true =>
      refine congrArg₂ Reads.mk (funext fun a => ?_) ?_
      · simp only [afterUpdate, Function.update_apply, Trace.reads]
        split <;> rfl
      · rw [hown]; simp [afterUpdate, hop, Trace.reads]
    | false =>
      refine congrArg₂ Reads.mk (funext fun a => ?_) (by simp [afterUpdate])
      simp only [afterUpdate, Function.update_apply]
      split
      · rename_i e; rw [e]; refine Eq.trans ?_ hown.symm; simp [hop]
      · rfl

theorem reads_step (s : Trace) (l : DelayEvent) (s' : Trace) (h : step s l = some s') :
    s'.reads = if l.ofWrite then s.reads else s.reads.next l := by
  cases l with
  | start rq op ts =>
    obtain ⟨-, hfree, -, rfl⟩ := step_start h
    have hnone : s.reads.started rq = none := by simp [Trace.reads, hfree]
    cases op with
    | read =>
      refine congrArg₂ Reads.mk (funext fun a => ?_) rfl
      simp only [Trace.reads, Function.update_apply]
      split <;> rfl
    | write =>
      refine congrArg₂ Reads.mk (funext fun a => ?_) rfl
      simp only [Function.update_apply]
      split
      · rename_i e; rw [e]; exact hnone.symm
      · rfl
  | update rq op last now =>
    obtain ⟨r, hr, -, rfl, rfl⟩ := step_update h
    rw [reads_afterUpdate hr, DelayEvent.ofWrite]
    simp only [decide_eq_true_eq]
  | vfsRead tid ts => obtain ⟨-, rfl⟩ := step_vfsRead h; rfl
  | vfsReadRet tid now => obtain ⟨-, rfl⟩ := step_vfsReadRet h; rfl

/-- The finished reads are a matter of the events of reads. -/
theorem reads_exec {s t : Trace} {ls : List DelayEvent} (hx : exec step s ls = some t) :
    t.reads = (ls.filter fun l => !l.ofWrite).foldl Reads.next s.reads := by
  induction ls generalizing s with
  | nil => cases hx; rfl
  | cons l ls ih =>
    obtain ⟨s', hs, hx⟩ := exec_cons_some hx
    rw [ih hx, reads_step s l s' hs]
    cases hw : l.ofWrite with
    | true => rw [List.filter_cons_of_neg (by simp [hw])]; rfl
    | false => rw [List.filter_cons_of_pos (by simp [hw])]; rfl

theorem done_of_reads {s t t' : Trace} {ls ls' : List DelayEvent} (hx : exec step s ls = some t)
    (hx' : exec step s ls' = some t')
    (h : (ls.filter fun l => !l.ofWrite) = ls'.filter fun l => !l.ofWrite) : t.done = t'.done := by
  have hr : t.reads = t'.reads := by rw [reads_exec hx, h, reads_exec hx']
  exact congrArg Reads.done hr

/-! ## The figures -/

section
variable (bp br : UInt64 → Nat) (bs : UInt32 → Nat)

theorem measured_init : Measured (init (DiskReadDelay.init bp br bs)) := rfl

theorem inv_init : Inv (init (DiskReadDelay.init bp br bs)) where
  past _ _ h := by cases h
  stored _ := rfl
  slots := ⟨rfl, fun _ h => by cases h⟩

theorem untouched_init : Untouched (init (DiskReadDelay.init bp br bs)) := fun _ _ h => by cases h

/-- **Block figures.** Along any trace they are, after every prefix, those of the
finished reads exactly when every `blk_update_request` finishes a read. Two such
traces with the same reads have the same figures. -/
theorem readDelay_iff (ls : List DelayEvent) (t : Trace)
    (hx : exec step (init (DiskReadDelay.init bp br bs)) ls = some t) :
    (Always step Measured (init (DiskReadDelay.init bp br bs)) ls ↔
      Along step FinishesRead (init (DiskReadDelay.init bp br bs)) ls) ∧
    (Along step FinishesRead (init (DiskReadDelay.init bp br bs)) ls →
      ∀ (ls' : List DelayEvent) (t' : Trace),
      exec step (init (DiskReadDelay.init bp br bs)) ls' = some t' →
      Along step FinishesRead (init (DiskReadDelay.init bp br bs)) ls' →
      (ls.filter fun l => !l.ofWrite) = (ls'.filter fun l => !l.ofWrite) →
      t.maps.blockFigures = t'.maps.blockFigures) := by
  have hiff : ∀ (ls : List DelayEvent) (t : Trace),
      exec step (init (DiskReadDelay.init bp br bs)) ls = some t →
      (Always step Measured (init (DiskReadDelay.init bp br bs)) ls ↔
        Along step FinishesRead (init (DiskReadDelay.init bp br bs)) ls) := by
    intro ls t hx
    rw [← along_counts_iff (untouched_init bp br bs) hx]
    exact always_iff_along inv_step measured_step (inv_init bp br bs) (measured_init bp br bs) hx
  refine ⟨hiff ls t hx, fun hF ls' t' hx' hF' hreads => ?_⟩
  have hm : Measured t := ((hiff ls t hx).mpr hF).last hx
  have hm' : Measured t' := ((hiff ls' t' hx').mpr hF').last hx'
  rw [hm, hm', done_of_reads hx hx' hreads]

end

/-- The programs as loaded, every key in one bucket. -/
def loaded : Trace := init (DiskReadDelay.init (fun _ => 0) (fun _ => 0) fun _ => 0)

/-- Two reads at one address, one after the other, and a write in flight. -/
def twoReads : List DelayEvent :=
  [.start 1 .read 100, .start 2 .write 120, .vfsRead 7 130, .update 1 .read true 350,
    .vfsReadRet 7 360, .start 1 .read 400, .update 1 .read true 1000]

/-- The same without the write. -/
def twoReadsAlone : List DelayEvent :=
  [.start 1 .read 100, .vfsRead 7 130, .update 1 .read true 350, .vfsReadRet 7 360,
    .start 1 .read 400, .update 1 .read true 1000]

theorem readDelay_twoReads :
    (∃ t t', exec step loaded twoReads = some t ∧ exec step loaded twoReadsAlone = some t' ∧
      t.maps.blockFigures = t'.maps.blockFigures) ∧
    Always step Measured loaded twoReads := by
  obtain ⟨t, hx⟩ : ∃ t, exec step loaded twoReads = some t := ⟨_, rfl⟩
  obtain ⟨t', hx'⟩ : ∃ t, exec step loaded twoReadsAlone = some t := ⟨_, rfl⟩
  have hF : Along step FinishesRead loaded twoReads := by decide
  obtain ⟨hiff, hsame⟩ := readDelay_iff _ _ _ twoReads t hx
  exact ⟨⟨t, t', hx, hx', hsame hF twoReadsAlone t' hx' (by decide) rfl⟩, hiff.mpr hF⟩

/-- **Counterexample.** One write, and no read: the block figures are those of
the write. Without the write they are zero. -/
theorem readDelay_write :
    ∃ t, exec step loaded [.start 1 .write 100, .update 1 .write true 350] = some t ∧
      t.done = [] ∧ t.maps.blockFigures = (250, 1) ∧ ¬ Measured t ∧
      loaded.maps.blockFigures = (0, 0) :=
  ⟨_, rfl, by decide, by decide, by unfold Measured; decide, rfl⟩

/-- A read completed in two parts is counted at the first, before it has
finished, and with the time up to there. -/
example : ∃ s t, exec step loaded [.start 1 .read 100, .update 1 .read false 200] = some s ∧
    s.done = [] ∧ s.maps.blockFigures = (100, 1) ∧
    exec step s [.update 1 .read true 350] = some t ∧
    t.done = [250] ∧ t.maps.blockFigures = (100, 1) :=
  ⟨_, _, rfl, by decide, by decide, rfl, by decide, by decide⟩

end ReadDelay
end EbpfDemo.L2Kernel
