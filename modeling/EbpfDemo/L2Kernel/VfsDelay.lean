import EbpfDemo.L2Kernel.DiskReadDelay

/-!
# disk_read_delay and disk_write_delay: latency of `vfs_read` and `vfs_write`

The two tools are one program under two sets of names: `DelayTool` is what they
share, `view` shows the maps of either under the names of disk_read_delay. An
entry stores the time under the whole `pid_tgid`, so a thread has a slot of its
own; the return adds the difference to `stats[0]`, one to `stats[1]` and deletes
the slot. `Trace` runs the four programs over any interleaving of calls and block
events, from the moment the programs are attached: some threads are inside a call
then, and their first return has no entry (`busy`).

* `exact_step`: what one event keeps (`Exact`): the two statistics are the sum and
  the number of the calls seen from both ends, modulo 2^64, and the start map holds
  the calls whose entry was seen;
* `vfsDelay_exact`: so in every run, where moreover no difference is below zero and
  the block programs leave the two statistics alone;
* `vfsDelay_wraps`: the total wraps, and a call that was under way at the start is
  not in the map.
-/
namespace EbpfDemo.L2Kernel

open EbpfDemo.Core

/-- mirrors src/my_tools/disk/disk_write_delay.bpf.c:7-26 -/
structure DiskWriteDelay where
  tsStartPid : HashMap UInt64 UInt64
  tsStartReq : HashMap UInt64 UInt64
  diskWriteStats : HashMap UInt32 UInt64

namespace DiskWriteDelay

/-- mirrors src/my_tools/disk/disk_write_delay.bpf.c:28-36 -/
def updateStat (m : HashMap UInt32 UInt64) (key : UInt32) (delta : UInt64) :
    HashMap UInt32 UInt64 :=
  countEvent (· + delta) delta .any m key

/-- mirrors src/my_tools/disk/disk_write_delay.bpf.c:38-45 -/
def handleVfsWrite (s : DiskWriteDelay) (tid ts : UInt64) : DiskWriteDelay :=
  { s with tsStartPid := s.tsStartPid.update tid ts .any }

/-- mirrors src/my_tools/disk/disk_write_delay.bpf.c:47-64 -/
def handleVfsWriteRet (s : DiskWriteDelay) (tid now : UInt64) : DiskWriteDelay :=
  match s.tsStartPid.lookupElem tid with
  | none => s
  | some start =>
    let delta := now - start
    { s with
      diskWriteStats := updateStat (updateStat s.diskWriteStats 0 delta) 1 1
      tsStartPid := s.tsStartPid.deleteElem tid }

/-- mirrors src/my_tools/disk/disk_write_delay.bpf.c:66-73 -/
def handleBlkMqStartRequest (s : DiskWriteDelay) (rq ts : UInt64) : DiskWriteDelay :=
  { s with tsStartReq := s.tsStartReq.update rq ts .any }

/-- mirrors src/my_tools/disk/disk_write_delay.bpf.c:75-91 -/
def handleBlkUpdateRequest (s : DiskWriteDelay) (rq now : UInt64) : DiskWriteDelay :=
  match s.tsStartReq.lookupElem rq with
  | none => s
  | some start =>
    let delta := now - start
    { s with
      diskWriteStats := updateStat (updateStat s.diskWriteStats 2 delta) 3 1
      tsStartReq := s.tsStartReq.deleteElem rq }

/-- The programs as loaded. -/
def init (bp br : UInt64 → Nat) (bs : UInt32 → Nat) : DiskWriteDelay where
  tsStartPid := .empty bp 10240
  tsStartReq := .empty br 10240
  diskWriteStats := .empty bs 4

/-- The maps under the names of disk_read_delay. -/
def asRead (s : DiskWriteDelay) : DiskReadDelay := ⟨s.tsStartPid, s.tsStartReq, s.diskWriteStats⟩

theorem asRead_vfsWriteRet (s : DiskWriteDelay) (tid now : UInt64) :
    (s.handleVfsWriteRet tid now).asRead = s.asRead.handleVfsReadRet tid now := by
  unfold handleVfsWriteRet DiskReadDelay.handleVfsReadRet asRead
  cases s.tsStartPid.lookupElem tid <;> rfl

theorem asRead_updateRequest (s : DiskWriteDelay) (rq now : UInt64) :
    (s.handleBlkUpdateRequest rq now).asRead = s.asRead.handleBlkUpdateRequest rq now := by
  unfold handleBlkUpdateRequest DiskReadDelay.handleBlkUpdateRequest asRead
  cases s.tsStartReq.lookupElem rq <;> rfl

end DiskWriteDelay

/-! ## The calls in the figures of disk_read_delay -/

namespace DiskReadDelay

variable {s : DiskReadDelay} {tid start : UInt64}

/-- The figures of the calls: nanoseconds and calls. -/
def vfsFigures (s : DiskReadDelay) : Nat × Nat :=
  (valueOf s.diskReadStats 0, valueOf s.diskReadStats 1)

theorem vfsReadRet_none (h : s.tsStartPid.lookupElem tid = none) (now : UInt64) :
    s.handleVfsReadRet tid now = s := by
  unfold handleVfsReadRet
  rw [h]

/-- One stored time is taken out and counted. -/
theorem vfsFigures_vfsReadRet (hk : FourKeys s.diskReadStats)
    (h : s.tsStartPid.lookupElem tid = some start) (now : UInt64) :
    (s.handleVfsReadRet tid now).vfsFigures =
      ((s.vfsFigures.1 + (now - start).toNat) % 2 ^ 64, (s.vfsFigures.2 + 1) % 2 ^ 64) := by
  have hk0 := hk.updateStat (k := 0) (by decide) (now - start)
  unfold handleVfsReadRet
  rw [h]
  refine Prod.ext ?_ ?_
  · show valueOf (updateStat _ 1 1) 0 = _
    rw [hk0.valueOf_updateStat (by decide), if_neg (by decide), hk.valueOf_updateStat (by decide),
      if_pos rfl]
    rfl
  · show valueOf (updateStat _ 1 1) 1 = _
    rw [hk0.valueOf_updateStat (by decide), if_pos rfl, hk.valueOf_updateStat (by decide),
      if_neg (by decide)]
    rfl

/-- The handlers of the block layer leave the figures of the calls alone. -/
theorem vfsFigures_updateRequest (hk : FourKeys s.diskReadStats) (rq now : UInt64) :
    (s.handleBlkUpdateRequest rq now).vfsFigures = s.vfsFigures := by
  unfold handleBlkUpdateRequest
  cases s.tsStartReq.lookupElem rq with
  | none => rfl
  | some start =>
    have hk2 := hk.updateStat (k := 2) (by decide) (now - start)
    refine Prod.ext ?_ ?_
    · show valueOf (updateStat _ 3 1) 0 = _
      rw [hk2.valueOf_updateStat (by decide), if_neg (by decide), hk.valueOf_updateStat (by decide),
        if_neg (by decide)]
      rfl
    · show valueOf (updateStat _ 3 1) 1 = _
      rw [hk2.valueOf_updateStat (by decide), if_neg (by decide), hk.valueOf_updateStat (by decide),
        if_neg (by decide)]
      rfl

theorem tsStartPid_updateRequest (s : DiskReadDelay) (rq now : UInt64) :
    (s.handleBlkUpdateRequest rq now).tsStartPid = s.tsStartPid := by
  unfold handleBlkUpdateRequest
  split <;> rfl

/-- A return empties the slot of its thread. -/
theorem tsStartPid_vfsReadRet (s : DiskReadDelay) (tid now a : UInt64) :
    (s.handleVfsReadRet tid now).tsStartPid.lookupElem a =
      if a = tid then none else s.tsStartPid.lookupElem a := by
  cases h : s.tsStartPid.lookupElem tid with
  | none =>
    rw [vfsReadRet_none h]
    split
    · rename_i e; rw [e, h]
    · rfl
  | some start =>
    unfold handleVfsReadRet
    rw [h]
    show (s.tsStartPid.deleteElem tid).lookupElem a = _
    split
    · rename_i e; rw [e, HashMap.lookupElem_deleteElem_self]
    · rename_i e; exact HashMap.lookupElem_deleteElem_ne e _

end DiskReadDelay

/-! ## The two tools -/

/-- Four programs that do to `view` what those of disk_read_delay do. -/
structure DelayTool where
  Maps : Type
  init : (UInt64 → Nat) → (UInt64 → Nat) → (UInt32 → Nat) → Maps
  vfsEntry : Maps → UInt64 → UInt64 → Maps
  vfsRet : Maps → UInt64 → UInt64 → Maps
  blkStart : Maps → UInt64 → UInt64 → Maps
  blkUpdate : Maps → UInt64 → UInt64 → Maps
  view : Maps → DiskReadDelay
  view_init : ∀ bp br bs, view (init bp br bs) = DiskReadDelay.init bp br bs
  view_vfsEntry : ∀ s tid ts, view (vfsEntry s tid ts) = (view s).handleVfsRead tid ts
  view_vfsRet : ∀ s tid now, view (vfsRet s tid now) = (view s).handleVfsReadRet tid now
  view_blkStart : ∀ s rq ts, view (blkStart s rq ts) = (view s).handleBlkMqStartRequest rq ts
  view_blkUpdate : ∀ s rq now, view (blkUpdate s rq now) = (view s).handleBlkUpdateRequest rq now

def diskReadDelay : DelayTool where
  Maps := DiskReadDelay
  init := .init
  vfsEntry := .handleVfsRead
  vfsRet := .handleVfsReadRet
  blkStart := .handleBlkMqStartRequest
  blkUpdate := .handleBlkUpdateRequest
  view := id
  view_init _ _ _ := rfl
  view_vfsEntry _ _ _ := rfl
  view_vfsRet _ _ _ := rfl
  view_blkStart _ _ _ := rfl
  view_blkUpdate _ _ _ := rfl

def diskWriteDelay : DelayTool where
  Maps := DiskWriteDelay
  init := .init
  vfsEntry := .handleVfsWrite
  vfsRet := .handleVfsWriteRet
  blkStart := .handleBlkMqStartRequest
  blkUpdate := .handleBlkUpdateRequest
  view := DiskWriteDelay.asRead
  view_init _ _ _ := rfl
  view_vfsEntry _ _ _ := rfl
  view_vfsRet := DiskWriteDelay.asRead_vfsWriteRet
  view_blkStart _ _ _ := rfl
  view_blkUpdate := DiskWriteDelay.asRead_updateRequest

/-- The tool of a direction. -/
def delayTool : BlockOp → DelayTool
  | .read => diskReadDelay
  | .write => diskWriteDelay

/-! ## Traces of calls -/

namespace VfsDelay

/-- Where a thread is; `entered`: the time of the entry, unless that came before
the programs were attached. -/
inductive Place where
  | outside
  | inside (entered : Option UInt64)
  deriving DecidableEq

/-- The entry time of the call a thread is in, if its entry was seen. -/
def Place.entered : Place → Option UInt64
  | .outside => none
  | .inside e => e

inductive Event where
  | vfsEntry (tid ts : UInt64)
  | vfsRet (tid now : UInt64)
  | blkStart (rq ts : UInt64)
  | blkUpdate (rq now : UInt64)

variable (p : DelayTool)

/-- The programs, the clock, where the threads are, and the latencies of the calls
seen from both ends. -/
structure Trace where
  maps : p.Maps
  clock : UInt64
  place : UInt64 → Place
  done : List Nat

variable {p}

def Trace.enter (s : Trace p) (tid ts : UInt64) : Trace p :=
  { s with
    maps := p.vfsEntry s.maps tid ts
    clock := ts
    place := Function.update s.place tid (.inside (some ts)) }

def Trace.leave (s : Trace p) (tid now : UInt64) (entered : Option UInt64) : Trace p where
  maps := p.vfsRet s.maps tid now
  clock := now
  place := Function.update s.place tid .outside
  done := (entered.map fun e => now.toNat - e.toNat).toList ++ s.done

/-- The clock does not go back, a thread enters and returns in turn, and its start
time finds room. -/
def step (s : Trace p) : Event → Option (Trace p)
  | .vfsEntry tid ts =>
    if s.clock ≤ ts ∧ s.place tid = .outside ∧ HasRoom (p.view s.maps).tsStartPid tid then
      some (s.enter tid ts)
    else none
  | .vfsRet tid now =>
    match s.place tid with
    | .outside => none
    | .inside e => if s.clock ≤ now then some (s.leave tid now e) else none
  | .blkStart rq ts =>
    if s.clock ≤ ts then some { s with maps := p.blkStart s.maps rq ts, clock := ts } else none
  | .blkUpdate rq now =>
    if s.clock ≤ now then some { s with maps := p.blkUpdate s.maps rq now, clock := now } else none

/-- Just attached; `busy`: the thread is inside a call. -/
def attached (maps : p.Maps) (busy : UInt64 → Bool) : Trace p where
  maps := maps
  clock := 0
  place tid := if busy tid then .inside none else .outside
  done := []

/-- The statistics of the calls are those of the calls seen from both ends, modulo
2^64; the start map holds the calls under way whose entry was seen. -/
structure Exact (s : Trace p) : Prop where
  figures : (p.view s.maps).vfsFigures = (s.done.sum % 2 ^ 64, s.done.length % 2 ^ 64)
  starts : ∀ tid, (p.view s.maps).tsStartPid.lookupElem tid = (s.place tid).entered

/-- What a program is about to subtract is not in the future. -/
def NoUnderflow (s : Trace p) : Event → Prop
  | .vfsRet tid now => ∀ start, (p.view s.maps).tsStartPid.lookupElem tid = some start → start ≤ now
  | .blkUpdate rq now =>
    ∀ start, (p.view s.maps).tsStartReq.lookupElem rq = some start → start ≤ now
  | _ => True

/-- A block event leaves the statistics of the calls alone. -/
def BlockKeeps (s : Trace p) : Event → Prop
  | .blkStart rq ts => (p.view (p.blkStart s.maps rq ts)).vfsFigures = (p.view s.maps).vfsFigures
  | .blkUpdate rq now =>
    (p.view (p.blkUpdate s.maps rq now)).vfsFigures = (p.view s.maps).vfsFigures
  | _ => True

section
variable {s s' : Trace p} {tid rq ts now : UInt64}

theorem step_entry (h : step s (.vfsEntry tid ts) = some s') :
    s.clock ≤ ts ∧ s.place tid = .outside ∧ HasRoom (p.view s.maps).tsStartPid tid ∧
      s' = s.enter tid ts := by
  simp only [step] at h
  split at h
  · rename_i hg; cases h; exact ⟨hg.1, hg.2.1, hg.2.2, rfl⟩
  · cases h

theorem step_ret (h : step s (.vfsRet tid now) = some s') :
    ∃ e, s.place tid = .inside e ∧ s.clock ≤ now ∧ s' = s.leave tid now e := by
  simp only [step] at h
  cases hp : s.place tid with
  | outside => rw [hp] at h; cases h
  | inside e =>
    simp only [hp] at h
    split at h
    · cases h; exact ⟨e, rfl, ‹_›, rfl⟩
    · cases h

theorem step_blkStart (h : step s (.blkStart rq ts) = some s') :
    s.clock ≤ ts ∧ s' = { s with maps := p.blkStart s.maps rq ts, clock := ts } := by
  simp only [step] at h
  split at h
  · cases h; exact ⟨‹_›, rfl⟩
  · cases h

theorem step_blkUpdate (h : step s (.blkUpdate rq now) = some s') :
    s.clock ≤ now ∧ s' = { s with maps := p.blkUpdate s.maps rq now, clock := now } := by
  simp only [step] at h
  split at h
  · cases h; exact ⟨‹_›, rfl⟩
  · cases h

end

/-! ## What a run keeps -/

/-- `Exact`, and no stored time lies in the future. -/
structure Inv (s : Trace p) : Prop where
  exact : Exact s
  slots : DiskReadDelay.FourKeys (p.view s.maps).diskReadStats
  past : ∀ tid e, (s.place tid).entered = some e → e ≤ s.clock
  pastRq : ∀ rq e, (p.view s.maps).tsStartReq.lookupElem rq = some e → e ≤ s.clock

theorem lookup_update {m : HashMap UInt64 UInt64} {k x v w : UInt64}
    (h : (m.update k v .any).lookupElem x = some w) : w = v ∨ m.lookupElem x = some w := by
  by_cases hroom : HasRoom m k
  · rw [lookup_update_room hroom] at h
    split at h
    · cases h; exact .inl rfl
    · exact .inr h
  · unfold HasRoom at hroom
    rw [not_or, not_not] at hroom
    rw [HashMap.update_full hroom.1 hroom.2] at h
    exact .inr h

section
variable {s : Trace p} {tid rq ts now : UInt64}

theorem inv_enter (hI : Inv s) (hc : s.clock ≤ ts) (hroom : HasRoom (p.view s.maps).tsStartPid tid) :
    Inv (s.enter tid ts) := by
  have hv : p.view (s.enter tid ts).maps = (p.view s.maps).handleVfsRead tid ts :=
    p.view_vfsEntry s.maps tid ts
  refine ⟨⟨?_, fun a => ?_⟩, ?_, fun a e he => ?_, fun a e he => ?_⟩
  · rw [hv]; exact hI.exact.figures
  · rw [hv]
    show ((p.view s.maps).tsStartPid.update tid ts .any).lookupElem a = _
    rw [lookup_update_room hroom]
    simp only [Trace.enter, Function.update_apply]
    split
    · rfl
    · exact hI.exact.starts a
  · rw [hv]; exact hI.slots
  · simp only [Trace.enter, Function.update_apply] at he
    split at he
    · cases he; exact UInt64.le_refl _
    · exact UInt64.le_trans (hI.past a e he) hc
  · rw [hv] at he
    exact UInt64.le_trans (hI.pastRq a e he) hc

/-- A return is counted exactly when the entry was seen. -/
theorem exact_leave (hI : Inv s) (hc : s.clock ≤ now) {e : Option UInt64}
    (he : s.place tid = .inside e) : Exact (s.leave tid now e) := by
  have hv : p.view (s.leave tid now e).maps = (p.view s.maps).handleVfsReadRet tid now :=
    p.view_vfsRet s.maps tid now
  have hst := hI.exact.starts tid
  rw [he] at hst
  constructor
  · rw [hv]
    cases e with
    | none =>
      rw [DiskReadDelay.vfsReadRet_none hst]
      exact hI.exact.figures
    | some start =>
      have hle : start ≤ now :=
        UInt64.le_trans (hI.past tid start (by rw [he]; rfl)) hc
      rw [DiskReadDelay.vfsFigures_vfsReadRet hI.slots hst, hI.exact.figures,
        UInt64.toNat_sub_of_le _ _ hle]
      refine Prod.ext ?_ ?_
      · show (s.done.sum % 2 ^ 64 + _) % 2 ^ 64 = ((now.toNat - start.toNat) :: s.done).sum % 2 ^ 64
        rw [List.sum_cons, Nat.mod_add_mod, Nat.add_comm]
      · exact Nat.mod_add_mod _ _ _
  · intro a
    rw [hv, DiskReadDelay.tsStartPid_vfsReadRet]
    simp only [Trace.leave, Function.update_apply]
    split
    · rfl
    · exact hI.exact.starts a

theorem inv_leave (hI : Inv s) (hc : s.clock ≤ now) {e : Option UInt64}
    (he : s.place tid = .inside e) : Inv (s.leave tid now e) := by
  have hv : p.view (s.leave tid now e).maps = (p.view s.maps).handleVfsReadRet tid now :=
    p.view_vfsRet s.maps tid now
  refine ⟨exact_leave hI hc he, ?_, fun a b hb => ?_, fun a b hb => ?_⟩
  · rw [hv]; exact (DiskReadDelay.figures_vfsReadRet hI.slots tid now).2
  · simp only [Trace.leave, Function.update_apply] at hb
    split at hb
    · cases hb
    · exact UInt64.le_trans (hI.past a b hb) hc
  · rw [hv, DiskReadDelay.tsStartReq_vfsReadRet] at hb
    exact UInt64.le_trans (hI.pastRq a b hb) hc

theorem inv_blkStart (hI : Inv s) (hc : s.clock ≤ ts) :
    Inv { s with maps := p.blkStart s.maps rq ts, clock := ts } := by
  have hv := p.view_blkStart s.maps rq ts
  refine ⟨⟨?_, fun a => ?_⟩, ?_, fun a e he => ?_, fun a e he => ?_⟩
  · rw [hv]; exact hI.exact.figures
  · rw [hv]; exact hI.exact.starts a
  · rw [hv]; exact hI.slots
  · exact UInt64.le_trans (hI.past a e he) hc
  · rw [hv] at he
    rcases lookup_update he with rfl | he
    · exact UInt64.le_refl _
    · exact UInt64.le_trans (hI.pastRq a e he) hc

theorem inv_blkUpdate (hI : Inv s) (hc : s.clock ≤ now) :
    Inv { s with maps := p.blkUpdate s.maps rq now, clock := now } := by
  have hv := p.view_blkUpdate s.maps rq now
  refine ⟨⟨?_, fun a => ?_⟩, ?_, fun a e he => ?_, fun a e he => ?_⟩
  · rw [hv, DiskReadDelay.vfsFigures_updateRequest hI.slots]
    exact hI.exact.figures
  · rw [hv, DiskReadDelay.tsStartPid_updateRequest]
    exact hI.exact.starts a
  · rw [hv]; exact ReadDelay.fourKeys_updateRequest hI.slots rq now
  · exact UInt64.le_trans (hI.past a e he) hc
  · rw [hv, ReadDelay.tsStartReq_updateRequest] at he
    split at he
    · cases he
    · exact UInt64.le_trans (hI.pastRq a e he) hc

end

/-- **One event** keeps the statistics exact. -/
theorem inv_step (s : Trace p) (l : Event) (s' : Trace p) (hI : Inv s) (h : step s l = some s') :
    Inv s' := by
  cases l with
  | vfsEntry tid ts =>
    obtain ⟨hc, -, hroom, rfl⟩ := step_entry h
    exact inv_enter hI hc hroom
  | vfsRet tid now =>
    obtain ⟨e, he, hc, rfl⟩ := step_ret h
    exact inv_leave hI hc he
  | blkStart rq ts =>
    obtain ⟨hc, rfl⟩ := step_blkStart h
    exact inv_blkStart hI hc
  | blkUpdate rq now =>
    obtain ⟨hc, rfl⟩ := step_blkUpdate h
    exact inv_blkUpdate hI hc

theorem noUnderflow_step (s : Trace p) (l : Event) (s' : Trace p) (hI : Inv s)
    (h : step s l = some s') : NoUnderflow s l := by
  cases l with
  | vfsEntry => trivial
  | blkStart => trivial
  | vfsRet tid now =>
    obtain ⟨e, -, hc, -⟩ := step_ret h
    intro start hs
    rw [hI.exact.starts] at hs
    exact UInt64.le_trans (hI.past tid start hs) hc
  | blkUpdate rq now =>
    obtain ⟨hc, -⟩ := step_blkUpdate h
    exact fun start hs => UInt64.le_trans (hI.pastRq rq start hs) hc

theorem blockKeeps_of_inv (s : Trace p) (l : Event) (hI : Inv s) : BlockKeeps s l := by
  cases l with
  | vfsEntry => trivial
  | vfsRet => trivial
  | blkStart rq ts =>
    simp only [BlockKeeps]
    rw [p.view_blkStart]; rfl
  | blkUpdate rq now =>
    simp only [BlockKeeps]
    rw [p.view_blkUpdate]
    exact DiskReadDelay.vfsFigures_updateRequest hI.slots rq now

theorem inv_attached (bp br : UInt64 → Nat) (bs : UInt32 → Nat) (busy : UInt64 → Bool) :
    Inv (attached (p.init bp br bs) busy) := by
  have hv := p.view_init bp br bs
  have hplace : ∀ tid, ((attached (p.init bp br bs) busy).place tid).entered = none := by
    intro tid
    unfold attached
    dsimp only
    split <;> rfl
  refine ⟨⟨?_, fun tid => ?_⟩, ?_, fun tid e he => ?_, fun rq e he => ?_⟩
  · show (p.view (p.init bp br bs)).vfsFigures = _
    rw [hv]; rfl
  · show (p.view (p.init bp br bs)).tsStartPid.lookupElem tid = _
    rw [hv, hplace]; rfl
  · show DiskReadDelay.FourKeys (p.view (p.init bp br bs)).diskReadStats
    rw [hv]; exact ⟨rfl, fun _ h => by cases h⟩
  · rw [hplace] at he; cases he
  · have he' : (p.view (p.init bp br bs)).tsStartReq.lookupElem rq = some e := he
    rw [hv] at he'; cases he'

/-- **Latency of the calls.** For either tool, in every run: the two statistics are
the sum and the number of the calls seen from both ends, modulo 2^64; the start map
holds the calls under way whose entry was seen; no difference is below zero; and the
block programs leave the two statistics alone. -/
theorem vfsDelay_exact (d : BlockOp) (bp br : UInt64 → Nat) (bs : UInt32 → Nat)
    (busy : UInt64 → Bool) (ls : List Event) (t : Trace (delayTool d))
    (hx : exec step (attached ((delayTool d).init bp br bs) busy) ls = some t) :
    Exact t ∧ Along step NoUnderflow (attached ((delayTool d).init bp br bs) busy) ls ∧
      Along step BlockKeeps (attached ((delayTool d).init bp br bs) busy) ls := by
  have hI := inv_attached (p := delayTool d) bp br bs busy
  exact ⟨(inv_exec inv_step hI hx).exact, along_of_inv inv_step noUnderflow_step hI hx,
    along_of_always blockKeeps_of_inv (inv_always inv_step hI ls)⟩

/-- Every key in one bucket. -/
def loaded (d : BlockOp) (busy : UInt64 → Bool) : Trace (delayTool d) :=
  attached ((delayTool d).init (fun _ => 0) (fun _ => 0) fun _ => 0) busy

/-- Two threads inside a call at once, a third that was in one at the start, and a
block request in between. -/
def overlapping : List Event :=
  [.vfsEntry 1 100, .vfsEntry 2 150, .vfsRet 3 160, .blkStart 9 170, .vfsRet 1 300,
    .blkUpdate 9 320, .vfsRet 2 400, .vfsEntry 3 500]

theorem vfsDelay_overlapping :
    ∃ t, exec step (loaded .write (· == 3)) overlapping = some t ∧ Exact t ∧
      t.done = [250, 200] ∧ ((delayTool .write).view t.maps).vfsFigures = (450, 2) := by
  have hx : (exec step (loaded .write (· == 3)) overlapping).isSome = true := by decide +kernel
  obtain ⟨t, ht⟩ := Option.isSome_iff_exists.mp hx
  have hd : (exec step (loaded .write (· == 3)) overlapping).map (·.done) =
      some [250, 200] := by decide +kernel
  rw [ht] at hd
  have hdone : t.done = [250, 200] := Option.some.inj hd
  have hE := (vfsDelay_exact .write _ _ _ (· == 3) overlapping t ht).1
  refine ⟨t, ht, hE, hdone, ?_⟩
  rw [hE.figures, hdone]; rfl

/-- **Counterexample.** Two calls of 2^63 ns each: the total is 0. A third thread
is inside a call all the time, and not in the map. -/
theorem vfsDelay_wraps :
    (exec step (loaded .read (· == 3)) [.vfsEntry 1 0, .vfsEntry 2 0,
        .vfsRet 1 0x8000000000000000, .vfsRet 2 0x8000000000000000]).map
      (fun t => (t.done.sum, (diskReadDelay.view t.maps).vfsFigures, t.place 3,
        (diskReadDelay.view t.maps).tsStartPid.lookupElem 3)) =
    some (2 ^ 64, (0, 2), .inside none, none) := by
  decide +kernel

end VfsDelay
end EbpfDemo.L2Kernel
