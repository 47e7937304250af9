import EbpfDemo.L3Loader.PollAlone
import EbpfDemo.L5Concurrency.TornSizes

/-!
# disk_io_size: what the counters hold, and of whom

`handle_block_rq_issue` asks one thing of a request, whether the first letter of
`rwbs` is a `W`, and counts it twice: in `io_size_stats`, and in `pid_io_stats`
under the PID, which every poll empties. Here requests have an operation and the
flags the kernel writes `rwbs` from; requests and polls come in any order, no
request inside a poll.

* `classified_iff`: the counters of reads and of writes are those of the reads and
  the writes exactly when every request is a read, or a write without pre-flush;
  `classified_preflush`: a write that is counted as a read;
* `conserved_step`, `sizes_conserved`: what the PIDs hold and what the polls took
  from them is what `io_size_stats` counts.
-/
namespace EbpfDemo.L5Concurrency

open EbpfDemo.Core
open L2Kernel L3Loader

/-! ## Requests -/

/-- `REQ_OP_*`, as far as `rwbs` tells them apart. -/
inductive RqOp where
  | read | write | discard | flush | other
  deriving DecidableEq

def RqOp.letter : RqOp → UInt8
  | .read => 'R'.toUInt8
  | .write => 'W'.toUInt8
  | .discard => 'D'.toUInt8
  | .flush => 'F'.toUInt8
  | .other => 'N'.toUInt8

/-- A request; `flags` are the letters behind that of the operation. -/
structure Request where
  op : RqOp
  preflush : Bool
  flags : List UInt8
  nrSector : UInt32
  pid : UInt32

namespace Request

/-- `rwbs`, as the kernel fills it. -/
def rwbs (r : Request) : List UInt8 :=
  (if r.preflush then ['F'.toUInt8] else []) ++ r.op.letter :: r.flags

/-- What the handler sees of it. -/
def issue (r : Request) : RqIssue := ⟨r.nrSector, r.rwbs.headD 0, r.pid⟩

/-- A read, or a write without pre-flush. -/
def Told (r : Request) : Prop := r.op = .read ∨ r.op = .write ∧ r.preflush = false

theorem isWrite_issue (r : Request) :
    r.issue.isWrite = true ↔ r.op = .write ∧ r.preflush = false := by
  obtain ⟨op, preflush, flags, n, pid⟩ := r
  cases preflush <;> cases op <;> simp [issue, rwbs, RqIssue.isWrite, RqOp.letter] <;> decide

/-- What the request should add to the counter `i`. -/
def due (r : Request) : Fin 6 → Nat
  | 0 => if r.op = .read then r.issue.bytes.toNat else 0
  | 1 => if r.op = .write then r.issue.bytes.toNat else 0
  | 2 => if r.op = .read then 1 else 0
  | 3 => if r.op = .write then 1 else 0
  | 4 => r.issue.bytes.toNat
  | 5 => 1

end Request

namespace SizeViews

open TornSizes (share key valueAt_addStats)

/-- It adds that exactly if it is told apart. -/
theorem share_iff (r : Request) : (∀ i, share r.issue i = r.due i) ↔ r.Told := by
  have hw := r.isWrite_issue
  constructor
  · intro h
    have h2 := h 2
    have h3 := h 3
    by_cases hwrite : r.issue.isWrite = true
    · exact .inr (hw.mp hwrite)
    · left
      simp only [share, Request.due, if_neg hwrite] at h2
      by_contra hr
      rw [if_neg hr] at h2
      cases h2
  · rintro (hr | hr) i
    · have hn : r.issue.isWrite = false := by
        rw [← Bool.not_eq_true, hw, hr]
        exact fun h => absurd h.1 (by decide)
      fin_cases i <;> simp [share, Request.due, hn, hr]
    · have hn : r.issue.isWrite = true := hw.mpr hr
      fin_cases i <;> simp [share, Request.due, hn, hr.1]

theorem due_lt (r : Request) (i : Fin 6) : r.due i < 2 ^ 64 := by
  have hb := r.issue.bytes.toNat_lt
  fin_cases i <;> simp only [Request.due] <;> try split
  all_goals omega

theorem share_lt (r : RqIssue) (i : Fin 6) : share r i < 2 ^ 64 := by
  have hb := r.bytes.toNat_lt
  fin_cases i <;> simp only [share] <;> try split
  all_goals omega

/-! ## Runs -/

theorem diskIoSize_deletes : diskIoSize.Deletes := fun _ _ => rfl

/-- The maps, the requests so far, and the values the polls read and deleted. -/
structure State where
  prog : DiskIoSize
  issued : List Request
  taken : List PidIo

inductive Label where
  | issue (r : Request)
  | poll

def start (b : UInt32 → Nat) : State := ⟨⟨Vector.replicate 8 0, .empty b 10240⟩, [], []⟩

def State.issue (s : State) (r : Request) : State :=
  { s with prog := handleBlockRqIssue s.prog r.issue, issued := r :: s.issued }

/-- mirrors src/my_tools/disk/disk_io_size.c:89-104 -/
def State.poll (s : State) : State where
  prog := { s.prog with
    pidIoStats := (pollAlone diskIoSize diskIoSize_deletes s.prog.pidIoStats).map }
  issued := s.issued
  taken := (pollAlone diskIoSize.all diskIoSize_deletes s.prog.pidIoStats).seen.map Prod.snd ++
    s.taken

def step (s : State) : Label → Option State
  | .issue r => some (s.issue r)
  | .poll => some s.poll

theorem step_total (s : State) (l : Label) : ∃ s', step s l = some s' := by
  cases l with
  | issue r => exact ⟨_, rfl⟩
  | poll => exact ⟨_, rfl⟩

/-! ## Reads and writes -/

/-- Every counter is what the requests should have added to it. -/
def Classified (s : State) : Prop :=
  ∀ i, s.prog.ioSizeStats.valueAt (key i) = (s.issued.map fun r => r.due i).sum % 2 ^ 64

/-- The request of a label is told apart. -/
def ToldApart : Label → Prop
  | .issue r => r.Told
  | .poll => True

/-- **One request** keeps the counters right exactly if it is told apart. -/
theorem classified_step (s : State) (l : Label) (s' : State) (hQ : Classified s)
    (h : step s l = some s') : Classified s' ↔ ToldApart l := by
  cases l with
  | poll => cases h; exact iff_of_true hQ trivial
  | issue r =>
    cases h
    have hv : ∀ i, ((s.issue r).prog.ioSizeStats.valueAt (key i) =
        ((s.issue r).issued.map fun r => r.due i).sum % 2 ^ 64) ↔ share r.issue i = r.due i := by
      intro i
      have hs := share_lt r.issue i
      have hd := due_lt r i
      show (addStats s.prog.ioSizeStats r.issue).valueAt (key i) =
        ((r :: s.issued).map fun r => r.due i).sum % 2 ^ 64 ↔ _
      rw [valueAt_addStats, hQ i, List.map_cons, List.sum_cons]
      omega
    exact (forall_congr' hv).trans (share_iff r)

theorem classified_start (b : UInt32 → Nat) : Classified (start b) := by
  show ∀ i, ArrayMap.valueAt (Vector.replicate 8 0) (key i) = 0
  decide

/-- **Reads and writes.** Over any run the six counters are, after every prefix,
those of the reads, of the writes and of all requests exactly when every request is
a read, or a write without pre-flush. -/
theorem classified_iff (b : UInt32 → Nat) (ls : List Label) :
    Always step Classified (start b) ls ↔ ∀ l ∈ ls, ToldApart l := by
  obtain ⟨t, ht⟩ := exec_of_total step_total (start b) ls
  rw [← along_labels step_total (start b) ls]
  exact always_iff_along (I := fun _ => True) (fun _ _ _ _ _ => trivial)
    (fun s l s' _ hQ h => classified_step s l s' hQ h) trivial (classified_start b) ht

/-- A write of 8 sectors with pre-flush, and a discard. -/
def preflushWrite : Request := ⟨.write, true, [], 8, 5⟩
def discard : Request := ⟨.discard, false, [], 8, 5⟩

/-- **Counterexample.** A write with pre-flush and a discard: both are reads. -/
theorem classified_preflush :
    preflushWrite.rwbs = ['F'.toUInt8, 'W'.toUInt8] ∧
    (exec step (start fun _ => 0) [.issue preflushWrite, .issue discard]).map (fun s =>
      (List.finRange 6).map fun i => s.prog.ioSizeStats.valueAt (key i)) =
      some [8192, 0, 2, 0, 8192, 2] ∧
    ¬ Always step Classified (start fun _ => 0) [.issue preflushWrite, .issue discard] := by
  refine ⟨by decide, by decide +kernel, fun hA => ?_⟩
  have h0 := (hA.2 _ rfl).head 1
  revert h0
  decide +kernel

/-! ## PIDs and totals -/

/-- The figures of a PID. -/
def field (i : Fin 4) (p : PidIo) : Nat :=
  match i with
  | 0 => p.readBytes.toNat
  | 1 => p.writeBytes.toNat
  | 2 => p.readCount.toNat
  | 3 => p.writeCount.toNat

/-- What the PIDs hold and what was taken from them is what was counted; the totals
are the sums of their kinds. All modulo 2^64. -/
structure Conserved (s : State) : Prop where
  pids : ∀ i : Fin 4, s.prog.pidIoStats.weigh (fun _ => field i) + (s.taken.map (field i)).sum ≡
    s.prog.ioSizeStats.valueAt (key (i.castLE (by decide))) [MOD 2 ^ 64]
  bytes : s.prog.ioSizeStats.valueAt (key 4) =
    (s.prog.ioSizeStats.valueAt (key 0) + s.prog.ioSizeStats.valueAt (key 1)) % 2 ^ 64
  count : s.prog.ioSizeStats.valueAt (key 5) =
    (s.prog.ioSizeStats.valueAt (key 2) + s.prog.ioSizeStats.valueAt (key 3)) % 2 ^ 64

/-- The insert of a new PID does not fail. -/
def Fits (s : State) : Label → Prop
  | .issue r => HasRoom s.prog.pidIoStats r.pid
  | .poll => True

instance (s : State) : (l : Label) → Decidable (Fits s l)
  | .issue r => inferInstanceAs (Decidable (HasRoom s.prog.pidIoStats r.pid))
  | .poll => .isTrue trivial

/-- A PID gets what the counters get. -/
theorem field_addPidIo (r : RqIssue) (i : Fin 4) (p : PidIo) :
    field i (r.addPidIo p) ≡ field i p + share r (i.castLE (by decide)) [MOD 2 ^ 64] := by
  cases hw : r.isWrite <;> fin_cases i <;>
    simp only [RqIssue.addPidIo, hw, field, share, Bool.false_eq_true, if_false, if_true] <;>
    first
      | exact toNat_add_modEq _ _
      | exact Nat.ModEq.refl _

theorem field_firstPidIo (r : RqIssue) (i : Fin 4) :
    field i r.firstPidIo = share r (i.castLE (by decide)) := by
  cases hw : r.isWrite <;> fin_cases i <;> simp [RqIssue.firstPidIo, hw, field, share]

theorem conserved_issue {s : State} (hC : Conserved s) {r : Request}
    (hroom : HasRoom s.prog.pidIoStats r.pid) : Conserved (s.issue r) := by
  have hstat : ∀ i, (s.issue r).prog.ioSizeStats.valueAt (key i) =
      (s.prog.ioSizeStats.valueAt (key i) + share r.issue i) % 2 ^ 64 :=
    valueAt_addStats s.prog.ioSizeStats r.issue
  constructor
  · intro i
    have hmap : (s.issue r).prog.pidIoStats.weigh (fun _ => field i) ≡
        s.prog.pidIoStats.weigh (fun _ => field i) + share r.issue (i.castLE (by decide)) [MOD 2 ^ 64] :=
      weigh_countEvent (field_addPidIo r.issue i) (field_firstPidIo r.issue i) hroom
    calc (s.issue r).prog.pidIoStats.weigh (fun _ => field i) + (s.taken.map (field i)).sum
        ≡ s.prog.pidIoStats.weigh (fun _ => field i) + share r.issue (i.castLE (by decide)) +
            (s.taken.map (field i)).sum [MOD 2 ^ 64] := hmap.add_right _
      _ = s.prog.pidIoStats.weigh (fun _ => field i) + (s.taken.map (field i)).sum +
            share r.issue (i.castLE (by decide)) := Nat.add_right_comm _ _ _
      _ ≡ s.prog.ioSizeStats.valueAt (key (i.castLE (by decide))) +
            share r.issue (i.castLE (by decide)) [MOD 2 ^ 64] := (hC.pids i).add_right _
      _ ≡ (s.issue r).prog.ioSizeStats.valueAt (key (i.castLE (by decide))) [MOD 2 ^ 64] := by
          rw [hstat]; exact (Nat.mod_modEq _ _).symm
  · have hb := hC.bytes
    have hsplit : share r.issue 4 = share r.issue 0 + share r.issue 1 := by
      cases hw : r.issue.isWrite <;> simp [share, hw]
    rw [hstat, hstat, hstat, hsplit]
    omega
  · have hc := hC.count
    have hsplit : share r.issue 5 = share r.issue 2 + share r.issue 3 := by
      cases hw : r.issue.isWrite <;> simp [share, hw]
    rw [hstat, hstat, hstat, hsplit]
    omega

/-- A poll moves figures from the PIDs to `taken`. -/
theorem conserved_poll {s : State} (hC : Conserved s) : Conserved s.poll := by
  refine ⟨fun i => ?_, hC.bytes, hC.count⟩
  have hmap : s.poll.prog.pidIoStats =
      (pollAlone diskIoSize.all diskIoSize_deletes s.prog.pidIoStats).map := by
    unfold State.poll
    rw [pollAlone_all]; rfl
  have hsum := sum_poll (d := diskIoSize.all) diskIoSize_deletes (f := field i)
    (fun _ h => by cases h) s.prog.pidIoStats
  have htaken : (s.poll.taken.map (field i)).sum =
      ((pollAlone diskIoSize.all diskIoSize_deletes s.prog.pidIoStats).seen.map
        fun e => field i e.2).sum + (s.taken.map (field i)).sum := by
    unfold State.poll
    rw [List.map_append, List.sum_append, List.map_map]; rfl
  have hsame : s.poll.prog.pidIoStats.weigh (fun _ => field i) + (s.poll.taken.map (field i)).sum =
      s.prog.pidIoStats.weigh (fun _ => field i) + (s.taken.map (field i)).sum := by
    rw [hmap, htaken, ← hsum]
    omega
  rw [hsame]
  exact hC.pids i

/-- **One step**, a request or a poll. -/
theorem conserved_step (s : State) (l : Label) (s' : State) (hC : Conserved s) (hF : Fits s l)
    (h : step s l = some s') : Conserved s' := by
  cases l with
  | issue r => cases h; exact conserved_issue hC hF
  | poll => cases h; exact conserved_poll hC

theorem conserved_start (b : UInt32 → Nat) : Conserved (start b) := by
  have h0 : ∀ i, (start b).prog.ioSizeStats.valueAt (key i) = 0 := by
    show ∀ i, ArrayMap.valueAt (Vector.replicate 8 0) (key i) = 0
    decide
  refine ⟨fun i => ?_, ?_, ?_⟩
  · rw [h0]; exact Nat.ModEq.refl 0
  · rw [h0, h0, h0, Nat.zero_mod]
  · rw [h0, h0, h0, Nat.zero_mod]

/-- **Every request once.** In every state of a run in which no insert fails, the
figures of the PIDs and those the polls took add up to `io_size_stats`. -/
theorem sizes_conserved (b : UInt32 → Nat) (ls : List Label) (t : State)
    (hx : exec step (start b) ls = some t) (hF : Along step Fits (start b) ls) : Conserved t :=
  (hF.always conserved_step (conserved_start b)).last hx

/-- Two PIDs, a poll, and one of them again. -/
def twoPids : List Label :=
  [.issue ⟨.read, false, [], 8, 5⟩, .issue ⟨.write, false, ['S'.toUInt8], 16, 6⟩, .poll,
    .issue ⟨.write, false, [], 8, 5⟩]

theorem sizes_twoPids :
    ∃ t, exec step (start fun _ => 0) twoPids = some t ∧ Conserved t ∧
      t.taken = [⟨0, 8192, 0, 1⟩, ⟨4096, 0, 1, 0⟩] ∧
      t.prog.pidIoStats.lookupElem 5 = some ⟨0, 4096, 0, 1⟩ := by
  have hx : (exec step (start fun _ => 0) twoPids).map
      (fun t => (t.taken, t.prog.pidIoStats.lookupElem 5)) =
      some ([⟨0, 8192, 0, 1⟩, ⟨4096, 0, 1, 0⟩], some ⟨0, 4096, 0, 1⟩) := by decide +kernel
  obtain ⟨t, ht, hv⟩ := Option.map_eq_some_iff.mp hx
  obtain ⟨htaken, hheld⟩ := Prod.mk.inj hv
  exact ⟨t, ht, sizes_conserved _ twoPids t ht (by decide +kernel), htaken, hheld⟩

end SizeViews
end EbpfDemo.L5Concurrency
