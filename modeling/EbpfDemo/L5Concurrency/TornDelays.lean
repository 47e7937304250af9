import EbpfDemo.L2Kernel.CpuRunDelay
import EbpfDemo.L3Loader.Reports

/-!
# cpu_run_delay: delays and numbers that are read one after the other

`handle_sched_switch` adds to `run_delay`, then to `wakeup_count`, then forgets
the wakeup; a poll reads `run_delay`, then `wakeup_count`. The machine puts these
map calls into any order, for any number of CPUs and PIDs. Every wakeup whose
delay was added has a number of its own.

A poll is about definite wakeups (`Assigned`) when one can name the wakeups of
each poll: their delays add up to its difference of the delays, their number is
its difference of the numbers, none is in two polls, and those whose handler had
returned before a poll are in it or an earlier one.

* `switch_alone`: the three calls in a row are `handle_sched_switch`;
* `runqPolls_definite`: in a run in which no lookup comes between the two halves
  of a wakeup, every PID is below 65536 and reached by the walk, no update fails
  and no sum wraps, every poll is about definite wakeups;
* `runqPolls_torn`: a poll between the two additions of one wakeup.
-/
namespace EbpfDemo.L5Concurrency

open EbpfDemo.Core EbpfDemo.L1Encoding
open L2Kernel L3Loader

/-- A wakeup whose delay was added. -/
structure Wakeup where
  id : Nat
  pid : UInt32
  delay : UInt64
  deriving DecidableEq

namespace RunqPolls

/-! ## The handler, call by call -/

/-- mirrors src/my_tools/cpu/cpu_run_delay.bpf.c:70-77 -/
def addDelay (s : CpuRunDelay) (nextPid : UInt32) (delay : UInt64) : CpuRunDelay :=
  { s with runDelay := countEvent (· + delay) delay .any s.runDelay nextPid }

/-- mirrors src/my_tools/cpu/cpu_run_delay.bpf.c:79-86 -/
def addCount (s : CpuRunDelay) (nextPid : UInt32) : CpuRunDelay :=
  { s with wakeupCount := countEvent (· + 1) 1 .any s.wakeupCount nextPid }

/-- mirrors src/my_tools/cpu/cpu_run_delay.bpf.c:88-90 -/
def forget (s : CpuRunDelay) (nextPid : UInt32) : CpuRunDelay :=
  { s with wakeupTs := s.wakeupTs.deleteElem nextPid }

theorem handle_split (s : CpuRunDelay) (nextPid : UInt32) (now : UInt64) :
    s.handleSchedSwitch nextPid now = match s.wakeupTs.lookupElem nextPid with
      | none => s
      | some wakeup => forget (addCount (addDelay s nextPid (now - wakeup)) nextPid) nextPid := rfl

/-! ## The machine -/

/-- What a poll makes of one PID. -/
structure Visit where
  pid : UInt32
  deltaDelay : UInt64
  deltaCount : UInt64

/-- A poll: the wakeups whose handler had returned when it started, and what it
made of the PIDs it came to. -/
structure Poll where
  before : List Wakeup
  visits : List Visit

/-- Where the loader stands: before the next map call. With what was read at the
first lookup goes what had been added by then. -/
inductive Phase where
  | asleep
  | next (pid : UInt32)
  | delay (pid : UInt32)
  | count (pid : UInt32) (totalNs : Option UInt64) (seen : List Wakeup)

/-- `begun`, `counted` and `finished` are the wakeups that are behind the first
addition, the second one and the whole handler; `polls` are the polls that are
over, the latest first, `poll` is the one under way. -/
structure State where
  prog : CpuRunDelay
  begun : List Wakeup
  counted : List Wakeup
  finished : List Wakeup
  prev : RunqPrev
  phase : Phase
  poll : Poll
  polls : List Poll
  rows : List Row

def start (p : CpuRunDelay) : State :=
  ⟨p, [], [], [], ⟨fun _ => 0, fun _ => 0⟩, .asleep, ⟨[], []⟩, [], []⟩

/-- The differences of an entry.
mirrors src/my_tools/cpu/cpu_run_delay.c:66-70 -/
def visit (prev : RunqPrev) (pid : UInt32) (totalNs totalCount : Option UInt64) : List Visit :=
  match totalNs with
  | none => []
  | some totalNs =>
    if pid < MAX_PIDS then
      [⟨pid, delta totalNs (prev.delay pid), delta (totalCount.getD 0) (prev.count pid)⟩]
    else []

/-- `get_next_key`, and the end of the poll when there is none. -/
def State.fetch (s : State) (poll : Poll) (cursor : UInt32) : State :=
  match s.prog.runDelay.getNextKey (some cursor) with
  | none => { s with phase := .asleep, poll := ⟨[], []⟩, polls := poll :: s.polls }
  | some pid => { s with phase := .delay pid, poll := poll }

/-- The next map call of the loader.
mirrors src/my_tools/cpu/cpu_run_delay.c:45-82 -/
def State.pollStep (s : State) : State :=
  match s.phase with
  | .asleep => s.fetch ⟨s.finished, []⟩ 0
  | .next pid => s.fetch s.poll pid
  | .delay pid => { s with phase := .count pid (s.prog.runDelay.lookupElem pid) s.begun }
  | .count pid totalNs _ =>
    let totalCount := s.prog.wakeupCount.lookupElem pid
    { s with
      phase := .next pid
      prev := (runqEntry s.prev pid totalNs totalCount).1
      rows := s.rows ++ (runqEntry s.prev pid totalNs totalCount).2
      poll := { s.poll with visits := s.poll.visits ++ visit s.prev pid totalNs totalCount } }

inductive Label where
  | wakeup (pid : UInt32) (ts : UInt64)
  | addDelay (nextPid : UInt32) (now : UInt64)
  | addCount (w : Wakeup)
  | forget (w : Wakeup)
  | poll

def step (s : State) : Label → Option State
  | .wakeup pid ts => some { s with prog := s.prog.handleSchedWakeup pid ts }
  | .addDelay nextPid now =>
    match s.prog.wakeupTs.lookupElem nextPid with
    | none => some s
    | some wakeup => some { s with
        prog := addDelay s.prog nextPid (now - wakeup)
        begun := ⟨s.begun.length, nextPid, now - wakeup⟩ :: s.begun }
  | .addCount w =>
    if w ∈ s.begun ∧ w ∉ s.counted then
      some { s with prog := addCount s.prog w.pid, counted := w :: s.counted }
    else none
  | .forget w =>
    if w ∈ s.counted ∧ w ∉ s.finished then
      some { s with prog := forget s.prog w.pid, finished := w :: s.finished }
    else none
  | .poll => some s.pollStep

/-- The three calls in a row are the handler. -/
theorem switch_alone (s : State) {nextPid : UInt32} {wakeup : UInt64} (now : UInt64)
    (h : s.prog.wakeupTs.lookupElem nextPid = some wakeup)
    (hf : ∀ w ∈ s.counted ++ s.finished, w.id < s.begun.length) :
    (exec step s [.addDelay nextPid now, .addCount ⟨s.begun.length, nextPid, now - wakeup⟩,
      .forget ⟨s.begun.length, nextPid, now - wakeup⟩]).map State.prog =
      some (s.prog.handleSchedSwitch nextPid now) := by
  have hnew : ∀ l ⊆ s.counted ++ s.finished, ⟨s.begun.length, nextPid, now - wakeup⟩ ∉ l :=
    fun l hl hm => Nat.lt_irrefl _ (hf _ (hl hm))
  have hc := hnew s.counted (List.subset_append_left _ _)
  have hr := hnew s.finished (List.subset_append_right _ _)
  rw [handle_split, h]
  simp [exec, step, h, hc, hr]

/-! ## Definite wakeups -/

def of (p : UInt32) (l : List Wakeup) : List Wakeup := l.filter fun w => w.pid = p

def sumDelays (l : List Wakeup) : Nat := (l.map fun w => w.delay.toNat).sum

/-- What a poll makes of `p`. -/
def Poll.delay (r : Poll) (p : UInt32) : Nat :=
  ((r.visits.filter fun v => v.pid = p).map fun v => v.deltaDelay.toNat).sum

def Poll.count (r : Poll) (p : UInt32) : Nat :=
  ((r.visits.filter fun v => v.pid = p).map fun v => v.deltaCount.toNat).sum

/-- `used` are the wakeups of `p` the polls are about, those of the latest first. -/
def Assigned (p : UInt32) : List Poll → List Wakeup → Prop
  | [], used => used = []
  | r :: older, used => ∃ group rest, used = group ++ rest ∧ Assigned p older rest ∧
      r.delay p = sumDelays group ∧ r.count p = group.length ∧
      ∀ w ∈ r.before, w.pid = p → w ∈ used

/-- Every poll is over a definite set of wakeups. -/
def Definite (s : State) : Prop :=
  ∀ p, ∃ used, used.Nodup ∧ (∀ w ∈ used, w ∈ s.begun ∧ w.pid = p) ∧ Assigned p s.polls used

/-- The walk from key 0 comes to `p`. -/
def Reached (m : HashMap UInt32 UInt64) (p : UInt32) : Prop :=
  0 ∉ m.keys ∨ ∃ B, m.Behind 0 B ∧ p ∈ B

/-- The additions find room and do not wrap; when a poll starts, every PID with a
wakeup that is through is below 65536 and reached by the walk; what a poll reads
of a PID are both halves of the same wakeups. -/
def Whole (s : State) : Label → Prop
  | .addDelay nextPid now => ∀ wakeup, s.prog.wakeupTs.lookupElem nextPid = some wakeup →
      HasRoom s.prog.runDelay nextPid ∧
        valueOf s.prog.runDelay nextPid + (now - wakeup).toNat < 2 ^ 64
  | .addCount w => HasRoom s.prog.wakeupCount w.pid ∧ valueOf s.prog.wakeupCount w.pid + 1 < 2 ^ 64
  | .poll => match s.phase with
    | .asleep => ∀ w ∈ s.finished, w.pid < MAX_PIDS ∧ Reached s.prog.runDelay w.pid
    | .count pid _ seen => pid < MAX_PIDS → ∀ w, w.pid = pid → (w ∈ seen ↔ w ∈ s.counted)
    | _ => True
  | _ => True

/-! The condition can be evaluated. -/

theorem reached_iff {m : HashMap UInt32 UInt64} {p : UInt32} :
    Reached m p ↔ 0 ∉ m.keys ∨ p ∈ (m.keys.dropWhile (· ≠ 0)).drop 1 := by
  refine or_congr_right' fun h0 => ?_
  obtain ⟨B, A, hB⟩ := HashMap.behind_of_mem (not_not.mp h0)
  have hA : ∀ k ∈ A, decide (k ≠ 0) = true := by
    intro k hk
    apply decide_eq_true
    rintro rfl
    have hn : m.keys.Nodup := m.nodup
    rw [hB] at hn
    exact (List.nodup_append.mp hn).2.2 0 hk 0 List.mem_cons_self rfl
  have hdrop : (m.keys.dropWhile (· ≠ 0)).drop 1 = B := by
    rw [hB, List.dropWhile_append_of_pos hA]
    rfl
  rw [hdrop]
  refine ⟨fun ⟨B', hB', hp⟩ => ?_, fun hp => ⟨B, ⟨A, hB⟩, hp⟩⟩
  rwa [hB'.unique ⟨A, hB⟩] at hp

instance (m : HashMap UInt32 UInt64) (p : UInt32) : Decidable (Reached m p) :=
  decidable_of_iff _ reached_iff.symm

theorem same_iff {p : UInt32} {l m : List Wakeup} :
    (∀ w ∈ l ++ m, w.pid = p → (w ∈ l ↔ w ∈ m)) ↔ ∀ w, w.pid = p → (w ∈ l ↔ w ∈ m) := by
  refine ⟨fun h w hp => ?_, fun h w _ => h w⟩
  by_cases hw : w ∈ l ++ m
  · exact h w hw hp
  · obtain ⟨hl, hm⟩ := not_or.mp (List.mem_append.not.mp hw)
    exact iff_of_false hl hm

instance (s : State) (l : Label) : Decidable (Whole s l) :=
  match l with
  | .wakeup .. => isTrue trivial
  | .forget .. => isTrue trivial
  | .addCount w => inferInstanceAs (Decidable (HasRoom _ _ ∧ _))
  | .addDelay pid now =>
    match h : s.prog.wakeupTs.lookupElem pid with
    | none => isTrue fun w hw => by rw [h] at hw; cases hw
    | some w =>
      decidable_of_iff (HasRoom s.prog.runDelay pid ∧
        valueOf s.prog.runDelay pid + (now - w).toNat < 2 ^ 64)
        ⟨fun hw w' hw' => by rw [h] at hw'; cases hw'; exact hw, fun hw => hw w h⟩
  | .poll =>
    match h : s.phase with
    | .asleep => decidable_of_iff (∀ w ∈ s.finished, w.pid < MAX_PIDS ∧
        Reached s.prog.runDelay w.pid) (by rw [Whole, h])
    | .count pid _ seen => decidable_of_iff (pid < MAX_PIDS → ∀ w ∈ seen ++ s.counted,
        w.pid = pid → (w ∈ seen ↔ w ∈ s.counted)) (by rw [Whole, h, same_iff])
    | .next _ => isTrue (by rw [Whole, h]; trivial)
    | .delay _ => isTrue (by rw [Whole, h]; trivial)

/-! ## What the handlers keep -/

/-- The maps hold the wakeups that are behind the two additions. -/
structure Ledgers (s : State) : Prop where
  delays : ∀ p, valueOf s.prog.runDelay p = sumDelays (of p s.begun)
  present : ∀ w ∈ s.begun, w.pid ∈ s.prog.runDelay.keys
  counts : ∀ p, valueOf s.prog.wakeupCount p = (of p s.counted).length
  fresh : ∀ w ∈ s.begun, w.id < s.begun.length
  nodup : s.begun.Nodup
  countedNodup : s.counted.Nodup
  counted : ∀ w ∈ s.counted, w ∈ s.begun
  finished : ∀ w ∈ s.finished, w ∈ s.counted

theorem mem_of {p : UInt32} {l : List Wakeup} {w : Wakeup} : w ∈ of p l ↔ w ∈ l ∧ w.pid = p := by
  simp [of]

theorem of_cons (p : UInt32) (w : Wakeup) (l : List Wakeup) :
    of p (w :: l) = if w.pid = p then w :: of p l else of p l := by simp [of, List.filter_cons]

@[simp] theorem sumDelays_cons (w : Wakeup) (l : List Wakeup) :
    sumDelays (w :: l) = w.delay.toNat + sumDelays l := by simp [sumDelays]

@[simp] theorem sumDelays_append (l m : List Wakeup) :
    sumDelays (l ++ m) = sumDelays l + sumDelays m := by simp [sumDelays]

section
variable {s : State}

theorem ledgers_addDelay (hL : Ledgers s) {pid : UInt32} {d : UInt64}
    (hr : HasRoom s.prog.runDelay pid) (hlt : valueOf s.prog.runDelay pid + d.toNat < 2 ^ 64) :
    Ledgers { s with
      prog := addDelay s.prog pid d
      begun := ⟨s.begun.length, pid, d⟩ :: s.begun } where
  delays p := by
    show valueOf (countEvent _ _ _ _ _) p = sumDelays (of p (_ :: s.begun))
    rw [valueOf_countEvent hr, of_cons]
    by_cases hp : p = pid
    · rw [if_pos hp, if_pos hp.symm, Nat.mod_eq_of_lt hlt, hL.delays, hp, sumDelays_cons,
        Nat.add_comm]
    · rw [if_neg hp, if_neg (Ne.symm hp), hL.delays]
  present w hw := by
    show w.pid ∈ (countEvent _ _ _ _ _).keys
    rcases List.mem_cons.mp hw with rfl | hw
    · exact mem_keys_countEvent (by decide) hr
    · exact mem_keys_countEvent_of_mem (by decide) (hL.present w hw)
  counts := hL.counts
  fresh w hw := by
    rcases List.mem_cons.mp hw with rfl | hw
    · exact Nat.lt_succ_self _
    · exact Nat.lt_succ_of_lt (hL.fresh w hw)
  nodup := List.nodup_cons.mpr ⟨fun h => Nat.lt_irrefl _ (hL.fresh _ h), hL.nodup⟩
  countedNodup := hL.countedNodup
  counted w hw := List.mem_cons_of_mem _ (hL.counted w hw)
  finished := hL.finished

theorem ledgers_addCount (hL : Ledgers s) {w : Wakeup} (hb : w ∈ s.begun) (hc : w ∉ s.counted)
    (hr : HasRoom s.prog.wakeupCount w.pid) (hlt : valueOf s.prog.wakeupCount w.pid + 1 < 2 ^ 64) :
    Ledgers { s with prog := addCount s.prog w.pid, counted := w :: s.counted } where
  delays := hL.delays
  present := hL.present
  counts p := by
    show valueOf (countEvent _ _ _ _ _) p = (of p (w :: s.counted)).length
    rw [valueOf_countEvent hr, of_cons]
    by_cases hp : p = w.pid
    · rw [if_pos hp, if_pos hp.symm, hL.counts, List.length_cons, hp]
      rw [hL.counts] at hlt
      exact Nat.mod_eq_of_lt hlt
    · rw [if_neg hp, if_neg (Ne.symm hp), hL.counts]
  fresh := hL.fresh
  nodup := hL.nodup
  countedNodup := List.nodup_cons.mpr ⟨hc, hL.countedNodup⟩
  counted v hv := by
    rcases List.mem_cons.mp hv with rfl | hv
    · exact hb
    · exact hL.counted v hv
  finished v hv := List.mem_cons_of_mem _ (hL.finished v hv)

theorem ledgers_forget (hL : Ledgers s) {w : Wakeup} (hc : w ∈ s.counted) :
    Ledgers { s with prog := forget s.prog w.pid, finished := w :: s.finished } where
  delays := hL.delays
  present := hL.present
  counts := hL.counts
  fresh := hL.fresh
  nodup := hL.nodup
  countedNodup := hL.countedNodup
  counted := hL.counted
  finished v hv := by
    rcases List.mem_cons.mp hv with rfl | hv
    · exact hc
    · exact hL.finished v hv

/-- What the loader does is not in the ledgers. -/
theorem Ledgers.congr {s' : State} (hL : Ledgers s) (hd : s'.prog.runDelay = s.prog.runDelay)
    (hn : s'.prog.wakeupCount = s.prog.wakeupCount) (hb : s'.begun = s.begun)
    (hc : s'.counted = s.counted) (hf : s'.finished = s.finished) : Ledgers s' where
  delays p := by rw [hd, hb]; exact hL.delays p
  present := by rw [hd, hb]; exact hL.present
  counts p := by rw [hn, hc]; exact hL.counts p
  fresh := by rw [hb]; exact hL.fresh
  nodup := by rw [hb]; exact hL.nodup
  countedNodup := by rw [hc]; exact hL.countedNodup
  counted := by rw [hb, hc]; exact hL.counted
  finished := by rw [hc, hf]; exact hL.finished

theorem ledgers_start (b bd bc : UInt32 → Nat) : Ledgers (start (.init b bd bc)) where
  delays _ := rfl
  present := List.forall_mem_nil _
  counts _ := rfl
  fresh := List.forall_mem_nil _
  nodup := List.nodup_nil
  countedNodup := List.nodup_nil
  counted := List.forall_mem_nil _
  finished := List.forall_mem_nil _

end

/-! ## What the polls have taken -/

def Phase.at : Phase → Option UInt32
  | .asleep => none
  | .next pid | .delay pid | .count pid _ _ => some pid

/-- The PIDs a poll has still to look at, when it stands in front of `B`. -/
def Phase.todo (B : List UInt32) : Phase → List UInt32
  | .asleep => []
  | .next _ => B
  | .delay pid | .count pid _ _ => pid :: B

/-- `base p` are the wakeups of `p` in the polls that are over, `taken p` those up
to the latest visit. -/
structure Taken (s : State) (base taken : UInt32 → List Wakeup) : Prop where
  prevDelay : ∀ p, (s.prev.delay p).toNat = sumDelays (taken p)
  prevCount : ∀ p, (s.prev.count p).toNat = (taken p).length
  old : ∀ p, ∃ new, of p s.counted = new ++ taken p
  polls : ∀ p, Assigned p s.polls (base p)
  cur : ∀ p, ∃ cur, taken p = cur ++ base p ∧ s.poll.delay p = sumDelays cur ∧
    s.poll.count p = cur.length

/-- `ahead`: what the poll has to take it has taken, or it has the PID still in
front of it. -/
structure Snapshots (s : State) (base taken : UInt32 → List Wakeup) : Prop
    extends Taken s base taken where
  idle : s.phase = .asleep → s.poll = ⟨[], []⟩
  ahead : ∀ k, s.phase.at = some k → ∃ B, s.prog.runDelay.Behind k B ∧
    ∀ w ∈ s.poll.before, w ∈ s.finished ∧ w.pid < MAX_PIDS ∧
      (w ∈ taken w.pid ∨ w.pid ∈ s.phase.todo B)
  read : ∀ k totalNs seen, s.phase = .count k totalNs seen → ∃ t, totalNs = some t ∧
    t.toNat = sumDelays (of k seen) ∧ seen.Nodup

/-- What a call of a handler leaves alone. -/
structure Grows (s s' : State) : Prop where
  prev : s'.prev = s.prev
  phase : s'.phase = s.phase
  poll : s'.poll = s.poll
  polls : s'.polls = s.polls
  counted : ∃ new, s'.counted = new ++ s.counted
  finished : ∀ w ∈ s.finished, w ∈ s'.finished
  behind : ∀ k B, s.prog.runDelay.Behind k B → ∃ B', s'.prog.runDelay.Behind k B' ∧ ∀ x ∈ B, x ∈ B'

theorem mem_todo {B B' : List UInt32} (h : ∀ x ∈ B, x ∈ B') {ph : Phase} {p : UInt32}
    (hp : p ∈ ph.todo B) : p ∈ ph.todo B' := by
  cases ph with
  | asleep => exact hp
  | next k => exact h p hp
  | delay k => exact List.mem_cons.mpr ((List.mem_cons.mp hp).imp_right (h p))
  | count k t l => exact List.mem_cons.mpr ((List.mem_cons.mp hp).imp_right (h p))

theorem Snapshots.grow {s s' : State} {base taken : UInt32 → List Wakeup}
    (h : Snapshots s base taken) (hg : Grows s s') : Snapshots s' base taken where
  prevDelay := by rw [hg.prev]; exact h.prevDelay
  prevCount := by rw [hg.prev]; exact h.prevCount
  old p := by
    obtain ⟨new, hnew⟩ := hg.counted
    obtain ⟨l, hl⟩ := h.old p
    refine ⟨of p new ++ l, ?_⟩
    have happ : of p (new ++ s.counted) = of p new ++ of p s.counted := List.filter_append ..
    rw [hnew, happ, hl, List.append_assoc]
  polls := by rw [hg.polls]; exact h.polls
  cur := by rw [hg.poll]; exact h.cur
  idle := by rw [hg.phase, hg.poll]; exact h.idle
  ahead k hk := by
    rw [hg.phase] at hk ⊢
    rw [hg.poll]
    obtain ⟨B, hB, hw⟩ := h.ahead k hk
    obtain ⟨B', hB', hsub⟩ := hg.behind k B hB
    refine ⟨B', hB', fun w hmem => ?_⟩
    obtain ⟨hfin, hlt, htodo⟩ := hw w hmem
    exact ⟨hg.finished w hfin, hlt, htodo.imp_right (mem_todo hsub)⟩
  read := by rw [hg.phase]; exact h.read

theorem grows_addDelay (s : State) (pid : UInt32) (d : UInt64) (l : List Wakeup) :
    Grows s { s with prog := addDelay s.prog pid d, begun := l } where
  prev := rfl
  phase := rfl
  poll := rfl
  polls := rfl
  counted := ⟨[], rfl⟩
  finished _ h := h
  behind k B hB := by
    obtain ⟨B', hB', hsub, -⟩ : ∃ B', (addDelay s.prog pid d).runDelay.Behind k B' ∧ _ :=
      behind_countEvent (by decide) hB
    exact ⟨B', hB', hsub⟩

/-- A call that leaves `run_delay` alone. -/
theorem grows_of_eq {s s' : State} (hd : s'.prog.runDelay = s.prog.runDelay)
    (hp : s'.prev = s.prev) (hph : s'.phase = s.phase) (hpo : s'.poll = s.poll)
    (hps : s'.polls = s.polls) (hc : ∃ new, s'.counted = new ++ s.counted)
    (hf : ∀ w ∈ s.finished, w ∈ s'.finished) : Grows s s' :=
  ⟨hp, hph, hpo, hps, hc, hf, fun _ B hB => ⟨B, hd ▸ hB, fun _ hx => hx⟩⟩

/-! ## A poll -/

theorem toNat_delta (cur prev : UInt64) : (delta cur prev).toNat = cur.toNat - prev.toNat := by
  unfold delta
  split
  · rename_i h
    exact UInt64.toNat_sub_of_le _ _ (UInt64.le_of_lt h)
  · rename_i h
    have hle := UInt64.le_iff_toNat_le.mp (UInt64.not_lt.mp h)
    rw [Nat.sub_eq_zero_of_le hle]; rfl

/-- The keys a walk from key 0 will come to. -/
theorem start_walk (m : HashMap UInt32 UInt64) : ∃ L, m.getNextKey (some 0) = L.head? ∧
    (∀ k B, L = k :: B → m.Behind k B) ∧ ∀ p ∈ m.keys, Reached m p → p ∈ L := by
  by_cases h : 0 ∈ m.keys
  · obtain ⟨B, hB⟩ := HashMap.behind_of_mem h
    refine ⟨B, hB.next, fun k B' hk => (hk ▸ hB).advance, fun p _ hr => ?_⟩
    rcases hr with hr | ⟨B', hB', hp⟩
    · exact absurd h hr
    · exact hB'.unique hB ▸ hp
  · refine ⟨m.keys, HashMap.getNextKey_absent h, fun k B hk => HashMap.behind_first hk, ?_⟩
    exact fun p hp _ => hp

section
variable {s : State} {base taken : UInt32 → List Wakeup}

/-- The end of a poll: what was taken up to now belongs to the polls that are over. -/
theorem snapshots_end (h : Taken s base taken) (hdone : ∀ w ∈ s.poll.before, w ∈ taken w.pid) :
    Snapshots { s with phase := .asleep, poll := ⟨[], []⟩, polls := s.poll :: s.polls }
      taken taken where
  prevDelay := h.prevDelay
  prevCount := h.prevCount
  old := h.old
  polls p := by
    obtain ⟨cur, hcur, hd, hc⟩ := h.cur p
    exact ⟨cur, base p, hcur, h.polls p, hd, hc, fun w hw hp => hp ▸ hdone w hw⟩
  cur _ := ⟨[], rfl, rfl, rfl⟩
  idle _ := rfl
  ahead k hk := by cases hk
  read k t l hk := by cases hk

/-- The walk goes on to a key. -/
theorem snapshots_next (h : Taken s base taken) {k : UInt32} {B : List UInt32}
    (hB : s.prog.runDelay.Behind k B)
    (hw : ∀ w ∈ s.poll.before, w ∈ s.finished ∧ w.pid < MAX_PIDS ∧
      (w ∈ taken w.pid ∨ w.pid ∈ k :: B)) :
    Snapshots { s with phase := .delay k } base taken where
  prevDelay := h.prevDelay
  prevCount := h.prevCount
  old := h.old
  polls := h.polls
  cur := h.cur
  idle hk := by cases hk
  ahead k' hk := by cases hk; exact ⟨B, hB, hw⟩
  read k t l hk := by cases hk

/-- `get_next_key`, with the keys `L` in front of the walk. -/
theorem snapshots_fetch (h : Taken s base taken) {c : UInt32} {L : List UInt32}
    (hnext : s.prog.runDelay.getNextKey (some c) = L.head?)
    (hadv : ∀ k B, L = k :: B → s.prog.runDelay.Behind k B)
    (hw : ∀ w ∈ s.poll.before, w ∈ s.finished ∧ w.pid < MAX_PIDS ∧
      (w ∈ taken w.pid ∨ w.pid ∈ L)) :
    ∃ base', Snapshots (s.fetch s.poll c) base' taken := by
  unfold State.fetch
  rw [hnext]
  cases L with
  | nil =>
    refine ⟨taken, snapshots_end h fun w hmem => ?_⟩
    exact (hw w hmem).2.2.resolve_right List.not_mem_nil
  | cons k B => exact ⟨base, snapshots_next h (hadv k B rfl) hw⟩

/-- The first `get_next_key` of a poll. -/
theorem snapshots_wake (hL : Ledgers s) (h : Snapshots s base taken) (hph : s.phase = .asleep)
    (hC : ∀ w ∈ s.finished, w.pid < MAX_PIDS ∧ Reached s.prog.runDelay w.pid) :
    ∃ base', Snapshots (s.fetch ⟨s.finished, []⟩ 0) base' taken := by
  obtain ⟨L, hnext, hadv, hmem⟩ := start_walk s.prog.runDelay
  -- the poll that starts has visited nothing yet
  have hT : Taken { s with poll := ⟨s.finished, []⟩ } base taken := by
    refine ⟨h.prevDelay, h.prevCount, h.old, h.polls, fun p => ?_⟩
    obtain ⟨cur, hcur, hd, hc⟩ := h.cur p
    rw [h.idle hph] at hd hc
    exact ⟨cur, hcur, hd, hc⟩
  refine snapshots_fetch hT hnext hadv fun w hw => ?_
  obtain ⟨hlt, hr⟩ := hC w hw
  exact ⟨hw, hlt, .inr (hmem _ (hL.present w (hL.counted w (hL.finished w hw))) hr)⟩

/-- The lookup in `run_delay`. -/
theorem snapshots_look (hL : Ledgers s) (h : Snapshots s base taken) {k : UInt32}
    (hph : s.phase = .delay k) :
    Snapshots { s with phase := .count k (s.prog.runDelay.lookupElem k) s.begun } base taken := by
  obtain ⟨B, hB, hw⟩ := h.ahead k (by rw [hph]; rfl)
  rw [hph] at hw
  obtain ⟨t, ht⟩ := HashMap.exists_lookup hB.mem
  refine ⟨⟨h.prevDelay, h.prevCount, h.old, h.polls, h.cur⟩, fun hk => (by cases hk),
    fun k' hk => ?_, fun k' t' l hk => ?_⟩
  · cases hk; exact ⟨B, hB, hw⟩
  · cases hk
    refine ⟨t, ht, ?_, hL.nodup⟩
    rw [← hL.delays k, valueOf, ht]; rfl

/-- The two halves of a PID that was read whole. -/
theorem perm_of_whole (hL : Ledgers s) {k : UInt32} {seen : List Wakeup} (hn : seen.Nodup)
    (hC : ∀ w, w.pid = k → (w ∈ seen ↔ w ∈ s.counted)) : (of k seen).Perm (of k s.counted) := by
  refine (List.perm_ext_iff_of_nodup (hn.filter _) (hL.countedNodup.filter _)).mpr fun w => ?_
  rw [← of, ← of, mem_of, mem_of]
  exact and_congr_left (hC w)

theorem visits_other {r : Poll} {k p : UInt32} {a b : UInt64} (hp : p ≠ k) :
    Poll.delay { r with visits := r.visits ++ [⟨k, a, b⟩] } p = r.delay p ∧
      Poll.count { r with visits := r.visits ++ [⟨k, a, b⟩] } p = r.count p := by
  simp [Poll.delay, Poll.count, List.filter_append, Ne.symm hp]

theorem visits_own {r : Poll} {k : UInt32} {a b : UInt64} :
    Poll.delay { r with visits := r.visits ++ [⟨k, a, b⟩] } k = r.delay k + a.toNat ∧
      Poll.count { r with visits := r.visits ++ [⟨k, a, b⟩] } k = r.count k + b.toNat := by
  simp [Poll.delay, Poll.count, List.filter_append]

/-- The state after the visit of `k` that read `t` and `n`. -/
def State.visited (s : State) (k : UInt32) (t n : UInt64) (rows : List Row) : State :=
  { s with
    phase := .next k
    prev := ⟨Function.update s.prev.delay k t, Function.update s.prev.count k n⟩
    rows := rows
    poll := { s.poll with
      visits := s.poll.visits ++ [⟨k, delta t (s.prev.delay k), delta n (s.prev.count k)⟩] } }

/-- What a poll makes of a PID it reads whole: the wakeups since the last visit. -/
theorem taken_visited (h : Taken s base taken) {k : UInt32} {t n : UInt64}
    (ht : t.toNat = sumDelays (of k s.counted)) (hc : n.toNat = (of k s.counted).length)
    (rows : List Row) :
    Taken (s.visited k t n rows) base (Function.update taken k (of k s.counted)) := by
  obtain ⟨new, hnew⟩ := h.old k
  refine ⟨fun p => ?_, fun p => ?_, fun p => ?_, h.polls, fun p => ?_⟩
  · show (Function.update s.prev.delay k t p).toNat = _
    by_cases hp : p = k
    · rw [hp, Function.update_self, Function.update_self, ht]
    · rw [Function.update_of_ne hp, Function.update_of_ne hp, h.prevDelay]
  · show (Function.update s.prev.count k n p).toNat = _
    by_cases hp : p = k
    · rw [hp, Function.update_self, Function.update_self, hc]
    · rw [Function.update_of_ne hp, Function.update_of_ne hp, h.prevCount]
  · by_cases hp : p = k
    · exact ⟨[], by rw [hp, Function.update_self]; rfl⟩
    · rw [Function.update_of_ne hp]; exact h.old p
  · obtain ⟨cur, hcur, hd, hn⟩ := h.cur p
    by_cases hp : p = k
    · subst hp
      obtain ⟨hvd, hvc⟩ := visits_own (r := s.poll) (k := p) (a := delta t (s.prev.delay p))
        (b := delta n (s.prev.count p))
      refine ⟨new ++ cur, ?_, hvd.trans ?_, hvc.trans ?_⟩
      · rw [Function.update_self, hnew, hcur, List.append_assoc]
      · rw [hd, toNat_delta, ht, h.prevDelay, hnew, sumDelays_append, sumDelays_append]
        omega
      · rw [hn, toNat_delta, hc, h.prevCount, hnew, List.length_append, List.length_append]
        omega
    · obtain ⟨hvd, hvc⟩ := visits_other (r := s.poll) (a := delta t (s.prev.delay k))
        (b := delta n (s.prev.count k)) hp
      exact ⟨cur, by rw [Function.update_of_ne hp]; exact hcur, hvd.trans hd, hvc.trans hn⟩

theorem snapshots_visited (hL : Ledgers s) (h : Snapshots s base taken) {k : UInt32}
    {t n : UInt64} (ht : t.toNat = sumDelays (of k s.counted))
    (hc : n.toNat = (of k s.counted).length) (rows : List Row)
    (ha : ∃ B, s.prog.runDelay.Behind k B ∧ ∀ w ∈ s.poll.before, w ∈ s.finished ∧
      w.pid < MAX_PIDS ∧ (w ∈ taken w.pid ∨ w.pid ∈ k :: B)) :
    Snapshots (s.visited k t n rows) base (Function.update taken k (of k s.counted)) := by
  refine ⟨taken_visited h.toTaken ht hc rows, fun hk => (by cases hk), fun k' hk => ?_,
    fun k' t' l hk => (by cases hk)⟩
  cases hk
  obtain ⟨B, hB, hw⟩ := ha
  refine ⟨B, hB, fun w hmem => ?_⟩
  obtain ⟨hfin, hlt, htodo⟩ := hw w hmem
  refine ⟨hfin, hlt, ?_⟩
  by_cases hp : w.pid = k
  · -- its handler is through, so both halves were there
    rw [hp, Function.update_self]
    exact .inl (mem_of.mpr ⟨hL.finished w hfin, hp⟩)
  · rw [Function.update_of_ne hp]
    exact htodo.imp_right fun hB => (List.mem_cons.mp hB).resolve_left hp

/-- The lookup in `wakeup_count`. -/
theorem snapshots_count (hL : Ledgers s) (h : Snapshots s base taken) {k : UInt32}
    {totalNs : Option UInt64} {seen : List Wakeup} (hph : s.phase = .count k totalNs seen)
    (hC : k < MAX_PIDS → ∀ w, w.pid = k → (w ∈ seen ↔ w ∈ s.counted)) :
    ∃ taken', Snapshots s.pollStep base taken' := by
  have ha := h.ahead k (by rw [hph]; rfl)
  rw [hph] at ha
  obtain ⟨t, rfl, ht, hn⟩ := h.read _ _ _ hph
  by_cases hk : k < MAX_PIDS
  · have hsum : t.toNat = sumDelays (of k s.counted) :=
      ht.trans ((perm_of_whole hL hn (hC hk)).map _).sum_eq
    refine ⟨Function.update taken k (of k s.counted), ?_⟩
    have hs := snapshots_visited hL h hsum (hL.counts k)
      (s.rows ++ (runqEntry s.prev k (some t) (s.prog.wakeupCount.lookupElem k)).2) ha
    simpa only [State.pollStep, State.visited, hph, runqEntry, visit, if_pos hk] using hs
  · refine ⟨taken, ?_⟩
    simp only [State.pollStep, hph, runqEntry, visit, if_neg hk, List.append_nil]
    refine ⟨⟨h.prevDelay, h.prevCount, h.old, h.polls, h.cur⟩, fun hk => (by cases hk),
      fun k' hk' => ?_, fun k' t' l hk' => (by cases hk')⟩
    cases hk'
    obtain ⟨B, hB, hw⟩ := ha
    refine ⟨B, hB, fun w hmem => ?_⟩
    obtain ⟨hfin, hlt, htodo⟩ := hw w hmem
    have hne : w.pid ≠ k := fun hp => hk (by rw [← hp]; exact hlt)
    exact ⟨hfin, hlt, htodo.imp_right fun hB => (List.mem_cons.mp hB).resolve_left hne⟩

/-- **A call of the loader** under the condition. -/
theorem snapshots_poll (hL : Ledgers s) (h : Snapshots s base taken) (hC : Whole s .poll) :
    ∃ base' taken', Snapshots s.pollStep base' taken' := by
  unfold Whole at hC
  cases hph : s.phase with
  | asleep =>
    rw [hph] at hC
    obtain ⟨base', hs⟩ := snapshots_wake hL h hph hC
    exact ⟨base', taken, by simpa only [State.pollStep, hph] using hs⟩
  | next k =>
    obtain ⟨B, hB, hw⟩ := h.ahead k (by rw [hph]; rfl)
    rw [hph] at hw
    obtain ⟨base', hs⟩ := snapshots_fetch h.toTaken hB.next
      (fun k' B' hk => (hk ▸ hB).advance) hw
    exact ⟨base', taken, by simpa only [State.pollStep, hph] using hs⟩
  | delay k =>
    exact ⟨base, taken, by simpa only [State.pollStep, hph] using snapshots_look hL h hph⟩
  | count k t seen =>
    rw [hph] at hC
    exact ⟨base, snapshots_count hL h hph hC⟩

end

/-! ## Whole runs -/

def Inv (s : State) : Prop := Ledgers s ∧ ∃ base taken, Snapshots s base taken

theorem ledgers_poll {s : State} (hL : Ledgers s) : Ledgers s.pollStep := by
  have hfetch : ∀ r c, Ledgers (s.fetch r c) := by
    intro r c
    unfold State.fetch
    split <;> exact hL.congr rfl rfl rfl rfl rfl
  unfold State.pollStep
  split
  · exact hfetch _ _
  · exact hfetch _ _
  · exact hL.congr rfl rfl rfl rfl rfl
  · exact hL.congr rfl rfl rfl rfl rfl

/-- **One step** under the condition. -/
theorem inv_step (s : State) (l : Label) (s' : State) (hI : Inv s) (hC : Whole s l)
    (h : step s l = some s') : Inv s' := by
  obtain ⟨hL, base, taken, hS⟩ := hI
  cases l with
  | wakeup pid ts =>
    cases h
    exact ⟨hL.congr rfl rfl rfl rfl rfl, base, taken,
      hS.grow (grows_of_eq rfl rfl rfl rfl rfl ⟨[], rfl⟩ fun _ h => h)⟩
  | addDelay pid now =>
    simp only [step] at h
    cases hl : s.prog.wakeupTs.lookupElem pid with
    | none => rw [hl] at h; cases h; exact ⟨hL, base, taken, hS⟩
    | some w =>
      rw [hl] at h
      cases h
      obtain ⟨hr, hlt⟩ := hC w hl
      exact ⟨ledgers_addDelay hL hr hlt, base, taken, hS.grow (grows_addDelay s _ _ _)⟩
  | addCount w =>
    simp only [step] at h
    split at h
    · rename_i hw
      cases h
      exact ⟨ledgers_addCount hL hw.1 hw.2 hC.1 hC.2, base, taken,
        hS.grow (grows_of_eq rfl rfl rfl rfl rfl ⟨[w], rfl⟩ fun _ h => h)⟩
    · cases h
  | forget w =>
    simp only [step] at h
    split at h
    · rename_i hw
      cases h
      exact ⟨ledgers_forget hL hw.1, base, taken,
        hS.grow (grows_of_eq rfl rfl rfl rfl rfl ⟨[], rfl⟩ fun _ h => List.mem_cons_of_mem _ h)⟩
    · cases h
  | poll =>
    cases h
    exact ⟨ledgers_poll hL, snapshots_poll hL hS hC⟩

theorem inv_start (b bd bc : UInt32 → Nat) : Inv (start (.init b bd bc)) := by
  refine ⟨ledgers_start b bd bc, fun _ => [], fun _ => [], ⟨⟨fun _ => rfl, fun _ => rfl,
    fun _ => ⟨[], rfl⟩, fun _ => rfl, fun _ => ⟨[], rfl, rfl, rfl⟩⟩, fun _ => rfl, ?_, ?_⟩⟩
  · intro k hk; cases hk
  · intro k t l hk; cases hk

/-- The wakeups of the polls that are over are the older ones of those counted. -/
theorem definite_of_inv {s : State} (hI : Inv s) : Definite s := by
  obtain ⟨hL, base, taken, hS⟩ := hI
  intro p
  obtain ⟨new, hnew⟩ := hS.old p
  obtain ⟨cur, hcur, -, -⟩ := hS.cur p
  have hsplit : of p s.counted = new ++ cur ++ base p := by rw [hnew, hcur, List.append_assoc]
  refine ⟨base p, ?_, fun w hw => ?_, hS.polls p⟩
  · have hn : (of p s.counted).Nodup := hL.countedNodup.filter _
    rw [hsplit] at hn
    exact (List.nodup_append.mp hn).2.1
  · have hmem : w ∈ of p s.counted := by
      rw [hsplit]; exact List.mem_append_right _ hw
    obtain ⟨hc, hp⟩ := mem_of.mp hmem
    exact ⟨hL.counted w hc, hp⟩

/-- **Definite averages.** In every run whose steps meet the condition, every
poll is about definite wakeups of every PID. -/
theorem runqPolls_definite (b bd bc : UInt32 → Nat) (ls : List Label)
    (h : Along step Whole (start (.init b bd bc)) ls) :
    Always step Definite (start (.init b bd bc)) ls :=
  (h.always inv_step (inv_start b bd bc)).mono fun _ => definite_of_inv

def loaded : State := start (.init (fun _ => 0) (fun _ => 0) fun _ => 0)

/-- PID 5 waits from 100 ns to 600 ns. The first poll reads it, while PID 7, in front of it
in the map, is switched to; the second poll is about PID 7. -/
def crossing : List Label :=
  [.wakeup 5 100, .addDelay 5 600, .addCount ⟨0, 5, 500⟩, .forget ⟨0, 5, 500⟩, .wakeup 7 200,
    .poll, .addDelay 7 900, .poll, .poll, .addCount ⟨1, 7, 700⟩, .poll, .forget ⟨1, 7, 700⟩,
    .poll, .poll, .poll, .poll, .poll, .poll, .poll]

theorem runqPolls_crossing :
    (exec step loaded crossing).map (fun s => s.polls.map fun r =>
      (r.delay 5, r.count 5, r.delay 7, r.count 7)) = some [(0, 0, 700, 1), (500, 1, 0, 0)] ∧
      Always step Definite loaded crossing :=
  ⟨by decide +kernel, runqPolls_definite _ _ _ crossing (by decide +kernel)⟩

/-- A poll without a number has no delay. -/
theorem delay_of_count {p : UInt32} {polls : List Poll} {used : List Wakeup}
    (h : Assigned p polls used) {r : Poll} (hr : r ∈ polls) (hc : r.count p = 0) :
    r.delay p = 0 := by
  induction polls generalizing used with
  | nil => cases hr
  | cons r' older ih =>
    obtain ⟨group, rest, -, hrest, hd, hn, -⟩ := h
    rcases List.mem_cons.mp hr with rfl | hr
    · rw [hn, List.length_eq_zero_iff] at hc
      rw [hd, hc]; rfl
    · exact ih hrest hr

/-- The same wakeup with a poll between the two additions, and one behind. -/
def between : List Label :=
  [.wakeup 5 100, .addDelay 5 600, .poll, .poll, .poll, .poll, .addCount ⟨0, 5, 500⟩,
    .forget ⟨0, 5, 500⟩, .poll, .poll, .poll, .poll]

/-- **Counterexample.** The first poll has a delay of 500 ns of no wakeup, the
second one a wakeup without a delay. -/
theorem runqPolls_torn :
    (exec step loaded between).map (fun s => s.polls.map fun r => (r.delay 5, r.count 5)) =
      some [(0, 1), (500, 0)] ∧ ∃ s, exec step loaded between = some s ∧ ¬ Definite s := by
  have hx : (exec step loaded between).map
      (fun s => s.polls.map fun r => (r.delay 5, r.count 5)) = some [(0, 1), (500, 0)] := by
    decide +kernel
  obtain ⟨s, hs, hv⟩ := Option.map_eq_some_iff.mp hx
  refine ⟨hx, s, hs, fun hD => ?_⟩
  obtain ⟨used, -, -, hA⟩ := hD 5
  have hmem : ((500, 0) : Nat × Nat) ∈ s.polls.map fun r => (r.delay 5, r.count 5) := by
    rw [hv]; decide
  obtain ⟨r, hr, he⟩ := List.mem_map.mp hmem
  obtain ⟨hd, hc⟩ := Prod.mk.inj he
  rw [delay_of_count hA hr hc] at hd
  exact absurd hd (by decide)

end RunqPolls
end EbpfDemo.L5Concurrency
