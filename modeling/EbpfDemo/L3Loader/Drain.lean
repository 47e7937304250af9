import EbpfDemo.L2Kernel.Counters

/-!
# The poll loop that walks a map and clears what it read

Most loaders poll a map with the same loop:

    key = start;                                  // 0 or NULL
    while (get_next_key(map, key, &next) == 0) {
        if (lookup(map, next, &value) == 0) {
            if (shown(value)) printf(...);
            clear(map, next);                     // delete, or overwrite with zero
        }
        key = next;
    }

`Drain` holds what differs between loaders (`start`, `shown`, `clear`), one
`pollStep` is one map call of the loop, so that events can be put between any
two of them (`L5Concurrency`), and `poll` runs the loop alone until it ends.
`seen` lists the entries the poll has read and shown, in order; `log` those of
the earlier polls.

Alone, a loop that deletes and whose cursor is not in the map drains it
(`poll_from_absent`): behind every deleted key the walk starts again at the
first key that is left.
-/
namespace EbpfDemo.L3Loader

open EbpfDemo.Core (HashMap)
open L2Kernel

structure Drain (K V : Type) where
  start : Option K
  shown : V → Bool
  clear : HashMap K V → K → HashMap K V

/-- Where the loop stands: before the next map call. -/
inductive DPc (K : Type) where
  | idle
  | next
  | look (k : K)
  | clear (k : K)
  deriving DecidableEq, Repr

structure DState (K V : Type) where
  map : HashMap K V
  pc : DPc K
  cursor : Option K
  seen : List (K × V)
  log : List (K × V)

section
variable {K V : Type} [DecidableEq K]

/-- A poll that is about to start on `m`. -/
def begin (d : Drain K V) (m : HashMap K V) : DState K V := ⟨m, .next, d.start, [], []⟩

/-- One map call of the loop; from `idle` the next poll starts. -/
def pollStep (d : Drain K V) (s : DState K V) : DState K V :=
  match s.pc with
  | .idle => { s with pc := .next, cursor := d.start, seen := [], log := s.log ++ s.seen }
  | .next =>
    match s.map.getNextKey s.cursor with
    | none => { s with pc := .idle }
    | some k => { s with pc := .look k }
  | .look k =>
    match s.map.lookupElem k with
    | none => { s with pc := .next, cursor := some k }
    | some v =>
      { s with pc := .clear k, seen := if d.shown v then s.seen ++ [(k, v)] else s.seen }
  | .clear k => { s with pc := .next, cursor := some k, map := d.clear s.map k }

/-- The loop alone; `none` when `fuel` map calls were not enough. -/
def poll (d : Drain K V) : Nat → DState K V → Option (DState K V)
  | 0, s => if s.pc = .idle then some s else none
  | n + 1, s => if s.pc = .idle then some s else poll d n (pollStep d s)

variable {d : Drain K V}

theorem poll_idle (n : Nat) {s : DState K V} (h : s.pc = .idle) : poll d n s = some s := by
  cases n <;> simp [poll, h]

theorem poll_step (n : Nat) {s : DState K V} (h : s.pc ≠ .idle) :
    poll d (n + 1) s = poll d n (pollStep d s) := by simp [poll, h]

theorem poll_zero {s : DState K V} (h : s.pc ≠ .idle) : poll d 0 s = none := by simp [poll, h]

/-- One more map call of fuel does no harm. -/
theorem poll_succ {n : Nat} {s t : DState K V} (h : poll d n s = some t) :
    poll d (n + 1) s = some t := by
  induction n generalizing s with
  | zero =>
    by_cases hi : s.pc = .idle
    · rw [poll_idle _ hi] at h ⊢; exact h
    · rw [poll_zero hi] at h; cases h
  | succ n ih =>
    by_cases hi : s.pc = .idle
    · rw [poll_idle _ hi] at h ⊢; exact h
    · rw [poll_step _ hi] at h ⊢; exact ih h

/-- Fuel never changes the result. -/
theorem poll_unique {n m : Nat} {s t u : DState K V} (h1 : poll d n s = some t)
    (h2 : poll d m s = some u) : t = u := by
  have mono : ∀ {a b : Nat} {x : DState K V}, poll d a s = some x → poll d (a + b) s = some x := by
    intro a b x h
    induction b with
    | zero => exact h
    | succ b ih => exact poll_succ ih
  have e1 := mono (b := m) h1
  have e2 := mono (b := n) h2
  rw [Nat.add_comm] at e2
  exact Option.some.inj (e1.symm.trans e2)

/-! ## One turn of the loop -/

/-- The state after the entry `(k, v)` was read, shown and cleared. -/
def afterTurn (d : Drain K V) (s : DState K V) (k : K) (v : V) : DState K V :=
  { s with pc := .next, cursor := some k, map := d.clear s.map k,
           seen := if d.shown v then s.seen ++ [(k, v)] else s.seen }

/-- A turn is three map calls: get_next_key, lookup, clear. -/
theorem poll_turn {s : DState K V} {k : K} {v : V} (n : Nat) (hpc : s.pc = .next)
    (hk : s.map.getNextKey s.cursor = some k) (hv : s.map.lookupElem k = some v) :
    poll d (n + 3) s = poll d n (afterTurn d s k v) := by
  rw [poll_step (n + 2) (by simp [hpc])]
  have h1 : pollStep d s = { s with pc := .look k } := by simp only [pollStep, hpc, hk]
  rw [h1, poll_step (n + 1) (by simp)]
  have h2 : pollStep d { s with pc := .look k } =
      { s with pc := .clear k, seen := if d.shown v then s.seen ++ [(k, v)] else s.seen } := by
    simp only [pollStep, hv]
  rw [h2, poll_step n (by simp)]
  rfl

/-- With less than a turn of fuel the loop does not end. -/
theorem poll_short {s : DState K V} {k : K} {v : V} (hpc : s.pc = .next)
    (hk : s.map.getNextKey s.cursor = some k) (hv : s.map.lookupElem k = some v) :
    poll d 0 s = none ∧ poll d 1 s = none ∧ poll d 2 s = none := by
  have h1 : pollStep d s = { s with pc := .look k } := by simp only [pollStep, hpc, hk]
  have hne : s.pc ≠ .idle := by simp [hpc]
  refine ⟨poll_zero hne, ?_, ?_⟩
  · rw [poll_step 0 hne, h1, poll_zero (by simp)]
  · rw [poll_step 1 hne, h1, poll_step 0 (by simp), poll_zero]
    simp only [pollStep, hv]; simp

theorem poll_end {s : DState K V} (n : Nat) (hpc : s.pc = .next)
    (hk : s.map.getNextKey s.cursor = none) : poll d (n + 1) s = some { s with pc := .idle } := by
  rw [poll_step n (by simp [hpc])]
  have : pollStep d s = { s with pc := .idle } := by simp only [pollStep, hpc, hk]
  rw [this]; exact poll_idle n rfl

/-! ## Deleting loops -/

/-- A loop that deletes what it read. -/
def Drain.Deletes (d : Drain K V) : Prop := ∀ m k, d.clear m k = m.deleteElem k

/-- From an absent cursor a deleting loop ends with the map empty, having
shown the entries in visiting order. Induction on the entries left. -/
theorem poll_from_absent (hd : d.Deletes) (l : List (K × V)) :
    ∀ s : DState K V, s.pc = .next → s.map.elems = l → (∀ k, s.cursor = some k → k ∉ s.map.keys) →
      ∃ fuel t, poll d fuel s = some t ∧ t.map.elems = [] ∧
        t.seen = s.seen ++ l.filter fun e => d.shown e.2 := by
  induction l with
  | nil =>
    intro s hpc hl hc
    have hk : s.map.keys = [] := HashMap.keys_eq_nil_iff.mpr hl
    refine ⟨1, _, poll_end 0 hpc ?_, hl, by simp⟩
    cases hcur : s.cursor with
    | none => simp [HashMap.getNextKey, hk]
    | some k => rw [HashMap.getNextKey_absent (hc k hcur), hk]; rfl
  | cons e l ih =>
    intro s hpc hl hc
    have hfirst : s.map.keys.head? = some e.1 := by simp [HashMap.keys, hl]
    have hnext : s.map.getNextKey s.cursor = some e.1 := by
      cases hcur : s.cursor with
      | none => exact hfirst
      | some k => rw [HashMap.getNextKey_absent (hc k hcur)]; exact hfirst
    have hv : s.map.lookupElem e.1 = some e.2 :=
      HashMap.lookupElem_iff_mem.mpr (by rw [hl]; exact List.mem_cons_self)
    have hmap : (afterTurn d s e.1 e.2).map = s.map.deleteElem e.1 := hd s.map e.1
    obtain ⟨fuel, t, ht, hempty, hseen⟩ := ih (afterTurn d s e.1 e.2) rfl
      (by rw [hmap]; exact HashMap.elems_deleteElem_head hl) (by
        intro k hk
        rw [hmap, HashMap.mem_keys_deleteElem]
        cases hk; exact fun h => h.2 rfl)
    refine ⟨fuel + 3, t, (poll_turn fuel hpc hnext hv).trans ht, hempty, ?_⟩
    rw [hseen]
    simp only [afterTurn, List.filter_cons]
    split <;> simp

end

/-! ## The loaders -/

/-- mirrors src/my_tools/cpu/irq_stat.c:53-69 (`seen` is `data`) -/
def irqStat : Drain Comm MyIrqInfo where
  start := none
  shown _ := true
  clear m k := m.deleteElem k

/-- mirrors src/my_tools/network/tcp_connect.c:21-36 -/
def tcpConnect : Drain UInt32 ConnInfo where
  start := some 0
  shown _ := true
  clear m k := m.deleteElem k

/-- Overwrites with zero instead of deleting.
mirrors src/my_tools/memo/mmap_stat.c:35-51 -/
def mmapStat : Drain UInt32 UInt64 where
  start := some 0
  shown _ := true
  clear m k := m.update k 0 .exist

/-- mirrors src/my_tools/network/net_tcp_retransmit.c:65-78 -/
def netTcpRetransmit : Drain UInt32 ConnInfo where
  start := some 0
  shown info := decide (info.count > 0)
  clear m k := m.deleteElem k

/-- mirrors src/my_tools/disk/disk_io_size.c:11-16 -/
structure PidIo where
  readBytes : UInt64
  writeBytes : UInt64
  readCount : UInt64
  writeCount : UInt64
  deriving DecidableEq

/-- mirrors src/my_tools/disk/disk_io_size.c:89-104 -/
def diskIoSize : Drain UInt32 PidIo where
  start := some 0
  shown pio := decide (pio.readCount + pio.writeCount > 0)
  clear m k := m.deleteElem k

/-- mirrors src/my_tools/network/socket_stat.c:10-12 -/
structure FamilyInfo where
  count : UInt64
  deriving DecidableEq

/-- mirrors src/my_tools/network/socket_stat.c:42-55 -/
def socketStatFamily : Drain UInt32 FamilyInfo where
  start := some 0
  shown _ := true
  clear m k := m.deleteElem k

/-- mirrors src/my_tools/network/socket_stat.c:58-70 -/
def socketStatPid : Drain UInt32 ConnInfo where
  start := some 0
  shown _ := true
  clear m k := m.deleteElem k

end EbpfDemo.L3Loader
