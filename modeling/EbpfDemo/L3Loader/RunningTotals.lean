import EbpfDemo.L3Loader.Reports

/-!
# Running totals that the client adds up

`write_stat` and the PID rows of `file_fsync_stat` print what the map holds and
leave it there, so a row carries the total since the start of the tool. The
client adds the rows of a key up. `TotalsTool` is what the two have in common: a
map of totals per PID to which the programs add, a walk over it, a row per
entry, and rows under other keys. `Run` polls such a tool between events;
`polled` is what was counted of a PID up to the last poll.

`additive_step`: a poll keeps the client's value right exactly when it prints
the PID for the first time that there is something to print, or does not print
it and nothing new was counted. `additive_iff` is the statement for both tools,
over whole runs and through the text the client parses. `additive_twice`: one
write(), two polls, two calls reported.
-/
namespace EbpfDemo.L3Loader

open EbpfDemo.Core EbpfDemo.L1Encoding
open L2Kernel

/-- mirrors src/my_tools/file/write_stat.bpf.c:12-26 -/
def handleEnterWrite (m : HashMap UInt32 UInt64) (pid : UInt32) : HashMap UInt32 UInt64 :=
  countEvent (· + 1) 1 .any m pid

/-- A tool with a total per PID. `S` is the state of its programs, `E` their
events, `P` what the loader keeps between polls. -/
structure TotalsTool (S E P : Type) where
  handle : S → E → S
  totals : S → HashMap UInt32 UInt64
  /-- The PID and the amount an event adds, if any. -/
  adds : S → E → Option (UInt32 × UInt64)
  walk : Drain UInt32 UInt64
  key : UInt32 → Key
  row : UInt32 → UInt64 → Row
  /-- The rows in front of the walk. -/
  front : P → S → P × List Row
  /-- One unit of the amount, as it is printed. -/
  unit : ℚ

/-- The parts fit together. -/
structure TotalsTool.Lawful {S E P : Type} (T : TotalsTool S E P) : Prop where
  totals_handle : ∀ s e, T.totals (T.handle s e) = match T.adds s e with
    | some (p, d) => countEvent (· + d) d .any (T.totals s) p
    | none => T.totals s
  keeps : T.walk.Keeps
  key_row : ∀ p v, (T.row p v).key = T.key p
  value_row : ∀ p v, (T.row p v).num.value = v.toNat * T.unit
  key_inj : ∀ p q, T.key p = T.key q → p = q
  key_front : ∀ p prev s, ∀ r ∈ (T.front prev s).2, r.key ≠ T.key p
  unit_pos : 0 < T.unit

/-- The programs, the loader and all it has printed; what was counted of each
PID, and what of it up to the last poll. -/
structure Run (S P : Type) where
  prog : S
  prev : P
  rows : List Row
  counted : UInt32 → Nat
  polled : UInt32 → Nat

namespace Run

inductive Label (E : Type) where
  | event (e : E)
  | poll

variable {S E P : Type} (T : TotalsTool S E P)

def start (s : S) (prev : P) : Run S P := ⟨s, prev, [], fun _ => 0, fun _ => 0⟩

/-- What is counted after an event: what it adds, if its key finds room. -/
def count (s : Run S P) (e : E) : UInt32 → Nat :=
  match T.adds s.prog e with
  | some (p, d) => if HasRoom (T.totals s.prog) p then
      Function.update s.counted p (s.counted p + d.toNat) else s.counted
  | none => s.counted

/-- Events and polls do not overlap, and no total wraps. -/
def step (s : Run S P) : Label E → Option (Run S P)
  | .event e =>
    match T.adds s.prog e with
    | some (p, d) => if s.counted p + d.toNat < 2 ^ 64 then
        some { s with prog := T.handle s.prog e, counted := s.count T e } else none
    | none => some { s with prog := T.handle s.prog e }
  | .poll => (T.walk.shows (T.totals s.prog)).map fun seen =>
      { s with
        prev := (T.front s.prev s.prog).1
        rows := s.rows ++ (T.front s.prev s.prog).2 ++ seen.map fun e => T.row e.1 e.2
        polled := s.counted }

/-- The client has what was counted of `p` up to the last poll. -/
def Additive (recLimit : Nat) (p : UInt32) (s : Run S P) : Prop :=
  (reportedValue recLimit (printed s.rows) (T.key p)).getD 0 = s.polled p * T.unit

/-- The next poll prints the row of `p`. -/
def Reached (p : UInt32) (s : Run S P) : Prop := p ∈ Assoc.keys (T.walk.walked (T.totals s.prog))

instance (p : UInt32) (s : Run S P) : Decidable (Reached T p s) :=
  inferInstanceAs (Decidable (_ ∈ _))

/-- A poll that prints the row of `p` is the first with something to print; one
that does not print it has nothing new. -/
def Fresh (p : UInt32) (s : Run S P) : Label E → Prop
  | .event _ => True
  | .poll => if Reached T p s then s.polled p = 0 else s.counted p = s.polled p

instance (p : UInt32) (s : Run S P) : ∀ l, Decidable (Fresh T p s l)
  | .event _ => .isTrue trivial
  | .poll => inferInstanceAs (Decidable (ite _ _ _))

/-- The map holds what was counted. -/
def Inv (s : Run S P) : Prop := ∀ p, valueOf (T.totals s.prog) p = s.counted p

variable {T}

theorem inv_start {s : S} {prev : P} (h : ∀ p, valueOf (T.totals s) p = 0) :
    Inv T (start s prev) := h

theorem inv_event (hT : T.Lawful) {s s' : Run S P} {e : E} (hI : Inv T s)
    (h : step T s (.event e) = some s') : Inv T s' := by
  have hh := hT.totals_handle s.prog e
  simp only [step] at h
  cases ha : T.adds s.prog e with
  | none =>
    rw [ha] at h hh
    cases h
    intro p
    show valueOf (T.totals (T.handle s.prog e)) p = s.counted p
    rw [hh]; exact hI p
  | some pd =>
    obtain ⟨q, d⟩ := pd
    rw [ha] at h hh
    simp only at h
    split at h
    · rename_i hlt
      cases h
      intro p
      show valueOf (T.totals (T.handle s.prog e)) p = count T s e p
      rw [hh]
      unfold count
      rw [ha]
      dsimp only
      by_cases hroom : HasRoom (T.totals s.prog) q
      · rw [valueOf_countEvent hroom, if_pos hroom]
        by_cases hp : p = q
        · subst hp
          rw [if_pos rfl, Function.update_self, hI p, Nat.mod_eq_of_lt hlt]
        · rw [if_neg hp, Function.update_of_ne hp, hI p]
      · rw [if_neg hroom, countEvent_noRoom hroom]; exact hI p
    · cases h

/-- What a poll does. -/
theorem step_poll (hT : T.Lawful) (s : Run S P) : step T s .poll = some { s with
    prev := (T.front s.prev s.prog).1
    rows := s.rows ++ (T.front s.prev s.prog).2 ++
      (T.walk.walked (T.totals s.prog)).map fun e => T.row e.1 e.2
    polled := s.counted } := by
  simp only [step, hT.keeps.shows, Option.map_some]

theorem inv_step (hT : T.Lawful) (s : Run S P) (l : Label E) (s' : Run S P) (hI : Inv T s)
    (h : step T s l = some s') : Inv T s' := by
  cases l with
  | event e => exact inv_event hT hI h
  | poll =>
    rw [step_poll hT] at h
    cases h; exact hI

/-- A walk with one entry per PID prints one row of `p`, or none. -/
theorem valuesAt_walk (hT : T.Lawful) (p : UInt32) (l : List (UInt32 × UInt64))
    (hn : (Assoc.keys l).Nodup) :
    (valuesAt (T.key p) (l.map fun e => T.row e.1 e.2)).sum =
      (match Assoc.find p l with
        | some v => v.toNat * T.unit
        | none => 0) := by
  induction l with
  | nil => rfl
  | cons e l ih =>
    rw [Assoc.keys_cons, List.nodup_cons] at hn
    rw [List.map_cons, ← List.singleton_append, valuesAt_append, List.sum_append, ih hn.2,
      Assoc.find]
    by_cases he : e.1 = p
    · have hnone : Assoc.find p l = none := Assoc.find_eq_none_iff.mpr (he ▸ hn.1)
      rw [if_pos he, hnone]
      simp [valuesAt, hT.key_row, hT.value_row, he]
    · have hne : T.key e.1 ≠ T.key p := fun h => he (hT.key_inj _ _ h)
      rw [if_neg he]
      simp [valuesAt, hT.key_row, hne]

/-- The rows in front of the walk are under other keys. -/
theorem valuesAt_front (hT : T.Lawful) (p : UInt32) (prev : P) (s : S) :
    valuesAt (T.key p) (T.front prev s).2 = [] := by
  unfold valuesAt
  rw [List.map_eq_nil_iff, List.filter_eq_nil_iff]
  intro r hr
  simpa using hT.key_front p prev s r hr

/-- What a poll adds to the client's value of `p`. -/
theorem sum_poll (hT : T.Lawful) {s : Run S P} (hI : Inv T s) (p : UInt32) :
    (valuesAt (T.key p) ((T.walk.walked (T.totals s.prog)).map fun e => T.row e.1 e.2)).sum =
      if Reached T p s then s.counted p * T.unit else 0 := by
  rw [valuesAt_walk hT p _ (T.walk.nodup_walked _)]
  by_cases hr : Reached T p s
  · obtain ⟨v, hv⟩ := Option.isSome_iff_exists.mp (Assoc.find_isSome_iff.mpr hr)
    have hl : (T.totals s.prog).lookupElem p = some v := Drain.lookup_walked (Assoc.mem_of_find hv)
    have hval : v.toNat = s.counted p := by rw [← hI p, valueOf, hl]; rfl
    rw [hv, if_pos hr]
    dsimp only
    rw [hval]
  · rw [Assoc.find_eq_none_iff.mpr hr, if_neg hr]

/-- **One step** keeps the client's value right exactly when it is fresh. -/
theorem additive_step (hT : T.Lawful) (recLimit : Nat) (p : UInt32) (s : Run S P) (l : Label E)
    (s' : Run S P) (hI : Inv T s) (hQ : Additive T recLimit p s) (h : step T s l = some s') :
    Additive T recLimit p s' ↔ Fresh T p s l := by
  cases l with
  | event e =>
    refine iff_of_true ?_ trivial
    simp only [step] at h
    split at h
    · split at h
      · cases h; exact hQ
      · cases h
    · cases h; exact hQ
  | poll =>
    rw [step_poll hT] at h
    cases h
    unfold Additive at hQ ⊢
    unfold Fresh
    rw [reportedValue_getD] at hQ ⊢
    have hunit := hT.unit_pos.ne'
    rw [valuesAt_append, valuesAt_append, valuesAt_front hT, List.append_nil, List.sum_append, hQ,
      sum_poll hT hI]
    split
    · -- printed: everything counted so far is added once more
      rw [← add_mul, mul_left_inj' hunit, ← Nat.cast_add, Nat.cast_inj]
      exact Nat.add_eq_right
    · rw [add_zero, mul_left_inj' hunit, Nat.cast_inj]
      exact eq_comm

/-- The client is right throughout a run exactly when every poll is fresh. -/
theorem always_additive_iff (hT : T.Lawful) (recLimit : Nat) (p : UInt32) {s : S} {prev : P}
    (h0 : ∀ p, valueOf (T.totals s) p = 0) {ls : List (Label E)} {t : Run S P}
    (hx : exec (step T) (start s prev) ls = some t) :
    Always (step T) (Additive T recLimit p) (start s prev) ls ↔
      Along (step T) (Fresh T p) (start s prev) ls := by
  refine always_iff_along (inv_step hT) (additive_step hT recLimit p) (inv_start h0) ?_ hx
  unfold Additive
  rw [reportedValue_getD]
  simp [start, valuesAt]

end Run

/-! ## The two tools -/

/-- mirrors src/my_tools/file/write_stat.c:33-44 -/
def writeTotals : TotalsTool (HashMap UInt32 UInt64) UInt32 Unit where
  handle := handleEnterWrite
  totals m := m
  adds _ pid := some (pid, 1)
  walk := writeStat
  key := writeCallsKey
  row := writeRow
  front _ _ := ((), [])
  unit := 1

theorem writeTotals_lawful : writeTotals.Lawful where
  totals_handle _ _ := rfl
  keeps := writeStat_keeps
  key_row _ _ := rfl
  value_row _ _ := (mul_one _).symm
  key_inj _ _ h := UInt32.toNat_inj.mp
    (numbered_inj (str "write_calls_pid_") [] (congrArg Key.text h))
  key_front _ _ _ := List.forall_mem_nil _
  unit_pos := one_pos

/-- A call or a return of `vfs_fsync_range`. -/
inductive FsyncEvent where
  | entry (pid : UInt32) (ts : UInt64)
  | exit (pid : UInt32) (now : UInt64)

def FsyncEvent.handle (s : FileFsync) : FsyncEvent → FileFsync
  | .entry pid ts => s.handleFsyncEntry pid ts
  | .exit pid now => s.handleFsyncExit pid now

/-- A return that finds an entry time adds the difference. -/
def FsyncEvent.adds (s : FileFsync) : FsyncEvent → Option (UInt32 × UInt64)
  | .entry _ _ => none
  | .exit pid now => (s.fsyncStart.lookupElem pid).map fun start => (pid, now - start)

/-- mirrors src/my_tools/file/file_fsync_stat.c:42-83 -/
def fsyncTotals : TotalsTool FileFsync FsyncEvent Snapshot where
  handle := FsyncEvent.handle
  totals := FileFsync.pidFsyncLatency
  adds := FsyncEvent.adds
  walk := fileFsyncStat
  key := fsyncPidKey
  row := fsyncPidRow
  front prev s := fsyncRows prev s.fsyncStats
  unit := 1 / 1000

theorem fsyncPidKey_front (p : UInt32) : (fsyncPidKey p).text.take 10 = str "fsync_pid_" := by
  show (str "fsync_pid_" ++ decimal p.toNat ++ str "_total_us").take 10 = _
  rw [List.append_assoc, List.take_left' (by decide)]

theorem fsyncTotals_lawful : fsyncTotals.Lawful where
  totals_handle s e := by
    cases e with
    | entry pid ts => rfl
    | exit pid now =>
      show (s.recordFsyncExit 0 pid now).pidFsyncLatency = _
      unfold FileFsync.recordFsyncExit
      simp only [fsyncTotals, FsyncEvent.adds]
      cases s.fsyncStart.lookupElem pid <;> rfl
  keeps := fileFsyncStat_keeps
  key_row _ _ := rfl
  value_row p v := by
    show (fixed3 (v.toNat / 1000)).value = v.toNat * (1 / 1000)
    rw [fixed3_thousandths, Numeral.value]; ring
  key_inj _ _ h := UInt32.toNat_inj.mp
    (numbered_inj (str "fsync_pid_") (str "_total_us") (congrArg Key.text h))
  key_front p prev s r hr := by
    intro h
    have hp := fsyncPidKey_front p
    rw [← show fsyncTotals.key p = fsyncPidKey p from rfl, ← h] at hp
    have hrow : r.key = fsyncTotalKey ∨ r.key = fsyncCountKey ∨ r.key = fsyncAvgKey := by
      simp only [fsyncTotals, fsyncRows, quotientRows] at hr
      rcases List.mem_append.mp hr with hr | hr
      · rcases List.mem_cons.mp hr with rfl | hr
        · exact .inl rfl
        · rw [List.mem_singleton.mp hr]; exact .inr (.inl rfl)
      · split at hr
        · rw [List.mem_singleton.mp hr]; exact .inr (.inr rfl)
        · cases hr
    rcases hrow with hk | hk | hk <;> rw [hk] at hp <;> revert hp <;> decide
  unit_pos := by norm_num [fsyncTotals]

theorem valueOf_empty (b : UInt32 → Nat) (n : Nat) (p : UInt32) :
    valueOf (.empty b n : HashMap UInt32 UInt64) p = 0 := rfl

/-- **Additive reports.** Over any run of `write_stat` and any run of
`file_fsync_stat` the client has, after every step, exactly what was counted of
`p` up to the last poll if and only if every poll that prints `p` is the first
with something to print, and every other one has nothing new of `p`. -/
theorem additive_iff (recLimit : Nat) (p : UInt32) (b c d : UInt32 → Nat)
    (ws : List (Run.Label UInt32)) (fs : List (Run.Label FsyncEvent))
    {w : Run (HashMap UInt32 UInt64) Unit} {f : Run FileFsync Snapshot}
    (hw : exec (Run.step writeTotals) (.start (.empty b 10240) ()) ws = some w)
    (hf : exec (Run.step fsyncTotals) (.start (.init b c d) ⟨0, 0⟩) fs = some f) :
    (Always (Run.step writeTotals) (Run.Additive writeTotals recLimit p)
        (.start (.empty b 10240) ()) ws ↔
      Along (Run.step writeTotals) (Run.Fresh writeTotals p) (.start (.empty b 10240) ()) ws) ∧
    (Always (Run.step fsyncTotals) (Run.Additive fsyncTotals recLimit p)
        (.start (.init b c d) ⟨0, 0⟩) fs ↔
      Along (Run.step fsyncTotals) (Run.Fresh fsyncTotals p) (.start (.init b c d) ⟨0, 0⟩) fs) :=
  ⟨Run.always_additive_iff writeTotals_lawful recLimit p (valueOf_empty b 10240) hw,
    Run.always_additive_iff fsyncTotals_lawful recLimit p (s := .init b c d)
      (valueOf_empty c 10240) hf⟩

/-- An empty poll, three calls by two PIDs, a poll and another call, -/
def writes : List (Run.Label UInt32) := [.poll, .event 5, .event 7, .event 5, .poll, .event 5]

/-- and the like with calls that overlap. -/
def fsyncs : List (Run.Label FsyncEvent) :=
  [.poll, .event (.entry 5 100), .event (.entry 7 120), .event (.exit 5 350),
    .event (.exit 7 400), .event (.entry 5 500), .event (.exit 5 900), .poll]

theorem additive_once :
    (exec (Run.step writeTotals) (.start (.empty (fun _ => 0) 10240) ()) writes).map
      (fun t => (reportedValue 1000 (printed t.rows) (writeCallsKey 5), t.polled 5)) =
      some (some 2, 2) ∧
    Always (Run.step writeTotals) (Run.Additive writeTotals 1000 5)
      (.start (.empty (fun _ => 0) 10240) ()) writes ∧
    Always (Run.step fsyncTotals) (Run.Additive fsyncTotals 1000 5)
      (.start (.init (fun _ => 0) (fun _ => 0) fun _ => 0) ⟨0, 0⟩) fsyncs := by
  have hw : (exec (Run.step writeTotals) (.start (.empty (fun _ => 0) 10240) ()) writes).map
      (fun t => (reportedValue 1000 (printed t.rows) (writeCallsKey 5), t.polled 5)) =
      some (some 2, 2) := by decide +kernel
  have hf : (exec (Run.step fsyncTotals)
      (.start (.init (fun _ => 0) (fun _ => 0) fun _ => 0) ⟨0, 0⟩) fsyncs).isSome = true := by
    decide +kernel
  obtain ⟨w, hw', -⟩ := Option.map_eq_some_iff.mp hw
  obtain ⟨f, hf'⟩ := Option.isSome_iff_exists.mp hf
  have h := additive_iff 1000 5 (fun _ => 0) (fun _ => 0) (fun _ => 0) writes fsyncs hw' hf'
  exact ⟨hw, h.1.mpr (by decide +kernel), h.2.mpr (by decide +kernel)⟩

/-- **Counterexample.** PID 5 calls write() once and fsync once, for 250 ns, and
each tool polls twice: the client reports 2 calls and 0.5 us. -/
theorem additive_twice :
    (exec (Run.step writeTotals) (.start (.empty (fun _ => 0) 10240) ())
        [.event 5, .poll, .poll]).map (fun t => (reportedValue 1000 (printed t.rows)
          (writeCallsKey 5), t.polled 5)) = some (some 2, 1) ∧
    (exec (Run.step fsyncTotals) (.start (.init (fun _ => 0) (fun _ => 0) fun _ => 0) ⟨0, 0⟩)
        [.event (.entry 5 100), .event (.exit 5 350), .poll, .poll]).map (fun t => (reportedValue 1000
          (printed t.rows) (fsyncPidKey 5), t.polled 5)) = some (some (1 / 2), 250) ∧
    ¬ (∀ w, exec (Run.step writeTotals) (.start (.empty (fun _ => 0) 10240) ())
        [.event 5, .poll, .poll] = some w → Run.Additive writeTotals 1000 5 w) := by
  have hw : (exec (Run.step writeTotals) (.start (.empty (fun _ => 0) 10240) ())
      [.event 5, .poll, .poll]).map (fun t => (reportedValue 1000 (printed t.rows)
        (writeCallsKey 5), t.polled 5)) = some (some 2, 1) := by decide +kernel
  refine ⟨hw, by decide +kernel, fun h => ?_⟩
  obtain ⟨w, hx, hv⟩ := Option.map_eq_some_iff.mp hw
  obtain ⟨h1, h2⟩ := Prod.mk.inj hv
  have hadd := h w hx
  unfold Run.Additive at hadd
  rw [show writeTotals.key 5 = writeCallsKey 5 from rfl, h1, h2] at hadd
  revert hadd
  norm_num [writeTotals]

end EbpfDemo.L3Loader
