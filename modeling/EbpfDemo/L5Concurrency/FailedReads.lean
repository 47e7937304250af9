import EbpfDemo.Core.Growth
import EbpfDemo.L3Loader.Levels
import EbpfDemo.L5Concurrency.TornSizes

/-!
# Polls whose reads may fail

Six loaders read their counters one by one in every poll, form the differences to the
poll before and keep what they read. The lookups may fail, at any time and for some
counters only; the variable then has the 0 it was set to, and the 0 is kept. The
counters themselves do not go back.

`disk_read_delay`, `disk_write_delay` and `file_fsync_stat` take a smaller value for no
growth. The poll that failed reports nothing then, but the next one compares with 0 and
reports all over again: what they report of a counter is what passing over the failed
reads would report, and adds up to at most the last value read, exactly when no failed
read stands between a value that is not 0 and a later one (`guarded_iff`).

`disk_io_sched`, `disk_io_size` and `net_udp_stat` subtract as it comes. No difference
goes below zero, and none exceeds the counter, exactly when no failed read comes right
after a value that is not 0 (`unguarded_iff`).

What is reported of a counter is what a loader that prints a row for each prints under
its label (`rows_carry`, `valuesAt_reports`).
-/
namespace EbpfDemo.L5Concurrency

open EbpfDemo.Core EbpfDemo.L1Encoding
open L3Loader

/-- A loader of `n` counters: how it takes a difference, and what it prints of them. -/
structure Differ (n : Nat) where
  diff : UInt64 → UInt64 → UInt64
  rows : (Fin n → UInt64) → List Row

/-- A lookup of a counter: its value, and whether the lookup returns it. -/
structure Lookup where
  value : UInt64
  ok : Bool

def Lookup.found (r : Lookup) : Option UInt64 := if r.ok then some r.value else none

/-- What the poll works with. -/
def Lookup.cur (r : Lookup) : UInt64 := r.found.getD 0

namespace Differ

variable {n : Nat} (T : Differ n)

/-- The differences of a poll. -/
def deltas (prev : Fin n → UInt64) (a : Fin n → Lookup) (i : Fin n) : UInt64 :=
  T.diff (a i).cur (prev i)

/-- A poll: look up, print the differences, keep the values. -/
def poll (prev : Fin n → UInt64) (a : Fin n → Lookup) : (Fin n → UInt64) × List Row :=
  (fun i => (a i).cur, T.rows (T.deltas prev a))

def sampler : Sampler (Fin n → UInt64) (Fin n → Lookup) := ⟨fun _ => 0, T.poll⟩

def step (prev : Fin n → UInt64) (a : Fin n → Lookup) : Option (Fin n → UInt64) :=
  some (T.poll prev a).1

/-- The differences of counter `i`, poll by poll. -/
def reports (i : Fin n) : (Fin n → UInt64) → List (Fin n → Lookup) → List Nat
  | _, [] => []
  | prev, a :: l => (T.deltas prev a i).toNat :: reports i (T.poll prev a).1 l

end Differ

namespace FailedReads

/-! ## The loaders -/

/-- Two totals in microseconds and two counts. -/
def delayRows (key : Fin 4 → Key) (d : Fin 4 → UInt64) : List Row :=
  [⟨key 0, fixed3 ((d 0).toNat / 1000)⟩, ⟨key 1, .llu (d 1).toNat⟩,
    ⟨key 2, fixed3 ((d 2).toNat / 1000)⟩, ⟨key 3, .llu (d 3).toNat⟩]

/-- A total in microseconds, a count and, if it is not 0, their quotient. -/
def averagedRows (key : Fin 2 → Key) (avg : Key) (d : Fin 2 → UInt64) : List Row :=
  [⟨key 0, fixed3 ((d 0).toNat / 1000)⟩, ⟨key 1, .llu (d 1).toNat⟩] ++
    if d 1 > 0 then [⟨avg, fixed3 ((d 0).toNat / 1000 / (d 1).toNat)⟩] else []

/-! The labels of the counters. -/

def diskReadKey : Fin 4 → Key
  | 0 => .named (str "disk_read_vfs_total_us") (by decide)
  | 1 => .named (str "disk_read_vfs_count") (by decide)
  | 2 => .named (str "disk_read_block_total_us") (by decide)
  | 3 => .named (str "disk_read_block_count") (by decide)

def diskWriteKey : Fin 4 → Key
  | 0 => .named (str "disk_write_vfs_total_us") (by decide)
  | 1 => .named (str "disk_write_vfs_count") (by decide)
  | 2 => .named (str "disk_write_block_total_us") (by decide)
  | 3 => .named (str "disk_write_block_count") (by decide)

def fsyncKey : Fin 2 → Key
  | 0 => fsyncTotalKey
  | 1 => fsyncCountKey

def ioSchedKey : Fin 2 → Key
  | 0 => diskIoTotalKey
  | 1 => diskIoCountKey

def udpKey : Fin 4 → Key
  | 0 => .named (str "udp_send_count") (by decide)
  | 1 => .named (str "udp_recv_count") (by decide)
  | 2 => .named (str "udp_send_bytes") (by decide)
  | 3 => .named (str "udp_recv_bytes") (by decide)

/-- `vfs_ts`, `vfs_cnt`, `blk_ts`, `blk_cnt`
mirrors src/my_tools/disk/disk_read_delay.c:7-10,39-58 -/
def diskReadDelay : Differ 4 where
  diff := delta
  rows := delayRows diskReadKey

/-- `total_write`, `count_write`, `total_flush`, `count_flush`
mirrors src/my_tools/disk/disk_write_delay.c:8-64 -/
def diskWriteDelay : Differ 4 where
  diff := delta
  rows := delayRows diskWriteKey

/-- `latency`, `count`
mirrors src/my_tools/file/file_fsync_stat.c:40-68 -/
def fileFsyncStat : Differ 2 where
  diff := delta
  rows := averagedRows fsyncKey fsyncAvgKey

/-- `delay`, `count`
mirrors src/my_tools/disk/disk_io_sched.c:40-71 -/
def diskIoSched : Differ 2 where
  diff := (· - ·)
  rows := averagedRows ioSchedKey diskIoAvgKey

/-- mirrors src/my_tools/disk/disk_io_size.c:48-86,106-107 -/
def diskIoSize : Differ 6 where
  diff := (· - ·)
  rows := TornSizes.sizeRows

/-- `send`, `recv`, `send_bytes`, `recv_bytes`
mirrors src/my_tools/network/net_udp_stat.c:40-71 -/
def netUdpStat : Differ 4 where
  diff := (· - ·)
  rows d := (List.finRange 4).flatMap fun i =>
    if d i > 0 then [⟨udpKey i, .llu (d i).toNat⟩] else []

/-- The loaders that take a smaller value for no growth. -/
inductive Guarded : {n : Nat} → Differ n → Prop where
  | read : Guarded diskReadDelay
  | write : Guarded diskWriteDelay
  | fsync : Guarded fileFsyncStat

theorem Guarded.diff_eq {n : Nat} {T : Differ n} (hT : Guarded T) : T.diff = delta := by
  cases hT <;> rfl

/-- The loaders that subtract as it comes. -/
inductive Unguarded : {n : Nat} → Differ n → Prop where
  | sched : Unguarded diskIoSched
  | size : Unguarded diskIoSize
  | udp : Unguarded netUdpStat

theorem Unguarded.diff_eq {n : Nat} {T : Differ n} (hT : Unguarded T) :
    T.diff = (· - ·) := by
  cases hT <;> rfl

/-- A poll of `fsync_stats` or `io_latency_stats` in which both lookups succeed. -/
def looked (stats : ArrayMap UInt64 8) : Fin 2 → Lookup
  | 0 => ⟨(stats.lookupElem 0).getD 0, true⟩
  | 1 => ⟨(stats.lookupElem 1).getD 0, true⟩

def kept (prev : Snapshot) : Fin 2 → UInt64
  | 0 => prev.total
  | 1 => prev.count

/-- Without failures the polls are those of `fsyncRows` and `ioSchedRows`. -/
theorem rows_looked (prev : Snapshot) (stats : ArrayMap UInt64 8) :
    (fileFsyncStat.poll (kept prev) (looked stats)).2 = (fsyncRows prev stats).2 ∧
    (diskIoSched.poll (kept prev) (looked stats)).2 = (ioSchedRows prev stats).2 := by
  constructor
  · rfl
  · rfl

/-! ## One counter over a run -/

variable {n : Nat} {T : Differ n}

/-- The values counter `i` had at the polls of a run. -/
def values (i : Fin n) (l : List (Fin n → Lookup)) : List UInt64 := l.map fun a => (a i).value

/-- What its lookups returned. -/
def readings (i : Fin n) (l : List (Fin n → Lookup)) : List (Option Nat) :=
  l.map fun a => (a i).found.map UInt64.toNat

theorem toNat_cur (r : Lookup) : r.cur.toNat = (r.found.map UInt64.toNat).getD 0 := by
  unfold Lookup.cur
  cases r.found <;> rfl

theorem zeroed_readings (i : Fin n) (a : Fin n → Lookup) (l : List (Fin n → Lookup)) :
    zeroed (readings i (a :: l)) = (a i).cur.toNat :: zeroed (readings i l) := by
  rw [toNat_cur]; rfl

/-- What is read is among the values. -/
theorem readings_sublist (i : Fin n) (l : List (Fin n → Lookup)) :
    (readings i l).reduceOption.Sublist ((values i l).map UInt64.toNat) := by
  induction l with
  | nil => exact .slnil
  | cons a l ih =>
    show (((a i).found.map UInt64.toNat) :: readings i l).reduceOption.Sublist
      ((a i).value.toNat :: (values i l).map UInt64.toNat)
    unfold Lookup.found
    split
    · exact ih.cons_cons _
    · exact ih.cons _

theorem readings_sorted {i : Fin n} {l : List (Fin n → Lookup)}
    (h : (values i l).Pairwise (· ≤ ·)) : (readings i l).reduceOption.Pairwise (· ≤ ·) :=
  (h.map UInt64.toNat fun _ _ => UInt64.le_iff_toNat_le.mp).sublist (readings_sublist i l)

/-! ## The rows of a counter -/

/-- Totals stand at even places and are printed in microseconds, counts at odd ones. -/
def rowUnit (i : Fin n) : ℚ := if i.val % 2 = 0 then 1 / 1000 else 1

/-- The row of counter `i` carries its difference. -/
def Carries (T : Differ n) (key : Fin n → Key) : Prop :=
  ∀ d i, valuesAt (key i) (T.rows d) = [(d i).toNat * rowUnit i]

/-- What a run prints under the label of a counter is what it reports of it. -/
theorem valuesAt_reports {key : Fin n → Key} (hk : Carries T key) (i : Fin n)
    (prev : Fin n → UInt64) (l : List (Fin n → Lookup)) :
    valuesAt (key i) (T.sampler.rowsFrom prev l) =
      (T.reports i prev l).map fun m : Nat => (m : ℚ) * rowUnit i := by
  induction l generalizing prev with
  | nil => rfl
  | cons a l ih =>
    rw [Sampler.rowsFrom, valuesAt_append, Differ.reports, List.map_cons]
    exact congrArg₂ (· ++ ·) (hk (T.deltas prev a) i) (ih _)

theorem value_micros (m : UInt64) :
    (fixed3 (m.toNat / 1000)).value = m.toNat * (1 / 1000) := by
  rw [fixed3_thousandths, Numeral.value]; ring

theorem value_llu (m : Nat) : (Numeral.llu m).value = m := rfl

theorem carries_delayRows {T : Differ 4} {key : Fin 4 → Key} (hk : Function.Injective key)
    (hT : T.rows = delayRows key) : Carries T key := by
  intro d i
  rw [hT]
  fin_cases i <;> simp [valuesAt, delayRows, rowUnit, hk.eq_iff, value_micros, value_llu]

theorem carries_averagedRows {T : Differ 2} {key : Fin 2 → Key} {avg : Key}
    (hk : Function.Injective key) (ha : ∀ i, avg ≠ key i)
    (hT : T.rows = averagedRows key avg) : Carries T key := by
  intro d i
  have havg : ∀ q : Numeral, valuesAt (key i) (if d 1 > 0 then [⟨avg, q⟩] else []) = [] := fun q => by
    split
    · simp [valuesAt, ha i]
    · rfl
  rw [hT]
  unfold averagedRows
  rw [valuesAt_append, havg, List.append_nil]
  fin_cases i <;> simp [valuesAt, rowUnit, hk.eq_iff, value_micros, value_llu]

/-- The loaders that print a row for every counter in every poll. -/
theorem rows_carry : Carries diskReadDelay diskReadKey ∧ Carries diskWriteDelay diskWriteKey ∧
    Carries fileFsyncStat fsyncKey ∧ Carries diskIoSched ioSchedKey := by
  have hread : Function.Injective diskReadKey := by decide
  have hwrite : Function.Injective diskWriteKey := by decide
  have hfsync : Function.Injective fsyncKey := by decide
  have hsched : Function.Injective ioSchedKey := by decide
  exact ⟨carries_delayRows hread rfl, carries_delayRows hwrite rfl,
    carries_averagedRows hfsync (by decide) rfl, carries_averagedRows hsched (by decide) rfl⟩

/-! ## Guarded differences -/

theorem toNat_delta (cur prev : UInt64) : (delta cur prev).toNat = cur.toNat - prev.toNat := by
  unfold delta
  split
  · rename_i h
    exact UInt64.toNat_sub_of_le _ _ (UInt64.le_of_lt h)
  · rename_i h
    exact (Nat.sub_eq_zero_of_le (UInt64.le_iff_toNat_le.mp (UInt64.not_lt.mp h))).symm

/-- The loader keeps what it read, 0 for a failed read. -/
theorem reports_guarded (hT : T.diff = delta) (i : Fin n) (prev : Fin n → UInt64)
    (l : List (Fin n → Lookup)) :
    T.reports i prev l = growth (prev i).toNat (zeroed (readings i l)) := by
  induction l generalizing prev with
  | nil => rfl
  | cons a l ih =>
    rw [Differ.reports, zeroed_readings, growth, ih, Differ.deltas, hT, toNat_delta]; rfl

/-- Counter `i` is reported as if the failed reads were not there, and the reports add up
to at most the last value that was read. -/
structure Honest (T : Differ n) (i : Fin n) (l : List (Fin n → Lookup)) : Prop where
  passedOver : T.reports i (fun _ => 0) l = held 0 (readings i l)
  sum_le : (T.reports i (fun _ => 0) l).sum ≤ (readings i l).reduceOption.getLastD 0

/-- **Failed reads, guarded.** Over any polls and any failures, each counter of the
three loaders is reported as if the failed reads were not there, and by no more than
the last value read, exactly when no failed read stands between a value that is not 0
and a later one. -/
theorem guarded_iff (hT : Guarded T) (i : Fin n) (l : List (Fin n → Lookup))
    (h : (values i l).Pairwise (· ≤ ·)) : Honest T i l ↔ Unbroken (readings i l) := by
  have hs := readings_sorted h
  have hr : T.reports i (fun _ => 0) l = growth 0 (zeroed (readings i l)) :=
    reports_guarded hT.diff_eq i (fun _ => 0) l
  constructor
  · intro hH
    rw [← growth_zeroed_eq_held_iff hs, ← hr]
    exact hH.passedOver
  · intro hU
    refine ⟨?_, ?_⟩
    · rw [hr]; exact (growth_zeroed_eq_held_iff hs).mpr hU
    · rw [hr]; exact (sum_growth_zeroed_le_iff hs).mpr hU

/-- Every counter of a loader at `v`, the lookups as `ok`. -/
def all (v : UInt64) (ok : Bool) : Fin n → Lookup := fun _ => ⟨v, ok⟩

/-- A failure before anything was counted. -/
theorem guarded_early :
    Honest diskReadDelay 0 [all 0 true, all 3 false, all 7 true] ∧
    Honest diskWriteDelay 3 [all 0 true, all 3 false, all 7 true] ∧
    Honest fileFsyncStat 1 [all 0 true, all 3 false, all 7 true] := by
  have hU : Unbroken [some 0, none, some 7] := by
    intro v w hv
    have heq := hv.eq_of_length rfl
    simpa using congrArg List.head? heq
  exact ⟨(guarded_iff .read 0 _ (by decide)).mpr hU, (guarded_iff .write 3 _ (by decide)).mpr hU,
    (guarded_iff .fsync 1 _ (by decide)).mpr hU⟩

/-- **Counterexample.** The counters stand at 5 throughout; the second of three polls
fails. The third reports the 5 once more. -/
theorem guarded_again :
    diskReadDelay.reports 0 (fun _ => 0) [all 5 true, all 5 false, all 5 true] = [5, 0, 5] ∧
    diskWriteDelay.reports 0 (fun _ => 0) [all 5 true, all 5 false, all 5 true] = [5, 0, 5] ∧
    fileFsyncStat.reports 0 (fun _ => 0) [all 5 true, all 5 false, all 5 true] = [5, 0, 5] ∧
    ¬ Honest diskReadDelay 0 [all 5 true, all 5 false, all 5 true] := by
  refine ⟨by decide, by decide, by decide, fun h => ?_⟩
  have := h.sum_le
  revert this
  decide

/-! ## Differences as they come -/

/-- The difference of counter `i` does not go below zero and is no more than the counter
has grown to, from 0. -/
def InRange (T : Differ n) (i : Fin n) (prev : Fin n → UInt64) (a : Fin n → Lookup) : Prop :=
  prev i ≤ (a i).cur ∧ T.deltas prev a i ≤ (a i).value

instance (T : Differ n) (i : Fin n) (prev : Fin n → UInt64) (a : Fin n → Lookup) :
    Decidable (InRange T i prev a) := inferInstanceAs (Decidable (_ ∧ _))

theorem cur_le_value (r : Lookup) : r.cur ≤ r.value := by
  unfold Lookup.cur Lookup.found
  split
  · exact UInt64.le_refl _
  · exact UInt64.zero_le

theorem inRange_iff (hT : T.diff = (· - ·)) (i : Fin n) (prev : Fin n → UInt64)
    (a : Fin n → Lookup) : InRange T i prev a ↔ (prev i).toNat ≤ (a i).cur.toNat := by
  unfold InRange Differ.deltas
  rw [hT, ← UInt64.le_iff_toNat_le]
  refine and_iff_left_of_imp fun h => ?_
  -- the rest of what was read, which is no more than the value
  have hsub : ((a i).cur - prev i).toNat = (a i).cur.toNat - (prev i).toNat :=
    UInt64.toNat_sub_of_le _ _ h
  have hle := UInt64.le_iff_toNat_le.mp (cur_le_value (a i))
  rw [UInt64.le_iff_toNat_le]
  show ((a i).cur - prev i).toNat ≤ (a i).value.toNat
  rw [hsub]
  exact (Nat.sub_le _ _).trans hle

theorem along_inRange_iff (hT : T.diff = (· - ·)) (i : Fin n) (prev : Fin n → UInt64)
    (l : List (Fin n → Lookup)) : Along T.step (InRange T i) prev l ↔
      ((prev i).toNat :: zeroed (readings i l)).IsChain (· ≤ ·) := by
  induction l generalizing prev with
  | nil => exact iff_of_true trivial (.singleton _)
  | cons a l ih =>
    rw [along_cons (show T.step prev a = some (T.poll prev a).1 from rfl), zeroed_readings,
      List.isChain_cons_cons, inRange_iff hT, ih]
    rfl

/-- **Failed reads, unguarded.** Over any polls and any failures, no difference of a
counter of the three loaders goes below zero or exceeds the counter exactly when no
failed read comes right after a value that is not 0. -/
theorem unguarded_iff (hT : Unguarded T) (i : Fin n) (l : List (Fin n → Lookup))
    (h : (values i l).Pairwise (· ≤ ·)) :
    Along T.step (InRange T i) (fun _ => 0) l ↔ NoDrop (readings i l) := by
  rw [along_inRange_iff hT.diff_eq]
  exact rising_iff (readings_sorted h)

/-- A failure before anything was counted. -/
theorem unguarded_early :
    Along diskIoSched.step (InRange diskIoSched 0) (fun _ => 0) [all 0 true, all 3 false, all 7 true] ∧
    Along diskIoSize.step (InRange diskIoSize 5) (fun _ => 0) [all 0 true, all 3 false, all 7 true] ∧
    Along netUdpStat.step (InRange netUdpStat 2) (fun _ => 0)
      [all 0 true, all 3 false, all 7 true] := by
  have hN : NoDrop [some 0, none, some 7] := by
    intro v hv
    simpa [List.infix_cons_iff, List.cons_prefix_cons] using hv
  exact ⟨(unguarded_iff .sched 0 _ (by decide)).mpr hN,
    (unguarded_iff .size 5 _ (by decide)).mpr hN, (unguarded_iff .udp 2 _ (by decide)).mpr hN⟩

/-- **Counterexample.** The counters stand at 5; the second of two polls fails and takes
5 from 0. -/
theorem unguarded_wraps :
    diskIoSched.reports 0 (fun _ => 0) [all 5 true, all 5 false] = [5, 2 ^ 64 - 5] ∧
    diskIoSize.reports 0 (fun _ => 0) [all 5 true, all 5 false] = [5, 2 ^ 64 - 5] ∧
    netUdpStat.reports 0 (fun _ => 0) [all 5 true, all 5 false] = [5, 2 ^ 64 - 5] ∧
    ¬ Along diskIoSched.step (InRange diskIoSched 0) (fun _ => 0) [all 5 true, all 5 false] :=
  ⟨by decide, by decide, by decide, by decide⟩

end FailedReads
end EbpfDemo.L5Concurrency
