import EbpfDemo.L1Encoding.Report
import EbpfDemo.L2Kernel.FileFsyncStat
import EbpfDemo.L3Loader.MmapPoll

/-!
# What a poll prints

The rows of one poll of the loaders that print running totals, averages and
levels. `file_fsync_stat` and `disk_io_sched` print a total, a count and their
quotient from the differences to the previous poll; they differ in how they
take a difference. The walks of `write_stat`, `file_fsync_stat` and
`cpu_run_delay` are `Drain` loops that clear nothing: `poll_keeps` says that such
a loop ends, leaves the map as it is and has shown what lies behind its start
key, all of the map when that key is not in it.
-/
namespace EbpfDemo.L3Loader

open EbpfDemo.Core EbpfDemo.L1Encoding
open L2Kernel

/-! ## Walks that clear nothing -/

section
variable {K V : Type} [DecidableEq K] {d : Drain K V}

/-- A loop that shows everything and leaves the map alone. -/
structure Drain.Keeps (d : Drain K V) : Prop where
  clear : ∀ m k, d.clear m k = m
  shown : ∀ v, d.shown v = true

/-- The entries behind the start key, all of them when it is not in the map. -/
def Drain.walked (d : Drain K V) (m : HashMap K V) : List (K × V) :=
  match d.start with
  | none => m.elems
  | some k => if k ∈ m.keys then (m.elems.dropWhile fun e => e.1 ≠ k).tail else m.elems

theorem Drain.walked_suffix (d : Drain K V) (m : HashMap K V) : d.walked m <:+ m.elems := by
  unfold Drain.walked
  split
  · exact List.suffix_rfl
  · split
    · exact (List.tail_suffix _).trans (List.dropWhile_suffix _)
    · exact List.suffix_rfl

theorem Drain.lookup_walked {m : HashMap K V} {e : K × V} (h : e ∈ d.walked m) :
    m.lookupElem e.1 = some e.2 :=
  HashMap.lookupElem_iff_mem.mpr ((d.walked_suffix m).subset h)

theorem Drain.nodup_walked (d : Drain K V) (m : HashMap K V) : (Assoc.keys (d.walked m)).Nodup :=
  m.nodup.sublist ((d.walked_suffix m).sublist.map _)

theorem Drain.length_walked (d : Drain K V) (m : HashMap K V) : (d.walked m).length ≤ m.size :=
  (d.walked_suffix m).length_le

theorem before_begin (d : Drain K V) (m : HashMap K V) :
    Before (begin d m) (Assoc.keys (d.walked m)) := by
  show ∃ A, m.keys = A ++ Assoc.keys (d.walked m) ∧ (A = [] ∧ (∀ k, d.start = some k → k ∉ m.keys) ∨
    ∃ A' c, A = A' ++ [c] ∧ d.start = some c)
  unfold Drain.walked
  cases d.start with
  | none => exact ⟨[], rfl, .inl ⟨rfl, fun k h => by cases h⟩⟩
  | some k =>
    dsimp only
    by_cases hk : k ∈ m.keys
    · rw [if_pos hk]
      obtain ⟨v, hv⟩ := HashMap.exists_lookup hk
      obtain ⟨A, B, hAB, hA⟩ : ∃ A B, m.elems = A ++ (k, v) :: B ∧ ∀ e ∈ A, e.1 ≠ k := by
        obtain ⟨A, B, hAB⟩ := List.append_of_mem (HashMap.lookupElem_iff_mem.mp hv)
        refine ⟨A, B, hAB, fun e he hke => ?_⟩
        have hn := m.nodup
        rw [hAB, Assoc.keys_append, Assoc.keys_cons] at hn
        exact (List.nodup_append.mp hn).2.2 k (hke ▸ Assoc.mem_keys_of_mem he) k
          List.mem_cons_self rfl
      have hdrop : (m.elems.dropWhile fun e => e.1 ≠ k).tail = B := by
        rw [hAB, List.dropWhile_append_of_pos fun e he => by simpa using hA e he,
          List.dropWhile_cons]
        simp
      refine ⟨Assoc.keys A ++ [k], ?_, .inr ⟨Assoc.keys A, k, rfl, rfl⟩⟩
      rw [hdrop, HashMap.keys, hAB, Assoc.keys_append, Assoc.keys_cons, List.append_assoc]; rfl
    · rw [if_neg hk]
      exact ⟨[], rfl, .inl ⟨rfl, fun k' h => by cases h; exact hk⟩⟩

/-- Induction on the entries ahead; the fuel left over does no harm. -/
theorem poll_keeps_from (hd : d.Keeps) (n : Nat) (B : List (K × V)) :
    ∀ s : DState K V, s.pc = .next → Before s (Assoc.keys B) →
      (∀ e ∈ B, s.map.lookupElem e.1 = some e.2) →
      ∃ t, poll d (3 * B.length + 1 + n) s = some t ∧ t.map = s.map ∧ t.seen = s.seen ++ B := by
  induction B with
  | nil =>
    intro s hpc hB _
    refine ⟨{ s with pc := .idle }, ?_, rfl, (List.append_nil _).symm⟩
    rw [show 3 * ([] : List (K × V)).length + 1 + n = n + 1 by rw [List.length_nil]; omega]
    exact poll_end n hpc hB.next
  | cons e B ih =>
    intro s hpc hB hv
    have he := hv e List.mem_cons_self
    have hmap : (afterTurn d s e.1 e.2).map = s.map := hd.clear s.map e.1
    have hB' : Before (afterTurn d s e.1 e.2) (Assoc.keys B) := by
      obtain ⟨A, hk, -⟩ := hB
      refine ⟨A ++ [e.1], ?_, .inr ⟨A, e.1, rfl, rfl⟩⟩
      rw [hmap, hk, List.append_assoc]; rfl
    obtain ⟨t, ht, htm, hts⟩ := ih (afterTurn d s e.1 e.2) rfl hB' fun x hx => by
      rw [hmap]; exact hv x (List.mem_cons_of_mem _ hx)
    refine ⟨t, ?_, htm.trans hmap, ?_⟩
    · rw [show 3 * (e :: B).length + 1 + n = 3 * B.length + 1 + n + 3 by
        rw [List.length_cons]; omega, poll_turn _ hpc hB.next he]
      exact ht
    · rw [hts]
      simp only [afterTurn, hd.shown, if_true, List.append_assoc, List.singleton_append]

/-- The loop alone ends, leaves the map as it is and has shown what lies behind
its start key. -/
theorem poll_keeps (hd : d.Keeps) (m : HashMap K V) :
    ∃ t, poll d (3 * m.size + 1) (begin d m) = some t ∧ t.map = m ∧ t.seen = d.walked m := by
  have hle := d.length_walked m
  obtain ⟨t, ht, hm, hs⟩ := poll_keeps_from hd (3 * (m.size - (d.walked m).length)) (d.walked m)
    (begin d m) rfl (before_begin d m) fun e => Drain.lookup_walked
  rw [show 3 * (d.walked m).length + 1 + 3 * (m.size - (d.walked m).length) = 3 * m.size + 1 by
    omega] at ht
  exact ⟨t, ht, hm, hs⟩

/-- What a poll of the loop alone shows. -/
def Drain.shows (d : Drain K V) (m : HashMap K V) : Option (List (K × V)) :=
  (poll d (3 * m.size + 1) (begin d m)).map DState.seen

theorem Drain.Keeps.shows (hd : d.Keeps) (m : HashMap K V) : d.shows m = some (d.walked m) := by
  obtain ⟨t, ht, -, hs⟩ := poll_keeps hd m
  rw [Drain.shows, ht, Option.map_some, hs]

end

/-- mirrors src/my_tools/file/write_stat.c:34-42 -/
def writeStat : Drain UInt32 UInt64 where
  start := some 0
  shown _ := true
  clear m _ := m

/-- mirrors src/my_tools/file/file_fsync_stat.c:71-80 -/
def fileFsyncStat : Drain UInt32 UInt64 where
  start := some 0
  shown _ := true
  clear m _ := m

/-- mirrors src/my_tools/cpu/cpu_run_delay.c:48-59 -/
def cpuRunDelay : Drain UInt32 UInt64 where
  start := some 0
  shown _ := true
  clear m _ := m

theorem writeStat_keeps : writeStat.Keeps := ⟨fun _ _ => rfl, fun _ => rfl⟩

theorem fileFsyncStat_keeps : fileFsyncStat.Keeps := ⟨fun _ _ => rfl, fun _ => rfl⟩

theorem cpuRunDelay_keeps : cpuRunDelay.Keeps := ⟨fun _ _ => rfl, fun _ => rfl⟩

/-! ## Rows with a PID or a CPU in the label -/

theorem pid_lt (pid : UInt32) : pid.toNat < 2 ^ 64 :=
  pid.toNat_lt.trans (by decide)

def writeCallsKey (pid : UInt32) : Key :=
  .numbered (str "write_calls_pid_") [] pid.toNat ⟨by decide, by decide, by decide,
    pid_lt pid⟩

/-- mirrors src/my_tools/file/write_stat.c:40 -/
def writeRow (pid : UInt32) (value : UInt64) : Row := ⟨writeCallsKey pid, .llu value.toNat⟩

def fsyncPidKey (pid : UInt32) : Key :=
  .numbered (str "fsync_pid_") (str "_total_us") pid.toNat ⟨by decide, by decide, by decide,
    pid_lt pid⟩

/-- mirrors src/my_tools/file/file_fsync_stat.c:78 -/
def fsyncPidRow (pid : UInt32) (latNs : UInt64) : Row :=
  ⟨fsyncPidKey pid, fixed3 (latNs.toNat / 1000)⟩

def freqKey (cpu : Fin 256) : Key :=
  .numbered (str "cpu_") (str "_freq_mhz") cpu.val ⟨by decide, by decide, by decide, by omega⟩

def runqKey (pid : UInt32) : Key :=
  .numbered (str "runq_delay_pid_") [] pid.toNat ⟨by decide, by decide, by decide,
    pid_lt pid⟩

/-! ## cpu_freq_stat -/

/-- mirrors src/my_tools/cpu/cpu_freq_stat.c:13-19 -/
structure FreqInfo where
  totalFreq : UInt64
  count : UInt64
  minFreq : UInt64
  maxFreq : UInt64
  curFreq : UInt64
  deriving DecidableEq

/-- mirrors src/my_tools/cpu/cpu_freq_stat.c:53-62 -/
def freqRow (m : ArrayMap FreqInfo 256) (cpu : Fin 256) : Option Row :=
  match m.lookupElem (UInt32.ofNat cpu.val) with
  | none => none
  | some info =>
    if info.curFreq > 0 then some ⟨freqKey cpu, fixed3 (info.curFreq.toNat / 1000)⟩ else none

/-- mirrors src/my_tools/cpu/cpu_freq_stat.c:52-63 -/
def freqRows (m : ArrayMap FreqInfo 256) : List Row := (List.finRange 256).filterMap (freqRow m)

/-! ## Totals, counts and their quotients -/

/-- `cur > prev ? cur - prev : 0` -/
def delta (cur prev : UInt64) : UInt64 := if cur > prev then cur - prev else 0

/-- The totals of the previous poll. -/
structure Snapshot where
  total : UInt64
  count : UInt64
  deriving DecidableEq

/-- The rows of a poll, from elements 0 and 1 of the statistics: the difference
of the totals, that of the counts and, if there is something to count, the
quotient. -/
def quotientRows (diff : UInt64 → UInt64 → UInt64) (total count avg : Key) (prev : Snapshot)
    (stats : ArrayMap UInt64 8) : Snapshot × List Row :=
  let cur : Snapshot := ⟨(stats.lookupElem 0).getD 0, (stats.lookupElem 1).getD 0⟩
  let dTotal := (diff cur.total prev.total).toNat
  let dCount := (diff cur.count prev.count).toNat
  (cur, [⟨total, fixed3 (dTotal / 1000)⟩, ⟨count, .llu dCount⟩] ++
    if dCount > 0 then [⟨avg, fixed3 (dTotal / 1000 / dCount)⟩] else [])

def fsyncTotalKey : Key := .named (str "fsync_total_us") (by decide)
def fsyncCountKey : Key := .named (str "fsync_count") (by decide)
def fsyncAvgKey : Key := .named (str "fsync_avg_us") (by decide)
def diskIoTotalKey : Key := .named (str "disk_io_total_us") (by decide)
def diskIoCountKey : Key := .named (str "disk_io_count") (by decide)
def diskIoAvgKey : Key := .named (str "disk_io_avg_us") (by decide)

/-- mirrors src/my_tools/file/file_fsync_stat.c:45-68 -/
def fsyncRows (prev : Snapshot) (stats : ArrayMap UInt64 8) : Snapshot × List Row :=
  quotientRows delta fsyncTotalKey fsyncCountKey fsyncAvgKey prev stats

/-- mirrors src/my_tools/disk/disk_io_sched.c:45-69 -/
def ioSchedRows (prev : Snapshot) (stats : ArrayMap UInt64 8) : Snapshot × List Row :=
  quotientRows (· - ·) diskIoTotalKey diskIoCountKey diskIoAvgKey prev stats

/-! ## cpu_run_delay -/

/-- mirrors src/my_tools/cpu/cpu_run_delay.c:12 -/
def MAX_PIDS : UInt32 := 65536

/-- `prev_delay`, `prev_count`
mirrors src/my_tools/cpu/cpu_run_delay.c:14-15 -/
structure RunqPrev where
  delay : UInt32 → UInt64
  count : UInt32 → UInt64

/-- One entry of the walk, with what the two lookups returned.
mirrors src/my_tools/cpu/cpu_run_delay.c:52-79 -/
def runqEntry (prev : RunqPrev) (pid : UInt32) (totalNs totalCount : Option UInt64) :
    RunqPrev × List Row :=
  match totalNs with
  | none => (prev, [])
  | some totalNs =>
    if pid < MAX_PIDS then
      let totalCount := totalCount.getD 0
      let deltaDelay := delta totalNs (prev.delay pid)
      let deltaCount := delta totalCount (prev.count pid)
      (⟨Function.update prev.delay pid totalNs, Function.update prev.count pid totalCount⟩,
        if deltaCount > 0 then [⟨runqKey pid, .llu (deltaDelay / deltaCount / 1000).toNat⟩] else [])
    else (prev, [])

end EbpfDemo.L3Loader
