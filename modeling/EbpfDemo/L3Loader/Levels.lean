import EbpfDemo.L3Loader.Reports

/-!
# Levels and averages that the client adds up

Some rows carry no amount but a level (`cpu_<n>_freq_mhz`) or an average
(`disk_io_avg_us`, `fsync_avg_us`, `runq_delay_pid_<p>`), one value per poll. The
client adds them up like all others. A `Sampler` is a loader seen from its
samples: what the maps hold at each poll. A poll prints at most one value under
such a key; `Shows` says, for each of the four, for which samples that value is
not zero.

`level_iff`: what the client reports lies between the smallest and the largest
printed value exactly when at most one poll of the run shows something.
`level_freq`: a CPU at 2000 MHz is reported at 4000 MHz after two polls.
-/
namespace EbpfDemo.L3Loader

open EbpfDemo.Core EbpfDemo.L1Encoding
open L2Kernel

/-- A loader: what it keeps between polls, and what a poll prints of a sample. -/
structure Sampler (St Sa : Type) where
  init : St
  poll : St → Sa → St × List Row

namespace Sampler

variable {St Sa : Type} (T : Sampler St Sa)

def rowsFrom : St → List Sa → List Row
  | _, [] => []
  | s, a :: l => (T.poll s a).2 ++ rowsFrom (T.poll s a).1 l

/-- All that is printed in a run. -/
def rows (l : List Sa) : List Row := T.rowsFrom T.init l

def hitsFrom (C : St → Sa → Prop) [∀ s a, Decidable (C s a)] : St → List Sa → Nat
  | _, [] => 0
  | s, a :: l => (if C s a then 1 else 0) + hitsFrom C (T.poll s a).1 l

/-- The number of polls that meet a condition. -/
def hits (C : St → Sa → Prop) [∀ s a, Decidable (C s a)] (l : List Sa) : Nat :=
  T.hitsFrom C T.init l

/-- What the client reports under `k` lies between the smallest and the largest
value that was printed under it. -/
def InRange (recLimit : Nat) (k : Key) (l : List Sa) : Prop :=
  ∀ v, reportedValue recLimit (printed (T.rows l)) k = some v → Between v (valuesAt k (T.rows l))

/-- A poll prints a value that is not zero under `k` exactly under `C`, and then
one. -/
def Shows (k : Key) (C : St → Sa → Prop) [∀ s a, Decidable (C s a)] : Prop :=
  ∀ s a, ((valuesAt k (T.poll s a).2).filter (0 < ·)).length = if C s a then 1 else 0

variable {T} {k : Key} {C : St → Sa → Prop} [∀ s a, Decidable (C s a)]

theorem length_positive (h : T.Shows k C) (s : St) (l : List Sa) :
    ((valuesAt k (T.rowsFrom s l)).filter (0 < ·)).length = T.hitsFrom C s l := by
  induction l generalizing s with
  | nil => rfl
  | cons a l ih =>
    rw [rowsFrom, valuesAt_append, List.filter_append, List.length_append, h, ih, hitsFrom]

/-- **One level.** -/
theorem inRange_iff (h : T.Shows k C) (recLimit : Nat) (l : List Sa) :
    T.InRange recLimit k l ↔ T.hits C l ≤ 1 := by
  have hlen := length_positive h T.init l
  unfold InRange
  rw [reportedValue_printed]
  by_cases hnil : valuesAt k (T.rows l) = []
  · rw [if_pos hnil]
    refine iff_of_true (fun v hv => by cases hv) ?_
    unfold rows at hnil
    rw [hits, ← hlen, hnil]; exact Nat.zero_le _
  · rw [if_neg hnil, hits, ← hlen]
    rw [← show T.rows l = T.rowsFrom T.init l from rfl, ← sum_between_iff valuesAt_nonneg hnil]
    exact ⟨fun h => h _ rfl, fun h v hv => by cases hv; exact h⟩

end Sampler

/-! ## cpu_freq_stat -/

/-- mirrors src/my_tools/cpu/cpu_freq_stat.c:49-65 -/
def freqSampler : Sampler Unit (ArrayMap FreqInfo 256) where
  init := ()
  poll _ m := ((), freqRows m)

/-- CPU `cpu` has a frequency. -/
def FreqShows (cpu : Fin 256) (_ : Unit) (m : ArrayMap FreqInfo 256) : Prop := 0 < m[cpu].curFreq

instance (cpu : Fin 256) (s : Unit) (m : ArrayMap FreqInfo 256) : Decidable (FreqShows cpu s m) :=
  inferInstanceAs (Decidable (_ < _))

theorem freqKey_inj {c d : Fin 256} (h : freqKey c = freqKey d) : c = d :=
  Fin.ext (numbered_inj (str "cpu_") (str "_freq_mhz") (congrArg Key.text h))

theorem freqRow_eq (m : ArrayMap FreqInfo 256) (cpu : Fin 256) :
    freqRow m cpu = if 0 < m[cpu].curFreq then
      some ⟨freqKey cpu, .f3 m[cpu].curFreq.toNat⟩ else none := by
  have hcpu : (UInt32.ofNat cpu.val).toNat = cpu.val := by
    rw [UInt32.toNat_ofNat']
    exact Nat.mod_eq_of_lt (cpu.isLt.trans (by decide))
  have hl : m.lookupElem (UInt32.ofNat cpu.val) = some m[cpu] := by
    unfold ArrayMap.lookupElem
    rw [hcpu]; exact Vector.getElem?_eq_getElem cpu.isLt
  unfold freqRow
  rw [hl]
  simp only [fixed3_thousandths]

/-- The rows of a list of CPUs hold at most one of `cpu`. -/
theorem valuesAt_freqRows (m : ArrayMap FreqInfo 256) (cpu : Fin 256) (l : List (Fin 256))
    (hn : l.Nodup) :
    valuesAt (freqKey cpu) (l.filterMap (freqRow m)) =
      if cpu ∈ l ∧ 0 < m[cpu].curFreq then [(m[cpu].curFreq.toNat : ℚ) / 1000] else [] := by
  induction l with
  | nil => simp [valuesAt]
  | cons c l ih =>
    rw [List.nodup_cons] at hn
    rw [List.filterMap_cons, freqRow_eq]
    have ih := ih hn.2
    by_cases hc : c = cpu
    · subst hc
      rw [if_neg fun h => hn.1 h.1] at ih
      by_cases hpos : 0 < m[c].curFreq
      · rw [if_pos hpos, if_pos ⟨List.mem_cons_self, hpos⟩]
        show valuesAt _ ([_] ++ _) = _
        rw [valuesAt_append, ih]
        simp [valuesAt, Numeral.value]
      · rw [if_neg hpos, if_neg fun h => hpos h.2]
        exact ih
    · have hmem : cpu ∈ c :: l ↔ cpu ∈ l := by
        rw [List.mem_cons]
        exact ⟨fun h => h.resolve_left fun e => hc e.symm, .inr⟩
      simp only [hmem]
      split
      · rename_i o ho
        exact ih
      · rename_i row ho
        show valuesAt _ ([row] ++ _) = _
        rw [valuesAt_append, ih]
        have hkey : row.key ≠ freqKey cpu := by
          intro h
          split at ho
          · cases ho; exact hc (freqKey_inj h)
          · cases ho
        simp [valuesAt, hkey]

theorem freq_shows (cpu : Fin 256) : freqSampler.Shows (freqKey cpu) (FreqShows cpu) := by
  intro s m
  show ((valuesAt _ ((List.finRange 256).filterMap (freqRow m))).filter _).length = _
  rw [valuesAt_freqRows m cpu _ (List.nodup_finRange 256)]
  by_cases h : FreqShows cpu s m
  · have hpos : (0 : ℚ) < (m[cpu].curFreq.toNat : ℚ) / 1000 := by
      have hlt : 0 < m[cpu].curFreq.toNat := UInt64.lt_iff_toNat_lt.mp h
      have h0 : (0 : ℚ) < m[cpu].curFreq.toNat := by exact_mod_cast hlt
      positivity
    rw [if_pos ⟨List.mem_finRange cpu, h⟩, if_pos h, List.filter_cons_of_pos (by simpa using hpos)]
    rfl
  · rw [if_neg fun h' => h h'.2, if_neg h]; rfl

/-! ## disk_io_sched and file_fsync_stat -/

/-- Something was counted, and the average does not round to zero. -/
def QuotientShows (diff : UInt64 → UInt64 → UInt64) (prev : Snapshot) (stats : ArrayMap UInt64 8) :
    Prop :=
  let dTotal := (diff ((stats.lookupElem 0).getD 0) prev.total).toNat
  let dCount := (diff ((stats.lookupElem 1).getD 0) prev.count).toNat
  0 < dCount ∧ dCount < 2 * dTotal

instance (diff : UInt64 → UInt64 → UInt64) (prev : Snapshot) (stats : ArrayMap UInt64 8) :
    Decidable (QuotientShows diff prev stats) := inferInstanceAs (Decidable (_ ∧ _))

/-- An average of less than half a nanosecond is printed as `0.000`. -/
theorem fixed3_pos_iff {n c : Nat} (hc : 0 < c) :
    0 < (fixed3 ((n : ℚ) / 1000 / c)).value ↔ c < 2 * n := by
  have hq : (n : ℚ) / 1000 / c * 1000 = (n : ℚ) / c := by
    rw [div_right_comm, div_mul_cancel₀ _ (by norm_num)]
  have hcq : (0 : ℚ) < c := by exact_mod_cast hc
  unfold fixed3
  rw [hq, Numeral.value]
  have h1 : (0 : ℚ) < ((Binary64.roundEven ((n : ℚ) / c)).toNat : ℚ) / 1000 ↔
      ¬ Binary64.roundEven ((n : ℚ) / c) ≤ 0 := by
    rw [div_pos_iff_of_pos_right (by norm_num), Nat.cast_pos, Int.pos_iff_toNat_pos.symm, not_le]
  rw [h1, Binary64.roundEven_le (n := 0) (by decide), Int.cast_zero, zero_add, not_le,
    lt_div_iff₀ hcq]
  constructor
  · intro h
    have : (c : ℚ) < 2 * n := by linarith only [h]
    exact_mod_cast this
  · intro h
    have : (c : ℚ) < 2 * n := by exact_mod_cast h
    linarith only [this]

/-- The one row under the third key. -/
theorem quotient_shows (diff : UInt64 → UInt64 → UInt64) {total count avg : Key}
    (h1 : total ≠ avg) (h2 : count ≠ avg) (prev : Snapshot) (stats : ArrayMap UInt64 8) :
    ((valuesAt avg (quotientRows diff total count avg prev stats).2).filter (0 < ·)).length =
      if QuotientShows diff prev stats then 1 else 0 := by
  unfold quotientRows
  dsimp only
  rw [valuesAt_append]
  have hfront : ∀ a b, valuesAt avg [⟨total, a⟩, ⟨count, b⟩] = [] := by
    intro a b
    simp [valuesAt, h1, h2]
  rw [hfront, List.nil_append]
  split
  · rename_i hc
    have hv : ∀ a, valuesAt avg [⟨avg, a⟩] = [a.value] := fun a => by simp [valuesAt]
    have hpos := fixed3_pos_iff
      (n := (diff ((stats.lookupElem 0).getD 0) prev.total).toNat) hc
    rw [hv]
    by_cases h : (diff ((stats.lookupElem 1).getD 0) prev.count).toNat <
        2 * (diff ((stats.lookupElem 0).getD 0) prev.total).toNat
    · rw [if_pos (show QuotientShows diff prev stats from ⟨hc, h⟩),
        List.filter_cons_of_pos (by simpa using hpos.mpr h)]; rfl
    · rw [if_neg fun h' : QuotientShows diff prev stats => h h'.2,
        List.filter_cons_of_neg (by simpa using not_lt.mp fun h' => h (hpos.mp h'))]; rfl
  · rename_i hc
    rw [if_neg fun h : QuotientShows diff prev stats => hc h.1]; rfl

/-- mirrors src/my_tools/disk/disk_io_sched.c:40-71 -/
def ioSchedSampler : Sampler Snapshot (ArrayMap UInt64 8) where
  init := ⟨0, 0⟩
  poll := ioSchedRows

theorem ioSched_shows : ioSchedSampler.Shows diskIoAvgKey (QuotientShows (· - ·)) :=
  quotient_shows (· - ·) (by decide) (by decide)

/-- mirrors src/my_tools/file/file_fsync_stat.c:40-83 -/
def fsyncSampler : Sampler Snapshot (ArrayMap UInt64 8 × HashMap UInt32 UInt64) where
  init := ⟨0, 0⟩
  poll prev a := ((fsyncRows prev a.1).1,
    (fsyncRows prev a.1).2 ++ ((fileFsyncStat.shows a.2).getD []).map fun e => fsyncPidRow e.1 e.2)

theorem fsyncPidKey_ne (p : UInt32) : fsyncPidKey p ≠ fsyncAvgKey := by
  intro h
  have hp : (fsyncPidKey p).text.take 7 = str "fsync_p" := by
    show (str "fsync_pid_" ++ decimal p.toNat ++ str "_total_us").take 7 = _
    rw [List.append_assoc, List.take_append_of_le_length (by decide)]; decide
  rw [h] at hp
  revert hp; decide

theorem fsync_shows : fsyncSampler.Shows fsyncAvgKey fun prev a => QuotientShows delta prev a.1 := by
  intro prev a
  have hpids : ∀ l : List (UInt32 × UInt64),
      valuesAt fsyncAvgKey (l.map fun e => fsyncPidRow e.1 e.2) = [] := by
    intro l
    unfold valuesAt
    rw [List.map_eq_nil_iff, List.filter_eq_nil_iff]
    intro r hr
    obtain ⟨e, -, rfl⟩ := List.mem_map.mp hr
    exact decide_eq_true_iff.not.mpr (fsyncPidKey_ne e.1)
  show ((valuesAt _ (_ ++ _)).filter _).length = _
  rw [valuesAt_append, hpids, List.append_nil]
  exact quotient_shows delta (by decide) (by decide) prev a.1

/-! ## cpu_run_delay -/

/-- mirrors src/my_tools/cpu/cpu_run_delay.c:48-80 -/
def runqWalk (count : HashMap UInt32 UInt64) : RunqPrev → List (UInt32 × UInt64) →
    RunqPrev × List Row
  | prev, [] => (prev, [])
  | prev, e :: l =>
    let r := runqEntry prev e.1 (some e.2) (count.lookupElem e.1)
    let t := runqWalk count r.1 l
    (t.1, r.2 ++ t.2)

/-- A sample is `run_delay` and `wakeup_count`.
mirrors src/my_tools/cpu/cpu_run_delay.c:45-82 -/
def runqSampler : Sampler RunqPrev (HashMap UInt32 UInt64 × HashMap UInt32 UInt64) where
  init := ⟨fun _ => 0, fun _ => 0⟩
  poll prev a := runqWalk a.2 prev ((cpuRunDelay.shows a.1).getD [])

/-- For an entry of `p`: something was counted, and the average is at least 1 us. -/
def RunqOwn (p : UInt32) (prev : RunqPrev) (totalCount : Option UInt64) (totalNs : UInt64) : Prop :=
  let deltaCount := (delta (totalCount.getD 0) (prev.count p)).toNat
  p < MAX_PIDS ∧ 0 < deltaCount ∧ 1000 * deltaCount ≤ (delta totalNs (prev.delay p)).toNat

instance (p : UInt32) (prev : RunqPrev) (c : Option UInt64) (t : UInt64) :
    Decidable (RunqOwn p prev c t) := inferInstanceAs (Decidable (_ ∧ _))

/-- The walk comes to `p`, and its average is not zero. -/
def RunqShows (p : UInt32) (prev : RunqPrev)
    (a : HashMap UInt32 UInt64 × HashMap UInt32 UInt64) : Prop :=
  ∃ totalNs ∈ Assoc.find p (cpuRunDelay.walked a.1), RunqOwn p prev (a.2.lookupElem p) totalNs

instance (p : UInt32) (prev : RunqPrev) (a : HashMap UInt32 UInt64 × HashMap UInt32 UInt64) :
    Decidable (RunqShows p prev a) :=
  inferInstanceAs (Decidable (∃ totalNs ∈ Assoc.find p (cpuRunDelay.walked a.1), _))

theorem runqKey_inj {p q : UInt32} (h : runqKey p = runqKey q) : p = q :=
  UInt32.toNat_inj.mp (numbered_inj (str "runq_delay_pid_") [] (congrArg Key.text h))

/-- An entry touches the values of its own PID only, and prints under its key. -/
theorem runqEntry_other {p q : UInt32} (hne : q ≠ p) (prev : RunqPrev) (o c : Option UInt64) :
    (runqEntry prev q o c).1.delay p = prev.delay p ∧ (runqEntry prev q o c).1.count p = prev.count p ∧
      valuesAt (runqKey p) (runqEntry prev q o c).2 = [] := by
  have hkey : runqKey q ≠ runqKey p := fun h => hne (runqKey_inj h)
  unfold runqEntry
  split
  · exact ⟨rfl, rfl, rfl⟩
  · split
    · refine ⟨Function.update_of_ne hne.symm _ _, Function.update_of_ne hne.symm _ _, ?_⟩
      dsimp only
      split
      · simp [valuesAt, hkey]
      · rfl
    · exact ⟨rfl, rfl, rfl⟩

/-- The entry of `p`. -/
theorem runqEntry_own (p : UInt32) (prev : RunqPrev) (totalNs : UInt64) (c : Option UInt64) :
    ((valuesAt (runqKey p) (runqEntry prev p (some totalNs) c).2).filter (0 < ·)).length =
      if RunqOwn p prev c totalNs then 1 else 0 := by
  unfold runqEntry
  dsimp only
  by_cases hp : p < MAX_PIDS
  · rw [if_pos hp]
    dsimp only
    by_cases hc : delta (c.getD 0) (prev.count p) > 0
    · have hc0 : 0 < (delta (c.getD 0) (prev.count p)).toNat := UInt64.lt_iff_toNat_lt.mp hc
      have hv : ∀ a, valuesAt (runqKey p) [⟨runqKey p, a⟩] = [a.value] := fun a => by simp [valuesAt]
      have hpos : 0 < (Numeral.llu (delta totalNs (prev.delay p) / delta (c.getD 0) (prev.count p) /
          1000).toNat).value ↔ 1000 * (delta (c.getD 0) (prev.count p)).toNat ≤
            (delta totalNs (prev.delay p)).toNat := by
        rw [Numeral.value, Nat.cast_pos, UInt64.toNat_div, UInt64.toNat_div,
          show (1000 : UInt64).toNat = 1000 from rfl, Nat.div_div_eq_div_mul, Nat.div_pos_iff,
          Nat.mul_comm]
        exact ⟨fun h => h.2, fun h => ⟨by omega, h⟩⟩
      rw [if_pos hc, hv]
      by_cases h : 1000 * (delta (c.getD 0) (prev.count p)).toNat ≤
          (delta totalNs (prev.delay p)).toNat
      · rw [if_pos (show RunqOwn p prev c totalNs from ⟨hp, hc0, h⟩),
          List.filter_cons_of_pos (by simpa using hpos.mpr h)]
        rfl
      · rw [if_neg fun h' : RunqOwn p prev c totalNs => h h'.2.2,
          List.filter_cons_of_neg (by simpa using not_lt.mp fun h' => h (hpos.mp h'))]; rfl
    · have hc0 : ¬ 0 < (delta (c.getD 0) (prev.count p)).toNat :=
        fun h => hc (UInt64.lt_iff_toNat_lt.mpr h)
      rw [if_neg hc, if_neg fun h : RunqOwn p prev c totalNs => hc0 h.2.1]; rfl
  · rw [if_neg hp, if_neg fun h : RunqOwn p prev c totalNs => hp h.1]; rfl

theorem runqWalk_absent (p : UInt32) (count : HashMap UInt32 UInt64) (l : List (UInt32 × UInt64))
    (hp : p ∉ Assoc.keys l) (prev : RunqPrev) :
    valuesAt (runqKey p) (runqWalk count prev l).2 = [] := by
  induction l generalizing prev with
  | nil => rfl
  | cons e l ih =>
    rw [Assoc.keys_cons, List.mem_cons, not_or] at hp
    rw [runqWalk, valuesAt_append, (runqEntry_other (fun h => hp.1 h.symm) prev _ _).2.2, ih hp.2]
    rfl

/-- The values of a PID in a walk: those of its one entry. -/
theorem runqWalk_shows (p : UInt32) (count : HashMap UInt32 UInt64) (l : List (UInt32 × UInt64))
    (hn : (Assoc.keys l).Nodup) (prev : RunqPrev) :
    ((valuesAt (runqKey p) (runqWalk count prev l).2).filter (0 < ·)).length =
      if ∃ totalNs ∈ Assoc.find p l, RunqOwn p prev (count.lookupElem p) totalNs then 1 else 0 := by
  induction l generalizing prev with
  | nil => simp [runqWalk, valuesAt, Assoc.find]
  | cons e l ih =>
    rw [Assoc.keys_cons, List.nodup_cons] at hn
    rw [runqWalk, valuesAt_append]
    by_cases he : e.1 = p
    · subst he
      rw [runqWalk_absent e.1 count l hn.1, List.append_nil, runqEntry_own]
      simp only [Assoc.find, if_true, Option.mem_def, Option.some.injEq, exists_eq_left']
    · obtain ⟨hd, hc, hv⟩ := runqEntry_other he prev (some e.2) (count.lookupElem e.1)
      rw [hv, List.nil_append, ih hn.2]
      unfold RunqOwn
      simp only [Assoc.find, if_neg he, hd, hc]

theorem runq_shows (p : UInt32) : runqSampler.Shows (runqKey p) (RunqShows p) := by
  intro prev a
  show ((valuesAt _ (runqWalk a.2 prev ((cpuRunDelay.shows a.1).getD [])).2).filter _).length = _
  rw [cpuRunDelay_keeps.shows]
  exact runqWalk_shows p a.2 _ (cpuRunDelay.nodup_walked a.1) prev

/-- **Levels.** Over any run of the four tools the client reports a frequency or
an average between the smallest and the largest printed one exactly when at
most one poll prints one that is not zero. -/
theorem level_iff (recLimit : Nat) :
    (∀ cpu ms, freqSampler.InRange recLimit (freqKey cpu) ms ↔
      freqSampler.hits (FreqShows cpu) ms ≤ 1) ∧
    (∀ ss, ioSchedSampler.InRange recLimit diskIoAvgKey ss ↔
      ioSchedSampler.hits (QuotientShows (· - ·)) ss ≤ 1) ∧
    (∀ ss, fsyncSampler.InRange recLimit fsyncAvgKey ss ↔
      fsyncSampler.hits (fun prev a => QuotientShows delta prev a.1) ss ≤ 1) ∧
    ∀ p ss, runqSampler.InRange recLimit (runqKey p) ss ↔
      runqSampler.hits (RunqShows p) ss ≤ 1 :=
  ⟨fun cpu ms => Sampler.inRange_iff (freq_shows cpu) recLimit ms,
    fun ss => Sampler.inRange_iff ioSched_shows recLimit ss,
    fun ss => Sampler.inRange_iff fsync_shows recLimit ss,
    fun p ss => Sampler.inRange_iff (runq_shows p) recLimit ss⟩

/-- CPU 0 at 2,000,000 kHz. -/
def cpu0At2GHz : ArrayMap FreqInfo 256 :=
  (Vector.replicate 256 (⟨0, 0, 0, 0, 0⟩ : FreqInfo)).set 0 ⟨2000000, 1, 2000000, 2000000, 2000000⟩

/-- **Counterexample.** CPU 0 runs at 2000 MHz throughout. After two polls the
client reports 4000 MHz. -/
theorem level_freq :
    valuesAt (freqKey 0) (freqSampler.rows [cpu0At2GHz, cpu0At2GHz]) = [2000, 2000] ∧
    reportedValue 1000 (printed (freqSampler.rows [cpu0At2GHz, cpu0At2GHz])) (freqKey 0) =
      some 4000 ∧
    ¬ freqSampler.InRange 1000 (freqKey 0) [cpu0At2GHz, cpu0At2GHz] := by
  have hcur : cpu0At2GHz[(0 : Fin 256)].curFreq = 2000000 := by simp [cpu0At2GHz]
  have hone : valuesAt (freqKey 0) (freqRows cpu0At2GHz) = [2000] := by
    show valuesAt _ ((List.finRange 256).filterMap (freqRow cpu0At2GHz)) = _
    rw [valuesAt_freqRows _ 0 _ (List.nodup_finRange 256),
      if_pos ⟨List.mem_finRange 0, by rw [hcur]; decide⟩, hcur,
      show (2000000 : UInt64).toNat = 2000000 from rfl]
    norm_num
  have hv : valuesAt (freqKey 0) (freqSampler.rows [cpu0At2GHz, cpu0At2GHz]) = [2000, 2000] := by
    show valuesAt _ (freqRows cpu0At2GHz ++ (freqRows cpu0At2GHz ++ [])) = _
    rw [valuesAt_append, valuesAt_append, hone]; rfl
  have hr : reportedValue 1000 (printed (freqSampler.rows [cpu0At2GHz, cpu0At2GHz])) (freqKey 0) =
      some 4000 := by
    rw [reportedValue_printed, hv, if_neg (List.cons_ne_nil _ _)]
    norm_num
  refine ⟨hv, hr, fun h => ?_⟩
  obtain ⟨-, v, hmem, hle⟩ := h _ hr
  rw [hv] at hmem
  have : v = 2000 := by simpa using hmem
  rw [this] at hle
  norm_num at hle

end EbpfDemo.L3Loader
