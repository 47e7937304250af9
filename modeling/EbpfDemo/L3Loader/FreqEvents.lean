import Mathlib.Algebra.Order.BigOperators.Group.List
import Mathlib.Order.Bounds.Basic
import EbpfDemo.L3Loader.Levels

/-!
# cpu_freq_stat: from the frequency changes to the printed level

`handle_cpu_frequency` keeps five figures per CPU in an array map. It has a branch for
the first event of a CPU, which no event takes: in an array map every lookup below its
size finds an element, all zero before the first event. So the smallest frequency starts
from 0 and stays there, while sum, number, largest and latest are those of the events
(`entry_run`).

* `freq_stats_iff`: the entry of a CPU holds the statistics of its events exactly when
  one of them has the frequency 0 and their number does not wrap;
* `freqRow_run`: the loader prints the latest frequency;
* `freq_min_zero`: one change to 2 GHz, and a minimum of 0.
-/
namespace EbpfDemo.L3Loader

open EbpfDemo.Core EbpfDemo.L1Encoding

/-- mirrors src/my_tools/cpu/cpu_freq_stat.bpf.c:16-20 -/
structure CpuFrequencyArgs where
  state : UInt32
  cpuId : UInt32

namespace FreqEvents

/-- mirrors src/my_tools/cpu/cpu_freq_stat.bpf.c:6 -/
def MAX_CPUS : UInt32 := 256

/-- mirrors src/my_tools/cpu/cpu_freq_stat.bpf.c:40-44 -/
def newInfo (freq : UInt64) : FreqInfo := ⟨freq, 1, freq, freq, freq⟩

/-- mirrors src/my_tools/cpu/cpu_freq_stat.bpf.c:47-53 -/
def add (freq : UInt64) (info : FreqInfo) : FreqInfo where
  totalFreq := info.totalFreq + freq
  count := info.count + 1
  minFreq := if freq < info.minFreq then freq else info.minFreq
  maxFreq := if freq > info.maxFreq then freq else info.maxFreq
  curFreq := freq

/-- mirrors src/my_tools/cpu/cpu_freq_stat.bpf.c:29-56 -/
def handleCpuFrequency (m : ArrayMap FreqInfo 256) (ctx : CpuFrequencyArgs) :
    ArrayMap FreqInfo 256 :=
  let cpu := ctx.cpuId
  let freq := ctx.state.toUInt64
  if cpu ≥ MAX_CPUS then m else m.bump cpu (add freq) (newInfo freq)

/-- `cpu_freq_map` as created.
mirrors src/my_tools/cpu/cpu_freq_stat.bpf.c:22-27 -/
def cpuFreqMap : ArrayMap FreqInfo 256 := Vector.replicate 256 ⟨0, 0, 0, 0, 0⟩

def run (es : List CpuFrequencyArgs) : ArrayMap FreqInfo 256 :=
  es.foldl handleCpuFrequency cpuFreqMap

theorem run_append (es : List CpuFrequencyArgs) (e : CpuFrequencyArgs) :
    run (es ++ [e]) = handleCpuFrequency (run es) e := List.foldl_append

def freqs (cpu : UInt32) (es : List CpuFrequencyArgs) : List Nat :=
  es.filterMap fun e => if e.cpuId = cpu then some e.state.toNat else none

/-- The figures are those of the frequencies. -/
structure Statistics (fs : List Nat) (info : FreqInfo) : Prop where
  total : info.totalFreq.toNat = fs.sum % 2 ^ 64
  count : info.count.toNat = fs.length
  min : IsLeast {f | f ∈ fs} info.minFreq.toNat
  max : IsGreatest {f | f ∈ fs} info.maxFreq.toNat
  cur : fs.getLast? = some info.curFreq.toNat

/-! ## What an event does -/

theorem lookup_handle (m : ArrayMap FreqInfo 256) (e : CpuFrequencyArgs) {cpu : UInt32}
    (h : cpu < MAX_CPUS) : (handleCpuFrequency m e).lookupElem cpu =
      if e.cpuId = cpu then (m.lookupElem cpu).map (add e.state.toUInt64) else m.lookupElem cpu := by
  unfold handleCpuFrequency
  dsimp only
  by_cases he : e.cpuId = cpu
  · rw [he, if_neg (UInt32.not_le.mpr h), ArrayMap.lookupElem_bump, if_pos rfl]
  · rw [if_neg he]
    split
    · rfl
    · rw [ArrayMap.lookupElem_bump, if_neg (Ne.symm he)]

/-- The figures of a map that starts from zeros: the extremes are those of the
frequencies and 0. -/
structure Figures (fs : List Nat) (info : FreqInfo) : Prop where
  total : info.totalFreq.toNat = fs.sum % 2 ^ 64
  count : info.count.toNat = fs.length % 2 ^ 64
  min : info.minFreq = 0
  max : IsGreatest {f | f ∈ 0 :: fs} info.maxFreq.toNat
  cur : info.curFreq.toNat = fs.getLastD 0

theorem figures_nil : Figures [] ⟨0, 0, 0, 0, 0⟩ :=
  ⟨rfl, rfl, rfl, ⟨List.mem_cons_self, fun _ hf => Nat.le_of_eq (List.mem_singleton.mp hf)⟩, rfl⟩

theorem toNat_maxFreq_add (freq : UInt64) (info : FreqInfo) :
    (add freq info).maxFreq.toNat = max info.maxFreq.toNat freq.toNat := by
  show (if freq > info.maxFreq then freq else info.maxFreq).toNat = _
  split
  · rename_i h
    rw [gt_iff_lt, UInt64.lt_iff_toNat_lt] at h
    omega
  · rename_i h
    rw [gt_iff_lt, UInt64.lt_iff_toNat_lt] at h
    omega

/-- **One event.** -/
theorem figures_add {fs : List Nat} {info : FreqInfo} (h : Figures fs info) (freq : UInt64) :
    Figures (fs ++ [freq.toNat]) (add freq info) := by
  refine ⟨?_, ?_, ?_, ?_, ?_⟩
  · show (info.totalFreq + freq).toNat = _
    rw [UInt64.toNat_add, h.total, List.sum_append, List.sum_singleton, Nat.mod_add_mod]
  · show (info.count + 1).toNat = _
    rw [UInt64.toNat_add, h.count, List.length_append, List.length_singleton]
    exact Nat.mod_add_mod _ _ _
  · show (if freq < info.minFreq then freq else info.minFreq) = 0
    rw [h.min]
    exact if_neg (UInt64.not_lt.mpr UInt64.zero_le)
  · have hset : {f | f ∈ 0 :: (fs ++ [freq.toNat])} = {f | f ∈ 0 :: fs} ∪ {freq.toNat} := by
      ext f
      simp only [Set.mem_ofPred_eq, Set.mem_union, Set.mem_singleton_iff, List.mem_cons,
        List.mem_append, List.not_mem_nil, or_false, or_assoc]
    rw [hset, toNat_maxFreq_add]
    exact h.max.union isGreatest_singleton
  · exact (List.getLastD_concat).symm

theorem freqs_append (cpu : UInt32) (es : List CpuFrequencyArgs) (e : CpuFrequencyArgs) :
    freqs cpu (es ++ [e]) = freqs cpu es ++ if e.cpuId = cpu then [e.state.toNat] else [] := by
  unfold freqs
  rw [List.filterMap_append]
  by_cases h : e.cpuId = cpu <;> simp [h]

/-- **Entries.** After any events the entry of a CPU has the figures of its own events. -/
theorem entry_run (es : List CpuFrequencyArgs) {cpu : UInt32} (h : cpu < MAX_CPUS) :
    ∃ info, (run es).lookupElem cpu = some info ∧ Figures (freqs cpu es) info := by
  induction es using List.reverseRecOn with
  | nil =>
    have hlt : cpu.toNat < 256 := UInt32.lt_iff_toNat_lt.mp h
    have h0 : cpuFreqMap.lookupElem cpu = some ⟨0, 0, 0, 0, 0⟩ :=
      (ArrayMap.lookupElem_of_lt cpuFreqMap hlt).trans (congrArg some (Vector.getElem_replicate hlt))
    exact ⟨_, h0, figures_nil⟩
  | append_singleton es e ih =>
    obtain ⟨info, hl, hf⟩ := ih
    rw [run_append, freqs_append, lookup_handle _ _ h, hl]
    by_cases he : e.cpuId = cpu
    · rw [if_pos he, if_pos he]
      refine ⟨_, rfl, ?_⟩
      have hadd := figures_add hf e.state.toUInt64
      rw [UInt32.toNat_toUInt64] at hadd
      exact hadd
    · rw [if_neg he, if_neg he, List.append_nil]
      exact ⟨info, rfl, hf⟩

theorem lookup_run_filter (es : List CpuFrequencyArgs) {cpu d : UInt32} (h : d < MAX_CPUS)
    (hd : d ≠ cpu) :
    (run es).lookupElem d = (run (es.filter fun e => e.cpuId ≠ cpu)).lookupElem d := by
  induction es using List.reverseRecOn with
  | nil => rfl
  | append_singleton es e ih =>
    rw [run_append, lookup_handle _ _ h, ih, List.filter_append]
    by_cases he : e.cpuId = cpu
    · rw [List.filter_cons_of_neg (by simpa using he), List.filter_nil, List.append_nil,
        if_neg fun h' => hd (h'.symm.trans he)]
    · rw [List.filter_cons_of_pos (by simpa using he), List.filter_nil, run_append,
        lookup_handle _ _ h]

/-! ## Statistics -/

theorem statistics_iff {fs : List Nat} {info : FreqInfo} (h : Figures fs info) (hne : fs ≠ []) :
    Statistics fs info ↔ 0 ∈ fs ∧ fs.length < 2 ^ 64 := by
  have hmin : info.minFreq.toNat = 0 := congrArg UInt64.toNat h.min
  constructor
  · intro hs
    refine ⟨?_, ?_⟩
    · have := hs.min.1
      rwa [hmin] at this
    · rw [← hs.count]
      exact info.count.toNat_lt
  · rintro ⟨h0, hlt⟩
    obtain ⟨hmem, hle⟩ := h.max
    refine ⟨h.total, h.count.trans (Nat.mod_eq_of_lt hlt), ?_, ⟨?_, fun f hf => ?_⟩, ?_⟩
    · rw [hmin]
      exact ⟨h0, fun f _ => Nat.zero_le f⟩
    · rcases List.mem_cons.mp hmem with hz | hmem
      · rw [hz]; exact h0
      · exact hmem
    · exact hle (List.mem_cons_of_mem 0 hf)
    · rw [h.cur, List.getLastD_eq_getLast?, List.getLast?_eq_some_getLast hne]
      rfl

/-- **Frequency statistics.** After any events, some of them of `cpu`, its entry holds
the statistics of these and the other entries are as without them, exactly when one of
its frequencies is 0 and their number is below 2^64. -/
theorem freq_stats_iff (es : List CpuFrequencyArgs) (cpu : UInt32) (hcpu : cpu < MAX_CPUS)
    (hne : freqs cpu es ≠ []) :
    ((∃ info, (run es).lookupElem cpu = some info ∧ Statistics (freqs cpu es) info) ∧
      ∀ d, d < MAX_CPUS → d ≠ cpu →
        (run es).lookupElem d = (run (es.filter fun e => e.cpuId ≠ cpu)).lookupElem d) ↔
      0 ∈ freqs cpu es ∧ (freqs cpu es).length < 2 ^ 64 := by
  obtain ⟨info, hl, hf⟩ := entry_run es hcpu
  rw [← statistics_iff hf hne, hl]
  constructor
  · rintro ⟨⟨i, hi, hs⟩, -⟩
    cases hi; exact hs
  · intro hs
    exact ⟨⟨info, rfl, hs⟩, fun d h hd => lookup_run_filter es h hd⟩

/-- CPU 1 is stopped and started between changes of CPU 0. -/
def restarted : List CpuFrequencyArgs := [⟨2000000, 0⟩, ⟨0, 1⟩, ⟨800000, 0⟩, ⟨1200000, 1⟩]

theorem freq_stats_restarted : ∃ info, (run restarted).lookupElem 1 = some info ∧
    Statistics [0, 1200000] info :=
  ((freq_stats_iff restarted 1 (by decide) (by decide)).mpr ⟨by decide, by decide⟩).1

/-- **Counterexample.** CPU 0 goes to 2 GHz once, and its smallest frequency is 0. -/
theorem freq_min_zero :
    freqs 0 [⟨2000000, 0⟩] = [2000000] ∧
    (run [⟨2000000, 0⟩]).lookupElem 0 = some ⟨2000000, 1, 0, 2000000, 2000000⟩ ∧
    ¬ ∃ info, (run [⟨2000000, 0⟩]).lookupElem 0 = some info ∧ Statistics [2000000] info := by
  have hl : (run [⟨2000000, 0⟩]).lookupElem 0 = some ⟨2000000, 1, 0, 2000000, 2000000⟩ := by
    decide +kernel
  refine ⟨by decide, hl, ?_⟩
  rintro ⟨info, hi, hs⟩
  rw [hl] at hi
  cases hi
  have := hs.min.1
  revert this
  decide

/-! ## The loader -/

/-- **The printed level** of a CPU is its latest frequency. -/
theorem freqRow_run (es : List CpuFrequencyArgs) (cpu : Fin 256) :
    freqRow (run es) cpu = if 0 < (freqs (UInt32.ofNat cpu.val) es).getLastD 0 then
      some ⟨freqKey cpu, .f3 ((freqs (UInt32.ofNat cpu.val) es).getLastD 0)⟩ else none := by
  have hval : (UInt32.ofNat cpu.val).toNat = cpu.val := by
    rw [UInt32.toNat_ofNat']
    exact Nat.mod_eq_of_lt (cpu.isLt.trans (by decide))
  have hlt : UInt32.ofNat cpu.val < MAX_CPUS := by
    rw [UInt32.lt_iff_toNat_lt, hval]
    exact cpu.isLt
  obtain ⟨info, hl, hf⟩ := entry_run es hlt
  have hinfo : (run es)[cpu] = info := by
    unfold ArrayMap.lookupElem at hl
    rw [hval, Vector.getElem?_eq_getElem cpu.isLt] at hl
    exact Option.some.inj hl
  rw [freqRow_eq, hinfo, ← hf.cur]
  exact if_congr UInt64.lt_iff_toNat_lt rfl rfl

end FreqEvents
end EbpfDemo.L3Loader
