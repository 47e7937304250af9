import EbpfDemo.Core.Growth
import EbpfDemo.L3Loader.Levels

/-!
# Totals kept per PID and per CPU

`page_swap_stat` and `cpu_usage` go through their maps in every poll, print for each
PID (and CPU) by how much its total exceeds the one found before, in whole units,
and keep the total. A `Visitor` is such a loader entry by entry; what it prints
under the key of `k` depends on the entries of `k` alone (`sum_walk`).

The arrays of totals have an end. `page_swap_stat` compares the total of a PID behind
it with 0: what it prints of a PID is no more than its total exactly when the PID
lies within the array or all totals but the last are below one unit
(`swap_reported_iff`). `cpu_usage` prints nothing of such a PID. Of every other, and
of every CPU, it prints no more than the total and less by what the divisions leave,
which is less than one unit per poll (`usage_reported`).
-/
namespace EbpfDemo.L3Loader

open EbpfDemo.Core EbpfDemo.L1Encoding

/-- A loader entry by entry: what it keeps and prints of a key and what the lookup
of the key returned. -/
structure Visitor (St K : Type) where
  visit : St → K → Option UInt64 → St × List Row
  key : K → Key
  /-- What the next total of a key is compared with. -/
  last : St → K → UInt64
  /-- The totals of a key are kept for the next visit. -/
  kept : K → Bool
  /-- There are rows of a key. -/
  printed : K → Bool
  /-- Nanoseconds in one unit of a row. -/
  unit : K → Nat

namespace Visitor

variable {St K : Type} (T : Visitor St K)

def walk : St → List (K × Option UInt64) → St × List Row
  | s, [] => (s, [])
  | s, e :: es =>
    let r := T.visit s e.1 e.2
    let t := walk r.1 es
    (t.1, r.2 ++ t.2)

/-- A visit is about its own key: the difference in whole units is printed, the total
is kept. -/
structure Lawful : Prop where
  failed : ∀ s k, T.visit s k none = (s, [])
  own : ∀ s k v, T.printed k → (valuesAt (T.key k) (T.visit s k (some v)).2).sum =
    ((v.toNat - (T.last s k).toNat) / T.unit k : Nat)
  silent : ∀ s k v, ¬ T.printed k → valuesAt (T.key k) (T.visit s k (some v)).2 = []
  keep : ∀ s k v, T.last (T.visit s k (some v)).1 k = if T.kept k then v else T.last s k
  other : ∀ s j k v, j ≠ k → T.last (T.visit s j (some v)).1 k = T.last s k ∧
    valuesAt (T.key k) (T.visit s j (some v)).2 = []

/-- By how much each total of a key exceeds what it is compared with, first `a`. -/
def excess (k : K) : Nat → List Nat → List Nat
  | _, [] => []
  | a, v :: l => (v - a) :: excess k (if T.kept k then v else a) l

/-- The totals found for a key. -/
def totals [DecidableEq K] (k : K) (es : List (K × Option UInt64)) : List Nat :=
  es.filterMap fun e => if e.1 = k then e.2.map UInt64.toNat else none

/-- What the divisions leave of the growth of a key. -/
def left [DecidableEq K] (k : K) (es : List (K × Option UInt64)) : Nat :=
  ((growth 0 (totals k es)).map (· % T.unit k)).sum

variable {T}

theorem excess_kept {k : K} (h : T.kept k) (a : Nat) (l : List Nat) :
    T.excess k a l = growth a l := by
  induction l generalizing a with
  | nil => rfl
  | cons v l ih => rw [excess, growth, ih, if_pos h]

theorem excess_lost {k : K} (h : ¬ T.kept k) (a : Nat) (l : List Nat) :
    T.excess k a l = l.map (· - a) := by
  induction l with
  | nil => rfl
  | cons v l ih => rw [excess, if_neg h, ih, List.map_cons]

theorem walk_append (s : St) (es es' : List (K × Option UInt64)) :
    T.walk s (es ++ es') =
      ((T.walk (T.walk s es).1 es').1, (T.walk s es).2 ++ (T.walk (T.walk s es).1 es').2) := by
  induction es generalizing s with
  | nil => rfl
  | cons e es ih =>
    rw [List.cons_append, walk, ih]
    simp only [walk, List.append_assoc]

/-- A loader that keeps its state from poll to poll prints what one long walk prints. -/
theorem rows_eq {Sa : Type} {S : Sampler St Sa} {visits : Sa → List (K × Option UInt64)}
    (hS : ∀ s a, S.poll s a = T.walk s (visits a)) (s : St) (l : List Sa) :
    S.rowsFrom s l = (T.walk s (l.flatMap visits)).2 := by
  induction l generalizing s with
  | nil => rfl
  | cons a l ih => rw [Sampler.rowsFrom, List.flatMap_cons, walk_append, hS, ih]

theorem visit_other (hT : T.Lawful) {j k : K} (h : j ≠ k) (s : St) (o : Option UInt64) :
    T.last (T.visit s j o).1 k = T.last s k ∧ valuesAt (T.key k) (T.visit s j o).2 = [] := by
  cases o with
  | none => rw [hT.failed]; exact ⟨rfl, rfl⟩
  | some v => exact hT.other s j k v h

variable [DecidableEq K]

theorem totals_cons_own (k : K) (o : Option UInt64) (es : List (K × Option UInt64)) :
    totals k ((k, o) :: es) = (o.map UInt64.toNat).toList ++ totals k es := by
  unfold totals
  cases o <;> simp

theorem totals_cons_other {j k : K} (h : j ≠ k) (o : Option UInt64)
    (es : List (K × Option UInt64)) : totals k ((j, o) :: es) = totals k es := by
  unfold totals
  simp [h]

/-- A walk prints, of a key, what its totals exceed the ones before by, each in whole
units. -/
theorem sum_walk (hT : T.Lawful) {k : K} (hp : T.printed k) (s : St) (es : List (K × Option UInt64)) :
    (valuesAt (T.key k) (T.walk s es).2).sum =
      (((T.excess k (T.last s k).toNat (totals k es)).map (· / T.unit k)).sum : Nat) := by
  induction es generalizing s with
  | nil => rfl
  | cons e es ih =>
    obtain ⟨j, o⟩ := e
    rw [walk, valuesAt_append, List.sum_append, ih]
    by_cases hj : j = k
    · subst hj
      rw [totals_cons_own]
      cases o with
      | none =>
        rw [hT.failed]
        exact zero_add _
      | some v =>
        rw [hT.own s j v hp, hT.keep s j v, Option.map_some, Option.toList_some,
          List.singleton_append, excess, List.map_cons, List.sum_cons, Nat.cast_add,
          apply_ite UInt64.toNat]
    · obtain ⟨hl, hv⟩ := visit_other hT hj s o
      rw [hl, hv, totals_cons_other hj, List.sum_nil, zero_add]

/-- **Kept totals.** What is printed of a key whose totals are kept falls short of its
last total by what the divisions leave. -/
theorem sum_kept (hT : T.Lawful) {k : K} (hp : T.printed k) (hk : T.kept k) {s : St}
    (h0 : T.last s k = 0) {es : List (K × Option UInt64)} (h : (totals k es).Pairwise (· ≤ ·)) :
    T.unit k * (valuesAt (T.key k) (T.walk s es).2).sum + T.left k es =
      (totals k es).getLastD 0 := by
  have hgrow : 0 + (growth 0 (totals k es)).sum = (totals k es).getLastD 0 :=
    sum_growth (pairwise_zero_cons h)
  rw [sum_walk hT hp, excess_kept hk, h0, left, ← hgrow, Nat.zero_add,
    ← mul_sum_div (T.unit k) (growth 0 _), Nat.cast_add, Nat.cast_mul]
  rfl

/-- Less than one unit is left each time. -/
theorem left_le {k : K} (hu : 0 < T.unit k) (es : List (K × Option UInt64)) :
    T.left k es ≤ (totals k es).length * (T.unit k - 1) := by
  have hle := sum_mod_le hu (growth 0 (totals k es))
  rw [length_growth] at hle
  exact hle

theorem walk_silent (hT : T.Lawful) {k : K} (hp : ¬ T.printed k) (s : St)
    (es : List (K × Option UInt64)) :
    valuesAt (T.key k) (T.walk s es).2 = [] := by
  induction es generalizing s with
  | nil => rfl
  | cons e es ih =>
    obtain ⟨j, o⟩ := e
    rw [walk, valuesAt_append, ih, List.append_nil]
    by_cases hj : j = k
    · subst hj
      cases o with
      | none => rw [hT.failed]; rfl
      | some v => exact hT.silent s j v hp
    · exact (visit_other hT hj s o).2

end Visitor

open Visitor (totals)

/-! ## Arrays indexed by PID -/

/-- The element of `pid`, 0 behind the end of the array. -/
def atPid {n : Nat} (a : Fin n → UInt64) (pid : UInt32) : UInt64 :=
  if h : pid.toNat < n then a ⟨pid.toNat, h⟩ else 0

theorem atPid_of_lt {n : Nat} (a : Fin n → UInt64) {p : UInt32} (hp : p.toNat < n) :
    atPid a p = a ⟨p.toNat, hp⟩ := dif_pos hp

theorem atPid_update {n : Nat} (a : Fin n → UInt64) {p : UInt32} (hp : p.toNat < n) (v : UInt64)
    (q : UInt32) : atPid (Function.update a ⟨p.toNat, hp⟩ v) q = if p = q then v else atPid a q := by
  unfold atPid
  by_cases hpq : p = q
  · subst hpq
    rw [dif_pos hp, if_pos rfl, Function.update_self]
  · rw [if_neg hpq]
    refine dite_congr rfl (fun hq => ?_) fun _ => rfl
    exact Function.update_of_ne (fun h => hpq (UInt32.toNat_inj.mp (Fin.mk.inj h).symm)) _ _

/-- One row with a number. -/
theorem valuesAt_llu (k k' : Key) (n : Nat) :
    valuesAt k' [⟨k, .llu n⟩] = if k = k' then [(n : ℚ)] else [] := by
  by_cases h : k = k'
  · rw [if_pos h, h]; simp [valuesAt, Numeral.value]
  · rw [if_neg h]; simp [valuesAt, h]

/-- `cur - prev` where `cur` is larger. -/
theorem toNat_sub_div {cur prev unit : UInt64} (h : cur > prev) :
    ((cur - prev) / unit).toNat = (cur.toNat - prev.toNat) / unit.toNat := by
  rw [UInt64.toNat_div, UInt64.toNat_sub_of_le _ _ (UInt64.le_of_lt h)]

/-! ## page_swap_stat -/

namespace SwapReport

/-- mirrors src/my_tools/memo/page_swap_stat.c:9 -/
def MAX_PIDS : Nat := 65535

/-- mirrors src/my_tools/memo/page_swap_stat.c:10 -/
abbrev PrevValues := Fin MAX_PIDS → UInt64

def drKey (pid : UInt32) : Key :=
  .numbered (str "dr_pid_") [] pid.toNat ⟨by decide, by decide, by decide, pid_lt pid⟩

/-- mirrors src/my_tools/memo/page_swap_stat.c:46 -/
def last (prev : PrevValues) (pid : UInt32) : UInt64 :=
  atPid prev pid

/-- mirrors src/my_tools/memo/page_swap_stat.c:54-55 -/
def keep (prev : PrevValues) (pid : UInt32) (currentTotalNs : UInt64) : PrevValues :=
  if h : pid.toNat < MAX_PIDS then Function.update prev ⟨pid.toNat, h⟩ currentTotalNs else prev

/-- One entry of the walk over `total_delay`, with what the lookup returned.
mirrors src/my_tools/memo/page_swap_stat.c:42-56 -/
def visit (prev : PrevValues) (pid : UInt32) : Option UInt64 → PrevValues × List Row
  | none => (prev, [])
  | some currentTotalNs =>
    (keep prev pid currentTotalNs,
      if currentTotalNs > last prev pid then
        let incrementalUs := (currentTotalNs - last prev pid) / 1000
        [⟨drKey pid, .llu incrementalUs.toNat⟩]
      else [])

def visitor : Visitor PrevValues UInt32 where
  visit := visit
  key := drKey
  last := last
  kept pid := pid.toNat < MAX_PIDS
  printed _ := true
  unit _ := 1000

/-- A sample is what the walk of a poll comes to.
mirrors src/my_tools/memo/page_swap_stat.c:37-59 -/
def sampler : Sampler PrevValues (List (UInt32 × Option UInt64)) where
  init _ := 0
  poll := visitor.walk

theorem drKey_inj {p q : UInt32} (h : drKey p = drKey q) : p = q :=
  UInt32.toNat_inj.mp (numbered_inj (str "dr_pid_") [] (congrArg Key.text h))

theorem last_keep (prev : PrevValues) (p q : UInt32) (v : UInt64) :
    last (keep prev p v) q = if p = q ∧ p.toNat < MAX_PIDS then v else last prev q := by
  unfold keep
  split
  · rename_i hp
    simp only [hp, and_true]
    exact atPid_update prev hp v q
  · rename_i hp
    rw [if_neg fun h => hp h.2]

theorem visitor_lawful : visitor.Lawful where
  failed _ _ := rfl
  own prev pid v _ := by
    show (valuesAt (drKey pid) (if v > last prev pid then
      [⟨drKey pid, .llu ((v - last prev pid) / 1000).toNat⟩] else [])).sum =
        (((v.toNat - (last prev pid).toNat) / 1000 : Nat) : ℚ)
    split
    · rename_i h
      rw [valuesAt_llu, if_pos rfl, toNat_sub_div h, List.sum_singleton]; rfl
    · rename_i h
      have hle := UInt64.le_iff_toNat_le.mp (UInt64.not_lt.mp h)
      rw [Nat.sub_eq_zero_of_le hle]
      exact Nat.cast_zero.symm
  silent _ _ _ h := absurd rfl h
  keep prev pid v := by
    show last (keep prev pid v) pid = if decide (pid.toNat < MAX_PIDS) then v else last prev pid
    rw [last_keep]
    by_cases hp : pid.toNat < MAX_PIDS
    · rw [if_pos ⟨rfl, hp⟩, if_pos (decide_eq_true hp)]
    · rw [if_neg fun h => hp h.2, if_neg (by simpa using hp)]
  other prev p q v h := by
    refine ⟨(last_keep prev p q v).trans (if_neg fun h' => h h'.1), ?_⟩
    show valuesAt (drKey q) (if v > last prev p then
      [⟨drKey p, .llu ((v - last prev p) / 1000).toNat⟩] else []) = []
    split
    · rw [valuesAt_llu, if_neg fun h' => h (drKey_inj h')]
    · rfl

theorem rows_eq (polls : List (List (UInt32 × Option UInt64))) :
    sampler.rows polls = (visitor.walk (fun _ => 0) polls.flatten).2 := by
  have hpoll : ∀ prev es, sampler.poll prev es = visitor.walk prev (id es) := fun _ _ => rfl
  have hrows := Visitor.rows_eq hpoll (fun _ => 0) polls
  rw [List.flatMap_id] at hrows
  exact hrows

theorem last_start (pid : UInt32) : last (fun _ => 0) pid = 0 := by
  unfold last atPid
  split <;> rfl

/-- Whole units add up to at most the last amount exactly when all before it are below
one unit. -/
theorem sum_units_le_iff (l : List Nat) :
    (((l.map (· / 1000)).sum : Nat) : ℚ) ≤ (l.getLastD 0 : ℚ) / 1000 ↔
      ∀ t ∈ l.dropLast, t < 1000 := by
  rw [le_div_iff₀ (by norm_num)]
  norm_cast
  rcases List.eq_nil_or_concat l with rfl | ⟨m, t, rfl⟩
  · simp
  · have hsum : ((m ++ [t]).map (· / 1000)).sum = (m.map (· / 1000)).sum + t / 1000 := by
      rw [List.map_append, List.sum_append]; rfl
    have hzero : (m.map (· / 1000)).sum = 0 ↔ ∀ n ∈ m, n < 1000 := by
      rw [List.sum_eq_zero_iff, List.forall_mem_map]
      exact forall₂_congr fun n _ => by omega
    rw [List.concat_eq_append, hsum, List.getLastD_concat, List.dropLast_concat, ← hzero]
    omega

/-- **Direct reclaim.** Over any polls in which the totals of `pid` do not go back,
what is printed of it comes to at most its last total exactly when the PID lies within
the array or all its totals but the last are below 1 us. -/
theorem swap_reported_iff (pid : UInt32) (polls : List (List (UInt32 × Option UInt64)))
    (h : (totals pid polls.flatten).Pairwise (· ≤ ·)) :
    (valuesAt (drKey pid) (sampler.rows polls)).sum ≤
        ((totals pid polls.flatten).getLastD 0 : ℚ) / 1000 ↔
      pid.toNat < MAX_PIDS ∨ ∀ t ∈ (totals pid polls.flatten).dropLast, t < 1000 := by
  rw [rows_eq]
  by_cases hp : pid.toNat < MAX_PIDS
  · refine iff_of_true ?_ (.inl hp)
    have hsum : (1000 : ℚ) * (valuesAt (drKey pid) (visitor.walk (fun _ => 0) polls.flatten).2).sum +
        visitor.left pid polls.flatten = ((totals pid polls.flatten).getLastD 0 : ℚ) :=
      Visitor.sum_kept (s := fun _ => 0) visitor_lawful rfl (decide_eq_true hp) (last_start pid) h
    have hleft : (0 : ℚ) ≤ visitor.left pid polls.flatten := Nat.cast_nonneg _
    rw [le_div_iff₀ (by norm_num), ← hsum]
    linarith only [hleft]
  · have hsum : (valuesAt (drKey pid) (visitor.walk (fun _ => 0) polls.flatten).2).sum =
        (((totals pid polls.flatten).map (· / 1000)).sum : Nat) := by
      refine (Visitor.sum_walk visitor_lawful rfl _ _).trans ?_
      rw [Visitor.excess_lost (by simpa [visitor] using hp),
        show visitor.last (fun _ => 0) pid = 0 from last_start pid, List.map_map]
      rfl
    rw [hsum, sum_units_le_iff]
    exact ⟨.inr, fun h' => h'.resolve_left hp⟩

/-- PID 7 in two polls, with another PID between. -/
theorem swap_reported_seven :
    (valuesAt (drKey 7) (sampler.rows [[(7, some 5000)], [(9, some 800), (7, some 12400)]])).sum ≤
      ((12400 : Nat) : ℚ) / 1000 :=
  (swap_reported_iff 7 [[(7, some 5000)], [(9, some 800), (7, some 12400)]] (by decide)).mpr
    (.inl (by decide))

/-- PID 65535 spends 1 ms in reclaim before the first of two polls. -/
def behind : List (List (UInt32 × Option UInt64)) :=
  [[(65535, some 1000000)], [(65535, some 1000000)]]

/-- **Counterexample.** Both polls print the millisecond. -/
theorem swap_reported_twice :
    (totals 65535 behind.flatten).Pairwise (· ≤ ·) ∧
    valuesAt (drKey 65535) (sampler.rows behind) = [1000, 1000] ∧
    ¬ (valuesAt (drKey 65535) (sampler.rows behind)).sum ≤
      ((totals 65535 behind.flatten).getLastD 0 : ℚ) / 1000 := by
  have hv : valuesAt (drKey 65535) (sampler.rows behind) = [1000, 1000] := by decide +kernel
  refine ⟨by decide, hv, ?_⟩
  rw [hv]
  decide +kernel

end SwapReport

/-! ## cpu_usage -/

namespace UsageReport

/-- mirrors src/my_tools/cpu/cpu_usage.c:12 -/
def MAX_PIDS : Nat := 65536

/-- mirrors src/my_tools/cpu/cpu_usage.c:13 -/
def MAX_CPUS : Nat := 256

/-- mirrors src/my_tools/cpu/cpu_usage.c:15-16 -/
structure Prev where
  cpuTime : Fin MAX_PIDS → UInt64
  cpuBusy : Fin MAX_CPUS → UInt64

/-- What has a total: a PID in `cpu_time`, a CPU in `cpu_busy`. -/
inductive Slot where
  | pid (p : UInt32)
  | cpu (c : Fin MAX_CPUS)
  deriving DecidableEq

def cpuTimeKey (pid : UInt32) : Key :=
  .numbered (str "cpu_time_pid_") [] pid.toNat ⟨by decide, by decide, by decide, pid_lt pid⟩

def cpuBusyKey (cpu : Fin MAX_CPUS) : Key :=
  .numbered (str "cpu_") (str "_busy_ms") cpu.val
    ⟨by decide, by decide, by decide, cpu.isLt.trans (by decide)⟩

/-- The difference in whole units, if there is one.
mirrors src/my_tools/cpu/cpu_usage.c:58-63, 75-80 -/
def deltaRows (key : Key) (unit total prev : UInt64) : List Row :=
  let delta := if total > prev then (total - prev) / unit else 0
  if delta > 0 then [⟨key, .llu delta.toNat⟩] else []

/-- mirrors src/my_tools/cpu/cpu_usage.c:55-66 -/
def visitPid (s : Prev) (pid : UInt32) : Option UInt64 → Prev × List Row
  | none => (s, [])
  | some totalNs =>
    if h : pid.toNat < MAX_PIDS then
      ({ s with cpuTime := Function.update s.cpuTime ⟨pid.toNat, h⟩ totalNs },
        deltaRows (cpuTimeKey pid) 1000 totalNs (s.cpuTime ⟨pid.toNat, h⟩))
    else (s, [])

/-- mirrors src/my_tools/cpu/cpu_usage.c:71-82 -/
def visitCpu (s : Prev) (cpu : Fin MAX_CPUS) : Option UInt64 → Prev × List Row
  | none => (s, [])
  | some busyNs =>
    ({ s with cpuBusy := Function.update s.cpuBusy cpu busyNs },
      deltaRows (cpuBusyKey cpu) 1000000 busyNs (s.cpuBusy cpu))

namespace Slot

def visit (s : Prev) : Slot → Option UInt64 → Prev × List Row
  | .pid p => visitPid s p
  | .cpu c => visitCpu s c

def key : Slot → Key
  | .pid p => cpuTimeKey p
  | .cpu c => cpuBusyKey c

def last (s : Prev) : Slot → UInt64
  | .pid p => atPid s.cpuTime p
  | .cpu c => s.cpuBusy c

/-- The slot lies within its array. -/
def inside : Slot → Bool
  | .pid p => p.toNat < MAX_PIDS
  | .cpu _ => true

def unit : Slot → Nat
  | .pid _ => 1000
  | .cpu _ => 1000000

end Slot

def visitor : Visitor Prev Slot where
  visit := Slot.visit
  key := Slot.key
  last := Slot.last
  kept := Slot.inside
  printed := Slot.inside
  unit := Slot.unit

/-- What a poll comes to: the walk over `cpu_time` and the lookups in `cpu_busy`. -/
structure Sample where
  cpuTime : List (UInt32 × Option UInt64)
  cpuBusy : Fin MAX_CPUS → Option UInt64

/-- mirrors src/my_tools/cpu/cpu_usage.c:49-83 -/
def Sample.visits (a : Sample) : List (Slot × Option UInt64) :=
  (a.cpuTime.map fun e => (.pid e.1, e.2)) ++
    (List.finRange MAX_CPUS).map fun c => (.cpu c, a.cpuBusy c)

/-- mirrors src/my_tools/cpu/cpu_usage.c:46-85 -/
def sampler : Sampler Prev Sample where
  init := ⟨fun _ => 0, fun _ => 0⟩
  poll s a := visitor.walk s a.visits

/-- The label of a PID goes on with a letter where that of a CPU has a digit. -/
theorem cpuTimeKey_ne (p : UInt32) (c : Fin MAX_CPUS) : cpuTimeKey p ≠ cpuBusyKey c := by
  intro h
  have htext : str "cpu_" ++ (str "time_pid_" ++ decimal p.toNat) =
      str "cpu_" ++ (decimal c.val ++ str "_busy_ms") := by
    have hkey : str "cpu_time_pid_" ++ decimal p.toNat ++ [] =
      str "cpu_" ++ decimal c.val ++ str "_busy_ms" := congrArg Key.text h
    rw [List.append_nil, List.append_assoc] at hkey
    exact hkey
  have htail := List.append_cancel_left htext
  cases hd : decimal c.val with
  | nil => exact decimal_ne_nil c.val hd
  | cons d ds =>
    rw [hd] at htail
    have hdigit : 0x30 ≤ d ∧ d ≤ 0x39 :=
      decimal_digit (show d ∈ decimal c.val by rw [hd]; exact List.mem_cons_self)
    rw [← (List.cons.inj htail).1] at hdigit
    exact absurd hdigit (by decide)

theorem Slot.key_inj {j k : Slot} (h : j.key = k.key) : j = k := by
  cases j with
  | pid p =>
    cases k with
    | pid q =>
      exact congrArg Slot.pid
        (UInt32.toNat_inj.mp (numbered_inj (str "cpu_time_pid_") [] (congrArg Key.text h)))
    | cpu d => exact absurd h (cpuTimeKey_ne p d)
  | cpu c =>
    cases k with
    | pid q => exact absurd h.symm (cpuTimeKey_ne q c)
    | cpu d =>
      exact congrArg Slot.cpu
        (Fin.ext (numbered_inj (str "cpu_") (str "_busy_ms") (congrArg Key.text h)))

/-- Nothing is printed of less than a unit, which is 0 of them. -/
theorem sum_deltaRows (key : Key) (unit total prev : UInt64) :
    (valuesAt key (deltaRows key unit total prev)).sum =
      ((total.toNat - prev.toNat) / unit.toNat : Nat) := by
  have hdelta : (if total > prev then (total - prev) / unit else 0).toNat =
      (total.toNat - prev.toNat) / unit.toNat := by
    split
    · rename_i h; exact toNat_sub_div h
    · rename_i h
      rw [Nat.sub_eq_zero_of_le (UInt64.le_iff_toNat_le.mp (UInt64.not_lt.mp h)), Nat.zero_div]
      rfl
  unfold deltaRows
  dsimp only
  rw [← hdelta]
  generalize (if total > prev then (total - prev) / unit else 0) = delta
  split
  · rw [valuesAt_llu, if_pos rfl, List.sum_singleton]
  · rename_i h
    have h0 : delta.toNat = 0 := Nat.le_zero.mp (UInt64.le_iff_toNat_le.mp (UInt64.not_lt.mp h))
    rw [h0]; exact Nat.cast_zero.symm

theorem valuesAt_deltaRows {key k : Key} (h : key ≠ k) (unit total prev : UInt64) :
    valuesAt k (deltaRows key unit total prev) = [] := by
  unfold deltaRows
  dsimp only
  generalize (if total > prev then (total - prev) / unit else 0) = delta
  split
  · rw [valuesAt_llu, if_neg h]
  · rfl

/-- A visit of a slot within its array. -/
theorem visit_inside {k : Slot} (h : k.inside) (s : Prev) (v : UInt64) :
    (k.visit s (some v)).2 = deltaRows k.key (UInt64.ofNat k.unit) v (k.last s) ∧
      ∀ j : Slot, j.last (k.visit s (some v)).1 = if k = j then v else j.last s := by
  cases k with
  | pid p =>
    have hp : p.toNat < MAX_PIDS := by simpa [Slot.inside] using h
    have hv : Slot.visit s (.pid p) (some v) =
        ({ s with cpuTime := Function.update s.cpuTime ⟨p.toNat, hp⟩ v },
          deltaRows (cpuTimeKey p) 1000 v (s.cpuTime ⟨p.toNat, hp⟩)) := dif_pos hp
    rw [hv, ← atPid_of_lt s.cpuTime hp]
    refine ⟨rfl, fun j => ?_⟩
    cases j with
    | pid q =>
      simp only [Slot.pid.injEq]
      exact atPid_update s.cpuTime hp v q
    | cpu d => rfl
  | cpu c =>
    refine ⟨rfl, fun j => ?_⟩
    cases j with
    | pid q => rfl
    | cpu d =>
      simp only [Slot.cpu.injEq, eq_comm (a := c)]
      exact Function.update_apply s.cpuBusy c v d

theorem visit_outside {k : Slot} (h : ¬ k.inside) (s : Prev) (v : UInt64) :
    k.visit s (some v) = (s, []) := by
  cases k with
  | pid p => exact dif_neg (by simpa [Slot.inside] using h)
  | cpu c => exact absurd rfl h

theorem visitor_lawful : visitor.Lawful where
  failed s k := by cases k <;> rfl
  own s k v h := by
    show (valuesAt k.key (k.visit s (some v)).2).sum = _
    rw [(visit_inside h s v).1, sum_deltaRows]
    cases k <;> rfl
  silent s k v h := by
    show valuesAt k.key (k.visit s (some v)).2 = []
    rw [visit_outside h]; rfl
  keep s k v := by
    show k.last (k.visit s (some v)).1 = if k.inside then v else k.last s
    by_cases h : k.inside
    · rw [(visit_inside h s v).2, if_pos rfl, if_pos h]
    · rw [visit_outside h, if_neg h]
  other s j k v hjk := by
    show k.last (j.visit s (some v)).1 = k.last s ∧ valuesAt k.key (j.visit s (some v)).2 = []
    by_cases h : j.inside
    · obtain ⟨hr, hl⟩ := visit_inside h s v
      rw [hr, hl, if_neg hjk]
      exact ⟨rfl, valuesAt_deltaRows (fun hk => hjk (Slot.key_inj hk)) _ _ _⟩
    · rw [visit_outside h]; exact ⟨rfl, rfl⟩

theorem rows_eq (l : List Sample) :
    sampler.rows l = (visitor.walk sampler.init (l.flatMap Sample.visits)).2 :=
  Visitor.rows_eq (T := visitor) (fun _ _ => rfl) sampler.init l

/-- The totals that were read of a slot. -/
def read (k : Slot) (l : List Sample) : List Nat := totals k (l.flatMap Sample.visits)

/-- What was printed of a slot. -/
def reported (k : Slot) (l : List Sample) : ℚ := (valuesAt k.key (sampler.rows l)).sum

theorem reported_inside {k : Slot} (hk : k.inside) {l : List Sample}
    (h : (read k l).Pairwise (· ≤ ·)) :
    k.unit * reported k l + visitor.left k (l.flatMap Sample.visits) = (read k l).getLastD 0 := by
  have h0 : visitor.last sampler.init k = 0 := by
    cases k with
    | pid p =>
      show atPid (fun _ => 0) p = 0
      unfold atPid
      split <;> rfl
    | cpu c => rfl
  unfold reported
  rw [rows_eq]
  exact Visitor.sum_kept visitor_lawful hk hk h0 h

/-- Nothing is printed where the divisions leave everything. -/
theorem reported_eq_zero {k : Slot} (hk : k.inside) {l : List Sample}
    (h : (read k l).Pairwise (· ≤ ·))
    (hleft : visitor.left k (l.flatMap Sample.visits) = (read k l).getLastD 0) :
    reported k l = 0 := by
  have hsum := reported_inside hk h
  rw [hleft, add_eq_right, mul_eq_zero, Nat.cast_eq_zero] at hsum
  refine hsum.resolve_left ?_
  cases k <;> exact Nat.succ_ne_zero _

/-- **CPU time.** Over any polls in which its totals do not go back, what is printed of
a PID within the array and of a CPU falls short of the last total by exactly what the
divisions leave, which is less than one unit for each total read. Nothing is printed
of a PID behind the array. -/
theorem usage_reported (l : List Sample) :
    (∀ k : Slot, k.inside → (read k l).Pairwise (· ≤ ·) →
      k.unit * reported k l + visitor.left k (l.flatMap Sample.visits) = (read k l).getLastD 0 ∧
      visitor.left k (l.flatMap Sample.visits) ≤ (read k l).length * (k.unit - 1)) ∧
    ∀ p : UInt32, MAX_PIDS ≤ p.toNat → valuesAt (cpuTimeKey p) (sampler.rows l) = [] := by
  refine ⟨fun k hk h => ⟨reported_inside hk h, ?_⟩, fun p hp => ?_⟩
  · have hu : 0 < visitor.unit k := by cases k <;> exact Nat.zero_lt_succ _
    exact Visitor.left_le hu _
  · have hout : ¬ visitor.printed (.pid p) := by
      show ¬ decide (p.toNat < MAX_PIDS) = true
      rw [decide_eq_true_iff]
      exact Nat.not_lt.mpr hp
    rw [rows_eq]
    exact Visitor.walk_silent visitor_lawful hout _ _

def cpu0 : Fin MAX_CPUS := ⟨0, by decide⟩

/-- PID 5 and CPU 0 stay just below a unit in each of two polls. -/
def slow : List Sample :=
  [⟨[(5, some 999)], fun c => if c = cpu0 then some 999999 else some 0⟩,
    ⟨[(5, some 1998)], fun c => if c = cpu0 then some 1999998 else some 0⟩]

theorem slow_pid5 : read (.pid 5) slow = [999, 1998] ∧
    visitor.left (.pid 5) (slow.flatMap Sample.visits) = 1998 := by decide +kernel

theorem slow_cpu0 : read (.cpu cpu0) slow = [999999, 1999998] ∧
    visitor.left (.cpu cpu0) (slow.flatMap Sample.visits) = 1999998 := by decide +kernel

/-- What is left of PID 5 and of CPU 0 is two nanoseconds less than two units. -/
theorem usage_reported_slow :
    1000 * reported (.pid 5) slow + 1998 = 1998 ∧
    1000000 * reported (.cpu cpu0) slow + 1999998 = 1999998 ∧
    valuesAt (cpuTimeKey 65536) (sampler.rows slow) = [] := by
  have h := usage_reported slow
  refine ⟨?_, ?_, h.2 65536 (by decide)⟩
  · obtain ⟨hr, hl⟩ := slow_pid5
    have := (h.1 (.pid 5) (by decide) (by rw [hr]; decide)).1
    rw [hl, hr] at this
    exact_mod_cast this
  · obtain ⟨hr, hl⟩ := slow_cpu0
    have := (h.1 (.cpu cpu0) (by decide) (by rw [hr]; decide)).1
    rw [hl, hr] at this
    exact_mod_cast this

/-- **Counterexample.** What is printed of the two is 0, although a unit is missing. -/
theorem usage_lost :
    ((read (.pid 5) slow).Pairwise (· ≤ ·) ∧ reported (.pid 5) slow = 0 ∧
      ¬ ((read (.pid 5) slow).getLastD 0 : ℚ) - 1000 * reported (.pid 5) slow < 1000) ∧
    ((read (.cpu cpu0) slow).Pairwise (· ≤ ·) ∧ reported (.cpu cpu0) slow = 0 ∧
      ¬ ((read (.cpu cpu0) slow).getLastD 0 : ℚ) - 1000000 * reported (.cpu cpu0) slow < 1000000) := by
  constructor
  · obtain ⟨hr, hl⟩ := slow_pid5
    have hm : (read (.pid 5) slow).Pairwise (· ≤ ·) := by rw [hr]; decide
    have h0 : reported (.pid 5) slow = 0 := reported_eq_zero rfl hm (by rw [hl, hr]; rfl)
    refine ⟨hm, h0, ?_⟩
    rw [hr, h0]
    norm_num
  · obtain ⟨hr, hl⟩ := slow_cpu0
    have hm : (read (.cpu cpu0) slow).Pairwise (· ≤ ·) := by rw [hr]; decide
    have h0 : reported (.cpu cpu0) slow = 0 := reported_eq_zero rfl hm (by rw [hl, hr]; rfl)
    refine ⟨hm, h0, ?_⟩
    rw [hr, h0]
    norm_num

end UsageReport
end EbpfDemo.L3Loader
