import Mathlib.Algebra.Ring.Nat
import EbpfDemo.Core.Totals
import EbpfDemo.Core.Walk

/-!
# The counting BPF programs

Every per-key counter of the tools follows one pattern: look the key up, add
one through the pointer if it is there, else insert a first element. The
programs differ in the element (`u64`, `struct conn_info`, ...), in the flag of
the insert and, for `irq_stat`, in what is inserted (a zero that is looked up
again). `countEvent` is the pattern with those parameters, run as one step;
`L5Concurrency.FirstInsert` splits it into its helper calls.

Each program below is written as that definition at its own values. The key is
`bpf_get_current_pid_tgid() >> 32` or the current comm, so it is an argument.
-/
namespace EbpfDemo.L2Kernel

open EbpfDemo.Core (HashMap UpdateFlag)

/-- `char comm[TASK_COMM_LEN]` as `bpf_get_current_comm` fills it: at most 15
bytes, none of them NUL, the rest of the array zero. -/
structure Comm where
  bytes : List UInt8
  length_le : bytes.length ≤ 15
  no_nul : 0 ∉ bytes
  deriving DecidableEq

/-- A process named `a`. -/
def nameA : Comm := ⟨[97], by decide, by decide⟩

/-- A process named `b`. -/
def nameB : Comm := ⟨[98], by decide, by decide⟩

section
variable {K V : Type} [DecidableEq K]

/-- Lookup, then add in place or insert `first`. -/
def countEvent (inc : V → V) (first : V) (flag : UpdateFlag) (m : HashMap K V) (k : K) :
    HashMap K V :=
  match m.lookupElem k with
  | some _ => m.modifyElem k inc
  | none => m.update k first flag

/-- The event finds room: its key is there, or the map is not full. -/
def HasRoom (m : HashMap K V) (k : K) : Prop := k ∈ m.keys ∨ ¬ m.Full

instance (m : HashMap K V) (k : K) : Decidable (HasRoom m k) := inferInstanceAs (Decidable (_ ∨ _))

variable {inc : V → V} {first : V} {flag : UpdateFlag} {m : HashMap K V} {k : K}

theorem countEvent_present {v : V} (h : m.lookupElem k = some v) :
    countEvent inc first flag m k = m.modifyElem k inc := by rw [countEvent, h]

theorem countEvent_absent (h : m.lookupElem k = none) (hf : flag ≠ .exist) (hroom : ¬ m.Full) :
    countEvent inc first flag m k = m.put k first := by
  rw [countEvent, h]; exact HashMap.update_absent (HashMap.lookupElem_eq_none.mp h) hf hroom _

theorem countEvent_refused (h : m.lookupElem k = none) (hfull : m.Full) :
    countEvent inc first flag m k = m := by
  rw [countEvent, h]; exact HashMap.update_full (HashMap.lookupElem_eq_none.mp h) hfull _ _

/-- Without room the event is lost. -/
theorem countEvent_noRoom (h : ¬ HasRoom m k) : countEvent inc first flag m k = m := by
  unfold HasRoom at h
  rw [not_or, not_not] at h
  exact countEvent_refused (HashMap.lookupElem_eq_none.mpr h.1) h.2

theorem lookup_update_room (h : HasRoom m k) (k' : K) (v : V) :
    (m.update k v .any).lookupElem k' = if k' = k then some v else m.lookupElem k' := by
  by_cases hk : k ∈ m.keys
  · rw [HashMap.update_present hk (by decide), HashMap.lookupElem_put]
  · rw [HashMap.update_absent hk (by decide) (h.resolve_left hk), HashMap.lookupElem_put]

/-- What an event of `k` does to every lookup. -/
theorem lookupElem_countEvent (hf : flag ≠ .exist) (k' : K) :
    (countEvent inc first flag m k).lookupElem k' =
      if k' = k then
        (match m.lookupElem k with
          | some v => some (inc v)
          | none => if m.Full then none else some first)
      else m.lookupElem k' := by
  cases h : m.lookupElem k with
  | some v =>
    rw [countEvent_present h, HashMap.lookupElem_modifyElem]
    by_cases hk : k' = k
    · rw [if_pos hk, if_pos hk, hk, h]; rfl
    · rw [if_neg hk, if_neg hk]
  | none =>
    by_cases hfull : m.Full
    · rw [countEvent_refused h hfull]
      by_cases hk : k' = k
      · simp only [hk, h, if_pos hfull, if_true]
      · rw [if_neg hk]
    · rw [countEvent_absent h hf hfull, HashMap.lookupElem_put]
      simp only [if_neg hfull]

theorem mem_keys_countEvent (hf : flag ≠ .exist) (h : HasRoom m k) :
    k ∈ (countEvent inc first flag m k).keys := by
  rw [HashMap.mem_keys_iff, lookupElem_countEvent hf, if_pos rfl]
  cases hl : m.lookupElem k with
  | some v => rfl
  | none => simp only [if_neg (h.resolve_left (HashMap.lookupElem_eq_none.mp hl)), Option.isSome_some]

theorem bucketOf_countEvent (inc : V → V) (first : V) (flag : UpdateFlag) (m : HashMap K V)
    (k : K) : (countEvent inc first flag m k).bucketOf = m.bucketOf := by
  unfold countEvent HashMap.update HashMap.updateElem
  split
  · rfl
  · split_ifs <;> rfl

theorem maxEntries_countEvent (inc : V → V) (first : V) (flag : UpdateFlag) (m : HashMap K V)
    (k : K) : (countEvent inc first flag m k).maxEntries = m.maxEntries := by
  unfold countEvent HashMap.update HashMap.updateElem
  split
  · rfl
  · split_ifs <;> rfl

/-- No key but that of the event appears. -/
theorem mem_keys_of_countEvent (hf : flag ≠ .exist) {x : K}
    (h : x ∈ (countEvent inc first flag m k).keys) : x = k ∨ x ∈ m.keys := by
  by_cases hx : x = k
  · exact .inl hx
  · rw [HashMap.mem_keys_iff, lookupElem_countEvent hf, if_neg hx] at h
    exact .inr (HashMap.mem_keys_iff.mpr h)

/-- What a walk has in front of it when an event comes in between. -/
theorem behind_countEvent (hf : flag ≠ .exist) {c : K} {B : List K} (h : m.Behind c B) :
    ∃ B', (countEvent inc first flag m k).Behind c B' ∧ (∀ x ∈ B, x ∈ B') ∧
      ∀ x ∈ B', x ∈ B ∨ x = k ∧ k ∉ m.keys ∧ m.bucketOf c < m.bucketOf k := by
  cases hl : m.lookupElem k with
  | some v =>
    obtain ⟨A, hA⟩ := h
    rw [countEvent_present hl]
    exact ⟨B, ⟨A, by rw [HashMap.keys_modifyElem, hA]⟩, fun x hx => hx, fun x hx => .inl hx⟩
  | none =>
    by_cases hfull : m.Full
    · rw [countEvent_refused hl hfull]
      exact ⟨B, h, fun x hx => hx, fun x hx => .inl hx⟩
    · have hk := HashMap.lookupElem_eq_none.mp hl
      rw [countEvent_absent hl hf hfull]
      by_cases hb : m.bucketOf k ≤ m.bucketOf c
      · exact ⟨B, h.put_before hk hb first, fun x hx => hx, fun x hx => .inl hx⟩
      · obtain ⟨B', hB', hmem⟩ := h.put_behind hk (Nat.lt_of_not_le hb) first
        refine ⟨B', hB', fun x hx => (hmem x).mpr (.inr hx), fun x hx => ?_⟩
        rcases (hmem x).mp hx with rfl | hx
        · exact .inr ⟨rfl, hk, Nat.lt_of_not_le hb⟩
        · exact .inl hx

theorem mem_keys_countEvent_of_mem (hf : flag ≠ .exist) {x : K} (h : x ∈ m.keys) :
    x ∈ (countEvent inc first flag m k).keys := by
  obtain ⟨B, hB⟩ := HashMap.behind_of_mem h
  obtain ⟨B', hB', -⟩ : ∃ B', (countEvent inc first flag m k).Behind x B' ∧ _ :=
    behind_countEvent hf hB
  exact hB'.mem

/-- What one event adds to a figure of the elements. -/
theorem weigh_countEvent {f : V → Nat} {δ n : Nat} (hinc : ∀ v, f (inc v) ≡ f v + δ [MOD n])
    (hfirst : f first = δ) (h : HasRoom m k) :
    ((countEvent inc first .any m k).weigh fun _ => f) ≡ (m.weigh fun _ => f) + δ [MOD n] := by
  cases hl : m.lookupElem k with
  | some v =>
    rw [countEvent_present hl]
    exact HashMap.weigh_modifyElem_modEq hinc (HashMap.mem_keys_of_lookup hl)
  | none =>
    have hk := HashMap.lookupElem_eq_none.mp hl
    rw [countEvent_absent hl (by decide) (h.resolve_left hk), HashMap.weigh_put_absent _ hk, hfirst]

end

section
variable {K : Type} [DecidableEq K] {m : HashMap K UInt64} {k : K}

/-- The counter of `k` (0 where there is none). -/
def valueOf (m : HashMap K UInt64) (k : K) : Nat := ((m.lookupElem k).getD 0).toNat

theorem valueOf_countEvent (h : HasRoom m k) (d : UInt64) (k' : K) :
    valueOf (countEvent (· + d) d .any m k) k' =
      if k' = k then (valueOf m k + d.toNat) % 2 ^ 64 else valueOf m k' := by
  unfold valueOf
  rw [lookupElem_countEvent (by decide)]
  by_cases hk : k' = k
  · rw [if_pos hk, if_pos hk]
    cases hv : m.lookupElem k with
    | some v => exact UInt64.toNat_add _ _
    | none =>
      have hroom := h.resolve_left (HashMap.lookupElem_eq_none.mp hv)
      rw [if_neg hroom]
      have := d.toNat_lt
      show d.toNat = (0 + d.toNat) % 2 ^ 64
      omega
  · rw [if_neg hk, if_neg hk]

/-- What one event adds to the total: no counter wraps before the total does. -/
theorem total_countEvent (h : HasRoom m k) {d : UInt64} (hlt : m.total + d.toNat < 2 ^ 64) :
    (countEvent (· + d) d .any m k).total = m.total + d.toNat := by
  rw [HashMap.total_eq_weigh] at hlt ⊢
  rw [HashMap.total_eq_weigh]
  cases hl : m.lookupElem k with
  | some v =>
    have hle := HashMap.le_weigh (fun _ => UInt64.toNat) hl
    have hadd : (v + d).toNat = v.toNat + d.toNat := by
      rw [UInt64.toNat_add]
      exact Nat.mod_eq_of_lt (Nat.lt_of_le_of_lt (Nat.add_le_add_right hle _) hlt)
    have hmod := HashMap.weigh_modifyElem (fun _ => UInt64.toNat) (· + d) hl
    rw [countEvent_present hl]
    omega
  | none =>
    have hk := HashMap.lookupElem_eq_none.mp hl
    rw [countEvent_absent hl (by decide) (h.resolve_left hk), HashMap.weigh_put_absent _ hk]

/-- Two counts of the same event keep the same keys. -/
theorem keys_countEvent {m' : HashMap K UInt64} (h : HasRoom m k) (h' : HasRoom m' k)
    (hkeys : ∀ x, x ∈ m.keys ↔ x ∈ m'.keys) {f f' : UInt64 → UInt64} {d d' : UInt64} (x : K) :
    x ∈ (countEvent f d .any m k).keys ↔ x ∈ (countEvent f' d' .any m' k).keys := by
  by_cases hx : x = k
  · subst hx
    exact iff_of_true (mem_keys_countEvent (by decide) h) (mem_keys_countEvent (by decide) h')
  · rw [HashMap.mem_keys_iff, HashMap.mem_keys_iff, lookupElem_countEvent (by decide),
      lookupElem_countEvent (by decide), if_neg hx, if_neg hx, ← HashMap.mem_keys_iff,
      ← HashMap.mem_keys_iff]
    exact hkeys x

end

/-! ## read_stat, write_stat, mmap_stat -/

/-- mirrors src/my_tools/file/read_stat.bpf.c:12-24 -/
def handleEnterRead (m : HashMap UInt32 UInt64) (pid : UInt32) : HashMap UInt32 UInt64 :=
  countEvent (· + 1) 1 .any m pid

/-- mirrors src/my_tools/memo/mmap_stat.bpf.c:12-28 -/
def handleEnterMmap (m : HashMap UInt32 UInt64) (pid : UInt32) : HashMap UInt32 UInt64 :=
  countEvent (· + 1) 1 .noExist m pid

/-! ## irq_stat -/

/-- mirrors src/my_tools/cpu/irq_stat.bpf.c:6-8 -/
structure MyIrqInfo where
  count : UInt64
  deriving DecidableEq

def MyIrqInfo.add (i : MyIrqInfo) : MyIrqInfo := { i with count := i.count + 1 }

/-- Insert a zero if the name is absent, look it up (again) and add. The second
lookup fails when the map is full.
mirrors src/my_tools/cpu/irq_stat.bpf.c:17-35 -/
def handleExecve (m : HashMap Comm MyIrqInfo) (comm : Comm) : HashMap Comm MyIrqInfo :=
  match m.lookupElem comm with
  | some _ => m.modifyElem comm .add
  | none =>
    let m' := m.update comm ⟨0⟩ .any
    match m'.lookupElem comm with
    | some _ => m'.modifyElem comm .add
    | none => m'

theorem handleExecve_present {m : HashMap Comm MyIrqInfo} {c : Comm} (h : c ∈ m.keys) :
    handleExecve m c = m.modifyElem c .add := by
  obtain ⟨v, hv⟩ := HashMap.exists_lookup h
  rw [handleExecve, hv]

theorem handleExecve_absent {m : HashMap Comm MyIrqInfo} {c : Comm} (h : c ∉ m.keys)
    (hroom : ¬ m.Full) : handleExecve m c = (m.put c ⟨0⟩).modifyElem c .add := by
  simp only [handleExecve, HashMap.lookupElem_eq_none.mpr h,
    HashMap.update_absent h (show UpdateFlag.any ≠ .exist by decide) hroom,
    HashMap.lookupElem_put_self]

theorem handleExecve_refused {m : HashMap Comm MyIrqInfo} {c : Comm} (h : c ∉ m.keys)
    (hfull : m.Full) : handleExecve m c = m := by
  simp only [handleExecve, HashMap.lookupElem_eq_none.mpr h, HashMap.update_full h hfull]

/-- An event of `c` puts a new key into the map: its name is absent and there is room. -/
def Inserts (m : HashMap Comm MyIrqInfo) (c : Comm) : Prop := c ∉ m.keys ∧ ¬ m.Full

instance (m : HashMap Comm MyIrqInfo) (c : Comm) : Decidable (Inserts m c) :=
  inferInstanceAs (Decidable (_ ∧ _))

theorem size_handleExecve (m : HashMap Comm MyIrqInfo) (c : Comm) :
    (handleExecve m c).size = m.size + if Inserts m c then 1 else 0 := by
  by_cases h : c ∈ m.keys
  · rw [handleExecve_present h]; simp [Inserts, h]
  · by_cases hfull : m.Full
    · rw [handleExecve_refused h hfull]; simp [Inserts, hfull]
    · rw [handleExecve_absent h hfull, HashMap.size_modifyElem, HashMap.size_put_absent h]
      simp [Inserts, h, hfull]

theorem mem_keys_handleExecve {m : HashMap Comm MyIrqInfo} {c k : Comm} (h : k ∈ m.keys) :
    k ∈ (handleExecve m c).keys := by
  by_cases hc : c ∈ m.keys
  · rw [handleExecve_present hc, HashMap.keys_modifyElem]; exact h
  · by_cases hfull : m.Full
    · rw [handleExecve_refused hc hfull]; exact h
    · rw [handleExecve_absent hc hfull, HashMap.keys_modifyElem]
      exact HashMap.mem_keys_put.mpr (.inr h)

/-! ## tcp_connect -/

/-- mirrors src/my_tools/network/tcp_connect.bpf.c:14-17 -/
structure ConnInfo where
  count : UInt64
  comm : Comm
  deriving DecidableEq

def ConnInfo.add (i : ConnInfo) : ConnInfo := { i with count := i.count + 1 }

/-- The two maps of `tcp_connect`.
mirrors src/my_tools/network/tcp_connect.bpf.c:19-31 -/
structure ConnMaps where
  connCount : HashMap UInt32 ConnInfo
  connExporter : HashMap Comm UInt64

/-- mirrors src/my_tools/network/tcp_connect.bpf.c:33-60 (`conn_count`) -/
def countConn (m : HashMap UInt32 ConnInfo) (pid : UInt32) (comm : Comm) : HashMap UInt32 ConnInfo :=
  countEvent .add ⟨1, comm⟩ .any m pid

/-- mirrors src/my_tools/network/tcp_connect.bpf.c:33-60 -/
def recordConn (s : ConnMaps) (pid : UInt32) (comm : Comm) : ConnMaps where
  connCount := countConn s.connCount pid comm
  connExporter := countEvent (· + 1) 1 .any s.connExporter comm

end EbpfDemo.L2Kernel
