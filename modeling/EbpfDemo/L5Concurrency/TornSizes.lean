import Mathlib.Tactic.FinCases
import EbpfDemo.Core.Machine
import EbpfDemo.L3Loader.Reports

/-!
# disk_io_size: six counters that are read one after the other

`handle_block_rq_issue` counts a request under its kind and in the totals. A poll
looks up the four counters of the kinds, then the two totals, and prints the
differences to the poll before. Requests come at any place between the lookups.

A request that comes behind the lookup of its own kind and in front of that of
the total is in the total only (`Late`); the next poll has it in its kind, so a
poll is short of the late requests of its own and has those of the poll before
in excess.

* `consistent_step`: the rows of a poll add up exactly when these two come to the
  same, and the sums do not wrap;
* `sizes_iff`: over whole runs;
* `sizes_torn`: one read between the lookups.
-/
namespace EbpfDemo.L5Concurrency

open EbpfDemo.Core EbpfDemo.L1Encoding
open L2Kernel L3Loader

/-- What the handler reads of a request.
mirrors src/my_tools/disk/disk_io_size.bpf.c:33-40,66 -/
structure RqIssue where
  nrSector : UInt32
  rwbs0 : UInt8
  pid : UInt32

namespace RqIssue

def bytes (r : RqIssue) : UInt64 := r.nrSector.toUInt64 * 512

def isWrite (r : RqIssue) : Bool := r.rwbs0 == 'W'.toUInt8

/-- mirrors src/my_tools/disk/disk_io_size.bpf.c:69-77 -/
def firstPidIo (r : RqIssue) : PidIo :=
  if r.isWrite then ⟨0, r.bytes, 0, 1⟩ else ⟨r.bytes, 0, 1, 0⟩

/-- mirrors src/my_tools/disk/disk_io_size.bpf.c:80-86 -/
def addPidIo (r : RqIssue) (pio : PidIo) : PidIo :=
  if r.isWrite then
    { pio with writeBytes := pio.writeBytes + r.bytes, writeCount := pio.writeCount + 1 }
  else { pio with readBytes := pio.readBytes + r.bytes, readCount := pio.readCount + 1 }

end RqIssue

/-- mirrors src/my_tools/disk/disk_io_size.bpf.c:9-31 -/
structure DiskIoSize where
  ioSizeStats : ArrayMap UInt64 8
  pidIoStats : HashMap UInt32 PidIo

/-- mirrors src/my_tools/disk/disk_io_size.bpf.c:49-64 -/
def addStats (m : ArrayMap UInt64 8) (r : RqIssue) : ArrayMap UInt64 8 :=
  let m :=
    if r.isWrite then (m.modifyElem 1 (· + r.bytes)).modifyElem 3 (· + 1)
    else (m.modifyElem 0 (· + r.bytes)).modifyElem 2 (· + 1)
  (m.modifyElem 4 (· + r.bytes)).modifyElem 5 (· + 1)

/-- mirrors src/my_tools/disk/disk_io_size.bpf.c:33-90 -/
def handleBlockRqIssue (s : DiskIoSize) (r : RqIssue) : DiskIoSize where
  ioSizeStats := addStats s.ioSizeStats r
  pidIoStats := countEvent r.addPidIo r.firstPidIo .any s.pidIoStats r.pid

namespace TornSizes

/-- What a request adds to the counter `i`. -/
def share (r : RqIssue) : Fin 6 → Nat
  | 0 => if r.isWrite then 0 else r.bytes.toNat
  | 1 => if r.isWrite then r.bytes.toNat else 0
  | 2 => if r.isWrite then 0 else 1
  | 3 => if r.isWrite then 1 else 0
  | 4 => r.bytes.toNat
  | 5 => 1

/-- The key of the counter `i`. -/
def key (i : Fin 6) : UInt32 := UInt32.ofNat i.val

theorem valueAt_modifyElem (m : ArrayMap UInt64 8) {k : UInt32} (hk : k.toNat < 8) (d : UInt64)
    (i : Fin 6) : (m.modifyElem k (· + d)).valueAt (key i) =
      (m.valueAt (key i) + if key i = k then d.toNat else 0) % 2 ^ 64 := by
  rw [ArrayMap.valueAt_modifyElem hk]
  by_cases h : key i = k
  · rw [if_pos h, if_pos h, h]
  · rw [if_neg h, if_neg h, Nat.add_zero, Nat.mod_eq_of_lt (m.valueAt_lt _)]

theorem valueAt_addStats (m : ArrayMap UInt64 8) (r : RqIssue) (i : Fin 6) :
    (addStats m r).valueAt (key i) = (m.valueAt (key i) + share r i) % 2 ^ 64 := by
  unfold addStats
  cases hw : r.isWrite with
  | false =>
    simp only [Bool.false_eq_true, if_false]
    rw [valueAt_modifyElem _ (by decide), valueAt_modifyElem _ (by decide),
      valueAt_modifyElem _ (by decide), valueAt_modifyElem _ (by decide)]
    simp only [Nat.mod_add_mod, Nat.add_assoc]
    congr 2
    fin_cases i <;> simp [share, hw, key]
  | true =>
    simp only [if_true]
    rw [valueAt_modifyElem _ (by decide), valueAt_modifyElem _ (by decide),
      valueAt_modifyElem _ (by decide), valueAt_modifyElem _ (by decide)]
    simp only [Nat.mod_add_mod, Nat.add_assoc]
    congr 2
    fin_cases i <;> simp [share, hw, key]

/-! ## The machine -/

def diskReadBytesKey : Key := .named (str "disk_read_bytes") (by decide)
def diskWriteBytesKey : Key := .named (str "disk_write_bytes") (by decide)
def diskReadCountKey : Key := .named (str "disk_read_count") (by decide)
def diskWriteCountKey : Key := .named (str "disk_write_count") (by decide)
def diskTotalBytesKey : Key := .named (str "disk_total_bytes") (by decide)
def diskTotalCountKey : Key := .named (str "disk_total_count") (by decide)
def diskReadAvgKey : Key := .named (str "disk_read_avg_kb") (by decide)
def diskWriteAvgKey : Key := .named (str "disk_write_avg_kb") (by decide)
def diskIoAvgKbKey : Key := .named (str "disk_io_avg_kb") (by decide)

/-- The label of the counter `i`. -/
def sizeKey : Fin 6 → Key
  | 0 => diskReadBytesKey
  | 1 => diskWriteBytesKey
  | 2 => diskReadCountKey
  | 3 => diskWriteCountKey
  | 4 => diskTotalBytesKey
  | 5 => diskTotalCountKey

/-- `%.3f` of a mean size in KiB. -/
def meanKb (bytes count : UInt64) : Numeral := fixed3 (bytes.toNat / 1024 / count.toNat)

/-- mirrors src/my_tools/disk/disk_io_size.c:60-86 -/
def sizeRows (d : Fin 6 → UInt64) : List Row :=
  if d 5 > 0 then
    (List.finRange 6).map (fun i => ⟨sizeKey i, .llu (d i).toNat⟩) ++
    (if d 2 > 0 then [⟨diskReadAvgKey, meanKb (d 0) (d 2)⟩] else []) ++
    (if d 3 > 0 then [⟨diskWriteAvgKey, meanKb (d 1) (d 3)⟩] else []) ++
    [⟨diskIoAvgKbKey, meanKb (d 4) (d 5)⟩]
  else []

/-- The rows of a poll add up. -/
structure Consistent (rows : List Row) : Prop where
  bytes : ∀ t ∈ valuesAt diskTotalBytesKey rows, ∀ r ∈ valuesAt diskReadBytesKey rows,
    ∀ w ∈ valuesAt diskWriteBytesKey rows, t = r + w
  count : ∀ t ∈ valuesAt diskTotalCountKey rows, ∀ r ∈ valuesAt diskReadCountKey rows,
    ∀ w ∈ valuesAt diskWriteCountKey rows, t = r + w

/-- Bytes and requests in a total and not in their kind. -/
structure Late where
  bytes : Nat
  count : Nat

/-- What is late of a request that comes before lookup `pos`. -/
def late (r : RqIssue) (pos : Fin 6) : Late where
  bytes := if (if r.isWrite then 1 else 0) < pos ∧ pos ≤ 4 then r.bytes.toNat else 0
  count := if (if r.isWrite then 3 else 2) < pos then 1 else 0

/-- `pos` is the next lookup; the poll starts with lookup 0. `span i` is what came
of `i` between lookup `i` of the poll before and that of this poll, `rest i` what
came behind the latter; `late` is of this poll, `lastLate` of the poll before. -/
structure State where
  prog : DiskIoSize
  pos : Fin 6
  cur : Fin 6 → UInt64
  prev : Fin 6 → UInt64
  reports : List (List Row)
  span : Fin 6 → Nat
  rest : Fin 6 → Nat
  late : Late
  lastLate : Late

def start (b : UInt32 → Nat) : State where
  prog := ⟨Vector.replicate 8 0, .empty b 10240⟩
  pos := 0
  cur _ := 0
  prev _ := 0
  reports := []
  span _ := 0
  rest _ := 0
  late := ⟨0, 0⟩
  lastLate := ⟨0, 0⟩

inductive Label where
  | issue (r : RqIssue)
  | look

def State.issue (s : State) (r : RqIssue) : State :=
  { s with
    prog := handleBlockRqIssue s.prog r
    span := fun i => s.span i + if s.pos ≤ i then share r i else 0
    rest := fun i => s.rest i + if s.pos ≤ i then 0 else share r i
    late := ⟨s.late.bytes + (TornSizes.late r s.pos).bytes,
      s.late.count + (TornSizes.late r s.pos).count⟩ }

/-- `cur` behind the next lookup. -/
def State.looked (s : State) : Fin 6 → UInt64 :=
  Function.update s.cur s.pos ((s.prog.ioSizeStats.lookupElem (key s.pos)).getD 0)

/-- mirrors src/my_tools/disk/disk_io_size.c:47-86,106-107 -/
def State.look (s : State) : State :=
  if s.pos = 5 then
    { s with
      pos := 0
      cur := fun _ => 0
      prev := s.looked
      reports := sizeRows (fun i => s.looked i - s.prev i) :: s.reports
      span := s.rest
      rest := fun _ => 0
      late := ⟨0, 0⟩
      lastLate := s.late }
  else { s with pos := s.pos + 1, cur := s.looked }

def step (s : State) : Label → Option State
  | .issue r => some (s.issue r)
  | .look => some s.look

/-- Every poll that printed something printed rows that add up. -/
def Sound (s : State) : Prop := ∀ rows ∈ s.reports, Consistent rows

/-- At the last lookup of a poll that prints, the late requests of the poll come to
the same as those of the poll before, and what the kinds add up to does not wrap. -/
def Even (s : State) : Label → Prop
  | .issue _ => True
  | .look => s.pos = 5 → s.span 5 % 2 ^ 64 ≠ 0 →
      (s.late.bytes % 2 ^ 64 = s.lastLate.bytes % 2 ^ 64 ∧
        s.span 0 % 2 ^ 64 + s.span 1 % 2 ^ 64 < 2 ^ 64) ∧
      s.late.count % 2 ^ 64 = s.lastLate.count % 2 ^ 64 ∧
        s.span 2 % 2 ^ 64 + s.span 3 % 2 ^ 64 < 2 ^ 64

/-! ## The rows of a poll -/

theorem valuesAt_counters (d : Fin 6 → UInt64) (i : Fin 6) :
    valuesAt (sizeKey i) ((List.finRange 6).map fun j => ⟨sizeKey j, .llu (d j).toNat⟩) =
      [((d i).toNat : ℚ)] := by
  have hone : ∀ i, (List.finRange 6).filter (fun j => sizeKey j = sizeKey i) = [i] := by decide
  have hf : (fun r : Row => decide (r.key = sizeKey i)) ∘
      (fun j => (⟨sizeKey j, .llu (d j).toNat⟩ : Row)) =
      fun j => decide (sizeKey j = sizeKey i) := rfl
  unfold valuesAt
  rw [List.filter_map, hf, hone i]; rfl

/-- The counters stand once in the rows of a poll that prints. -/
theorem valuesAt_sizeRows (d : Fin 6 → UInt64) (i : Fin 6) :
    valuesAt (sizeKey i) (sizeRows d) = if d 5 > 0 then [((d i).toNat : ℚ)] else [] := by
  have hmean : ∀ i, ∀ k ∈ [diskReadAvgKey, diskWriteAvgKey, diskIoAvgKbKey], k ≠ sizeKey i := by
    decide
  have hnone : ∀ k ∈ [diskReadAvgKey, diskWriteAvgKey, diskIoAvgKbKey], ∀ n,
      valuesAt (sizeKey i) [⟨k, n⟩] = [] := by
    intro k hk n
    simp [valuesAt, hmean i k hk]
  have hopt : ∀ k ∈ [diskReadAvgKey, diskWriteAvgKey, diskIoAvgKbKey], ∀ n, ∀ c : Prop,
      [Decidable c] → valuesAt (sizeKey i) (if c then [⟨k, n⟩] else []) = [] := by
    intro k hk n c _
    split
    · exact hnone k hk n
    · rfl
  unfold sizeRows
  by_cases h : d 5 > 0
  · rw [if_pos h, if_pos h, valuesAt_append, valuesAt_append, valuesAt_append, valuesAt_counters,
      hopt _ (by simp), hopt _ (by simp), hnone _ (by simp)]
    rfl
  · rw [if_neg h, if_neg h]; rfl

theorem consistent_sizeRows (d : Fin 6 → UInt64) : Consistent (sizeRows d) ↔
    (d 5 > 0 → (d 4).toNat = (d 0).toNat + (d 1).toNat ∧
      (d 5).toNat = (d 2).toNat + (d 3).toNat) := by
  have hv := valuesAt_sizeRows d
  constructor
  · intro hC h
    have hmem : ∀ i, ((d i).toNat : ℚ) ∈ valuesAt (sizeKey i) (sizeRows d) := by
      intro i
      rw [hv, if_pos h]; exact List.mem_singleton_self _
    have hb := hC.bytes _ (hmem 4) _ (hmem 0) _ (hmem 1)
    have hc := hC.count _ (hmem 5) _ (hmem 2) _ (hmem 3)
    exact ⟨by exact_mod_cast hb, by exact_mod_cast hc⟩
  · intro h
    have hval : ∀ i v, v ∈ valuesAt (sizeKey i) (sizeRows d) → d 5 > 0 ∧ v = (d i).toNat := by
      intro i v hm
      rw [hv] at hm
      split at hm
      · exact ⟨‹_›, List.mem_singleton.mp hm⟩
      · cases hm
    constructor
    · intro t ht r hr w hw
      obtain ⟨hp, rfl⟩ := hval 4 t ht
      rw [(hval 0 r hr).2, (hval 1 w hw).2, (h hp).1, Nat.cast_add]
    · intro t ht r hr w hw
      obtain ⟨hp, rfl⟩ := hval 5 t ht
      rw [(hval 2 r hr).2, (hval 3 w hw).2, (h hp).2, Nat.cast_add]

/-! ## What a run keeps -/

/-- The counters, what was read of them, and where the requests went. -/
structure Inv (s : State) : Prop where
  stats : ∀ i, s.prog.ioSizeStats.valueAt (key i) =
    ((s.prev i).toNat + s.span i + s.rest i) % 2 ^ 64
  cur : ∀ i < s.pos, (s.cur i).toNat = ((s.prev i).toNat + s.span i) % 2 ^ 64
  bytes : s.span 4 + s.lastLate.bytes = s.span 0 + s.span 1 + s.late.bytes
  count : s.span 5 + s.lastLate.count = s.span 2 + s.span 3 + s.late.count
  restBytes : s.rest 4 + s.late.bytes = s.rest 0 + s.rest 1
  restCount : s.rest 5 + s.late.count = s.rest 2 + s.rest 3
  quiet : ∀ i, s.pos ≤ i → s.rest i = 0

/-- Where a request goes: in the kinds and the totals, or it is late. -/
theorem share_split (r : RqIssue) (pos : Fin 6) :
    (if pos ≤ 4 then share r 4 else 0) = (if pos ≤ 0 then share r 0 else 0) +
      (if pos ≤ 1 then share r 1 else 0) + (late r pos).bytes ∧
    (if pos ≤ 4 then 0 else share r 4) + (late r pos).bytes =
      (if pos ≤ 0 then 0 else share r 0) + (if pos ≤ 1 then 0 else share r 1) ∧
    (if pos ≤ 5 then share r 5 else 0) = (if pos ≤ 2 then share r 2 else 0) +
      (if pos ≤ 3 then share r 3 else 0) + (late r pos).count ∧
    (if pos ≤ 5 then 0 else share r 5) + (late r pos).count =
      (if pos ≤ 2 then 0 else share r 2) + (if pos ≤ 3 then 0 else share r 3) := by
  cases hw : r.isWrite <;> fin_cases pos <;> simp [share, late, hw]

theorem inv_issue {s : State} (hI : Inv s) (r : RqIssue) : Inv (s.issue r) := by
  obtain ⟨hb, hrb, hc, hrc⟩ := share_split r s.pos
  refine ⟨fun i => ?_, fun i hi => ?_, ?_, ?_, ?_, ?_, fun i hi => ?_⟩
  · show (addStats s.prog.ioSizeStats r).valueAt (key i) = ((s.prev i).toNat +
      (s.span i + if s.pos ≤ i then share r i else 0) +
      (s.rest i + if s.pos ≤ i then 0 else share r i)) % 2 ^ 64
    rw [valueAt_addStats, hI.stats]
    split <;> omega
  · have hn : ¬ s.pos ≤ i := not_le.mpr hi
    show (s.cur i).toNat =
      ((s.prev i).toNat + (s.span i + if s.pos ≤ i then share r i else 0)) % 2 ^ 64
    rw [if_neg hn]; exact hI.cur i hi
  · have := hI.bytes
    simp only [State.issue]; omega
  · have := hI.count
    simp only [State.issue]; omega
  · have := hI.restBytes
    simp only [State.issue]; omega
  · have := hI.restCount
    simp only [State.issue]; omega
  · have hp : s.pos ≤ i := hi
    show (s.rest i + if s.pos ≤ i then 0 else share r i) = 0
    rw [if_pos hp]; exact hI.quiet i hi

/-- What the poll holds of the counters up to the next lookup. -/
theorem looked_toNat {s : State} (hI : Inv s) {i : Fin 6} (hi : i ≤ s.pos) :
    (s.looked i).toNat = ((s.prev i).toNat + s.span i) % 2 ^ 64 := by
  unfold State.looked
  rcases eq_or_lt_of_le hi with rfl | hlt
  · rw [Function.update_self]
    have hs := hI.stats s.pos
    rw [hI.quiet _ (le_refl _)] at hs
    exact hs
  · rw [Function.update_of_ne (ne_of_lt hlt)]
    exact hI.cur i hlt

theorem inv_look {s : State} (hI : Inv s) : Inv s.look := by
  unfold State.look
  by_cases hp : s.pos = 5
  · rw [if_pos hp]
    have hlook : ∀ i, (s.looked i).toNat = ((s.prev i).toNat + s.span i) % 2 ^ 64 :=
      fun i => looked_toNat hI (by rw [hp]; exact Fin.le_last i)
    refine ⟨fun i => ?_, fun i hi => absurd hi (Fin.not_lt_zero i), ?_, ?_, rfl, rfl, fun _ _ => rfl⟩
    · show s.prog.ioSizeStats.valueAt (key i) = ((s.looked i).toNat + s.rest i + 0) % 2 ^ 64
      rw [hI.stats, hlook, Nat.add_zero, Nat.mod_add_mod]
    · exact hI.restBytes
    · exact hI.restCount
  · rw [if_neg hp]
    have hlt : ∀ i, i < s.pos + 1 ↔ i ≤ s.pos := by
      have h5 : ∀ p i : Fin 6, p ≠ 5 → (i < p + 1 ↔ i ≤ p) := by decide
      exact fun i => h5 s.pos i hp
    refine ⟨hI.stats, fun i hi => looked_toNat hI ((hlt i).mp hi), hI.bytes, hI.count, hI.restBytes,
      hI.restCount, fun i hi => hI.quiet i ?_⟩
    have hle : s.pos ≤ s.pos + 1 := le_of_lt ((hlt s.pos).mpr (le_refl _))
    exact le_trans hle hi

theorem inv_step (s : State) (l : Label) (s' : State) (hI : Inv s) (h : step s l = some s') :
    Inv s' := by
  cases l with
  | issue r => cases h; exact inv_issue hI r
  | look => cases h; exact inv_look hI

theorem inv_start (b : UInt32 → Nat) : Inv (start b) := by
  refine ⟨?_, fun i hi => absurd hi (Fin.not_lt_zero i), rfl, rfl, rfl, rfl, fun _ _ => rfl⟩
  show ∀ i, ArrayMap.valueAt (Vector.replicate 8 0) (key i) = 0
  decide

/-- The differences of a poll are what came between the lookups. -/
theorem diff_toNat {s : State} (hI : Inv s) (hp : s.pos = 5) (i : Fin 6) :
    (s.looked i - s.prev i).toNat = s.span i % 2 ^ 64 := by
  have hl := looked_toNat hI (i := i) (by rw [hp]; exact Fin.le_last i)
  have hlt := (s.prev i).toNat_lt
  rw [UInt64.toNat_sub, hl]
  omega

/-- A total is the sum of its kinds, up to what is late. -/
theorem total_iff {total a b late lastLate : Nat} (h : total + lastLate = a + b + late) :
    total % 2 ^ 64 = a % 2 ^ 64 + b % 2 ^ 64 ↔
      late % 2 ^ 64 = lastLate % 2 ^ 64 ∧ a % 2 ^ 64 + b % 2 ^ 64 < 2 ^ 64 := by
  omega

/-- **One poll**: its rows add up exactly under the condition. -/
theorem consistent_step {s : State} (hI : Inv s) (hp : s.pos = 5) :
    Consistent (sizeRows fun i => s.looked i - s.prev i) ↔ Even s .look := by
  have hd := diff_toNat hI hp
  have hprint : s.looked 5 - s.prev 5 > 0 ↔ s.span 5 % 2 ^ 64 ≠ 0 := by
    rw [gt_iff_lt, UInt64.lt_iff_toNat_lt, hd 5]; exact Nat.pos_iff_ne_zero
  rw [consistent_sizeRows, hprint, hd, hd, hd, hd, hd, hd, total_iff hI.bytes, total_iff hI.count]
  exact ⟨fun h _ => h, fun h => h hp⟩

theorem sound_step {s s' : State} {l : Label} (hI : Inv s) (hS : Sound s)
    (h : step s l = some s') : Sound s' ↔ Even s l := by
  cases l with
  | issue r => cases h; exact iff_of_true hS trivial
  | look =>
    cases h
    unfold State.look
    by_cases hp : s.pos = 5
    · rw [if_pos hp, ← consistent_step hI hp]
      exact ⟨fun h => h _ List.mem_cons_self,
        fun h => List.forall_mem_cons.mpr ⟨h, hS⟩⟩
    · rw [if_neg hp]
      exact iff_of_true hS fun h => absurd h hp

/-- **Consistent reports.** Over any run the rows of every poll add up exactly when
at every last lookup of a poll that prints the late requests come to the same as
those of the poll before. -/
theorem sizes_iff (b : UInt32 → Nat) (ls : List Label) :
    Always step Sound (start b) ls ↔ Along step Even (start b) ls := by
  have htotal : ∀ s l, ∃ s', step s l = some s' := by
    intro s l
    cases l with
    | issue r => exact ⟨_, rfl⟩
    | look => exact ⟨_, rfl⟩
  obtain ⟨t, ht⟩ := exec_of_total htotal (start b) ls
  exact always_iff_along inv_step (fun _ _ _ hI hS hs => sound_step hI hS hs) (inv_start b)
    (List.forall_mem_nil _) ht

/-- A read of 8 sectors. -/
def readPage : RqIssue := ⟨8, 'R'.toUInt8, 5⟩

/-- The read comes between the lookup of the bytes read and the others. -/
def readBetween : List Label := [.look, .issue readPage, .look, .look, .look, .look, .look]

/-- **Counterexample.** 4096 bytes in all, none of them read and none written. -/
theorem sizes_torn :
    (exec step (start fun _ => 0) readBetween).map
      (fun s => s.reports.map fun rows => (valuesAt diskTotalBytesKey rows,
        valuesAt diskReadBytesKey rows, valuesAt diskWriteBytesKey rows)) =
      some [([4096], [0], [0])] ∧
    ¬ Always step Sound (start fun _ => 0) readBetween := by
  have hx : (exec step (start fun _ => 0) readBetween).map
      (fun s => s.reports.map fun rows => (valuesAt diskTotalBytesKey rows,
        valuesAt diskReadBytesKey rows, valuesAt diskWriteBytesKey rows)) =
      some [([4096], [0], [0])] := by decide +kernel
  refine ⟨hx, fun hA => ?_⟩
  obtain ⟨s, hs, hv⟩ := Option.map_eq_some_iff.mp hx
  obtain ⟨rows, hrows, he⟩ := List.mem_map.mp (hv ▸ List.mem_singleton_self _)
  obtain ⟨ht, hrw⟩ := Prod.mk.inj he
  obtain ⟨hr, hw⟩ := Prod.mk.inj hrw
  have hsum := (hA.last hs rows hrows).bytes 4096 (by rw [ht]; simp) 0 (by rw [hr]; simp) 0
    (by rw [hw]; simp)
  norm_num at hsum

end TornSizes
end EbpfDemo.L5Concurrency
