import Mathlib.Data.List.Induction
import EbpfDemo.Core.Machine
import EbpfDemo.L3Loader.Drain

/-!
# irq_stat's entry buffer

A poll of `irq_stat` collects the entries into `struct entry data[512]` and
deletes each one after reading it. The map never holds more than 512 keys, but
a process that calls execve puts its name back as soon as it was deleted, and
the walk, whose cursor is the deleted key, starts again from the front. Nothing
bounds `total_entries`.

`irqStep` is one poll interleaved with `handle_execve` events at the level of
map calls. Two ghost counters say how many keys came into play: `start` (keys
in the map when the poll began) and `inserted` (keys put in by events since).
Every key that was collected has left the map, so

    total_entries + keys in the map = start + inserted

between two turns (`irqInv_step`), and a poll during which at most 512 keys come into
play stays inside the buffer (`irqBuffer_few`). More of them need not be collected: a
key that was put in behind the walk is left in the map. `irqBuffer_overflow`: two
processes that take turns calling execve write `data[512]`.
-/
namespace EbpfDemo.L3Loader

open EbpfDemo.Core
open L2Kernel

structure IrqRun where
  st : DState Comm MyIrqInfo
  start : Nat
  inserted : Nat

inductive IrqLbl where
  | poll
  | execve (c : Comm)

def irqBegin (m : HashMap Comm MyIrqInfo) : IrqRun := ⟨begin irqStat m, m.size, 0⟩

/-- One map call of the poll (none is left once it is idle) or one event. -/
def irqStep (s : IrqRun) : IrqLbl → Option IrqRun
  | .poll => if s.st.pc = .idle then none else some { s with st := pollStep irqStat s.st }
  | .execve c =>
    some { s with
      st := { s.st with map := handleExecve s.st.map c }
      inserted := s.inserted + if Inserts s.st.map c then 1 else 0 }

/-- The step writes `data[i]`: a lookup of the poll that finds its key.
mirrors src/my_tools/cpu/irq_stat.c:59-63 -/
def Writes (s : IrqRun) (l : IrqLbl) (i : Nat) : Prop :=
  l = .poll ∧ (∃ k v, s.st.pc = .look k ∧ s.st.map.lookupElem k = some v) ∧ i = s.st.seen.length

/-- Every write of the step is inside `data[512]`. -/
def InBounds (s : IrqRun) (l : IrqLbl) : Prop := ∀ i, Writes s l i → i < 512

/-- At most 512 keys have come into play: those the poll found, and those that events
have put in since. -/
def Few (s : IrqRun) (_ : IrqLbl) : Prop := s.start + s.inserted ≤ 512

/-! ## Invariant -/

/-- What the loop has in hand is in the map (only the poll deletes), and every
key that came into play is in the map or was collected; between the lookup and
the deletion of a key it is both. -/
def IrqInv (s : IrqRun) : Prop :=
  match s.st.pc with
  | .look k => k ∈ s.st.map.keys ∧ s.st.seen.length + s.st.map.size = s.start + s.inserted
  | .clear k => k ∈ s.st.map.keys ∧ s.st.seen.length + s.st.map.size = s.start + s.inserted + 1
  | _ => s.st.seen.length + s.st.map.size = s.start + s.inserted

theorem irqInv_begin (m : HashMap Comm MyIrqInfo) : IrqInv (irqBegin m) := by
  simp [IrqInv, irqBegin, begin]

theorem irqInv_poll {s : IrqRun} (h : IrqInv s) (hpc : s.st.pc ≠ .idle) :
    IrqInv { s with st := pollStep irqStat s.st } := by
  unfold IrqInv at h
  cases hp : s.st.pc with
  | idle => exact absurd hp hpc
  | next =>
    rw [hp] at h
    cases hk : s.st.map.getNextKey s.st.cursor with
    | none => simpa only [IrqInv, pollStep, hp, hk] using h
    | some k =>
      simp only [IrqInv, pollStep, hp, hk]
      exact ⟨HashMap.mem_of_getNextKey hk, h⟩
  | look k =>
    rw [hp] at h
    obtain ⟨v, hv⟩ := HashMap.exists_lookup h.1
    simp only [IrqInv, pollStep, hp, hv, irqStat, if_true, List.length_append,
      List.length_singleton]
    exact ⟨h.1, by have := h.2; omega⟩
  | clear k =>
    rw [hp] at h
    have hsz := HashMap.size_deleteElem h.1
    simp only [IrqInv, pollStep, hp, irqStat]
    have := h.2; omega

theorem irqInv_execve {s : IrqRun} (h : IrqInv s) (c : Comm) :
    IrqInv { s with
      st := { s.st with map := handleExecve s.st.map c }
      inserted := s.inserted + if Inserts s.st.map c then 1 else 0 } := by
  have hsz := size_handleExecve s.st.map c
  unfold IrqInv at h ⊢
  cases hp : s.st.pc <;> simp only [hp] at h ⊢
  · omega
  · omega
  · exact ⟨mem_keys_handleExecve h.1, by omega⟩
  · exact ⟨mem_keys_handleExecve h.1, by omega⟩

theorem irqInv_step (s : IrqRun) (l : IrqLbl) (s' : IrqRun) (h : IrqInv s)
    (hst : irqStep s l = some s') : IrqInv s' := by
  cases l with
  | poll =>
    simp only [irqStep] at hst
    split at hst
    · cases hst
    · cases hst; exact irqInv_poll h ‹_›
  | execve c => cases hst; exact irqInv_execve h c

/-! ## Bounds -/

/-- `irq_stats` with the one name `a` in it. -/
def onlyA : HashMap Comm MyIrqInfo where
  bucketOf _ := 0
  maxEntries := 512
  elems := [(nameA, ⟨1⟩)]
  ranked := List.pairwise_singleton _ _
  nodup := List.nodup_singleton _

/-- A turn of the loop collects and deletes the one name in the map, then the
other process calls execve. -/
def turns : Comm → Comm → Nat → List IrqLbl
  | _, _, 0 => []
  | x, y, n + 1 => .poll :: .poll :: .poll :: .execve y :: turns y x n

/-- What is about to be collected is still in the map. -/
theorem write_lt {s : IrqRun} {l : IrqLbl} {i : Nat} (h : IrqInv s) (hw : Writes s l i) :
    i < s.start + s.inserted := by
  obtain ⟨-, ⟨k, v, hp, hv⟩, rfl⟩ := hw
  have hpos : 0 < s.st.map.size := List.length_pos_of_mem (HashMap.lookupElem_iff_mem.mp hv)
  unfold IrqInv at h
  rw [hp] at h
  have := h.2
  omega

theorem inBounds_of_few {s : IrqRun} {l : IrqLbl} (h : IrqInv s) (hf : Few s l) : InBounds s l :=
  fun _ hw => Nat.lt_of_lt_of_le (write_lt h hw) hf

/-! ## Two names that take turns -/

/-- Before a turn: `x` is the one name in the map, `n` entries are collected. -/
structure Turn (x : Comm) (n : Nat) (s : IrqRun) : Prop where
  pc : s.st.pc = .next
  elems : s.st.map.elems = [(x, ⟨1⟩)]
  cursor : ∀ k, s.st.cursor = some k → k ≠ x
  seen : s.st.seen.length = n
  cap : s.st.map.maxEntries = 512

theorem Turn.next {x : Comm} {n : Nat} {s : IrqRun} (h : Turn x n s) :
    s.st.map.getNextKey s.st.cursor = some x ∧ s.st.map.lookupElem x = some ⟨1⟩ := by
  have hk : s.st.map.keys = [x] := by rw [HashMap.keys, h.elems]; rfl
  refine ⟨?_, HashMap.lookupElem_iff_mem.mpr (by rw [h.elems]; exact List.mem_singleton_self _)⟩
  cases hc : s.st.cursor with
  | none => rw [HashMap.getNextKey, hk]; rfl
  | some k =>
    rw [HashMap.getNextKey_absent (by rw [hk, List.mem_singleton]; exact h.cursor k hc), hk]; rfl

theorem Turn.turn {x y : Comm} {n : Nat} {s : IrqRun} (h : Turn x n s) (hxy : x ≠ y) :
    ∃ s', exec irqStep s [.poll, .poll, .poll, .execve y] = some s' ∧ Turn y (n + 1) s' := by
  obtain ⟨hk, hv⟩ := h.next
  have hdel : (s.st.map.deleteElem x).elems = [] := HashMap.elems_deleteElem_head h.elems
  have hy : y ∉ (s.st.map.deleteElem x).keys := by simp [HashMap.keys, hdel]
  have hroom : ¬ (s.st.map.deleteElem x).Full := by
    have : (s.st.map.deleteElem x).maxEntries = 512 := h.cap
    simp [HashMap.Full, HashMap.size, hdel, this]
  refine ⟨_, by simp only [exec, irqStep, h.pc, pollStep, hk, hv, irqStat, if_true, reduceCtorEq,
    if_false, Option.bind_some]; exact rfl, ?_⟩
  refine ⟨rfl, ?_, fun k hk => ?_, by simp [h.seen], ?_⟩
  · show (handleExecve (s.st.map.deleteElem x) y).elems = _
    rw [handleExecve_absent hy hroom]
    have e1 : ((s.st.map.deleteElem x).put y ⟨0⟩).elems = [(y, ⟨0⟩)] := by
      show Assoc.place _ _ (Assoc.erase y (s.st.map.deleteElem x).elems) = _
      rw [hdel]; rfl
    show Assoc.adjust y _ ((s.st.map.deleteElem x).put y ⟨0⟩).elems = _
    rw [e1]; simp [Assoc.adjust, MyIrqInfo.add]
  · cases hk; exact hxy
  · show (handleExecve (s.st.map.deleteElem x) y).maxEntries = _
    rw [handleExecve_absent hy hroom]; exact h.cap

theorem turns_run (n : Nat) : ∀ {x y : Comm} {k : Nat} {s : IrqRun}, x ≠ y → Turn x k s →
    ∃ s' z, exec irqStep s (turns x y n) = some s' ∧ Turn z (k + n) s' := by
  induction n with
  | zero => intro x y k s _ h; exact ⟨s, x, rfl, h⟩
  | succ n ih =>
    intro x y k s hxy h
    obtain ⟨s1, hx1, h1⟩ := h.turn hxy
    obtain ⟨s2, z, hx2, h2⟩ := ih hxy.symm h1
    refine ⟨s2, z, exec_trans hx1 hx2, ?_⟩
    rw [show k + (n + 1) = k + 1 + n by omega]; exact h2

/-- **The entry buffer.** Over one poll and any interleaving of events with its map
calls, every write is inside the buffer as long as at most 512 keys have come into play. -/
theorem irqBuffer_few (m : HashMap Comm MyIrqInfo) (ls : List IrqLbl) (t : IrqRun)
    (hx : exec irqStep (irqBegin m) ls = some t) (hf : Along irqStep Few (irqBegin m) ls) :
    Along irqStep InBounds (irqBegin m) ls :=
  hf.imp (fun s l s' h _ hs => irqInv_step s l s' h hs) (fun _ _ _ h hf _ => inBounds_of_few h hf)
    (irqInv_begin m) hx

/-- Keys only come into play. -/
theorem few_of_step {s s' : IrqRun} {l : IrqLbl} (hs : irqStep s l = some s')
    (h : s'.start + s'.inserted ≤ 512) : Few s l := by
  unfold Few
  cases l with
  | poll =>
    simp only [irqStep] at hs
    split at hs
    · cases hs
    · cases hs; exact h
  | execve c =>
    cases hs
    exact (Nat.add_le_add_left (Nat.le_add_right _ _) _).trans h

/-- Few at the end, few throughout. -/
theorem along_few {s t : IrqRun} {ls : List IrqLbl} (hx : exec irqStep s ls = some t)
    (ht : t.start + t.inserted ≤ 512) : Along irqStep Few s ls := by
  induction ls using List.reverseRecOn generalizing t with
  | nil => trivial
  | append_singleton ls l ih =>
    rw [exec_append] at hx
    obtain ⟨u, hu, hl⟩ := Option.bind_eq_some_iff.mp hx
    obtain ⟨t', ht', hx'⟩ := exec_cons_some hl
    cases hx'
    have hf : Few u l := few_of_step ht' ht
    exact (along_append hu).mpr ⟨ih hu hf, hf, fun _ _ => trivial⟩

/-- `n` turns from the one name `a`: one key in play at the start, one more in each. -/
theorem turns_onlyA (n : Nat) : ∃ s z, exec irqStep (irqBegin onlyA) (turns nameA nameB n) = some s ∧
    Turn z n s ∧ s.start + s.inserted = n + 1 := by
  have h0 : Turn nameA 0 (irqBegin onlyA) := ⟨rfl, rfl, fun k hk => (by cases hk), rfl, rfl⟩
  obtain ⟨s, z, hx, hT⟩ := turns_run n (show nameA ≠ nameB by decide) h0
  rw [Nat.zero_add] at hT
  have hI : IrqInv s := inv_exec irqInv_step (irqInv_begin onlyA) hx
  unfold IrqInv at hI
  rw [hT.pc] at hI
  refine ⟨s, z, hx, hT, ?_⟩
  rw [← hI, hT.seen, HashMap.size, hT.elems]
  rfl

/-- The lookup behind a turn, which collects one entry more. -/
theorem Turn.collects {x : Comm} {n : Nat} {s : IrqRun} (h : Turn x n s) :
    irqStep s .poll = some { s with st := { s.st with pc := .look x } } ∧
    Writes { s with st := { s.st with pc := .look x } } .poll n ∧
    ∃ t, exec irqStep s [.poll, .poll] = some t ∧ t.start = s.start ∧ t.inserted = s.inserted := by
  obtain ⟨hk, hv⟩ := h.next
  refine ⟨by simp [irqStep, h.pc, pollStep, hk], ⟨rfl, ⟨x, ⟨1⟩, rfl, hv⟩, h.seen.symm⟩, ?_⟩
  refine ⟨{ s with st := pollStep irqStat (pollStep irqStat s.st) }, ?_, rfl, rfl⟩
  simp only [exec, irqStep, h.pc, pollStep, hk, hv, reduceCtorEq, if_false, Option.bind_some]

/-- 511 turns of two names that call execve alternately, and one lookup more: the buffer
is full. -/
theorem irqBuffer_few_turns :
    (exec irqStep (irqBegin onlyA) (turns nameA nameB 511 ++ [.poll, .poll])).isSome ∧
    Along irqStep InBounds (irqBegin onlyA) (turns nameA nameB 511 ++ [.poll, .poll]) := by
  obtain ⟨s, z, hx, hT, hplay⟩ := turns_onlyA 511
  obtain ⟨-, -, t, ht, hstart, hinserted⟩ := hT.collects
  have hx' := exec_trans hx ht
  refine ⟨by rw [hx']; rfl, irqBuffer_few onlyA _ t hx' (along_few hx' ?_)⟩
  rw [hstart, hinserted, hplay]

/-- **Counterexample.** 512 turns of two names that call execve alternately,
then one more lookup: the write goes to `data[512]`, with never more than one
key in the map. -/
theorem irqBuffer_overflow :
    (exec irqStep (irqBegin onlyA) (turns nameA nameB 512 ++ [.poll, .poll])).isSome ∧
    ¬ Along irqStep InBounds (irqBegin onlyA) (turns nameA nameB 512 ++ [.poll, .poll]) := by
  obtain ⟨s, z, hx, hT, -⟩ := turns_onlyA 512
  obtain ⟨hs1, hw, t, ht, -⟩ := hT.collects
  refine ⟨by rw [exec_trans hx ht]; rfl, fun h => ?_⟩
  have h1 := ((along_append hx).mp h).2
  exact absurd ((h1.2 _ hs1).1 512 hw) (by decide)

end EbpfDemo.L3Loader
