import EbpfDemo.L3Loader.Drain

/-!
# Does one poll of a deleting loop that starts from key 0 drain the map?

`net_tcp_retransmit`, `disk_io_size`, `socket_stat` (and `tcp_connect`,
`file_open_stat`, `mem_oom_stat`) start the walk with `key = 0` instead of
`NULL`. If 0 is not in the map the kernel answers with the first key and the
loop drains everything. If 0 is in the map the walk starts behind it; the first
deletion makes the cursor an absent key, so the walk starts over and reaches
the entries in front of 0 and 0 itself. The one case that fails is a 0 with
nothing behind it: `get_next_key` reports the end at once, no entry is read and
the map keeps them all (PID 0 is the idle task, so it is in `retrans_map` and
`pid_io_stats` whenever softirq work ran on an idle CPU).

`drainsAll_iff` is the statement for any such loop, `drain_from_zero_iff` the
one for the three loaders, `drain_only_zero` the smallest content that is lost.
The loops that start from `NULL` (`irq_stat`, the comm loop of
`net_tcp_retransmit`) drain every content: `drainsAll_of_null`.
-/
namespace EbpfDemo.L3Loader

open EbpfDemo.Core
open L2Kernel

variable {K V : Type} [DecidableEq K] {d : Drain K V}

/-- One poll of the loop alone ends, has shown every entry exactly once and
leaves the map empty. -/
def DrainsAll (d : Drain K V) (m : HashMap K V) : Prop :=
  ∃ fuel t, poll d fuel (begin d m) = some t ∧ t.map.elems = [] ∧ t.seen.Perm m.elems

theorem drainsAll_of_null (hd : d.Deletes) (hs : d.start = none) (hshown : ∀ v, d.shown v = true)
    (m : HashMap K V) : DrainsAll d m := by
  obtain ⟨fuel, t, ht, hempty, hseen⟩ := poll_from_absent hd m.elems (begin d m) rfl rfl
    (fun k hk => by rw [begin, hs] at hk; cases hk)
  refine ⟨fuel, t, ht, hempty, ?_⟩
  rw [hseen, begin, List.nil_append, List.filter_eq_self.mpr (fun e _ => hshown e.2)]

theorem poll_begin_last {z : K} (hs : d.start = some z) {m : HashMap K V}
    (hz : m.keys.getLast? = some z) :
    poll d 1 (begin d m) = some { begin d m with pc := .idle } := by
  refine poll_end 0 rfl ?_
  show m.getNextKey d.start = none
  rw [hs]; exact HashMap.getNextKey_eq_none_iff.mpr (.inr hz)

/-- Otherwise it drains the map: the shown entries are a reordering of the
entries that pass `shown`. -/
theorem poll_begin_drains (hd : d.Deletes) {z : K} (hs : d.start = some z) {m : HashMap K V}
    (hz : m.keys.getLast? ≠ some z) :
    ∃ fuel t, poll d fuel (begin d m) = some t ∧ t.map.elems = [] ∧
      t.seen.Perm (m.elems.filter fun e => d.shown e.2) := by
  by_cases hmem : z ∈ m.keys
  · -- 0 is there with a key behind it: one turn, then the cursor is absent
    have hnext : ∃ k, m.getNextKey (some z) = some k := by
      rw [← Option.ne_none_iff_exists']
      intro h
      rcases HashMap.getNextKey_eq_none_iff.mp h with h | h
      · rw [← HashMap.keys_eq_nil_iff] at h; rw [h] at hmem; cases hmem
      · exact hz h
    obtain ⟨k, hk⟩ := hnext
    obtain ⟨v, hv⟩ := HashMap.exists_lookup (HashMap.mem_of_getNextKey hk)
    have hmap : (afterTurn d (begin d m) k v).map = m.deleteElem k := hd m k
    obtain ⟨fuel, t, ht, hempty, hseen⟩ := poll_from_absent hd (m.deleteElem k).elems
      (afterTurn d (begin d m) k v) rfl (by rw [hmap]) (by
        intro k' hk'
        rw [hmap, HashMap.mem_keys_deleteElem]
        cases hk'; exact fun h => h.2 rfl)
    refine ⟨fuel + 3, t, ?_, hempty, ?_⟩
    · rw [poll_turn fuel rfl (by show m.getNextKey d.start = _; rw [hs]; exact hk) hv]; exact ht
    · have hp := (Assoc.perm_erase_cons m.nodup hv).filter fun e => d.shown e.2
      refine List.Perm.trans (List.Perm.of_eq ?_) hp.symm
      rw [hseen]
      simp only [afterTurn, begin, List.filter_cons, HashMap.deleteElem]
      split <;> rfl
  · obtain ⟨fuel, t, ht, hempty, hseen⟩ := poll_from_absent hd m.elems (begin d m) rfl rfl
      (fun k hk => by rw [begin, hs] at hk; cases hk; exact hmem)
    exact ⟨fuel, t, ht, hempty, by rw [hseen, begin, List.nil_append]⟩

/-- **Complete drain.** The poll drains the map exactly when the start key is
not the last key of the walk and no entry is held back by `shown`. -/
theorem drainsAll_iff (hd : d.Deletes) {z : K} (hs : d.start = some z) (m : HashMap K V) :
    DrainsAll d m ↔ m.keys.getLast? ≠ some z ∧ ∀ e ∈ m.elems, d.shown e.2 = true := by
  by_cases hz : m.keys.getLast? = some z
  · refine ⟨fun ⟨fuel, t, ht, hempty, _⟩ => ?_, fun h => absurd hz h.1⟩
    rw [poll_unique ht (poll_begin_last hs hz)] at hempty
    have hk : m.keys = [] := HashMap.keys_eq_nil_iff.mpr hempty
    rw [hk] at hz; cases hz
  · obtain ⟨fuel, t, ht, hempty, hseen⟩ := poll_begin_drains hd hs hz
    constructor
    · rintro ⟨fuel', t', ht', -, hperm⟩
      rw [poll_unique ht' ht] at hperm
      -- all entries were shown, so the filter dropped none
      have hlen := (hseen.symm.trans hperm).length_eq
      exact ⟨hz, List.length_filter_eq_length_iff.mp hlen⟩
    · rintro ⟨-, hall⟩
      rw [List.filter_eq_self.mpr hall] at hseen
      exact ⟨fuel, t, ht, hempty, hseen⟩

/-- **The three loaders.** One poll reports every entry once and empties the
map exactly when key 0 is not the last key in visiting order (for the two that
print only positive counts: and no entry has count 0). -/
theorem drain_from_zero_iff (retrans : HashMap UInt32 ConnInfo) (sizes : HashMap UInt32 PidIo)
    (families : HashMap UInt32 FamilyInfo) :
    (DrainsAll netTcpRetransmit retrans ↔
      retrans.keys.getLast? ≠ some 0 ∧ ∀ e ∈ retrans.elems, e.2.count > 0) ∧
    (DrainsAll diskIoSize sizes ↔
      sizes.keys.getLast? ≠ some 0 ∧ ∀ e ∈ sizes.elems, e.2.readCount + e.2.writeCount > 0) ∧
    (DrainsAll socketStatFamily families ↔ families.keys.getLast? ≠ some 0) := by
  refine ⟨?_, ?_, ?_⟩
  · rw [drainsAll_iff (z := 0) (fun _ _ => rfl) rfl retrans]
    simp only [netTcpRetransmit, decide_eq_true_eq]
  · rw [drainsAll_iff (z := 0) (fun _ _ => rfl) rfl sizes]
    simp only [diskIoSize, decide_eq_true_eq]
  · rw [drainsAll_iff (z := 0) (fun _ _ => rfl) rfl families]
    simp [socketStatFamily]

def single (k : K) (v : V) : HashMap K V where
  bucketOf _ := 0
  maxEntries := 10240
  elems := [(k, v)]
  ranked := List.pairwise_singleton _ _
  nodup := List.nodup_singleton _

/-- **Counterexample.** A map whose only key is 0 is not drained: nothing is
reported and the entry stays. -/
theorem drain_only_zero :
    ¬ DrainsAll netTcpRetransmit (single 0 ⟨1, ⟨[], by decide, by decide⟩⟩) ∧
    ¬ DrainsAll diskIoSize (single 0 ⟨512, 0, 1, 0⟩) ∧
    ¬ DrainsAll socketStatFamily (single 0 ⟨1⟩) := by
  have lost : ∀ {W : Type} {d : Drain UInt32 W} (v : W), d.start = some 0 →
      ¬ DrainsAll d (single 0 v) := by
    rintro W d v hs ⟨fuel, t, ht, hempty, -⟩
    rw [poll_unique ht (poll_begin_last hs rfl)] at hempty
    cases hempty
  exact ⟨lost _ rfl, lost _ rfl, lost _ rfl⟩

end EbpfDemo.L3Loader
