import EbpfDemo.L3Loader.Drain

/-!
# Does a poll of mmap_stat end?

The inner loop of `mmap_stat` overwrites every counter it read with zero. In
the kernel's hash map the overwrite links a new element at the head of the
bucket, so the key just visited moves in front of its bucket's other keys, and
`get_next_key` of it is one of them again. With two PIDs in one bucket the loop
alternates between the two for ever (`trapped`); with at most one PID in each
bucket nothing moves and the walk is the plain one. The start key 0 is a second
condition: when PID 0 has a counter, the walk starts behind it and the entries
up to and including 0 are never visited.

`mmapPoll_iff` puts both together: the poll ends having handled each PID once
exactly when PID 0 has no counter and no bucket holds two PIDs.
-/
namespace EbpfDemo.L3Loader

open EbpfDemo.Core
open L2Kernel

variable {K V : Type} [DecidableEq K]

/-- A loop that overwrites what it read and shows everything. -/
structure Drain.Zeroes (d : Drain K V) (z : V) : Prop where
  clear : ∀ m k, d.clear m k = m.update k z .exist
  shown : ∀ v, d.shown v = true

variable {d : Drain K V} {z : V}

theorem Drain.Zeroes.clear_put (hd : d.Zeroes z) {m : HashMap K V} {k : K} (h : k ∈ m.keys) :
    d.clear m k = m.put k z := by
  rw [hd.clear, HashMap.update_present h (by decide)]

/-- **The trap.** The cursor is the head of a bucket that holds another key:
the next turn moves that key to the head, and so on for ever. Induction on the
fuel, a turn at a time. -/
theorem trapped (hd : d.Zeroes z) (fuel : Nat) :
    ∀ (s : DState K V) (c : K), s.pc = .next → s.cursor = some c → s.map.AtHead c →
      ¬ s.map.Alone c → poll d fuel s = none := by
  induction fuel using Nat.strongRecOn with
  | ind fuel ih =>
    intro s c hpc hcur hhead halone
    obtain ⟨k, hk, hne, hb⟩ := HashMap.getNextKey_atHead hhead halone
    rw [← hcur] at hk
    have hkm := HashMap.mem_of_getNextKey hk
    obtain ⟨v, hv⟩ := HashMap.exists_lookup hkm
    have hshort := poll_short (d := d) hpc hk hv
    match fuel with
    | 0 => exact hshort.1
    | 1 => exact hshort.2.1
    | 2 => exact hshort.2.2
    | fuel + 3 =>
      rw [poll_turn fuel hpc hk hv]
      have hmap : (afterTurn d s k v).map = s.map.put k z := hd.clear_put hkm
      refine ih fuel (by omega) (afterTurn d s k v) k rfl rfl ?_ ?_
      · rw [hmap]; exact HashMap.atHead_put _ _ _
      · rw [hmap, HashMap.alone_put hkm]
        -- the old cursor shares the bucket of `k`
        obtain ⟨A, B, w, hAB, -⟩ := hhead
        have hc : c ∈ s.map.keys := by rw [HashMap.keys, hAB]; simp
        exact fun h => hne (h c hc hb.symm).symm

/-- The keys `B` are what the walk still has before it. -/
def Before (s : DState K V) (B : List K) : Prop :=
  ∃ A, s.map.keys = A ++ B ∧
    ((A = [] ∧ ∀ k, s.cursor = some k → k ∉ s.map.keys) ∨ ∃ A' c, A = A' ++ [c] ∧ s.cursor = some c)

theorem Before.next {s : DState K V} {B : List K} (h : Before s B) :
    s.map.getNextKey s.cursor = B.head? := by
  obtain ⟨A, hk, h⟩ := h
  rcases h with ⟨rfl, hc⟩ | ⟨A', c, rfl, hc⟩
  · rw [List.nil_append] at hk
    cases hcur : s.cursor with
    | none => rw [HashMap.getNextKey, hk]
    | some k => rw [HashMap.getNextKey_absent (hc k hcur), hk]
  · rw [hc]
    rw [List.append_assoc, List.singleton_append] at hk
    exact HashMap.getNextKey_split hk

/-- A turn on a key that is alone in its bucket. -/
theorem Before.turn (hd : d.Zeroes z) {s : DState K V} {b : K} {B : List K}
    (h : Before s (b :: B)) (ha : s.map.Alone b) (v : V) :
    Before (afterTurn d s b v) B ∧ (afterTurn d s b v).map.keys = s.map.keys ∧
      ∀ k, (afterTurn d s b v).map.Alone k ↔ s.map.Alone k := by
  obtain ⟨A, hk, -⟩ := h
  have hb : b ∈ s.map.keys := by rw [hk]; simp
  have hmap : (afterTurn d s b v).map = s.map.put b z := hd.clear_put hb
  have hkeys : (afterTurn d s b v).map.keys = s.map.keys := by
    rw [hmap]; exact HashMap.keys_put_alone hb ha z
  refine ⟨⟨A ++ [b], ?_, .inr ⟨A, b, rfl, rfl⟩⟩, hkeys, fun k => ?_⟩
  · rw [hkeys, hk, List.append_assoc, List.singleton_append]
  · rw [hmap]; exact HashMap.alone_put hb

/-- If every key ahead is alone in its bucket, the loop ends. -/
theorem poll_ends (hd : d.Zeroes z) (B : List K) :
    ∀ s : DState K V, s.pc = .next → Before s B → (∀ b ∈ B, s.map.Alone b) →
      ∃ fuel t, poll d fuel s = some t := by
  induction B with
  | nil => intro s hpc hB _; exact ⟨1, _, poll_end 0 hpc hB.next⟩
  | cons b B ih =>
    intro s hpc hB ha
    have hb : b ∈ s.map.keys := HashMap.mem_of_getNextKey hB.next
    obtain ⟨v, hv⟩ := HashMap.exists_lookup hb
    obtain ⟨hB', -, ha'⟩ := hB.turn hd (ha b List.mem_cons_self) v
    obtain ⟨fuel, t, ht⟩ := ih (afterTurn d s b v) rfl hB'
      fun k hk => (ha' k).mpr (ha k (List.mem_cons_of_mem _ hk))
    exact ⟨fuel + 3, t, (poll_turn fuel hpc hB.next hv).trans ht⟩

/-- If the loop ends, every key ahead was alone in its bucket and was handled
once, in order. -/
theorem poll_ended (hd : d.Zeroes z) (B : List K) :
    ∀ (s t : DState K V) (fuel : Nat), s.pc = .next → Before s B → poll d fuel s = some t →
      (∀ b ∈ B, s.map.Alone b) ∧ Assoc.keys t.seen = Assoc.keys s.seen ++ B := by
  induction B with
  | nil =>
    intro s t fuel hpc hB ht
    rw [poll_unique ht (poll_end 0 hpc hB.next)]
    exact ⟨fun b hb => absurd hb List.not_mem_nil, by simp⟩
  | cons b B ih =>
    intro s t fuel hpc hB ht
    have hb : b ∈ s.map.keys := HashMap.mem_of_getNextKey hB.next
    obtain ⟨v, hv⟩ := HashMap.exists_lookup hb
    have hshort := poll_short (d := d) hpc hB.next hv
    match fuel with
    | 0 => rw [hshort.1] at ht; cases ht
    | 1 => rw [hshort.2.1] at ht; cases ht
    | 2 => rw [hshort.2.2] at ht; cases ht
    | fuel + 3 =>
      rw [poll_turn fuel hpc hB.next hv] at ht
      have hmap : (afterTurn d s b v).map = s.map.put b z := hd.clear_put hb
      have ha : s.map.Alone b := by
        by_contra hna
        rw [trapped hd fuel (afterTurn d s b v) b rfl rfl
          (by rw [hmap]; exact HashMap.atHead_put _ _ _)
          (by rw [hmap, HashMap.alone_put hb]; exact hna)] at ht
        cases ht
      obtain ⟨hB', -, ha'⟩ := hB.turn hd ha v
      obtain ⟨hall, hseen⟩ := ih _ t fuel rfl hB' ht
      refine ⟨fun k hk => ?_, ?_⟩
      · rcases List.mem_cons.mp hk with rfl | hk
        · exact ha
        · exact (ha' k).mp (hall k hk)
      · rw [hseen]; simp [afterTurn, hd.shown]

theorem mmapStat_zeroes : mmapStat.Zeroes 0 := ⟨fun _ _ => rfl, fun _ => rfl⟩

/-- One poll of `mmap_stat` alone ends and has handled each PID of the map
exactly once. -/
def PollsOnce (m : HashMap UInt32 UInt64) : Prop :=
  ∃ fuel t, poll mmapStat fuel (begin mmapStat m) = some t ∧ (Assoc.keys t.seen).Perm m.keys

/-- **Termination of a poll of mmap_stat**: exactly when PID 0 has no counter
and no two PIDs share a bucket. -/
theorem mmapPoll_iff (m : HashMap UInt32 UInt64) :
    PollsOnce m ↔ 0 ∉ m.keys ∧
      ∀ p ∈ m.keys, ∀ q ∈ m.keys, m.bucketOf p = m.bucketOf q → p = q := by
  by_cases h0 : (0 : UInt32) ∈ m.keys
  · refine ⟨fun ⟨fuel, t, ht, hperm⟩ => ?_, fun h => absurd h0 h.1⟩
    -- the walk starts behind 0, so 0 is not among the handled keys
    exfalso
    obtain ⟨A, B, hAB⟩ := List.append_of_mem h0
    have hB : Before (begin mmapStat m) B :=
      ⟨A ++ [0], by simp [begin, hAB], .inr ⟨A, 0, rfl, rfl⟩⟩
    obtain ⟨-, hseen⟩ := poll_ended mmapStat_zeroes B _ t fuel rfl hB ht
    have hnd : m.keys.Nodup := m.nodup
    have hmem : (0 : UInt32) ∈ Assoc.keys t.seen := hperm.mem_iff.mpr h0
    rw [hseen] at hmem
    rw [hAB] at hnd
    exact (List.nodup_cons.mp (List.nodup_append.mp hnd).2.1).1 (by simpa [begin] using hmem)
  · have hB : Before (begin mmapStat m) m.keys := by
      refine ⟨[], rfl, .inl ⟨rfl, fun k hk => ?_⟩⟩
      cases hk; exact h0
    constructor
    · rintro ⟨fuel, t, ht, -⟩
      obtain ⟨ha, -⟩ := poll_ended mmapStat_zeroes m.keys _ t fuel rfl hB ht
      exact ⟨h0, fun p hp q hq hb => ha q hq p hp hb⟩
    · rintro ⟨-, ha⟩
      obtain ⟨fuel, t, ht⟩ := poll_ends mmapStat_zeroes m.keys _ rfl hB
        fun b hb k hk he => ha k hk b hb he
      obtain ⟨-, hseen⟩ := poll_ended mmapStat_zeroes m.keys _ t fuel rfl hB ht
      exact ⟨fuel, t, ht, by rw [hseen]; simp [begin]⟩

/-- Two PIDs in one bucket. -/
def collide : HashMap UInt32 UInt64 where
  bucketOf _ := 0
  maxEntries := 10240
  elems := [(1, 1), (2, 1)]
  ranked := by simp [Assoc.Ranked]
  nodup := by decide

/-- **Counterexample.** With PIDs 1 and 2 in one bucket the poll never ends. -/
theorem mmapPoll_collide : (∀ fuel, poll mmapStat fuel (begin mmapStat collide) = none) ∧
    ¬ PollsOnce collide := by
  have hB : Before (begin mmapStat collide) [1, 2] :=
    ⟨[], rfl, .inl ⟨rfl, fun k hk => by cases hk; decide⟩⟩
  have hna : ¬ collide.Alone 1 := fun h => absurd (h 2 (by decide) rfl) (by decide)
  have hnone : ∀ fuel, poll mmapStat fuel (begin mmapStat collide) = none := by
    intro fuel
    cases h : poll mmapStat fuel (begin mmapStat collide) with
    | none => rfl
    | some t =>
      have := (poll_ended mmapStat_zeroes _ _ t fuel rfl hB h).1 1 (by decide)
      exact absurd this hna
  refine ⟨hnone, ?_⟩
  rintro ⟨fuel, t, ht, -⟩
  rw [hnone fuel] at ht; cases ht

end EbpfDemo.L3Loader
