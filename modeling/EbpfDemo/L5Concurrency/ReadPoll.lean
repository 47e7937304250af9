import EbpfDemo.Core.Machine
import EbpfDemo.L3Loader.ReadStat

/-!
# A poll of read_stat while events come in

The poll first collects the keys of the map into `pids[MAX_ENTRIES]`, and then looks
each of them up, prints it and deletes it. While it collects, nothing is deleted: its
cursor stays in the map, so the walk only goes forward and meets no key twice, and what
it has collected is all in the map at the end (`Collected`). While it reads, the keys it
has not come to stay in the map (`Reading`).

* `read_poll`: `pids` has room for every key, no key is printed twice, every key that was
  in the map at the first call is printed, and the poll ends after a fixed number of its
  own steps, whatever comes in between.
-/
namespace EbpfDemo.L5Concurrency.ReadPoll

open EbpfDemo.Core
open L2Kernel
open L3Loader

inductive Label where
  | poll
  | read (pid : UInt32)
  deriving DecidableEq

/-- A read of `pid`. -/
def count (s : RState) (pid : UInt32) : RState := { s with map := handleEnterRead s.map pid }

/-- An event, or a step of the poll; `none` when the poll is over. -/
def step (s : RState) : Label → Option RState
  | .poll => if s.pc = .idle then none else some (readStep s)
  | .read pid => some (count s pid)

/-- A poll before its first call: `pid = 0`, `count = 0`. -/
def start (m : HashMap UInt32 UInt64) : RState := ⟨m, .next, 0, [], []⟩

/-- The steps of the poll in a run. -/
def polls (ls : List Label) : Nat := ls.count .poll

/-- The map is as the kernel keeps it: no more elements than `max_entries`, and these are
no more than the buffer has room for. -/
def Fits (m : HashMap UInt32 UInt64) : Prop := m.size ≤ m.maxEntries ∧ m.maxEntries ≤ MAX_ENTRIES

/-- While the poll collects: `pids` are in the map, once each; it stands at the last of
them, and what it has not met of `K₀` is behind that. -/
structure Collected (K₀ : List UInt32) (s : RState) (B : List UInt32) : Prop where
  nodup : s.pids.Nodup
  present : ∀ p ∈ s.pids, p ∈ s.map.keys
  behind : s.map.Behind s.pid B
  fresh : ∀ p ∈ s.pids, p ∉ B
  covers : ∀ k ∈ K₀, k ∈ s.pids ∨ k ∈ B

def keysOf (l : List (UInt32 × UInt64)) : List UInt32 := Assoc.keys l

/-- While it reads: `rest` are in the map and are not printed yet. -/
structure Reading (K₀ : List UInt32) (s : RState) (rest : List UInt32) : Prop where
  nodup : (keysOf s.printed ++ rest).Nodup
  length : s.printed.length + rest.length = s.pids.length
  present : ∀ p ∈ rest, p ∈ s.map.keys
  covers : ∀ k ∈ K₀, k ∈ keysOf s.printed ∨ k ∈ rest

/-- Where the poll stands. -/
def Place (K₀ : List UInt32) (s : RState) : Prop :=
  match s.pc with
  | .idle => Reading K₀ s []
  | .next => s.printed = [] ∧ ∃ B, Collected K₀ s B
  | .look rest => Reading K₀ s rest
  | .clear k rest => k ∈ keysOf s.printed ∧ Reading K₀ s rest

structure Inv (K₀ : List UInt32) (s : RState) : Prop where
  fits : Fits s.map
  nodup : s.pids.Nodup
  room : s.pids.length ≤ MAX_ENTRIES
  place : Place K₀ s

section
variable {K₀ : List UInt32} {s s' t : RState} {m : HashMap UInt32 UInt64}

/-! ## Events -/

theorem fits_read (h : Fits m) (pid : UInt32) : Fits (handleEnterRead m pid) := by
  unfold Fits handleEnterRead
  rw [maxEntries_countEvent]
  refine ⟨?_, h.2⟩
  cases hl : m.lookupElem pid with
  | some v => rw [countEvent_present hl, HashMap.size_modifyElem]; exact h.1
  | none =>
    by_cases hfull : m.Full
    · rw [countEvent_refused hl hfull]; exact h.1
    · rw [countEvent_absent hl (by decide) hfull,
        HashMap.size_put_absent (HashMap.lookupElem_eq_none.mp hl)]
      exact Nat.lt_of_not_le hfull

theorem mem_keys_read {k : UInt32} (h : k ∈ m.keys) (pid : UInt32) :
    k ∈ (handleEnterRead m pid).keys := mem_keys_countEvent_of_mem (by decide) h

/-- A new key joins those in front of the walk, or is not met; it was not met before. -/
theorem Collected.read {B : List UInt32} (h : Collected K₀ s B) (pid : UInt32) :
    ∃ B', Collected K₀ (count s pid) B' := by
  obtain ⟨B', hB', hsub, hnew⟩ :
      ∃ B', (countEvent (· + 1) 1 .any s.map pid).Behind s.pid B' ∧ _ :=
    behind_countEvent (by decide) h.behind
  refine ⟨B', h.nodup, fun p hp => mem_keys_read (h.present p hp) pid, hB', fun p hp hpB => ?_,
    fun k hk => (h.covers k hk).imp_right (hsub k)⟩
  rcases hnew p hpB with hB | ⟨rfl, habsent, -⟩
  · exact h.fresh p hp hB
  · exact habsent (h.present p hp)

theorem Reading.read {rest : List UInt32} (h : Reading K₀ s rest) (pid : UInt32) :
    Reading K₀ (count s pid) rest :=
  ⟨h.nodup, h.length, fun p hp => mem_keys_read (h.present p hp) pid, h.covers⟩

theorem inv_read (h : Inv K₀ s) (pid : UInt32) : Inv K₀ (count s pid) := by
  refine ⟨fits_read h.fits pid, h.nodup, h.room, ?_⟩
  have hp := h.place
  unfold Place at hp ⊢
  rw [show (count s pid).pc = s.pc from rfl]
  cases hpc : s.pc with
  | idle => rw [hpc] at hp; exact hp.read pid
  | next =>
    rw [hpc] at hp
    obtain ⟨hnone, B, hB⟩ := hp
    exact ⟨hnone, hB.read pid⟩
  | look rest => rw [hpc] at hp; exact hp.read pid
  | clear k rest => rw [hpc] at hp; exact ⟨hp.1, hp.2.read pid⟩

/-! ## The poll -/

/-- What was collected is in the map, so it is no more than the map holds. -/
theorem length_pids {l : List UInt32} (hn : l.Nodup) (hp : ∀ p ∈ l, p ∈ m.keys) :
    l.length ≤ m.size := by
  have hle := (List.subperm_of_subset hn hp).length_le
  rwa [show m.keys.length = m.size from List.length_map ..] at hle

/-- The collecting is over. -/
theorem Collected.reading {B : List UInt32} (h : Collected K₀ s B) (hnone : s.printed = [])
    (hB : B = []) : Reading K₀ { s with pc := .look s.pids } s.pids := by
  subst hB
  refine ⟨by rw [hnone]; exact h.nodup, by rw [hnone]; exact Nat.zero_add _, h.present,
    fun k hk => .inr ((h.covers k hk).resolve_right List.not_mem_nil)⟩

/-- One more key. There is room for it: it is in the map with all the others. -/
theorem Collected.next {B : List UInt32} {next : UInt32} (h : Collected K₀ s (next :: B))
    (hf : Fits s.map) : s.pids.length < MAX_ENTRIES ∧
      Collected K₀ { s with pids := s.pids ++ [next], pid := next } B := by
  have hnew : next ∉ s.pids := fun hn => h.fresh next hn List.mem_cons_self
  have hmem : next ∈ s.map.keys := h.behind.advance.mem
  have hnodup : (s.pids ++ [next]).Nodup :=
    List.nodup_append.mpr ⟨h.nodup, List.nodup_singleton _, fun a ha b hb hab =>
      hnew (by rw [← List.mem_singleton.mp hb, ← hab]; exact ha)⟩
  have hpresent : ∀ p ∈ s.pids ++ [next], p ∈ s.map.keys := fun p hp =>
    (List.mem_append.mp hp).elim (h.present p) fun hp => List.mem_singleton.mp hp ▸ hmem
  refine ⟨?_, hnodup, hpresent, h.behind.advance, fun p hp hpB => ?_, fun k hk => ?_⟩
  · have hle := length_pids hnodup hpresent
    rw [List.length_append, List.length_singleton] at hle
    exact Nat.lt_of_lt_of_le hle (Nat.le_trans hf.1 hf.2)
  · rcases List.mem_append.mp hp with hp | hp
    · exact h.fresh p hp (List.mem_cons_of_mem _ hpB)
    · exact h.behind.advance.notMem (List.mem_singleton.mp hp ▸ hpB)
  · rcases h.covers k hk with hp | hB
    · exact .inl (List.mem_append_left _ hp)
    · rcases List.mem_cons.mp hB with rfl | hB
      · exact .inl (List.mem_append_right _ (List.mem_singleton_self k))
      · exact .inr hB

/-- The lookup of a collected key. -/
theorem Reading.look {k : UInt32} {rest : List UInt32} {v : UInt64} (h : Reading K₀ s (k :: rest)) :
    k ∈ keysOf (s.printed ++ [(k, v)]) ∧
      Reading K₀ { s with pc := .clear k rest, printed := s.printed ++ [(k, v)] } rest := by
  have hkeys : keysOf (s.printed ++ [(k, v)]) = keysOf s.printed ++ [k] := Assoc.keys_append ..
  refine ⟨by rw [hkeys]; simp, ?_, ?_, fun p hp => h.present p (List.mem_cons_of_mem _ hp),
    fun q hq => ?_⟩
  · show (keysOf (s.printed ++ [(k, v)]) ++ rest).Nodup
    rw [hkeys, List.append_assoc]
    exact h.nodup
  · show (s.printed ++ [(k, v)]).length + rest.length = s.pids.length
    have hlen := h.length
    rw [List.length_cons] at hlen
    rw [List.length_append, List.length_singleton]
    omega
  · show q ∈ keysOf (s.printed ++ [(k, v)]) ∨ q ∈ rest
    rw [hkeys, List.mem_append, List.mem_singleton, or_assoc, ← List.mem_cons]
    exact h.covers q hq

/-- A printed key is deleted. -/
theorem Reading.clear {k : UInt32} {rest : List UInt32} (hk : k ∈ keysOf s.printed)
    (h : Reading K₀ s rest) :
    Reading K₀ { s with pc := .look rest, map := s.map.deleteElem k } rest := by
  refine ⟨h.nodup, h.length, fun p hp => HashMap.mem_keys_deleteElem.mpr ⟨h.present p hp, ?_⟩,
    h.covers⟩
  rintro rfl
  exact (List.nodup_append.mp h.nodup).2.2 p hk p hp rfl

theorem fits_delete (h : Fits m) (k : UInt32) : Fits (m.deleteElem k) :=
  ⟨Nat.le_trans (List.length_filter_le ..) h.1, h.2⟩

/-- **A step of the poll.** -/
theorem inv_poll (h : Inv K₀ s) : Inv K₀ (readStep s) ∨ s.pc = .idle := by
  have hp := h.place
  unfold Place at hp
  cases hpc : s.pc with
  | idle => exact .inr rfl
  | next =>
    left
    rw [hpc] at hp
    obtain ⟨hnone, B, hB⟩ := hp
    have hnext := hB.behind.next
    cases B with
    | nil =>
      have hstep : readStep s = { s with pc := .look s.pids } := by
        simp only [readStep, hpc, hnext, List.head?_nil]
      rw [hstep]
      exact ⟨h.fits, h.nodup, h.room, hB.reading hnone rfl⟩
    | cons next B =>
      obtain ⟨hroom, hC⟩ := hB.next h.fits
      have hstep : readStep s = { s with pids := s.pids ++ [next], pid := next } := by
        simp only [readStep, hpc, hnext, List.head?_cons, ge_iff_le, if_neg (Nat.not_le_of_lt hroom)]
      rw [hstep]
      refine ⟨h.fits, hC.nodup, ?_, ?_⟩
      · show (s.pids ++ [next]).length ≤ MAX_ENTRIES
        rw [List.length_append, List.length_singleton]
        exact hroom
      · unfold Place
        rw [hpc]
        exact ⟨hnone, B, hC.nodup, hC.present, hC.behind, hC.fresh, hC.covers⟩
  | look rest =>
    left
    rw [hpc] at hp
    cases rest with
    | nil =>
      have hstep : readStep s = { s with pc := .idle } := by simp only [readStep, hpc]
      rw [hstep]
      exact ⟨h.fits, h.nodup, h.room, ⟨hp.nodup, hp.length, hp.present, hp.covers⟩⟩
    | cons k rest =>
      obtain ⟨v, hv⟩ := HashMap.exists_lookup (hp.present k List.mem_cons_self)
      have hstep : readStep s = { s with
          pc := .clear k rest, printed := s.printed ++ [(k, v)] } := by
        simp only [readStep, hpc, hv]
      rw [hstep]
      exact ⟨h.fits, h.nodup, h.room, hp.look⟩
  | clear k rest =>
    left
    rw [hpc] at hp
    have hstep : readStep s = { s with pc := .look rest, map := s.map.deleteElem k } := by
      simp only [readStep, hpc]
    rw [hstep]
    exact ⟨fits_delete h.fits k, h.nodup, h.room, hp.2.clear hp.1⟩

theorem inv_step (s : RState) (l : Label) (s' : RState) (h : Inv K₀ s) (hs : step s l = some s') :
    Inv K₀ s' := by
  cases l with
  | read pid => cases hs; exact inv_read h pid
  | poll =>
    simp only [step, Option.ite_none_left_eq_some, Option.some.injEq] at hs
    obtain ⟨hpc, rfl⟩ := hs
    exact (inv_poll h).resolve_right hpc

/-- The first call: the walk starts at the first key, or behind key 0 where that is in
the map. -/
theorem inv_first (hf : Fits m) (hs : step (start m) .poll = some s) :
    ∃ K₀, Inv K₀ s ∧ (0 ∉ m.keys → K₀ = m.keys) := by
  cases hs
  have hroom : (1 : Nat) ≤ MAX_ENTRIES := by decide
  cases hnext : m.getNextKey (some 0) with
  | none =>
    have hempty : 0 ∉ m.keys → m.keys = [] := fun h0 => by
      rw [HashMap.getNextKey_absent h0] at hnext
      exact List.head?_eq_none_iff.mp hnext
    have hstep : readStep (start m) = { start m with pc := .look [] } := by
      simp only [readStep, start, hnext]
    rw [hstep]
    exact ⟨[], ⟨hf, List.nodup_nil, Nat.zero_le _, List.nodup_nil, rfl, List.forall_mem_nil _,
      List.forall_mem_nil _⟩, fun h0 => (hempty h0).symm⟩
  | some k =>
    have hstep : readStep (start m) = { start m with pids := [k], pid := k } := by
      simp only [readStep, start, hnext, List.length_nil, ge_iff_le,
        if_neg (Nat.not_le_of_lt hroom), List.nil_append]
    have hmem := HashMap.mem_of_getNextKey hnext
    have hinv {K₀ B : List UInt32} (hB : m.Behind k B) (hK : ∀ q ∈ K₀, q ∈ [k] ∨ q ∈ B) :
        Inv K₀ { start m with pids := [k], pid := k } :=
      ⟨hf, List.nodup_singleton k, hroom, rfl, B, List.nodup_singleton k,
        fun p hp => List.mem_singleton.mp hp ▸ hmem, hB,
        fun p hp => List.mem_singleton.mp hp ▸ hB.notMem, hK⟩
    rw [hstep]
    by_cases h0 : 0 ∈ m.keys
    · obtain ⟨B, hB⟩ := HashMap.behind_of_mem hmem
      exact ⟨[], hinv hB (List.forall_mem_nil _), fun h => absurd h0 h⟩
    · rw [HashMap.getNextKey_absent h0] at hnext
      cases hkeys : m.keys with
      | nil => rw [hkeys] at hnext; cases hnext
      | cons a B =>
        rw [hkeys] at hnext
        cases hnext
        exact ⟨k :: B, hinv (HashMap.behind_first hkeys) fun q hq =>
          (List.mem_cons.mp hq).imp_left List.mem_singleton.mpr, fun _ => rfl⟩

/-! ## How long it takes -/

/-- The steps the poll has made. -/
def work (s : RState) : Nat :=
  match s.pc with
  | .idle => s.pids.length + 2 * s.printed.length + 2
  | .next => s.pids.length
  | .look _ => s.pids.length + 2 * s.printed.length + 1
  | .clear _ _ => s.pids.length + 2 * s.printed.length

theorem work_poll (h : Inv K₀ s) (hpc : s.pc ≠ .idle) : work (readStep s) = work s + 1 := by
  have hp := h.place
  unfold Place at hp
  cases hs : s.pc with
  | idle => exact absurd hs hpc
  | next =>
    rw [hs] at hp
    obtain ⟨hnone, B, hB⟩ := hp
    have hnext := hB.behind.next
    cases B with
    | nil =>
      rw [List.head?_nil] at hnext
      simp only [readStep, hs, hnext, work, hnone, List.length_nil]
    | cons next B =>
      obtain ⟨hroom, -⟩ := hB.next h.fits
      rw [List.head?_cons] at hnext
      simp only [readStep, hs, hnext, ge_iff_le, if_neg (Nat.not_le_of_lt hroom), work,
        List.length_append, List.length_singleton]
  | look rest =>
    rw [hs] at hp
    cases rest with
    | nil => simp only [readStep, hs, work]
    | cons k rest =>
      obtain ⟨v, hv⟩ := HashMap.exists_lookup (hp.present k List.mem_cons_self)
      simp only [readStep, hs, hv, work, List.length_append, List.length_singleton]
      omega
  | clear k rest => simp only [readStep, hs, work]

theorem work_exec {ls : List Label} (h : Inv K₀ s) (hx : exec step s ls = some t) :
    work t = work s + polls ls := by
  induction ls generalizing s with
  | nil => cases hx; rfl
  | cons l ls ih =>
    obtain ⟨s', hs, hrest⟩ := exec_cons_some hx
    rw [ih (inv_step s l s' h hs) hrest]
    cases l with
    | read pid =>
      cases hs
      have hcount : polls (.read pid :: ls) = polls ls := List.count_cons_of_ne (by simp)
      rw [hcount]
      rfl
    | poll =>
      simp only [step, Option.ite_none_left_eq_some, Option.some.injEq] at hs
      obtain ⟨hpc, rfl⟩ := hs
      have hcount : polls (.poll :: ls) = polls ls + 1 := List.count_cons_self
      rw [work_poll h hpc, hcount]
      omega

/-- What was printed is part of what was collected. -/
theorem printed_le (h : Inv K₀ s) : (keysOf s.printed).Nodup ∧ s.printed.length ≤ s.pids.length := by
  have hp := h.place
  unfold Place at hp
  have hsub {rest : List UInt32} (hr : Reading K₀ s rest) :
      (keysOf s.printed).Nodup ∧ s.printed.length ≤ s.pids.length :=
    ⟨(List.nodup_append.mp hr.nodup).1, hr.length ▸ Nat.le_add_right _ _⟩
  cases hs : s.pc with
  | idle => rw [hs] at hp; exact hsub hp
  | next =>
    rw [hs] at hp
    rw [hp.1]
    exact ⟨List.nodup_nil, Nat.zero_le _⟩
  | look rest => rw [hs] at hp; exact hsub hp
  | clear k rest => rw [hs] at hp; exact hsub hp.2

theorem work_le (h : Inv K₀ s) : work s ≤ 3 * MAX_ENTRIES + 2 := by
  have h1 := (printed_le h).2
  have h2 := h.room
  unfold work
  split <;> omega

/-! ## One poll -/

/-- **A poll of read_stat.** For any content of the map and any reads between the map
calls: no key is collected twice and the buffer has room for all; no key is printed
twice; at the end every key that was there at the first call is printed, if key 0 was not
there; and the poll ends after at most `3 * MAX_ENTRIES + 2` of its own steps. -/
theorem read_poll (hf : Fits m) (ls : List Label) (hx : exec step (start m) (.poll :: ls) = some t) :
    (t.pids.Nodup ∧ t.pids.length ≤ MAX_ENTRIES) ∧ (keysOf t.printed).Nodup ∧
      (0 ∉ m.keys → t.pc = .idle → ∀ k ∈ m.keys, k ∈ keysOf t.printed) ∧
      polls (.poll :: ls) ≤ 3 * MAX_ENTRIES + 2 := by
  obtain ⟨s, hs, hrest⟩ := exec_cons_some hx
  obtain ⟨K₀, hI, hK⟩ := inv_first hf hs
  have h : Inv K₀ t := inv_exec inv_step hI hrest
  refine ⟨⟨h.nodup, h.room⟩, (printed_le h).1, fun h0 hidle k hk => ?_, ?_⟩
  · have hp := h.place
    unfold Place at hp
    rw [hidle] at hp
    exact (hp.covers k (hK h0 ▸ hk)).resolve_right List.not_mem_nil
  · have hfirst : work s = 1 := by
      cases hs
      cases hnext : m.getNextKey (some 0) with
      | none => simp only [readStep, start, hnext, work, List.length_nil]
      | some k => simp [readStep, start, hnext, work, MAX_ENTRIES]
    have hwork := work_exec hI hrest
    have hle := work_le h
    have hcount : polls (.poll :: ls) = polls ls + 1 := List.count_cons_self
    omega

end

/-- PIDs 1 and 2 in one bucket. -/
def twoPids : HashMap UInt32 UInt64 := ((HashMap.empty (fun _ => 0) 10240).put 2 5).put 1 3

/-- PID 3 comes in while the keys are collected, PID 1 comes back behind its deletion. -/
def busy : List Label :=
  [.read 3, .poll, .poll, .poll, .poll, .read 1, .poll, .poll, .poll]

theorem read_poll_busy : ∃ t, exec step (start twoPids) (.poll :: busy) = some t ∧
    t.printed = [(1, 3), (2, 5)] ∧ t.map.keys = [1, 3] ∧ ∀ k ∈ twoPids.keys, k ∈ keysOf t.printed := by
  have hx : (exec step (start twoPids) (.poll :: busy)).map
      (fun t => (t.pc, t.printed, t.map.keys)) = some (.idle, [(1, 3), (2, 5)], [1, 3]) := by
    decide +kernel
  obtain ⟨t, ht, hp⟩ := Option.map_eq_some_iff.mp hx
  obtain ⟨hidle, hp⟩ := Prod.mk.inj hp
  obtain ⟨hprinted, hkeys⟩ := Prod.mk.inj hp
  have h := read_poll (m := twoPids) ⟨by decide, by decide⟩ busy ht
  exact ⟨t, ht, hprinted, hkeys, h.2.2.1 (by decide) hidle⟩

end EbpfDemo.L5Concurrency.ReadPoll
