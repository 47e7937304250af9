import EbpfDemo.Core.Machine
import EbpfDemo.L2Kernel.Counters

/-!
# page_fault_stat: a walk that deletes behind itself

The poll asks for the key behind the current one before it reads and deletes the
current one, so its next key is always in the map: the loader alone deletes.
Page faults come between any two map calls. They add in place, or link a new
element at the head of its bucket.

What carries the proof is the order of the buckets (`Front`): a key the poll has
read has a bucket no later than that of the next key. If it comes back it stands
in front of the next key, where the poll does not pass again.

* `pageFault_poll`: no key is printed twice; when the poll ends, every key that was
  there at its start and has a count is printed once; it ends within
  3 * 2^32 + 2 of its own map calls, whatever comes in between;
* `pageFault_zero`: an entry with count 0 is not printed.
-/
namespace EbpfDemo.L5Concurrency

open EbpfDemo.Core
open L2Kernel

/-- mirrors src/my_tools/memo/page_fault_stat.bpf.c:9-12 -/
structure PageVal where
  comm : Comm
  count : UInt64
  deriving DecidableEq

def PageVal.add (v : PageVal) : PageVal := { v with count := v.count + 1 }

/-- mirrors src/my_tools/memo/page_fault_stat.bpf.c:14-26 -/
structure PageFaultMaps where
  counter : HashMap UInt32 PageVal
  counterExporter : HashMap Comm UInt64

/-- mirrors src/my_tools/memo/page_fault_stat.bpf.c:28-52 -/
def countPageFault (s : PageFaultMaps) (pid : UInt32) (comm : Comm) : PageFaultMaps where
  counter := countEvent .add ⟨comm, 1⟩ .noExist s.counter pid
  counterExporter := countEvent (· + 1) 1 .any s.counterExporter comm

namespace PageFaultPoll

/-- Where the poll stands: before the next map call. `nextKey` is what
`get_next_key` returned for `key`. -/
inductive Phase where
  | start
  | next (key : UInt32)
  | look (key : UInt32) (nextKey : Option UInt32)
  | delete (key : UInt32) (nextKey : Option UInt32)
  | done
  deriving DecidableEq

/-- One poll. `read` are the entries it has looked up, `printed` those it has
printed; `faults` counts the page faults of a PID. -/
structure State where
  maps : PageFaultMaps
  phase : Phase
  read : List (UInt32 × PageVal)
  printed : List (UInt32 × PageVal)
  faults : UInt32 → Nat

def start (m : PageFaultMaps) : State := ⟨m, .start, [], [], fun _ => 0⟩

/-- `res = next_res; if (res == 0) key = next_key;` and the loop condition. -/
def turn : Option UInt32 → Phase
  | none => .done
  | some key => .next key

/-- The next map call of the poll.
mirrors src/my_tools/memo/page_fault_stat.c:38-57 -/
def pollStep (s : State) : Option State :=
  match s.phase with
  | .start => some { s with phase := turn (s.maps.counter.getNextKey none) }
  | .next key => some { s with phase := .look key (s.maps.counter.getNextKey (some key)) }
  | .look key nextKey =>
    match s.maps.counter.lookupElem key with
    | none => some { s with phase := turn nextKey }
    | some val => some { s with
        phase := .delete key nextKey
        read := s.read ++ [(key, val)]
        printed := if val.count > 0 then s.printed ++ [(key, val)] else s.printed }
  | .delete key nextKey => some { s with
      phase := turn nextKey
      maps := { s.maps with counter := s.maps.counter.deleteElem key } }
  | .done => none

inductive Label where
  | fault (pid : UInt32) (comm : Comm)
  | poll
  deriving DecidableEq

def step (s : State) : Label → Option State
  | .fault pid comm => some { s with
      maps := countPageFault s.maps pid comm
      faults := Function.update s.faults pid (s.faults pid + 1) }
  | .poll => pollStep s

/-- The map calls of the poll in a run. -/
def polls (ls : List Label) : Nat := ls.count .poll

/-! ## The walk -/

/-- The keys `P` are behind the poll and `o` is its next key: what was there at
first (`K`) is behind it or in front of it, and what is behind it is not in front
of it, nor will it be. -/
def Front (K : List UInt32) (m : HashMap UInt32 PageVal) (P : List UInt32) :
    Option UInt32 → Prop
  | none => ∀ k ∈ K, k ∈ P
  | some c => ∃ B, m.Behind c B ∧ (∀ k ∈ K, k ∈ P ∨ k ∈ c :: B) ∧
      ∀ k ∈ P, k ∉ c :: B ∧ m.bucketOf k ≤ m.bucketOf c

section
variable {K P : List UInt32} {m : HashMap UInt32 PageVal} {o : Option UInt32}

theorem Front.congr {P' : List UInt32} (h : Front K m P o) (hP : ∀ k, k ∈ P ↔ k ∈ P') :
    Front K m P' o := by
  cases o with
  | none => exact fun k hk => (hP k).mp (h k hk)
  | some c =>
    obtain ⟨B, hB, hK, hold⟩ := h
    exact ⟨B, hB, fun k hk => (hK k hk).imp_left (hP k).mp, fun k hk => hold k ((hP k).mpr hk)⟩

/-- A page fault. -/
theorem Front.fault (h : Front K m P o) (pid : UInt32) (comm : Comm) :
    Front K (countEvent .add ⟨comm, 1⟩ .noExist m pid) P o := by
  cases o with
  | none => exact h
  | some c =>
    obtain ⟨B, hB, hK, hold⟩ := h
    obtain ⟨B', hB', hsub, hnew⟩ : ∃ B', (countEvent .add ⟨comm, 1⟩ .noExist m pid).Behind c B' ∧ _ :=
      behind_countEvent (by decide) hB
    refine ⟨B', hB', fun k hk => ?_, fun k hk => ?_⟩
    · refine (hK k hk).imp_right fun hc => ?_
      exact List.mem_cons.mpr ((List.mem_cons.mp hc).imp_right (hsub k))
    · rw [bucketOf_countEvent]
      obtain ⟨hc, hb⟩ := hold k hk
      refine ⟨fun hmem => hc ?_, hb⟩
      rcases List.mem_cons.mp hmem with rfl | hmem
      · exact List.mem_cons_self
      · rcases hnew k hmem with hB | ⟨rfl, -, hlt⟩
        · exact List.mem_cons_of_mem _ hB
        · exact absurd hb (Nat.not_le_of_lt hlt)

/-- `get_next_key` for the next key. -/
theorem Front.advance {c : UInt32} (h : Front K m P (some c)) :
    Front K m (c :: P) (m.getNextKey (some c)) := by
  obtain ⟨B, hB, hK, hold⟩ := h
  rw [hB.next]
  cases B with
  | nil =>
    intro k hk
    rcases hK k hk with hP | hc
    · exact List.mem_cons_of_mem _ hP
    · rw [List.mem_singleton.mp hc]; exact List.mem_cons_self
  | cons n B =>
    have hcn := hB.bucket_le (List.mem_cons_self (a := n) (l := B))
    refine ⟨B, hB.advance, fun k hk => ?_, fun k hk => ?_⟩
    · rcases hK k hk with hP | hc
      · exact .inl (List.mem_cons_of_mem _ hP)
      · rcases List.mem_cons.mp hc with rfl | hc
        · exact .inl List.mem_cons_self
        · exact .inr hc
    · rcases List.mem_cons.mp hk with rfl | hk
      · exact ⟨hB.notMem, hcn⟩
      · obtain ⟨hc, hb⟩ := hold k hk
        exact ⟨fun hmem => hc (List.mem_cons_of_mem _ hmem), Nat.le_trans hb hcn⟩

/-- A key that is behind the poll is deleted. -/
theorem Front.delete (h : Front K m P o) {key : UInt32} (hk : key ∈ P) :
    Front K (m.deleteElem key) P o := by
  cases o with
  | none => exact h
  | some c =>
    obtain ⟨B, hB, hK, hold⟩ := h
    obtain ⟨hc, -⟩ := hold key hk
    rw [List.mem_cons, not_or] at hc
    exact ⟨B, hB.delete hc.1 hc.2, hK, hold⟩

/-- The first `get_next_key`. -/
theorem front_first (hK : ∀ k ∈ K, k ∈ m.keys) : Front K m [] (m.getNextKey none) := by
  show Front K m [] m.keys.head?
  cases hk : m.keys with
  | nil =>
    intro k hmem
    have hin := hK k hmem
    rw [hk] at hin; cases hin
  | cons c B =>
    refine ⟨B, HashMap.behind_first hk, fun k hmem => .inr ?_, List.forall_mem_nil _⟩
    rw [← hk]; exact hK k hmem

end

def keysOf (l : List (UInt32 × PageVal)) : List UInt32 := Assoc.keys l

/-- Where the poll stands in the walk. -/
def Place (K : List UInt32) (s : State) : Prop :=
  match s.phase with
  | .start => s.read = [] ∧ ∀ k ∈ K, k ∈ s.maps.counter.keys
  | .next key => Front K s.maps.counter (keysOf s.read) (some key)
  | .look key nextKey => key ∈ s.maps.counter.keys ∧ key ∉ keysOf s.read ∧
      Front K s.maps.counter (key :: keysOf s.read) nextKey
  | .delete key nextKey => key ∈ keysOf s.read ∧ Front K s.maps.counter (keysOf s.read) nextKey
  | .done => ∀ k ∈ K, k ∈ keysOf s.read

/-- The value a key had first, with the page faults since, is in the map until the
poll reads it. -/
structure Values (m₀ : HashMap UInt32 PageVal) (s : State) : Prop where
  unread : ∀ k v₀, m₀.lookupElem k = some v₀ → k ∉ keysOf s.read →
    ∃ v, s.maps.counter.lookupElem k = some v ∧
      v.count.toNat = (v₀.count.toNat + s.faults k) % 2 ^ 64
  read : ∀ k v₀, m₀.lookupElem k = some v₀ → ∀ v, (k, v) ∈ s.read →
    ∃ n ≤ s.faults k, v.count.toNat = (v₀.count.toNat + n) % 2 ^ 64

structure Inv (m₀ : HashMap UInt32 PageVal) (s : State) : Prop where
  place : Place m₀.keys s
  values : Values m₀ s
  nodup : (keysOf s.read).Nodup
  printed : s.printed = s.read.filter fun e => e.2.count > 0

section
variable {K : List UInt32} {m₀ : HashMap UInt32 PageVal} {s : State}

theorem place_turn {o : Option UInt32} (h : Front K s.maps.counter (keysOf s.read) o) :
    Place K { s with phase := turn o } := by
  cases o with
  | none => exact h
  | some key => exact h

theorem place_fault (h : Place K s) (pid : UInt32) (comm : Comm) (f : UInt32 → Nat) :
    Place K { s with maps := countPageFault s.maps pid comm, faults := f } := by
  have hmem : ∀ k ∈ s.maps.counter.keys, k ∈ (countPageFault s.maps pid comm).counter.keys :=
    fun k hk => mem_keys_countEvent_of_mem (by decide) hk
  unfold Place at h ⊢
  dsimp only
  cases hph : s.phase with
  | start => rw [hph] at h; exact ⟨h.1, fun k hk => hmem k (h.2 k hk)⟩
  | next key => rw [hph] at h; exact Front.fault h pid comm
  | look key n => rw [hph] at h; exact ⟨hmem key h.1, h.2.1, h.2.2.fault pid comm⟩
  | delete key n => rw [hph] at h; exact ⟨h.1, h.2.fault pid comm⟩
  | done => rw [hph] at h; exact h

theorem values_fault (h : Values m₀ s) (pid : UInt32) (comm : Comm) :
    Values m₀ { s with
      maps := countPageFault s.maps pid comm
      faults := Function.update s.faults pid (s.faults pid + 1) } where
  unread k v₀ hk hr := by
    obtain ⟨v, hv, hn⟩ := h.unread k v₀ hk hr
    show ∃ v, (countEvent _ _ _ s.maps.counter pid).lookupElem k = some v ∧
      v.count.toNat = (v₀.count.toNat + Function.update s.faults pid (s.faults pid + 1) k) % 2 ^ 64
    rw [lookupElem_countEvent (by decide)]
    by_cases hp : k = pid
    · subst hp
      rw [if_pos rfl, hv, Function.update_self]
      refine ⟨v.add, rfl, ?_⟩
      show (v.count + 1).toNat = _
      rw [UInt64.toNat_add, hn, ← Nat.add_assoc]
      exact Nat.mod_add_mod _ _ _
    · rw [if_neg hp, Function.update_of_ne hp]
      exact ⟨v, hv, hn⟩
  read k v₀ hk v hv := by
    obtain ⟨n, hle, hn⟩ := h.read k v₀ hk v hv
    refine ⟨n, Nat.le_trans hle ?_, hn⟩
    show s.faults k ≤ Function.update s.faults pid (s.faults pid + 1) k
    by_cases hp : k = pid
    · rw [hp, Function.update_self]; exact Nat.le_succ _
    · rw [Function.update_of_ne hp]

theorem keysOf_append (l : List (UInt32 × PageVal)) (key : UInt32) (val : PageVal) :
    keysOf (l ++ [(key, val)]) = keysOf l ++ [key] := Assoc.keys_append ..

theorem mem_keysOf_append {l : List (UInt32 × PageVal)} {key : UInt32} {val : PageVal} (k : UInt32) :
    k ∈ keysOf (l ++ [(key, val)]) ↔ k ∈ key :: keysOf l := by
  rw [keysOf_append, List.mem_append, List.mem_singleton, List.mem_cons]; exact or_comm

/-- The lookup of a key that is there. -/
theorem inv_look (hI : Inv m₀ s) {key : UInt32} {n : Option UInt32} {val : PageVal}
    (hph : s.phase = .look key n) (hv : s.maps.counter.lookupElem key = some val) :
    Inv m₀ { s with
      phase := .delete key n
      read := s.read ++ [(key, val)]
      printed := if val.count > 0 then s.printed ++ [(key, val)] else s.printed } := by
  have hp := hI.place
  unfold Place at hp
  rw [hph] at hp
  obtain ⟨-, hnew, hfront⟩ := hp
  refine ⟨⟨?_, hfront.congr fun k => (mem_keysOf_append k).symm⟩, ⟨?_, ?_⟩, ?_, ?_⟩
  · exact (mem_keysOf_append key).mpr List.mem_cons_self
  · intro k v₀ hk hr
    exact hI.values.unread k v₀ hk fun h =>
      hr ((mem_keysOf_append k).mpr (List.mem_cons_of_mem _ h))
  · intro k v₀ hk v hmem
    rcases List.mem_append.mp hmem with hmem | hmem
    · exact hI.values.read k v₀ hk v hmem
    · obtain ⟨rfl, rfl⟩ := Prod.mk.inj (List.mem_singleton.mp hmem)
      obtain ⟨w, hw, hn⟩ := hI.values.unread k v₀ hk hnew
      rw [hv] at hw
      cases hw
      exact ⟨s.faults k, Nat.le_refl _, hn⟩
  · show (keysOf (s.read ++ [(key, val)])).Nodup
    rw [keysOf_append]
    exact List.nodup_append.mpr ⟨hI.nodup, List.nodup_singleton _,
      fun a ha b hb hab => hnew (by rw [← List.mem_singleton.mp hb, ← hab]; exact ha)⟩
  · show (if val.count > 0 then s.printed ++ [(key, val)] else s.printed) = _
    rw [List.filter_append, ← hI.printed]
    by_cases hc : val.count > 0
    · rw [if_pos hc, List.filter_cons_of_pos (by simpa using hc)]; rfl
    · rw [if_neg hc, List.filter_cons_of_neg (by simpa using hc)]
      exact (List.append_nil _).symm

/-- A key that was read is deleted. -/
theorem inv_delete (hI : Inv m₀ s) {key : UInt32} {n : Option UInt32}
    (hph : s.phase = .delete key n) :
    Inv m₀ { s with
      phase := turn n
      maps := { s.maps with counter := s.maps.counter.deleteElem key } } := by
  have hp := hI.place
  unfold Place at hp
  rw [hph] at hp
  obtain ⟨hkey, hfront⟩ := hp
  refine ⟨place_turn (s := { s with maps := { s.maps with
      counter := s.maps.counter.deleteElem key } }) (hfront.delete hkey),
    ⟨fun k v₀ hk hr => ?_, hI.values.read⟩, hI.nodup, hI.printed⟩
  have hne : k ≠ key := fun h => hr (h ▸ hkey)
  show ∃ v, (s.maps.counter.deleteElem key).lookupElem k = some v ∧ _
  rw [HashMap.lookupElem_deleteElem_ne hne]
  exact hI.values.unread k v₀ hk hr

/-- **One map call** of the poll. -/
theorem inv_poll (hI : Inv m₀ s) {s' : State} (h : pollStep s = some s') : Inv m₀ s' := by
  have hp := hI.place
  unfold Place at hp
  unfold pollStep at h
  cases hph : s.phase with
  | start =>
    rw [hph] at h hp
    cases h
    refine ⟨place_turn (s := s) ?_, ⟨hI.values.unread, hI.values.read⟩, hI.nodup, hI.printed⟩
    rw [hp.1]; exact front_first hp.2
  | next key =>
    rw [hph] at h hp
    cases h
    have hadv := Front.advance hp
    obtain ⟨B, hB, -, hold⟩ := hp
    exact ⟨⟨hB.mem, fun hk => (hold key hk).1 List.mem_cons_self, hadv⟩,
      ⟨hI.values.unread, hI.values.read⟩, hI.nodup, hI.printed⟩
  | look key n =>
    rw [hph] at h hp
    obtain ⟨val, hv⟩ := HashMap.exists_lookup hp.1
    simp only [hv] at h
    cases h
    exact inv_look hI hph hv
  | delete key n =>
    rw [hph] at h
    cases h
    exact inv_delete hI hph
  | done => rw [hph] at h; cases h

theorem inv_step (s : State) (l : Label) (s' : State) (hI : Inv m₀ s) (h : step s l = some s') :
    Inv m₀ s' := by
  cases l with
  | fault pid comm =>
    cases h
    exact ⟨place_fault hI.place pid comm _, values_fault hI.values pid comm, hI.nodup, hI.printed⟩
  | poll => exact inv_poll hI h

theorem inv_start (m : PageFaultMaps) : Inv m.counter (start m) := by
  refine ⟨⟨rfl, fun _ hk => hk⟩, ⟨fun k v₀ hk _ => ⟨v₀, hk, ?_⟩, fun k v₀ _ v hv => (by cases hv)⟩,
    List.nodup_nil, rfl⟩
  exact (Nat.mod_eq_of_lt v₀.count.toNat_lt).symm

end

/-! ## How long it takes -/

/-- The map calls the poll has made. -/
def work (s : State) : Nat :=
  match s.phase with
  | .start => 0
  | .next _ | .done => 3 * s.read.length + 1
  | .look .. => 3 * s.read.length + 2
  | .delete .. => 3 * s.read.length

theorem work_turn (s : State) (o : Option UInt32) :
    work { s with phase := turn o } = 3 * s.read.length + 1 := by
  cases o <;> rfl

theorem work_poll {m₀ : HashMap UInt32 PageVal} {s s' : State} (hI : Inv m₀ s)
    (h : pollStep s = some s') : work s' = work s + 1 := by
  have hp := hI.place
  unfold Place at hp
  unfold pollStep at h
  unfold work
  cases hph : s.phase with
  | start =>
    rw [hph] at h hp
    cases h
    exact (work_turn s _).trans (by rw [hp.1]; rfl)
  | next key => rw [hph] at h; cases h; rfl
  | look key n =>
    rw [hph] at h hp
    obtain ⟨val, hv⟩ := HashMap.exists_lookup hp.1
    simp only [hv] at h
    cases h
    show 3 * (s.read ++ [(key, val)]).length = 3 * s.read.length + 2 + 1
    rw [List.length_append, List.length_singleton]; omega
  | delete key n =>
    rw [hph] at h
    cases h
    exact work_turn { s with maps := _ } n
  | done => rw [hph] at h; cases h

theorem work_exec {m₀ : HashMap UInt32 PageVal} {s t : State} {ls : List Label} (hI : Inv m₀ s)
    (h : exec step s ls = some t) : work t = work s + polls ls := by
  induction ls generalizing s with
  | nil => cases h; rfl
  | cons l ls ih =>
    obtain ⟨s', hs, hx⟩ := exec_cons_some h
    rw [ih (inv_step s l s' hI hs) hx]
    cases l with
    | fault pid comm =>
      cases hs
      have hcount : polls (.fault pid comm :: ls) = polls ls := List.count_cons_of_ne (by simp)
      rw [hcount]; rfl
    | poll =>
      have hcount : polls (.poll :: ls) = polls ls + 1 := List.count_cons_self
      rw [work_poll hI hs, hcount]; omega

/-- There are no more than 2^32 PIDs. -/
theorem length_le_pids {l : List UInt32} (h : l.Nodup) : l.length ≤ 2 ^ 32 := by
  have hn : (l.map UInt32.toNat).Nodup := h.map fun a b hab => UInt32.toNat_inj.mp hab
  have hsub : l.map UInt32.toNat ⊆ List.range (2 ^ 32) := by
    intro n hn
    obtain ⟨p, -, rfl⟩ := List.mem_map.mp hn
    exact List.mem_range.mpr p.toNat_lt
  have hle := (List.subperm_of_subset hn hsub).length_le
  rwa [List.length_map, List.length_range] at hle

theorem work_le {m₀ : HashMap UInt32 PageVal} {s : State} (hI : Inv m₀ s) :
    work s ≤ 3 * 2 ^ 32 + 2 := by
  have hlen := length_le_pids hI.nodup
  rw [show (keysOf s.read).length = s.read.length from List.length_map ..] at hlen
  unfold work
  split <;> omega

theorem poll_possible {m₀ : HashMap UInt32 PageVal} {s : State} (hI : Inv m₀ s)
    (h : s.phase ≠ .done) : ∃ s', step s .poll = some s' := by
  have hp := hI.place
  unfold Place at hp
  simp only [step, pollStep]
  cases hph : s.phase with
  | start => exact ⟨_, rfl⟩
  | next key => exact ⟨_, rfl⟩
  | look key n =>
    rw [hph] at hp
    obtain ⟨val, hv⟩ := HashMap.exists_lookup hp.1
    simp only [hv]
    exact ⟨_, rfl⟩
  | delete key n => exact ⟨_, rfl⟩
  | done => exact absurd hph h

/-! ## One poll -/

/-- What was read with a count was printed. -/
theorem count_printed {m₀ : HashMap UInt32 PageVal} {s : State} (hI : Inv m₀ s)
    (hdone : s.phase = .done) {pid : UInt32} {v : PageVal} (hv : m₀.lookupElem pid = some v)
    (hpos : 0 < v.count) (hlt : v.count.toNat + s.faults pid < 2 ^ 64) :
    (keysOf s.printed).count pid = 1 := by
  have hp := hI.place
  unfold Place at hp
  rw [hdone] at hp
  obtain ⟨e, he, rfl⟩ := List.mem_map.mp (hp pid (HashMap.mem_keys_of_lookup hv))
  obtain ⟨n, hle, hn⟩ := hI.values.read e.1 v hv e.2 he
  have hcount : e.2.count > 0 := by
    have h0 := UInt64.lt_iff_toNat_lt.mp hpos
    rw [UInt64.toNat_zero] at h0
    rw [gt_iff_lt, UInt64.lt_iff_toNat_lt, hn, UInt64.toNat_zero, Nat.mod_eq_of_lt (by omega)]
    omega
  have hmem : e.1 ∈ keysOf s.printed := by
    rw [hI.printed]
    exact Assoc.mem_keys_of_mem (List.mem_filter.mpr ⟨he, by simpa using hcount⟩)
  have hnodup : (keysOf s.printed).Nodup := by
    rw [hI.printed]
    exact hI.nodup.sublist ((List.filter_sublist).map Prod.fst)
  exact List.count_eq_one_of_mem hnodup hmem

/-- **A poll of page_fault_stat.** For any content of the map and any page faults
between its map calls: no key is printed twice; at the end every key that was there
at the start, with a count that is not driven past 2^64 - 1, is printed once; and the
poll ends within a fixed number of its own map calls. -/
theorem pageFault_poll (m : PageFaultMaps) (ls : List Label) {s : State}
    (h : exec step (start m) ls = some s) :
    (keysOf s.printed).Nodup ∧
    (s.phase = .done → ∀ pid v, m.counter.lookupElem pid = some v → 0 < v.count →
      v.count.toNat + s.faults pid < 2 ^ 64 → (keysOf s.printed).count pid = 1) ∧
    polls ls ≤ 3 * 2 ^ 32 + 2 ∧
    (s.phase ≠ .done → ∃ s', step s .poll = some s') := by
  have hI : Inv m.counter s := inv_exec (fun s l s' => inv_step s l s') (inv_start m) h
  refine ⟨?_, fun hd pid v => count_printed hI hd, ?_, poll_possible hI⟩
  · rw [hI.printed]
    exact hI.nodup.sublist ((List.filter_sublist).map Prod.fst)
  · have hw := work_exec (inv_start m) h
    have hle := work_le hI
    rw [hw] at hle
    exact Nat.le_trans (Nat.le_add_left _ _) hle

/-- PIDs 1 and 2 in one bucket, with one page fault each. -/
def twoPids : PageFaultMaps where
  counter := ((HashMap.empty (fun _ => 0) 10240).put 2 ⟨nameB, 1⟩).put 1 ⟨nameA, 1⟩
  counterExporter := .empty (fun _ => 0) 10240

/-- PID 1 comes back behind its deletion, PID 3 is new. -/
def busy : List Label :=
  [.poll, .poll, .poll, .poll, .fault 1 nameA, .poll, .fault 3 nameA, .fault 2 nameB, .poll, .poll]

theorem pageFault_busy :
    (exec step (start twoPids) busy).map (fun s => (s.phase, s.printed)) =
      some (.done, [(1, ⟨nameA, 1⟩), (2, ⟨nameB, 2⟩)]) ∧
    ∀ s, exec step (start twoPids) busy = some s →
      (keysOf s.printed).Nodup ∧
      (s.phase = .done → ∀ pid v, twoPids.counter.lookupElem pid = some v → 0 < v.count →
        v.count.toNat + s.faults pid < 2 ^ 64 → (keysOf s.printed).count pid = 1) ∧
      polls busy ≤ 3 * 2 ^ 32 + 2 ∧
      (s.phase ≠ .done → ∃ s', step s .poll = some s') :=
  ⟨by decide +kernel, fun _ hs => pageFault_poll twoPids busy hs⟩

/-- PID 1 with a count of 0. -/
def zeroCount : PageFaultMaps where
  counter := (HashMap.empty (fun _ => 0) 10240).put 1 ⟨nameA, 0⟩
  counterExporter := .empty (fun _ => 0) 10240

/-- **Counterexample.** An entry with count 0 is there at the start and is not
printed. -/
theorem pageFault_zero :
    1 ∈ zeroCount.counter.keys ∧
    (exec step (start zeroCount) [.poll, .poll, .poll, .poll]).map
      (fun s => (s.phase, s.printed)) = some (.done, []) := by
  decide +kernel

end PageFaultPoll
end EbpfDemo.L5Concurrency
