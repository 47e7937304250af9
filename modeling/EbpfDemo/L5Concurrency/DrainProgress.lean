import EbpfDemo.Core.Weigh
import EbpfDemo.L3Loader.Drain

/-!
# A poll that deletes, while events come in

Behind a deleted key the walk starts again at the first key, unless an event has put the
deleted key back; then it goes on behind it. A new key may come to stand in front of the
walk or behind it. So a poll can meet a key twice, and what it still has to do can grow.

What it cannot do is miss a key that was there at its first call, or run on without new
keys. The first rests on the order of the buckets (`Place`): a key that is put back
stands at the head of its bucket, in front of every key the walk has not read yet. The
second on a potential (`left`): an insert raises it by three, a map call lowers it.

* `drain_progress`: for every loop that deletes and every counting event.
-/
namespace EbpfDemo.L5Concurrency.DrainProgress

open EbpfDemo.Core
open L2Kernel
open L3Loader

/-- What an event does to the element of its key. -/
structure Counting (V : Type) where
  inc : V → V
  first : V
  flag : UpdateFlag
  inserts : flag ≠ .exist

inductive Label (K V : Type) where
  | poll
  | event (c : Counting V) (k : K)

/-- The loop, and the keys it has looked up in this poll. -/
structure State (K V : Type) where
  loop : DState K V
  read : List K

section
variable {K V : Type}

theorem size_pos {m : HashMap K V} {k : K} (h : k ∈ m.keys) : 0 < m.size := by
  have : 0 < m.keys.length := List.length_pos_of_mem h
  rwa [show m.keys.length = m.size from List.length_map ..] at this

variable [DecidableEq K]

/-- A map call of the poll; `none` when the poll is over. -/
def pollOnce (d : Drain K V) (s : State K V) : Option (State K V) :=
  match s.loop.pc with
  | .idle => none
  | .look k => some ⟨pollStep d s.loop,
      if (s.loop.map.lookupElem k).isSome then s.read ++ [k] else s.read⟩
  | _ => some { s with loop := pollStep d s.loop }

/-- An event of `k` on the map of the loop. -/
def count (s : DState K V) (c : Counting V) (k : K) : DState K V :=
  { s with map := countEvent c.inc c.first c.flag s.map k }

def step (d : Drain K V) (s : State K V) : Label K V → Option (State K V)
  | .poll => pollOnce d s
  | .event c k => some { s with loop := count s.loop c k }

/-- A poll before its first call. -/
def start (d : Drain K V) (m : HashMap K V) : State K V := ⟨begin d m, []⟩

/-- The map calls of the poll in a run. -/
def polls : List (Label K V) → Nat
  | [] => 0
  | .poll :: ls => polls ls + 1
  | .event _ _ :: ls => polls ls

/-- Whether the event puts a new key into the map. -/
def inserts (s : State K V) : Label K V → Nat
  | .poll => 0
  | .event _ k => if k ∉ s.loop.map.keys ∧ ¬ s.loop.map.Full then 1 else 0

variable {d : Drain K V} {s s' t : State K V} {m : HashMap K V} {K₀ : List K}

/-! ## How long it takes -/

/-- The map calls that are left when no key comes in. -/
def left (s : DState K V) : Nat :=
  match s.pc with
  | .idle => 0
  | .next => 3 * s.map.size + 1
  | .look _ => 3 * s.map.size
  | .clear _ => 3 * s.map.size - 1

/-- The key the loop is at is in the map: no one else deletes. -/
def AtKey (s : DState K V) : Prop :=
  match s.pc with
  | .look k | .clear k => k ∈ s.map.keys
  | _ => True

theorem size_countEvent (c : Counting V) (m : HashMap K V) (k : K) :
    (countEvent c.inc c.first c.flag m k).size =
      m.size + if k ∉ m.keys ∧ ¬ m.Full then 1 else 0 := by
  cases hl : m.lookupElem k with
  | some v =>
    have hk := HashMap.mem_keys_of_lookup hl
    rw [countEvent_present hl, HashMap.size_modifyElem, if_neg fun h => h.1 hk, Nat.add_zero]
  | none =>
    have hk := HashMap.lookupElem_eq_none.mp hl
    by_cases hfull : m.Full
    · rw [countEvent_refused hl hfull, if_neg fun h => h.2 hfull, Nat.add_zero]
    · rw [countEvent_absent hl c.inserts hfull, HashMap.size_put_absent hk, if_pos ⟨hk, hfull⟩]

theorem atKey_event (h : AtKey s.loop) (c : Counting V) (k : K) :
    AtKey (count s.loop c k) := by
  unfold AtKey at h ⊢
  rw [count]
  dsimp only
  cases hp : s.loop.pc with
  | look q | clear q => rw [hp] at h; exact mem_keys_countEvent_of_mem c.inserts h
  | _ => trivial

theorem left_event (h : AtKey s.loop) (c : Counting V) (k : K) :
    left (count s.loop c k) ≤ left s.loop + 3 * inserts s (.event c k) := by
  unfold AtKey at h
  unfold left inserts
  rw [count]
  dsimp only
  rw [size_countEvent]
  cases hp : s.loop.pc with
  | clear q =>
    rw [hp] at h
    have := size_pos h
    dsimp only
    omega
  | _ => dsimp only; omega

/-- **A map call** leaves one less. -/
theorem left_poll (hd : d.Deletes) (h : AtKey s.loop) (hs : pollOnce d s = some s') :
    AtKey s'.loop ∧ left s'.loop + 1 ≤ left s.loop := by
  unfold pollOnce at hs
  unfold AtKey at h
  cases hp : s.loop.pc with
  | idle => rw [hp] at hs; cases hs
  | next =>
    rw [hp] at hs
    cases hs
    cases hk : s.loop.map.getNextKey s.loop.cursor with
    | none =>
      simp only [pollStep, hp, hk, AtKey, left, true_and]
      omega
    | some k =>
      have := size_pos (HashMap.mem_of_getNextKey hk)
      simp only [pollStep, hp, hk, AtKey, left]
      exact ⟨HashMap.mem_of_getNextKey hk, Nat.le_refl _⟩
  | look k =>
    rw [hp] at hs h
    cases hs
    obtain ⟨v, hv⟩ := HashMap.exists_lookup h
    have := size_pos h
    simp only [pollStep, hp, hv, AtKey, left]
    exact ⟨h, by omega⟩
  | clear k =>
    rw [hp] at hs h
    cases hs
    have := HashMap.size_deleteElem h
    have := size_pos h
    simp only [pollStep, hp, hd s.loop.map k, AtKey, left, true_and]
    omega

theorem polls_le (hd : d.Deletes) {ls : List (Label K V)} (h : AtKey s.loop)
    (hx : exec (step d) s ls = some t) :
    AtKey t.loop ∧ polls ls + left t.loop ≤ left s.loop + 3 * sumAlong (step d) inserts s ls := by
  induction ls generalizing s with
  | nil => cases hx; exact ⟨h, by simp [polls]⟩
  | cons l ls ih =>
    obtain ⟨s', hs, hrest⟩ := exec_cons_some hx
    rw [sumAlong_cons hs]
    cases l with
    | poll =>
      obtain ⟨h', hless⟩ := left_poll hd h hs
      obtain ⟨ht, hle⟩ := ih h' hrest
      refine ⟨ht, ?_⟩
      rw [polls]
      simp only [inserts]
      omega
    | event c k =>
      have hless := left_event h c k
      cases hs
      obtain ⟨ht, hle⟩ := ih (s := { s with loop := count s.loop c k }) (atKey_event h c k) hrest
      refine ⟨ht, ?_⟩
      rw [polls]
      dsimp only at hle
      omega

/-! ## What it reads -/

/-- In front of the walk: `c` is in the map, and the keys that are not read yet stand
behind it; or `c` is not there, and if it comes back it will stand in front of them. -/
def Cursor (K₀ : List K) (m : HashMap K V) (read : List K) (c : K) : Prop :=
  if c ∈ m.keys then ∃ B, m.Behind c B ∧ ∀ q ∈ K₀, q ∈ read ∨ q ∈ B
  else ∀ q ∈ K₀, q ∈ read ∨ q ∈ m.keys ∧ m.bucketOf c ≤ m.bucketOf q

/-- Where the poll stands among the keys `K₀` it found at its first call. -/
def Place (K₀ : List K) (s : State K V) : Prop :=
  match s.loop.pc with
  | .idle => ∀ q ∈ K₀, q ∈ s.read
  | .next => ∃ c, s.loop.cursor = some c ∧ Cursor K₀ s.loop.map s.read c
  | .look k => ∃ B, s.loop.map.Behind k B ∧ ∀ q ∈ K₀, q ∈ s.read ∨ q ∈ k :: B
  | .clear k => ∃ B, s.loop.map.Behind k B ∧ ∀ q ∈ K₀, q ∈ s.read ∨ q ∈ B

/-- A key that comes back stands in front of every key of its bucket and the later
ones. -/
theorem behind_put {c : K} (hc : c ∉ m.keys) (v : V) :
    ∃ B, (m.put c v).Behind c B ∧ ∀ q ∈ m.keys, m.bucketOf c ≤ m.bucketOf q → q ∈ B := by
  obtain ⟨A, B, hl, hp, hA⟩ := Assoc.place_split m.bucketOf (c, v) m.elems
  refine ⟨Assoc.keys B, ⟨Assoc.keys A, ?_⟩, fun q hq hle => ?_⟩
  · show Assoc.keys (Assoc.place m.bucketOf (c, v) (Assoc.erase c m.elems)) = _
    rw [Assoc.erase_of_notMem hc, hp, Assoc.keys_append, Assoc.keys_cons]
  · have hmem : q ∈ Assoc.keys (A ++ B) := hl ▸ hq
    rw [Assoc.keys_append, List.mem_append] at hmem
    refine hmem.resolve_left fun hqA => ?_
    obtain ⟨e, he, rfl⟩ := List.mem_map.mp hqA
    exact absurd (hA e he) (Nat.not_lt_of_le hle)

/-- An event behind a key of the map leaves what stands behind it there. -/
theorem behind_event {k : K} {B : List K} {P : K → Prop} (c : Counting V) (q : K)
    (h : m.Behind k B) (hP : ∀ x ∈ K₀, P x ∨ x ∈ B) :
    ∃ B', (countEvent c.inc c.first c.flag m q).Behind k B' ∧ ∀ x ∈ K₀, P x ∨ x ∈ B' := by
  obtain ⟨B', hB', hsub, -⟩ :
      ∃ B', (countEvent c.inc c.first c.flag m q).Behind k B' ∧ (∀ x ∈ B, x ∈ B') ∧ _ :=
    behind_countEvent c.inserts h
  exact ⟨B', hB', fun x hx => (hP x hx).imp_right (hsub x)⟩

theorem cursor_event {read : List K} {k : K} (h : Cursor K₀ m read k) (c : Counting V) (q : K) :
    Cursor K₀ (countEvent c.inc c.first c.flag m q) read k := by
  have hstay : ∀ x ∈ m.keys, x ∈ (countEvent c.inc c.first c.flag m q).keys :=
    fun x hx => mem_keys_countEvent_of_mem c.inserts hx
  unfold Cursor at h ⊢
  by_cases hk : k ∈ m.keys
  · rw [if_pos hk] at h
    obtain ⟨B, hB, hK⟩ := h
    rw [if_pos (hstay k hk)]
    exact behind_event c q hB hK
  · rw [if_neg hk] at h
    by_cases hk' : k ∈ (countEvent c.inc c.first c.flag m q).keys
    · -- the deleted key has come back
      have hqk : k = q := (mem_keys_of_countEvent c.inserts hk').resolve_right hk
      subst hqk
      have hfull : ¬ m.Full := fun hf => by
        rw [countEvent_refused (HashMap.lookupElem_eq_none.mpr hk) hf] at hk'
        exact hk hk'
      rw [if_pos hk', countEvent_absent (HashMap.lookupElem_eq_none.mpr hk) c.inserts hfull]
      obtain ⟨B, hB, hmem⟩ := behind_put hk c.first
      exact ⟨B, hB, fun x hx => (h x hx).imp_right fun hx => hmem x hx.1 hx.2⟩
    · rw [if_neg hk', bucketOf_countEvent]
      exact fun x hx => (h x hx).imp_right fun hx => ⟨hstay x hx.1, hx.2⟩

theorem place_event (h : Place K₀ s) (c : Counting V) (k : K) :
    Place K₀ { s with loop := count s.loop c k } := by
  unfold Place at h ⊢
  unfold count
  dsimp only
  cases hp : s.loop.pc with
  | idle => rw [hp] at h; exact h
  | next =>
    rw [hp] at h
    obtain ⟨q, hq, hc⟩ := h
    exact ⟨q, hq, cursor_event hc c k⟩
  | look q =>
    rw [hp] at h
    obtain ⟨B, hB, hK⟩ := h
    obtain ⟨B', hB', hK'⟩ := behind_event (P := fun x => x ∈ s.read ∨ x = q) c k hB fun x hx =>
      or_assoc.mpr ((hK x hx).imp_right List.mem_cons.mp)
    refine ⟨B', hB', fun x hx => ?_⟩
    exact (or_assoc.mp (hK' x hx)).imp_right List.mem_cons.mpr
  | clear q =>
    rw [hp] at h
    obtain ⟨B, hB, hK⟩ := h
    exact behind_event c k hB hK

omit [DecidableEq K] in
/-- The first key of a map, with what stands behind it. -/
theorem behind_head {k : K} (h : m.keys.head? = some k) :
    ∃ B, m.Behind k B ∧ ∀ x ∈ m.keys, x ∈ k :: B := by
  obtain ⟨B, hB⟩ : ∃ B, m.keys = k :: B := by
    cases hk : m.keys with
    | nil => rw [hk] at h; cases h
    | cons a B => rw [hk] at h; cases h; exact ⟨B, rfl⟩
  exact ⟨B, HashMap.behind_first hB, fun x hx => hB ▸ hx⟩

/-- `get_next_key` behind the cursor. -/
theorem cursor_next {read : List K} {c : K} (h : Cursor K₀ m read c) :
    match m.getNextKey (some c) with
    | none => ∀ q ∈ K₀, q ∈ read
    | some k => ∃ B, m.Behind k B ∧ ∀ q ∈ K₀, q ∈ read ∨ q ∈ k :: B := by
  unfold Cursor at h
  by_cases hc : c ∈ m.keys
  · rw [if_pos hc] at h
    obtain ⟨B, hB, hK⟩ := h
    rw [hB.next]
    cases B with
    | nil => exact fun q hq => (hK q hq).resolve_right List.not_mem_nil
    | cons k B => exact ⟨B, hB.advance, hK⟩
  · rw [if_neg hc] at h
    rw [HashMap.getNextKey_absent hc]
    cases hh : m.keys.head? with
    | none =>
      have hnil : m.keys = [] := List.head?_eq_none_iff.mp hh
      exact fun q hq => (h q hq).resolve_right fun hx => by
        have hq := hx.1
        rw [hnil] at hq
        cases hq
    | some k =>
      obtain ⟨B, hB, hmem⟩ := behind_head hh
      exact ⟨B, hB, fun q hq => (h q hq).imp_right fun hx => hmem q hx.1⟩

/-- **A map call** in the walk. -/
theorem place_poll (hd : d.Deletes) (h : Place K₀ s) (hs : pollOnce d s = some s') :
    Place K₀ s' := by
  unfold pollOnce at hs
  unfold Place at h
  cases hp : s.loop.pc with
  | idle => rw [hp] at hs; cases hs
  | next =>
    rw [hp] at hs h
    cases hs
    obtain ⟨c, hc, hcur⟩ := h
    have hnext := cursor_next hcur
    rw [← hc] at hnext
    cases hk : s.loop.map.getNextKey s.loop.cursor with
    | none => rw [hk] at hnext; simpa only [Place, pollStep, hp, hk] using hnext
    | some k => rw [hk] at hnext; simpa only [Place, pollStep, hp, hk] using hnext
  | look k =>
    rw [hp] at hs h
    cases hs
    obtain ⟨B, hB, hK⟩ := h
    obtain ⟨v, hv⟩ := HashMap.exists_lookup hB.mem
    simp only [Place, pollStep, hp, hv, Option.isSome_some, if_true]
    refine ⟨B, hB, fun q hq => ?_⟩
    rcases hK q hq with hq | hq
    · exact .inl (List.mem_append_left _ hq)
    · rcases List.mem_cons.mp hq with rfl | hq
      · exact .inl (List.mem_append_right _ (List.mem_singleton_self q))
      · exact .inr hq
  | clear k =>
    rw [hp] at hs h
    cases hs
    obtain ⟨B, hB, hK⟩ := h
    have habsent : k ∉ (s.loop.map.deleteElem k).keys := fun hk =>
      (HashMap.mem_keys_deleteElem.mp hk).2 rfl
    simp only [Place, pollStep, hp, hd s.loop.map k]
    refine ⟨k, rfl, ?_⟩
    unfold Cursor
    rw [if_neg habsent]
    refine fun q hq => (hK q hq).imp_right fun hqB => ⟨?_, hB.bucket_le hqB⟩
    obtain ⟨A, hA⟩ := hB
    refine HashMap.mem_keys_deleteElem.mpr ⟨by rw [hA]; simp [hqB], fun he => ?_⟩
    exact HashMap.Behind.notMem ⟨A, hA⟩ (he ▸ hqB)

theorem place_step (hd : d.Deletes) (s : State K V) (l : Label K V) (s' : State K V)
    (h : Place K₀ s) (hs : step d s l = some s') : Place K₀ s' := by
  cases l with
  | poll => exact place_poll hd h hs
  | event c k => cases hs; exact place_event h c k

/-- The first call. -/
theorem place_first (hstart : ∀ c, d.start = some c → c ∉ m.keys)
    (hs : step d (start d m) .poll = some s) : Place m.keys s := by
  have hnext : m.getNextKey d.start = m.keys.head? := by
    cases hst : d.start with
    | none => rfl
    | some c => exact HashMap.getNextKey_absent (hstart c hst)
  cases hs
  cases hh : m.keys.head? with
  | none =>
    rw [hh] at hnext
    simp only [Place, pollStep, start, begin, hnext]
    intro q hq
    rw [List.head?_eq_none_iff.mp hh] at hq
    cases hq
  | some k =>
    rw [hh] at hnext
    obtain ⟨B, hB, hmem⟩ := behind_head hh
    simp only [Place, pollStep, start, begin, hnext]
    exact ⟨B, hB, fun q hq => .inr (hmem q hq)⟩

theorem poll_possible (h : s.loop.pc ≠ .idle) : ∃ s', step d s .poll = some s' := by
  simp only [step, pollOnce]
  cases hp : s.loop.pc with
  | idle => exact absurd hp h
  | _ => exact ⟨_, rfl⟩

/-- **A poll under events.** For every loop that deletes and any events between its map
calls: it makes at most three map calls for each key that it found or that came in, and
one more; it can always go on until it ends; and if its start key was not in the map at
its first call, then at its end it has read every key that was in the map at that
call. -/
theorem drain_progress (hd : d.Deletes) (m : HashMap K V) (ls : List (Label K V))
    (hx : exec (step d) (start d m) (.poll :: ls) = some t) :
    polls (.poll :: ls) ≤ 3 * (m.size + sumAlong (step d) inserts (start d m) (.poll :: ls)) + 1 ∧
      (t.loop.pc ≠ .idle → ∃ t', step d t .poll = some t') ∧
      ((∀ c, d.start = some c → c ∉ m.keys) → t.loop.pc = .idle → ∀ k ∈ m.keys, k ∈ t.read) := by
  refine ⟨?_, poll_possible, fun hstart hidle => ?_⟩
  · obtain ⟨-, hle⟩ := polls_le hd (s := start d m) trivial hx
    have hleft : left (start d m).loop = 3 * m.size + 1 := rfl
    omega
  · obtain ⟨s, hs, hx⟩ := exec_cons_some hx
    have h : Place m.keys t := inv_exec (place_step hd) (place_first hstart hs) hx
    unfold Place at h
    rw [hidle] at h
    exact h

end

/-! ## A PID that comes back -/

/-- A connection of a process named `a`. -/
def connection : Counting ConnInfo := ⟨.add, ⟨1, nameA⟩, .any, by decide⟩

/-- PIDs 1 and 2 in one bucket. -/
def twoPids : HashMap UInt32 ConnInfo :=
  ((HashMap.empty (fun _ => 0) 10240).put 2 ⟨1, nameB⟩).put 1 ⟨1, nameA⟩

/-- PID 1 comes back behind its deletion, in front of PID 2, and is read again. -/
def comesBack : List (Label UInt32 ConnInfo) :=
  [.poll, .poll, .event connection 1] ++ List.replicate 7 .poll

theorem drain_progress_comesBack : ∃ t,
    exec (step tcpConnect) (start tcpConnect twoPids) (.poll :: comesBack) = some t ∧
      t.read = [1, 2, 1] ∧ (∀ k ∈ twoPids.keys, k ∈ t.read) ∧
      polls (.poll :: comesBack) ≤ 3 * (2 + 1) + 1 := by
  have hx : (exec (step tcpConnect) (start tcpConnect twoPids) (.poll :: comesBack)).map
      (fun t => (t.read, t.loop.pc)) = some ([1, 2, 1], .idle) := by decide +kernel
  obtain ⟨t, ht, hp⟩ := Option.map_eq_some_iff.mp hx
  obtain ⟨hread, hidle⟩ := Prod.mk.inj hp
  obtain ⟨hle, -, hall⟩ := drain_progress (d := tcpConnect) (fun _ _ => rfl) twoPids comesBack ht
  have hins : sumAlong (step tcpConnect) inserts (start tcpConnect twoPids) (.poll :: comesBack) =
      1 := by decide +kernel
  rw [hins] at hle
  exact ⟨t, ht, hread, hall (fun c hc => by cases hc; decide) hidle, hle⟩

end EbpfDemo.L5Concurrency.DrainProgress
