import EbpfDemo.Core.Ledger
import EbpfDemo.L3Loader.Drain
import EbpfDemo.L3Loader.ReadStat

/-!
# No event lost between kernel and user space

A `Loader` is a counting program and the poll that reads its map. `step`
interleaves them: a label is one map call of the poll or one event, which runs
its handler as one step. Behind each event the ghost `events` counts it for its
key.

`PollMove` is all a map call of a poll can do to the books: nothing, print the
value of a key (the window opens), or clear the key that was printed (the
window closes). Each of them keeps `Core.Ledger.credit`; an event keeps up with
it unless it falls into the window of its key, finds no room in the map, or
wraps its counter (`Counts`). `conserved_iff` is the law for any such loader
and `conservation_iff` for `read_stat`, `tcp_connect` and `mmap_stat`;
`conservation_window` is an event that falls between the print and the clear.
-/
namespace EbpfDemo.L5Concurrency

open EbpfDemo.Core
open L2Kernel
open L3Loader

variable {σ E K V : Type} [DecidableEq K]

/-- A counting program (`key`, `handle`, `count`) and a poll of its map. -/
structure Loader (σ E K V : Type) where
  key : E → K
  handle : HashMap K V → E → HashMap K V
  count : V → UInt64
  poll : σ → σ
  map : σ → HashMap K V
  withMap : σ → HashMap K V → σ
  printed : σ → List (K × V)
  window : σ → Option K

structure Run (σ K : Type) where
  st : σ
  events : K → Nat

inductive Lbl (E : Type) where
  | poll
  | event (e : E)

namespace Loader

variable (L : Loader σ E K V)

/-- The value under `p` in the map (0 when it is absent). -/
def value (m : HashMap K V) (p : K) : Nat := match m.lookupElem p with
  | none => 0
  | some v => (L.count v).toNat

/-- The sum of the values printed for `p`. -/
def sum (p : K) (es : List (K × V)) : Nat :=
  ((es.filter fun e => e.1 = p).map fun e => (L.count e.2).toNat).sum

def step (s : Run σ K) : Lbl E → Option (Run σ K)
  | .poll => some { s with st := L.poll s.st }
  | .event e => some
      { st := L.withMap s.st (L.handle (L.map s.st) e)
        events := fun p => s.events p + if L.key e = p then 1 else 0 }

def ledger : Ledger (Run σ K) K where
  reported s p := L.sum p (L.printed s.st)
  held s p := L.value (L.map s.st) p
  window s := L.window s.st
  events s p := s.events p

/-- An event of `p` lies outside the window of `p`, finds its key or room for
it, and does not wrap the counter. -/
def Counts (p : K) (s : Run σ K) : Lbl E → Prop
  | .poll => True
  | .event e => L.key e = p →
      L.window s.st ≠ some p ∧ HasRoom (L.map s.st) p ∧ L.value (L.map s.st) p + 1 < 2 ^ 64

instance (p : K) (s : Run σ K) : ∀ l, Decidable (L.Counts p s l)
  | .poll => .isTrue trivial
  | .event e => inferInstanceAs (Decidable (L.key e = p →
      L.window s.st ≠ some p ∧ HasRoom (L.map s.st) p ∧ L.value (L.map s.st) p + 1 < 2 ^ 64))

/-- What one map call of a poll does. -/
inductive PollMove (s s' : σ) : Prop where
  | quiet : L.map s' = L.map s → L.printed s' = L.printed s → L.window s' = L.window s →
      PollMove s s'
  | read {k : K} {v : V} : (L.map s).lookupElem k = some v → L.map s' = L.map s →
      L.printed s' = L.printed s ++ [(k, v)] → L.window s = none → L.window s' = some k →
      PollMove s s'
  | clear {k : K} : L.window s = some k → L.window s' = none → L.printed s' = L.printed s →
      (∀ p, p ≠ k → (L.map s').lookupElem p = (L.map s).lookupElem p) →
      L.value (L.map s') k = 0 → PollMove s s'

/-- The handler counts one (`countEvent`), and the poll makes only `PollMove`s. -/
structure Lawful (inc : V → V) (first : E → V) (flag : UpdateFlag) : Prop where
  handle : ∀ m e, L.handle m e = countEvent inc (first e) flag m (L.key e)
  inc : ∀ v, L.count (inc v) = L.count v + 1
  first : ∀ e, L.count (first e) = 1
  flag : flag ≠ .exist
  map_withMap : ∀ s m, L.map (L.withMap s m) = m
  printed_withMap : ∀ s m, L.printed (L.withMap s m) = L.printed s
  window_withMap : ∀ s m, L.window (L.withMap s m) = L.window s
  move : ∀ s, L.PollMove s (L.poll s)

variable {L} {inc : V → V} {first : E → V} {flag : UpdateFlag}

theorem sum_append (p k : K) (es : List (K × V)) (v : V) :
    L.sum p (es ++ [(k, v)]) = L.sum p es + if k = p then (L.count v).toNat else 0 := by
  unfold sum
  rw [List.filter_append, List.map_append, List.sum_append]
  by_cases h : k = p <;> simp [h]

theorem credit_eq (s : Run σ K) (p : K) : L.ledger.credit p s =
    L.sum p (L.printed s.st) + if L.window s.st = some p then 0 else L.value (L.map s.st) p := rfl

/-- **A poll keeps the credit** of every key. -/
theorem credit_poll (hL : L.Lawful inc first flag) (s : Run σ K) (p : K) :
    L.ledger.credit p { s with st := L.poll s.st } = L.ledger.credit p s := by
  rw [credit_eq, credit_eq]
  dsimp only
  cases hL.move s.st with
  | quiet hm hp hw => rw [hm, hp, hw]
  | @read k v hv hm hp hw hw' =>
    rw [hm, hp, hw, hw', sum_append]
    by_cases h : k = p
    · subst h; simp [value, hv]
    · simp [h]
  | @clear k hw hw' hp hm hk =>
    rw [hp, hw, hw']
    by_cases h : k = p
    · subst h; simp [hk]
    · simp [h, value, hm p fun e => h e.symm]

/-- What an event of `k` does to the value of every key. -/
theorem value_handle (hL : L.Lawful inc first flag) (m : HashMap K V) (e : E) (p : K) :
    L.value (L.handle m e) p =
      if L.key e = p then
        if HasRoom m p then (L.value m p + 1) % 2 ^ 64 else 0
      else L.value m p := by
  unfold value
  rw [hL.handle, lookupElem_countEvent hL.flag]
  by_cases h : L.key e = p
  · subst h
    rw [if_pos rfl, if_pos rfl]
    cases hv : m.lookupElem (L.key e) with
    | some v =>
      have hr : HasRoom m (L.key e) := .inl (HashMap.mem_keys_of_lookup hv)
      rw [if_pos hr]
      simp only [hL.inc, UInt64.toNat_add, UInt64.toNat_one]
    | none =>
      have hk := HashMap.lookupElem_eq_none.mp hv
      by_cases hf : m.Full
      · simp [HasRoom, hk, hf]
      · simp [HasRoom, hk, hf, hL.first]
  · rw [if_neg h, if_neg (fun e => h e.symm)]

theorem value_lt (m : HashMap K V) (p : K) : L.value m p < 2 ^ 64 := by
  unfold value; split
  · decide
  · exact UInt64.toNat_lt _

theorem value_noRoom {m : HashMap K V} {p : K} (h : ¬ HasRoom m p) : L.value m p = 0 := by
  have : m.lookupElem p = none := HashMap.lookupElem_eq_none.mpr fun hk => h (.inl hk)
  rw [value, this]

/-- An event of `p` raises the credit of `p` by at most one, and by one exactly
when it counts. -/
theorem credit_event (hL : L.Lawful inc first flag) {s s' : Run σ K} {e : E} {p : K}
    (h : L.step s (.event e) = some s') (hk : L.key e = p) :
    L.ledger.credit p s' ≤ L.ledger.credit p s + 1 ∧
      (L.ledger.credit p s' = L.ledger.credit p s + 1 ↔ L.Counts p s (.event e)) := by
  cases h
  rw [credit_eq, credit_eq]
  dsimp only
  rw [hL.map_withMap, hL.printed_withMap, hL.window_withMap, value_handle hL, if_pos hk]
  simp only [Counts, hk, true_implies]
  by_cases hw : L.window s.st = some p
  · simp [hw]
  by_cases hr : HasRoom (L.map s.st) p
  · have hlt := L.value_lt (L.map s.st) p
    simp only [hw, hr, if_true, if_false, ne_eq, not_false_eq_true, true_and]
    by_cases hwrap : L.value (L.map s.st) p + 1 < 2 ^ 64
    · rw [Nat.mod_eq_of_lt hwrap]; omega
    · -- the counter was at its last value and wraps to zero
      have : L.value (L.map s.st) p + 1 = 2 ^ 64 := by omega
      rw [this, Nat.mod_self]; omega
  · simp [hw, hr, value_noRoom hr]

/-- An event of another key, like a poll, changes nothing for `p`. -/
theorem balance_other (hL : L.Lawful inc first flag) {s s' : Run σ K} {e : E} {p : K}
    (h : L.step s (.event e) = some s') (hk : L.key e ≠ p) :
    L.ledger.balance p s' = L.ledger.balance p s := by
  cases h
  refine Ledger.balance_keep ?_ (by simp [ledger, hk])
  rw [credit_eq, credit_eq]
  dsimp only
  rw [hL.map_withMap, hL.printed_withMap, hL.window_withMap, value_handle hL, if_neg hk]

/-- **One step** never raises the balance of a key and keeps it exactly when it
counts. -/
theorem balance_step (hL : L.Lawful inc first flag) {p : K} (s : Run σ K) (l : Lbl E)
    (s' : Run σ K) (h : L.step s l = some s') :
    L.ledger.balance p s' ≤ L.ledger.balance p s ∧
      (L.ledger.balance p s' = L.ledger.balance p s ↔ L.Counts p s l) := by
  cases l with
  | poll =>
    cases h
    have he := Ledger.balance_keep (B := L.ledger) (credit_poll hL s p) rfl
    exact ⟨he.le, iff_of_true he trivial⟩
  | event e =>
    by_cases hk : L.key e = p
    · obtain ⟨hle, hiff⟩ := credit_event hL h hk
      refine Ledger.balance_event ?_ hle hiff
      cases h; simp [ledger, hk]
    · have he := balance_other hL h hk
      exact ⟨he.le, iff_of_true he fun h => absurd h hk⟩

/-- **The law.** From empty books, when nothing of `p` stands in the window,
what was printed for `p` plus its value in the map is the number of its events
exactly when every event of `p` counted. -/
theorem conserved_iff (hL : L.Lawful inc first flag) {x : σ} (hmap : (L.map x).elems = [])
    (hp : L.printed x = []) {ls : List (Lbl E)} {t : Run σ K}
    (hx : exec L.step ⟨x, fun _ => 0⟩ ls = some t) {p : K} (hw : L.window t.st ≠ some p) :
    L.ledger.Conserved p t ↔ Along L.step (L.Counts p) ⟨x, fun _ => 0⟩ ls := by
  refine Ledger.conserved_iff (balance_step hL) ?_ hx hw
  have hv : L.value (L.map x) p = 0 := by
    have : (L.map x).lookupElem p = none :=
      HashMap.lookupElem_eq_none.mpr (by rw [HashMap.keys_eq_nil_iff.mpr hmap]; exact List.not_mem_nil)
    rw [value, this]
  unfold Ledger.balance
  rw [credit_eq]
  simp [hp, hv, sum, ledger]

end Loader

/-! ## The loaders -/

/-- The loaders whose poll is a `Drain`. -/
def drainLoader (d : Drain K V) (key : E → K) (handle : HashMap K V → E → HashMap K V)
    (count : V → UInt64) : Loader (DState K V) E K V where
  key := key
  handle := handle
  count := count
  poll := pollStep d
  map := DState.map
  withMap s m := { s with map := m }
  printed s := s.log ++ s.seen
  window s := match s.pc with
    | .clear k => some k
    | _ => none

/-- mirrors src/my_tools/file/read_stat.c, read_stat.bpf.c -/
def readStat : Loader RState UInt32 UInt32 UInt64 where
  key := id
  handle := handleEnterRead
  count := id
  poll := readStep
  map := RState.map
  withMap s m := { s with map := m }
  printed := RState.printed
  window := RState.window

/-- An event is the PID and the comm of a connecting process.
mirrors src/my_tools/network/tcp_connect.c, tcp_connect.bpf.c -/
def tcpConnectLoader : Loader (DState UInt32 ConnInfo) (UInt32 × Comm) UInt32 ConnInfo :=
  drainLoader tcpConnect Prod.fst (fun m e => countConn m e.1 e.2) ConnInfo.count

/-- mirrors src/my_tools/memo/mmap_stat.c, mmap_stat.bpf.c -/
def mmapStatLoader : Loader (DState UInt32 UInt64) UInt32 UInt32 UInt64 :=
  drainLoader mmapStat id handleEnterMmap id

theorem move_drain {d : Drain K V} {key : E → K} {handle : HashMap K V → E → HashMap K V}
    {count : V → UInt64} (hshown : ∀ v, d.shown v = true)
    (hclear : ∀ m k, (∀ p, p ≠ k → (d.clear m k).lookupElem p = m.lookupElem p) ∧
      ∀ v, (d.clear m k).lookupElem k = some v → count v = 0) (s : DState K V) :
    (drainLoader d key handle count).PollMove s (pollStep d s) := by
  cases hp : s.pc with
  | idle =>
    simp only [pollStep, hp]
    exact .quiet rfl (by simp [drainLoader]) (by simp [drainLoader, hp])
  | next =>
    cases hk : s.map.getNextKey s.cursor <;> simp only [pollStep, hp, hk]
    · exact .quiet rfl rfl (by simp [drainLoader, hp])
    · exact .quiet rfl rfl (by simp [drainLoader, hp])
  | look k =>
    cases hv : s.map.lookupElem k with
    | none =>
      simp only [pollStep, hp, hv]
      exact .quiet rfl rfl (by simp [drainLoader, hp])
    | some v =>
      simp only [pollStep, hp, hv, hshown, if_true]
      exact .read hv rfl (by simp [drainLoader]) (by simp [drainLoader, hp]) (by simp [drainLoader])
  | clear k =>
    simp only [pollStep, hp]
    refine .clear (k := k) (by simp [drainLoader, hp]) (by simp [drainLoader]) rfl
      (hclear s.map k).1 ?_
    show Loader.value _ (d.clear s.map k) k = 0
    unfold Loader.value
    cases hv : (d.clear s.map k).lookupElem k with
    | none => rfl
    | some v => exact congrArg UInt64.toNat ((hclear s.map k).2 v hv)

theorem move_readStat (s : RState) : readStat.PollMove s (readStep s) := by
  cases hp : s.pc with
  | idle =>
    simp only [readStep, hp]
    exact .quiet rfl rfl (by simp [readStat, RState.window, hp])
  | next =>
    cases hk : s.map.getNextKey (some s.pid) with
    | none =>
      simp only [readStep, hp, hk]
      exact .quiet rfl rfl (by simp [readStat, RState.window, hp])
    | some k =>
      simp only [readStep, hp, hk]
      split
      · exact .quiet rfl rfl (by simp [readStat, RState.window, hp])
      · exact .quiet rfl rfl (by simp [readStat, RState.window, hp])
  | look rest =>
    cases rest with
    | nil =>
      simp only [readStep, hp]
      exact .quiet rfl rfl (by simp [readStat, RState.window, hp])
    | cons k rest =>
      cases hv : s.map.lookupElem k with
      | none =>
        simp only [readStep, hp, hv]
        exact .quiet rfl rfl (by simp [readStat, RState.window, hp])
      | some v =>
        simp only [readStep, hp, hv]
        exact .read hv rfl rfl (by simp [readStat, RState.window, hp]) rfl
  | clear k rest =>
    simp only [readStep, hp]
    refine .clear (k := k) (by simp [readStat, RState.window, hp]) rfl rfl
      (fun p h => HashMap.lookupElem_deleteElem_ne h _) ?_
    show Loader.value _ (s.map.deleteElem k) k = 0
    rw [Loader.value, HashMap.lookupElem_deleteElem_self]

theorem readStat_lawful : readStat.Lawful (· + 1) (fun _ => 1) .any where
  handle _ _ := rfl
  inc _ := rfl
  first _ := rfl
  flag := by decide
  map_withMap _ _ := rfl
  printed_withMap _ _ := rfl
  window_withMap _ _ := rfl
  move := move_readStat

theorem tcpConnect_lawful : tcpConnectLoader.Lawful .add (fun e => ⟨1, e.2⟩) .any where
  handle _ _ := rfl
  inc _ := rfl
  first _ := rfl
  flag := by decide
  map_withMap _ _ := rfl
  printed_withMap _ _ := rfl
  window_withMap _ _ := rfl
  move := move_drain (fun _ => rfl) fun m k =>
    ⟨fun _ h => HashMap.lookupElem_deleteElem_ne h m, fun v hv => by
      rw [show tcpConnect.clear m k = m.deleteElem k from rfl,
        HashMap.lookupElem_deleteElem_self] at hv
      cases hv⟩

/-- Overwriting with zero leaves nothing either, and nothing where there was
nothing. -/
theorem mmapStat_clear (m : HashMap UInt32 UInt64) (k : UInt32) :
    (∀ p, p ≠ k → (mmapStat.clear m k).lookupElem p = m.lookupElem p) ∧
      ∀ v, (mmapStat.clear m k).lookupElem k = some v → v = 0 := by
  show (∀ p, p ≠ k → (m.update k 0 .exist).lookupElem p = m.lookupElem p) ∧
    ∀ v, (m.update k 0 .exist).lookupElem k = some v → v = 0
  by_cases hk : k ∈ m.keys
  · rw [HashMap.update_present hk (by decide)]
    refine ⟨fun p h => HashMap.lookupElem_put_ne h m 0, fun v hv => ?_⟩
    rw [HashMap.lookupElem_put_self] at hv
    exact (Option.some.inj hv).symm
  · have hu : m.update k 0 .exist = m := by
      rw [HashMap.update, HashMap.updateElem, if_neg hk, if_pos rfl]; rfl
    rw [hu]
    refine ⟨fun _ _ => rfl, fun v hv => absurd (HashMap.mem_keys_of_lookup hv) hk⟩

theorem mmapStat_lawful : mmapStatLoader.Lawful (· + 1) (fun _ => 1) .noExist where
  handle _ _ := rfl
  inc _ := rfl
  first _ := rfl
  flag := by decide
  map_withMap _ _ := rfl
  printed_withMap _ _ := rfl
  window_withMap _ _ := rfl
  move := move_drain (fun _ => rfl) mmapStat_clear

/-! ## The three loaders -/

/-- A loader on its empty map, before its first poll; no event has been
counted. -/
def readStart (m : HashMap UInt32 UInt64) : Run RState UInt32 := ⟨⟨m, .idle, 0, [], []⟩, fun _ => 0⟩

def drainStart (m : HashMap K V) : Run (DState K V) K := ⟨⟨m, .idle, none, [], []⟩, fun _ => 0⟩

/-- **Conservation.** From empty maps and in any interleaving, between two polls
the values printed for a PID plus its value in the map are the number of its
events exactly when every event of the PID fell outside the span between the
print and the clear of its counter, found its key or room for it, and did not
wrap the counter. -/
theorem conservation_iff (b : UInt32 → Nat) (n : Nat) (p : UInt32) :
    (∀ ls t, exec readStat.step (readStart (.empty b n)) ls = some t → t.st.pc = .idle →
      (readStat.ledger.Conserved p t ↔
        Along readStat.step (readStat.Counts p) (readStart (.empty b n)) ls)) ∧
    (∀ ls t, exec tcpConnectLoader.step (drainStart (.empty b n)) ls = some t →
      t.st.pc = .idle → (tcpConnectLoader.ledger.Conserved p t ↔
        Along tcpConnectLoader.step (tcpConnectLoader.Counts p) (drainStart (.empty b n)) ls)) ∧
    (∀ ls t, exec mmapStatLoader.step (drainStart (.empty b n)) ls = some t →
      t.st.pc = .idle → (mmapStatLoader.ledger.Conserved p t ↔
        Along mmapStatLoader.step (mmapStatLoader.Counts p) (drainStart (.empty b n)) ls)) := by
  refine ⟨fun ls t hx hi => ?_, fun ls t hx hi => ?_, fun ls t hx hi => ?_⟩
  · exact Loader.conserved_iff readStat_lawful rfl rfl hx
      (by simp [readStat, RState.window, hi])
  · exact Loader.conserved_iff tcpConnect_lawful rfl rfl hx
      (by simp [tcpConnectLoader, drainLoader, hi])
  · exact Loader.conserved_iff mmapStat_lawful rfl rfl hx
      (by simp [mmapStatLoader, drainLoader, hi])

/-! ## One PID -/

def noBuckets : UInt32 → Nat := fun _ => 0

/-- An event before a poll of `i + j` calls and one between its calls. -/
def between {E : Type} (e : E) (i j : Nat) : List (Lbl E) :=
  .event e :: List.replicate i .poll ++ .event e :: List.replicate j .poll

/-- The second event falls behind the poll: nothing is lost. -/
theorem conservation_behind :
    (∃ t, exec readStat.step (readStart (.empty noBuckets 10240)) (between 1 6 0) = some t ∧
      readStat.ledger.Conserved 1 t) ∧
    (∃ t, exec tcpConnectLoader.step (drainStart (.empty noBuckets 10240))
      (between (1, nameA) 5 0) = some t ∧ tcpConnectLoader.ledger.Conserved 1 t) ∧
    (∃ t, exec mmapStatLoader.step (drainStart (.empty noBuckets 10240)) (between 1 5 0) = some t ∧
      mmapStatLoader.ledger.Conserved 1 t) :=
  ⟨⟨_, rfl, ((conservation_iff noBuckets 10240 1).1 (between 1 6 0) _ rfl rfl).mpr (by decide)⟩,
    ⟨_, rfl, ((conservation_iff noBuckets 10240 1).2.1 (between (1, nameA) 5 0) _ rfl rfl).mpr
      (by decide)⟩,
    ⟨_, rfl, ((conservation_iff noBuckets 10240 1).2.2 (between 1 5 0) _ rfl rfl).mpr (by decide)⟩⟩

/-- **Counterexample.** The second event falls between the print and the clear:
it is wiped unseen. -/
theorem conservation_window :
    (∃ t, exec readStat.step (readStart (.empty noBuckets 10240)) (between 1 4 2) = some t ∧
      t.st.pc = .idle ∧ ¬ readStat.ledger.Conserved 1 t) ∧
    (∃ t, exec tcpConnectLoader.step (drainStart (.empty noBuckets 10240))
      (between (1, nameA) 3 2) = some t ∧
      t.st.pc = .idle ∧ ¬ tcpConnectLoader.ledger.Conserved 1 t) ∧
    (∃ t, exec mmapStatLoader.step (drainStart (.empty noBuckets 10240)) (between 1 3 2) = some t ∧
      t.st.pc = .idle ∧ ¬ mmapStatLoader.ledger.Conserved 1 t) :=
  ⟨⟨_, rfl, rfl, by decide⟩, ⟨_, rfl, rfl, by decide⟩, ⟨_, rfl, rfl, by decide⟩⟩

end EbpfDemo.L5Concurrency
