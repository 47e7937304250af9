import EbpfDemo.Core.Weigh
import EbpfDemo.L3Loader.Drain

/-!
# The books of a loop that deletes

What a loop has shown of its map so far and what the map still holds, without the key
it has read and is about to delete, is its `account`. No map call of the loop changes
it (`account_pollStep`), whatever it stands in front of; an event raises it by what it
pays exactly when it lands (`account_event`): its key is not the one about to be
deleted, and is in the map or finds room there. `account_touches` is the induction over the
runs of a system that has such a loop among other things (`Touch`).

Unlike `L5Concurrency.Conservation` the law is one equation up to wraps of the
counters, with a weight per entry: a key, a set of keys, the whole map, the counts or the
bytes.

`SlotTotal` is a total of which a poll prints the growth.
-/
namespace EbpfDemo.L3Loader

open EbpfDemo.Core
open L2Kernel

section
variable {K V : Type} [DecidableEq K] {g : K → V → Nat} {n δ : Nat} {m m' : HashMap K V} {k : K}

/-! ## Events -/

theorem pays_countEvent {inc : V → V} {first : V} {flag : UpdateFlag}
    (hinc : ∀ v, Wrapped n (g k (inc v)) (g k v + δ)) (hfirst : g k first = δ)
    (hf : flag ≠ .exist) :
    m.Pays g n (countEvent inc first flag m k) k (if HasRoom m k then δ else 0) where
  rest := by
    unfold countEvent
    cases m.lookupElem k with
    | some v => exact HashMap.weigh_deleteElem_modifyElem inc
    | none =>
      simp only [HashMap.update, HashMap.updateElem]
      split_ifs <;> first | rfl | exact HashMap.weigh_deleteElem_put first
  other k' hk := HashMap.weighAt_congr (by rw [lookupElem_countEvent hf, if_neg hk])
  value := by
    unfold HashMap.weighAt
    rw [lookupElem_countEvent hf, if_pos rfl]
    cases hl : m.lookupElem k with
    | some v =>
      have hroom : HasRoom m k := .inl (HashMap.mem_keys_of_lookup hl)
      rw [if_pos hroom]
      exact hinc v
    | none =>
      have hk := HashMap.lookupElem_eq_none.mp hl
      by_cases hfull : m.Full
      · have hroom : ¬ HasRoom m k := not_or.mpr ⟨hk, not_not.mpr hfull⟩
        rw [if_neg hroom]
        simp only [if_pos hfull]
        exact .refl _ _
      · have hroom : HasRoom m k := .inr hfull
        rw [if_pos hroom]
        simp only [if_neg hfull, Option.elim_none, Option.elim_some, Nat.zero_add]
        exact .of_eq hfirst

/-! ## The loop -/

/-- The key that was read and is not yet deleted. -/
def DState.window (s : DState K V) : Option K :=
  match s.pc with
  | .clear k => some k
  | _ => none

/-- What was shown, in all polls. -/
def DState.shown (s : DState K V) : List (K × V) := s.log ++ s.seen

def DState.account (g : K → V → Nat) (s : DState K V) : Nat :=
  (s.shown.map fun e => g e.1 e.2).sum + s.map.outside g s.window

/-- The part of it that is still in the map. -/
def DState.held (g : K → V → Nat) (s : DState K V) : Nat := s.map.outside g s.window

/-- An event of `k` lands. -/
def DState.Lands (s : DState K V) (k : K) : Prop := s.window ≠ some k ∧ HasRoom s.map k

instance (s : DState K V) (k : K) : Decidable (s.Lands k) := inferInstanceAs (Decidable (_ ∧ _))

/-- What an event pays if it lands, -/
def DState.paid (s : DState K V) (k : K) (δ : Nat) : Nat := if s.Lands k then δ else 0

/-- and what is lost of it. -/
def DState.lost (s : DState K V) (k : K) (δ : Nat) : Nat := if s.Lands k then 0 else δ

theorem DState.paid_add_lost (s : DState K V) (k : K) (δ : Nat) : s.paid k δ + s.lost k δ = δ := by
  unfold DState.paid DState.lost
  split_ifs <;> omega

/-- The state of the loop when it stands before its first poll. -/
def DState.fresh (m : HashMap K V) : DState K V := ⟨m, .idle, none, [], []⟩

/-- What the next map call shows. -/
def DState.prints (d : Drain K V) (s : DState K V) : List (K × V) :=
  match s.pc with
  | .look k =>
    match s.map.lookupElem k with
    | some v => if d.shown v then [(k, v)] else []
    | none => []
  | _ => []

theorem shown_pollStep (d : Drain K V) (s : DState K V) :
    (pollStep d s).shown = s.shown ++ s.prints d := by
  cases hpc : s.pc with
  | idle => simp [pollStep, DState.prints, DState.shown, hpc]
  | next =>
    cases hk : s.map.getNextKey s.cursor <;> simp [pollStep, DState.prints, DState.shown, hpc, hk]
  | look k =>
    cases hv : s.map.lookupElem k with
    | none => simp [pollStep, DState.prints, DState.shown, hpc, hv]
    | some v => cases hs : d.shown v <;> simp [pollStep, DState.prints, DState.shown, hpc, hv, hs]
  | clear k => simp [pollStep, DState.prints, DState.shown, hpc]

variable {d : Drain K V} {s : DState K V}

/-- **A map call of the loop** keeps the account. What it does not show weighs
nothing. -/
theorem account_pollStep (hd : d.Deletes) (hg : ∀ k v, d.shown v = false → g k v = 0)
    (s : DState K V) : (pollStep d s).account g = s.account g := by
  cases hpc : s.pc with
  | idle => simp [pollStep, DState.account, DState.shown, DState.window, hpc]
  | next =>
    cases hk : s.map.getNextKey s.cursor <;>
      simp [pollStep, DState.account, DState.shown, DState.window, hpc, hk]
  | look k =>
    cases hv : s.map.lookupElem k with
    | none => simp [pollStep, DState.account, DState.shown, DState.window, hpc, hv]
    | some v =>
      have hstep : pollStep d s = { s with
          pc := .clear k, seen := if d.shown v then s.seen ++ [(k, v)] else s.seen } := by
        simp only [pollStep, hpc, hv]
      have hat : s.map.weighAt g k = g k v := by rw [HashMap.weighAt, hv]; rfl
      have hshown : ((pollStep d s).shown.map fun e => g e.1 e.2).sum =
          (s.shown.map fun e => g e.1 e.2).sum + g k v := by
        rw [hstep]
        cases hs : d.shown v with
        | true => simp [DState.shown, Nat.add_assoc]
        | false => simp [DState.shown, hg k v hs]
      have hout : s.map.outside g s.window = g k v + (s.map.deleteElem k).weigh g := by
        rw [DState.window, hpc, ← hat]
        exact HashMap.weigh_split g s.map k
      rw [DState.account, hshown, DState.account, hout, hstep]
      exact Nat.add_assoc ..
  | clear k =>
    -- the key in the window is what the map loses
    have hstep : pollStep d s = { s with
        pc := .next, cursor := some k, map := s.map.deleteElem k } := by
      simp only [pollStep, hpc, hd s.map k]
    rw [hstep]
    simp only [DState.account, DState.shown, DState.window, hpc]
    rfl

/-- **An event** raises it by what it pays when it lands. -/
theorem account_event (h : s.map.Pays g n m' k (if HasRoom s.map k then δ else 0)) :
    Wrapped n (DState.account g { s with map := m' }) (s.account g + s.paid k δ) := by
  have hout := h.outside s.window
  have hpaid : (if s.window = some k then 0 else if HasRoom s.map k then δ else 0) = s.paid k δ := by
    unfold DState.paid
    by_cases hw : s.window = some k
    · have hno : ¬ s.Lands k := fun h => h.1 hw
      rw [if_pos hw, if_neg hno]
    · by_cases hr : HasRoom s.map k
      · have hyes : s.Lands k := ⟨hw, hr⟩
        rw [if_neg hw, if_pos hr, if_pos hyes]
      · have hno : ¬ s.Lands k := fun h => hr h.2
        rw [if_neg hw, if_neg hr, if_neg hno]
  rw [hpaid] at hout
  unfold DState.account
  rw [Nat.add_assoc]
  exact hout.add_left _

end

/-! ## Counters of 64 bits -/

section
variable {K V : Type}

/-- The figure `f` of the entries under the keys in `P`. -/
def within (P : K → Bool) (f : V → UInt64) (k : K) (v : V) : Nat := if P k then (f v).toNat else 0

/-- The amount of an event under the keys in `P`. -/
def amount (P : K → Bool) (k : K) (d : UInt64) : Nat := if P k then d.toNat else 0

theorem within_shown {d : Drain K V} {f : V → UInt64} (h : ∀ v, d.shown v = false → f v = 0)
    (P : K → Bool) (k : K) (v : V) (hv : d.shown v = false) : within P f k v = 0 := by
  rw [within, h v hv]
  split_ifs <;> rfl

variable [DecidableEq K]

/-- A count with `d` more, or a first count `d`, pays `d`. -/
theorem pays_within {f : V → UInt64} {inc : V → V} {first : V} {flag : UpdateFlag} {d : UInt64}
    (P : K → Bool) (hinc : ∀ v, f (inc v) = f v + d) (hfirst : f first = d) (hf : flag ≠ .exist)
    (m : HashMap K V) (k : K) :
    m.Pays (within P f) (2 ^ 64) (countEvent inc first flag m k) k
      (if HasRoom m k then amount P k d else 0) := by
  refine pays_countEvent (fun v => ?_) ?_ hf
  · unfold within amount
    cases P k with
    | true => rw [if_pos rfl, if_pos rfl, if_pos rfl, hinc, UInt64.toNat_add]; exact .mod _ _
    | false => exact .refl _ _
  · unfold within amount
    rw [hfirst]

/-! ## Loops that hold back the zeros -/

/-- A walk over a counter that deletes what it reads and prints what is not 0. -/
def countDrain (start : Option K) : Drain K UInt64 where
  start := start
  shown count := decide (count > 0)
  clear m k := m.deleteElem k

theorem eq_zero_of_hidden {v : UInt64} (h : decide (v > 0) = false) : v = 0 := by
  have hle := UInt64.lt_iff_toNat_lt.not.mp (of_decide_eq_false h)
  rw [UInt64.toNat_zero, Nat.not_lt, Nat.le_zero] at hle
  exact UInt64.toNat_inj.mp hle

end

/-! ## A walk in a system -/

section
variable {K V S L : Type}

/-- An event of a walk's map: its key and what it counts. -/
abbrev Hit (K : Type) := Option (K × UInt64)

/-- What is counted under the keys in `P`, -/
def Hit.owed (P : K → Bool) : Hit K → Nat
  | none => 0
  | some (k, x) => amount P k x

variable [DecidableEq K]

/-- what of it lands, -/
def DState.paidOf (P : K → Bool) (s : DState K V) : Hit K → Nat
  | none => 0
  | some (k, x) => s.paid k (amount P k x)

/-- and what does not. -/
def DState.lostOf (P : K → Bool) (s : DState K V) : Hit K → Nat
  | none => 0
  | some (k, x) => s.lost k (amount P k x)

theorem DState.paidOf_add_lostOf (P : K → Bool) (s : DState K V) (h : Hit K) :
    s.paidOf P h + s.lostOf P h = h.owed P := by
  cases h with
  | none => rfl
  | some e => exact s.paid_add_lost e.1 _

/-- What a step of a system does to one of its walks: nothing, a map call of it, or an event
that counts `x` under `k`. -/
inductive Touch (d : Drain K V) (f : V → UInt64) (s : DState K V) : Hit K → DState K V → Prop where
  | still : Touch d f s none s
  | call : Touch d f s none (pollStep d s)
  | event {inc : V → V} {first : V} {k : K} {x : UInt64} :
    (∀ v, f (inc v) = f v + x) → f first = x →
    Touch d f s (some (k, x)) { s with map := countEvent inc first .any s.map k }

variable {d : Drain K V} {f : V → UInt64} {P : K → Bool}

theorem Touch.account {s s' : DState K V} {h : Hit K} (ht : Touch d f s h s') (hd : d.Deletes)
    (hf : ∀ v, d.shown v = false → f v = 0) (P : K → Bool) :
    Wrapped (2 ^ 64) (s'.account (within P f)) (s.account (within P f) + s.paidOf P h) := by
  cases ht with
  | still => exact .refl _ _
  | call => exact .of_eq (account_pollStep hd (within_shown hf P) s)
  | event hinc hfirst =>
    exact account_event (pays_within P hinc hfirst (by decide) s.map _)

/-- **A walk along a run.** What it has shown, what its map holds and what did not land are
what the events counted. -/
theorem account_touches {step : S → L → Option S} {view : S → DState K V} {hit : L → Hit K}
    (hd : d.Deletes) (hf : ∀ v, d.shown v = false → f v = 0)
    (htouch : ∀ s l s', step s l = some s' → Touch d f (view s) (hit l) (view s')) {s t : S}
    {ls : List L} (h0 : (view s).account (within P f) = 0) (hx : exec step s ls = some t) :
    Wrapped (2 ^ 64)
      ((view t).account (within P f) + sumAlong step (fun s l => (view s).lostOf P (hit l)) s ls)
      (ls.map fun l => (hit l).owed P).sum :=
  wrapped_amounts (fun s l s' h => (htouch s l s' h).account hd hf P)
    (fun s l => (view s).paidOf_add_lostOf P (hit l)) h0 hx

end

/-! ## Totals that are printed as their growth -/

/-- A total that the programs raise, the value of it the loader has kept, and what was
printed. -/
structure Growing where
  total : UInt64
  prev : UInt64
  printed : List UInt64

namespace Growing

/-- The difference, a line if it is not 0, the new `prev`. -/
def read (g : Growing) : Growing :=
  let delta := g.total - g.prev
  { g with printed := if delta > 0 then g.printed ++ [delta] else g.printed, prev := g.total }

/-- What was printed, and what the next line would say. -/
def account (g : Growing) : Nat := sumOf g.printed + (g.total - g.prev).toNat

theorem account_read (g : Growing) : g.read.account = g.account := by
  unfold account read
  dsimp only
  rw [UInt64.sub_self, UInt64.toNat_zero, Nat.add_zero]
  cases hs : decide (g.total - g.prev > 0) with
  | true =>
    rw [if_pos (of_decide_eq_true hs)]
    simp [sumOf]
  | false => rw [if_neg (of_decide_eq_false hs), eq_zero_of_hidden hs, UInt64.toNat_zero, Nat.add_zero]

theorem account_add (g : Growing) (d : UInt64) :
    Wrapped (2 ^ 64) ({ g with total := g.total + d } : Growing).account (g.account + d.toNat) := by
  have hdiff : g.total + d - g.prev = g.total - g.prev + d := by
    rw [UInt64.sub_eq_add_neg, UInt64.sub_eq_add_neg, UInt64.add_assoc, UInt64.add_comm d,
      ← UInt64.add_assoc]
  unfold account
  dsimp only
  rw [hdiff, UInt64.toNat_add, Nat.add_assoc]
  exact (Wrapped.mod _ _).add_left _

end Growing

/-- A total in slot 0 of an array, and what the loader has of it. -/
structure SlotTotal where
  stats : ArrayMap UInt64 4
  prev : UInt64
  deltas : List UInt64

namespace SlotTotal

def growing (s : SlotTotal) : Growing := ⟨(s.stats.lookupElem 0).getD 0, s.prev, s.deltas⟩

def fresh : SlotTotal := ⟨Vector.replicate 4 0, 0, []⟩

/-- The lookup of the total, which succeeds if `ok`, and the line about it. -/
def read (s : SlotTotal) (ok : Bool) : SlotTotal :=
  match if ok then s.stats.lookupElem 0 else none with
  | none => s
  | some total =>
    let delta := total - s.prev
    { s with
      deltas := if delta > 0 then s.deltas ++ [delta] else s.deltas
      prev := total }

theorem account_fresh : fresh.growing.account = 0 := by decide

theorem account_read (s : SlotTotal) (ok : Bool) :
    (s.read ok).growing.account = s.growing.account := by
  have hl := ArrayMap.lookupElem_of_lt s.stats (k := 0) (by decide)
  cases ok with
  | false => rfl
  | true =>
    have hread : (s.read true).growing = s.growing.read := by
      simp only [read, if_true, hl, growing, Growing.read]
      rfl
    rw [hread, Growing.account_read]

theorem account_bump (s : SlotTotal) :
    Wrapped (2 ^ 64) ({ s with stats := s.stats.bump 0 (· + 1) 1 } : SlotTotal).growing.account
      (s.growing.account + 1) := by
  have hbump : ((s.stats.bump 0 (· + 1) 1).lookupElem 0).getD 0 =
      (s.stats.lookupElem 0).getD 0 + 1 := by
    rw [ArrayMap.lookupElem_bump, if_pos rfl,
      ArrayMap.lookupElem_of_lt s.stats (k := 0) (by decide)]
    rfl
  have hadd := Growing.account_add s.growing 1
  rw [growing, ← hbump] at hadd
  exact hadd

end SlotTotal
end EbpfDemo.L3Loader
