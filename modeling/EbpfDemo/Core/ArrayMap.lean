import Mathlib.Algebra.Ring.Nat
import Mathlib.Logic.Basic

/-!
# The kernel's array map, as seen through its helpers

`BPF_MAP_TYPE_ARRAY` with `u32` keys: every index below `n` is always present,
every other index never. `bump` is the pattern of the counting programs, add
through the pointer if the lookup found the element, else store a first one.
-/
namespace EbpfDemo.Core

abbrev ArrayMap (V : Type) (n : Nat) := Vector V n

namespace ArrayMap

variable {V : Type} {n : Nat}

def lookupElem (m : ArrayMap V n) (k : UInt32) : Option V := m[k.toNat]?

def updateElem (m : ArrayMap V n) (k : UInt32) (v : V) : ArrayMap V n := m.setIfInBounds k.toNat v

/-- Write through the pointer of a lookup, or store a first value. -/
def bump (m : ArrayMap V n) (k : UInt32) (f : V → V) (first : V) : ArrayMap V n :=
  match m.lookupElem k with
  | some v => m.updateElem k (f v)
  | none => m.updateElem k first

/-- Write through the pointer of a lookup, if there is one. -/
def modifyElem (m : ArrayMap V n) (k : UInt32) (f : V → V) : ArrayMap V n :=
  match m.lookupElem k with
  | some v => m.updateElem k (f v)
  | none => m

theorem lookupElem_of_lt (m : ArrayMap V n) {k : UInt32} (h : k.toNat < n) :
    m.lookupElem k = some m[k.toNat] := Vector.getElem?_eq_getElem h

theorem lookupElem_updateElem (m : ArrayMap V n) (k k' : UInt32) (v : V) :
    (m.updateElem k v).lookupElem k' =
      if k' = k ∧ k.toNat < n then some v else m.lookupElem k' := by
  unfold lookupElem updateElem
  rw [Vector.getElem?_setIfInBounds]
  by_cases h : k' = k
  · subst h
    by_cases hn : k'.toNat < n
    · simp [hn]
    · simp [hn]
  · have hne : k.toNat ≠ k'.toNat := fun e => h (UInt32.toNat_inj.mp e).symm
    simp [h, hne]

theorem lookupElem_modifyElem (m : ArrayMap V n) (k k' : UInt32) (f : V → V) :
    (m.modifyElem k f).lookupElem k' =
      if k' = k then (m.lookupElem k').map f else m.lookupElem k' := by
  by_cases hn : k.toNat < n
  · have hv := m.lookupElem_of_lt hn
    rw [modifyElem, hv]
    dsimp only
    rw [lookupElem_updateElem]
    by_cases h : k' = k
    · subst h; simp [hn, hv]
    · simp [h]
  · have hv : m.lookupElem k = none := Vector.getElem?_eq_none (Nat.le_of_not_lt hn)
    rw [modifyElem, hv]
    dsimp only
    by_cases h : k' = k
    · subst h; simp [hv]
    · simp [h]

/-- The first value is never stored: the lookup fails only out of bounds. -/
theorem bump_eq_modifyElem (m : ArrayMap V n) (k : UInt32) (f : V → V) (first : V) :
    m.bump k f first = m.modifyElem k f := by
  unfold bump modifyElem
  cases hv : m.lookupElem k with
  | some v => rfl
  | none =>
    have hn : ¬ k.toNat < n := fun h => by rw [m.lookupElem_of_lt h] at hv; cases hv
    exact Vector.ext fun i hi => by
      have hne : k.toNat ≠ i := fun e => hn (e ▸ hi)
      simp [updateElem, hne]

theorem lookupElem_bump (m : ArrayMap V n) (k k' : UInt32) (f : V → V) (first : V) :
    (m.bump k f first).lookupElem k' =
      if k' = k then (m.lookupElem k').map f else m.lookupElem k' := by
  rw [bump_eq_modifyElem, lookupElem_modifyElem]

/-! ## Counters -/

/-- The counter at `k` (0 where there is none). -/
def valueAt (m : ArrayMap UInt64 n) (k : UInt32) : Nat := ((m.lookupElem k).getD 0).toNat

theorem valueAt_lt (m : ArrayMap UInt64 n) (k : UInt32) : m.valueAt k < 2 ^ 64 := UInt64.toNat_lt _

theorem valueAt_modifyElem {m : ArrayMap UInt64 n} {k : UInt32} (h : k.toNat < n) (d : UInt64)
    (k' : UInt32) : (m.modifyElem k (· + d)).valueAt k' =
      if k' = k then (m.valueAt k + d.toNat) % 2 ^ 64 else m.valueAt k' := by
  unfold valueAt
  rw [lookupElem_modifyElem]
  by_cases hk : k' = k
  · rw [if_pos hk, if_pos hk, hk, m.lookupElem_of_lt h]
    exact UInt64.toNat_add _ _
  · rw [if_neg hk, if_neg hk]

theorem valueAt_bump {m : ArrayMap UInt64 n} {k : UInt32} (h : k.toNat < n) (d first : UInt64)
    (k' : UInt32) : (m.bump k (· + d) first).valueAt k' =
      if k' = k then (m.valueAt k + d.toNat) % 2 ^ 64 else m.valueAt k' := by
  rw [bump_eq_modifyElem, valueAt_modifyElem h]

end ArrayMap
end EbpfDemo.Core
