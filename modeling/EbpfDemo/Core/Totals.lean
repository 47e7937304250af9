import EbpfDemo.Core.ArrayMap
import EbpfDemo.Core.Weigh

/-!
# Totals of counter maps

`total` is what the 64-bit counters of a map add up to. A counter that goes up by `d`,
wrapping or not, raises it by `d` modulo 2^64.
-/
namespace EbpfDemo.Core

/-- What a list of counters adds up to. -/
def sumOf (l : List UInt64) : Nat := (l.map UInt64.toNat).sum

@[simp] theorem sumOf_nil : sumOf [] = 0 := rfl

@[simp] theorem sumOf_cons (v : UInt64) (l : List UInt64) : sumOf (v :: l) = v.toNat + sumOf l := by
  simp [sumOf]

theorem toNat_add_modEq (v d : UInt64) : (v + d).toNat ≡ v.toNat + d.toNat [MOD 2 ^ 64] := by
  rw [UInt64.toNat_add]; exact Nat.mod_modEq _ _

/-- Two totals stay equal modulo 2^64 when both go up by `d`, and only `d = 0` keeps
them equal when one does. -/
theorem modEq_add_right_iff {a b : Nat} (h : a ≡ b [MOD 2 ^ 64]) (d : UInt64) :
    a ≡ b + d.toNat [MOD 2 ^ 64] ↔ d = 0 := by
  have hd := d.toNat_lt
  constructor
  · intro h'
    have h0 : b + 0 ≡ b + d.toNat [MOD 2 ^ 64] := h.symm.trans h'
    have h1 : 0 % 2 ^ 64 = d.toNat % 2 ^ 64 := Nat.ModEq.add_left_cancel' b h0
    rw [Nat.mod_eq_of_lt hd] at h1
    exact UInt64.toNat_inj.mp h1.symm
  · rintro rfl; exact h

namespace HashMap

variable {K : Type}

def total (m : HashMap K UInt64) : Nat := sumOf (m.elems.map Prod.snd)

theorem total_eq_weigh (m : HashMap K UInt64) : m.total = m.weigh fun _ => UInt64.toNat := by
  unfold total sumOf
  rw [List.map_map]; rfl

variable [DecidableEq K]

theorem total_modifyElem {m : HashMap K UInt64} {k : K} (h : k ∈ m.keys) (d : UInt64) :
    (m.modifyElem k (· + d)).total ≡ m.total + d.toNat [MOD 2 ^ 64] := by
  rw [total_eq_weigh, total_eq_weigh]
  exact weigh_modifyElem_modEq (fun v => toNat_add_modEq v d) h

end HashMap

namespace ArrayMap

variable {n : Nat}

def total (m : ArrayMap UInt64 n) : Nat := sumOf m.toList

theorem total_replicate (n : Nat) : total (Vector.replicate n (0 : UInt64)) = 0 := by
  unfold total sumOf
  rw [Vector.toList_replicate, List.map_replicate]
  simp

theorem sumOf_set {l : List UInt64} {i : Nat} (h : i < l.length) (d : UInt64) :
    sumOf (l.set i (l[i] + d)) ≡ sumOf l + d.toNat [MOD 2 ^ 64] := by
  induction l generalizing i with
  | nil => cases h
  | cons v l ih =>
    cases i with
    | zero =>
      rw [List.set_cons_zero, List.getElem_cons_zero, sumOf_cons, sumOf_cons, Nat.add_right_comm]
      exact (toNat_add_modEq v d).add_right _
    | succ i =>
      rw [List.set_cons_succ, List.getElem_cons_succ, sumOf_cons, sumOf_cons, Nat.add_assoc]
      exact (ih (Nat.lt_of_succ_lt_succ h)).add_left _

theorem total_modifyElem {m : ArrayMap UInt64 n} {k : UInt32} (h : k.toNat < n) (d : UInt64) :
    (m.modifyElem k (· + d)).total ≡ m.total + d.toNat [MOD 2 ^ 64] := by
  have hl : k.toNat < m.toList.length := by rw [Vector.length_toList]; exact h
  have he : (m.modifyElem k (· + d)).toList = m.toList.set k.toNat (m.toList[k.toNat] + d) := by
    rw [modifyElem, m.lookupElem_of_lt h]
    simp [updateElem]
  unfold total
  rw [he]
  exact sumOf_set hl d

end ArrayMap
end EbpfDemo.Core
