import EbpfDemo.Core.HashMap

/-!
# A walk over a map that changes

`Behind m k B`: the key `k` is in the map and `B` are the keys a walk still has in
front of it when it stands at `k`. New elements are linked at the head of their
bucket. One whose bucket is not behind that of `k` therefore comes to stand in
front of `k`, where the walk does not pass again; one of a later bucket joins the
keys behind it. An element the walk has passed may be deleted.
-/
namespace EbpfDemo.Core.HashMap

variable {K V : Type}

def Behind (m : HashMap K V) (k : K) (B : List K) : Prop := ∃ A, m.keys = A ++ k :: B

variable {m : HashMap K V} {k q : K} {B : List K}

theorem Behind.mem (h : m.Behind k B) : k ∈ m.keys := by
  obtain ⟨A, hA⟩ := h
  rw [hA]; simp

/-- The walk does not come back to where it stands. -/
theorem Behind.notMem (h : m.Behind k B) : k ∉ B := by
  obtain ⟨A, hA⟩ := h
  have hn : m.keys.Nodup := m.nodup
  rw [hA] at hn
  exact (List.nodup_cons.mp (List.nodup_append.mp hn).2.1).1

theorem Behind.unique {B' : List K} (h : m.Behind k B) (h' : m.Behind k B') : B = B' := by
  obtain ⟨A, hA⟩ := h
  obtain ⟨A', hA'⟩ := h'
  have hn : m.keys.Nodup := m.nodup
  rw [hA] at hn hA'
  obtain ⟨-, hkB, hdis⟩ := List.nodup_append.mp hn
  have hkA : k ∉ A := fun hk => hdis k hk k List.mem_cons_self rfl
  exact ((List.append_cons_inj_of_notMem hkA (List.nodup_cons.mp hkB).1).mp hA').2.2

theorem behind_of_mem (h : k ∈ m.keys) : ∃ B, m.Behind k B := by
  obtain ⟨A, B, hAB⟩ := List.append_of_mem h
  exact ⟨B, A, hAB⟩

theorem behind_first (h : m.keys = k :: B) : m.Behind k B := ⟨[], h⟩

theorem Behind.advance (h : m.Behind k (q :: B)) : m.Behind q B := by
  obtain ⟨A, hA⟩ := h
  exact ⟨A ++ [k], by rw [hA, List.append_assoc]; rfl⟩

theorem ranked_keys (m : HashMap K V) :
    m.keys.Pairwise fun a b => m.bucketOf a ≤ m.bucketOf b := List.pairwise_map.mpr m.ranked

theorem Behind.bucket_le (h : m.Behind k B) (hq : q ∈ B) : m.bucketOf k ≤ m.bucketOf q := by
  obtain ⟨A, hA⟩ := h
  have hr := m.ranked_keys
  rw [hA] at hr
  exact (List.pairwise_cons.mp (List.pairwise_append.mp hr).2.1).1 q hq

/-- Placing by rank in front of an entry, or behind it. -/
theorem keys_place_split {rank : K → Nat} {e x : K × V} {A B : List (K × V)}
    (hr : Assoc.Ranked rank (A ++ x :: B)) :
    (rank e.1 ≤ rank x.1 → ∃ A', Assoc.place rank e (A ++ x :: B) = A' ++ x :: B) ∧
    (rank x.1 < rank e.1 →
      Assoc.place rank e (A ++ x :: B) = A ++ x :: Assoc.place rank e B) := by
  induction A with
  | nil =>
    refine ⟨fun h => ⟨[e], ?_⟩, fun h => ?_⟩
    · rw [List.nil_append, Assoc.place, if_pos h]; rfl
    · rw [List.nil_append, Assoc.place, if_neg (Nat.not_le_of_lt h)]; rfl
  | cons a A ih =>
    have hr := List.pairwise_cons.mp hr
    obtain ⟨ih1, ih2⟩ := ih hr.2
    have hax : rank a.1 ≤ rank x.1 := hr.1 x (by simp)
    rw [List.cons_append, Assoc.place]
    refine ⟨fun h => ?_, fun h => ?_⟩
    · by_cases hea : rank e.1 ≤ rank a.1
      · rw [if_pos hea]; exact ⟨e :: a :: A, rfl⟩
      · obtain ⟨A', hA'⟩ := ih1 h
        rw [if_neg hea, hA']; exact ⟨a :: A', rfl⟩
    · rw [if_neg (by omega), ih2 h]; rfl

theorem elems_of_behind (h : m.Behind k B) :
    ∃ EA x EB, m.elems = EA ++ x :: EB ∧ x.1 = k ∧ Assoc.keys EB = B := by
  obtain ⟨A, hA⟩ := h
  obtain ⟨EA, EB, hE, -, hB⟩ := List.map_eq_append_iff.mp hA
  obtain ⟨x, EB', rfl, hx, hB'⟩ := List.map_eq_cons_iff.mp hB
  exact ⟨EA, x, EB', hE, hx, hB'⟩

variable [DecidableEq K]

theorem Behind.next (h : m.Behind k B) : m.getNextKey (some k) = B.head? := by
  obtain ⟨A, hA⟩ := h
  exact getNextKey_split hA

/-- A new key of this bucket or an earlier one is not met. -/
theorem Behind.put_before (h : m.Behind k B) (hq : q ∉ m.keys) (hb : m.bucketOf q ≤ m.bucketOf k)
    (v : V) : (m.put q v).Behind k B := by
  obtain ⟨EA, x, EB, hE, rfl, rfl⟩ := elems_of_behind h
  obtain ⟨A', hA'⟩ := (keys_place_split (e := (q, v)) (hE ▸ m.ranked)).1 hb
  refine ⟨Assoc.keys A', ?_⟩
  show Assoc.keys (Assoc.place m.bucketOf (q, v) (Assoc.erase q m.elems)) = _
  rw [Assoc.erase_of_notMem hq, hE, hA', Assoc.keys_append, Assoc.keys_cons]

/-- A new key of a later bucket will be met. -/
theorem Behind.put_behind (h : m.Behind k B) (hq : q ∉ m.keys) (hb : m.bucketOf k < m.bucketOf q)
    (v : V) : ∃ B', (m.put q v).Behind k B' ∧ ∀ x, x ∈ B' ↔ x = q ∨ x ∈ B := by
  obtain ⟨EA, x, EB, hE, rfl, rfl⟩ := elems_of_behind h
  have hp := (keys_place_split (e := (q, v)) (hE ▸ m.ranked)).2 hb
  refine ⟨Assoc.keys (Assoc.place m.bucketOf (q, v) EB), ⟨Assoc.keys EA, ?_⟩, fun y => ?_⟩
  · show Assoc.keys (Assoc.place m.bucketOf (q, v) (Assoc.erase q m.elems)) = _
    rw [Assoc.erase_of_notMem hq, hE, hp, Assoc.keys_append, Assoc.keys_cons]
  · rw [(Assoc.keys_place_perm m.bucketOf (q, v) EB).mem_iff, List.mem_cons]

/-- Deleting a key that is not in front of the walk. -/
theorem Behind.delete (h : m.Behind k B) (hk : q ≠ k) (hB : q ∉ B) :
    (m.deleteElem q).Behind k B := by
  obtain ⟨A, hA⟩ := h
  refine ⟨A.filter (· ≠ q), ?_⟩
  show Assoc.keys (Assoc.erase q m.elems) = _
  have hkeys : Assoc.keys m.elems = A ++ k :: B := hA
  have hf : (k :: B).filter (fun x => decide (x ≠ q)) = k :: B := by
    apply List.filter_eq_self.mpr
    intro x hx
    rcases List.mem_cons.mp hx with rfl | hx
    · exact decide_eq_true (Ne.symm hk)
    · exact decide_eq_true fun he => hB (he ▸ hx)
  rw [Assoc.keys_erase, hkeys, List.filter_append, hf]

end EbpfDemo.Core.HashMap
