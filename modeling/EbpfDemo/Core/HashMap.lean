import EbpfDemo.Core.Assoc

/-!
# The kernel's hash map, as seen through its helpers

`BPF_MAP_TYPE_HASH` as user space and BPF programs observe it. `elems` lists
the elements in visiting order: bucket after bucket (`bucketOf`, any hash
function), inside a bucket from the head of its list. The two facts the order
rests on are fields, so they hold of every map: elements stand in bucket order
and no key occurs twice.

* A new element is linked at the head of its bucket; updating a present key
  links a new element at the head of the bucket and drops the old one (`put`).
* An insert into a map that holds `maxEntries` keys fails; an update of a
  present key does not.
* `modifyElem` is an atomic add through a pointer to the value: the element
  stays where it is.
* `getNextKey k` is the key behind `k`, the first key when `k` is `NULL` or
  not in the map, and an error (`none`) at the end.
-/
namespace EbpfDemo.Core

/-- `BPF_ANY`, `BPF_NOEXIST`, `BPF_EXIST`. -/
inductive UpdateFlag where
  | any | noExist | exist
  deriving DecidableEq, Repr

structure HashMap (K V : Type) where
  bucketOf : K → Nat
  maxEntries : Nat
  elems : List (K × V)
  ranked : Assoc.Ranked bucketOf elems
  nodup : (Assoc.keys elems).Nodup

namespace HashMap

variable {K V : Type}

def keys (m : HashMap K V) : List K := Assoc.keys m.elems

def size (m : HashMap K V) : Nat := m.elems.length

/-- Every key the map can hold is there. -/
def Full (m : HashMap K V) : Prop := m.maxEntries ≤ m.size

instance (m : HashMap K V) : Decidable (Full m) := inferInstanceAs (Decidable (_ ≤ _))

/-- A map as created: no element. -/
def empty (bucketOf : K → Nat) (maxEntries : Nat) : HashMap K V where
  bucketOf := bucketOf
  maxEntries := maxEntries
  elems := []
  ranked := List.Pairwise.nil
  nodup := List.nodup_nil

theorem keys_eq_nil_iff {m : HashMap K V} : m.keys = [] ↔ m.elems = [] := by
  simp [keys, Assoc.keys]

variable [DecidableEq K]

def lookupElem (m : HashMap K V) (k : K) : Option V := Assoc.find k m.elems

def deleteElem (m : HashMap K V) (k : K) : HashMap K V :=
  { m with
    elems := Assoc.erase k m.elems
    ranked := Assoc.ranked_erase m.ranked
    nodup := Assoc.nodup_erase m.nodup }

/-- A new element for `k` at the head of its bucket, in place of any old one. -/
def put (m : HashMap K V) (k : K) (v : V) : HashMap K V :=
  { m with
    elems := Assoc.place m.bucketOf (k, v) (Assoc.erase k m.elems)
    ranked := Assoc.ranked_place (Assoc.ranked_erase m.ranked)
    nodup := Assoc.nodup_place (Assoc.nodup_erase m.nodup) (by simp [Assoc.keys_erase]) }

/-- `none`: the call returns an error (`EEXIST`, `ENOENT`, `E2BIG`) and
changes nothing. -/
def updateElem (m : HashMap K V) (k : K) (v : V) (flag : UpdateFlag) : Option (HashMap K V) :=
  if k ∈ m.keys then
    if flag = .noExist then none else some (m.put k v)
  else if flag = .exist then none
  else if Full m then none
  else some (m.put k v)

/-- The caller ignores the result of the update. -/
def update (m : HashMap K V) (k : K) (v : V) (flag : UpdateFlag) : HashMap K V :=
  (m.updateElem k v flag).getD m

def modifyElem (m : HashMap K V) (k : K) (f : V → V) : HashMap K V :=
  { m with
    elems := Assoc.adjust k f m.elems
    ranked := Assoc.ranked_adjust m.ranked
    nodup := by rw [Assoc.keys_adjust]; exact m.nodup }

def getNextKey (m : HashMap K V) : Option K → Option K
  | none => m.keys.head?
  | some k => if k ∈ m.keys then Assoc.after k m.elems else m.keys.head?

/-! ## Lookups -/

theorem mem_keys_iff {m : HashMap K V} {k : K} : k ∈ m.keys ↔ (m.lookupElem k).isSome = true :=
  Assoc.find_isSome_iff.symm

theorem lookupElem_eq_none {m : HashMap K V} {k : K} : m.lookupElem k = none ↔ k ∉ m.keys :=
  Assoc.find_eq_none_iff

theorem mem_keys_of_lookup {m : HashMap K V} {k : K} {v : V} (h : m.lookupElem k = some v) :
    k ∈ m.keys := Assoc.mem_keys_of_find h

theorem lookupElem_iff_mem {m : HashMap K V} {k : K} {v : V} :
    m.lookupElem k = some v ↔ (k, v) ∈ m.elems :=
  ⟨Assoc.mem_of_find, Assoc.find_of_mem m.nodup⟩

theorem exists_lookup {m : HashMap K V} {k : K} (h : k ∈ m.keys) :
    ∃ v, m.lookupElem k = some v := Option.isSome_iff_exists.mp (mem_keys_iff.mp h)

@[simp] theorem lookupElem_deleteElem_self (m : HashMap K V) (k : K) :
    (m.deleteElem k).lookupElem k = none := Assoc.find_erase_self k m.elems

theorem lookupElem_deleteElem_ne {k k' : K} (h : k' ≠ k) (m : HashMap K V) :
    (m.deleteElem k).lookupElem k' = m.lookupElem k' := Assoc.find_erase_ne h m.elems

theorem lookupElem_put (m : HashMap K V) (k k' : K) (v : V) :
    (m.put k v).lookupElem k' = if k' = k then some v else m.lookupElem k' := by
  have h := Assoc.find_place m.bucketOf (k, v) k' (Assoc.erase k m.elems)
    (by simp [Assoc.keys_erase])
  unfold lookupElem put
  rw [h]
  by_cases hk : k' = k
  · rw [if_pos hk, if_pos hk.symm]
  · rw [if_neg hk, if_neg (fun e => hk e.symm), Assoc.find_erase_ne hk]

@[simp] theorem lookupElem_put_self (m : HashMap K V) (k : K) (v : V) :
    (m.put k v).lookupElem k = some v := by rw [lookupElem_put, if_pos rfl]

theorem lookupElem_put_ne {k k' : K} (h : k' ≠ k) (m : HashMap K V) (v : V) :
    (m.put k v).lookupElem k' = m.lookupElem k' := by rw [lookupElem_put, if_neg h]

theorem lookupElem_modifyElem (m : HashMap K V) (k k' : K) (f : V → V) :
    (m.modifyElem k f).lookupElem k' =
      if k' = k then (m.lookupElem k').map f else m.lookupElem k' :=
  Assoc.find_adjust k k' f m.elems

/-! ## Updates by flag -/

theorem updateElem_present {m : HashMap K V} {k : K} {flag : UpdateFlag} (h : k ∈ m.keys)
    (hf : flag ≠ .noExist) (v : V) : m.updateElem k v flag = some (m.put k v) := by
  rw [updateElem, if_pos h, if_neg hf]

theorem updateElem_absent {m : HashMap K V} {k : K} {flag : UpdateFlag} (h : k ∉ m.keys)
    (hf : flag ≠ .exist) (hroom : ¬ Full m) (v : V) :
    m.updateElem k v flag = some (m.put k v) := by
  rw [updateElem, if_neg h, if_neg hf, if_neg hroom]

theorem updateElem_full {m : HashMap K V} {k : K} (h : k ∉ m.keys) (hfull : Full m) (v : V)
    (flag : UpdateFlag) : m.updateElem k v flag = none := by
  rw [updateElem, if_neg h, if_pos hfull, ite_self]

theorem update_present {m : HashMap K V} {k : K} {flag : UpdateFlag} (h : k ∈ m.keys)
    (hf : flag ≠ .noExist) (v : V) : m.update k v flag = m.put k v := by
  rw [update, updateElem_present h hf]; rfl

theorem update_absent {m : HashMap K V} {k : K} {flag : UpdateFlag} (h : k ∉ m.keys)
    (hf : flag ≠ .exist) (hroom : ¬ Full m) (v : V) : m.update k v flag = m.put k v := by
  rw [update, updateElem_absent h hf hroom]; rfl

theorem update_full {m : HashMap K V} {k : K} (h : k ∉ m.keys) (hfull : Full m) (v : V)
    (flag : UpdateFlag) : m.update k v flag = m := by
  rw [update, updateElem_full h hfull]; rfl

/-! ## Keys and size -/

@[simp] theorem keys_modifyElem (m : HashMap K V) (k : K) (f : V → V) :
    (m.modifyElem k f).keys = m.keys := Assoc.keys_adjust k f m.elems

@[simp] theorem size_modifyElem (m : HashMap K V) (k : K) (f : V → V) :
    (m.modifyElem k f).size = m.size := by simp [size, modifyElem, Assoc.adjust]

theorem mem_keys_put {m : HashMap K V} {k k' : K} {v : V} :
    k' ∈ (m.put k v).keys ↔ k' = k ∨ k' ∈ m.keys := by
  rw [mem_keys_iff, lookupElem_put, mem_keys_iff]
  by_cases h : k' = k <;> simp [h]

theorem mem_keys_deleteElem {m : HashMap K V} {k k' : K} :
    k' ∈ (m.deleteElem k).keys ↔ k' ∈ m.keys ∧ k' ≠ k := by
  simp [keys, deleteElem, Assoc.keys_erase]

theorem size_deleteElem {m : HashMap K V} {k : K} (h : k ∈ m.keys) :
    (m.deleteElem k).size + 1 = m.size := Assoc.length_erase m.nodup h

theorem elems_deleteElem_head {m : HashMap K V} {e : K × V} {l : List (K × V)}
    (h : m.elems = e :: l) : (m.deleteElem e.1).elems = l := by
  have hn := m.nodup
  rw [h, Assoc.keys_cons, List.nodup_cons] at hn
  have : Assoc.erase e.1 m.elems = Assoc.erase e.1 l := by rw [h]; simp [Assoc.erase]
  exact this.trans (Assoc.erase_of_notMem hn.1)

theorem size_put_absent {m : HashMap K V} {k : K} (h : k ∉ m.keys) (v : V) :
    (m.put k v).size = m.size + 1 := by
  simp only [size, put, Assoc.length_place, Assoc.erase_of_notMem h]

/-! ## Buckets -/

/-- No other key shares the bucket of `k`. -/
def Alone (m : HashMap K V) (k : K) : Prop := ∀ k' ∈ m.keys, m.bucketOf k' = m.bucketOf k → k' = k

/-- `k` is the head of its bucket: all keys in front stand in earlier buckets. -/
def AtHead (m : HashMap K V) (k : K) : Prop :=
  ∃ A B v, m.elems = A ++ (k, v) :: B ∧ ∀ a ∈ A, m.bucketOf a.1 < m.bucketOf k

@[simp] theorem bucketOf_put (m : HashMap K V) (k : K) (v : V) :
    (m.put k v).bucketOf = m.bucketOf := rfl

theorem atHead_put (m : HashMap K V) (k : K) (v : V) : (m.put k v).AtHead k := by
  obtain ⟨A, B, -, hp, hA⟩ := Assoc.place_split m.bucketOf (k, v) (Assoc.erase k m.elems)
  exact ⟨A, B, v, hp, hA⟩

theorem alone_put {m : HashMap K V} {k k' : K} {v : V} (hk : k ∈ m.keys) :
    (m.put k v).Alone k' ↔ m.Alone k' := by
  unfold Alone
  simp only [mem_keys_put, bucketOf_put]
  exact ⟨fun h x hx => h x (.inr hx), fun h x hx => h x (hx.elim (fun e => e ▸ hk) id)⟩

/-- Updating a key that is alone in its bucket does not move it. -/
theorem keys_put_alone {m : HashMap K V} {k : K} (hk : k ∈ m.keys) (ha : m.Alone k) (v : V) :
    (m.put k v).keys = m.keys := by
  obtain ⟨w, hw⟩ := exists_lookup hk
  obtain ⟨A, B, hAB⟩ := List.append_of_mem (lookupElem_iff_mem.mp hw)
  have hn := m.nodup
  rw [hAB, Assoc.keys_append, Assoc.keys_cons] at hn
  obtain ⟨-, hnB, hdis⟩ := List.nodup_append.mp hn
  rw [List.nodup_cons] at hnB
  have hkA : k ∉ Assoc.keys A := fun h => hdis k h k List.mem_cons_self rfl
  have herase : Assoc.erase k m.elems = A ++ B := by
    have e1 : Assoc.erase k m.elems = Assoc.erase k A ++ Assoc.erase k B := by
      rw [hAB]; simp [Assoc.erase]
    rw [e1, Assoc.erase_of_notMem hkA, Assoc.erase_of_notMem hnB.1]
  have hr := m.ranked
  rw [hAB] at hr
  have hA : ∀ a ∈ A, m.bucketOf a.1 < m.bucketOf k := by
    intro a haA
    have hle := (List.pairwise_append.mp hr).2.2 a haA (k, w) List.mem_cons_self
    refine Nat.lt_of_le_of_ne hle fun he => hkA ?_
    have hmem : a.1 ∈ m.keys := Assoc.mem_keys_of_mem (by rw [hAB]; exact List.mem_append_left _ haA)
    exact ha a.1 hmem he ▸ Assoc.mem_keys_of_mem haA
  have hB : ∀ b ∈ B, m.bucketOf k ≤ m.bucketOf b.1 :=
    (List.pairwise_cons.mp (List.pairwise_append.mp hr).2.1).1
  have hput : (m.put k v).elems = A ++ (k, v) :: B := by
    show Assoc.place m.bucketOf (k, v) (Assoc.erase k m.elems) = _
    rw [herase]; exact Assoc.place_between hA hB
  simp only [keys, hput, hAB, Assoc.keys_append, Assoc.keys_cons]

/-- Behind the head of a bucket that holds another key comes a key of the same
bucket. -/
theorem getNextKey_atHead {m : HashMap K V} {k : K} (hh : m.AtHead k) (ha : ¬ m.Alone k) :
    ∃ k', m.getNextKey (some k) = some k' ∧ k' ≠ k ∧ m.bucketOf k' = m.bucketOf k := by
  obtain ⟨A, B, v, hAB, hA⟩ := hh
  simp only [Alone, not_forall] at ha
  obtain ⟨x, hx, hbx, hxk⟩ := ha
  have hn := m.nodup
  rw [hAB, Assoc.keys_append, Assoc.keys_cons] at hn
  obtain ⟨-, hnB, hdis⟩ := List.nodup_append.mp hn
  have hkA : k ∉ Assoc.keys A := fun h => hdis k h k List.mem_cons_self rfl
  have hr := m.ranked
  rw [hAB] at hr
  have hrB := List.pairwise_cons.mp (List.pairwise_append.mp hr).2.1
  have hxB : x ∈ Assoc.keys B := by
    rw [keys, hAB, Assoc.keys_append, Assoc.keys_cons] at hx
    rcases List.mem_append.mp hx with hx | hx
    · obtain ⟨a, haA, rfl⟩ := List.mem_map.mp hx
      have := hA a haA; omega
    · exact (List.mem_cons.mp hx).resolve_left hxk
  have hmem : k ∈ m.keys := by rw [keys, hAB]; simp
  have hafter : Assoc.after k m.elems = (Assoc.keys B).head? := by
    rw [hAB]; exact Assoc.after_append hkA
  cases B with
  | nil => cases hxB
  | cons b B =>
    refine ⟨b.1, ?_, ?_, ?_⟩
    · rw [getNextKey, if_pos hmem, hafter]; rfl
    · intro he
      rw [List.nodup_cons] at hnB
      exact hnB.1 (he ▸ List.mem_cons_self)
    · -- the bucket of `b` lies between that of `k` and that of `x`
      have h1 := hrB.1 b List.mem_cons_self
      have h2 : m.bucketOf b.1 ≤ m.bucketOf x := by
        obtain ⟨y, hy, rfl⟩ := List.mem_map.mp hxB
        rcases List.mem_cons.mp hy with rfl | hy
        · exact Nat.le_refl _
        · exact (List.pairwise_cons.mp hrB.2).1 y hy
      have h1' : m.bucketOf k ≤ m.bucketOf b.1 := h1
      omega

/-! ## Iteration -/

/-- Behind the last key of `A`, the walk goes on with the first key of `B`. -/
theorem getNextKey_split {m : HashMap K V} {A B : List K} {k : K}
    (h : m.keys = A ++ k :: B) : m.getNextKey (some k) = B.head? := by
  have hmem : k ∈ m.keys := by rw [h]; simp
  have hn : m.keys.Nodup := m.nodup
  rw [getNextKey, if_pos hmem]
  obtain ⟨EA, EB, hE, hA, hB⟩ := List.map_eq_append_iff.mp h
  obtain ⟨e, EB', rfl, rfl, rfl⟩ := List.map_eq_cons_iff.mp hB
  rw [hE]
  refine Assoc.after_append fun hk => ?_
  rw [h] at hn
  exact (List.nodup_append.mp hn).2.2 e.1 (hA ▸ hk) e.1 List.mem_cons_self rfl

theorem mem_of_getNextKey {m : HashMap K V} {c : Option K} {k : K}
    (h : m.getNextKey c = some k) : k ∈ m.keys := by
  cases c with
  | none => exact List.mem_of_head? h
  | some c =>
    simp only [getNextKey] at h
    split at h
    · exact Assoc.mem_of_after h
    · exact List.mem_of_head? h

theorem getNextKey_absent {m : HashMap K V} {k : K} (h : k ∉ m.keys) :
    m.getNextKey (some k) = m.keys.head? := if_neg h

/-- The end of the walk: the map is empty, or the cursor is its last key. -/
theorem getNextKey_eq_none_iff {m : HashMap K V} {k : K} :
    m.getNextKey (some k) = none ↔ m.elems = [] ∨ m.keys.getLast? = some k := by
  by_cases h : k ∈ m.keys
  · have hne : m.elems ≠ [] := fun he => by rw [keys_eq_nil_iff.mpr he] at h; cases h
    rw [getNextKey, if_pos h]
    exact (Assoc.after_eq_none_iff m.nodup h).trans ⟨Or.inr, fun h' => h'.resolve_left hne⟩
  · rw [getNextKey_absent h, List.head?_eq_none_iff, keys_eq_nil_iff]
    exact ⟨Or.inl, fun h' => h'.resolve_right fun hl => h (List.mem_of_getLast? hl)⟩

end HashMap
end EbpfDemo.Core
