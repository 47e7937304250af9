import EbpfDemo.Core.Assoc

/-!
# Dictionaries that remember their insertion order

A Python `dict` as the list of its items: assigning to a present key keeps the
key's place, a new key goes to the end.
-/
namespace EbpfDemo.Core.Dict

variable {K V : Type} [DecidableEq K]

/-- `d[k] = v` -/
def set (k : K) (v : V) : List (K × V) → List (K × V)
  | [] => [(k, v)]
  | e :: d => if e.1 = k then (k, v) :: d else e :: set k v d

/-- The dict of a list of assignments. -/
def ofList (kvs : List (K × V)) : List (K × V) := kvs.foldl (fun d e => set e.1 e.2 d) []

/-- `d.get(k, default)` -/
def getD (d : List (K × V)) (k : K) (default : V) : V := (Assoc.find k d).getD default

theorem mem_keys_set {k k' : K} {v : V} {d : List (K × V)} :
    k' ∈ Assoc.keys (set k v d) ↔ k' = k ∨ k' ∈ Assoc.keys d := by
  induction d with
  | nil => simp [set, Assoc.keys]
  | cons e d ih =>
    unfold set
    split
    · rename_i h; rw [Assoc.keys_cons, Assoc.keys_cons, List.mem_cons, List.mem_cons, h]; tauto
    · rw [Assoc.keys_cons, Assoc.keys_cons, List.mem_cons, List.mem_cons, ih]; tauto

theorem mem_keys_foldl {kvs : List (K × V)} : ∀ {d : List (K × V)} {k : K},
    k ∈ Assoc.keys (kvs.foldl (fun d e => set e.1 e.2 d) d) ↔
      k ∈ Assoc.keys d ∨ k ∈ Assoc.keys kvs := by
  induction kvs with
  | nil => intro d k; simp [Assoc.keys]
  | cons e kvs ih =>
    intro d k
    rw [List.foldl_cons, ih, mem_keys_set, Assoc.keys_cons, List.mem_cons]; tauto

theorem mem_keys_ofList {kvs : List (K × V)} {k : K} :
    k ∈ Assoc.keys (ofList kvs) ↔ k ∈ Assoc.keys kvs := by
  rw [ofList, mem_keys_foldl]; simp [Assoc.keys]

theorem find_set (k k' : K) (v : V) (d : List (K × V)) :
    Assoc.find k' (set k v d) = if k' = k then some v else Assoc.find k' d := by
  induction d with
  | nil => simp only [set, Assoc.find, eq_comm]
  | cons e d ih =>
    unfold set
    by_cases he : e.1 = k
    · rw [if_pos he]
      by_cases h : k' = k
      · simp [Assoc.find, h]
      · have hk : ¬ k = k' := fun e => h e.symm
        have hk' : ¬ e.1 = k' := fun e' => hk (he.symm.trans e')
        simp [Assoc.find, h, hk, hk']
    · rw [if_neg he]
      unfold Assoc.find
      by_cases h : e.1 = k'
      · rw [if_pos h, if_pos h, if_neg fun e' => he (h.trans e')]
      · rw [if_neg h, if_neg h, ih]

theorem getD_set (k k' : K) (v default : V) (d : List (K × V)) :
    getD (set k v d) k' default = if k' = k then v else getD d k' default := by
  unfold getD
  rw [find_set]
  by_cases h : k' = k
  · rw [if_pos h, if_pos h]; rfl
  · rw [if_neg h, if_neg h]

/-- A new key goes to the end. -/
theorem set_of_notMem {k : K} {v : V} {d : List (K × V)} (h : k ∉ Assoc.keys d) :
    set k v d = d ++ [(k, v)] := by
  induction d with
  | nil => rfl
  | cons e d ih =>
    rw [Assoc.keys_cons, List.mem_cons, not_or] at h
    rw [set, if_neg (Ne.symm h.1), ih h.2]
    rfl

theorem foldl_set {kvs : List (K × V)} : ∀ {d : List (K × V)},
    (Assoc.keys d ++ Assoc.keys kvs).Nodup →
      kvs.foldl (fun d e => set e.1 e.2 d) d = d ++ kvs := by
  induction kvs with
  | nil => exact fun _ => (List.append_nil _).symm
  | cons e kvs ih =>
    intro d h
    have hnot : e.1 ∉ Assoc.keys d := by
      intro hmem
      exact List.disjoint_of_nodup_append h hmem List.mem_cons_self
    have hnext : (Assoc.keys (d ++ [e]) ++ Assoc.keys kvs).Nodup := by
      rw [Assoc.keys_append, List.append_assoc]
      exact h
    rw [List.foldl_cons, set_of_notMem hnot, ih hnext, List.append_assoc]
    rfl

/-- Different keys stay as they are. -/
theorem ofList_nodup {kvs : List (K × V)} (h : (Assoc.keys kvs).Nodup) : ofList kvs = kvs :=
  foldl_set (d := []) h

theorem nodup_set {k : K} {v : V} {d : List (K × V)} (h : (Assoc.keys d).Nodup) :
    (Assoc.keys (set k v d)).Nodup := by
  induction d with
  | nil => exact List.nodup_cons.mpr ⟨List.not_mem_nil, List.nodup_nil⟩
  | cons e d ih =>
    rw [Assoc.keys_cons, List.nodup_cons] at h
    unfold set
    by_cases he : e.1 = k
    · rw [if_pos he, Assoc.keys_cons, List.nodup_cons, ← he]; exact h
    · rw [if_neg he, Assoc.keys_cons, List.nodup_cons, mem_keys_set]
      exact ⟨fun hm => hm.elim he h.1, ih h.2⟩

end EbpfDemo.Core.Dict
