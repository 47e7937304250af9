import Mathlib.Data.List.Basic
import Mathlib.Data.List.Nodup
import Mathlib.Data.List.Perm.Basic

/-!
# Association lists in visiting order

The raw lists behind `Core.HashMap`: `find`, `erase`, `place` (insert in front
of the first entry whose rank is not smaller), `adjust` (change a value in
place) and `after` (the key behind a key). The lemmas say what each operation
does to lookups, to the key list, to the length and to the order by rank.
-/
namespace EbpfDemo.Core.Assoc

variable {K V : Type}

def keys (l : List (K × V)) : List K := l.map Prod.fst

@[simp] theorem keys_nil : keys ([] : List (K × V)) = [] := rfl

@[simp] theorem keys_cons (e : K × V) (l : List (K × V)) : keys (e :: l) = e.1 :: keys l := rfl

@[simp] theorem keys_append (l m : List (K × V)) : keys (l ++ m) = keys l ++ keys m := by
  simp [keys]

theorem mem_keys_of_mem {e : K × V} {l : List (K × V)} (h : e ∈ l) : e.1 ∈ keys l :=
  List.mem_map_of_mem h

/-! ## Placing by rank -/

def place (rank : K → Nat) (e : K × V) : List (K × V) → List (K × V)
  | [] => [e]
  | x :: l => if rank e.1 ≤ rank x.1 then e :: x :: l else x :: place rank e l

/-- Entries stand in rank order. -/
def Ranked (rank : K → Nat) (l : List (K × V)) : Prop :=
  l.Pairwise fun a b => rank a.1 ≤ rank b.1

theorem place_perm (rank : K → Nat) (e : K × V) (l : List (K × V)) :
    (place rank e l).Perm (e :: l) := by
  induction l with
  | nil => exact List.Perm.refl _
  | cons x l ih =>
    simp only [place]; split
    · exact List.Perm.refl _
    · exact (ih.cons x).trans (List.Perm.swap e x l)

theorem mem_place {rank : K → Nat} {e x : K × V} {l : List (K × V)} :
    x ∈ place rank e l ↔ x = e ∨ x ∈ l := by
  rw [(place_perm rank e l).mem_iff, List.mem_cons]

theorem keys_place_perm (rank : K → Nat) (e : K × V) (l : List (K × V)) :
    (keys (place rank e l)).Perm (e.1 :: keys l) := (place_perm rank e l).map Prod.fst

theorem length_place (rank : K → Nat) (e : K × V) (l : List (K × V)) :
    (place rank e l).length = l.length + 1 := (place_perm rank e l).length_eq

theorem nodup_place {rank : K → Nat} {e : K × V} {l : List (K × V)} (hn : (keys l).Nodup)
    (h : e.1 ∉ keys l) : (keys (place rank e l)).Nodup :=
  (keys_place_perm rank e l).nodup_iff.mpr (List.nodup_cons.mpr ⟨h, hn⟩)

theorem ranked_place {rank : K → Nat} {e : K × V} {l : List (K × V)} (h : Ranked rank l) :
    Ranked rank (place rank e l) := by
  induction l with
  | nil => exact List.pairwise_singleton _ _
  | cons x l ih =>
    have hx := List.pairwise_cons.mp h
    simp only [place]; split
    · rename_i hle
      refine List.pairwise_cons.mpr ⟨fun y hy => ?_, h⟩
      rcases List.mem_cons.mp hy with rfl | hy
      · exact hle
      · exact Nat.le_trans hle (hx.1 y hy)
    · rename_i hle
      refine List.pairwise_cons.mpr ⟨fun y hy => ?_, ih hx.2⟩
      rcases mem_place.mp hy with rfl | hy
      · omega
      · exact hx.1 y hy

/-- `place` puts the entry at the head of its rank: in front of it stand
exactly the entries of smaller rank it met. -/
theorem place_split (rank : K → Nat) (e : K × V) (l : List (K × V)) :
    ∃ A B, l = A ++ B ∧ place rank e l = A ++ e :: B ∧ ∀ a ∈ A, rank a.1 < rank e.1 := by
  induction l with
  | nil => exact ⟨[], [], rfl, rfl, by simp⟩
  | cons x l ih =>
    simp only [place]; split
    · exact ⟨[], x :: l, rfl, rfl, by simp⟩
    · rename_i hlt
      obtain ⟨A, B, hl, hp, hA⟩ := ih
      refine ⟨x :: A, B, by rw [hl]; rfl, by rw [hp]; rfl, fun a ha => ?_⟩
      rcases List.mem_cons.mp ha with rfl | ha
      · omega
      · exact hA a ha

theorem place_between {rank : K → Nat} {e : K × V} {A B : List (K × V)}
    (hA : ∀ a ∈ A, rank a.1 < rank e.1) (hB : ∀ b ∈ B, rank e.1 ≤ rank b.1) :
    place rank e (A ++ B) = A ++ e :: B := by
  induction A with
  | nil =>
    cases B with
    | nil => rfl
    | cons b B => rw [List.nil_append, place, if_pos (hB b List.mem_cons_self)]; rfl
  | cons a A ih =>
    have ha := hA a List.mem_cons_self
    rw [List.cons_append, place, if_neg (by omega), ih fun x hx => hA x (List.mem_cons_of_mem _ hx)]
    rfl

variable [DecidableEq K]

def find (k : K) : List (K × V) → Option V
  | [] => none
  | e :: l => if e.1 = k then some e.2 else find k l

def erase (k : K) (l : List (K × V)) : List (K × V) := l.filter fun e => e.1 ≠ k

def adjust (k : K) (f : V → V) (l : List (K × V)) : List (K × V) :=
  l.map fun e => if e.1 = k then (e.1, f e.2) else e

/-- The key behind `k`, if `k` is there and not last. -/
def after (k : K) : List (K × V) → Option K
  | [] => none
  | e :: l => if e.1 = k then (keys l).head? else after k l

/-! ## Lookups -/

theorem find_eq_none_iff {k : K} {l : List (K × V)} : find k l = none ↔ k ∉ keys l := by
  induction l with
  | nil => simp [find]
  | cons e l ih =>
    simp only [find, keys_cons, List.mem_cons, not_or]
    by_cases h : e.1 = k
    · simp [h]
    · rw [if_neg h, ih]; exact ⟨fun h' => ⟨fun e' => h e'.symm, h'⟩, fun h' => h'.2⟩

theorem find_isSome_iff {k : K} {l : List (K × V)} : (find k l).isSome = true ↔ k ∈ keys l := by
  rw [← not_iff_not, Bool.not_eq_true, Option.isSome_eq_false_iff, Option.isNone_iff_eq_none,
    find_eq_none_iff]

theorem mem_of_find {k : K} {v : V} {l : List (K × V)} (h : find k l = some v) : (k, v) ∈ l := by
  induction l with
  | nil => cases h
  | cons e l ih =>
    simp only [find] at h
    split at h
    · rename_i he; cases h; subst he; exact List.mem_cons_self
    · exact List.mem_cons_of_mem _ (ih h)

theorem mem_keys_of_find {k : K} {v : V} {l : List (K × V)} (h : find k l = some v) :
    k ∈ keys l := mem_keys_of_mem (mem_of_find h)

theorem find_of_mem {k : K} {v : V} {l : List (K × V)} (hn : (keys l).Nodup) (h : (k, v) ∈ l) :
    find k l = some v := by
  induction l with
  | nil => cases h
  | cons e l ih =>
    simp only [find]
    rw [keys_cons, List.nodup_cons] at hn
    rcases List.mem_cons.mp h with rfl | h
    · simp
    · have hne : e.1 ≠ k := fun he => hn.1 (he ▸ mem_keys_of_mem h)
      rw [if_neg hne]; exact ih hn.2 h

theorem find_place (rank : K → Nat) (e : K × V) (k : K) (l : List (K × V)) (h : e.1 ∉ keys l) :
    find k (place rank e l) = if e.1 = k then some e.2 else find k l := by
  induction l with
  | nil => simp [place, find]
  | cons x l ih =>
    rw [keys_cons, List.mem_cons, not_or] at h
    simp only [place]
    split
    · rfl
    · simp only [find, ih h.2]
      by_cases hx : x.1 = k
      · rw [if_pos hx, if_pos hx, if_neg (fun he => h.1 (he.trans hx.symm))]
      · rw [if_neg hx, if_neg hx]

theorem find_erase_self (k : K) (l : List (K × V)) : find k (erase k l) = none := by
  rw [find_eq_none_iff]; simp [erase, keys]

theorem find_erase_ne {k k' : K} (h : k' ≠ k) (l : List (K × V)) :
    find k' (erase k l) = find k' l := by
  induction l with
  | nil => rfl
  | cons e l ih =>
    by_cases he : e.1 = k
    · have : erase k (e :: l) = erase k l := by simp [erase, he]
      rw [this, ih, find, if_neg (by rw [he]; exact h.symm)]
    · have : erase k (e :: l) = e :: erase k l := by simp [erase, he]
      rw [this, find, find, ih]

theorem find_adjust (k k' : K) (f : V → V) (l : List (K × V)) :
    find k' (adjust k f l) = if k' = k then (find k' l).map f else find k' l := by
  induction l with
  | nil => simp [adjust, find]
  | cons e l ih =>
    have hc : adjust k f (e :: l) = (if e.1 = k then (e.1, f e.2) else e) :: adjust k f l := rfl
    rw [hc, find, ih, find]
    by_cases hk : k' = k
    · subst hk; by_cases he : e.1 = k' <;> simp [he]
    · have hf : (if e.1 = k then (e.1, f e.2) else e).1 = e.1 := by split <;> rfl
      rw [if_neg hk, if_neg hk, hf]
      by_cases he : e.1 = k'
      · rw [if_pos he, if_pos he, if_neg (fun h => hk (he.symm.trans h))]
      · rw [if_neg he, if_neg he]

/-! ## Keys and length -/

theorem keys_adjust (k : K) (f : V → V) (l : List (K × V)) : keys (adjust k f l) = keys l := by
  simp only [keys, adjust, List.map_map]
  apply List.map_congr_left; intro e _
  simp only [Function.comp]; split <;> rfl

theorem keys_erase (k : K) (l : List (K × V)) : keys (erase k l) = (keys l).filter (· ≠ k) := by
  induction l with
  | nil => rfl
  | cons e l ih =>
    by_cases he : e.1 = k
    · have : erase k (e :: l) = erase k l := by simp [erase, he]
      rw [this, ih, keys_cons, List.filter_cons_of_neg (by simp [he])]
    · have : erase k (e :: l) = e :: erase k l := by simp [erase, he]
      rw [this, keys_cons, ih, keys_cons, List.filter_cons_of_pos (by simp [he])]

theorem erase_of_notMem {k : K} {l : List (K × V)} (h : k ∉ keys l) : erase k l = l := by
  rw [erase, List.filter_eq_self]
  intro e he
  simp only [ne_eq, decide_not, Bool.not_eq_true', decide_eq_false_iff_not]
  exact fun hk => h (hk ▸ mem_keys_of_mem he)

/-- Taking a present key out and back in keeps the entries of the other keys. -/
theorem perm_erase_cons {k : K} {v : V} {l : List (K × V)} (hn : (keys l).Nodup)
    (h : find k l = some v) : l.Perm ((k, v) :: erase k l) := by
  induction l with
  | nil => cases h
  | cons e l ih =>
    rw [keys_cons, List.nodup_cons] at hn
    simp only [find] at h
    split at h
    · rename_i he
      cases h; subst he
      have : erase e.1 (e :: l) = l := by
        have h1 : erase e.1 (e :: l) = erase e.1 l := by simp [erase]
        rw [h1, erase_of_notMem hn.1]
      rw [this]
    · rename_i he
      have : erase k (e :: l) = e :: erase k l := by simp [erase, he]
      rw [this]
      exact ((ih hn.2 h).cons e).trans (List.Perm.swap (k, v) e _)

theorem length_erase {k : K} {l : List (K × V)} (hn : (keys l).Nodup) (h : k ∈ keys l) :
    (erase k l).length + 1 = l.length := by
  obtain ⟨v, hv⟩ := Option.isSome_iff_exists.mp (find_isSome_iff.mpr h)
  have := (perm_erase_cons hn hv).length_eq
  rw [this, List.length_cons]

theorem nodup_erase {k : K} {l : List (K × V)} (hn : (keys l).Nodup) :
    (keys (erase k l)).Nodup := by rw [keys_erase]; exact hn.filter _

/-! ## Order by rank -/

theorem ranked_erase {rank : K → Nat} {k : K} {l : List (K × V)} (h : Ranked rank l) :
    Ranked rank (erase k l) := h.filter _

theorem ranked_adjust {rank : K → Nat} {k : K} {f : V → V} {l : List (K × V)}
    (h : Ranked rank l) : Ranked rank (adjust k f l) := by
  refine List.pairwise_map.mpr (h.imp ?_)
  intro a b hab
  have hfst : ∀ e : K × V, (if e.1 = k then (e.1, f e.2) else e).1 = e.1 := by
    intro e; split <;> rfl
  rw [hfst, hfst]; exact hab

/-! ## The key behind a key -/

theorem after_append {k : K} {v : V} {l m : List (K × V)} (h : k ∉ keys l) :
    after k (l ++ (k, v) :: m) = (keys m).head? := by
  induction l with
  | nil => simp [after]
  | cons e l ih =>
    rw [keys_cons, List.mem_cons, not_or] at h
    rw [List.cons_append, after, if_neg (fun he => h.1 he.symm), ih h.2]

theorem mem_of_after {k k' : K} {l : List (K × V)} (h : after k l = some k') : k' ∈ keys l := by
  induction l with
  | nil => cases h
  | cons e l ih =>
    simp only [after] at h
    split at h
    · exact List.mem_cons_of_mem _ (List.mem_of_head? h)
    · exact List.mem_cons_of_mem _ (ih h)

/-- `after k` fails on a present key only when it is the last one. -/
theorem after_eq_none_iff {k : K} {l : List (K × V)} (hn : (keys l).Nodup) (h : k ∈ keys l) :
    after k l = none ↔ (keys l).getLast? = some k := by
  induction l with
  | nil => cases h
  | cons e l ih =>
    rw [keys_cons, List.nodup_cons] at hn
    simp only [after]
    by_cases he : e.1 = k
    · subst he
      rw [if_pos rfl, keys_cons]
      cases l with
      | nil => simp
      | cons x l =>
        simp only [keys_cons, List.head?_cons, reduceCtorEq, false_iff]
        rw [List.getLast?_cons_cons]
        exact fun hl => hn.1 (List.mem_of_getLast? hl)
    · rw [if_neg he]
      have hk : k ∈ keys l := (List.mem_cons.mp h).resolve_left fun h' => he h'.symm
      rw [ih hn.2 hk, keys_cons]
      cases l with
      | nil => cases hk
      | cons x l => simp only [keys_cons, List.getLast?_cons_cons]

end EbpfDemo.Core.Assoc
