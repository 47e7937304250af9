import EbpfDemo.L3Loader.Drain

/-!
# One poll of a loop that deletes, with no event in between

Such a poll always ends, from any content and any start key: every turn of the loop
takes an element out of the map, so three map calls an element and one more are
enough (`poll_takes`). `pollAlone` is its last state. What it read and deleted and
what it left are together what was there (`taken_perm`), so any figure of the
elements that entries held back by `shown` do not have is conserved (`sum_poll`).
-/
namespace EbpfDemo.L3Loader

open EbpfDemo.Core
open L2Kernel

section
variable {K V : Type} [DecidableEq K] {d : Drain K V}

/-- From any state between two turns the loop ends; it moves elements of the map to
`seen`, leaving out those it does not show. Induction on the size of the map. -/
theorem poll_takes (hd : d.Deletes) : ∀ (n : Nat) (s : DState K V), s.pc = .next → s.map.size ≤ n →
    ∃ t taken, poll d (3 * n + 1) s = some t ∧ (taken ++ t.map.elems).Perm s.map.elems ∧
      t.seen = s.seen ++ taken.filter fun e => d.shown e.2 := by
  intro n
  induction n with
  | zero =>
    intro s hpc hsize
    have hempty : s.map.keys = [] :=
      HashMap.keys_eq_nil_iff.mpr (List.length_eq_zero_iff.mp (Nat.le_zero.mp hsize))
    have hnext : s.map.getNextKey s.cursor = none := by
      cases hk : s.map.getNextKey s.cursor with
      | none => rfl
      | some k => have hm := HashMap.mem_of_getNextKey hk; rw [hempty] at hm; cases hm
    exact ⟨_, [], poll_end 0 hpc hnext, List.Perm.refl _, (List.append_nil _).symm⟩
  | succ n ih =>
    intro s hpc hsize
    cases hk : s.map.getNextKey s.cursor with
    | none => exact ⟨_, [], poll_end _ hpc hk, List.Perm.refl _, (List.append_nil _).symm⟩
    | some k =>
      obtain ⟨v, hv⟩ := HashMap.exists_lookup (HashMap.mem_of_getNextKey hk)
      have hmap : (afterTurn d s k v).map = s.map.deleteElem k := hd s.map k
      have hless : (afterTurn d s k v).map.size ≤ n := by
        have := HashMap.size_deleteElem (HashMap.mem_of_getNextKey hk)
        rw [hmap]; omega
      obtain ⟨t, taken, ht, hperm, hseen⟩ := ih (afterTurn d s k v) rfl hless
      refine ⟨t, (k, v) :: taken, ?_, ?_, ?_⟩
      · rw [show 3 * (n + 1) + 1 = 3 * n + 1 + 3 by omega, poll_turn _ hpc hk hv]
        exact ht
      · rw [hmap] at hperm
        exact (hperm.cons _).trans (Assoc.perm_erase_cons s.map.nodup hv).symm
      · rw [hseen, List.filter_cons, afterTurn]
        split <;> simp

theorem poll_isSome (hd : d.Deletes) (m : HashMap K V) :
    (poll d (3 * m.size + 1) (begin d m)).isSome = true := by
  obtain ⟨t, -, ht, -⟩ := poll_takes hd m.size (begin d m) rfl (Nat.le_refl _)
  rw [ht]; rfl

/-- The state after one poll of `m`. -/
def pollAlone (d : Drain K V) (hd : d.Deletes) (m : HashMap K V) : DState K V :=
  (poll d (3 * m.size + 1) (begin d m)).get (poll_isSome hd m)

theorem poll_eq_pollAlone (hd : d.Deletes) (m : HashMap K V) :
    poll d (3 * m.size + 1) (begin d m) = some (pollAlone d hd m) :=
  (Option.some_get (poll_isSome hd m)).symm

theorem pollAlone_eq {fuel : Nat} (hd : d.Deletes) {m : HashMap K V} {t : DState K V}
    (h : poll d fuel (begin d m) = some t) : pollAlone d hd m = t :=
  poll_unique (poll_eq_pollAlone hd m) h

/-- What was read and deleted, and what is left, are together what was there. -/
theorem taken_perm (hd : d.Deletes) (m : HashMap K V) :
    ∃ taken, (taken ++ (pollAlone d hd m).map.elems).Perm m.elems ∧
      (pollAlone d hd m).seen = taken.filter fun e => d.shown e.2 := by
  obtain ⟨t, taken, ht, hperm, hseen⟩ := poll_takes hd m.size (begin d m) rfl (Nat.le_refl _)
  rw [pollAlone_eq hd ht]
  exact ⟨taken, hperm, hseen⟩

/-- A figure that no entry held back has is conserved. -/
theorem sum_poll (hd : d.Deletes) {f : V → Nat} (hf : ∀ v, d.shown v = false → f v = 0)
    (m : HashMap K V) :
    ((pollAlone d hd m).seen.map fun e => f e.2).sum + (pollAlone d hd m).map.weigh (fun _ => f) =
      m.weigh (fun _ => f) := by
  obtain ⟨taken, hperm, hseen⟩ := taken_perm hd m
  have hshown : ((taken.filter fun e => d.shown e.2).map fun e => f e.2).sum =
      (taken.map fun e => f e.2).sum := by
    clear hperm hseen
    induction taken with
    | nil => rfl
    | cons e l ih =>
      rw [List.filter_cons, List.map_cons, List.sum_cons, ← ih]
      cases hs : d.shown e.2 with
      | true => rw [if_pos rfl, List.map_cons, List.sum_cons]
      | false => rw [if_neg Bool.false_ne_true, hf e.2 hs, Nat.zero_add]
  unfold HashMap.weigh
  rw [hseen, hshown, ← HashMap.weigh_perm (g := fun _ => f) hperm, List.map_append, List.sum_append]

/-! ## Loops that hold entries back -/

/-- The loop that shows every entry. -/
def Drain.all (d : Drain K V) : Drain K V := { d with shown := fun _ => true }

/-- A state of `d.all` with the entries `d` shows. -/
def hide (d : Drain K V) (s : DState K V) : DState K V :=
  { s with
    seen := s.seen.filter fun e => d.shown e.2
    log := s.log.filter fun e => d.shown e.2 }

/-- What is shown does not decide where the loop goes. -/
theorem pollStep_hide (d : Drain K V) (s : DState K V) :
    pollStep d (hide d s) = hide d (pollStep d.all s) := by
  unfold pollStep
  cases hpc : s.pc with
  | idle => simp [hide, hpc, Drain.all]
  | next =>
    simp only [hide, hpc]
    cases s.map.getNextKey s.cursor <;> rfl
  | look k =>
    simp only [hide, hpc]
    cases s.map.lookupElem k with
    | none => rfl
    | some v => simp [Drain.all, List.filter_append, List.filter_cons]; split <;> simp
  | clear k => simp only [hide, hpc]; rfl

theorem poll_hide (d : Drain K V) (n : Nat) (s : DState K V) :
    poll d n (hide d s) = (poll d.all n s).map (hide d) := by
  induction n generalizing s with
  | zero =>
    show (if s.pc = .idle then some (hide d s) else none) = _
    unfold poll
    split <;> rfl
  | succ n ih =>
    by_cases hi : s.pc = .idle
    · rw [poll_idle _ hi, poll_idle _ (show (hide d s).pc = .idle from hi)]; rfl
    · rw [poll_step _ hi, poll_step _ (show (hide d s).pc ≠ .idle from hi), pollStep_hide, ih]

/-- A poll of `d` takes what a poll of `d.all` takes, and shows part of it. -/
theorem pollAlone_all (hd : d.Deletes) (m : HashMap K V) :
    pollAlone d hd m = hide d (pollAlone d.all hd m) := by
  have h : poll d (3 * m.size + 1) (begin d m) = some (hide d (pollAlone d.all hd m)) := by
    have hp := poll_hide d (3 * m.size + 1) (begin d.all m)
    rw [poll_eq_pollAlone (d := d.all) hd m] at hp
    exact hp
  exact pollAlone_eq hd h

end
end EbpfDemo.L3Loader
