import Mathlib.Order.Defs.PartialOrder

/-!
# Deterministic labelled machines and conditions on their runs

A machine is a step function `S → L → Option S`: the label carries everything
the environment decides (who runs next, what a call returns), `none` means the
label is not possible in that state. `exec` runs a list of labels.

Two ways to speak about a run:
* `Always Q`: `Q` holds in every state the run visits, the first and the last
  included;
* `Along C`: every step of the run is taken in a state and under a label that
  meet `C`.

Results, each by induction over the run from a one-step fact:
* `inv_exec`: invariants, `Along.always`: invariants of the steps that meet a
  condition;
* `potential_iff`: a quantity that never grows, and stays the same exactly
  under `C`, ends where it started exactly when the whole run meets `C`;
* `always_iff_along`: if a step keeps `Q` exactly when it meets `C`, then `Q`
  holds throughout exactly when the run meets `C`;
* `along_congr`, `Along.imp`: a condition may be replaced by one that agrees with
  it on the states an invariant allows, or by a weaker one.
-/
namespace EbpfDemo.Core

variable {S L : Type} (step : S → L → Option S)

/-- The state after a list of labels; `none` when one of them is not possible. -/
def exec : S → List L → Option S
  | s, [] => some s
  | s, l :: ls => (step s l).bind fun s' => exec s' ls

/-- `Q` in every state of the run. -/
def Always (Q : S → Prop) : S → List L → Prop
  | s, [] => Q s
  | s, l :: ls => Q s ∧ ∀ s', step s l = some s' → Always Q s' ls

/-- `C` at every step of the run. -/
def Along (C : S → L → Prop) : S → List L → Prop
  | _, [] => True
  | s, l :: ls => C s l ∧ ∀ s', step s l = some s' → Along C s' ls

variable {step}

@[simp] theorem exec_nil (s : S) : exec step s [] = some s := rfl

theorem exec_cons (s : S) (l : L) (ls : List L) :
    exec step s (l :: ls) = (step s l).bind fun s' => exec step s' ls := rfl

theorem exec_cons_some {s t : S} {l : L} {ls : List L} (h : exec step s (l :: ls) = some t) :
    ∃ s', step s l = some s' ∧ exec step s' ls = some t := Option.bind_eq_some_iff.mp h

theorem exec_append (s : S) (ls ms : List L) :
    exec step s (ls ++ ms) = (exec step s ls).bind fun s' => exec step s' ms := by
  induction ls generalizing s with
  | nil => rfl
  | cons l ls ih =>
    rw [List.cons_append, exec_cons, exec_cons]
    cases step s l with
    | none => rfl
    | some s' => exact ih s'

theorem exec_trans {s t u : S} {ls ms : List L} (h1 : exec step s ls = some t)
    (h2 : exec step t ms = some u) : exec step s (ls ++ ms) = some u := by
  rw [exec_append, h1]; exact h2

theorem exec_of_total (h : ∀ s l, ∃ s', step s l = some s') (s : S) (ls : List L) :
    ∃ t, exec step s ls = some t := by
  induction ls generalizing s with
  | nil => exact ⟨s, rfl⟩
  | cons l ls ih =>
    obtain ⟨s', hs⟩ := h s l
    obtain ⟨t, ht⟩ := ih s'
    exact ⟨t, by rw [exec_cons, hs]; exact ht⟩

theorem along_cons {C : S → L → Prop} {s s' : S} {l : L} {ls : List L} (h : step s l = some s') :
    Along step C s (l :: ls) ↔ C s l ∧ Along step C s' ls := by
  simp [Along, h]

theorem always_cons {Q : S → Prop} {s s' : S} {l : L} {ls : List L} (h : step s l = some s') :
    Always step Q s (l :: ls) ↔ Q s ∧ Always step Q s' ls := by
  simp [Always, h]

theorem along_append {C : S → L → Prop} {s t : S} {ls ms : List L} (hx : exec step s ls = some t) :
    Along step C s (ls ++ ms) ↔ Along step C s ls ∧ Along step C t ms := by
  induction ls generalizing s with
  | nil =>
    cases hx
    exact ⟨fun h => ⟨trivial, h⟩, fun h => h.2⟩
  | cons l ls ih =>
    obtain ⟨s', hs, hx⟩ := exec_cons_some hx
    rw [List.cons_append, along_cons hs, along_cons hs, ih hx, and_assoc]

theorem along_labels (ht : ∀ s l, ∃ s', step s l = some s') {C : L → Prop} (s : S) (ls : List L) :
    Along step (fun _ l => C l) s ls ↔ ∀ l ∈ ls, C l := by
  induction ls generalizing s with
  | nil => exact iff_of_true trivial fun _ h => (by cases h)
  | cons l ls ih =>
    obtain ⟨s', hs⟩ := ht s l
    rw [along_cons hs, ih, List.forall_mem_cons]

instance decidableAlong {C : S → L → Prop} [∀ s l, Decidable (C s l)] :
    ∀ (s : S) (ls : List L), Decidable (Along step C s ls)
  | _, [] => .isTrue trivial
  | s, l :: ls =>
    match h : step s l with
    | some s' =>
      have : Decidable (Along step C s' ls) := decidableAlong s' ls
      decidable_of_iff (C s l ∧ Along step C s' ls) (along_cons h).symm
    | none => decidable_of_iff (C s l) (by simp [Along, h])

theorem Always.head {Q : S → Prop} {s : S} {ls : List L} (h : Always step Q s ls) : Q s := by
  cases ls with
  | nil => exact h
  | cons l ls => exact h.1

theorem Always.last {Q : S → Prop} {s t : S} {ls : List L} (h : Always step Q s ls)
    (hx : exec step s ls = some t) : Q t := by
  induction ls generalizing s with
  | nil => cases hx; exact h
  | cons l ls ih =>
    obtain ⟨s', hs, hx⟩ := exec_cons_some hx
    exact ih (h.2 s' hs) hx

/-- Whatever holds wherever a step is taken and in the last state holds
throughout. -/
theorem always_of_last {Q : S → Prop} (hQ : ∀ s l s', step s l = some s' → Q s) {s t : S}
    {ls : List L} (hx : exec step s ls = some t) (ht : Q t) : Always step Q s ls := by
  induction ls generalizing s with
  | nil => cases hx; exact ht
  | cons l ls ih =>
    obtain ⟨s', hs, hx⟩ := exec_cons_some hx
    exact (always_cons hs).mpr ⟨hQ s l s' hs, ih hx⟩

/-- An inductive invariant holds at the end of every run. -/
theorem inv_exec {I : S → Prop} (hI : ∀ s l s', I s → step s l = some s' → I s') {s t : S}
    {ls : List L} (h : I s) (hx : exec step s ls = some t) : I t := by
  induction ls generalizing s with
  | nil => cases hx; exact h
  | cons l ls ih =>
    obtain ⟨s', hs, hx⟩ := exec_cons_some hx
    exact ih (hI s l s' h hs) hx

/-- An inductive invariant holds throughout, whether or not the labels are
possible. -/
theorem inv_always {I : S → Prop} (hI : ∀ s l s', I s → step s l = some s' → I s') {s : S}
    (h : I s) (ls : List L) : Always step I s ls := by
  induction ls generalizing s with
  | nil => exact h
  | cons l ls ih => exact ⟨h, fun s' hs => ih (hI s l s' h hs)⟩

theorem along_of_always {I : S → Prop} {D : S → L → Prop} (hD : ∀ s l, I s → D s l) {s : S}
    {ls : List L} (h : Always step I s ls) : Along step D s ls := by
  induction ls generalizing s with
  | nil => trivial
  | cons l ls ih => exact ⟨hD s l h.1, fun s' hs => ih (h.2 s' hs)⟩

theorem Always.mono {P Q : S → Prop} (hPQ : ∀ s, P s → Q s) {s : S} {ls : List L}
    (h : Always step P s ls) : Always step Q s ls := by
  induction ls generalizing s with
  | nil => exact hPQ s h
  | cons l ls ih => exact ⟨hPQ s h.1, fun s' hs => ih (h.2 s' hs)⟩

/-- What the steps under a condition preserve holds throughout a run that meets
the condition. -/
theorem Along.always {I : S → Prop} {C : S → L → Prop}
    (hI : ∀ s l s', I s → C s l → step s l = some s' → I s') {s : S} {ls : List L} (h : I s)
    (hC : Along step C s ls) : Always step I s ls := by
  induction ls generalizing s with
  | nil => exact h
  | cons l ls ih => exact ⟨h, fun s' hs => ih (hI s l s' h hC.1 hs) (hC.2 s' hs)⟩

theorem Along.of_always {I : S → Prop} {C D : S → L → Prop} (hCD : ∀ s l, I s → C s l → D s l)
    {s : S} {ls : List L} (hI : Always step I s ls) (hC : Along step C s ls) :
    Along step D s ls := by
  induction ls generalizing s with
  | nil => trivial
  | cons l ls ih => exact ⟨hCD s l hI.1 hC.1, fun s' hs => ih (hI.2 s' hs) (hC.2 s' hs)⟩

theorem Along.imp {I : S → Prop} {C D : S → L → Prop}
    (hI : ∀ s l s', I s → C s l → step s l = some s' → I s')
    (hCD : ∀ s l s', I s → C s l → step s l = some s' → D s l) {s t : S} {ls : List L} (h : I s)
    (hC : Along step C s ls) (hx : exec step s ls = some t) : Along step D s ls := by
  induction ls generalizing s with
  | nil => trivial
  | cons l ls ih =>
    obtain ⟨s', hs, hx⟩ := exec_cons_some hx
    obtain ⟨hC0, hC1⟩ := (along_cons hs).mp hC
    exact (along_cons hs).mpr ⟨hCD s l s' h hC0 hs, ih (hI s l s' h hC0 hs) hC1 hx⟩

theorem along_of_inv {I : S → Prop} {D : S → L → Prop}
    (hI : ∀ s l s', I s → step s l = some s' → I s')
    (hD : ∀ s l s', I s → step s l = some s' → D s l) {s t : S} {ls : List L} (h : I s)
    (hx : exec step s ls = some t) : Along step D s ls := by
  induction ls generalizing s with
  | nil => trivial
  | cons l ls ih =>
    obtain ⟨s', hs, hx⟩ := exec_cons_some hx
    exact (along_cons hs).mpr ⟨hD s l s' h hs, ih (hI s l s' h hs) hx⟩

theorem along_congr {I : S → Prop} {C D : S → L → Prop}
    (hI : ∀ s l s', I s → step s l = some s' → I s')
    (hCD : ∀ s l s', I s → step s l = some s' → (C s l ↔ D s l)) {s t : S} {ls : List L} (h : I s)
    (hx : exec step s ls = some t) : Along step C s ls ↔ Along step D s ls := by
  induction ls generalizing s with
  | nil => exact Iff.rfl
  | cons l ls ih =>
    obtain ⟨s', hs, hx⟩ := exec_cons_some hx
    rw [along_cons hs, along_cons hs, hCD s l s' h hs, ih (hI s l s' h hs) hx]

/-- If a step keeps `Q` exactly when it meets `C`, then `Q` holds throughout a
run exactly when the run meets `C`. -/
theorem always_iff_along {I Q : S → Prop} {C : S → L → Prop}
    (hI : ∀ s l s', I s → step s l = some s' → I s')
    (hQ : ∀ s l s', I s → Q s → step s l = some s' → (Q s' ↔ C s l)) {s t : S} {ls : List L}
    (h : I s) (h0 : Q s) (hx : exec step s ls = some t) :
    Always step Q s ls ↔ Along step C s ls := by
  induction ls generalizing s with
  | nil => exact ⟨fun _ => trivial, fun _ => h0⟩
  | cons l ls ih =>
    obtain ⟨s', hs, hx⟩ := exec_cons_some hx
    have h' := hI s l s' h hs
    rw [always_cons hs, along_cons hs, ← hQ s l s' h h0 hs]
    constructor
    · rintro ⟨-, ha⟩
      exact ⟨ha.head, (ih h' ha.head hx).mp ha⟩
    · rintro ⟨hq, ha⟩
      exact ⟨h0, (ih h' hq hx).mpr ha⟩

section Potential
variable {α : Type} [PartialOrder α] {I : S → Prop} {C : S → L → Prop} {φ : S → α}

theorem potential_le (hI : ∀ s l s', I s → step s l = some s' → I s')
    (hle : ∀ s l s', I s → step s l = some s' → φ s' ≤ φ s) {s t : S} {ls : List L} (h : I s)
    (hx : exec step s ls = some t) : φ t ≤ φ s := by
  induction ls generalizing s with
  | nil => cases hx; exact le_refl _
  | cons l ls ih =>
    obtain ⟨s', hs, hx⟩ := exec_cons_some hx
    exact le_trans (ih (hI s l s' h hs) hx) (hle s l s' h hs)

/-- It ends where it started exactly when every step of the run kept it. -/
theorem potential_iff (hI : ∀ s l s', I s → step s l = some s' → I s')
    (hle : ∀ s l s', I s → step s l = some s' → φ s' ≤ φ s)
    (heq : ∀ s l s', I s → step s l = some s' → (φ s' = φ s ↔ C s l)) {s t : S} {ls : List L}
    (h : I s) (hx : exec step s ls = some t) : φ t = φ s ↔ Along step C s ls := by
  induction ls generalizing s with
  | nil => cases hx; exact ⟨fun _ => trivial, fun _ => rfl⟩
  | cons l ls ih =>
    obtain ⟨s', hs, hx⟩ := exec_cons_some hx
    have h' := hI s l s' h hs
    rw [along_cons hs, ← ih h' hx, ← heq s l s' h hs]
    constructor
    · intro he
      -- the end is below `s'`, which is below `s`: all three are equal
      have h1 := potential_le hI hle h' hx
      have h2 := hle s l s' h hs
      have h3 : φ s' = φ s := le_antisymm h2 (he ▸ h1)
      exact ⟨h3, he.trans h3.symm⟩
    · rintro ⟨h1, h2⟩; exact h2.trans h1

end Potential

end EbpfDemo.Core
