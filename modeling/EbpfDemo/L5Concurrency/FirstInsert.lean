import Mathlib.Algebra.Ring.Nat
import Mathlib.Data.Nat.Basic
import EbpfDemo.Core.Machine
import EbpfDemo.L2Kernel.Counters

/-!
# Counting one key from several CPUs at once

`L2Kernel.countEvent` runs a counting handler as one step. On a machine with
several CPUs the handlers of one key overlap: each helper call and each atomic
add is a step of its own, and a pointer returned by a lookup stays a pointer to
that element when another CPU replaces it. Here `n` instances of one handler
work on one key:

* `heap` lists every element linked for the key so far, `cur` is the one that
  is in the map;
* an instance looks the key up (`look`); if it is absent it inserts
  `Discipline.first` with `Discipline.flag` (`insert`); `handle_execve` then
  looks it up again (`relook`); an instance that holds an element adds to it
  (`add r`), whether or not the element is still in the map.

The label is the instance that moves and whether the map has room for a new key
(other keys fill it and leave it).

`credit` is the counter plus the instances that can still reach it: those on
the way to an element, and those that hold the current one. No step raises it,
and `Keeps` says which steps lower it: an insert that replaces an element
somebody counted on or holds, an insert that fails and is not followed by a
second lookup, a second lookup that finds nothing. So the counter ends at `n`
exactly when no such step occurs (`counter_iff_keeps`), which for the three
handlers is `firstInsert_iff`. `alone_*` ties one undisturbed instance to the
handler of `L2Kernel.Counters`.
-/
namespace EbpfDemo.L5Concurrency.FirstInsert

open EbpfDemo.Core
open L2Kernel

/-- How a handler counts a key it found absent. -/
structure Discipline where
  first : UInt64
  flag : UpdateFlag
  relook : Bool
  deriving DecidableEq

/-- mirrors src/my_tools/cpu/irq_stat.bpf.c:23-33 -/
def execve : Discipline := ⟨0, .any, true⟩

/-- mirrors src/my_tools/memo/mmap_stat.bpf.c:16-26 -/
def enterMmap : Discipline := ⟨1, .noExist, false⟩

/-- mirrors src/my_tools/file/read_stat.bpf.c:16-22 -/
def enterRead : Discipline := ⟨1, .any, false⟩

/-- Before which call an instance stands. -/
inductive Pc where
  | look | insert | relook | add (r : Nat) | done
  deriving DecidableEq, Repr

structure St where
  heap : List UInt64
  cur : Option Nat
  pcs : List Pc
  deriving DecidableEq, Repr

def init (n : Nat) : St := ⟨[], none, List.replicate n .look⟩

def St.elem (s : St) (r : Nat) : UInt64 := s.heap.getD r 0

/-- The value stored under the key (0 when it is absent). -/
def St.counter (s : St) : Nat := match s.cur with
  | none => 0
  | some r => (s.elem r).toNat

def St.goto (s : St) (i : Nat) (p : Pc) : St := { s with pcs := s.pcs.set i p }

/-- Every instance has returned. -/
def AllDone (s : St) : Prop := ∀ p ∈ s.pcs, p = .done

instance (s : St) : Decidable (AllDone s) := inferInstanceAs (Decidable (∀ p ∈ s.pcs, p = .done))

/-- Where an instance goes on after its insert. -/
def Discipline.after (D : Discipline) : Pc := if D.relook then .relook else .done

/-- The insert links a new element: the key is absent and there is room, or it
is present and the flag lets the insert replace it. -/
def Discipline.Links (D : Discipline) (s : St) (room : Bool) : Prop :=
  if s.cur.isSome then D.flag ≠ .noExist else D.flag ≠ .exist ∧ room = true

instance (D : Discipline) (s : St) (room : Bool) : Decidable (D.Links s room) :=
  inferInstanceAs (Decidable (ite _ (_ ≠ _) (_ ∧ _)))

/-- A new element in place of any old one. -/
def St.link (s : St) (v : UInt64) : St :=
  { s with heap := s.heap ++ [v], cur := some s.heap.length }

/-- One atomic add to element `r`. -/
def St.bump (s : St) (r : Nat) : St := { s with heap := s.heap.set r (s.elem r + 1) }

/-- The next call of instance `i`. -/
def step (D : Discipline) (s : St) : Nat × Bool → Option St
  | (i, room) =>
    match s.pcs[i]? with
    | some .look => match s.cur with
      | none => some (s.goto i .insert)
      | some r => some (s.goto i (.add r))
    | some .insert =>
      if D.Links s room then some ((s.link D.first).goto i D.after) else some (s.goto i D.after)
    | some .relook => match s.cur with
      | none => some (s.goto i .done)
      | some r => some (s.goto i (.add r))
    | some (.add r) => some ((s.bump r).goto i .done)
    | some .done => none
    | none => none

/-- What a step can do. -/
inductive Moves (D : Discipline) (s : St) (i : Nat) (room : Bool) : St → Prop where
  | absent : s.pcs[i]? = some .look → s.cur = none → Moves D s i room (s.goto i .insert)
  | found {r : Nat} : s.pcs[i]? = some .look → s.cur = some r →
      Moves D s i room (s.goto i (.add r))
  | linked : s.pcs[i]? = some .insert → D.Links s room →
      Moves D s i room ((s.link D.first).goto i D.after)
  | refused : s.pcs[i]? = some .insert → ¬ D.Links s room → Moves D s i room (s.goto i D.after)
  | gone : s.pcs[i]? = some .relook → s.cur = none → Moves D s i room (s.goto i .done)
  | again {r : Nat} : s.pcs[i]? = some .relook → s.cur = some r →
      Moves D s i room (s.goto i (.add r))
  | added {r : Nat} : s.pcs[i]? = some (.add r) →
      Moves D s i room ((s.bump r).goto i .done)

theorem moves_of_step {D : Discipline} {s s' : St} {i : Nat} {room : Bool}
    (h : step D s (i, room) = some s') : Moves D s i room s' := by
  simp only [step] at h
  cases hp : s.pcs[i]? with
  | none => simp [hp] at h
  | some p =>
    cases p <;> simp only [hp] at h
    · cases hc : s.cur <;> simp only [hc, Option.some.injEq] at h <;> subst h
      · exact .absent hp hc
      · exact .found hp hc
    · split at h <;> cases h
      · exact .linked hp ‹_›
      · exact .refused hp ‹_›
    · cases hc : s.cur <;> simp only [hc, Option.some.injEq] at h <;> subst h
      · exact .gone hp hc
      · exact .again hp hc
    · cases h; exact .added hp
    · cases h

/-! ## Credit -/

/-- On the way to an element. -/
def Pc.waiting : Pc → Bool
  | .look | .insert | .relook => true
  | _ => false

def St.waiting (s : St) : Nat := s.pcs.countP Pc.waiting

/-- Instances that hold the element now in the map. -/
def St.holders (s : St) : Nat := match s.cur with
  | none => 0
  | some r => s.pcs.count (.add r)

def credit (s : St) : Nat := s.counter + s.waiting + s.holders

/-- The step loses no event. -/
def Keeps (D : Discipline) (s : St) : Nat × Bool → Prop
  | (i, room) =>
    (s.pcs[i]? = some .insert →
      if D.Links s room then ∀ r, s.cur = some r → s.elem r = 0 ∧ .add r ∉ s.pcs
      else D.relook = true) ∧
    (s.pcs[i]? = some .relook → s.cur ≠ none)

/-- The insert itself counts one event, or the add behind it does. -/
structure Discipline.Wf (D : Discipline) : Prop where
  one : D.first.toNat + (if D.relook then 1 else 0) = 1
  flag : D.flag ≠ .exist

structure Inv (D : Discipline) (n : Nat) (s : St) : Prop where
  held : ∀ r, .add r ∈ s.pcs → r < s.heap.length
  linked : ∀ r, s.cur = some r → r < s.heap.length
  first_le : ∀ r, s.cur = some r → D.first ≤ s.elem r
  relook : D.relook = false → .relook ∉ s.pcs
  credit_le : credit s ≤ n

theorem waiting_goto {s : St} {i : Nat} {p q : Pc} (h : s.pcs[i]? = some q) :
    (s.goto i p).waiting + (if q.waiting then 1 else 0) = s.waiting + if p.waiting then 1 else 0 := by
  obtain ⟨hi, hq⟩ := List.getElem?_eq_some_iff.mp h
  have hpos : q.waiting = true → 0 < s.pcs.countP Pc.waiting := fun hw =>
    List.countP_pos_iff.mpr ⟨q, List.mem_of_getElem? h, hw⟩
  simp only [St.waiting, St.goto, List.countP_set hi, hq]
  split
  · have := hpos ‹_›; omega
  · omega

theorem count_goto {s : St} {i : Nat} {p q : Pc} (h : s.pcs[i]? = some q) (x : Pc) :
    (s.goto i p).pcs.count x + (if q = x then 1 else 0) =
      s.pcs.count x + if p = x then 1 else 0 := by
  obtain ⟨hi, hq⟩ := List.getElem?_eq_some_iff.mp h
  have hpos : q = x → 0 < s.pcs.count x := fun hw =>
    List.count_pos_iff.mpr (hw ▸ List.mem_of_getElem? h)
  simp only [St.goto, List.count_set hi, hq, beq_iff_eq]
  by_cases hqx : q = x
  · have := hpos hqx; simp only [hqx, if_true]; omega
  · simp only [hqx, if_false]; omega

theorem mem_goto {s : St} {i : Nat} {p x : Pc} (h : x ∈ (s.goto i p).pcs) : x ∈ s.pcs ∨ x = p :=
  List.mem_or_eq_of_mem_set h

theorem elem_append {s : St} {v : UInt64} : (s.link v).elem s.heap.length = v := by
  simp [St.elem, St.link]

theorem elem_bump {s : St} {r : Nat} (hr : r < s.heap.length) (x : Nat) :
    (s.bump r).elem x = if x = r then s.elem r + 1 else s.elem x := by
  show (s.heap.set r (s.elem r + 1)).getD x 0 = _
  rw [List.getD_eq_getElem?_getD, List.getElem?_set]
  by_cases h : r = x
  · subst h; simp [hr]
  · rw [if_neg h, if_neg (fun e => h e.symm)]; exact (List.getD_eq_getElem?_getD ..).symm

theorem counter_eq {s : St} {r : Nat} (h : s.cur = some r) : s.counter = (s.elem r).toNat := by
  rw [St.counter, h]

theorem holders_eq {s : St} {r : Nat} (h : s.cur = some r) :
    s.holders = s.pcs.count (Pc.add r) := by
  rw [St.holders, h]

theorem after_ne_add (D : Discipline) (r : Nat) : D.after ≠ .add r := by
  unfold Discipline.after; split <;> simp

theorem after_waiting (D : Discipline) : D.after.waiting = D.relook := by
  unfold Discipline.after; cases D.relook <;> rfl

section
variable {D : Discipline} {n : Nat} {s : St} {i : Nat} {room : Bool}

/-- Moving on without touching an element. -/
theorem credit_goto {p q : Pc} (h : s.pcs[i]? = some q) :
    credit (s.goto i p) +
        ((if q.waiting then 1 else 0) + if ∃ r, s.cur = some r ∧ q = .add r then 1 else 0) =
      credit s +
        ((if p.waiting then 1 else 0) + if ∃ r, s.cur = some r ∧ p = .add r then 1 else 0) := by
  have hw := waiting_goto (p := p) h
  have hc : (s.goto i p).cur = s.cur := rfl
  have hcnt : (s.goto i p).counter = s.counter := rfl
  cases hcur : s.cur with
  | none =>
    simp only [credit, St.holders, hc, hcur, hcnt, reduceCtorEq, false_and, exists_false, if_false]
    omega
  | some r =>
    have hh := count_goto (p := p) h (Pc.add r)
    simp only [credit, St.holders, hc, hcur, hcnt, Option.some.injEq, exists_eq_left']
    omega

/-- Linking a new element takes the old counter and the old holders away. -/
theorem credit_link (hD : D.Wf) (hI : Inv D n s) (h : s.pcs[i]? = some .insert) :
    credit ((s.link D.first).goto i D.after) + (s.counter + s.holders) = credit s := by
  have hw : ((s.link D.first).goto i D.after).waiting + 1 =
      s.waiting + if D.after.waiting then 1 else 0 := waiting_goto (s := s.link D.first) h
  have hc : ((s.link D.first).goto i D.after).counter = D.first.toNat :=
    congrArg UInt64.toNat elem_append
  have hh : ((s.link D.first).goto i D.after).holders = 0 := by
    show List.count (Pc.add s.heap.length) (s.pcs.set i D.after) = 0
    rw [List.count_eq_zero]
    intro hm
    rcases List.mem_or_eq_of_mem_set hm with hm | he
    · exact absurd (hI.held _ hm) (Nat.lt_irrefl _)
    · exact after_ne_add D _ he.symm
  have hone := hD.one
  rw [after_waiting] at hw
  unfold credit; omega

/-- The counter is below `n < 2^64`, so an add to it does not wrap. -/
theorem toNat_succ (hn : n < 2 ^ 64) (hI : Inv D n s) {r : Nat} (h : s.pcs[i]? = some (.add r))
    (hcur : s.cur = some r) : (s.elem r + 1).toNat = (s.elem r).toNat + 1 := by
  have hpos : 0 < s.pcs.count (Pc.add r) := List.count_pos_iff.mpr (List.mem_of_getElem? h)
  have hle := hI.credit_le
  unfold credit at hle
  rw [counter_eq hcur, holders_eq hcur] at hle
  rw [UInt64.toNat_add, UInt64.toNat_one, Nat.mod_eq_of_lt (by omega)]

/-- An add counts once, on whichever element it lands. -/
theorem credit_add (hn : n < 2 ^ 64) (hI : Inv D n s) {r : Nat} (h : s.pcs[i]? = some (.add r)) :
    credit ((s.bump r).goto i .done) = credit s := by
  have hr := hI.held r (List.mem_of_getElem? h)
  have hw : ((s.bump r).goto i .done).waiting + 0 = s.waiting + 0 :=
    waiting_goto (s := s.bump r) (p := .done) h
  have hle := hI.credit_le
  cases hcur : s.cur with
  | none =>
    have h0 : ∀ u : St, u.cur = none → u.counter = 0 ∧ u.holders = 0 := fun u hu => by
      simp [St.counter, St.holders, hu]
    obtain ⟨h1, h2⟩ := h0 s hcur
    obtain ⟨h3, h4⟩ := h0 ((s.bump r).goto i .done) hcur
    unfold credit; omega
  | some x =>
    have hh := count_goto (s := s.bump r) (p := .done) h (Pc.add x)
    have hcur' : ((s.bump r).goto i .done).cur = some x := hcur
    have he : ((s.bump r).goto i .done).elem x = (s.bump r).elem x := rfl
    have hpcs : (s.bump r).pcs = s.pcs := rfl
    unfold credit at *
    rw [counter_eq hcur, holders_eq hcur] at *
    rw [counter_eq hcur', holders_eq hcur', he, elem_bump hr]
    rw [hpcs] at hh
    by_cases hx : x = r
    · subst hx
      have hpos : 0 < s.pcs.count (Pc.add x) := List.count_pos_iff.mpr (List.mem_of_getElem? h)
      simp only [if_true, reduceCtorEq, if_false] at hh ⊢
      rw [toNat_succ hn hI h hcur]
      omega
    · have hne : Pc.add r ≠ Pc.add x := by simpa using fun e => hx e.symm
      simp only [if_neg hx, if_neg hne, reduceCtorEq, if_false] at hh ⊢
      omega

/-- **One step.** No step raises the credit; it stays exactly under `Keeps`. -/
theorem credit_step (hD : D.Wf) (hn : n < 2 ^ 64) (hI : Inv D n s) {s' : St}
    (h : step D s (i, room) = some s') :
    credit s' ≤ credit s ∧ (credit s' = credit s ↔ Keeps D s (i, room)) := by
  unfold Keeps
  cases moves_of_step h with
  | absent hp hc =>
    have := credit_goto (p := .insert) hp
    simp [Pc.waiting] at this; simp [hp, this]
  | @found r hp hc =>
    have := credit_goto (p := .add r) hp
    simp [Pc.waiting, hc] at this; simp [hp, this]
  | linked hp hl =>
    have hk := credit_link hD hI hp
    have hzero : s.counter + s.holders = 0 ↔
        ∀ r, s.cur = some r → s.elem r = 0 ∧ .add r ∉ s.pcs := by
      cases hc : s.cur with
      | none => simp [St.counter, St.holders, hc]
      | some r =>
        rw [counter_eq hc, holders_eq hc, Nat.add_eq_zero_iff, List.count_eq_zero]
        simp [← UInt64.toNat_inj]
    simp only [hp, true_implies, if_pos hl, ← hzero, Option.some.injEq, reduceCtorEq,
      false_implies, and_true]
    omega
  | refused hp hl =>
    have hk := credit_goto (p := D.after) hp
    rw [after_waiting] at hk
    simp only [after_ne_add, and_false, exists_false, if_false, Pc.waiting, reduceCtorEq,
      if_true] at hk
    simp only [hp, true_implies, if_neg hl, Option.some.injEq, reduceCtorEq, false_implies,
      and_true]
    cases hr : D.relook <;> simp [hr] at hk ⊢ <;> omega
  | gone hp hc =>
    have hk := credit_goto (p := .done) hp
    simp [Pc.waiting] at hk
    simp only [hp, hc, ne_eq, not_true_eq_false, Option.some.injEq, reduceCtorEq, false_implies,
      true_implies, and_false, iff_false]
    omega
  | @again r hp hc =>
    have := credit_goto (p := .add r) hp
    simp [Pc.waiting, hc] at this; simp [hp, hc, this]
  | added hp => simp [hp, credit_add hn hI hp]

theorem Inv.goto (hI : Inv D n s) {p : Pc}
    (hle : credit (s.goto i p) ≤ n) (hr : ∀ r, p = .add r → r < s.heap.length)
    (hp : D.relook = false → p ≠ .relook) : Inv D n (s.goto i p) where
  held := fun r hm => (mem_goto hm).elim (hI.held r) fun e => hr r e.symm
  linked := hI.linked
  first_le := hI.first_le
  relook := fun hf hm => (mem_goto hm).elim (hI.relook hf) fun e => hp hf e.symm
  credit_le := hle

theorem Inv.link (hI : Inv D n s) (hle : credit ((s.link D.first).goto i D.after) ≤ n) :
    Inv D n ((s.link D.first).goto i D.after) := by
  refine ⟨fun r hr => ?_, fun r hr => ?_, fun r hr => ?_, fun hf hr => ?_, hle⟩
  · rcases List.mem_or_eq_of_mem_set hr with hr | hr
    · have := hI.held r hr
      show r < (s.heap ++ [D.first]).length
      simp; omega
    · exact absurd hr.symm (after_ne_add D r)
  · cases hr; simp [St.link, St.goto]
  · cases hr
    exact (elem_append (s := s) (v := D.first)).symm ▸ UInt64.le_refl _
  · rcases List.mem_or_eq_of_mem_set hr with hr | hr
    · exact hI.relook hf hr
    · simp [Discipline.after, hf] at hr

theorem Inv.bump (hn : n < 2 ^ 64) (hI : Inv D n s) {r : Nat} (hp : s.pcs[i]? = some (.add r))
    (hle : credit ((s.bump r).goto i .done) ≤ n) : Inv D n ((s.bump r).goto i .done) := by
  have hr := hI.held r (List.mem_of_getElem? hp)
  have hlen : (s.bump r).heap.length = s.heap.length := List.length_set
  refine ⟨fun x hx => ?_, fun x hx => ?_, fun x hx => ?_, fun hf hx => ?_, hle⟩
  · rcases List.mem_or_eq_of_mem_set hx with hx | hx
    · exact lt_of_lt_of_eq (hI.held x hx) hlen.symm
    · cases hx
  · exact lt_of_lt_of_eq (hI.linked x hx) hlen.symm
  · have hf := hI.first_le x hx
    show D.first ≤ (s.bump r).elem x
    rw [elem_bump hr]
    split
    · subst x
      rw [UInt64.le_iff_toNat_le] at hf ⊢
      rw [toNat_succ hn hI hp hx]
      omega
    · exact hf
  · rcases List.mem_or_eq_of_mem_set hx with hx | hx
    · exact hI.relook hf hx
    · cases hx

theorem inv_step (hD : D.Wf) (hn : n < 2 ^ 64) (hI : Inv D n s) {s' : St}
    (h : step D s (i, room) = some s') : Inv D n s' := by
  have hle := Nat.le_trans (credit_step hD hn hI h).1 hI.credit_le
  cases moves_of_step h with
  | absent hp hc => exact hI.goto hle (fun r he => by cases he) (fun _ he => by cases he)
  | @found r hp hc =>
    exact hI.goto hle (fun x he => by cases he; exact hI.linked r hc) (fun _ he => by cases he)
  | linked hp hl => exact hI.link hle
  | refused hp hl =>
    refine hI.goto hle (fun r he => absurd he (after_ne_add D r)) fun hf he => ?_
    simp [Discipline.after, hf] at he
  | gone hp hc => exact hI.goto hle (fun r he => by cases he) (fun _ he => by cases he)
  | @again r hp hc =>
    exact hI.goto hle (fun x he => by cases he; exact hI.linked r hc) (fun _ he => by cases he)
  | added hp => exact hI.bump hn hp hle

end

/-! ## Whole runs -/

theorem credit_init (n : Nat) : credit (init n) = n := by
  simp [credit, init, St.counter, St.holders, St.waiting, Pc.waiting, List.countP_replicate]

theorem inv_init (D : Discipline) (n : Nat) : Inv D n (init n) where
  held := fun r h => by cases (List.mem_replicate.mp h).2
  linked := fun r h => by cases h
  first_le := fun r h => by cases h
  relook := fun _ h => by cases (List.mem_replicate.mp h).2
  credit_le := Nat.le_of_eq (credit_init n)

theorem credit_done {s : St} (h : AllDone s) : credit s = s.counter := by
  have hw : s.waiting = 0 := List.countP_eq_zero.mpr fun p hp => by rw [h p hp]; simp [Pc.waiting]
  have hh : s.holders = 0 := by
    unfold St.holders; split
    · rfl
    · exact List.count_eq_zero.mpr fun hm => by cases h _ hm
  unfold credit; omega

theorem counter_lt (s : St) : s.counter < 2 ^ 64 := by
  unfold St.counter; split
  · decide
  · exact UInt64.toNat_lt _

/-- **The counter of a discipline.** After every instance has returned, the
counter is the number of instances exactly when no step lost an event. -/
theorem counter_iff_keeps {D : Discipline} (hD : D.Wf) {n : Nat} (hn : n < 2 ^ 64)
    {ls : List (Nat × Bool)} {t : St} (hx : exec (step D) (init n) ls = some t) (hd : AllDone t) :
    t.counter = n ↔ Along (step D) (Keeps D) (init n) ls := by
  rw [← credit_done hd]
  conv_lhs => rw [← credit_init n]
  exact potential_iff (I := Inv D n) (fun _ _ _ hI h => inv_step hD hn hI h)
    (fun _ _ _ hI h => (credit_step hD hn hI h).1) (fun _ _ _ hI h => (credit_step hD hn hI h).2)
    (inv_init D n) hx

/-! ## The three handlers -/

theorem execve_wf : execve.Wf := ⟨by decide, by decide⟩

theorem enterMmap_wf : enterMmap.Wf := ⟨by decide, by decide⟩

theorem enterRead_wf : enterRead.Wf := ⟨by decide, by decide⟩

/-- An insert finds the key still absent and room for it. -/
def Fresh (s : St) : Nat × Bool → Prop
  | (i, room) => s.pcs[i]? = some .insert → s.cur = none ∧ room = true

instance (s : St) : ∀ l, Decidable (Fresh s l)
  | (i, room) => inferInstanceAs (Decidable (s.pcs[i]? = some .insert → s.cur = none ∧ room = true))

/-- An insert replaces no element that counts or is held, and the second lookup
finds the key. -/
def Spares (s : St) : Nat × Bool → Prop
  | (i, _) =>
    (s.pcs[i]? = some .insert → ∀ r ∈ s.cur, s.elem r = 0 ∧ .add r ∉ s.pcs) ∧
    (s.pcs[i]? = some .relook → s.cur ≠ none)

instance (s : St) : ∀ l, Decidable (Spares s l)
  | (i, _) => inferInstanceAs (Decidable
      ((s.pcs[i]? = some .insert → ∀ r ∈ s.cur, s.elem r = 0 ∧ .add r ∉ s.pcs) ∧
        (s.pcs[i]? = some .relook → s.cur ≠ none)))

/-- Inserting 1 keeps every event exactly when the key is still absent. -/
theorem keeps_iff_fresh {D : Discipline} (h1 : D.first = 1) (hr : D.relook = false)
    (hf : D.flag ≠ .exist) {n : Nat} {s : St} (hI : Inv D n s) (l : Nat × Bool) :
    Keeps D s l ↔ Fresh s l := by
  obtain ⟨i, room⟩ := l
  have hno : s.pcs[i]? ≠ some .relook := fun h => hI.relook hr (List.mem_of_getElem? h)
  simp only [Keeps, Fresh, hno, false_implies, and_true, hr]
  refine imp_congr_right fun _ => ?_
  cases hc : s.cur with
  | none => cases room <;> simp [Discipline.Links, hc, hf]
  | some r =>
    have hne : s.elem r ≠ 0 := by
      have := hI.first_le r hc
      rw [h1, UInt64.le_iff_toNat_le] at this
      intro he; rw [he] at this; exact absurd this (by decide)
    simp [hne]

/-- `handle_execve` looks again after its insert, so it may find it refused. -/
theorem keeps_iff_spares (s : St) (l : Nat × Bool) : Keeps execve s l ↔ Spares s l := by
  obtain ⟨i, room⟩ := l
  simp only [Keeps, Spares]
  refine and_congr_left fun _ => imp_congr_right fun _ => ?_
  cases hc : s.cur with
  | none => simp [execve]
  | some r => simp [Discipline.Links, hc, execve]

theorem counter_iff {D : Discipline} (hD : D.Wf) {C : St → Nat × Bool → Prop}
    (hC : ∀ n s l, Inv D n s → (Keeps D s l ↔ C s l)) {n : Nat} {ls : List (Nat × Bool)} {t : St}
    (hx : exec (step D) (init n) ls = some t) (hd : AllDone t) :
    t.counter = n ↔ n < 2 ^ 64 ∧ Along (step D) C (init n) ls := by
  by_cases hn : n < 2 ^ 64
  · rw [counter_iff_keeps hD hn hx hd, and_iff_right hn]
    exact along_congr (I := Inv D n) (fun _ _ _ hI h => inv_step hD hn hI h)
      (fun s l _ hI _ => hC n s l hI) (inv_init D n) hx
  · have := counter_lt t
    exact ⟨fun h => by omega, fun h => absurd h.1 hn⟩

/-- **First insert.** `n` instances of a handler run on one absent key, in any
interleaving. The counter ends at `n` exactly when (`n` fits it and) for
`handle_enter_read` and `handle_enter_mmap` every insert finds the key still
absent and room for it, and for `handle_execve` no insert replaces an element
that counts or is held and every second lookup finds the key. -/
theorem firstInsert_iff (n : Nat) (ls : List (Nat × Bool)) (t : St) :
    (exec (step enterRead) (init n) ls = some t → AllDone t →
      (t.counter = n ↔ n < 2 ^ 64 ∧ Along (step enterRead) Fresh (init n) ls)) ∧
    (exec (step enterMmap) (init n) ls = some t → AllDone t →
      (t.counter = n ↔ n < 2 ^ 64 ∧ Along (step enterMmap) Fresh (init n) ls)) ∧
    (exec (step execve) (init n) ls = some t → AllDone t →
      (t.counter = n ↔ n < 2 ^ 64 ∧ Along (step execve) Spares (init n) ls)) := by
  refine ⟨fun hx hd => ?_, fun hx hd => ?_, fun hx hd => ?_⟩
  · exact counter_iff enterRead_wf (fun _ _ l hI => keeps_iff_fresh rfl rfl (by decide) hI l) hx hd
  · exact counter_iff enterMmap_wf (fun _ _ l hI => keeps_iff_fresh rfl rfl (by decide) hI l) hx hd
  · exact counter_iff execve_wf (fun _ s l _ => keeps_iff_spares s l) hx hd

/-- Instance 0 inserts before the others look; they add to its element, one inside the
other. -/
def found : List (Nat × Bool) :=
  [(0, true), (0, true), (1, true), (2, true), (2, true), (1, true)]

/-- Instances 0 and 1 both find the key absent and insert; both then add to the second
element, and instance 2 in between. -/
def inserted : List (Nat × Bool) :=
  [(0, true), (1, true), (0, true), (1, true), (0, true), (2, true), (1, true), (0, true),
    (2, true), (1, true)]

theorem firstInsert_overlapping :
    (∃ t, exec (step enterRead) (init 3) found = some t ∧ t.counter = 3) ∧
    (∃ t, exec (step enterMmap) (init 3) found = some t ∧ t.counter = 3) ∧
    (∃ t, exec (step execve) (init 3) inserted = some t ∧ t.counter = 3) :=
  ⟨⟨_, rfl, ((firstInsert_iff 3 found _).1 rfl (by decide)).mpr (by decide)⟩,
    ⟨_, rfl, ((firstInsert_iff 3 found _).2.1 rfl (by decide)).mpr (by decide)⟩,
    ⟨_, rfl, ((firstInsert_iff 3 inserted _).2.2 rfl (by decide)).mpr (by decide)⟩⟩

/-- Two instances that both found the key absent: every handler counts one of
the two events. -/
theorem firstInsert_races :
    (∃ ls t, exec (step enterRead) (init 2) ls = some t ∧ AllDone t ∧ t.counter ≠ 2) ∧
    (∃ ls t, exec (step enterMmap) (init 2) ls = some t ∧ AllDone t ∧ t.counter ≠ 2) ∧
    (∃ ls t, exec (step execve) (init 2) ls = some t ∧ AllDone t ∧ t.counter ≠ 2) :=
  ⟨⟨[(0, true), (1, true), (0, true), (1, true)], _, rfl, by decide, by decide⟩,
    ⟨[(0, true), (1, true), (0, true), (1, true)], _, rfl, by decide, by decide⟩,
    ⟨[(0, true), (1, true), (0, true), (0, true), (0, true), (1, true), (1, true), (1, true)], _,
      rfl, by decide, by decide⟩⟩

/-! ## One instance alone -/

/-- One instance before its first call, with `v` stored under the key. -/
def alone : Option UInt64 → St
  | none => ⟨[], none, [.look]⟩
  | some v => ⟨[v], some 0, [.look]⟩

/-- What a lookup of the key returns. -/
def St.value (s : St) : Option UInt64 := s.cur.map s.elem

/-- The single instance runs to its end in `k` calls and leaves `v`. -/
def Runs (D : Discipline) (room : Bool) (s : St) (v : Option UInt64) : Prop :=
  ∃ k t, exec (step D) s (List.replicate k (0, room)) = some t ∧ AllDone t ∧ t.value = v

theorem runs_present (D : Discipline) (room : Bool) (v : UInt64) :
    Runs D room (alone (some v)) (some (v + 1)) :=
  ⟨2, ⟨[v + 1], some 0, [.done]⟩, rfl, by simp [AllDone], rfl⟩

/-- Without a second lookup: the insert decides. -/
theorem runs_absent {D : Discipline} (hr : D.relook = false) (hf : D.flag ≠ .exist) (room : Bool) :
    Runs D room (alone none) (if room then some D.first else none) := by
  have ha : D.after = .done := by rw [Discipline.after, hr]; rfl
  cases room with
  | true =>
    refine ⟨2, ⟨[D.first], some 0, [.done]⟩, ?_, by simp [AllDone], rfl⟩
    simp [List.replicate, exec, step, alone, St.goto, St.link, Discipline.Links, hf, ha]
  | false =>
    refine ⟨2, ⟨[], none, [.done]⟩, ?_, by simp [AllDone], rfl⟩
    simp [List.replicate, exec, step, alone, St.goto, Discipline.Links, ha]

/-- **Undisturbed, an instance is its handler's one step**: what it leaves
under the key is what the handler of `L2Kernel.Counters` leaves there. -/
theorem alone_countEvent {K : Type} [DecidableEq K] {D : Discipline} (hr : D.relook = false)
    (hf : D.flag ≠ .exist) (m : HashMap K UInt64) (k : K) :
    Runs D (decide ¬ m.Full) (alone (m.lookupElem k))
      ((countEvent (· + 1) D.first D.flag m k).lookupElem k) := by
  rw [lookupElem_countEvent hf, if_pos rfl]
  cases m.lookupElem k with
  | some v => exact runs_present D _ v
  | none =>
    have := runs_absent hr hf (decide ¬ m.Full)
    by_cases hfull : m.Full <;> simpa [hfull] using this

theorem alone_enterRead (m : HashMap UInt32 UInt64) (pid : UInt32) :
    Runs enterRead (decide ¬ m.Full) (alone (m.lookupElem pid))
      ((handleEnterRead m pid).lookupElem pid) := alone_countEvent rfl (by decide) m pid

theorem alone_enterMmap (m : HashMap UInt32 UInt64) (pid : UInt32) :
    Runs enterMmap (decide ¬ m.Full) (alone (m.lookupElem pid))
      ((handleEnterMmap m pid).lookupElem pid) := alone_countEvent rfl (by decide) m pid

theorem alone_execve (m : HashMap Comm MyIrqInfo) (comm : Comm) :
    Runs execve (decide ¬ m.Full) (alone ((m.lookupElem comm).map (·.count)))
      (((handleExecve m comm).lookupElem comm).map (·.count)) := by
  cases h : m.lookupElem comm with
  | some v =>
    rw [handleExecve_present (HashMap.mem_keys_of_lookup h), HashMap.lookupElem_modifyElem,
      if_pos rfl, h]
    exact runs_present execve _ v.count
  | none =>
    have hk := HashMap.lookupElem_eq_none.mp h
    by_cases hfull : m.Full
    · rw [handleExecve_refused hk hfull, h]
      simp only [hfull, not_true_eq_false, decide_false]
      exact ⟨3, _, rfl, by decide, rfl⟩
    · rw [handleExecve_absent hk hfull, HashMap.lookupElem_modifyElem, if_pos rfl,
        HashMap.lookupElem_put_self]
      simp only [hfull, not_false_eq_true, decide_true]
      exact ⟨4, _, rfl, by decide, rfl⟩

end EbpfDemo.L5Concurrency.FirstInsert
