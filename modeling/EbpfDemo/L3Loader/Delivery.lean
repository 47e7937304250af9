import EbpfDemo.Core.Buffered
import EbpfDemo.L3Loader.Reports

/-!
# Output and SIGTERM

stdout of a loader is a pipe, so it is fully buffered: what is printed reaches
the client when the buffer is full and more is printed, at `fflush` or at a normal exit.
`Poller`
holds what matters of a loader here: the row of an entry, whether it calls
`fflush(stdout)` behind its walk, and whether SIGTERM ends its main loop
(`signal(SIGTERM, sig_handler)`) or the process. `write_stat` and `mmap_stat` do
neither, `read_stat` flushes.

* `survives_of_flushes`: with one of the two everything printed is delivered, so
  that `read_stat` loses nothing;
* `delivery_iff`: `write_stat` and `mmap_stat` deliver the output of their
  completed polls exactly when there is none: no poll read an entry.
-/
namespace EbpfDemo.L3Loader

open EbpfDemo.Core EbpfDemo.L1Encoding

structure Poller where
  row : UInt32 → UInt64 → Row
  flushes : Bool
  handles : Bool

def mmapCallsKey (pid : UInt32) : Key :=
  .numbered (str "mmap_calls_pid_") [] pid.toNat ⟨by decide, by decide, by decide, pid_lt pid⟩

def readKey (pid : UInt32) : Key :=
  .numbered (str "PID_") [] pid.toNat ⟨by decide, by decide, by decide, pid_lt pid⟩

/-- mirrors src/my_tools/file/write_stat.c:31-49 -/
def writeStatPoller : Poller where
  row := writeRow
  flushes := false
  handles := false

/-- mirrors src/my_tools/memo/mmap_stat.c:31-58 -/
def mmapStatPoller : Poller where
  row pid value := ⟨mmapCallsKey pid, .llu value.toNat⟩
  flushes := false
  handles := false

/-- mirrors src/my_tools/file/read_stat.c:44-70 -/
def readStatPoller : Poller where
  row pid value := ⟨readKey pid, .llu value.toNat⟩
  flushes := true
  handles := false

/-- What a poll prints of the entries it walked. -/
def Poller.text (T : Poller) (entries : List (UInt32 × UInt64)) : List UInt8 :=
  printed (entries.map fun e => T.row e.1 e.2)

namespace Delivery

inductive Phase where
  | polling | asleep | ended
  deriving DecidableEq

/-- stdout, where the loader stands, and all it printed in completed polls. -/
structure State (size : Nat) where
  out : Buffered UInt8 size
  phase : Phase
  text : List UInt8

inductive Label where
  | poll (entries : List (UInt32 × UInt64))
  | wake
  | sigterm

variable {size : Nat}

def start (h : 0 < size) : State size := ⟨.empty h, .polling, []⟩

/-- A handler ends the loop and so the process, with a normal exit. -/
def step (T : Poller) (s : State size) : Label → Option (State size)
  | .poll entries =>
    if s.phase = .polling then
      let out := s.out.write (T.text entries)
      some { out := if T.flushes then out.flush else out
             phase := .asleep
             text := s.text ++ T.text entries }
    else none
  | .wake => if s.phase = .asleep then some { s with phase := .polling } else none
  | .sigterm =>
    if s.phase = .asleep then
      some { s with out := if T.handles then s.out.flush else s.out, phase := .ended }
    else none

/-- Everything printed in completed polls was delivered. -/
def Survives (s : State size) : Prop := s.out.delivered = s.text

/-- Polls and sleeps, the last sleep cut short by SIGTERM. -/
def session (polls : List (List (UInt32 × UInt64))) (last : List (UInt32 × UInt64)) : List Label :=
  (polls.flatMap fun entries => [.poll entries, .wake]) ++ [.poll last, .sigterm]

variable {T : Poller}

theorem step_poll {s : State size} (h : s.phase = .polling) (entries : List (UInt32 × UInt64)) :
    step T s (.poll entries) = some
      { out := if T.flushes then (s.out.write (T.text entries)).flush
          else s.out.write (T.text entries)
        phase := .asleep
        text := s.text ++ T.text entries } := if_pos h

/-- The stream holds what was printed. -/
def Inv (s : State size) : Prop := s.out.written = s.text

theorem inv_step (s : State size) (l : Label) (s' : State size) (hI : Inv s)
    (h : step T s l = some s') : Inv s' := by
  cases l with
  | poll entries =>
    simp only [step] at h
    split at h
    · cases h
      have hw : (s.out.write (T.text entries)).written = s.text ++ T.text entries := by
        rw [Buffered.written_write, hI]
      unfold Inv
      dsimp only
      split
      · rw [Buffered.written_flush, hw]
      · exact hw
    · cases h
  | wake =>
    simp only [step] at h
    split at h
    · cases h; exact hI
    · cases h
  | sigterm =>
    simp only [step] at h
    split at h
    · cases h
      unfold Inv
      dsimp only
      split
      · rw [Buffered.written_flush]; exact hI
      · exact hI
    · cases h

/-- Nothing is lost that a flush or a handler would save. -/
structure Safe (T : Poller) (s : State size) : Prop where
  inv : Inv s
  flushed : T.flushes = true → Survives s
  ended : s.phase = .ended → Survives s

theorem safe_step (hT : T.flushes = true ∨ T.handles = true) (s : State size) (l : Label)
    (s' : State size) (hS : Safe T s) (h : step T s l = some s') : Safe T s' := by
  have hI := inv_step s l s' hS.inv h
  cases l with
  | poll entries =>
    simp only [step] at h
    split at h
    · cases h
      refine ⟨hI, fun hf => ?_, fun hend => (by cases hend)⟩
      unfold Survives
      dsimp only
      rw [if_pos hf, Buffered.delivered_flush, Buffered.written_write, hS.inv]
    · cases h
  | wake =>
    simp only [step] at h
    split at h
    · cases h
      exact ⟨hI, hS.flushed, fun hend => (by cases hend)⟩
    · cases h
  | sigterm =>
    simp only [step] at h
    split at h
    · cases h
      have hend : Survives { s with
          out := if T.handles then s.out.flush else s.out
          phase := Phase.ended } := by
        unfold Survives
        dsimp only
        by_cases hh : T.handles = true
        · rw [if_pos hh]; exact hS.inv
        · rw [if_neg hh]; exact hS.flushed (hT.resolve_right hh)
      exact ⟨hI, fun _ => hend, fun _ => hend⟩
    · cases h

/-- With `fflush` behind the walk, or with a handler, nothing is lost. -/
theorem survives_of_flushes (hT : T.flushes = true ∨ T.handles = true) (hsize : 0 < size)
    {ls : List Label} {t : State size} (hx : exec (step T) (start hsize) ls = some t)
    (hend : t.phase = .ended) : Survives t := by
  have h0 : Safe T (start hsize) := ⟨rfl, fun _ => rfl, fun h => (by cases h)⟩
  exact (inv_exec (safe_step hT) h0 hx).ended hend

/-- `read_stat` -/
example (hsize : 0 < size) {ls : List Label} {t : State size}
    (hx : exec (step readStatPoller) (start hsize) ls = some t) (hend : t.phase = .ended) :
    Survives t := survives_of_flushes (.inl rfl) hsize hx hend

/-- All that a session prints. -/
def textOf (T : Poller) (polls : List (List (UInt32 × UInt64))) (last : List (UInt32 × UInt64)) :
    List UInt8 := polls.flatMap T.text ++ T.text last

/-- A poll that read an entry printed something. -/
theorem text_eq_nil (T : Poller) (entries : List (UInt32 × UInt64)) :
    T.text entries = [] ↔ entries = [] := by
  rw [Poller.text, printed, bytes, List.map_eq_nil_iff, List.flatMap_eq_nil_iff]
  constructor
  · intro h
    cases entries with
    | nil => rfl
    | cons e entries =>
      have hrow := h (T.row e.1 e.2) List.mem_cons_self
      exact absurd hrow (List.append_ne_nil_of_right_ne_nil _ (List.cons_ne_nil _ []))
  · rintro rfl _ h
    cases h

theorem textOf_eq_nil (T : Poller) (polls : List (List (UInt32 × UInt64)))
    (last : List (UInt32 × UInt64)) :
    textOf T polls last = [] ↔ (∀ entries ∈ polls, entries = []) ∧ last = [] := by
  simp only [textOf, List.append_eq_nil_iff, List.flatMap_eq_nil_iff, text_eq_nil]

/-- A session runs to its end; without a flush its last byte is still in the buffer. -/
theorem exec_session (hf : T.flushes = false) (hh : T.handles = false)
    (last : List (UInt32 × UInt64)) (polls : List (List (UInt32 × UInt64))) (s : State size)
    (hs : s.phase = .polling) (hI : Inv s) (hw : s.out.Lagging) :
    ∃ t, exec (step T) s (session polls last) = some t ∧ t.text = s.text ++ textOf T polls last ∧
      Inv t ∧ t.out.Lagging := by
  induction polls generalizing s with
  | nil =>
    have h1 := step_poll (T := T) hs last
    rw [hf, if_neg Bool.false_ne_true] at h1
    refine ⟨{ out := s.out.write (T.text last), phase := .ended, text := s.text ++ T.text last },
      ?_, rfl, ?_, Buffered.lagging_write hw _⟩
    · show exec (step T) s [.poll last, .sigterm] = _
      simp only [exec, h1, Option.bind_some]
      simp [step, hh]
    · show (s.out.write (T.text last)).written = _
      rw [Buffered.written_write, hI]
  | cons entries polls ih =>
    have h1 := step_poll (T := T) hs entries
    rw [hf, if_neg Bool.false_ne_true] at h1
    have hI1 : Inv
        (⟨s.out.write (T.text entries), .polling, s.text ++ T.text entries⟩ : State size) := by
      show (s.out.write (T.text entries)).written = _
      rw [Buffered.written_write, hI]
    obtain ⟨t, hx, ht, hIt, hwt⟩ := ih
      ⟨s.out.write (T.text entries), .polling, s.text ++ T.text entries⟩ rfl hI1
      (Buffered.lagging_write hw _)
    refine ⟨t, ?_, ?_, hIt, hwt⟩
    · show exec (step T) s (.poll entries :: .wake :: session polls last) = some t
      rw [exec_cons, h1, Option.bind_some, exec_cons]
      exact hx
    · rw [ht, textOf, textOf, List.flatMap_cons, List.append_assoc, List.append_assoc]

/-- **One session** of a loader that does neither. -/
theorem session_iff (hf : T.flushes = false) (hh : T.handles = false) (hsize : 0 < size)
    (polls : List (List (UInt32 × UInt64))) (last : List (UInt32 × UInt64)) :
    ∃ t, exec (step T) (start hsize) (session polls last) = some t ∧
      (Survives t ↔ (∀ entries ∈ polls, entries = []) ∧ last = []) := by
  obtain ⟨t, hx, ht, hI, hw⟩ := exec_session hf hh last polls (start hsize) rfl rfl fun _ => rfl
  have ht : t.text = textOf T polls last := ht
  have hI : t.out.written = t.text := hI
  refine ⟨t, hx, ?_⟩
  unfold Survives
  rw [← textOf_eq_nil T, ← ht, ← hI]
  exact Buffered.delivered_iff hw

/-- **Delivery.** Any number of polls of any size, then SIGTERM during the sleep:
`write_stat` and `mmap_stat` have delivered what they printed exactly when no poll read
an entry. -/
theorem delivery_iff {size : Nat} (hsize : 0 < size) (polls : List (List (UInt32 × UInt64)))
    (last : List (UInt32 × UInt64)) :
    (∃ w, exec (step writeStatPoller) (start hsize) (session polls last) = some w ∧
      (Survives w ↔ (∀ entries ∈ polls, entries = []) ∧ last = [])) ∧
    ∃ m, exec (step mmapStatPoller) (start hsize) (session polls last) = some m ∧
      (Survives m ↔ (∀ entries ∈ polls, entries = []) ∧ last = []) :=
  ⟨session_iff rfl rfl hsize polls last, session_iff rfl rfl hsize polls last⟩

/-- The buffer of a pipe has 4096 bytes. -/
def startPipe : State 4096 := start (by decide)

/-- Three polls read nothing: nothing is lost. A fourth reads one PID: its row is. -/
theorem delivery_empty :
    (∃ w, exec (step writeStatPoller) startPipe (session [[], []] []) = some w ∧ Survives w) ∧
    ∃ w, exec (step writeStatPoller) startPipe (session [[], [], []] [(5, 1)]) = some w ∧
      ¬ Survives w := by
  have hsize : 0 < 4096 := by decide
  obtain ⟨w, hw, hiff⟩ := (delivery_iff hsize [[], []] []).1
  obtain ⟨w', hw', hiff'⟩ := (delivery_iff hsize [[], [], []] [(5, 1)]).1
  exact ⟨⟨w, hw, hiff.mpr (by decide)⟩, w', hw', fun h => absurd (hiff'.mp h).2 (by decide)⟩

/-- **Counterexample.** One poll prints one row; SIGTERM during the sleep behind
it: nothing was delivered. -/
theorem delivery_nothing :
    (exec (step writeStatPoller) startPipe (session [] [(5, 1)])).map
      (fun w => (w.out.delivered, w.text)) = some ([], bytes (str "write_calls_pid_5: 1\n")) ∧
    (exec (step mmapStatPoller) startPipe (session [] [(5, 1)])).map
      (fun m => (m.out.delivered, m.text)) = some ([], bytes (str "mmap_calls_pid_5: 1\n")) ∧
    ¬ ∀ w, exec (step writeStatPoller) startPipe (session [] [(5, 1)]) =
      some w → Survives w := by
  have hw : (exec (step writeStatPoller) startPipe (session [] [(5, 1)])).map
      (fun w => (w.out.delivered, w.text)) = some ([], bytes (str "write_calls_pid_5: 1\n")) := by
    decide +kernel
  refine ⟨hw, by decide +kernel, fun h => ?_⟩
  obtain ⟨w, hx, hv⟩ := Option.map_eq_some_iff.mp hw
  obtain ⟨h1, h2⟩ := Prod.mk.inj hv
  have hs : w.out.delivered = w.text := h w hx
  rw [h1, h2] at hs
  revert hs
  decide

end Delivery
end EbpfDemo.L3Loader
