import EbpfDemo.Core.LineReader
import EbpfDemo.L4Client.Truncation

/-!
# What the child writes and what ends the read loop

`process.stdout` is a stream reader with the default limit: `readline` raises a
`ValueError` on a line of more than 64 KiB, far below the 2 MiB at which the loop
truncates. `ReadLoop` puts the reader in front of one run: the child writes its
output in chunks of any size and closes the pipe, `readline` returns or raises
what the bytes that have arrived say, and a timeout may come instead at any time
and loses nothing. No other `await` of the run raises.

The loop has three reasons to end (`Ends`): the output is over, the deadline is
reached, or the client has gone.

* `readLoop_iff`: over all runs on an output the loop ends for one of these
  reasons exactly when no line of the output is longer than the limit.
* `readLoop_longLine`: one line of 65,537 bytes ends the run with an error event.
-/
namespace EbpfDemo.L4Client

open EbpfDemo.Core EbpfDemo.L1Encoding
open Solo (signals)

variable {Tool Summary : Type}

/-- The default limit of the streams of `asyncio.create_subprocess_exec`. -/
def STREAM_LIMIT : Nat := 64 * 1024

def newline : UInt8 := 10

/-- `str(error)` of the `ValueError` of `readline`. -/
def limitError (found : Bool) : Str :=
  if found then str "Separator is found, but chunk is longer than limit"
  else str "Separator is not found, and chunk exceed the limit"

/-- No line of the output, its line feed aside, is longer than the limit. -/
def ShortLines (out : List UInt8) : Prop := Short newline STREAM_LIMIT out

/-- A run, what has arrived of the child's output and was not read, whether the
pipe is closed, and what the child has still to write. -/
structure ReadLoop (Tool Summary : Type) where
  solo : Solo Tool Summary
  buffer : List UInt8
  eof : Bool
  unwritten : List UInt8

namespace ReadLoop

inductive Label where
  | write (n : Nat)
  | close
  | readline (env : Env)
  | turn (t : Turn)

end ReadLoop

/-- What a turn of the run itself may be: lines and the exception of `readline`
come from the reader. -/
def Turn.apart : Turn → Bool
  | .resume (.readLine _) _ | .resume (.raised _) _ => false
  | _ => true

namespace ReadLoop

def gen (s : ReadLoop Tool Summary) : Gen Tool Summary := s.solo.gen

def looping (s : ReadLoop Tool Summary) : Bool := s.gen.pc.looping

/-- `process.stdout.readline()` -/
def readline (s : ReadLoop Tool Summary) : Readline UInt8 :=
  Core.readline newline STREAM_LIMIT s.buffer s.eof

/-- A new request whose tool writes `out`. -/
def start (a : App Tool) (t : Tool) (d : ℚ) (out : List UInt8) : ReadLoop Tool Summary :=
  ⟨⟨a, .new t d⟩, [], false, out⟩

variable [DecidableEq Tool]

/-- mirrors src/client/main.py:241-264 -/
def step (host : Host Tool Summary) (s : ReadLoop Tool Summary) :
    Label → Option (ReadLoop Tool Summary)
  | .write n =>
    if s.gen.child.isSome ∧ s.eof = false then
      some { s with buffer := s.buffer ++ s.unwritten.take n, unwritten := s.unwritten.drop n }
    else none
  | .close => if s.gen.child.isSome ∧ s.unwritten = [] then some { s with eof := true } else none
  | .readline env => match s.readline with
    | .line bytes rest =>
      (Solo.step host s.solo (.resume (.readLine bytes) env)).map fun x =>
        { s with solo := x, buffer := rest }
    | .overrun found rest =>
      if s.gen.pc = .reading then
        (Solo.step host s.solo (.resume (.raised (limitError found)) env)).map fun x =>
          { s with solo := x, buffer := rest }
      else none
    | .wait => none
  | .turn t =>
    if t.apart then (Solo.step host s.solo t).map fun x => { s with solo := x } else none

/-- The reasons the loop has to end: the output is over, the deadline, or the
client has gone. -/
def Ends (s : ReadLoop Tool Summary) : Label → Prop
  | .readline _ => ∃ rest, s.readline = .line [] rest
  | .turn (.resume r env) => limitReached s.gen r env = true ∨ r = .disconnected true ∨
      r = .cancel ∨ r = .close
  | _ => False

/-- A step that leaves the loop has a reason to. -/
def Orderly (host : Host Tool Summary) (s : ReadLoop Tool Summary) (l : Label) : Prop :=
  ∀ s', step host s l = some s' → s.looping = true → s'.looping = false → Ends s l

variable {host : Host Tool Summary} {s s' : ReadLoop Tool Summary}

/-! ## Short lines -/

/-- Nothing that is still to be read has a line that is too long. -/
def Inv (s : ReadLoop Tool Summary) : Prop := ShortLines (s.buffer ++ s.unwritten)

omit [DecidableEq Tool] in
theorem inv_rest (hI : s.Inv) {bytes rest : List UInt8} (h : s.readline = .line bytes rest) :
    ShortLines (rest ++ s.unwritten) := by
  refine Short.of_infix hI (List.IsSuffix.isInfix ⟨bytes, ?_⟩)
  rw [readline_append h, List.append_assoc]

omit [DecidableEq Tool] in
theorem not_overrun (hI : s.Inv) (found : Bool) (rest : List UInt8) :
    s.readline ≠ .overrun found rest :=
  Core.not_overrun (Short.of_infix hI (List.prefix_append _ _).isInfix) found rest

theorem inv_step (s : ReadLoop Tool Summary) (l : Label) (s' : ReadLoop Tool Summary) (hI : s.Inv)
    (h : step host s l = some s') : s'.Inv := by
  cases l with
  | write n =>
    simp only [step] at h
    split at h
    · cases h
      unfold Inv
      rw [List.append_assoc, List.take_append_drop]; exact hI
    · cases h
  | close =>
    simp only [step] at h
    split at h
    · cases h; exact hI
    · cases h
  | readline env =>
    simp only [step] at h
    cases hr : s.readline with
    | line bytes rest =>
      rw [hr] at h
      obtain ⟨x, -, rfl⟩ := Option.map_eq_some_iff.mp h
      exact inv_rest hI hr
    | overrun found rest => exact absurd hr (not_overrun hI found rest)
    | wait => rw [hr] at h; cases h
  | turn t =>
    simp only [step] at h
    split at h
    · obtain ⟨x, -, rfl⟩ := Option.map_eq_some_iff.mp h; exact hI
    · cases h

omit [DecidableEq Tool] in
theorem accept_goesOn (g : Gen Tool Summary) (bytes : List UInt8) :
    (accept g bytes).duration = g.duration ∧
      ((accept g bytes).pc = .lineYield ∨ (accept g bytes).pc = .polling) := by
  unfold accept
  split
  · exact ⟨rfl, .inl rfl⟩
  · split
    · exact ⟨rfl, .inr rfl⟩
    · exact ⟨rfl, .inl rfl⟩

theorem looping_line {a : App Tool} {g : Gen Tool Summary} {bytes : List UInt8} {env : Env}
    {x : App Tool × Gen Tool Summary} (hne : bytes ≠ [])
    (h : resume host a g (.readLine bytes) env = some x) : x.2.pc.looping = true := by
  rw [resume_line hne h]
  rcases (accept_goesOn g bytes).2 with hpc | hpc
  · rw [hpc]; rfl
  · rw [hpc]; rfl

/-- A turn of the run leaves the loop at the deadline, or when the client has gone. -/
theorem ends_turn {r : Resume} {env : Env} (ha : Turn.apart (.resume r env) = true)
    {x : App Tool × Gen Tool Summary} (h : resume host s.solo.app s.gen r env = some x)
    (h0 : s.gen.pc.looping = true) (h1 : x.2.pc.looping = false) :
    Ends s (.turn (.resume r env)) := by
  unfold Ends
  cases hpc : s.gen.pc <;> simp only [hpc, Pc.looping, Bool.false_eq_true] at h0 <;> cases r <;>
    simp only [resume, hpc, reduceCtorEq] at h
  case polling.disconnected b =>
    cases b
    · left
      simp only at h
      split at h
      · rename_i hd; simp [limitReached, hpc, hd]
      · cases h; cases h1
    · exact .inr (.inl rfl)
  case reading.readTimeout =>
    left
    split at h
    · rename_i hd; simp [limitReached, hpc, hd]
    · cases h; cases h1
  case lineYield.next => cases h; cases h1
  case polling.cancel | reading.cancel => exact .inr (.inr (.inl rfl))
  case lineYield.close => exact .inr (.inr (.inr rfl))
  case polling.raised | reading.raised | reading.readLine => cases ha

/-- **One step** of a run on short lines is orderly. -/
theorem orderly_step (s : ReadLoop Tool Summary) (l : Label) (hI : s.Inv) : Orderly host s l := by
  intro s' h h0 h1
  cases l with
  | write n =>
    simp only [step] at h
    split at h
    · cases h; exact absurd h0 (by rw [show s.looping = false from h1]; decide)
    · cases h
  | close =>
    simp only [step] at h
    split at h
    · cases h; exact absurd h0 (by rw [show s.looping = false from h1]; decide)
    · cases h
  | readline env =>
    simp only [step] at h
    cases hr : s.readline with
    | line bytes rest =>
      rw [hr] at h
      obtain ⟨x, hx, rfl⟩ := Option.map_eq_some_iff.mp h
      obtain ⟨y, hy, rfl⟩ := Option.map_eq_some_iff.mp hx
      by_cases hne : bytes = []
      · exact ⟨rest, by rw [hr, hne]⟩
      · have hl : y.2.pc.looping = true := looping_line hne hy
        have h1 : y.2.pc.looping = false := h1
        rw [hl] at h1; cases h1
    | overrun found rest => exact absurd hr (not_overrun hI found rest)
    | wait => rw [hr] at h; cases h
  | turn t =>
    simp only [step] at h
    split at h
    · rename_i ha
      obtain ⟨x, hx, rfl⟩ := Option.map_eq_some_iff.mp h
      cases t with
      | resume r env =>
        obtain ⟨y, hy, rfl⟩ := Option.map_eq_some_iff.mp hx
        exact ends_turn ha hy h0 h1
      | reap code =>
        obtain ⟨-, -, -, rfl⟩ := Solo.step_reap hx
        exact absurd h0 (by rw [show s.looping = false from h1]; decide)
    · cases h

/-! ## A line that is too long -/

variable (host)

/-- At the top of the loop, before the deadline. -/
structure Ready (s : ReadLoop Tool Summary) : Prop where
  pc : s.gen.pc = .polling
  duration : 0 < s.gen.duration

/-- The clock reads the start time. -/
def atStart (g : Gen Tool Summary) : Env := ⟨g.startTime, g.startTime, none, .ok⟩

theorem step_poll (hs : s.Ready) :
    step host s (.turn (.resume (.disconnected false) (atStart s.gen))) =
      some { s with solo := ⟨s.solo.app, { s.gen with pc := .reading }⟩ } := by
  have hlt : ¬ (s.gen.startTime - s.gen.startTime ≥ s.gen.duration) := by
    rw [sub_self]; exact not_le.mpr hs.duration
  have hr : resume host s.solo.app s.solo.gen (.disconnected false) (atStart s.gen) =
      some (s.solo.app, { s.gen with pc := .reading }) := by
    have hpc : s.solo.gen.pc = .polling := hs.pc
    simp only [resume, hpc, atStart]
    exact if_neg hlt
  simp only [step, Turn.apart, Solo.step, hr, if_true, Option.map_some]

theorem overrun_not_orderly (hpc : s.gen.pc = .reading) {found : Bool} {rest : List UInt8}
    (hr : s.readline = .overrun found rest) (env : Env) :
    step host s (.readline env) = some { s with
      solo := ⟨(fail s.solo.app s.gen (limitError found)).1,
        (fail s.solo.app s.gen (limitError found)).2⟩
      buffer := rest } ∧ ¬ Orderly host s (.readline env) := by
  have hstep : step host s (.readline env) = some { s with
      solo := ⟨(fail s.solo.app s.gen (limitError found)).1,
        (fail s.solo.app s.gen (limitError found)).2⟩
      buffer := rest } := by
    have hpc' : s.solo.gen.pc = .reading := hpc
    simp only [step, hr, if_pos hpc, Solo.step, resume, hpc', Option.map_some]
    rfl
  refine ⟨hstep, fun h => ?_⟩
  obtain ⟨rest', hl⟩ := h _ hstep (by unfold looping; rw [hpc]; rfl) rfl
  rw [hr] at hl; cases hl

theorem exec_overrun (hs : s.Ready) {found : Bool} {rest : List UInt8}
    (hr : s.readline = .overrun found rest) : ∃ ls s1, exec (step host) s ls = some s1 ∧
      s1.gen.pc = .errorYield ∧ ¬ Along (step host) (Orderly host) s ls := by
  have h1 := step_poll host hs
  obtain ⟨h2, hbad⟩ := overrun_not_orderly host
    (s := { s with solo := ⟨s.solo.app, { s.gen with pc := .reading }⟩ }) rfl hr (signals .ok)
  refine ⟨[.turn (.resume (.disconnected false) (atStart s.gen)), .readline (signals .ok)],
    { s with
      solo := ⟨(fail s.solo.app { s.gen with pc := .reading } (limitError found)).1,
        (fail s.solo.app { s.gen with pc := .reading } (limitError found)).2⟩
      buffer := rest }, ?_, rfl, fun h => hbad ((along_cons h1).mp h).2.1⟩
  simp only [exec, h1, Option.bind_some]
  rw [h2]; rfl

theorem step_line (hpc : s.gen.pc = .reading) {bytes rest : List UInt8} (hne : bytes ≠ [])
    (hr : s.readline = .line bytes rest) (env : Env) : step host s (.readline env) = some { s with
      solo := ⟨s.solo.app, accept s.gen bytes⟩
      buffer := rest } := by
  have hpc' : s.solo.gen.pc = .reading := hpc
  simp only [step, hr, Solo.step, resume, hpc', if_neg hne, Option.map_some]
  rfl

theorem step_yielded (hpc : s.gen.pc = .lineYield) :
    step host s (.turn (.resume .next (signals .ok))) = some { s with
      solo := ⟨s.solo.app, { s.gen with pc := .polling }⟩ } := by
  have hpc' : s.solo.gen.pc = .lineYield := hpc
  simp only [step, Turn.apart, if_true, Solo.step, resume, hpc', Option.map_some]
  rfl

theorem exec_accept (hs : s.Ready) {bytes rest : List UInt8} (hne : bytes ≠ [])
    (hr : s.readline = .line bytes rest) :
    exec (step host) s [.turn (.resume (.disconnected false) (atStart s.gen)),
      .readline (signals .ok)] = some { s with
        solo := ⟨s.solo.app, accept { s.gen with pc := .reading } bytes⟩
        buffer := rest } := by
  have h2 := step_line host
    (s := { s with solo := ⟨s.solo.app, { s.gen with pc := .reading }⟩ }) rfl hne hr (signals .ok)
  rw [exec_cons, step_poll host hs, Option.bind_some, exec_cons, h2]; rfl

theorem exec_line (hs : s.Ready) {bytes rest : List UInt8} (hne : bytes ≠ [])
    (hr : s.readline = .line bytes rest) : ∃ ls s1, exec (step host) s ls = some s1 ∧
      s1.Ready ∧ s1.buffer = rest := by
  have h2 := exec_accept host hs hne hr
  obtain ⟨hd, hpc⟩ := accept_goesOn { s.gen with pc := .reading } bytes
  have hdur : 0 < (accept { s.gen with pc := .reading } bytes).duration := by
    rw [hd]; exact hs.duration
  rcases hpc with hpc | hpc
  · -- the line is sent first
    have h3 := step_yielded host (s := { s with
      solo := ⟨s.solo.app, accept { s.gen with pc := .reading } bytes⟩
      buffer := rest }) hpc
    have h4 : exec (step host) { s with
        solo := ⟨s.solo.app, accept { s.gen with pc := .reading } bytes⟩
        buffer := rest } [.turn (.resume .next (signals .ok))] = some { s with
        solo := ⟨s.solo.app, { accept { s.gen with pc := .reading } bytes with pc := .polling }⟩
        buffer := rest } := by
      rw [exec_cons, h3]; rfl
    exact ⟨_, _, exec_trans h2 h4, ⟨rfl, hdur⟩, rfl⟩
  · exact ⟨_, _, h2, ⟨hpc, hdur⟩, rfl⟩

/-- What is in front of the line that is too long is read, then `readline` raises. -/
theorem exists_overrun (n : Nat) (hs : s.Ready) (hn : s.buffer.length ≤ n)
    (hlong : ¬ ShortLines s.buffer) :
    ∃ ls s1, exec (step host) s ls = some s1 ∧ ¬ Along (step host) (Orderly host) s ls := by
  induction n generalizing s with
  | zero =>
    have hnil : s.buffer = [] := List.length_eq_zero_iff.mp (Nat.le_zero.mp hn)
    refine absurd (fun B hB _ => ?_) hlong
    rw [hnil] at hB
    rw [List.infix_nil.mp hB]; exact Nat.zero_le _
  | succ n ih =>
    have hcases : (∃ found rest, s.readline = .overrun found rest) ∨
        ∃ bytes rest, s.readline = .line bytes rest ∧ bytes ≠ [] ∧ ¬ ShortLines rest :=
      overrun_or_later hlong
    rcases hcases with ⟨found, rest, hr⟩ | ⟨bytes, rest, hr, hne, hl⟩
    · obtain ⟨ls, s1, hx, -, hbad⟩ := exec_overrun host hs hr
      exact ⟨ls, s1, hx, hbad⟩
    · obtain ⟨ls, s1, hx, hs1, hb⟩ := exec_line host hs hne hr
      have hlen : rest.length < s.buffer.length := by
        rw [readline_append hr, List.length_append]
        have := List.length_pos_iff.mpr hne
        omega
      obtain ⟨ms, s2, hx2, hbad⟩ := ih hs1 (by rw [hb]; omega) (by rw [hb]; exact hl)
      exact ⟨ls ++ ms, s2, exec_trans hx hx2, fun h => hbad ((along_append hx).mp h).2⟩

theorem exec_written {a : App Tool} {t : Tool} (ha : a.running t = false) {d : ℚ} (hd : 0 < d)
    (out : List UInt8) : ∃ ls s1, exec (step host) (start a t d out) ls = some s1 ∧ s1.Ready ∧
      s1.buffer = out := by
  obtain ⟨a', h1⟩ : ∃ a', resume host a (.new t d) .next (signals .ok) =
      some (a', { Gen.new t d with pc := .spawning, child := some ⟨none⟩ }) := by
    have hrun : ¬ a.running (Gen.new t d : Gen Tool Summary).tool = true := by
      rw [show (Gen.new t d : Gen Tool Summary).tool = t from rfl, ha]; decide
    refine ⟨(enter a (.new t d : Gen Tool Summary) (signals .ok)).1, ?_⟩
    show some (enter a (.new t d) (signals .ok)) = _
    unfold enter
    rw [if_neg hrun]; rfl
  refine ⟨[.turn (.resume .next (signals .ok)), .turn (.resume .spawned (signals .ok)),
    .write out.length], ⟨⟨a', started t d⟩, [] ++ out.take out.length, false, out.drop out.length⟩,
    ?_, ⟨rfl, hd⟩, ?_⟩
  · simp only [exec, step, Turn.apart, if_true, start, Solo.step, h1, Option.map_some,
      Option.bind_some]
    rfl
  · rw [List.nil_append, List.take_length]

/-- **Reading.** Over all runs on an output the read loop ends with the output, at
the deadline or with the client exactly when no line of the output is longer
than 64 KiB. -/
theorem readLoop_iff (host : Host Tool Summary) {a : App Tool} {t : Tool}
    (ha : a.running t = false) {d : ℚ} (hd : 0 < d) (out : List UInt8) :
    (∀ ls s, exec (step host) (start a t d out) ls = some s →
      Along (step host) (Orderly host) (start a t d out) ls) ↔ ShortLines out := by
  constructor
  · intro h
    by_contra hlong
    obtain ⟨ls, s1, hx, hs1, hb⟩ := exec_written host ha hd out
    obtain ⟨ms, s2, hx2, hbad⟩ := exists_overrun host s1.buffer.length hs1 (Nat.le_refl _)
      (by rw [hb]; exact hlong)
    exact hbad ((along_append hx).mp (h _ s2 (exec_trans hx hx2))).2
  · intro hshort ls s _
    have hI : Inv (start a t d out : ReadLoop Tool Summary) := hshort
    exact along_of_always orderly_step (inv_always (fun s l s' => inv_step s l s') hI ls)

/-- Three lines, the second as long as the limit. -/
def threeLines : List UInt8 :=
  [97] ++ newline :: (List.replicate 65536 98 ++ newline :: [99, newline])

theorem readLoop_short :
    App.start.running "irq_stat" = false ∧ (0 : ℚ) < 10 ∧
      ∀ ls s, exec (step Host.quiet) (start .start "irq_stat" 10 threeLines) ls = some s →
        Along (step Host.quiet) (Orderly Host.quiet) (start .start "irq_stat" 10 threeLines) ls := by
  have hd : (0 : ℚ) < 10 := by norm_num
  have hlong : ShortLines (List.replicate 65536 98 ++ newline :: [99, newline]) :=
    (Short.of_length List.length_replicate.le).append (.of_length (by decide))
  have hshort : ShortLines threeLines := Short.append (.of_length (by decide)) hlong
  exact ⟨rfl, hd, (readLoop_iff Host.quiet rfl hd threeLines).mpr hshort⟩

/-- A line of 65,537 bytes. -/
def tooLong : List UInt8 := List.replicate 65537 97

/-- **Counterexample.** The child writes one line of 65,537 bytes, far below the
2 MiB of the loop: `readline` raises, and the run ends with an error event. -/
theorem readLoop_longLine : ∃ ls s,
    exec (step Host.quiet) (start .start "irq_stat" 10 tooLong) ls = some s ∧
      s.gen.pc = .errorYield ∧
      ¬ Along (step Host.quiet) (Orderly Host.quiet) (start .start "irq_stat" 10 tooLong) ls := by
  obtain ⟨ls, s1, hx, hs1, hb⟩ :=
    exec_written Host.quiet (a := .start) (t := "irq_stat") rfl (d := 10) (by norm_num) tooLong
  have hall : tooLong.takeWhile (· ≠ newline) = tooLong := by
    refine List.takeWhile_eq_self_iff.mpr fun x hx => ?_
    rw [List.eq_of_mem_replicate hx]; decide
  have hlong : STREAM_LIMIT < (s1.buffer.takeWhile (· ≠ newline)).length := by
    rw [hb, hall, tooLong, List.length_replicate]; decide
  obtain ⟨found, rest, hr⟩ : ∃ found rest, s1.readline = .overrun found rest :=
    overrun_iff.mpr hlong
  obtain ⟨ms, s2, hx2, hpc, hbad⟩ := exec_overrun Host.quiet hs1 hr
  exact ⟨ls ++ ms, s2, exec_trans hx hx2, hpc, fun h => hbad ((along_append hx).mp h).2⟩

end ReadLoop
end EbpfDemo.L4Client
