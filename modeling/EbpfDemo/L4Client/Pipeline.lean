import EbpfDemo.Core.Weigh
import EbpfDemo.L1Encoding.Counts
import EbpfDemo.L4Client.OutputBytes
import EbpfDemo.L4Client.SentEvents

/-!
# A tool, the pipe and the run that reads it

`Program` is a loader with its BPF programs: labelled steps, and the lines each step
prints. `Pipeline` puts it behind the generator that runs it. The program runs while the
child is alive; what it prints is in the pipe until the generator reads it, line by line.
Everything else the generator meets (timeouts, the deadline, signals, an end of file, a
failing read, a disconnect) may come at any point, as in `Solo`; nobody else kills the
tool, so no line is read in part.

* `program_exec`, `solo_exec`: a run is a run of the program, and a run of the generator
  that reads what the program has printed;
* `parsed_exec`: the metrics of a success event are those of the whole log;
* `metrics_of_run`: if nothing was cut, what they have under a key is the sum of the
  counts read under it, exactly, as long as it is below 2^53;
* `traced_of_books`: with the books of the program, every event is in the metrics, in the
  pipe, still held by the program, or lost.
-/
namespace EbpfDemo.L4Client

open EbpfDemo.Core EbpfDemo.L1Encoding

structure Program (S E : Type) where
  step : S → E → Option S
  prints : S → E → List Line

/-- `read` are the lines the generator has read. -/
structure Pipeline (S Tool Summary : Type) where
  program : S
  pipe : List Line
  read : List Line
  solo : Solo Tool Summary

inductive Move (E : Type) where
  | run (e : E)
  | turn (l : Turn)

/-- The client's decoder; `describe` is the text of an exception. -/
def Host.client {Tool Summary : Type} (recLimit : Nat) (describe : PyErr → Str)
    (summarize : Tool → Metrics Binary64 → ℚ → Except Str Summary) : Host Tool Summary where
  parse output := (parseOutputMetrics binary64 recLimit output).mapError describe
  summarize := summarize

variable {S E Tool Summary : Type} [DecidableEq Tool]

namespace Pipeline

def start (program : S) (banner : List Line) (a : App Tool) (t : Tool) (d : ℚ) :
    Pipeline S Tool Summary := ⟨program, banner, [], ⟨a, .new t d⟩⟩

/-- The generator reads the first line of the pipe, whole. -/
def step (p : Program S E) (host : Host Tool Summary) (s : Pipeline S Tool Summary) :
    Move E → Option (Pipeline S Tool Summary)
  | .run e =>
    if s.solo.gen.unreaped then
      (p.step s.program e).map fun program =>
        { s with program := program, pipe := s.pipe ++ p.prints s.program e }
    else none
  | .turn l =>
    match l.line, s.pipe with
    | none, _ => (Solo.step host s.solo l).map fun solo => { s with solo := solo }
    | some _, [] => none
    | some bytes, line :: pipe =>
      if bytes = line.written then
        (Solo.step host s.solo l).map fun solo =>
          { s with pipe := pipe, read := s.read ++ [line], solo := solo }
      else none

end Pipeline

/-- The step of the program, if it is one. -/
def Move.event : Move E → Option E
  | .run e => some e
  | .turn _ => none

def Move.own : Move E → Option Turn
  | .run _ => none
  | .turn l => some l

/-- The steps of the program, -/
def events (ms : List (Move E)) : List E := ms.filterMap Move.event

/-- and those of the generator. -/
def turns (ms : List (Move E)) : List Turn := ms.filterMap Move.own

namespace Pipeline

variable {p : Program S E} {host : Host Tool Summary} {s s' : Pipeline S Tool Summary}

/-! ## One step -/

/-- What a step can do. -/
inductive Moves (p : Program S E) (host : Host Tool Summary) (s : Pipeline S Tool Summary) :
    Move E → Pipeline S Tool Summary → Prop
  | runs {e : E} {program : S} : p.step s.program e = some program →
      Moves p host s (.run e)
        { s with program := program, pipe := s.pipe ++ p.prints s.program e }
  | turns {l : Turn} {solo : Solo Tool Summary} : l.line = none →
      Solo.step host s.solo l = some solo → Moves p host s (.turn l) { s with solo := solo }
  | reads {l : Turn} {line : Line} {pipe : List Line} {solo : Solo Tool Summary} :
      l.line = some line.written → s.pipe = line :: pipe → Solo.step host s.solo l = some solo →
      Moves p host s (.turn l) { s with pipe := pipe, read := s.read ++ [line], solo := solo }

theorem moves_of_step {m : Move E} (h : step p host s m = some s') : Moves p host s m s' := by
  cases m with
  | run e =>
    simp only [step] at h
    split at h
    · obtain ⟨program, hp, rfl⟩ := Option.map_eq_some_iff.mp h
      exact .runs hp
    · cases h
  | turn l =>
    simp only [step] at h
    split at h
    · rename_i hl
      obtain ⟨solo, hs, rfl⟩ := Option.map_eq_some_iff.mp h
      exact .turns hl hs
    · cases h
    · rename_i bytes line pipe hl hpipe
      split at h
      · rename_i hb
        obtain ⟨solo, hs, rfl⟩ := Option.map_eq_some_iff.mp h
        exact .reads (hl.trans (congrArg some hb)) hpipe hs
      · cases h

/-! ## Runs -/

/-- The run of the program. -/
theorem program_exec {ms : List (Move E)} (hx : exec (step p host) s ms = some s') :
    exec p.step s.program (events ms) = some s'.program := by
  induction ms generalizing s with
  | nil => cases hx; rfl
  | cons m ms ih =>
    obtain ⟨s1, hs, hx⟩ := exec_cons_some hx
    have hrest := ih hx
    cases moves_of_step hs with
    | runs hp =>
      show (p.step s.program _).bind _ = _
      rw [hp]
      exact hrest
    | turns _ _ => exact hrest
    | reads _ _ _ => exact hrest

/-- The run of the generator, and the lines it has read. -/
theorem solo_exec {ms : List (Move E)} (hx : exec (step p host) s ms = some s') :
    exec (Solo.step host) s.solo (turns ms) = some s'.solo ∧
      s'.read.map Line.written = s.read.map Line.written ++ readLines (turns ms) := by
  induction ms generalizing s with
  | nil => cases hx; exact ⟨rfl, (List.append_nil _).symm⟩
  | cons m ms ih =>
    obtain ⟨s1, hs, hx⟩ := exec_cons_some hx
    obtain ⟨hsolo, hread⟩ := ih hx
    cases moves_of_step hs with
    | runs _ => exact ⟨hsolo, hread⟩
    | @turns l solo hl hstep =>
      have hturns : turns (.turn l :: ms) = l :: turns ms := rfl
      have hlines : readLines (l :: turns ms) = readLines (turns ms) := by
        rw [readLines, List.filterMap_cons, hl]
        rfl
      rw [hturns, exec_cons, hstep, hlines]
      exact ⟨hsolo, hread⟩
    | @reads l line pipe solo hl hpipe hstep =>
      have hturns : turns (.turn l :: ms) = l :: turns ms := rfl
      have hlines : readLines (l :: turns ms) = line.written :: readLines (turns ms) := by
        rw [readLines, List.filterMap_cons, hl]
        rfl
      rw [hturns, exec_cons, hstep, hlines]
      refine ⟨hsolo, hread.trans ?_⟩
      rw [List.map_append, List.append_assoc]
      rfl

/-- **What was printed** is what was read and what is in the pipe: a figure of the program
that grows by what it prints under `k` says how much that is. -/
theorem printed_exec {k : Key} {f : S → Nat}
    (hf : ∀ t e t', p.step t e = some t' → f t' = f t + countAt k (p.prints t e))
    {ms : List (Move E)} (hx : exec (step p host) s ms = some s') :
    countAt k s'.read + countAt k s'.pipe + f s.program =
      countAt k s.read + countAt k s.pipe + f s'.program := by
  induction ms generalizing s with
  | nil => cases hx; rfl
  | cons m ms ih =>
    obtain ⟨s1, hs, hx⟩ := exec_cons_some hx
    have hrest := ih hx
    cases moves_of_step hs with
    | runs hp =>
      have hstep := hf _ _ _ hp
      simp only [countAt_append] at hrest
      omega
    | turns _ _ => exact hrest
    | @reads l line pipe solo hl hpipe hstep =>
      have hline : countAt k (line :: pipe) = countAt k [line] + countAt k pipe :=
        countAt_append k [line] pipe
      simp only [countAt_append] at hrest
      rw [hpipe]
      omega

end Pipeline

/-! ## The metrics of the success event -/

section
variable {host : Host Tool Summary} {g : Gen Tool Summary} {r : Resume} {env : Env}
  {a : App Tool} {x : App Tool × Gen Tool Summary}

/-- The metrics sent are those of the log. -/
def Parsed (host : Host Tool Summary) (g : Gen Tool Summary) : Prop :=
  ∀ d m sm, Event.success d m sm ∈ eventsOf g.acts → host.parse g.logContent.flatten = .ok m

theorem parsed_block (h : Shape g) (hp : Parsed host g) (hb : Block host a g r env x) :
    Parsed host x.2 := by
  -- the log stays and no success is added
  have hquiet : ∀ {es : List (Event Summary)}, x.2.logContent = g.logContent →
      eventsOf x.2.acts = eventsOf g.acts ++ es →
      (∀ e ∈ es, e.status ≠ some .success) → Parsed host x.2 := by
    intro es hlog he hes d m sm hm
    rw [he] at hm
    rw [hlog]
    rcases List.mem_append.mp hm with hm | hm
    · exact hp d m sm hm
    · exact absurd rfl (hes _ hm)
  -- no success so far, and none is added
  have hlines : ∀ {es : List (Event Summary)}, g.pc.over = false →
      eventsOf x.2.acts = eventsOf g.acts ++ es → (∀ e ∈ es, e.status = none) →
      Parsed host x.2 := by
    intro es hs he hes d m sm hm
    rw [he] at hm
    rcases List.mem_append.mp hm with hm | hm
    · cases h.lines hs _ hm
    · cases hes _ hm
  have hnil : ∀ e ∈ ([] : List (Event Summary)), e.status ≠ some .success := List.forall_mem_nil _
  have happ : ∀ as : List (Act Summary),
      eventsOf (g.acts ++ as) = eventsOf g.acts ++ eventsOf as := eventsOf_append _
  cases hb with
  | rejects _ _ _ => exact hquiet rfl (happ _) (List.forall_mem_singleton.mpr nofun)
  | declines _ => exact hquiet rfl (List.append_nil _).symm hnil
  | noChild _ _ _ _ => exact hquiet rfl (happ _) (List.forall_mem_singleton.mpr nofun)
  | enters _ _ _ _ => exact hquiet rfl (List.append_nil _).symm hnil
  | spawns _ _ => exact hquiet rfl (List.append_nil _).symm hnil
  | drops _ _ _ => exact hquiet rfl ((happ _).trans (by rw [Solo.dropped_silent])) hnil
  | loops _ _ => exact hquiet rfl (List.append_nil _).symm hnil
  | @hears bytes hpc _ _ =>
    obtain ⟨-, es, he, hes⟩ := Solo.accept_events g bytes
    exact hlines (by rw [hpc]; rfl) he hes
  | terms _ _ _ => exact hquiet rfl (happ _) hnil
  | kills _ _ _ => exact hquiet rfl (happ _) hnil
  | @succeeds parsed summary hr hparse _ =>
    intro d m sm hm
    have hev : eventsOf (succeed a g env.later parsed summary).2.acts = eventsOf g.acts ++
        [.success (round2 (env.later - g.startTime)) parsed summary] := happ _
    rw [hev] at hm
    rcases List.mem_append.mp hm with hm | hm
    · cases h.lines (not_over_of_busy (reports_busy hr)) _ hm
    · cases List.mem_singleton.mp hm
      exact hparse
  | @fails acts msg _ hrf =>
    have he : eventsOf (fail a { g with acts := g.acts ++ acts } msg).2.acts =
        eventsOf g.acts ++ [.error msg] := by
      refine (eventsOf_append _ _).trans ?_
      rw [eventsOf_append, Solo.refused_silent hrf, List.append_nil]
      rfl
    exact hquiet rfl he (List.forall_mem_singleton.mpr nofun)
  | leaves _ =>
    obtain ⟨-, hs⟩ := Solo.cleanup_silent a g _ env
    refine hquiet ?_ (hs.events.trans (List.append_nil _).symm) hnil
    unfold cleanup
    dsimp only
    split_ifs <;> rfl
  | ends _ => exact hquiet rfl (List.append_nil _).symm hnil

end

section
variable {host : Host Tool Summary} {s s' : Solo Tool Summary}

theorem parsed_step {l : Turn} (h : Shape s.gen ∧ Parsed host s.gen)
    (hs : Solo.step host s l = some s') : Shape s'.gen ∧ Parsed host s'.gen := by
  cases l with
  | reap code =>
    obtain ⟨-, -, -, rfl⟩ := Solo.step_reap hs
    exact h
  | resume r env =>
    obtain ⟨x, hx, rfl⟩ := Option.map_eq_some_iff.mp hs
    have hb := block_of_resume hx
    exact ⟨(shape_block h.1 hb).1, parsed_block h.1 h.2 hb⟩

/-- The metrics of a success event are those of the whole log. -/
theorem parsed_exec {a : App Tool} {t : Tool} {d : ℚ} {ls : List Turn}
    (hx : exec (Solo.step host) ⟨a, .new t d⟩ ls = some s) : Parsed host s.gen := by
  have hnew : Parsed host (.new t d : Gen Tool Summary) := fun _ _ _ hm => by cases hm
  exact (inv_exec (fun _ _ _ => parsed_step) ⟨shape_new t d, hnew⟩ hx).2

end

/-- **From the pipe to the event.** If a run sends a success event and has cut nothing,
then what its metrics have under a key is the sum of the counts read under the key. -/
theorem metrics_of_run {p : Program S E} {recLimit : Nat} {describe : PyErr → Str}
    {summarize : Tool → Metrics Binary64 → ℚ → Except Str Summary} {program : S}
    {banner : List Line} {a : App Tool} {t : Tool} {d dur : ℚ} {ms : List (Move E)}
    {u : Pipeline S Tool Summary} {m : Metrics Binary64} {sm : Summary}
    (hx : exec (Pipeline.step p (.client recLimit describe summarize))
      (.start program banner a t d) ms = some u)
    (hm : .success dur m sm ∈ eventsOf u.solo.gen.acts)
    (hcut : u.solo.gen.outputTruncated = false) {k : Key} (hk : countAt k u.read < 2 ^ 53) :
    Dict.getD m k.text .zero = .ofRat (countAt k u.read : ℕ) := by
  obtain ⟨hsolo, hread⟩ := Pipeline.solo_exec hx
  have hfed := Solo.fed_taken hsolo
  have hlines : readLines (turns ms) = u.read.map Line.written := hread.symm
  have hmark : none ∉ Selection.shows takes (readLines (turns ms)) := by
    rw [← Selection.marked_iff, ← hfed.cut, hcut]
    exact Bool.false_ne_true
  have hlog : u.solo.gen.logContent = u.read.map fun l => decode l.written := by
    rw [hfed.log, Selection.kept_of_no_mark hmark, hlines, List.map_map]
    rfl
  have hparse : (parseOutputMetrics binary64 recLimit u.solo.gen.logContent.flatten).mapError
      describe = .ok m := parsed_exec hsolo dur m sm hm
  have hvalue : m = metricsOf64 u.read := by
    rw [hlog, parse_written] at hparse
    cases hparse
    rfl
  rw [hvalue]
  exact getD_metricsOf k hk

/-- What the metrics have under a key, and what has not come there, are `total`. -/
def Traced (m : Metrics Binary64) (k : Key) (rest total : Nat) : Prop :=
  ∃ n : ℕ, Dict.getD m k.text .zero = .ofRat n ∧ n + rest = total

/-- **From the program to the event.** `f` is what the program has printed under `k` of
the `total` events; what it holds back and what was lost are in its books. -/
theorem traced_of_books {p : Program S E} {recLimit : Nat} {describe : PyErr → Str}
    {summarize : Tool → Metrics Binary64 → ℚ → Except Str Summary} {program : S}
    {banner : List Line} {a : App Tool} {t : Tool} {d dur : ℚ} {ms : List (Move E)}
    {u : Pipeline S Tool Summary} {m : Metrics Binary64} {sm : Summary}
    (hx : exec (Pipeline.step p (.client recLimit describe summarize))
      (.start program banner a t d) ms = some u)
    (hm : .success dur m sm ∈ eventsOf u.solo.gen.acts)
    (hcut : u.solo.gen.outputTruncated = false) {k : Key} {f : S → Nat}
    (hf : ∀ t e t', p.step t e = some t' → f t' = f t + countAt k (p.prints t e))
    (hf0 : f program = 0) (hb : countAt k banner = 0) {held lost total : Nat}
    (hbooks : Wrapped (2 ^ 64) (f u.program + held + lost) total) (hlt : total < 2 ^ 53) :
    Traced m k (countAt k u.pipe + held + lost) total := by
  have hprinted : countAt k u.read + countAt k u.pipe + f program =
      countAt k ([] : List Line) + countAt k banner + f u.program := Pipeline.printed_exec hf hx
  have hnil : countAt k ([] : List Line) = 0 := rfl
  have htotal := hbooks.eq_of_lt (hlt.trans (by decide))
  refine ⟨countAt k u.read, metrics_of_run hx hm hcut ?_, ?_⟩ <;> omega

end EbpfDemo.L4Client
