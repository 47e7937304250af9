import EbpfDemo.Core.Selection
import EbpfDemo.L4Client.Blocks

/-!
# The output of a tool is cut

The read loop takes a line while fewer than 20,000 lines and 2 MiB were taken,
and announces the first line it does not take. It then goes on reading, and
tests every further line again: `Core.Selection` at `takes`. What is in the log,
what the browser is shown and what the loop counts all follow the lines read
(`Fed`).

* `truncation_iff`: over any run the log and the browser hold a prefix of the
  tool's lines, with no line behind the announcement, exactly when after the
  first line that was not taken no line was small enough (`Selection.StaysFull`).
* `truncation_cut`: lines of 60,000 bytes beyond the limit; `truncation_gap`: a short one
  behind them.
-/
namespace EbpfDemo.L4Client

open EbpfDemo.Core EbpfDemo.L1Encoding
open Solo (signals)

variable {Tool Summary : Type}

def totalBytes (ls : List (List UInt8)) : Nat := (ls.map List.length).sum

/-- The test of the read loop. -/
def takes (taken : List (List UInt8)) (line : List UInt8) : Bool :=
  decide (taken.length < MAX_OUTPUT_LINES ∧ totalBytes taken + line.length ≤ MAX_OUTPUT_BYTES)

/-- The line a run is resumed with, if any. -/
def Turn.line : Turn → Option (List UInt8)
  | .resume (.readLine bytes) _ => if bytes = [] then none else some bytes
  | _ => none

def readLines (ls : List Turn) : List (List UInt8) := ls.filterMap Turn.line

/-- A line event, or the announcement (`none`). -/
def Act.shown : Act Summary → Option (Option Str)
  | .yielded (.line text) => some (some text)
  | .yielded .truncated => some none
  | _ => none

/-- What the browser is shown of the output. -/
def shownOf (acts : List (Act Summary)) : List (Option Str) := acts.filterMap Act.shown

/-- The log and the browser hold a prefix of the lines, within the limits, and
no line follows the announcement. -/
def KeepsPrefix (lines : List (List UInt8)) (g : Gen Tool Summary) : Prop :=
  ∃ k, g.logContent = (lines.take k).map decode ∧
    (shownOf g.acts).reduceOption = (lines.take k).map decode ∧
    (lines.take k).length ≤ MAX_OUTPUT_LINES ∧ totalBytes (lines.take k) ≤ MAX_OUTPUT_BYTES ∧
    Selection.Closed (shownOf g.acts)

/-- The run after the lines `R` were read. -/
structure Fed (g : Gen Tool Summary) (R : List (List UInt8)) : Prop where
  log : g.logContent = (Selection.kept (Selection.shows takes R)).map decode
  lines : g.outputLines = (Selection.kept (Selection.shows takes R)).length
  bytes : g.outputBytes = totalBytes (Selection.kept (Selection.shows takes R))
  cut : g.outputTruncated = Selection.marked (Selection.shows takes R)
  shown : shownOf g.acts = (Selection.shows takes R).map (Option.map decode)

theorem totalBytes_concat (ls : List (List UInt8)) (x : List UInt8) :
    totalBytes (ls ++ [x]) = totalBytes ls + x.length := by
  simp [totalBytes]

theorem shownOf_append (as bs : List (Act Summary)) :
    shownOf (as ++ bs) = shownOf as ++ shownOf bs := List.filterMap_append

theorem shownOf_dropped (g : Gen Tool Summary) (error : Option Str) (env : Env) :
    shownOf (dropped g error env) = [] := by
  unfold dropped
  split <;> split <;> rfl

theorem shownOf_refused {g : Gen Tool Summary} {r : Resume} {env : Env} {acts : List (Act Summary)}
    (h : Refused g r env acts) : shownOf acts = [] := by
  cases h with
  | drop _ _ _ _ => exact shownOf_dropped g _ env
  | nothing _ => rfl
  | term _ _ _ => rfl
  | kill _ _ _ => rfl

section
variable {g : Gen Tool Summary} {R : List (List UInt8)} {bytes : List UInt8}

theorem takes_iff (h : Fed g R) : takes (Selection.kept (Selection.shows takes R)) bytes = true ↔
    g.outputLines < MAX_OUTPUT_LINES ∧ g.outputBytes + bytes.length ≤ MAX_OUTPUT_BYTES := by
  rw [takes, decide_eq_true_eq, h.lines, h.bytes]

/-- The read loop selects. -/
theorem fed_accept (h : Fed g R) (bytes : List UInt8) : Fed (accept g bytes) (R ++ [bytes]) := by
  obtain ⟨hlog, hlines, hbytes, hcut, hshown⟩ := id h
  unfold accept
  by_cases hf : takes (Selection.kept (Selection.shows takes R)) bytes = true
  · have hs : Selection.shows takes (R ++ [bytes]) = Selection.shows takes R ++ [some bytes] := by
      rw [Selection.shows_concat, Selection.push_fits hf]
    rw [if_pos ((takes_iff h).mp hf)]
    refine ⟨?_, ?_, ?_, ?_, ?_⟩ <;> rw [hs]
    · rw [Selection.kept_concat_some, List.map_append, ← hlog]; rfl
    · rw [Selection.kept_concat_some, List.length_append, ← hlines]; rfl
    · rw [Selection.kept_concat_some, totalBytes_concat, ← hbytes]; rfl
    · simp [Gen.yield, Selection.marked, hcut]
    · show shownOf (g.acts ++ [_]) = _
      rw [shownOf_append, hshown, List.map_append]; rfl
  · rw [if_neg fun hc => hf ((takes_iff h).mpr hc)]
    have hf' : takes (Selection.kept (Selection.shows takes R)) bytes = false := by simpa using hf
    cases ht : g.outputTruncated with
    | true =>
      have hs : Selection.shows takes (R ++ [bytes]) = Selection.shows takes R := by
        rw [Selection.shows_concat]
        exact Selection.push_later hf' (Selection.marked_iff.mp (hcut.symm.trans ht))
      rw [if_pos rfl]
      exact ⟨hs ▸ hlog, hs ▸ hlines, hs ▸ hbytes, hs ▸ ht.symm.trans hcut, hs ▸ hshown⟩
    | false =>
      have hn : none ∉ Selection.shows takes R := by
        rw [← Selection.marked_iff, ← hcut, ht]; exact Bool.false_ne_true
      have hs : Selection.shows takes (R ++ [bytes]) = Selection.shows takes R ++ [none] := by
        rw [Selection.shows_concat]
        exact Selection.push_first hf' hn
      rw [if_neg Bool.false_ne_true]
      refine ⟨?_, ?_, ?_, ?_, ?_⟩ <;> rw [hs]
      · rw [Selection.kept_concat_none]; exact hlog
      · rw [Selection.kept_concat_none]; exact hlines
      · rw [Selection.kept_concat_none]; exact hbytes
      · simp [Gen.yield, Selection.marked]
      · show shownOf (g.acts ++ [_]) = _
        rw [shownOf_append, hshown, List.map_append]; rfl

theorem fed_congr {g' : Gen Tool Summary} (h : Fed g R) (h1 : g'.logContent = g.logContent)
    (h2 : g'.outputLines = g.outputLines) (h3 : g'.outputBytes = g.outputBytes)
    (h4 : g'.outputTruncated = g.outputTruncated) (h5 : shownOf g'.acts = shownOf g.acts) :
    Fed g' R :=
  ⟨h1.trans h.log, h2.trans h.lines, h3.trans h.bytes, h4.trans h.cut, h5.trans h.shown⟩

end

variable [DecidableEq Tool] {host : Host Tool Summary}

/-- A line is read in the loop only, and goes through its test. -/
theorem resume_line {a : App Tool} {g : Gen Tool Summary} {bytes : List UInt8} {env : Env}
    {x : App Tool × Gen Tool Summary} (hne : bytes ≠ [])
    (h : resume host a g (.readLine bytes) env = some x) : x = (a, accept g bytes) := by
  cases hpc : g.pc <;> simp only [resume, hpc, reduceCtorEq] at h
  rw [if_neg hne] at h
  exact (Option.some.inj h).symm

/-- Every other block leaves the output alone. -/
theorem fed_block {a : App Tool} {g : Gen Tool Summary} {r : Resume} {env : Env}
    {x : App Tool × Gen Tool Summary} {R : List (List UInt8)}
    (hr : ∀ bytes, r = .readLine bytes → bytes = []) (h : Fed g R) (hb : Block host a g r env x) :
    Fed x.2 R := by
  have happ : ∀ as : List (Act Summary), shownOf as = [] →
      shownOf (g.acts ++ as) = shownOf g.acts := by
    intro as hs
    rw [shownOf_append, hs, List.append_nil]
  cases hb with
  | hears _ he hne => exact absurd (hr _ he) hne
  | rejects _ _ _ => exact fed_congr h rfl rfl rfl rfl (happ _ rfl)
  | declines _ => exact fed_congr h rfl rfl rfl rfl rfl
  | noChild _ _ _ _ => exact fed_congr h rfl rfl rfl rfl (happ _ rfl)
  | enters _ _ _ _ => exact fed_congr h rfl rfl rfl rfl rfl
  | spawns _ _ => exact fed_congr h rfl rfl rfl rfl rfl
  | drops _ _ _ => exact fed_congr h rfl rfl rfl rfl (happ _ (shownOf_dropped g _ env))
  | loops _ _ => exact fed_congr h rfl rfl rfl rfl rfl
  | terms _ _ _ => exact fed_congr h rfl rfl rfl rfl (happ _ rfl)
  | kills _ _ _ => exact fed_congr h rfl rfl rfl rfl (happ _ rfl)
  | succeeds _ _ _ => exact fed_congr h rfl rfl rfl rfl (happ _ rfl)
  | fails _ hrf =>
    refine fed_congr h rfl rfl rfl rfl ?_
    show shownOf (g.acts ++ _ ++ [_]) = _
    rw [List.append_assoc]
    apply happ
    rw [shownOf_append, shownOf_refused hrf]; rfl
  | leaves _ =>
    unfold cleanup
    dsimp only
    split
    · exact fed_congr h rfl rfl rfl rfl (happ _ rfl)
    · exact fed_congr h rfl rfl rfl rfl rfl
  | ends _ => exact fed_congr h rfl rfl rfl rfl rfl

theorem fed_step {s s' : Solo Tool Summary} {l : Turn} {R : List (List UInt8)} (h : Fed s.gen R)
    (hs : Solo.step host s l = some s') : Fed s'.gen (R ++ readLines [l]) := by
  cases l with
  | reap code =>
    obtain ⟨-, -, -, rfl⟩ := Solo.step_reap hs
    rw [show readLines [Turn.reap code] = [] from rfl, List.append_nil]
    exact fed_congr h rfl rfl rfl rfl rfl
  | resume r env =>
    obtain ⟨x, hx, rfl⟩ := Option.map_eq_some_iff.mp hs
    by_cases hr : ∀ bytes, r = .readLine bytes → bytes = []
    · have hl : readLines [.resume r env] = [] := by
        cases r with
        | readLine bytes => rw [hr bytes rfl]; rfl
        | _ => rfl
      rw [hl, List.append_nil]
      exact fed_block hr h (block_of_resume hx)
    · simp only [not_forall] at hr
      obtain ⟨bytes, rfl, hne⟩ := hr
      have hl : readLines [.resume (.readLine bytes) env] = [bytes] := by
        simp [readLines, Turn.line, hne]
      rw [hl, resume_line hne hx]
      exact fed_accept h bytes

/-- The run so far follows the lines read. -/
theorem fed_exec {s s' : Solo Tool Summary} {ls : List Turn} {R : List (List UInt8)}
    (h : Fed s.gen R) (hx : exec (Solo.step host) s ls = some s') :
    Fed s'.gen (R ++ readLines ls) := by
  induction ls generalizing s R with
  | nil => cases hx; simpa [readLines] using h
  | cons l ls ih =>
    obtain ⟨s1, hs, hx⟩ := exec_cons_some hx
    have := ih (fed_step h hs) hx
    rwa [List.append_assoc, ← show readLines (l :: ls) = readLines [l] ++ readLines ls from
      List.filterMap_append (l := [l])] at this

omit [DecidableEq Tool] in
theorem fed_new (t : Tool) (d : ℚ) : Fed (.new t d : Gen Tool Summary) [] :=
  ⟨rfl, rfl, rfl, rfl, rfl⟩

theorem reduceOption_map_decode (l : List (Option (List UInt8))) :
    (l.map (Option.map decode)).reduceOption = l.reduceOption.map decode :=
  List.reduceOption_map

/-- Decoding does not change where the announcement stands. -/
theorem closed_map_decode (l : List (Option (List UInt8))) :
    Selection.Closed (l.map (Option.map decode)) ↔ Selection.Closed l := by
  constructor
  · intro h A B hAB x hx
    have := h (A.map (Option.map decode)) (B.map (Option.map decode)) (by rw [hAB]; simp)
      (x.map decode) (List.mem_map_of_mem hx)
    exact Option.map_eq_none_iff.mp this
  · intro h A B hAB x hx
    obtain ⟨A', l', rfl, -, hl'⟩ := List.map_eq_append_iff.mp hAB
    obtain ⟨y, B', rfl, hy, rfl⟩ := List.map_eq_cons_iff.mp hl'
    obtain ⟨z, hz, rfl⟩ := List.mem_map.mp hx
    have hy' : y = none := Option.map_eq_none_iff.mp hy
    subst hy'
    rw [h A' B' rfl z hz]; rfl

/-- What is taken stays within the limits. -/
theorem within_limits (R : List (List UInt8)) :
    (Selection.kept (Selection.shows takes R)).length ≤ MAX_OUTPUT_LINES ∧
      totalBytes (Selection.kept (Selection.shows takes R)) ≤ MAX_OUTPUT_BYTES := by
  refine Selection.kept_induction (P := fun k => k.length ≤ MAX_OUTPUT_LINES ∧
    totalBytes k ≤ MAX_OUTPUT_BYTES) ⟨Nat.zero_le _, Nat.zero_le _⟩ (fun k x _ hf => ?_) R
  obtain ⟨h1, h2⟩ := of_decide_eq_true hf
  rw [List.length_append, totalBytes_concat]
  exact ⟨h1, h2⟩

omit [DecidableEq Tool] in
theorem keepsPrefix_iff {g : Gen Tool Summary} {R L : List (List UInt8)} (h : Fed g R)
    (hL : R <+: L) : KeepsPrefix L g ↔ Selection.StaysFull takes [] R := by
  rw [← Selection.shows_closed_iff, ← closed_map_decode, ← h.shown]
  constructor
  · rintro ⟨k, -, -, -, -, hc⟩; exact hc
  · intro hc
    have hfull : Selection.StaysFull takes [] R := by
      rw [← Selection.shows_closed_iff, ← closed_map_decode, ← h.shown]; exact hc
    have hp := (Selection.kept_isPrefix hfull).trans hL
    have htake : L.take (Selection.kept (Selection.shows takes R)).length =
        Selection.kept (Selection.shows takes R) := (List.prefix_iff_eq_take.mp hp).symm
    refine ⟨(Selection.kept (Selection.shows takes R)).length, ?_⟩
    rw [htake, h.log, h.shown, reduceOption_map_decode]
    exact ⟨rfl, rfl, (within_limits R).1, (within_limits R).2, h.shown ▸ hc⟩

/-- **Truncation.** Over any run that reads lines of `L` the log and the browser
hold a prefix of them, within the limits, and nothing is sent behind the
announcement, exactly when behind the first line that was not taken no line is
small enough to be taken. -/
theorem truncation_iff (host : Host Tool Summary) (a : App Tool) (t : Tool) (d : ℚ) (ls : List Turn)
    {s : Solo Tool Summary} (hx : exec (Solo.step host) ⟨a, .new t d⟩ ls = some s)
    {L : List (List UInt8)} (hL : readLines ls <+: L) :
    KeepsPrefix L s.gen ↔ Selection.StaysFull takes [] (readLines ls) := by
  have h := fed_exec (fed_new t d) hx
  rw [List.nil_append] at h
  exact keepsPrefix_iff h hL

/-! ## Runs of the read loop -/

/-- The tool is started. -/
def starting : List Turn := [.resume .next (signals .ok), .resume .spawned (signals .ok)]

/-- One pass of the read loop. -/
def pass (bytes : List UInt8) : List Turn :=
  [.resume (.disconnected false) (signals .ok), .resume (.readLine bytes) (signals .ok)]

/-- One pass of the read loop with a line event. -/
def feed (bytes : List UInt8) : List Turn := pass bytes ++ [.resume .next (signals .ok)]

theorem readLines_append (ls ms : List Turn) : readLines (ls ++ ms) = readLines ls ++ readLines ms :=
  List.filterMap_append

theorem readLines_pass {bytes : List UInt8} (hne : bytes ≠ []) : readLines (pass bytes) = [bytes] := by
  have hline : Turn.line (.resume (.readLine bytes) (signals .ok)) = some bytes := if_neg hne
  rw [readLines, pass, List.filterMap_cons_none rfl, List.filterMap_cons_some hline]; rfl

theorem readLines_feed {bytes : List UInt8} (hne : bytes ≠ []) : readLines (feed bytes) = [bytes] := by
  rw [feed, readLines_append, readLines_pass hne]; rfl

theorem readLines_feeds {bytes : List UInt8} (hne : bytes ≠ []) (n : Nat) :
    readLines ((List.replicate n bytes).flatMap feed) = List.replicate n bytes := by
  induction n with
  | zero => rfl
  | succ n ih =>
    rw [List.replicate_succ, List.flatMap_cons, readLines_append, readLines_feed hne, ih]; rfl

/-- In the read loop, before the deadline. -/
structure Reading (g : Gen Tool Summary) : Prop where
  pc : g.pc = .polling
  start : g.startTime = 0
  duration : 0 < g.duration

section
variable {a : App Tool} {g : Gen Tool Summary} {bytes : List UInt8}

omit [DecidableEq Tool] in
theorem accept_fits (g : Gen Tool Summary) (bytes : List UInt8)
    (h : g.outputLines < MAX_OUTPUT_LINES ∧ g.outputBytes + bytes.length ≤ MAX_OUTPUT_BYTES) :
    accept g bytes = { g with
      logContent := g.logContent ++ [decode bytes]
      outputLines := g.outputLines + 1
      outputBytes := g.outputBytes + bytes.length
      pc := .lineYield
      acts := g.acts ++ [.yielded (.line (decode bytes))] } := if_pos h

omit [DecidableEq Tool] in
theorem accept_first (g : Gen Tool Summary) (bytes : List UInt8)
    (h : ¬ (g.outputLines < MAX_OUTPUT_LINES ∧ g.outputBytes + bytes.length ≤ MAX_OUTPUT_BYTES))
    (ht : g.outputTruncated = false) :
    accept g bytes = { g with
      outputTruncated := true
      pc := .lineYield
      acts := g.acts ++ [.yielded .truncated] } := by
  unfold accept
  rw [if_neg h, ht, if_neg Bool.false_ne_true]
  rfl

theorem exec_pass (host : Host Tool Summary) (hg : Reading g) (hne : bytes ≠ []) :
    exec (Solo.step host) ⟨a, g⟩ (pass bytes) = some ⟨a, accept g bytes⟩ := by
  have hlt : ¬ ((0 : ℚ) - g.startTime ≥ g.duration) := by
    rw [hg.start, sub_zero]; exact not_le.mpr hg.duration
  have h1 : resume host a g (.disconnected false) (signals .ok) =
      some (a, { g with pc := .reading }) := by
    simp only [resume, hg.pc, signals]
    exact if_neg hlt
  have h2 : resume host a { g with pc := .reading } (.readLine bytes) (signals .ok) =
      some (a, accept g bytes) := by
    simp only [resume, if_neg hne]; rfl
  simp only [pass, exec, Solo.step, h1, h2, Option.map_some, Option.bind_some]

theorem exec_feed (host : Host Tool Summary) (hg : Reading g) (hne : bytes ≠ [])
    (hy : (accept g bytes).pc = .lineYield) :
    exec (Solo.step host) ⟨a, g⟩ (feed bytes) =
      some ⟨a, { accept g bytes with pc := .polling }⟩ := by
  refine exec_trans (exec_pass host hg hne) ?_
  have h3 : resume host a (accept g bytes) .next (signals .ok) =
      some (a, { accept g bytes with pc := .polling }) := by
    simp only [resume, hy]
  simp only [exec, Solo.step, h3, Option.map_some, Option.bind_some]

/-- A line that fits is taken. -/
theorem exec_take (host : Host Tool Summary) (hne : bytes ≠ []) (hg : Reading g)
    (hfits : g.outputLines < MAX_OUTPUT_LINES ∧ g.outputBytes + bytes.length ≤ MAX_OUTPUT_BYTES) :
    ∃ g', exec (Solo.step host) ⟨a, g⟩ (feed bytes) = some ⟨a, g'⟩ ∧ Reading g' ∧
      g'.outputLines = g.outputLines + 1 ∧ g'.outputBytes = g.outputBytes + bytes.length ∧
      g'.outputTruncated = g.outputTruncated ∧
      shownOf g'.acts = shownOf g.acts ++ [some (decode bytes)] := by
  have htaken := accept_fits g bytes hfits
  have hx := exec_feed host (a := a) hg hne (by rw [htaken])
  rw [htaken] at hx
  exact ⟨_, hx, ⟨rfl, hg.start, hg.duration⟩, rfl, rfl, rfl, shownOf_append _ _⟩

/-- Lines that fit are taken one after the other. -/
theorem exec_fits (host : Host Tool Summary) (hne : bytes ≠ []) (n : Nat) (hg : Reading g)
    (hl : g.outputLines + n ≤ MAX_OUTPUT_LINES)
    (hb : g.outputBytes + n * bytes.length ≤ MAX_OUTPUT_BYTES) :
    ∃ g', exec (Solo.step host) ⟨a, g⟩ ((List.replicate n bytes).flatMap feed) = some ⟨a, g'⟩ ∧
      Reading g' ∧ g'.outputLines = g.outputLines + n ∧
      g'.outputBytes = g.outputBytes + n * bytes.length ∧
      g'.outputTruncated = g.outputTruncated := by
  induction n generalizing g with
  | zero => exact ⟨g, rfl, hg, rfl, by simp, rfl⟩
  | succ n ih =>
    have hmul : (n + 1) * bytes.length = n * bytes.length + bytes.length := Nat.succ_mul _ _
    obtain ⟨g1, h1, hg1, hl1, hb1, hc1, -⟩ :=
      exec_take host (a := a) hne hg ⟨by omega, by omega⟩
    obtain ⟨g', hx, hg', hl', hb', hc'⟩ := ih hg1 (by omega) (by omega)
    refine ⟨g', ?_, hg', by omega, by omega, hc'.trans hc1⟩
    rw [List.replicate_succ, List.flatMap_cons]
    exact exec_trans h1 hx

/-- The first line that is not taken is announced. -/
theorem exec_cut (host : Host Tool Summary) (hne : bytes ≠ []) (hg : Reading g)
    (hfull : ¬ (g.outputLines < MAX_OUTPUT_LINES ∧
      g.outputBytes + bytes.length ≤ MAX_OUTPUT_BYTES)) (ht : g.outputTruncated = false) :
    ∃ g', exec (Solo.step host) ⟨a, g⟩ (feed bytes) = some ⟨a, g'⟩ ∧ Reading g' ∧
      g'.outputLines = g.outputLines ∧ g'.outputBytes = g.outputBytes ∧
      g'.outputTruncated = true ∧ shownOf g'.acts = shownOf g.acts ++ [none] := by
  have hfirst := accept_first g bytes hfull ht
  have hx := exec_feed host (a := a) hg hne (by rw [hfirst])
  rw [hfirst] at hx
  exact ⟨_, hx, ⟨rfl, hg.start, hg.duration⟩, rfl, rfl, rfl, shownOf_append _ _⟩

/-- Behind the announcement a line that is not taken is passed over. -/
theorem exec_skip (host : Host Tool Summary) (hne : bytes ≠ []) (hg : Reading g)
    (hfull : ¬ (g.outputLines < MAX_OUTPUT_LINES ∧
      g.outputBytes + bytes.length ≤ MAX_OUTPUT_BYTES)) (ht : g.outputTruncated = true) :
    exec (Solo.step host) ⟨a, g⟩ (pass bytes) = some ⟨a, g⟩ := by
  have hsame : accept g bytes = { g with pc := .polling } := by
    unfold accept
    rw [if_neg hfull, if_pos ht]
  rw [exec_pass host hg hne, hsame, ← hg.pc]

end

/-- The tool was admitted and spawned. -/
def started (t : Tool) (d : ℚ) : Gen Tool Summary :=
  { (Gen.new t d : Gen Tool Summary) with pc := .polling, child := some ⟨none⟩, bound := true }

theorem exec_starting (host : Host Tool Summary) (t : Tool) (d : ℚ) : ∃ a : App Tool,
    exec (Solo.step host) ⟨.start, .new t d⟩ starting = some ⟨a, started t d⟩ := ⟨_, rfl⟩

omit [DecidableEq Tool] in
theorem reading_started (t : Tool) {d : ℚ} (hd : 0 < d) :
    Reading (started t d : Gen Tool Summary) := ⟨rfl, rfl, hd⟩

/-- A line of 60,000 bytes. -/
def longLine : List UInt8 := List.replicate 60000 97

theorem length_longLine : longLine.length = 60000 := List.length_replicate

theorem longLine_ne_nil : longLine ≠ [] := fun h => by
  have := length_longLine
  rw [h] at this; cases this

/-- 34 lines of 60,000 bytes are taken, the 35th is announced as truncated. -/
theorem exec_longLines : ∃ (a : App String) (g : Gen String Unit) (shown : List (Option Str)),
    exec (Solo.step Host.quiet) ⟨.start, .new "irq_stat" 10⟩
      (starting ++ (List.replicate 34 longLine).flatMap feed ++ feed longLine) = some ⟨a, g⟩ ∧
    Reading g ∧ g.outputLines = 34 ∧ g.outputBytes = 2040000 ∧ g.outputTruncated = true ∧
    shownOf g.acts = shown ++ [none] := by
  have hlen := length_longLine
  obtain ⟨a, h0⟩ := exec_starting Host.quiet "irq_stat" 10
  obtain ⟨g, h1, hg, hlines, hbytes, hcut⟩ := exec_fits Host.quiet (a := a) longLine_ne_nil 34
    (reading_started "irq_stat" (d := 10) (by norm_num)) (by decide)
    (by rw [hlen]; decide)
  have hlines : g.outputLines = 34 := hlines
  have hbytes : g.outputBytes = 2040000 := by rw [hbytes, hlen]; rfl
  have hmax : MAX_OUTPUT_BYTES = 2097152 := rfl
  obtain ⟨g1, h2, hg1, hlines1, hbytes1, hcut1, hshown1⟩ :=
    exec_cut Host.quiet (a := a) longLine_ne_nil hg (by omega) hcut
  exact ⟨a, g1, shownOf g.acts, exec_trans (exec_trans h0 h1) h2, hg1, by omega, by omega, hcut1,
    hshown1⟩

/-- The lines behind the announcement are as long: the log and the browser hold the first 34
of 40 lines. -/
theorem truncation_cut : ∃ s : Solo String Unit,
    exec (Solo.step Host.quiet) ⟨.start, .new "irq_stat" 10⟩
      (starting ++ (List.replicate 34 longLine).flatMap feed ++ feed longLine ++ pass longLine) =
        some s ∧
    none ∈ shownOf s.gen.acts ∧ s.gen.outputLines = 34 ∧
    KeepsPrefix (List.replicate 40 longLine) s.gen := by
  obtain ⟨a, g, shown, h1, hg, hlines, hbytes, hcut, hshown⟩ := exec_longLines
  have hlen := length_longLine
  have hmax : MAX_OUTPUT_BYTES = 2097152 := rfl
  have hx := exec_trans h1 (exec_skip Host.quiet longLine_ne_nil hg (by omega) hcut)
  have hread : readLines (starting ++ (List.replicate 34 longLine).flatMap feed ++ feed longLine ++
      pass longLine) = List.replicate 36 longLine := by
    rw [readLines_append, readLines_append, readLines_append, readLines_feeds longLine_ne_nil,
      readLines_feed longLine_ne_nil, readLines_pass longLine_ne_nil]
    rfl
  generalize starting ++ (List.replicate 34 longLine).flatMap feed ++ feed longLine ++
    pass longLine = ls at hx hread ⊢
  have hprefix : readLines ls <+: List.replicate 40 longLine := by
    rw [hread]
    exact ⟨List.replicate 4 longLine, List.replicate_append_replicate⟩
  have hfull : Selection.StaysFull takes [] (readLines ls) :=
    Selection.staysFull_of_eq longLine [] fun y hy => by
      rw [hread] at hy
      exact List.eq_of_mem_replicate hy
  exact ⟨⟨a, g⟩, hx, by simp [hshown], hlines,
    (truncation_iff .quiet .start "irq_stat" 10 ls hx hprefix).mpr hfull⟩

/-- **Counterexample.** 34 lines of 60,000 bytes are taken, the 35th is
announced as truncated, the short line behind it is taken and sent. -/
theorem truncation_gap : ∃ s : Solo String Unit,
    exec (Solo.step Host.quiet) ⟨.start, .new "irq_stat" 10⟩
      (starting ++ (List.replicate 34 longLine).flatMap feed ++ feed longLine ++ feed [98, 10]) =
        some s ∧
    ¬ KeepsPrefix (List.replicate 35 longLine ++ [[98, 10]]) s.gen := by
  obtain ⟨a, g, shown, h1, hg, hlines, hbytes, -, hshown⟩ := exec_longLines
  have hmax : MAX_OUTPUT_BYTES = 2097152 := rfl
  have hmax' : MAX_OUTPUT_LINES = 20000 := rfl
  obtain ⟨g1, h2, -, -, -, -, hshown1⟩ := exec_take Host.quiet (a := a)
    (List.cons_ne_nil 98 [10]) hg
    ⟨by omega, by simp only [List.length_cons, List.length_nil]; omega⟩
  refine ⟨_, exec_trans h1 h2, ?_⟩
  rintro ⟨k, -, -, -, -, hclosed⟩
  rw [hshown, List.append_assoc] at hshown1
  -- the short line stands behind the announcement
  have hnone := hclosed shown [some (decode [98, 10])] hshown1
  cases hnone _ List.mem_cons_self

end EbpfDemo.L4Client
