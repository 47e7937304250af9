import EbpfDemo.L1Encoding.Pieces
import EbpfDemo.L4Client.Outcome
import EbpfDemo.L4Client.Truncation

/-!
# Two counts of the output

The read loop counts the raw bytes of the lines it takes and stops at 2 MiB
(`outputBytes`). The gauge `tool_last_output_bytes` is set from the log instead:
the lines were decoded one by one, with replacement, and are encoded again.

* `outputBytes_iff`: after a successful run the gauge has the raw count, and then
  keeps the limit, exactly when no line that was taken has a replaced piece of one
  or two bytes.
* `counted_of_valid`: so it is for output in valid UTF-8.
* `outputBytes_bounds`: it is never below the raw count, and at most three times
  as large.
* `outputBytes_invalid`: a line with one byte that begins no character.
-/
namespace EbpfDemo.L4Client

open EbpfDemo.Core EbpfDemo.L1Encoding
open Solo (signals)

variable {Tool Summary : Type}

/-- The lines of a run that the read loop takes. -/
abbrev taken (ls : List Turn) : List (List UInt8) :=
  Selection.kept (Selection.shows takes (readLines ls))

namespace Solo

/-- The success event was sent. -/
def Succeeded (s : Solo Tool Summary) : Prop := ∃ e ∈ eventsOf s.gen.acts, e.status = some .success

/-- The gauge has the bytes the read loop counted, and keeps its limit. -/
structure Counted (t : Tool) (s : Solo Tool Summary) : Prop where
  same : s.app.toolLastOutputBytes t = some s.gen.outputBytes
  limit : ∀ n, s.app.toolLastOutputBytes t = some n → n ≤ MAX_OUTPUT_BYTES

/-- A run that succeeded is past its loop, and the gauge has the size of its log. -/
structure Stored (t : Tool) (s : Solo Tool Summary) : Prop where
  tool : s.gen.tool = t
  pc : s.Succeeded → s.gen.pc.told = true ∨ s.gen.pc.phase = .past
  gauge : s.Succeeded →
    s.app.toolLastOutputBytes t = some (encode s.gen.logContent.flatten).length

variable {t : Tool} {s s' : Solo Tool Summary}

/-! ## What is stored -/

theorem succeeded_congr {es : List (Event Summary)}
    (hev : eventsOf s'.gen.acts = eventsOf s.gen.acts ++ es)
    (hes : ∀ e ∈ es, e.status ≠ some .success) (h : s'.Succeeded) : s.Succeeded := by
  obtain ⟨e, he, hst⟩ := h
  rw [hev] at he
  rcases List.mem_append.mp he with he | he
  · exact ⟨e, he, hst⟩
  · exact absurd hst (hes e he)

/-- Inside the loop or before it there was no success, and no other event is one. -/
theorem Stored.goesOn {es : List (Event Summary)} (h : Stored t s)
    (hpc : ¬ (s.gen.pc.told = true ∨ s.gen.pc.phase = .past)) (htool : s'.gen.tool = s.gen.tool)
    (hev : eventsOf s'.gen.acts = eventsOf s.gen.acts ++ es)
    (hes : ∀ e ∈ es, e.status ≠ some .success) : Stored t s' := by
  have hno : ¬ s'.Succeeded := fun hs => hpc (h.pc (succeeded_congr hev hes hs))
  exact ⟨htool.trans h.tool, fun hs => absurd hs hno, fun hs => absurd hs hno⟩

/-- Behind the loop the log and the gauge stay. -/
theorem Stored.keeps (h : Stored t s) (hpc : s'.gen.pc.phase = .past)
    (htool : s'.gen.tool = s.gen.tool) (hev : eventsOf s'.gen.acts = eventsOf s.gen.acts)
    (hlog : s'.gen.logContent = s.gen.logContent)
    (hgauge : s'.app.toolLastOutputBytes = s.app.toolLastOutputBytes) : Stored t s' := by
  have hback : s'.Succeeded → s.Succeeded :=
    succeeded_congr (by rw [hev, List.append_nil]) (List.forall_mem_nil _)
  refine ⟨htool.trans h.tool, fun _ => .inr hpc, fun hs => ?_⟩
  rw [hgauge, hlog]
  exact h.gauge (hback hs)

variable [DecidableEq Tool] {host : Host Tool Summary}

theorem stored_succeed (h : Stored t s) (now : ℚ) (parsed : Metrics Binary64) (summary : Summary) :
    Stored t ⟨(succeed s.app s.gen now parsed summary).1,
      (succeed s.app s.gen now parsed summary).2⟩ := by
  obtain ⟨rfl, -, -⟩ := h
  exact ⟨rfl, fun _ => .inl rfl, fun _ => Function.update_self ..⟩

/-- One block. -/
theorem stored_block {r : Resume} {env : Env} {x : App Tool × Gen Tool Summary} (h : Stored t s)
    (hb : Block host s.app s.gen r env x) : Stored t ⟨x.1, x.2⟩ := by
  have hsettled : s.gen.pc.told = true ∨ s.gen.pc.phase = .past → s.gen.pc.settled = true :=
    fun hs => hs.elim Pc.settled_of_told Pc.settled_of_past
  have hbefore : s.gen.pc.phase = .before →
      ¬ (s.gen.pc.told = true ∨ s.gen.pc.phase = .past) :=
    fun hp hs => Pc.not_before_of_settled (hsettled hs) hp
  have hbusy : s.gen.pc.busy = true → ¬ (s.gen.pc.told = true ∨ s.gen.pc.phase = .past) := by
    intro hp hs
    rw [Pc.not_busy_of_settled (hsettled hs)] at hp
    cases hp
  have happ : ∀ as : List (Act Summary),
      eventsOf (s.gen.acts ++ as) = eventsOf s.gen.acts ++ eventsOf as := eventsOf_append _
  cases hb with
  | rejects hpc _ _ =>
    exact h.goesOn (hbefore (by rw [hpc]; rfl)) rfl (happ _)
      (List.forall_mem_singleton.mpr nofun)
  | declines hpc =>
    exact h.goesOn (hbefore hpc) rfl (List.append_nil _).symm (List.forall_mem_nil _)
  | noChild hpc _ _ _ =>
    exact h.goesOn (hbefore (by rw [hpc]; rfl)) rfl (happ _)
      (List.forall_mem_singleton.mpr nofun)
  | enters hpc _ _ _ =>
    exact h.goesOn (hbefore (by rw [hpc]; rfl)) rfl (List.append_nil _).symm (List.forall_mem_nil _)
  | spawns hpc _ =>
    exact h.goesOn (hbusy (by rw [hpc]; rfl)) rfl (List.append_nil _).symm (List.forall_mem_nil _)
  | drops hpc _ _ =>
    have hev : eventsOf (s.gen.acts ++ dropped s.gen r.error env) =
        eventsOf s.gen.acts ++ [] := by rw [happ, dropped_silent]
    exact h.goesOn (hbusy (by rw [hpc]; rfl)) rfl hev (List.forall_mem_nil _)
  | loops hp _ =>
    exact h.goesOn (hbusy (Pc.busy_of_looping hp)) rfl (List.append_nil _).symm
      (List.forall_mem_nil _)
  | hears hpc _ _ =>
    obtain ⟨-, es, hev, hes⟩ := accept_events s.gen _
    exact h.goesOn (hbusy (by rw [hpc]; rfl)) (inside_accept (a := s.app) _).tool hev
      fun e he => by rw [hes e he]; exact nofun
  | terms hp _ _ =>
    exact h.goesOn (hbusy (Pc.busy_of_looping hp)) rfl (happ _) (List.forall_mem_nil _)
  | kills hpc _ _ =>
    exact h.goesOn (hbusy (by rw [hpc]; rfl)) rfl (happ _) (List.forall_mem_nil _)
  | succeeds hr _ _ => exact stored_succeed h _ _ _
  | @fails acts msg hp hrf =>
    have hev : eventsOf (s.gen.acts ++ acts ++ [.yielded (.error msg)]) =
        eventsOf s.gen.acts ++ [.error msg] := by
      rw [eventsOf_append, happ, refused_silent hrf, List.append_nil]; rfl
    exact h.goesOn (hbusy hp) rfl hev (List.forall_mem_singleton.mpr nofun)
  | leaves _ =>
    obtain ⟨hpc, hsilent⟩ := cleanup_silent s.app s.gen _ env
    refine h.keeps hpc ?_ hsilent.events ?_ rfl
    · unfold cleanup; dsimp only; split <;> rfl
    · unfold cleanup; dsimp only; split <;> rfl
  | ends _ => exact h.keeps rfl rfl rfl rfl rfl

theorem stored_step {l : Turn} (h : Stored t s) (hs : step host s l = some s') : Stored t s' := by
  cases l with
  | reap code =>
    obtain ⟨-, -, -, rfl⟩ := step_reap hs
    exact ⟨h.tool, h.pc, h.gauge⟩
  | resume r env =>
    obtain ⟨x, hx, rfl⟩ := Option.map_eq_some_iff.mp hs
    exact stored_block h (block_of_resume hx)

/-! ## Two sums -/

theorem length_encode_flatten (texts : List Str) :
    (encode texts.flatten).length = (texts.map fun text => (encode text).length).sum := by
  induction texts with
  | nil => rfl
  | cons text texts ih =>
    rw [List.flatten_cons, encode, List.flatMap_append, List.length_append, List.map_cons,
      List.sum_cons, ← ih]; rfl

omit [DecidableEq Tool] in
/-- The log again as bytes, line by line. -/
theorem encode_log {R : List (List UInt8)} (h : Fed s.gen R) :
    (encode s.gen.logContent.flatten).length =
      ((Selection.kept (Selection.shows takes R)).map fun l => (encode (decode l)).length).sum := by
  rw [h.log, length_encode_flatten, List.map_map]
  rfl

omit [DecidableEq Tool] in
theorem limit_of_fed {R : List (List UInt8)} (h : Fed s.gen R) :
    s.gen.outputBytes ≤ MAX_OUTPUT_BYTES := by
  rw [h.bytes]; exact (within_limits R).2

omit [DecidableEq Tool] in
theorem counted_iff {R : List (List UInt8)} (h : Fed s.gen R)
    (hg : s.app.toolLastOutputBytes t = some (encode s.gen.logContent.flatten).length) :
    Counted t s ↔ ∀ line ∈ Selection.kept (Selection.shows takes R), NoShortGap line := by
  have hsum := sum_map_eq_iff (l := Selection.kept (Selection.shows takes R))
    fun line _ => length_le_encode_decode line
  have hiff : s.gen.outputBytes = (encode s.gen.logContent.flatten).length ↔
      ∀ line ∈ Selection.kept (Selection.shows takes R), NoShortGap line := by
    rw [h.bytes, encode_log h, totalBytes, hsum]
    exact forall₂_congr fun line _ => encode_decode_length_iff line
  rw [← hiff]
  constructor
  · intro hc
    exact Option.some.inj (hc.same.symm.trans hg)
  · intro he
    refine ⟨by rw [hg, he], fun n hn => ?_⟩
    rw [hg] at hn
    rw [← Option.some.inj hn, ← he]
    exact limit_of_fed h

/-! ## Runs -/

theorem stored_exec {a : App Tool} {d : ℚ} {ls : List Turn}
    (hx : exec (step host) ⟨a, .new t d⟩ ls = some s) : Stored t s := by
  have hstart : Stored t (⟨a, .new t d⟩ : Solo Tool Summary) :=
    ⟨rfl, fun ⟨_, he, _⟩ => (by cases he), fun ⟨_, he, _⟩ => (by cases he)⟩
  exact inv_exec (fun _ _ _ => stored_step) hstart hx

theorem fed_taken {a : App Tool} {d : ℚ} {ls : List Turn}
    (hx : exec (step host) ⟨a, .new t d⟩ ls = some s) : Fed s.gen (readLines ls) := by
  have h := fed_exec (fed_new t d) hx
  rwa [List.nil_append] at h

/-- **Byte accounting.** After any successful run the gauge has the raw bytes the
read loop counted, and keeps their limit, exactly when every replaced piece of the
lines that were taken has three bytes. -/
theorem outputBytes_iff (host : Host Tool Summary) (a : App Tool) (t : Tool) (d : ℚ)
    (ls : List Turn) {s : Solo Tool Summary} (hx : exec (step host) ⟨a, .new t d⟩ ls = some s)
    (hs : s.Succeeded) : Counted t s ↔ ∀ line ∈ taken ls, NoShortGap line :=
  counted_iff (fed_taken hx) ((stored_exec hx).gauge hs)

/-- Output in valid UTF-8 is counted right. -/
theorem counted_of_valid {a : App Tool} {d : ℚ} {ls : List Turn}
    (hx : exec (step host) ⟨a, .new t d⟩ ls = some s) (hs : s.Succeeded)
    (hvalid : ∀ line ∈ taken ls, ∃ text, (∀ c ∈ text, Scalar c) ∧ line = encode text) :
    Counted t s := by
  rw [counted_iff (fed_taken hx) ((stored_exec hx).gauge hs)]
  intro line hline
  obtain ⟨text, hscalar, rfl⟩ := hvalid line hline
  exact noShortGap_encode hscalar

/-- **Bounds.** -/
theorem outputBytes_bounds {a : App Tool} {d : ℚ} {ls : List Turn}
    (hx : exec (step host) ⟨a, .new t d⟩ ls = some s) (hs : s.Succeeded) :
    ∃ n, s.app.toolLastOutputBytes t = some n ∧ s.gen.outputBytes ≤ n ∧
      n ≤ 3 * s.gen.outputBytes ∧ n ≤ 3 * MAX_OUTPUT_BYTES := by
  have h := fed_taken hx
  have hlimit := limit_of_fed h
  refine ⟨_, (stored_exec hx).gauge hs, ?_⟩
  rw [h.bytes] at hlimit ⊢
  rw [encode_log h, totalBytes]
  have hle : ((taken ls).map fun l => (encode (decode l)).length).sum ≤
      3 * ((taken ls).map List.length).sum := by
    rw [← List.sum_map_mul_left]
    exact List.sum_le_sum fun line _ => encode_decode_le_length line
  have hge : ((taken ls).map List.length).sum ≤
      ((taken ls).map fun l => (encode (decode l)).length).sum :=
    List.sum_le_sum fun line _ => length_le_encode_decode line
  exact ⟨hge, hle, hle.trans (Nat.mul_le_mul_left 3 hlimit)⟩

/-! ## Two runs -/

/-- The tool prints one line and ends. -/
def printsLine (bytes : List UInt8) : List Turn :=
  starting ++ L4Client.feed bytes ++ [.reap 0, .resume (.disconnected false) (signals .ok),
    .resume (.readLine []) (signals .ok)]

/-- The statuses sent, the raw count and the gauge. -/
def shownCounts (s : Solo String Unit) : List Status × Nat × Option Nat :=
  ((eventsOf s.gen.acts).filterMap Event.status, s.gen.outputBytes,
    s.app.toolLastOutputBytes "irq_stat")

theorem succeeded_of_shown {s : Solo String Unit} {x : Nat × Option Nat}
    (h : shownCounts s = ([.success], x)) : s.Succeeded := by
  have hmem : Status.success ∈ (eventsOf s.gen.acts).filterMap Event.status := by
    rw [show (eventsOf s.gen.acts).filterMap Event.status = [.success] from congrArg Prod.fst h]
    exact List.mem_cons_self
  obtain ⟨e, he, hst⟩ := List.mem_filterMap.mp hmem
  exact ⟨e, he, hst⟩

/-- A line with the two-byte character U+00E9. -/
theorem outputBytes_valid : ∃ s : Solo String Unit,
    exec (step Host.quiet) ⟨.start, .new "irq_stat" 10⟩ (printsLine [0xC3, 0xA9, 10]) = some s ∧
      s.Succeeded ∧ Counted "irq_stat" s := by
  have hshown : (exec (step Host.quiet) ⟨.start, .new "irq_stat" 10⟩
      (printsLine [0xC3, 0xA9, 10])).map shownCounts = some ([.success], 3, some 3) := by
    decide +kernel
  obtain ⟨s, hx, hc⟩ := Option.map_eq_some_iff.mp hshown
  have hs := succeeded_of_shown hc
  exact ⟨s, hx, hs, (outputBytes_iff Host.quiet .start "irq_stat" 10 _ hx hs).mpr (by decide)⟩

/-- **Counterexample.** The byte 0xFF begins no character; two raw bytes are
stored as four. -/
theorem outputBytes_invalid : ∃ s : Solo String Unit,
    exec (step Host.quiet) ⟨.start, .new "irq_stat" 10⟩ (printsLine [0xFF, 10]) = some s ∧
      s.Succeeded ∧ ¬ Counted "irq_stat" s := by
  have hshown : (exec (step Host.quiet) ⟨.start, .new "irq_stat" 10⟩
      (printsLine [0xFF, 10])).map shownCounts = some ([.success], 2, some 4) := by
    decide +kernel
  obtain ⟨s, hx, hc⟩ := Option.map_eq_some_iff.mp hshown
  refine ⟨s, hx, succeeded_of_shown hc, fun h => ?_⟩
  obtain ⟨-, hbytes, hgauge⟩ : _ ∧ s.gen.outputBytes = 2 ∧
      s.app.toolLastOutputBytes "irq_stat" = some 4 := by simpa [shownCounts] using hc
  have hsame := h.same
  rw [hbytes, hgauge] at hsame
  cases hsame

end Solo

end EbpfDemo.L4Client
