import EbpfDemo.L4Client.Outcome

/-!
# What a generator sends

Whatever happens to a generator, and whatever other generators do to the state
it shares with them, the events it has sent are line events, or line events and
behind them one status event (`Shape`); and what it has sent it has sent: a
stretch only adds to it (`shape_block`).
-/
namespace EbpfDemo.L4Client

open EbpfDemo.Core EbpfDemo.L1Encoding

variable {Tool Summary : Type}

/-- Turned away, or settled: no more events come. -/
def Pc.over (p : Pc) : Bool := p = .rejecting || p.settled

/-- Line events, or line events and one status event. -/
def Shape (g : Gen Tool Summary) : Prop :=
  (∀ e ∈ eventsOf g.acts, e.status = none) ∨
    g.pc.over = true ∧ ∃ lines e, eventsOf g.acts = lines ++ [e] ∧
      (∀ x ∈ lines, x.status = none) ∧ e.status ≠ none

theorem over_of_past {p : Pc} (h : p.phase = .past) : p.over = true := by
  rw [Pc.over, Pc.settled_of_past h, Bool.or_true]

theorem not_over_of_busy {p : Pc} (h : p.busy = true) : p.over = false := by
  cases p
  case closing error => cases error <;> first | rfl | cases h
  all_goals first | rfl | cases h

theorem shape_new (t : Tool) (d : ℚ) : Shape (.new t d : Gen Tool Summary) :=
  .inl (List.forall_mem_nil _)

section
variable {g g' : Gen Tool Summary}

/-- In front of the status event there are line events only. -/
theorem Shape.lines (h : Shape g) (hs : g.pc.over = false) :
    ∀ e ∈ eventsOf g.acts, e.status = none := by
  rcases h with h | ⟨h, -⟩
  · exact h
  · rw [h] at hs
    cases hs

/-- A stretch that sends nothing. -/
theorem Shape.quiet (h : Shape g) (he : eventsOf g'.acts = eventsOf g.acts)
    (hp : g.pc.over = true → g'.pc.over = true) : Shape g' := by
  rcases h with h | ⟨hs, h⟩
  · exact .inl (he ▸ h)
  · exact .inr ⟨hp hs, he ▸ h⟩

/-- A stretch that sends a status event. -/
theorem Shape.tell (h : Shape g) (hs : g.pc.over = false) {e : Event Summary}
    (he : eventsOf g'.acts = eventsOf g.acts ++ [e]) (hst : e.status ≠ none)
    (hp : g'.pc.over = true) : Shape g' :=
  .inr ⟨hp, _, e, he, h.lines hs, hst⟩

end

variable [DecidableEq Tool] {host : Host Tool Summary} {a : App Tool} {g : Gen Tool Summary}
  {r : Resume} {env : Env} {x : App Tool × Gen Tool Summary}

/-- **One stretch** adds to what was sent and keeps its shape. -/
theorem shape_block (h : Shape g) (hb : Block host a g r env x) :
    Shape x.2 ∧ ∃ es, eventsOf x.2.acts = eventsOf g.acts ++ es := by
  have hquiet : eventsOf x.2.acts = eventsOf g.acts →
      (g.pc.over = true → x.2.pc.over = true) →
      Shape x.2 ∧ ∃ es, eventsOf x.2.acts = eventsOf g.acts ++ es := fun he hp =>
    ⟨h.quiet he hp, [], he.trans (List.append_nil _).symm⟩
  have hbusy : ∀ {p : Pc}, g.pc.busy = true → g.pc.over = true → p.over = true := by
    intro p hb hs
    rw [not_over_of_busy hb] at hs
    cases hs
  cases hb with
  | rejects hpc _ _ =>
    have he := eventsOf_append g.acts [.yielded Event.rejected]
    exact ⟨h.tell (by rw [hpc]; rfl) he (by simp [Event.status]) rfl, _, he⟩
  | declines _ => exact hquiet rfl fun _ => rfl
  | @noChild msg hpc _ _ _ =>
    have he := eventsOf_append g.acts [.yielded (Event.error msg)]
    exact ⟨h.tell (by rw [hpc]; rfl) he (by simp [Event.status]) rfl, _, he⟩
  | enters hpc _ _ _ => exact hquiet rfl fun hs => by rw [hpc] at hs; cases hs
  | spawns hpc _ => exact hquiet rfl (hbusy (by rw [hpc]; rfl))
  | drops hpc _ _ =>
    refine hquiet ?_ (hbusy (by rw [hpc]; rfl))
    rw [eventsOf_append, Solo.dropped_silent, List.append_nil]
  | loops hp _ => exact hquiet rfl (hbusy (Pc.busy_of_looping hp))
  | @hears bytes hpc _ _ =>
    obtain ⟨-, es, he, hes⟩ := Solo.accept_events g bytes
    refine ⟨.inl fun e hm => ?_, es, he⟩
    rw [he, List.mem_append] at hm
    exact hm.elim (h.lines (by rw [hpc]; rfl) e) (hes e)
  | terms hp _ _ =>
    exact hquiet ((eventsOf_append _ _).trans (List.append_nil _)) (hbusy (Pc.busy_of_looping hp))
  | kills hpc _ _ =>
    exact hquiet ((eventsOf_append _ _).trans (List.append_nil _)) (hbusy (by rw [hpc]; rfl))
  | succeeds hr _ _ =>
    have hs := not_over_of_busy (reports_busy hr)
    exact ⟨h.tell hs (eventsOf_append _ _) (by simp [Event.status]) rfl, _, eventsOf_append _ _⟩
  | @fails acts msg hb hrf =>
    have he : eventsOf (fail a { g with acts := g.acts ++ acts } msg).2.acts =
        eventsOf g.acts ++ [.error msg] := by
      refine (eventsOf_append _ _).trans ?_
      rw [eventsOf_append, Solo.refused_silent hrf, List.append_nil]
      rfl
    exact ⟨h.tell (not_over_of_busy hb) he (by simp [Event.status]) rfl, _, he⟩
  | leaves _ =>
    obtain ⟨hp, hs⟩ := Solo.cleanup_silent a g _ env
    exact hquiet hs.events fun _ => over_of_past hp
  | ends _ => exact hquiet rfl fun _ => rfl

end EbpfDemo.L4Client
