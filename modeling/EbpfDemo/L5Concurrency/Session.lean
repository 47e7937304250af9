import EbpfDemo.L4Client.PageEvents
import EbpfDemo.L4Client.SentEvents
import EbpfDemo.L5Concurrency.RunLock

/-!
# What the user sees of a run

One page and the whole server: any number of generators, those of the page's own
requests and of others, interleaved at every `await` and `yield`, and the event
streams between them. A stream hands the events of its generator over in order
and can break at any time; the page can be clicked and cleared at any time.

`head` and `since` are not in the code: what the output started with after the
last click or clear, and how many events had come by then.

* `session_output`: in every reachable state the output of the page is that
  start and, event by event, what the generator of the last request has sent, up to
  the last event delivered; none is left out, repeated or out of order, and none
  of another run is in it.
* `session_badge`: the badge says success exactly when all events of the run
  have come and the last is a success the page can read, and the button is free
  again exactly when the connection broke or the last event has closed it.

`Str` is wider than Python's `str`: an event with anything else in it than code
points, or one that `json.dumps` does not take, is not delivered.
-/
namespace EbpfDemo.L5Concurrency.Session

open EbpfDemo.Core EbpfDemo.L1Encoding
open Json (Py)
open L4Client L4Client.Dashboard
open RunLock (Sys)

/-- A request of the page: its generator, once it has arrived, the number of events
that have come back, and whether the connection broke. -/
structure Conn where
  gen : Option Nat
  delivered : Nat
  lost : Bool

structure State where
  page : Page
  server : Sys Str Py
  conns : List Conn
  head : Str
  since : Nat

inductive Lbl where
  | ui (e : UiEvent)
  | arrive (j : Nat)
  | server (l : RunLock.Lbl Str)
  | deliver (j : Nat)
  | lost (j : Nat)

/-- The duration as the server reads it. -/
def seconds : Binary64 → ℚ
  | .fin q _ => q
  | _ => 0

namespace State

def genOf (s : State) (c : Conn) : Option (Gen Str Py) := c.gen.bind fun i => s.server.gens[i]?

/-- What the server has sent on a connection. -/
def events (s : State) (c : Conn) : List (Event Py) :=
  match s.genOf c with
  | some g => eventsOf g.acts
  | none => []

def tool (s : State) (c : Conn) : Str :=
  match s.genOf c with
  | some g => g.tool
  | none => []

/-- What has come to the page. -/
def received (s : State) (c : Conn) : List (Event Py) := (s.events c).take c.delivered

end State

/-- A click opens a connection, a clear forgets what was shown. -/
def uiStep (b : Browser) (s : State) (e : UiEvent) : Option State :=
  match e with
  | .click tool d time => (Dashboard.step b s.page (.click tool d time)).map fun page =>
      if tool = [] then { s with page := page }
      else { s with
        page := page
        conns := s.conns ++ [⟨none, 0, false⟩]
        head := Page.banner tool time
        since := 0 }
  | .clear => (Dashboard.step b s.page .clear).map fun page => { s with
      page := page
      head := []
      since := (s.conns.getLast?.map Conn.delivered).getD 0 }
  | .toolList r => (Dashboard.step b s.page (.toolList r)).map fun page => { s with page := page }
  | _ => none

/-- The next event of a connection. -/
def next (w : Wire) (s : State) (c : Conn) : Option Str := do
  let e ← (s.events c)[c.delivered]?
  if Js.valid (w.payload (s.tool c) e) then (w.text (s.tool c) e).toOption else none

def step (b : Browser) (w : Wire) (host : Host Str Py) (s : State) : Lbl → Option State
  | .ui e => uiStep b s e
  | .arrive j => do
    let c ← s.conns[j]?
    let source ← s.page.sources[j]?
    if c.gen = none then
      some { s with
        server := { s.server with
          gens := s.server.gens ++ [.new source.tool (seconds source.duration)] }
        conns := s.conns.set j { c with gen := some s.server.gens.length } }
    else none
  | .server l => (RunLock.step host s.server l).map fun server => { s with server := server }
  | .deliver j => do
    let c ← s.conns[j]?
    let data ← next w s c
    let page ← Dashboard.step b s.page (.message j data)
    some { s with page := page, conns := s.conns.set j { c with delivered := c.delivered + 1 } }
  | .lost j => do
    let c ← s.conns[j]?
    let page ← Dashboard.step b s.page (.error j)
    some { s with page := page, conns := s.conns.set j { c with lost := true } }

def start (status output : Str) : State := ⟨.start status output, RunLock.start, [], output, 0⟩

/-! ## The server only adds to what it has sent -/

variable {b : Browser} {w : Wire} {host : Host Str Py} {s s' : State}

/-- Every generator is still there, with its tool and the events it had sent. -/
def Extends (gens gens' : List (Gen Str Py)) : Prop :=
  ∀ (i : Nat) (g : Gen Str Py), gens[i]? = some g → ∃ g' : Gen Str Py, gens'[i]? = some g' ∧
    g'.tool = g.tool ∧ ∃ es, eventsOf g'.acts = eventsOf g.acts ++ es

theorem extends_append (gens : List (Gen Str Py)) (g : Gen Str Py) :
    Extends gens (gens ++ [g]) := by
  intro i g' hg
  obtain ⟨hi, -⟩ := List.getElem?_eq_some_iff.mp hg
  exact ⟨g', by rw [List.getElem?_append_left hi]; exact hg, rfl, [], (List.append_nil _).symm⟩

theorem extends_set {gens : List (Gen Str Py)} {i : Nat} {g g' : Gen Str Py}
    (hg : gens[i]? = some g) (ht : g'.tool = g.tool)
    (he : ∃ es, eventsOf g'.acts = eventsOf g.acts ++ es) : Extends gens (gens.set i g') := by
  intro j k hk
  by_cases h : i = j
  · subst h
    obtain ⟨hi, -⟩ := List.getElem?_eq_some_iff.mp hg
    rw [hg] at hk
    cases hk
    exact ⟨g', List.getElem?_set_self hi, ht, he⟩
  · exact ⟨k, by rw [List.getElem?_set_ne h]; exact hk, rfl, [], (List.append_nil _).symm⟩

/-- One step of the server. -/
theorem server_step {server server' : Sys Str Py} {l : RunLock.Lbl Str}
    (hs : RunLock.step host server l = some server') (h : ∀ g ∈ server.gens, Shape g) :
    (∀ g ∈ server'.gens, Shape g) ∧ Extends server.gens server'.gens := by
  cases l with
  | request t d =>
    cases hs
    exact ⟨List.forall_mem_append.mpr ⟨h, List.forall_mem_singleton.mpr (shape_new t d)⟩,
      extends_append _ _⟩
  | reap i code =>
    obtain ⟨g, g', hg, rfl, -, rfl, -⟩ := RunLock.step_reap hs
    refine ⟨fun k hk => ?_, extends_set hg rfl ⟨[], (List.append_nil _).symm⟩⟩
    rcases List.mem_or_eq_of_mem_set hk with hk | rfl
    · exact h k hk
    · exact (h g (List.mem_of_getElem? hg)).quiet rfl id
  | resume i r env =>
    obtain ⟨g, hg, hs⟩ := Option.bind_eq_some_iff.mp hs
    obtain ⟨x, hx, rfl⟩ := Option.map_eq_some_iff.mp hs
    obtain ⟨hshape, hmore⟩ := shape_block (h g (List.mem_of_getElem? hg)) (block_of_resume hx)
    refine ⟨fun k hk => ?_, extends_set hg (moves_of_resume hx).tool hmore⟩
    rcases List.mem_or_eq_of_mem_set hk with hk | rfl
    · exact h k hk
    · exact hshape

/-! ## What the page shows -/

/-- What the page shows of the connection `c`. -/
structure Shows (b : Browser) (w : Wire) (s : State) (c : Conn) : Prop where
  within : c.delivered ≤ (s.events c).length
  since : s.since ≤ c.delivered
  output : s.page.output = s.head ++ ((s.received c).drop s.since).flatMap pageText
  current : s.page.currentEs = none ↔
    c.lost = true ∨ ∃ e ∈ s.received c, closes b w (s.tool c) e = true
  badge : s.page.badge = .success ↔
    ∃ e ∈ s.received c, e.status = some .success ∧ w.readable (s.tool c) e = true

structure Inv (b : Browser) (w : Wire) (s : State) : Prop where
  single : Single s.page.conns
  sound : Sound s.page.conns
  length : s.conns.length = s.page.sources.length
  shape : ∀ g ∈ s.server.gens, Shape g
  last : ∀ j, ∀ c ∈ s.conns[j]?, j + 1 = s.conns.length → Shows b w s c

/-- What is shown does not change when the server sends more. -/
theorem Shows.extend {c : Conn} {server : Sys Str Py} (h : Shows b w s c)
    (he : Extends s.server.gens server.gens) : Shows b w { s with server := server } c := by
  cases hg : s.genOf c with
  | none =>
    have hnone : s.events c = [] := by unfold State.events; rw [hg]
    have hzero : c.delivered = 0 := by
      have := h.within
      rw [hnone] at this
      exact Nat.le_zero.mp this
    have hrec : s.received c = [] := by rw [State.received, hnone, List.take_nil]
    have hrec' : State.received { s with server := server } c = [] := by
      rw [State.received, hzero, List.take_zero]
    obtain ⟨-, h2, h3, h4, h5⟩ := h
    rw [hrec] at h3 h4 h5
    exact ⟨hzero ▸ Nat.zero_le _, h2, hrec' ▸ h3, hrec' ▸ by simpa using h4,
      hrec' ▸ by simpa using h5⟩
  | some g =>
    obtain ⟨i, hi, hgi⟩ := Option.bind_eq_some_iff.mp hg
    obtain ⟨g', hg', ht, es, hes⟩ := he i g hgi
    have hgen : State.genOf { s with server := server } c = some g' := by
      unfold State.genOf
      rw [hi]
      exact hg'
    have hev : s.events c = eventsOf g.acts := by unfold State.events; rw [hg]
    have hev' : State.events { s with server := server } c = s.events c ++ es := by
      rw [hev, ← hes]
      unfold State.events
      rw [hgen]
    have htool : State.tool { s with server := server } c = s.tool c := by
      unfold State.tool
      rw [hgen, hg]
      exact ht
    have hrec : State.received { s with server := server } c = s.received c := by
      unfold State.received
      rw [hev', List.take_append_of_le_length h.within]
    obtain ⟨h1, h2, h3, h4, h5⟩ := h
    refine ⟨?_, h2, hrec ▸ h3, ?_, ?_⟩
    · rw [hev', List.length_append]
      exact Nat.le_add_right_of_le h1
    · rw [hrec, htool]
      exact h4
    · rw [hrec, htool]
      exact h5

/-- The page changes in nothing that is shown. -/
theorem Shows.congr {c : Conn} {p : Page} (h : Shows b w s c)
    (ho : p.output = s.page.output) (hc : p.currentEs = s.page.currentEs)
    (hb : p.badge = s.page.badge) : Shows b w { s with page := p } c := by
  obtain ⟨h1, h2, h3, h4, h5⟩ := h
  exact ⟨h1, h2, ho.trans h3, hc ▸ h4, hb ▸ h5⟩

/-- Other connections do not show. -/
theorem Shows.conns {c : Conn} (h : Shows b w s c) (cs : List Conn) :
    Shows b w { s with conns := cs } c := ⟨h.within, h.since, h.output, h.current, h.badge⟩

/-- The event `next` hands over. -/
theorem next_some {c : Conn} {data : Str} (h : next w s c = some data) :
    ∃ e, (s.events c)[c.delivered]? = some e ∧ Js.valid (w.payload (s.tool c) e) = true ∧
      w.text (s.tool c) e = .ok data := by
  obtain ⟨e, he, h⟩ := Option.bind_eq_some_iff.mp h
  simp only [Option.ite_none_right_eq_some] at h
  obtain ⟨hv, h⟩ := h
  refine ⟨e, he, hv, ?_⟩
  cases ht : w.text (s.tool c) e with
  | error err => rw [ht] at h; cases h
  | ok t => rw [ht] at h; exact congrArg Except.ok (Option.some.inj h)

theorem take_of_getElem? {α : Type} {l : List α} {n : Nat} {x : α} (h : l[n]? = some x) :
    l.take (n + 1) = l.take n ++ [x] := by
  rw [List.take_add_one, h]
  rfl

/-- In front of a status event there are line events. -/
theorem Shape.status_last {g : Gen Str Py} (h : Shape g) {n : Nat} {e : Event Py}
    (he : (eventsOf g.acts)[n]? = some e) (hst : e.status ≠ none) :
    n + 1 = (eventsOf g.acts).length ∧ ∀ x ∈ (eventsOf g.acts).take n, x.status = none := by
  rcases h with h | ⟨-, lines, e', hl, hlines, -⟩
  · exact absurd (h e (List.mem_of_getElem? he)) hst
  · rw [hl] at he ⊢
    rcases Nat.lt_trichotomy n lines.length with hn | rfl | hn
    · rw [List.getElem?_append_left hn] at he
      exact absurd (hlines e (List.mem_of_getElem? he)) hst
    · refine ⟨by simp, fun x hx => ?_⟩
      rw [List.take_left] at hx
      exact hlines x hx
    · rw [List.getElem?_eq_none (by simp; omega)] at he
      cases he

/-- One more event of the connection. -/
theorem Shows.deliver {c : Conn} {e : Event Py} (h : Shows b w s c)
    (hshape : ∀ g ∈ s.server.gens, Shape g) (hsingle : Single s.page.conns)
    (hopen : s.page.currentEs ≠ none) (he : (s.events c)[c.delivered]? = some e) :
    Shows b w { s with page := receive b w (s.tool c) s.page e }
      { c with delivered := c.delivered + 1 } := by
  have hrec : State.received { s with page := receive b w (s.tool c) s.page e }
      { c with delivered := c.delivered + 1 } = s.received c ++ [e] := take_of_getElem? he
  have hlen : (s.received c).length = c.delivered := by
    rw [State.received, List.length_take, Nat.min_eq_left h.within]
  have hquiet : ¬ (c.lost = true ∨ ∃ e ∈ s.received c, closes b w (s.tool c) e = true) :=
    fun hc => hopen (h.current.mpr hc)
  obtain ⟨hi, -⟩ := List.getElem?_eq_some_iff.mp he
  refine ⟨hi, Nat.le_succ_of_le h.since, ?_, ?_, ?_⟩
  · rw [hrec, List.drop_append_of_le_length (hlen ▸ h.since), List.flatMap_append,
      List.flatMap_singleton, ← List.append_assoc, ← h.output]
    exact output_receive s.page e
  · -- the page closes the source with an event that closes
    rw [hrec]
    have hconns : (receive b w (s.tool c) s.page e).conns = if closes b w (s.tool c) e then
        s.page.cleanupConnection.conns else s.page.conns := conns_receive s.page e
    by_cases hc : closes b w (s.tool c) e = true
    · rw [if_pos hc] at hconns
      refine iff_of_true ?_ (.inr ⟨e, List.mem_append_right _ (List.mem_singleton_self e), hc⟩)
      exact (congrArg Conns.currentEs hconns).trans (single_cleanup hsingle).2.1
    · rw [if_neg hc] at hconns
      refine iff_of_false ?_ ?_
      · rw [show (receive b w (s.tool c) s.page e).currentEs = s.page.currentEs from
          congrArg Conns.currentEs hconns]
        exact hopen
      · rintro (hl | ⟨x, hx, hcx⟩)
        · exact hquiet (.inl hl)
        · rcases List.mem_append.mp hx with hx | hx
          · exact hquiet (.inr ⟨x, hx, hcx⟩)
          · exact hc (List.mem_singleton.mp hx ▸ hcx)
  · rw [hrec, badge_receive]
    obtain ⟨g, hg, hev⟩ : ∃ g ∈ s.server.gens, s.events c = eventsOf g.acts := by
      cases hg : s.genOf c with
      | none =>
        have : s.events c = [] := by unfold State.events; rw [hg]
        rw [this] at he
        cases he
      | some g =>
        obtain ⟨i, -, hgi⟩ := Option.bind_eq_some_iff.mp hg
        exact ⟨g, List.mem_of_getElem? hgi, by unfold State.events; rw [hg]⟩
    -- in front of a status event nothing has a status
    have hfirst : e.status ≠ none →
        ¬ ∃ x ∈ s.received c, x.status = some .success ∧ w.readable (s.tool c) x = true := by
      rintro hst ⟨x, hx, hxs, -⟩
      rw [hev] at he
      have := (Shape.status_last (hshape g hg) he hst).2 x (by rw [← hev]; exact hx)
      rw [hxs] at this
      cases this
    have hmem : (∃ x ∈ s.received c ++ [e], x.status = some .success ∧
        w.readable (s.tool c) x = true) ↔
        (∃ x ∈ s.received c, x.status = some .success ∧ w.readable (s.tool c) x = true) ∨
          e.status = some .success ∧ w.readable (s.tool c) e = true := by
      simp only [List.mem_append, List.mem_singleton, or_and_right, exists_or, exists_eq_left]
    refine Iff.trans ?_ hmem.symm
    cases hst : e.status with
    | none => simpa using h.badge
    | some st =>
      have hno := hfirst (by rw [hst]; exact Option.some_ne_none st)
      cases st with
      | error => simpa using hno
      | success =>
        by_cases hr : w.readable (s.tool c) e = true
        · simp [hr]
        · simp only [hr]
          simpa using h.badge

/-- The connection a source of the page is open on is the last one. -/
theorem Inv.last_open {j : Nat} {source : Source} (h : Inv b w s)
    (hs : s.page.sources[j]? = some source) (ho : source.isOpen = true) :
    j + 1 = s.conns.length ∧ s.page.currentEs = some j := by
  have hc := (h.single.opened j source hs).mp ho
  exact ⟨(h.single.last j hc).trans h.length.symm, hc⟩

theorem inv_deliver {j : Nat} (h : Inv b w s) (hs : step b w host s (.deliver j) = some s') :
    Inv b w s' := by
  obtain ⟨c, hc, hs⟩ := Option.bind_eq_some_iff.mp hs
  obtain ⟨data, hd, hs⟩ := Option.bind_eq_some_iff.mp hs
  obtain ⟨page, hp, hs⟩ := Option.bind_eq_some_iff.mp hs
  cases hs
  obtain ⟨e, he, hv, ht⟩ := next_some hd
  obtain ⟨h1, h2, h3⟩ := single_step h.single h.sound hp
  obtain ⟨source, hsrc, hp⟩ := Option.bind_eq_some_iff.mp hp
  simp only [Option.ite_none_right_eq_some, Option.some.injEq] at hp
  obtain ⟨ho, rfl⟩ := hp
  obtain ⟨hlast, hcur⟩ := h.last_open hsrc ho
  rw [onmessage_payload hv ht] at h1 h2 h3 ⊢
  refine ⟨h1, h2, ?_, h.shape, fun k d hd hk => ?_⟩
  · rw [List.length_set]
    exact h.length.trans h3.symm
  · rw [List.length_set] at hk
    obtain rfl : k = j := by omega
    obtain ⟨hi, -⟩ := List.getElem?_eq_some_iff.mp hc
    rw [List.getElem?_set_self hi] at hd
    cases hd
    exact ((h.last k c hc hlast).deliver h.shape h.single (by rw [hcur]; simp) he).conns _

/-- The error handler of the page ends the run it shows. -/
theorem Shows.lose {c : Conn} (h : Shows b w s c) (j : Nat) (hs : Single s.page.conns) :
    Shows b w { s with page := (s.page.fail j).onerror } { c with lost := true } := by
  have hview := view_cleanup { s.page.fail j with status := str "ERROR" }
  refine ⟨h.within, h.since, ?_, iff_of_true ?_ (.inl rfl), ?_⟩
  · exact (congrArg View.output hview).trans h.output
  · exact (single_onerror j hs).2.2.2
  · exact (Iff.of_eq (congrArg (· = BadgeClass.success) (congrArg View.badge hview))).trans h.badge

theorem inv_lost {j : Nat} (h : Inv b w s) (hs : step b w host s (.lost j) = some s') :
    Inv b w s' := by
  obtain ⟨c, hc, hs⟩ := Option.bind_eq_some_iff.mp hs
  obtain ⟨page, hp, hs⟩ := Option.bind_eq_some_iff.mp hs
  cases hs
  obtain ⟨h1, h2, h3⟩ := single_step h.single h.sound hp
  obtain ⟨source, hsrc, hp⟩ := Option.bind_eq_some_iff.mp hp
  simp only [Option.ite_none_right_eq_some, Option.some.injEq] at hp
  obtain ⟨ho, rfl⟩ := hp
  obtain ⟨hlast, hcur⟩ := h.last_open hsrc ho
  refine ⟨h1, h2, ?_, h.shape, fun k d hd hk => ?_⟩
  · rw [List.length_set]
    exact h.length.trans h3.symm
  · rw [List.length_set] at hk
    obtain rfl : k = j := by omega
    obtain ⟨hi, -⟩ := List.getElem?_eq_some_iff.mp hc
    rw [List.getElem?_set_self hi] at hd
    cases hd
    exact ((h.last k c hc hlast).lose k h.single).conns _

/-- A request that arrives has sent nothing. -/
theorem Shows.arrive {c : Conn} (h : Shows b w s c) (hc : c.gen = none) (t : Str) (d : ℚ) :
    Shows b w { s with server := { s.server with gens := s.server.gens ++ [.new t d] } }
      { c with gen := some s.server.gens.length } := by
  have hnone : s.events c = [] := by
    unfold State.events State.genOf
    rw [hc]
    rfl
  have hzero : c.delivered = 0 := by
    have := h.within
    rw [hnone] at this
    exact Nat.le_zero.mp this
  obtain ⟨-, h2, h3, h4, h5⟩ := h
  have hrec : s.received c = [] := by rw [State.received, hnone, List.take_nil]
  have hrec' : State.received
      { s with server := { s.server with gens := s.server.gens ++ [.new t d] } }
      { c with gen := some s.server.gens.length } = [] := by
    rw [State.received, hzero, List.take_zero]
  rw [hrec] at h3 h4 h5
  exact ⟨hzero ▸ Nat.zero_le _, h2, hrec' ▸ h3, hrec' ▸ by simpa using h4,
    hrec' ▸ by simpa using h5⟩

theorem inv_arrive {j : Nat} (h : Inv b w s) (hs : step b w host s (.arrive j) = some s') :
    Inv b w s' := by
  obtain ⟨c, hc, hs⟩ := Option.bind_eq_some_iff.mp hs
  obtain ⟨source, -, hs⟩ := Option.bind_eq_some_iff.mp hs
  simp only [Option.ite_none_right_eq_some, Option.some.injEq] at hs
  obtain ⟨hnone, rfl⟩ := hs
  have hext := extends_append s.server.gens (.new source.tool (seconds source.duration))
  refine ⟨h.single, h.sound, ?_, ?_, fun k d hd hk => ?_⟩
  · rw [List.length_set]
    exact h.length
  · exact List.forall_mem_append.mpr ⟨h.shape, List.forall_mem_singleton.mpr (shape_new _ _)⟩
  · rw [List.length_set] at hk
    by_cases hkj : j = k
    · subst hkj
      obtain ⟨hi, -⟩ := List.getElem?_eq_some_iff.mp hc
      rw [List.getElem?_set_self hi] at hd
      cases hd
      exact ((h.last j c hc hk).arrive hnone source.tool (seconds source.duration)).conns _
    · rw [List.getElem?_set_ne hkj] at hd
      have hmore : Shows b w { s with server := { s.server with
          gens := s.server.gens ++ [.new source.tool (seconds source.duration)] } } d :=
        (h.last k d hd hk).extend hext
      exact hmore.conns _

theorem inv_server {l : RunLock.Lbl Str} (h : Inv b w s)
    (hs : step b w host s (.server l) = some s') : Inv b w s' := by
  obtain ⟨server, hl, rfl⟩ := Option.map_eq_some_iff.mp hs
  obtain ⟨hshape, hext⟩ := server_step hl h.shape
  exact ⟨h.single, h.sound, h.length, hshape, fun j c hc hj => (h.last j c hc hj).extend hext⟩

/-- A click starts over. -/
theorem Shows.click (s : State) {tool : Str} (d : Binary64) (time : Str) (ht : tool ≠ []) :
    Shows b w { s with
      page := s.page.click tool d time
      head := Page.banner tool time
      since := 0 } ⟨none, 0, false⟩ := by
  have hclick : s.page.click tool d time = { s.page.cleanupConnection with
      disabled := true
      status := str "RUNNING"
      badge := .running
      output := Page.banner tool time
      currentEs := some s.page.cleanupConnection.sources.length
      sources := s.page.cleanupConnection.sources ++
        [⟨tool, Page.clampDuration d, true, false, 1⟩] } := if_neg ht
  rw [hclick]
  refine ⟨Nat.zero_le _, Nat.le_refl _, (List.append_nil _).symm, ?_, ?_⟩
  · refine iff_of_false (Option.some_ne_none _) ?_
    rintro (hl | ⟨e, he, -⟩)
    · cases hl
    · cases he
  · refine iff_of_false (by simp) ?_
    rintro ⟨e, he, -⟩
    cases he

theorem inv_ui {e : UiEvent} (h : Inv b w s) (hs : step b w host s (.ui e) = some s') :
    Inv b w s' := by
  cases e with
  | click tool d time =>
    obtain ⟨page, hp, rfl⟩ := Option.map_eq_some_iff.mp hs
    obtain ⟨h1, h2, h3⟩ := single_step h.single h.sound hp
    simp only [Dashboard.step, Option.ite_none_right_eq_some, Option.some.injEq] at hp
    obtain ⟨-, rfl⟩ := hp
    by_cases ht : tool = []
    · rw [if_pos ht]
      have hp : s.page.click tool d time = s.page := if_pos ht
      rw [hp]
      exact h
    · rw [if_neg ht]
      rw [UiEvent.runs, decide_eq_true ht] at h3
      refine ⟨h1, h2, ?_, h.shape, fun j c hc hj => ?_⟩
      · rw [List.length_append, h.length]
        exact h3.symm
      · rw [List.length_append, List.length_singleton, Nat.add_right_cancel_iff] at hj
        rw [hj, List.getElem?_concat_length] at hc
        cases hc
        exact (Shows.click s d time ht).conns _
  | clear =>
    cases hs
    refine ⟨h.single, h.sound, h.length, h.shape, fun j c hc hj => ?_⟩
    obtain ⟨h1, -, -, h4, h5⟩ := h.last j c hc hj
    have hsince : (s.conns.getLast?.map Conn.delivered).getD 0 = c.delivered := by
      rw [List.getLast?_eq_getElem?, ← hj, Nat.add_sub_cancel, hc]
      rfl
    have hrec : (s.received c).drop c.delivered = [] :=
      List.drop_eq_nil_of_le (by rw [State.received, List.length_take]; exact Nat.min_le_left _ _)
    refine ⟨h1, le_of_eq hsince, ?_, h4, h5⟩
    show [] = [] ++ List.flatMap pageText ((s.received c).drop _)
    rw [hsince, hrec]
    rfl
  | toolList r =>
    obtain ⟨page, hp, rfl⟩ := Option.map_eq_some_iff.mp hs
    obtain ⟨h1, h2, h3⟩ := single_step h.single h.sound hp
    simp only [Dashboard.step, Option.ite_none_right_eq_some, Option.some.injEq] at hp
    obtain ⟨-, rfl⟩ := hp
    refine ⟨h1, h2, h.length.trans h3.symm, h.shape, fun j c hc hj => ?_⟩
    cases r <;> exact (h.last j c hc hj).congr rfl rfl rfl
  | message _ _ | error _ | reconnect _ => cases hs

theorem inv_step {l : Lbl} (h : Inv b w s) (hs : step b w host s l = some s') : Inv b w s' := by
  cases l with
  | ui e => exact inv_ui h hs
  | arrive j => exact inv_arrive h hs
  | server l => exact inv_server h hs
  | deliver j => exact inv_deliver h hs
  | lost j => exact inv_lost h hs

theorem inv_start (status output : Str) : Inv b w (start status output) := by
  obtain ⟨h1, h2⟩ := single_start status output
  exact ⟨h1, h2, rfl, List.forall_mem_nil _, fun _ _ h => by cases h⟩

/-! ## Any order of steps -/

theorem shows_of_exec {status output : Str} {ls : List Lbl}
    (hx : exec (step b w host) (start status output) ls = some s) {c : Conn}
    (hc : s.conns.getLast? = some c) : Inv b w s ∧ Shows b w s c := by
  have h := inv_exec (fun _ _ _ => inv_step) (inv_start (b := b) (w := w) status output) hx
  refine ⟨h, h.last (s.conns.length - 1) c ?_ ?_⟩
  · rw [← List.getLast?_eq_getElem?]
    exact hc
  · have : s.conns ≠ [] := by rintro h0; rw [h0] at hc; cases hc
    have := List.length_pos_iff.mpr this
    omega

/-- **What has come is shown.** In every reachable state the output of the page is what
it started with after the last click or clear, and behind it the text of each event
the generator of the last request has sent since, in order, up to the last one
delivered. -/
theorem session_output (b : Browser) (w : Wire) (host : Host Str Py) (status output : Str)
    (ls : List Lbl) (hx : exec (step b w host) (start status output) ls = some s) {c : Conn}
    (hc : s.conns.getLast? = some c) :
    c.delivered ≤ (s.events c).length ∧
      s.page.output = s.head ++ (((s.events c).take c.delivered).drop s.since).flatMap pageText := by
  obtain ⟨-, h⟩ := shows_of_exec hx hc
  exact ⟨h.within, h.output⟩

/-- The status event has come exactly when everything has come and ends with it. -/
theorem received_iff (h : Inv b w s) {c : Conn} (hs : Shows b w s c) {P : Event Py → Prop}
    (hP : ∀ e, P e → e.status ≠ none) : (∃ e ∈ s.received c, P e) ↔
      c.delivered = (s.events c).length ∧ ∃ e ∈ (s.events c).getLast?, P e := by
  constructor
  · rintro ⟨e, he, hp⟩
    obtain ⟨n, hn⟩ := List.mem_iff_getElem?.mp he
    rw [State.received, List.getElem?_take] at hn
    simp only [Option.ite_none_right_eq_some] at hn
    obtain ⟨hlt, hn⟩ := hn
    have hshape : n + 1 = (s.events c).length := by
      cases hg : s.genOf c with
      | none =>
        have : s.events c = [] := by unfold State.events; rw [hg]
        rw [this] at hn
        cases hn
      | some g =>
        obtain ⟨i, -, hgi⟩ := Option.bind_eq_some_iff.mp hg
        have hev : s.events c = eventsOf g.acts := by unfold State.events; rw [hg]
        rw [hev] at hn ⊢
        exact (Shape.status_last (h.shape g (List.mem_of_getElem? hgi)) hn (hP e hp)).1
    have := hs.within
    refine ⟨by omega, e, ?_, hp⟩
    rw [List.getLast?_eq_getElem?, ← hshape, Nat.add_sub_cancel]
    exact hn
  · rintro ⟨hall, e, he, hp⟩
    refine ⟨e, ?_, hp⟩
    rw [State.received, hall, List.take_length]
    exact List.mem_of_getLast? he

/-- **What the badge says.** In every reachable state it says success exactly when all
events of the last request's generator have come and the last of them is a success
the page can read; and the button is free exactly when the connection broke or all
have come and the last closes the run on the page. -/
theorem session_badge (b : Browser) (w : Wire) (host : Host Str Py) (status output : Str)
    (ls : List Lbl) (hx : exec (step b w host) (start status output) ls = some s) {c : Conn}
    (hc : s.conns.getLast? = some c) :
    (s.page.badge = .success ↔ c.delivered = (s.events c).length ∧
        ∃ e ∈ (s.events c).getLast?, e.status = some .success ∧ w.readable (s.tool c) e = true) ∧
      (s.page.disabled = false ↔ c.lost = true ∨ c.delivered = (s.events c).length ∧
        ∃ e ∈ (s.events c).getLast?, closes b w (s.tool c) e = true) := by
  obtain ⟨hi, h⟩ := shows_of_exec hx hc
  have hdis : s.page.disabled = s.page.currentEs.isSome := hi.single.disabled
  refine ⟨h.badge.trans (received_iff hi h fun e he => ?_), ?_⟩
  · rw [he.1]
    exact Option.some_ne_none _
  · rw [← received_iff hi h fun e he => ?_, ← h.current, hdis]
    · cases s.page.currentEs <;> simp
    · cases e <;> first | exact Option.some_ne_none _ | cases he

/-! ## Two runs -/

def wirePlain : Wire := ⟨fun _ => .dict [], 10⟩

/-- Finds no metrics. -/
def hostPlain : Host Str Py := ⟨fun _ => .ok [], fun _ _ _ => .ok (.dict [])⟩

/-- One line, then the read raises; both events come back. -/
def failingRun : List Lbl :=
  [.ui (.toolList (some [str "irq_stat"])), .ui (.click (str "irq_stat") .nan (str "12:00")),
    .arrive 0, .server (.resume 0 .next (Solo.second 0)),
    .server (.resume 0 .spawned (Solo.second 0)),
    .server (.resume 0 (.disconnected false) (Solo.second 0)),
    .server (.resume 0 (.readLine [0x61, 0x0A]) (Solo.second 0)), .deliver 0,
    .server (.resume 0 .next (Solo.second 0)),
    .server (.resume 0 (.disconnected false) (Solo.second 0)),
    .server (.resume 0 (.raised (str "EIO")) (Solo.second 0)), .deliver 0]

theorem failingRun_reaches : ((exec (step .ascii wirePlain hostPlain) (start (str "OK") [])
    failingRun).bind fun s => s.conns.getLast?).isSome = true := by
  decide +kernel

theorem session_output_failing : ∃ s c,
    exec (step .ascii wirePlain hostPlain) (start (str "OK") []) failingRun = some s ∧
      s.conns.getLast? = some c ∧ c.delivered ≤ (s.events c).length ∧
      s.page.output = s.head ++ (((s.events c).take c.delivered).drop s.since).flatMap pageText := by
  obtain ⟨c, hc⟩ := Option.isSome_iff_exists.mp failingRun_reaches
  obtain ⟨s, hs, hc⟩ := Option.bind_eq_some_iff.mp hc
  exact ⟨s, c, hs, hc, session_output .ascii wirePlain hostPlain (str "OK") [] failingRun hs hc⟩

/-- One line, then the end of the output of a child that has exited. -/
def succeedingRun : List Lbl :=
  failingRun.take 10 ++
    [.server (.reap 0 0), .server (.resume 0 (.readLine []) (Solo.second 1)), .deliver 0]

/-- All events have come, and whether the last is a success the page can read. -/
def cameBack (success : Bool) (s : State) : Option Bool :=
  s.conns.getLast?.map fun c => decide (c.delivered = (s.events c).length ∧
    ∃ e ∈ (s.events c).getLast?, closes .ascii wirePlain (s.tool c) e = true ∧
      decide (e.status = some .success ∧ wirePlain.readable (s.tool c) e = true) = success)

theorem session_badge_runs :
    (∃ s, exec (step .ascii wirePlain hostPlain) (start (str "OK") []) succeedingRun = some s ∧
      s.page.badge = .success ∧ s.page.disabled = false) ∧
    ∃ s, exec (step .ascii wirePlain hostPlain) (start (str "OK") []) failingRun = some s ∧
      s.page.badge ≠ .success ∧ s.page.disabled = false := by
  have hgood : (exec (step .ascii wirePlain hostPlain) (start (str "OK") [])
      succeedingRun).bind (cameBack true) = some true := by decide +kernel
  have hbad : (exec (step .ascii wirePlain hostPlain) (start (str "OK") [])
      failingRun).bind (cameBack false) = some true := by decide +kernel
  constructor
  · obtain ⟨s, hs, h⟩ := Option.bind_eq_some_iff.mp hgood
    obtain ⟨c, hc, h⟩ := Option.map_eq_some_iff.mp h
    obtain ⟨hall, e, he, hcloses, hread⟩ := of_decide_eq_true h
    have hbadge := session_badge .ascii wirePlain hostPlain (str "OK") [] succeedingRun hs hc
    exact ⟨s, hs, hbadge.1.mpr ⟨hall, e, he, of_decide_eq_true hread⟩,
      hbadge.2.mpr (.inr ⟨hall, e, he, hcloses⟩)⟩
  · obtain ⟨s, hs, h⟩ := Option.bind_eq_some_iff.mp hbad
    obtain ⟨c, hc, h⟩ := Option.map_eq_some_iff.mp h
    obtain ⟨hall, e, he, hcloses, hread⟩ := of_decide_eq_true h
    have hbadge := session_badge .ascii wirePlain hostPlain (str "OK") [] failingRun hs hc
    refine ⟨s, hs, fun hsucc => ?_, hbadge.2.mpr (.inr ⟨hall, e, he, hcloses⟩)⟩
    obtain ⟨-, e', he', hread'⟩ := hbadge.1.mp hsucc
    rw [Option.mem_unique he' he] at hread'
    exact of_decide_eq_false hread hread'

end EbpfDemo.L5Concurrency.Session
