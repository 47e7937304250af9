import EbpfDemo.L4Client.Pipeline
import EbpfDemo.L5Concurrency.FailedReads
import EbpfDemo.L5Concurrency.UdpStat

/-!
# From the kernel to the metrics: net_udp_stat

The tool of `UdpStat` behind the generator of `L4Client.Pipeline`: sends and receives,
the map calls of the loader, the lines it prints, the reads of the generator, its
deadline and its signals, in any order.

* `udp_metrics`: when such a run sends its success event and has cut nothing, then for
  every PID what the metrics say, what is still in the pipe, what the map still holds and
  what did not land are the events of the PID, as numbers: for its sends, its receives and
  the bytes it sent.
-/
namespace EbpfDemo.L5Concurrency.UdpStat

open EbpfDemo.Core EbpfDemo.L1Encoding
open L3Loader L4Client
open FailedReads (udpKey)

/-! ## What it prints -/

/-- mirrors src/my_tools/network/net_udp_stat.c:82-83 -/
def sendPidKey (pid : UInt32) : Key :=
  .numbered (str "udp_send_pid_") [] pid.toNat
    ⟨by decide, by decide, by decide, pid.toNat_lt.trans (by decide)⟩

/-- mirrors src/my_tools/network/net_udp_stat.c:98-99 -/
def recvPidKey (pid : UInt32) : Key :=
  .numbered (str "udp_recv_pid_") [] pid.toNat
    ⟨by decide, by decide, by decide, pid.toNat_lt.trans (by decide)⟩

/-- mirrors src/my_tools/network/net_udp_stat.c:114-115 -/
def sendBytesPidKey (pid : UInt32) : Key :=
  .numbered (str "udp_send_bytes_pid_") [] pid.toNat
    ⟨by decide, by decide, by decide, pid.toNat_lt.trans (by decide)⟩

/-- mirrors src/my_tools/network/net_udp_stat.c:38 -/
def bannerText : Str := str "UDP Traffic Monitor started (waiting for events), Ctrl+C to stop"

/-- No JSON value begins with a U. -/
theorem loads_banner (recLimit : Nat) : Json.loads recLimit bannerText = .error .decode := by
  have hws : Json.skipWs bannerText = bannerText := by decide
  have hcons : bannerText = 0x55 :: bannerText.tail := by decide
  have hscan : Json.scanOnce recLimit bannerText = .error .decode := by
    rw [hcons]
    unfold Json.scanOnce
    rw [if_neg (by decide), if_neg (by decide), if_neg (by decide)]
    rfl
  have hmark : ¬ bannerText.head? = some 0xFEFF := by decide
  rw [Json.loads, if_neg hmark, hws, hscan]
  rfl

def banner : Note where
  text := bannerText
  plain := by decide
  ignored recLimit out := by
    have hkv : kvLine bannerText = none := by decide
    unfold parseLine
    rw [hkv, loads_banner]

/-- mirrors src/my_tools/network/net_udp_stat.c:58-66,81-84,97-100,113-116 -/
def State.prints (s : State) : Label → List Line
  | .event _ => []
  | .poll _ => match s.phase with
    | .look _ => []
    | .print =>
      (((List.finRange 4).map fun i => (i, s.cur i - s.prev i)).filter
        fun e => decide (e.2 > 0)).map fun e => .count (udpKey e.1) e.2
    | .send => (s.send.prints udpSend).map fun e => .count (sendPidKey e.1) e.2
    | .recv => (s.recv.prints udpRecv).map fun e => .count (recvPidKey e.1) e.2
    | .sendBytes => (s.sendBytes.prints udpSendBytes).map fun e => .count (sendBytesPidKey e.1) e.2

def program : Program State Label := ⟨step, State.prints⟩

/-! ## Labels apart -/

theorem sendPidKey_inj {p q : UInt32} (h : sendPidKey p = sendPidKey q) : p = q :=
  UInt32.toNat_inj.mp (numbered_inj (str "udp_send_pid_") [] (congrArg Key.text h))

theorem recvPidKey_inj {p q : UInt32} (h : recvPidKey p = recvPidKey q) : p = q :=
  UInt32.toNat_inj.mp (numbered_inj (str "udp_recv_pid_") [] (congrArg Key.text h))

theorem sendBytesPidKey_inj {p q : UInt32} (h : sendBytesPidKey p = sendBytesPidKey q) : p = q :=
  UInt32.toNat_inj.mp (numbered_inj (str "udp_send_bytes_pid_") [] (congrArg Key.text h))

theorem sendPidKey_ne (p : UInt32) :
    (∀ i, udpKey i ≠ sendPidKey p) ∧ (∀ q, recvPidKey q ≠ sendPidKey p) ∧
      ∀ q, sendBytesPidKey q ≠ sendPidKey p := by
  refine ⟨fun i => (numbered_ne ?_).symm, fun q => (numbered_ne ?_).symm,
    fun q => (numbered_ne ?_).symm⟩
  · fin_cases i <;> decide
  · rw [recvPidKey, take_numbered (by decide)]
    decide
  · rw [sendBytesPidKey, take_numbered (by decide)]
    decide

theorem recvPidKey_ne (p : UInt32) :
    (∀ i, udpKey i ≠ recvPidKey p) ∧ (∀ q, sendPidKey q ≠ recvPidKey p) ∧
      ∀ q, sendBytesPidKey q ≠ recvPidKey p := by
  refine ⟨fun i => (numbered_ne ?_).symm, fun q => (numbered_ne ?_).symm,
    fun q => (numbered_ne ?_).symm⟩
  · fin_cases i <;> decide
  · rw [sendPidKey, take_numbered (by decide)]
    decide
  · rw [sendBytesPidKey, take_numbered (by decide)]
    decide

theorem sendBytesPidKey_ne (p : UInt32) :
    (∀ i, udpKey i ≠ sendBytesPidKey p) ∧ (∀ q, sendPidKey q ≠ sendBytesPidKey p) ∧
      ∀ q, recvPidKey q ≠ sendBytesPidKey p := by
  refine ⟨fun i => (numbered_ne ?_).symm, fun q h => (sendPidKey_ne q).2.2 p h.symm,
    fun q h => (recvPidKey_ne q).2.2 p h.symm⟩
  fin_cases i <;> decide

/-! ## The figures of a PID -/

def only (p : UInt32) (q : UInt32) : Bool := q = p

/-- What was shown of the PID. -/
def shownOf (p : UInt32) (s : DState UInt32 UInt64) : Nat :=
  (s.shown.map fun e => within (only p) id e.1 e.2).sum

/-- The lines of a loop under the label of the PID. -/
theorem countAt_own {key : UInt32 → Key} (hinj : ∀ {p q}, key p = key q → p = q) (p : UInt32)
    (l : List (UInt32 × UInt64)) :
    countAt (key p) (l.map fun e => .count (key e.1) e.2) =
      (l.map fun e => within (only p) id e.1 e.2).sum := by
  unfold countAt
  rw [List.map_map]
  congr 1
  apply List.map_congr_left
  intro e _
  by_cases h : e.1 = p
  · simp [Line.amount, within, only, h]
  · have hk : key e.1 ≠ key p := fun hk => h (hinj hk)
    simp [Line.amount, within, only, h, hk]

theorem shownOf_pollStep {key : UInt32 → Key} (hinj : ∀ {p q}, key p = key q → p = q) (p : UInt32)
    (d : Drain UInt32 UInt64) (s : DState UInt32 UInt64) :
    shownOf p (pollStep d s) =
      shownOf p s + countAt (key p) ((s.prints d).map fun e => .count (key e.1) e.2) := by
  rw [countAt_own hinj, shownOf, shown_pollStep, List.map_append, List.sum_append]
  rfl

section
variable {s s' : State} {l : Label}

theorem handle_shown (s : State) (e : Event) (p : UInt32) :
    shownOf p (s.withMaps (e.handle s.maps)).send = shownOf p s.send ∧
      shownOf p (s.withMaps (e.handle s.maps)).recv = shownOf p s.recv ∧
      shownOf p (s.withMaps (e.handle s.maps)).sendBytes = shownOf p s.sendBytes := by
  cases e with
  | sendmsg pid len => exact ⟨rfl, rfl, rfl⟩
  | recvmsg pid ret =>
    simp only [Event.handle, handleUdpRecvmsg]
    split_ifs <;> exact ⟨rfl, rfl, rfl⟩

/-- **One step** shows what it prints. -/
theorem sends_printed (p : UInt32) (h : step s l = some s') :
    shownOf p s'.send = shownOf p s.send + countAt (sendPidKey p) (s.prints l) := by
  obtain ⟨htotal, hrecv, hbytes⟩ := sendPidKey_ne p
  cases l with
  | event e => cases h; exact (handle_shown s e p).1
  | poll ok =>
    cases h
    cases hp : s.phase <;> simp only [State.poll, State.prints, hp]
    case look => rfl
    case print => rw [countAt_other fun e _ => htotal e.1]; rfl
    case send => exact shownOf_pollStep sendPidKey_inj p udpSend s.send
    case recv => rw [countAt_other fun e _ => hrecv e.1]; rfl
    case sendBytes => rw [countAt_other fun e _ => hbytes e.1]; rfl

theorem recvs_printed (p : UInt32) (h : step s l = some s') :
    shownOf p s'.recv = shownOf p s.recv + countAt (recvPidKey p) (s.prints l) := by
  obtain ⟨htotal, hsend, hbytes⟩ := recvPidKey_ne p
  cases l with
  | event e => cases h; exact (handle_shown s e p).2.1
  | poll ok =>
    cases h
    cases hp : s.phase <;> simp only [State.poll, State.prints, hp]
    case look => rfl
    case print => rw [countAt_other fun e _ => htotal e.1]; rfl
    case send => rw [countAt_other fun e _ => hsend e.1]; rfl
    case recv => exact shownOf_pollStep recvPidKey_inj p udpRecv s.recv
    case sendBytes => rw [countAt_other fun e _ => hbytes e.1]; rfl

theorem bytes_printed (p : UInt32) (h : step s l = some s') :
    shownOf p s'.sendBytes = shownOf p s.sendBytes + countAt (sendBytesPidKey p) (s.prints l) := by
  obtain ⟨htotal, hsend, hrecv⟩ := sendBytesPidKey_ne p
  cases l with
  | event e => cases h; exact (handle_shown s e p).2.2
  | poll ok =>
    cases h
    cases hp : s.phase <;> simp only [State.poll, State.prints, hp]
    case look => rfl
    case print => rw [countAt_other fun e _ => htotal e.1]; rfl
    case send => rw [countAt_other fun e _ => hsend e.1]; rfl
    case recv => rw [countAt_other fun e _ => hrecv e.1]; rfl
    case sendBytes => exact shownOf_pollStep sendBytesPidKey_inj p udpSendBytes s.sendBytes

end

/-! ## The whole way -/

variable {Tool Summary : Type} [DecidableEq Tool]

/-- **Every event is accounted for.** In every interleaving of sends, receives, map calls
of the loader and steps of the generator that reads its output: when the success event is
sent and nothing was cut, what its metrics have of a PID, the lines still in the pipe, what
the map holds and the events that did not land are the events of the PID, as long as they
are fewer than 2^53. -/
theorem udp_metrics (b br bb : UInt32 → Nat) (recLimit : Nat) (describe : PyErr → Str)
    (summarize : Tool → Metrics Binary64 → ℚ → Except Str Summary) (a : App Tool) (t : Tool)
    (d : ℚ) (ms : List (Move Label)) {u : Pipeline State Tool Summary}
    (hx : exec (Pipeline.step program (.client recLimit describe summarize))
      (.start (start b br bb) [.note banner] a t d) ms = some u)
    {dur : ℚ} {m : Metrics Binary64} {sm : Summary}
    (hm : .success dur m sm ∈ eventsOf u.solo.gen.acts)
    (hcut : u.solo.gen.outputTruncated = false) (p : UInt32) :
    (((events ms).map (Label.sends (only p))).sum < 2 ^ 53 → Traced m (sendPidKey p)
        (countAt (sendPidKey p) u.pipe + u.program.send.held (within (only p) id) +
          sumAlong step (lostSends (only p)) (start b br bb) (events ms))
        ((events ms).map (Label.sends (only p))).sum) ∧
      (((events ms).map (Label.recvs (only p))).sum < 2 ^ 53 → Traced m (recvPidKey p)
        (countAt (recvPidKey p) u.pipe + u.program.recv.held (within (only p) id) +
          sumAlong step (lostRecvs (only p)) (start b br bb) (events ms))
        ((events ms).map (Label.recvs (only p))).sum) ∧
      (((events ms).map (Label.bytes (only p))).sum < 2 ^ 53 → Traced m (sendBytesPidKey p)
        (countAt (sendBytesPidKey p) u.pipe + u.program.sendBytes.held (within (only p) id) +
          sumAlong step (lostBytes (only p)) (start b br bb) (events ms))
        ((events ms).map (Label.bytes (only p))).sum) := by
  have hrun := Pipeline.program_exec hx
  refine ⟨fun hlt => ?_, fun hlt => ?_, fun hlt => ?_⟩
  · exact traced_of_books hx hm hcut (f := fun s => shownOf p s.send)
      (fun _ _ _ h => sends_printed p h) rfl rfl (sends_exec b br bb hrun (only p)) hlt
  · exact traced_of_books hx hm hcut (f := fun s => shownOf p s.recv)
      (fun _ _ _ h => recvs_printed p h) rfl rfl (recvs_exec b br bb hrun (only p)) hlt
  · exact traced_of_books hx hm hcut (f := fun s => shownOf p s.sendBytes)
      (fun _ _ _ h => bytes_printed p h) rfl rfl (bytes_exec b br bb hrun (only p)) hlt

/-! ## A run -/

def client : Host String Unit := .client 1000 (fun _ => []) fun _ _ _ => .ok ()

/-- PID 7 sends twice, 100 and 50 bytes; a poll prints both; a third send stays in the map.
The generator reads the banner and three lines, and stops the tool at its deadline. -/
def counted : List (Move Label) :=
  [.turn (.resume .next (Solo.signals .ok)), .turn (.resume .spawned (Solo.signals .ok)),
    .run (.event (.sendmsg 7 100)), .run (.event (.sendmsg 7 50))] ++
    List.replicate 17 (.run (.poll true)) ++ [.run (.event (.sendmsg 7 80))] ++
    [banner.text, str "udp_send_count: 2", str "udp_send_bytes: 150",
      str "udp_send_pid_7: 2"].flatMap
      (fun t => (feed (bytes (t ++ [0x0A]))).map .turn) ++
    [.turn (.resume (.disconnected false) (Solo.second 11)), .turn (.reap 0),
      .turn (.resume .waited (Solo.second 11))]

/-- The statuses sent, whether the output was cut, the lines in the pipe and the sends of
PID 7 in the map. -/
def left (u : Pipeline State String Unit) : List Status × Bool × Nat × Nat :=
  ((eventsOf u.solo.gen.acts).filterMap Event.status, u.solo.gen.outputTruncated, u.pipe.length,
    u.program.send.held (within (only 7) id))

theorem udp_metrics_counted : ∃ u dur m sm,
    exec (Pipeline.step program client) (.start (start UInt32.toNat UInt32.toNat UInt32.toNat)
        [.note banner] .start "net_udp_stat" 10) counted = some u ∧
      .success dur m sm ∈ eventsOf u.solo.gen.acts ∧
      left u = ([.success], false, 1, 1) ∧
      Traced m (sendPidKey 7) (countAt (sendPidKey 7) u.pipe +
        u.program.send.held (within (only 7) id) + sumAlong step (lostSends (only 7))
          (start UInt32.toNat UInt32.toNat UInt32.toNat) (events counted))
        ((events counted).map (Label.sends (only 7))).sum := by
  have hx : (exec (Pipeline.step program client)
      (.start (start UInt32.toNat UInt32.toNat UInt32.toNat) [.note banner] .start "net_udp_stat" 10)
      counted).map left = some ([.success], false, 1, 1) := by decide +kernel
  obtain ⟨u, hu, hleft⟩ := Option.map_eq_some_iff.mp hx
  obtain ⟨hstatus, hrest⟩ := Prod.mk.inj hleft
  have hsome : Status.success ∈ (eventsOf u.solo.gen.acts).filterMap Event.status := by
    rw [hstatus]
    exact List.mem_cons_self
  obtain ⟨e, he, hst⟩ := List.mem_filterMap.mp hsome
  cases e with
  | success dur m sm =>
    exact ⟨u, dur, m, sm, hu, he, hleft, (udp_metrics _ _ _ 1000 _ _ .start "net_udp_stat" 10 counted
      hu he (Prod.mk.inj hrest).1 7).1 (by decide +kernel)⟩
  | _ => cases hst

end EbpfDemo.L5Concurrency.UdpStat
