import Mathlib.Data.Nat.Digits.Lemmas
import EbpfDemo.L1Encoding.Metrics
import EbpfDemo.L2Kernel.Counters

/-!
# Lines that carry a process name

The loaders print a record as `label: count` with the process name pasted into
the label, `irq_stat` as `{"name": count}`. `parse_output_metrics` reads the
lines back. A name is any 0 to 15 bytes without NUL.

* `label_iff`: a labelled record comes back as its own label with its count
  exactly when all bytes of the name are in `[A-Za-z0-9_.-]`;
* `irqLine_iff`: a JSON record of a name in UTF-8 comes back as its own name with
  its count exactly when the name has no quote, backslash, control character or
  line separator and the count is a double.

In the other cases the record is gone, or the name makes an entry under a key of
its own choice (`label_space`, `irqLine_quote`).
-/
namespace EbpfDemo.L1Encoding

open EbpfDemo.Core
open L2Kernel (Comm)

/-! ## printf -/

/-- `%u`, `%llu` -/
def decimal (n : Nat) : Str := if n = 0 then [0x30] else ((Nat.digits 10 n).map (0x30 + ·)).reverse

theorem decimal_digit {n c : Nat} (h : c ∈ decimal n) : 0x30 ≤ c ∧ c ≤ 0x39 := by
  unfold decimal at h
  split at h
  · rw [List.mem_singleton.mp h]; decide
  · obtain ⟨d, hd, rfl⟩ := List.mem_map.mp (List.mem_reverse.mp h)
    have := Nat.digits_lt_base (by decide : 1 < 10) hd
    omega

theorem decimal_ne_nil (n : Nat) : decimal n ≠ [] := by
  unfold decimal
  split
  · simp
  · rename_i h; simpa using Nat.digits_ne_nil_iff_ne_zero.mpr h

/-- Reading the digits back. -/
theorem foldl_decimal (n : Nat) : (decimal n).foldl (fun a c => 10 * a + (c - 0x30)) 0 = n := by
  unfold decimal
  split
  · rename_i h; rw [h]; rfl
  · rw [List.foldl_reverse, List.foldr_map]
    have h := Nat.ofDigits_digits 10 n
    rw [Nat.ofDigits_eq_foldr] at h
    calc _ = List.foldr (fun x y => x + 10 * y) 0 (Nat.digits 10 n) := by
          congr 1; funext x y; omega
      _ = n := h

/-- No leading zero. -/
theorem decimal_head {n c : Nat} {s : Str} (h : decimal n = c :: s) (hc : c = 0x30) : s = [] := by
  unfold decimal at h
  split at h
  · cases h; rfl
  · rename_i hn
    have hlast := Nat.getLast_digit_ne_zero 10 hn
    have hne := Nat.digits_ne_nil_iff_ne_zero (b := 10).mpr hn
    have hh : (((Nat.digits 10 n).map (0x30 + ·)).reverse).head? = some c := by rw [h]; rfl
    rw [List.head?_reverse, List.getLast?_map, List.getLast?_eq_some_getLast hne] at hh
    simp only [Option.map_some, Option.some.injEq] at hh
    omega

theorem length_decimal {n : Nat} (h : n < 2 ^ 64) : (decimal n).length ≤ 20 := by
  unfold decimal
  split
  · decide
  · rw [List.length_reverse, List.length_map, Nat.digits_length_le_iff (by decide)]
    omega

/-- The bytes of ASCII text. -/
def bytes (s : Str) : List UInt8 := s.map UInt8.ofNat

theorem toNat_bytes {s : Str} (h : ∀ c ∈ s, c < 0x80) : (bytes s).map UInt8.toNat = s := by
  unfold bytes
  rw [List.map_map]
  refine (List.map_congr_left fun c hc => ?_).trans (List.map_id s)
  exact toNat_ofNat (by have := h c hc; omega)

theorem ascii_bytes {s : Str} (h : ∀ c ∈ s, c < 0x80) : ∀ b ∈ bytes s, b.toNat < 0x80 := by
  intro b hb
  obtain ⟨c, hc, rfl⟩ := List.mem_map.mp hb
  rw [toNat_ofNat (by have := h c hc; omega)]; exact h c hc

theorem decode_bytes {s : Str} (h : ∀ c ∈ s, c < 0x80) : decode (bytes s) = s := by
  rw [decode_ascii (ascii_bytes h), toNat_bytes h]

example : decimal 1205 = str "1205" := by decide

/-! ## A number read back -/

theorem digitVal_ascii {c : Nat} (h : 0x30 ≤ c ∧ c ≤ 0x39) : digitVal c = some (c - 0x30) := if_pos h

theorem isDecimal_decimal {n c : Nat} (h : c ∈ decimal n) : isDecimal c = true := by
  rw [isDecimal, digitVal_ascii (decimal_digit h)]; rfl

theorem digitsVal_decimal (n : Nat) : digitsVal (decimal n) = n := by
  have h : digitsVal (decimal n) = (decimal n).foldl (fun a c => 10 * a + (c - 0x30)) 0 := by
    unfold digitsVal
    refine List.foldl_ext _ _ _ fun a c hc => ?_
    rw [digitVal_ascii (decimal_digit hc)]; rfl
  rw [h, foldl_decimal]

theorem number_decimal (n : Nat) : number (decimal n) = some (n : ℚ) := by
  have hbody : decimalBody (decimal n) = some (n : ℚ) := by
    unfold decimalBody
    have hd : (decimal n).dropWhile isDecimal = [] :=
      List.dropWhile_eq_nil_iff.mpr fun c hc => isDecimal_decimal hc
    rw [hd]
    simp only [if_neg (decimal_ne_nil n), digitsVal_decimal]
  rw [← hbody]
  have hdig := fun c => decimal_digit (n := n) (c := c)
  unfold number
  split
  · rename_i s h; have := hdig 0x2B (h ▸ List.mem_cons_self); omega
  · rename_i s h; have := hdig 0x2D (h ▸ List.mem_cons_self); omega
  · rfl

theorem isSpace_of_isKeyChar {c : Nat} (h : isKeyChar c = true) : isSpace c = false := by
  simp only [isKeyChar, isSpace, Bool.or_eq_true, Bool.and_eq_true, decide_eq_true_eq,
    Bool.or_eq_false_iff, Bool.and_eq_false_iff, decide_eq_false_iff_not] at h ⊢
  omega

theorem isSpace_of_digit {c : Nat} (h : 0x30 ≤ c ∧ c ≤ 0x39) : isSpace c = false :=
  isSpace_of_isKeyChar (by simp [isKeyChar, h])

/-- No space in front: nothing to skip. -/
theorem dropWhile_isSpace {s : Str} (hne : s ≠ []) (hs : ∀ c ∈ s, isSpace c = false) (t : Str) :
    (s ++ t).dropWhile isSpace = s ++ t := by
  obtain ⟨c, s, rfl⟩ := List.exists_cons_of_ne_nil hne
  rw [List.cons_append, List.dropWhile_cons, hs c List.mem_cons_self]; rfl

section
variable {key t : Str} {q : ℚ}

/-- A number behind the separator and a space. -/
theorem kvNumber_text (hne : t ≠ []) (ht : ∀ c ∈ t, isSpace c = false) (hn : number t = some q) :
    kvNumber (0x20 :: t) = some q := by
  have h1 : (0x20 :: t).dropWhile isSpace = t := by
    have := dropWhile_isSpace hne ht []
    rw [List.append_nil] at this
    rw [List.dropWhile_cons]; exact this
  have h2 : t.takeWhile (fun c => !isSpace c) = t :=
    List.takeWhile_eq_self_iff.mpr fun c hc => by rw [ht c hc]; rfl
  have h3 : t.dropWhile (fun c => !isSpace c) = [] :=
    List.dropWhile_eq_nil_iff.mpr fun c hc => by rw [ht c hc]; rfl
  unfold kvNumber
  dsimp only
  rw [h1, h2, h3, hn]; rfl

/-- The expression on a line `key: number`. -/
theorem kvLine_text (hne : key ≠ []) (hk : ∀ c ∈ key, isKeyChar c = true) (ht0 : t ≠ [])
    (ht : ∀ c ∈ t, isSpace c = false) (hn : number t = some q) :
    kvLine (key ++ 0x3A :: 0x20 :: t) = some (key, q) := by
  have h1 := dropWhile_isSpace hne (fun c hc => isSpace_of_isKeyChar (hk c hc)) (0x3A :: 0x20 :: t)
  have h2 : (key ++ 0x3A :: 0x20 :: t).takeWhile isKeyChar = key := by
    rw [List.takeWhile_append_of_pos hk]; simp [isKeyChar]
  have h3 : ((key ++ 0x3A :: 0x20 :: t).dropWhile isKeyChar).dropWhile isSpace =
      0x3A :: 0x20 :: t := by
    rw [List.dropWhile_append_of_pos hk]; rfl
  obtain ⟨c, key', rfl⟩ := List.exists_cons_of_ne_nil hne
  unfold kvLine
  dsimp only
  rw [h1, h2, h3]
  dsimp only
  rw [if_pos (.inl rfl), kvNumber_text ht0 ht hn]; rfl

/-- The expression on a line `key: n`. -/
theorem kvLine_record (hne : key ≠ []) (hk : ∀ c ∈ key, isKeyChar c = true) (n : Nat) :
    kvLine (key ++ 0x3A :: 0x20 :: decimal n) = some (key, (n : ℚ)) :=
  kvLine_text hne hk (decimal_ne_nil n) (fun _ hc => isSpace_of_digit (decimal_digit hc))
    (number_decimal n)

end

/-! ## Labelled records -/

/-- The labels with a name in them. -/
inductive Label where
  | pidComm | commPid | retransPid | retransComm | openComm | oomVictim
  deriving DecidableEq

/-- The label in front of the name.
mirrors src/my_tools/network/tcp_connect.c:29, memo/page_fault_stat.c:49,
network/net_tcp_retransmit.c:73, 92, file/file_open_stat.c:89,
memo/mem_oom_stat.c:75 -/
def Label.front (f : Label) (pid : UInt32) : Str :=
  match f with
  | .pidComm => str "PID_" ++ decimal pid.toNat ++ str "_"
  | .commPid => []
  | .retransPid => str "tcp_retrans_pid_" ++ decimal pid.toNat ++ str "_"
  | .retransComm => str "tcp_retrans_comm_"
  | .openComm => str "open_comm_"
  | .oomVictim => str "oom_victim_pid_" ++ decimal pid.toNat ++ str "_"

/-- The label behind the name. -/
def Label.back (f : Label) (pid : UInt32) : Str :=
  match f with
  | .commPid => str "_" ++ decimal pid.toNat
  | _ => []

/-- The bytes of the label. -/
def Label.key (f : Label) (pid : UInt32) (comm : Comm) : List UInt8 :=
  bytes (f.front pid) ++ comm.bytes ++ bytes (f.back pid)

/-- What the loader prints for one record. -/
def Label.record (f : Label) (pid : UInt32) (comm : Comm) (count : UInt64) : List UInt8 :=
  f.key pid comm ++ bytes (str ": " ++ decimal count.toNat ++ str "\n")

theorem isKeyChar_ascii {c : Nat} (h : isKeyChar c = true) : c < 0x80 := by
  simp only [isKeyChar, Bool.or_eq_true, Bool.and_eq_true, decide_eq_true_eq] at h
  omega

theorem isBreak_of_isKeyChar {c : Nat} (h : isKeyChar c = true) : isBreak c = false := by
  simp only [isKeyChar, isBreak, Bool.or_eq_true, Bool.and_eq_true, decide_eq_true_eq,
    Bool.or_eq_false_iff, decide_eq_false_iff_not] at h ⊢
  omega

theorem isKeyChar_decimal {n c : Nat} (h : c ∈ decimal n) : isKeyChar c = true := by
  have := decimal_digit h
  simp [isKeyChar, this]

theorem all_decimal (n : Nat) : (decimal n).all isKeyChar = true :=
  List.all_eq_true.mpr fun _ h => isKeyChar_decimal h

/-- The label around the name is made of key characters. -/
theorem Label.safe (f : Label) (pid : UInt32) :
    (∀ c ∈ f.front pid, isKeyChar c = true) ∧ ∀ c ∈ f.back pid, isKeyChar c = true := by
  rw [← List.all_eq_true, ← List.all_eq_true]
  cases f <;> simp only [Label.front, Label.back, List.all_append, all_decimal, Bool.and_true] <;>
    decide

theorem Label.length_le (f : Label) (pid : UInt32) :
    (f.front pid).length + (f.back pid).length ≤ 40 := by
  have h : (decimal pid.toNat).length ≤ 20 := length_decimal (by have := pid.toNat_lt; omega)
  have hc : (str "PID_").length = 4 ∧ (str "_").length = 1 ∧ (str "tcp_retrans_pid_").length = 16 ∧
      (str "tcp_retrans_comm_").length = 17 ∧ (str "open_comm_").length = 10 ∧
      (str "oom_victim_pid_").length = 15 := by decide
  cases f <;> simp only [Label.front, Label.back, List.length_append, List.length_nil, hc] <;> omega

/-- The text of a record: its label, then `: ` and the count. -/
theorem Label.decode_record (f : Label) (pid : UInt32) (comm : Comm) (count : UInt64) :
    decode (f.record pid comm count) =
      decode (f.key pid comm) ++ 0x3A :: 0x20 :: (decimal count.toNat ++ [0x0A]) := by
  have htail : ∀ c ∈ str ": " ++ decimal count.toNat ++ str "\n", c < 0x80 := by
    intro c hc
    rcases List.mem_append.mp hc with hc | hc
    · rcases List.mem_append.mp hc with hc | hc
      · exact (by decide : ∀ c ∈ str ": ", c < 0x80) c hc
      · exact isKeyChar_ascii (isKeyChar_decimal hc)
    · exact (by decide : ∀ c ∈ str "\n", c < 0x80) c hc
  have hcons : str ": " ++ decimal count.toNat ++ str "\n" =
      0x3A :: 0x20 :: (decimal count.toNat ++ [0x0A]) := rfl
  have hd := decode_bytes htail
  rw [hcons] at hd
  unfold Label.record
  rw [hcons]
  show decode (f.key pid comm ++ UInt8.ofNat 0x3A :: bytes (0x20 :: (decimal count.toNat ++ [0x0A]))) = _
  rw [decode_append_ascii (by decide)]
  have hd' : decode (bytes (0x20 :: (decimal count.toNat ++ [0x0A]))) =
      0x20 :: (decimal count.toNat ++ [0x0A]) :=
    decode_bytes fun c hc => htail c (by rw [hcons]; exact List.mem_cons_of_mem _ hc)
  rw [hd']; rfl

/-- A name of key characters makes a label of key characters. -/
theorem Label.decode_key_safe (f : Label) (pid : UInt32) {comm : Comm}
    (h : ∀ b ∈ comm.bytes, isKeyChar b.toNat = true) :
    decode (f.key pid comm) = f.front pid ++ comm.bytes.map UInt8.toNat ++ f.back pid ∧
      (∀ c ∈ decode (f.key pid comm), isKeyChar c = true) ∧
      decode (f.key pid comm) ≠ [] ∧ (decode (f.key pid comm)).length ≤ 128 := by
  obtain ⟨hf, hb⟩ := f.safe pid
  have hfa := fun c hc => isKeyChar_ascii (hf c hc)
  have hba := fun c hc => isKeyChar_ascii (hb c hc)
  have hkey : decode (f.key pid comm) = f.front pid ++ comm.bytes.map UInt8.toNat ++ f.back pid := by
    rw [Label.key, decode_ascii]
    · rw [List.map_append, List.map_append, toNat_bytes hfa, toNat_bytes hba]
    · intro b hm
      rcases List.mem_append.mp hm with hm | hm
      · rcases List.mem_append.mp hm with hm | hm
        · exact ascii_bytes hfa b hm
        · exact isKeyChar_ascii (h b hm)
      · exact ascii_bytes hba b hm
  refine ⟨hkey, fun c hc => ?_, ?_, ?_⟩
  · rw [hkey] at hc
    rcases List.mem_append.mp hc with hc | hc
    · rcases List.mem_append.mp hc with hc | hc
      · exact hf c hc
      · obtain ⟨b, hm, rfl⟩ := List.mem_map.mp hc
        exact h b hm
    · exact hb c hc
  · rw [hkey]
    cases f <;> simp [Label.front, Label.back, decimal_ne_nil,
      show str "tcp_retrans_comm_" ≠ [] by decide, show str "open_comm_" ≠ [] by decide]
  · rw [hkey]
    have := f.length_le pid
    have := comm.length_le
    simp only [List.length_append, List.length_map]; omega

/-- A `q` stands in front of a tail that has none. -/
theorem length_lt_of_last {x y c t : Str} {q : Nat} (h : x ++ q :: c = y ++ t) (ht : q ∉ t) :
    x.length < y.length := by
  rcases List.append_eq_append_iff.mp h with ⟨z, rfl, hz⟩ | ⟨z, rfl, hz⟩
  · cases z with
    | nil =>
      rw [List.nil_append] at hz
      exact absurd (hz ▸ List.mem_cons_self) ht
    | cons w z => simp
  · exact absurd (hz ▸ List.mem_append_right _ List.mem_cons_self) ht

/-- No key of the result can be the label unless the expression matched it. -/
theorem Label.not_keyOf {f : Label} {pid : UInt32} {comm : Comm} {count : UInt64} {ln : Str}
    (hln : ln ∈ splitlines (decode (f.record pid comm count))) :
    ¬ Json.KeyOf (decode (f.key pid comm)) ln := by
  intro h
  obtain ⟨a, b, c, he, hq⟩ := h.mono (mem_splitlines hln).1
  rw [f.decode_record] at he
  have hno : 0x22 ∉ 0x3A :: 0x20 :: (decimal count.toNat ++ [0x0A]) := by
    intro hm
    simp only [List.mem_cons, List.mem_append, List.not_mem_nil, or_false] at hm
    rcases hm with hm | hm | hm | hm
    · cases hm
    · cases hm
    · have := decimal_digit hm; omega
    · cases hm
  have hlt := length_lt_of_last (x := a ++ 0x22 :: b) (c := c) (by rw [he]; simp) hno
  have := hq.le
  simp only [List.length_append, List.length_cons] at hlt
  omega

theorem parseLine_record {F : Type} {N : Floats F} {recLimit : Nat} {key : Str} (hne : key ≠ [])
    (hk : ∀ c ∈ key, isKeyChar c = true) (hlen : key.length ≤ 128) {n : Nat} {v : F}
    (hv : N.ofRat n = v) (hfin : N.isFinite v = true) :
    parseLine N recLimit [] (key ++ 0x3A :: 0x20 :: decimal n) = .ok [(key, N.add N.zero v)] := by
  unfold parseLine
  rw [kvLine_record hne hk]
  simp only [hv, hfin, hlen, and_self, if_true]
  rfl

/-- **Labelled records.** A record comes back as its own label with its count
exactly when every byte of the name is in `[A-Za-z0-9_.-]`. -/
theorem label_iff (recLimit : Nat) (f : Label) (pid : UInt32) (comm : Comm) (count : UInt64)
    (hc : count.toNat < 2 ^ 53) :
    parseOutputMetrics binary64 recLimit (decode (f.record pid comm count)) =
        .ok [(decode (f.key pid comm), .fin count.toNat (Binary64.representable_natCast hc))] ↔
      ∀ b ∈ comm.bytes, isKeyChar b.toNat = true := by
  constructor
  · intro h b hb
    obtain ⟨ln, hln, hs⟩ := source_of_mem h (k := decode (f.key pid comm)) (by simp [Assoc.keys])
    rcases hs with ⟨q, hq⟩ | hq
    · -- matched: the label, and so the name, is made of key characters
      have hsafe := kvLine_key hq
      have hascii := ascii_of_decode fun c hc => isKeyChar_ascii (hsafe c hc)
      rw [decode_ascii hascii] at hsafe
      refine hsafe _ (List.mem_map.mpr ⟨b, ?_, rfl⟩)
      exact List.mem_append_left _ (List.mem_append_right _ hb)
    · exact absurd hq (Label.not_keyOf hln)
  · intro h
    obtain ⟨-, hsafe, hne, hlen⟩ := f.decode_key_safe pid h
    have hbreak : ∀ c ∈ decode (f.key pid comm) ++ 0x3A :: 0x20 :: decimal count.toNat,
        isBreak c = false := by
      intro c hm
      simp only [List.mem_append, List.mem_cons] at hm
      rcases hm with hm | rfl | rfl | hm
      · exact isBreak_of_isKeyChar (hsafe c hm)
      · rfl
      · rfl
      · exact isBreak_of_isKeyChar (isKeyChar_decimal hm)
    have hline : splitlines (decode (f.record pid comm count)) =
        [decode (f.key pid comm) ++ 0x3A :: 0x20 :: decimal count.toNat] := by
      rw [f.decode_record]
      have := splitlines_line hbreak []
      rw [List.append_assoc] at this
      exact this
    have hrep := Binary64.representable_natCast hc
    have hfin : binary64.ofRat (count.toNat : ℚ) = .fin count.toNat hrep :=
      Binary64.ofRat_of_representable hrep
    unfold parseOutputMetrics
    rw [hline]
    rw [List.foldlM_cons, parseLine_record hne hsafe hlen hfin rfl]
    have hadd : binary64.add binary64.zero (.fin count.toNat hrep) = .fin count.toNat hrep :=
      Binary64.zero_add hrep
    rw [hadd]; rfl

theorem label_iff_plain :
    parseOutputMetrics binary64 1000
        (decode (Label.record .pidComm 1 ⟨[97, 98], by decide, by decide⟩ 3)) =
      .ok [(decode (Label.key .pidComm 1 ⟨[97, 98], by decide, by decide⟩),
        .fin 3 (Binary64.representable_natCast (n := 3) (by decide)))] :=
  (label_iff 1000 .pidComm 1 ⟨[97, 98], by decide, by decide⟩ 3 (by decide)).mpr
    (List.all_eq_true.mp (by decide))

/-- **Counterexample.** A name with a space: the record is gone. A name that
starts with a line end: the count appears under a key the name chose. -/
theorem label_space :
    parseOutputMetrics binary64 1000
      (decode (Label.record .pidComm 1 ⟨[97, 32, 98], by decide, by decide⟩ 3)) = .ok [] ∧
    (parseOutputMetrics binary64 1000
      (decode (Label.record .pidComm 1 ⟨[10, 120], by decide, by decide⟩ 3))).map Assoc.keys =
        .ok [str "x"] := by
  decide +kernel

/-! ## The JSON records of irq_stat -/

/-- mirrors src/my_tools/cpu/irq_stat.c:77-78 -/
def irqLine (comm : Comm) (count : UInt64) : List UInt8 :=
  bytes (str "\x7b" ++ [0x22]) ++ comm.bytes ++
    bytes ([0x22] ++ str ": " ++ decimal count.toNat ++ str "\x7d\n")

/-- A character that JSON strings and lines can hold as it stands. -/
def plainChar (c : Nat) : Bool :=
  c != 0x22 && c != 0x5C && decide (0x20 ≤ c) && c != 0x85 && c != 0x2028 && c != 0x2029

theorem decode_irqLine {comm : Comm} {name : Str} (hs : ∀ c ∈ name, Scalar c)
    (hn : comm.bytes = encode name) (count : UInt64) :
    decode (irqLine comm count) =
      0x7B :: 0x22 :: (name ++ 0x22 :: 0x3A :: 0x20 :: (decimal count.toNat ++ [0x7D, 0x0A])) := by
  have htail : ∀ c ∈ 0x22 :: 0x3A :: 0x20 :: (decimal count.toNat ++ [0x7D, 0x0A]), c < 0x80 := by
    intro c hc
    simp only [List.mem_cons, List.mem_append, List.not_mem_nil, or_false] at hc
    rcases hc with rfl | rfl | rfl | hc | rfl | rfl
    iterate 3 decide
    · have := decimal_digit hc; omega
    iterate 2 decide
  have hcons : [0x22] ++ str ": " ++ decimal count.toNat ++ str "\x7d\n" =
      0x22 :: 0x3A :: 0x20 :: (decimal count.toNat ++ [0x7D, 0x0A]) := rfl
  unfold irqLine
  rw [hcons, hn, List.append_assoc]
  show decode (UInt8.ofNat 0x7B :: UInt8.ofNat 0x22 :: (encode name ++ bytes _)) = _
  rw [decode_cons_ascii (by decide), decode_cons_ascii (by decide), decode_encode hs,
    decode_bytes htail]
  rfl

theorem plainChar_iff {c : Nat} : plainChar c = true ↔
    c ≠ 0x22 ∧ c ≠ 0x5C ∧ 0x20 ≤ c ∧ c ≠ 0x85 ∧ c ≠ 0x2028 ∧ c ≠ 0x2029 := by
  simp [plainChar, and_assoc]

theorem isBreak_of_plain {c : Nat} (h : plainChar c = true) : isBreak c = false := by
  have := plainChar_iff.mp h
  simp only [isBreak, Bool.or_eq_false_iff, decide_eq_false_iff_not]
  omega

theorem plain_of_quoted {c : Nat} (h : c ≠ 0x22 ∧ c ≠ 0x5C ∧ 0x20 ≤ c) (hb : isBreak c = false) :
    plainChar c = true := by
  simp only [isBreak, Bool.or_eq_false_iff, decide_eq_false_iff_not] at hb
  exact plainChar_iff.mpr (by omega)

theorem plain_of_isKeyChar {c : Nat} (h : isKeyChar c = true) : plainChar c = true := by
  simp only [isKeyChar, Bool.or_eq_true, Bool.and_eq_true, decide_eq_true_eq] at h
  exact plainChar_iff.mpr (by omega)

/-- If the name is a key of the result, it is plain. -/
theorem plain_of_source {comm : Comm} {name : Str} (hs : ∀ c ∈ name, Scalar c)
    (hn : comm.bytes = encode name) {count : UInt64} {ln : Str}
    (hln : ln ∈ splitlines (decode (irqLine comm count))) (h : Source ln name) :
    ∀ c ∈ name, plainChar c = true := by
  obtain ⟨hin, hbreak⟩ := mem_splitlines hln
  rcases h with ⟨q, hq⟩ | h
  · exact fun c hc => plain_of_isKeyChar (kvLine_key hq c hc)
  · obtain ⟨a, b, c, rfl, hq⟩ := h
    obtain ⟨x, y, he⟩ := hin
    rw [decode_irqLine hs hn] at he
    have hno : 0x22 ∉ 0x3A :: 0x20 :: (decimal count.toNat ++ [0x7D, 0x0A]) := by
      intro hm
      simp only [List.mem_cons, List.mem_append, List.not_mem_nil, or_false] at hm
      rcases hm with hm | hm | hm | hm | hm
      · cases hm
      · cases hm
      · have := decimal_digit hm; omega
      · cases hm
      · cases hm
    -- the quotes in front of and behind `b` are those around the name, or inside it
    have hlast : (x ++ a ++ 0x22 :: b).length < (0x7B :: 0x22 :: (name ++ [0x22])).length :=
      length_lt_of_last (c := c ++ y) (by rw [← List.append_assoc] at *; simpa using he) hno
    have hfirst : 0 < (x ++ a).length := by
      rcases hxa : x ++ a with _ | ⟨w, z⟩
      · obtain ⟨rfl, rfl⟩ := List.append_eq_nil_iff.mp hxa
        simp at he
      · simp
    have hle := hq.le
    have heq : name.length = b.length := by
      simp only [List.length_append, List.length_cons, List.length_nil] at hlast hfirst hle
      omega
    obtain ⟨rfl, hplain⟩ := hq.plain heq
    exact fun d hd => plain_of_quoted (hplain d hd) (hbreak d (by simp [hd]))

/-! ## The record read as JSON -/

theorem intPart_decimal (n : Nat) : Json.intPart (decimal n ++ [0x7D]) = some (decimal n, [0x7D]) := by
  obtain ⟨c, s, h⟩ := List.exists_cons_of_ne_nil (decimal_ne_nil n)
  have hdig : ∀ x ∈ s, Json.isDigit x = true := fun x hx => by
    have := decimal_digit (n := n) (h ▸ List.mem_cons_of_mem _ hx)
    simp [Json.isDigit, this]
  have hc := decimal_digit (n := n) (h ▸ List.mem_cons_self)
  rw [h, List.cons_append]
  simp only [Json.intPart]
  by_cases h0 : c = 0x30
  · have hs := decimal_head h h0
    subst hs
    rw [if_pos h0]; rfl
  · rw [if_neg h0, if_pos (by simp [Json.isDigit, hc]), List.takeWhile_append_of_pos hdig,
      List.dropWhile_append_of_pos hdig]
    simp [Json.isDigit]

theorem scanNumber_decimal {n : Nat} (h : n < 2 ^ 64) :
    Json.scanNumber (decimal n ++ [0x7D]) = .ok (.int n, [0x7D]) := by
  obtain ⟨c, s, hd⟩ := List.exists_cons_of_ne_nil (decimal_ne_nil n)
  have hc := decimal_digit (n := n) (hd ▸ List.mem_cons_self)
  have hneg : ¬ (decimal n ++ [0x7D]).head? = some 0x2D := by
    rw [hd]; simp; omega
  have hval : Json.digits (decimal n) = n := foldl_decimal n
  have hlen : ¬ (decimal n).length > Json.maxIntDigits := by
    have := length_decimal h
    unfold Json.maxIntDigits; omega
  unfold Json.scanNumber
  simp only [hneg, if_false, intPart_decimal]
  simp [Json.fracPart, Json.expPart, hlen, hval]

theorem scanOnce_decimal {n : Nat} (h : n < 2 ^ 64) (depth : Nat) :
    Json.scanOnce depth (decimal n ++ [0x7D]) = .ok (.int n, [0x7D]) := by
  obtain ⟨c, s, hd⟩ := List.exists_cons_of_ne_nil (decimal_ne_nil n)
  have hc := decimal_digit (n := n) (hd ▸ List.mem_cons_self)
  have hlit : Json.scanLiteral (decimal n ++ [0x7D]) = none := by
    have hnone : Json.literals.find? (fun l => l.1.isPrefixOf (c :: (s ++ [0x7D]))) = none := by
      have hheads : ∀ l ∈ Json.literals, ∃ x t, l.1 = x :: t ∧ (x < 0x30 ∨ 0x39 < x) := by
        simp only [Json.literals, List.mem_cons, List.not_mem_nil, or_false]
        rintro l (rfl | rfl | rfl | rfl | rfl | rfl) <;> exact ⟨_, _, rfl, by decide⟩
      refine List.find?_eq_none.mpr fun l hl => ?_
      obtain ⟨x, t, hx, hne⟩ := hheads l hl
      rw [hx, List.isPrefixOf]
      have : (x == c) = false := beq_eq_false_iff_ne.mpr (by omega)
      simp [this]
    rw [hd, Json.scanLiteral, List.cons_append, hnone]; rfl
  have hnum := scanNumber_decimal h
  rw [hd, List.cons_append] at hlit hnum ⊢
  unfold Json.scanOnce
  rw [if_neg (by omega), if_neg (by omega), if_neg (by omega), hlit]
  exact hnum

theorem skipWs_cons {c : Nat} (h : Json.isWs c = false) (s : Str) : Json.skipWs (c :: s) = c :: s := by
  rw [Json.skipWs, List.dropWhile_cons, h]; rfl

/-- A plain name comes back as the key of one member. -/
theorem loads_irqLine {name : Str} (h : ∀ c ∈ name, plainChar c = true) {n : Nat} (hn : n < 2 ^ 64)
    (recLimit : Nat) :
    Json.loads (recLimit + 1) (0x7B :: 0x22 :: (name ++ 0x22 :: 0x3A :: 0x20 :: (decimal n ++ [0x7D]))) =
      .ok (.obj [(name, .int n)]) := by
  have hq : ∀ c ∈ name, c ≠ 0x22 ∧ c ≠ 0x5C ∧ 0x20 ≤ c := fun c hc => by
    have := plainChar_iff.mp (h c hc); omega
  have hws : Json.skipWs (0x20 :: (decimal n ++ [0x7D])) = decimal n ++ [0x7D] := by
    obtain ⟨c, s, hd⟩ := List.exists_cons_of_ne_nil (decimal_ne_nil n)
    have hc := decimal_digit (n := n) (hd ▸ List.mem_cons_self)
    have : Json.isWs c = false := by simp [Json.isWs]; omega
    rw [hd, List.cons_append, Json.skipWs, List.dropWhile_cons]
    exact skipWs_cons this _
  have hmem : ∀ k, Json.scanMembers (Json.scanOnce recLimit) (k + 1)
      (0x22 :: (name ++ 0x22 :: 0x3A :: 0x20 :: (decimal n ++ [0x7D]))) = .ok ([(name, .int n)], []) := by
    intro k
    have hstr := Json.scanString_plain hq (0x3A :: 0x20 :: (decimal n ++ [0x7D]))
      (n := (name ++ 0x22 :: 0x3A :: 0x20 :: (decimal n ++ [0x7D])).length + 1)
      (by rw [List.length_append]; omega)
    simp only [Json.scanMembers, hstr, bind, Except.bind,
      skipWs_cons (show Json.isWs 0x3A = false by decide), hws, scanOnce_decimal hn,
      skipWs_cons (show Json.isWs 0x7D = false by decide)]
    rfl
  have hobj : Json.scanObject (Json.scanOnce recLimit)
      (0x22 :: (name ++ 0x22 :: 0x3A :: 0x20 :: (decimal n ++ [0x7D]))) =
        .ok (.obj [(name, .int n)], []) := by
    unfold Json.scanObject
    rw [skipWs_cons (by decide)]
    simp only [List.length_cons, hmem, bind, Except.bind]
    rfl
  unfold Json.loads
  rw [if_neg (by simp), skipWs_cons (by decide)]
  unfold Json.scanOnce
  rw [if_neg (by decide), if_pos rfl]
  simp only [hobj, bind, Except.bind]
  rfl

theorem kvLine_brace (s : Str) : kvLine (0x7B :: s) = none := by
  simp [kvLine, isSpace, isKeyChar]

/-- The entry of a plain name: its count as the nearest double. -/
theorem parse_irqLine {comm : Comm} {name : Str} (hs : ∀ c ∈ name, Scalar c)
    (hn : comm.bytes = encode name) (h : ∀ c ∈ name, plainChar c = true) (recLimit : Nat)
    (count : UInt64) :
    parseOutputMetrics binary64 (recLimit + 1) (decode (irqLine comm count)) =
      addItem binary64 [] (name, .int count.toNat) := by
  have hbreak : ∀ c ∈ 0x7B :: 0x22 :: (name ++ 0x22 :: 0x3A :: 0x20 :: (decimal count.toNat ++ [0x7D])),
      isBreak c = false := by
    intro c hc
    simp only [List.mem_cons, List.mem_append, List.not_mem_nil, or_false] at hc
    rcases hc with rfl | rfl | hc | rfl | rfl | rfl | hc | rfl
    iterate 2 rfl
    · exact isBreak_of_plain (h c hc)
    iterate 3 rfl
    · exact isBreak_of_isKeyChar (isKeyChar_decimal hc)
    · rfl
  have hline : splitlines (decode (irqLine comm count)) =
      [0x7B :: 0x22 :: (name ++ 0x22 :: 0x3A :: 0x20 :: (decimal count.toNat ++ [0x7D]))] := by
    rw [decode_irqLine hs hn]
    have := splitlines_line hbreak []
    simpa [splitlines, linesFrom] using this
  unfold parseOutputMetrics
  rw [hline, List.foldlM_cons]
  unfold parseLine
  rw [kvLine_brace, loads_irqLine h count.toNat_lt]
  simp only [List.foldlM_cons, List.foldlM_nil, bind_pure]

theorem length_le_encode (s : Str) : s.length ≤ (encode s).length := by
  induction s with
  | nil => exact Nat.le_refl _
  | cons c s ih =>
    have : 1 ≤ (encodeChar c).length := by unfold encodeChar; split_ifs <;> simp
    rw [encode, List.flatMap_cons, List.length_append, List.length_cons]
    unfold encode at ih; omega

/-- **JSON records.** A record of a name that is valid UTF-8 comes back as this
name with its count exactly when the name has no quote, backslash, control
character or line separator and the count is a double. -/
theorem irqLine_iff (recLimit : Nat) (comm : Comm) (name : Str) (hs : ∀ c ∈ name, Scalar c)
    (hn : comm.bytes = encode name) (count : UInt64) :
    (∃ h, parseOutputMetrics binary64 (recLimit + 1) (decode (irqLine comm count)) =
        .ok [(name, .fin count.toNat h)]) ↔
      (∀ c ∈ name, plainChar c = true) ∧ Representable count.toNat := by
  have hlen : name.length ≤ 128 := by
    have := length_le_encode name
    have := comm.length_le
    rw [hn] at this; omega
  constructor
  · rintro ⟨h, he⟩
    obtain ⟨ln, hln, hsrc⟩ := source_of_mem he (k := name) (by simp [Assoc.keys])
    exact ⟨plain_of_source hs hn hln hsrc, h⟩
  · rintro ⟨hp, hr⟩
    refine ⟨hr, ?_⟩
    have hfin : binary64.ofRat ((count.toNat : ℤ) : ℚ) = .fin count.toNat hr := by
      rw [Int.cast_natCast]; exact Binary64.ofRat_of_representable hr
    have hadd : binary64.add binary64.zero (.fin count.toNat hr) = .fin count.toNat hr :=
      Binary64.zero_add hr
    rw [parse_irqLine hs hn hp, addItem, if_pos hlen]
    simp only [finiteFloat, hfin]
    show Except.ok [(name, binary64.add binary64.zero (.fin count.toNat hr))] = _
    rw [hadd]

theorem irqLine_iff_plain :
    ∃ h, parseOutputMetrics binary64 1000
        (decode (irqLine ⟨[97, 195, 169], by decide, by decide⟩ 3)) =
      .ok [([97, 0xE9], .fin (3 : UInt64).toNat h)] :=
  (irqLine_iff 999 ⟨[97, 195, 169], by decide, by decide⟩ [97, 0xE9] (by decide) (by decide) 3).mpr
    ⟨by decide, Binary64.representable_natCast (by decide)⟩

/-- **Counterexample.** The name `a"b`: the record is gone. The name
`a": 1, "b`: two entries under other keys. -/
theorem irqLine_quote :
    parseOutputMetrics binary64 1000
      (decode (irqLine ⟨[97, 0x22, 98], by decide, by decide⟩ 3)) = .ok [] ∧
    (parseOutputMetrics binary64 1000 (decode (irqLine
      ⟨[97, 0x22, 58, 32, 49, 44, 32, 0x22, 98], by decide, by decide⟩ 3))).map Assoc.keys =
        .ok [str "a", str "b"] := by
  decide +kernel

end EbpfDemo.L1Encoding
