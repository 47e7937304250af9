import Mathlib.Algebra.Ring.Nat
import Mathlib.Data.List.Infix

/-!
# Bytes, text and lines

What the client's decoder rests on: a Python `str` is a list of code points,
`decode` is `bytes.decode("utf-8", "replace")`, `encode` is `str.encode`,
`splitlines` is `str.splitlines`, and `isSpace` and `digitVal` are the `\s` and
`\d` of a text pattern.

`decode` is the byte automaton of CPython's decoder: behind a lead byte it
waits for `n + 1` more bytes, the next of them between `lo` and `hi`; a byte
outside that range ends the sequence with one U+FFFD and is read again as a
lead byte, and so does the end of the input.

An ASCII byte always stands for itself (`decode_append_ascii`), a text without
a character from 0x80 on was decoded from ASCII bytes (`ascii_of_decode`), and
valid UTF-8 decodes to what was encoded (`decode_encode`).
-/
namespace EbpfDemo.L1Encoding

/-- A Python `str`. -/
abbrev Str := List Nat

/-- The code points of an ASCII constant. -/
def str (s : String) : Str := s.toList.map Char.toNat

/-! ## UTF-8 -/

inductive Utf8 where
  | ground
  | more (n acc lo hi : Nat)
  deriving DecidableEq

def replacement : Nat := 0xFFFD

/-- What a byte emits outside a sequence, and where the decoder goes. -/
def lead (b : Nat) : Str × Utf8 :=
  if b < 0x80 then ([b], .ground)
  else if b < 0xC2 then ([replacement], .ground)
  else if b < 0xE0 then ([], .more 0 (b - 0xC0) 0x80 0xBF)
  else if b = 0xE0 then ([], .more 1 0 0xA0 0xBF)
  else if b = 0xED then ([], .more 1 0xD 0x80 0x9F)
  else if b < 0xF0 then ([], .more 1 (b - 0xE0) 0x80 0xBF)
  else if b = 0xF0 then ([], .more 2 0 0x90 0xBF)
  else if b < 0xF4 then ([], .more 2 (b - 0xF0) 0x80 0xBF)
  else if b = 0xF4 then ([], .more 2 4 0x80 0x8F)
  else ([replacement], .ground)

def feed : Utf8 → Nat → Str × Utf8
  | .ground, b => lead b
  | .more n acc lo hi, b =>
    if lo ≤ b ∧ b ≤ hi then
      match n with
      | 0 => ([acc * 64 + (b - 0x80)], .ground)
      | n + 1 => ([], .more n (acc * 64 + (b - 0x80)) 0x80 0xBF)
    else (replacement :: (lead b).1, (lead b).2)

/-- What the end of the input emits. -/
def flush : Utf8 → Str
  | .ground => []
  | .more .. => [replacement]

def decodeFrom : Utf8 → List UInt8 → Str
  | st, [] => flush st
  | st, b :: bs => (feed st b.toNat).1 ++ decodeFrom (feed st b.toNat).2 bs

/-- `bs.decode("utf-8", "replace")` -/
def decode (bs : List UInt8) : Str := decodeFrom .ground bs

/-- The bytes of one character. -/
def encodeChar (c : Nat) : List UInt8 :=
  if c < 0x80 then [.ofNat c]
  else if c < 0x800 then [.ofNat (0xC0 + c / 64), .ofNat (0x80 + c % 64)]
  else if c < 0x10000 then
    [.ofNat (0xE0 + c / 4096), .ofNat (0x80 + c / 64 % 64), .ofNat (0x80 + c % 64)]
  else
    [.ofNat (0xF0 + c / 262144), .ofNat (0x80 + c / 4096 % 64), .ofNat (0x80 + c / 64 % 64),
      .ofNat (0x80 + c % 64)]

/-- `s.encode("utf-8")`, for text without surrogates. -/
def encode (s : Str) : List UInt8 := s.flatMap encodeChar

/-- A code point UTF-8 can carry: not a surrogate, at most U+10FFFF. -/
def Scalar (c : Nat) : Prop := c < 0xD800 ∨ 0xE000 ≤ c ∧ c < 0x110000

instance (c : Nat) : Decidable (Scalar c) := inferInstanceAs (Decidable (_ ∨ _ ∧ _))

/-- A sequence waits for continuation bytes only, and whatever they are it ends
in a character from 0x80 on. -/
def Utf8.Ok : Utf8 → Prop
  | .ground => True
  | .more n acc lo _ => 0x80 ≤ lo ∧ 0x80 ≤ (acc * 64 + (lo - 0x80)) * 64 ^ n

theorem lead_ascii {b : Nat} (h : b < 0x80) : lead b = ([b], .ground) := if_pos h

/-- Outside a sequence a byte stands for itself, is replaced, or opens one. -/
theorem lead_cases (b : Nat) : b < 0x80 ∧ lead b = ([b], .ground) ∨
    lead b = ([replacement], .ground) ∨
    ∃ n acc lo hi, (Utf8.more n acc lo hi).Ok ∧ lead b = ([], .more n acc lo hi) := by
  let P (r : Str × Utf8) : Prop := r = ([replacement], .ground) ∨
    ∃ n acc lo hi, (Utf8.more n acc lo hi).Ok ∧ r = ([], .more n acc lo hi)
  have bad : P ([replacement], .ground) := .inl rfl
  have opens {n acc lo hi : Nat} (h : (Utf8.more n acc lo hi).Ok) : P ([], .more n acc lo hi) :=
    .inr ⟨n, acc, lo, hi, h, rfl⟩
  refine (Nat.lt_or_ge b 0x80).imp (fun h => ⟨h, lead_ascii h⟩) fun h => ?_
  show P (lead b)
  unfold lead
  rw [if_neg (Nat.not_lt.mpr h)]
  refine iteInduction (motive := P) (fun _ => bad) fun hC2 => ?_
  refine iteInduction (motive := P) (fun _ => opens ⟨by omega, by omega⟩) fun hE0 => ?_
  refine iteInduction (motive := P) (fun _ => opens ⟨by omega, by omega⟩) fun _ => ?_
  refine iteInduction (motive := P) (fun _ => opens ⟨by omega, by omega⟩) fun _ => ?_
  refine iteInduction (motive := P) (fun _ => opens ⟨by omega, by omega⟩) fun hF0 => ?_
  refine iteInduction (motive := P) (fun _ => opens ⟨by omega, by omega⟩) fun _ => ?_
  refine iteInduction (motive := P) (fun _ => opens ⟨by omega, by omega⟩) fun _ => ?_
  exact iteInduction (motive := P) (fun _ => opens ⟨by omega, by omega⟩) fun _ => bad

theorem ok_lead (b : Nat) : (lead b).2.Ok := by
  rcases lead_cases b with ⟨-, h⟩ | h | ⟨n, acc, lo, hi, hok, h⟩
  · rw [h]; trivial
  · rw [h]; trivial
  · rw [h]; exact hok

theorem ok_feed {st : Utf8} (h : st.Ok) (b : Nat) : (feed st b).2.Ok := by
  cases st with
  | ground => exact ok_lead b
  | more n acc lo hi =>
    simp only [feed]
    split
    · cases n with
      | zero => trivial
      | succ n =>
        simp only [Utf8.Ok] at h ⊢
        refine ⟨Nat.le_refl _, h.2.trans ?_⟩
        rw [Nat.pow_succ, Nat.mul_comm (64 ^ n) 64, ← Nat.mul_assoc]
        exact Nat.mul_le_mul_right _ (by omega)
    · exact ok_lead b

/-- An ASCII byte ends any sequence and stands for itself. -/
theorem feed_ascii {st : Utf8} (h : st.Ok) {b : Nat} (hb : b < 0x80) :
    feed st b = (flush st ++ [b], .ground) := by
  cases st with
  | ground => exact lead_ascii hb
  | more n acc lo hi =>
    have : ¬ (lo ≤ b ∧ b ≤ hi) := by have := h.1; omega
    simp only [feed, if_neg this, lead_ascii hb, flush]; rfl

theorem decodeFrom_append_ascii {a : UInt8} (ha : a.toNat < 0x80) (ys : List UInt8) :
    ∀ {st : Utf8} (xs : List UInt8), st.Ok →
      decodeFrom st (xs ++ a :: ys) = decodeFrom st xs ++ a.toNat :: decode ys
  | st, [], h => by simp [decodeFrom, feed_ascii h ha, decode]
  | st, x :: xs, h => by
    rw [List.cons_append, decodeFrom, decodeFrom_append_ascii ha ys xs (ok_feed h _), decodeFrom,
      List.append_assoc]

theorem decode_append_ascii {a : UInt8} (ha : a.toNat < 0x80) (xs ys : List UInt8) :
    decode (xs ++ a :: ys) = decode xs ++ a.toNat :: decode ys :=
  decodeFrom_append_ascii ha ys xs trivial

theorem decode_cons_ascii {a : UInt8} (ha : a.toNat < 0x80) (ys : List UInt8) :
    decode (a :: ys) = a.toNat :: decode ys := decode_append_ascii ha [] ys

theorem decode_ascii {xs : List UInt8} (h : ∀ b ∈ xs, b.toNat < 0x80) :
    decode xs = xs.map UInt8.toNat := by
  induction xs with
  | nil => rfl
  | cons x xs ih =>
    rw [decode_cons_ascii (h x List.mem_cons_self), List.map_cons,
      ih fun b hb => h b (List.mem_cons_of_mem _ hb)]

/-- Outside ASCII a lead byte opens a sequence or is replaced. -/
theorem lead_high {b : Nat} (h : 0x80 ≤ b) :
    (lead b).2 = .ground → ∃ c ∈ (lead b).1, 0x80 ≤ c := by
  intro hg
  rcases lead_cases b with ⟨hb, -⟩ | hr | ⟨n, acc, lo, hi, -, hs⟩
  · exact absurd hb (Nat.not_lt.mpr h)
  · rw [hr]
    exact ⟨replacement, List.mem_cons_self, by decide⟩
  · rw [hs] at hg
    cases hg

theorem feed_open {n acc lo hi : Nat} (h : (Utf8.more n acc lo hi).Ok) (b : Nat) :
    (feed (.more n acc lo hi) b).2 = .ground → ∃ c ∈ (feed (.more n acc lo hi) b).1, 0x80 ≤ c := by
  simp only [feed]
  split
  · cases n with
    | zero =>
      have := h.2
      exact fun _ => ⟨_, List.mem_singleton_self _, by omega⟩
    | succ n => intro hg; cases hg
  · exact fun _ => ⟨replacement, List.mem_cons_self, by decide⟩

/-- Text without a character from 0x80 on comes from ASCII bytes. -/
theorem ascii_of_decodeFrom : ∀ {st : Utf8} (xs : List UInt8), st.Ok →
    (∀ c ∈ decodeFrom st xs, c < 0x80) → st = .ground ∧ ∀ b ∈ xs, b.toNat < 0x80
  | .ground, [], _, _ => ⟨rfl, fun _ h => by cases h⟩
  | .more .., [], _, hc => absurd (hc replacement List.mem_cons_self) (by decide)
  | st, x :: xs, h, hc => by
    rw [decodeFrom] at hc
    obtain ⟨hg, hxs⟩ := ascii_of_decodeFrom xs (ok_feed h x.toNat)
      fun c hm => hc c (List.mem_append_right _ hm)
    have hlow : ∀ c ∈ (feed st x.toNat).1, ¬ 0x80 ≤ c := fun c hm =>
      Nat.not_le.mpr (hc c (List.mem_append_left _ hm))
    cases st with
    | more n acc lo hi =>
      obtain ⟨c, hm, hle⟩ := feed_open h x.toNat hg
      exact absurd hle (hlow c hm)
    | ground =>
      refine ⟨rfl, fun b hb => ?_⟩
      rcases List.mem_cons.mp hb with rfl | hb
      · by_contra hx
        obtain ⟨c, hm, hle⟩ := lead_high (Nat.not_lt.mp hx) hg
        exact hlow c hm hle
      · exact hxs b hb

theorem ascii_of_decode {xs : List UInt8} (h : ∀ c ∈ decode xs, c < 0x80) :
    ∀ b ∈ xs, b.toNat < 0x80 := (@ascii_of_decodeFrom .ground xs trivial h).2

theorem feed_last {acc lo hi b : Nat} (h1 : lo ≤ b) (h2 : b ≤ hi) :
    feed (.more 0 acc lo hi) b = ([acc * 64 + (b - 0x80)], .ground) := by
  simp only [feed, if_pos (And.intro h1 h2)]

theorem feed_next {n acc lo hi b : Nat} (h1 : lo ≤ b) (h2 : b ≤ hi) :
    feed (.more (n + 1) acc lo hi) b = ([], .more n (acc * 64 + (b - 0x80)) 0x80 0xBF) := by
  simp only [feed, if_pos (And.intro h1 h2)]

theorem lead_two {c : Nat} (h1 : 0x80 ≤ c) (h2 : c < 0x800) :
    lead (0xC0 + c / 64) = ([], .more 0 (c / 64) 0x80 0xBF) := by
  rw [lead, if_neg (by omega), if_neg (by omega), if_pos (by omega), Nat.add_sub_cancel_left]

theorem lead_e : ∀ a < 16, lead (0xE0 + a) =
    ([], .more 1 a (if a = 0 then 0xA0 else 0x80) (if a = 0xD then 0x9F else 0xBF)) := by
  decide

theorem lead_f : ∀ a < 5, lead (0xF0 + a) =
    ([], .more 2 a (if a = 0 then 0x90 else 0x80) (if a = 4 then 0x8F else 0xBF)) := by
  decide

/-- The second byte of a character lies in the range its lead byte asks for. -/
theorem lead_three {c : Nat} (hs : Scalar c) (h1 : 0x800 ≤ c) (h2 : c < 0x10000) :
    ∃ lo hi, lead (0xE0 + c / 4096) = ([], .more 1 (c / 4096) lo hi) ∧
      lo ≤ 0x80 + c / 64 % 64 ∧ 0x80 + c / 64 % 64 ≤ hi := by
  unfold Scalar at hs
  refine ⟨_, _, lead_e _ (by omega), ?_, ?_⟩
  · split <;> omega
  · split <;> omega

theorem lead_four {c : Nat} (h1 : 0x10000 ≤ c) (h2 : c < 0x110000) :
    ∃ lo hi, lead (0xF0 + c / 262144) = ([], .more 2 (c / 262144) lo hi) ∧
      lo ≤ 0x80 + c / 4096 % 64 ∧ 0x80 + c / 4096 % 64 ≤ hi := by
  refine ⟨_, _, lead_f _ (by omega), ?_, ?_⟩
  · split <;> omega
  · split <;> omega

theorem toNat_ofNat {n : Nat} (h : n < 256) : (UInt8.ofNat n).toNat = n :=
  UInt8.toNat_ofNat_of_lt' h

theorem decode_encodeChar {c : Nat} (h : Scalar c) (bs : List UInt8) :
    decode (encodeChar c ++ bs) = c :: decode bs := by
  have hc : c < 0x110000 := by unfold Scalar at h; omega
  unfold encodeChar
  split_ifs with h1 h2 h3
  · rw [List.singleton_append, decode_cons_ascii (by rw [toNat_ofNat (by omega)]; exact h1),
      toNat_ofNat (by omega)]
  · have hl := lead_two (Nat.not_lt.mp h1) h2
    simp only [List.cons_append, List.nil_append, decode, decodeFrom]
    rw [toNat_ofNat (by omega), toNat_ofNat (by omega), feed, hl,
      feed_last (by omega) (by omega)]
    simp only [List.nil_append, List.cons_append, List.cons.injEq, and_true]
    omega
  · obtain ⟨lo, hi, hl, hlo, hhi⟩ := lead_three h (by omega) h3
    simp only [List.cons_append, List.nil_append, decode, decodeFrom]
    rw [toNat_ofNat (by omega), toNat_ofNat (by omega), toNat_ofNat (by omega), feed, hl,
      feed_next hlo hhi, feed_last (by omega) (by omega)]
    simp only [List.nil_append, List.cons_append, List.cons.injEq, and_true]
    omega
  · obtain ⟨lo, hi, hl, hlo, hhi⟩ := lead_four (by omega) hc
    simp only [List.cons_append, List.nil_append, decode, decodeFrom]
    rw [toNat_ofNat (by omega), toNat_ofNat (by omega), toNat_ofNat (by omega),
      toNat_ofNat (by omega), feed, hl, feed_next hlo hhi, feed_next (by omega) (by omega),
      feed_last (by omega) (by omega)]
    simp only [List.nil_append, List.cons_append, List.cons.injEq, and_true]
    omega

/-- **Round trip.** Valid UTF-8 decodes to the text it encodes. -/
theorem decode_encode {s : Str} (h : ∀ c ∈ s, Scalar c) (bs : List UInt8) :
    decode (encode s ++ bs) = s ++ decode bs := by
  induction s with
  | nil => rfl
  | cons c s ih =>
    rw [encode, List.flatMap_cons, List.append_assoc, decode_encodeChar (h c List.mem_cons_self)]
    rw [List.cons_append]
    exact congrArg (c :: ·) (ih fun x hx => h x (List.mem_cons_of_mem _ hx))

/-! ## Lines -/

/-- Where `str.splitlines` ends a line. -/
def isBreak (c : Nat) : Bool :=
  c = 0x0A || c = 0x0B || c = 0x0C || c = 0x0D || c = 0x1C || c = 0x1D || c = 0x1E || c = 0x85 ||
    c = 0x2028 || c = 0x2029

/-- The lines of a text behind a `\r` (`cr`), with which a `\n` is one line end. -/
def linesFrom (cr : Bool) : Str → List Str
  | [] => []
  | c :: cs =>
    if cr ∧ c = 0x0A then linesFrom false cs
    else if isBreak c then [] :: linesFrom (c = 0x0D) cs
    else
      match linesFrom false cs with
      | [] => [[c]]
      | l :: ls => (c :: l) :: ls

/-- `s.splitlines()` -/
def splitlines (s : Str) : List Str := linesFrom false s

theorem linesFrom_break {c : Nat} (h : isBreak c = true) (cs : Str) :
    linesFrom false (c :: cs) = [] :: linesFrom (c = 0x0D) cs := by
  simp [linesFrom, h]

theorem linesFrom_char {c : Nat} (h : isBreak c = false) (cr : Bool) (cs : Str) :
    linesFrom cr (c :: cs) = match linesFrom false cs with
      | [] => [[c]]
      | l :: ls => (c :: l) :: ls := by
  have hc : ¬ (cr = true ∧ c = 0x0A) := by rintro ⟨-, rfl⟩; cases h
  simp only [linesFrom, if_neg hc, h, Bool.false_eq_true, if_false]

/-- A line is a piece of the text without a line end; the first one starts it,
unless a `\n` is left over from a `\r`. -/
theorem linesFrom_spec : ∀ (s : Str) (cr : Bool),
    (∀ ln ∈ linesFrom cr s, ln <:+: s ∧ ∀ c ∈ ln, isBreak c = false) ∧
      (cr = false → ∀ l ls, linesFrom cr s = l :: ls → l <+: s)
  | [], _ => ⟨fun _ h => absurd h List.not_mem_nil, fun _ l ls h => by simp [linesFrom] at h⟩
  | c :: cs, cr => by
    obtain ⟨hall, hfirst⟩ := linesFrom_spec cs false
    have hlift : ∀ b ln, ln ∈ linesFrom b cs → ln <:+: c :: cs ∧ ∀ x ∈ ln, isBreak x = false :=
      fun b ln hm => ⟨((linesFrom_spec cs b).1 ln hm).1.trans (List.infix_cons List.infix_rfl),
        ((linesFrom_spec cs b).1 ln hm).2⟩
    by_cases hcr : cr = true ∧ c = 0x0A
    · simp only [linesFrom, if_pos hcr]
      exact ⟨hlift false, fun h => by rw [hcr.1] at h; cases h⟩
    cases hb : isBreak c with
    | true =>
      simp only [linesFrom, if_neg hcr, hb, if_true]
      refine ⟨fun ln hm => ?_, fun _ l ls h => ?_⟩
      · rcases List.mem_cons.mp hm with rfl | hm
        · exact ⟨List.nil_infix, fun _ h => by cases h⟩
        · exact hlift _ ln hm
      · cases h; exact List.nil_prefix
    | false =>
      rw [linesFrom_char hb]
      cases hl : linesFrom false cs with
      | nil =>
        refine ⟨fun ln hm => ?_, fun _ l ls h => ?_⟩
        · rw [List.mem_singleton.mp hm]
          exact ⟨(List.prefix_append [c] cs).isInfix, fun x hx => by
            rw [List.mem_singleton.mp hx]; exact hb⟩
        · cases h; exact List.prefix_append [c] cs
      | cons l0 ls0 =>
        have hp : c :: l0 <+: c :: cs := List.cons_prefix_cons.mpr ⟨rfl, hfirst rfl l0 ls0 hl⟩
        have h0 := hall l0 (by rw [hl]; exact List.mem_cons_self)
        refine ⟨fun ln hm => ?_, fun _ l ls h => ?_⟩
        · rcases List.mem_cons.mp hm with rfl | hm
          · refine ⟨hp.isInfix, fun x hx => ?_⟩
            rcases List.mem_cons.mp hx with rfl | hx
            · exact hb
            · exact h0.2 x hx
          · exact hlift false ln (by rw [hl]; exact List.mem_cons_of_mem _ hm)
        · cases h; exact hp

theorem mem_splitlines {s ln : Str} (h : ln ∈ splitlines s) :
    ln <:+: s ∧ ∀ c ∈ ln, isBreak c = false := (linesFrom_spec s false).1 ln h

/-- A text without a line end, then `\n`. -/
theorem splitlines_line {s : Str} (h : ∀ c ∈ s, isBreak c = false) (t : Str) :
    splitlines (s ++ 0x0A :: t) = s :: splitlines t := by
  induction s with
  | nil => exact linesFrom_break rfl t
  | cons c s ih =>
    rw [List.cons_append, splitlines, linesFrom_char (h c List.mem_cons_self)]
    have := ih fun x hx => h x (List.mem_cons_of_mem _ hx)
    rw [splitlines] at this
    rw [this]

theorem linesFrom_ne_nil (c : Nat) (cs : Str) : linesFrom false (c :: cs) ≠ [] := by
  cases hb : isBreak c with
  | true => rw [linesFrom_break hb]; exact List.cons_ne_nil _ _
  | false =>
    rw [linesFrom_char hb]
    cases linesFrom false cs <;> exact List.cons_ne_nil _ _

/-- A `\n` ends a line whatever stands behind it. -/
theorem linesFrom_append (t : Str) : ∀ (s : Str) (cr : Bool),
    linesFrom cr (s ++ 0x0A :: t) = linesFrom cr (s ++ [0x0A]) ++ splitlines t
  | [], cr => by cases cr <;> simp [linesFrom, isBreak, splitlines]
  | c :: s, cr => by
    have ih := linesFrom_append t s
    rw [List.cons_append, List.cons_append]
    by_cases hcr : cr = true ∧ c = 0x0A
    · simp only [linesFrom, if_pos hcr, ih]
    cases hb : isBreak c with
    | true => simp only [linesFrom, if_neg hcr, hb, if_true, ih, List.cons_append]
    | false =>
      rw [linesFrom_char hb, linesFrom_char hb, ih]
      cases hl : linesFrom false (s ++ [0x0A]) with
      | nil => cases s <;> exact absurd hl (linesFrom_ne_nil _ _)
      | cons l ls => rfl

/-- A text that ends with a line end is read line by line before what follows. -/
theorem splitlines_append {s : Str} (h : s = [] ∨ s.getLast? = some 0x0A) (t : Str) :
    splitlines (s ++ t) = splitlines s ++ splitlines t := by
  rcases h with rfl | h
  · rfl
  · obtain ⟨s, rfl⟩ := List.getLast?_eq_some_iff.mp h
    rw [List.append_assoc, List.singleton_append]
    exact linesFrom_append t s false

/-! ## Character classes -/

/-- `\s`, which is `str.isspace`. -/
def isSpace (c : Nat) : Bool :=
  0x09 ≤ c && c ≤ 0x0D || 0x1C ≤ c && c ≤ 0x20 || c = 0x85 || c = 0xA0 || c = 0x1680 ||
    0x2000 ≤ c && c ≤ 0x200A || c = 0x2028 || c = 0x2029 || c = 0x202F || c = 0x205F || c = 0x3000

/-- The zeros of the decimal digit runs behind ASCII (general category Nd). -/
def digitZeros : List Nat :=
  [0x660, 0x6F0, 0x7C0, 0x966, 0x9E6, 0xA66, 0xAE6, 0xB66, 0xBE6, 0xC66, 0xCE6, 0xD66, 0xDE6, 0xE50,
   0xED0, 0xF20, 0x1040, 0x1090, 0x17E0, 0x1810, 0x1946, 0x19D0, 0x1A80, 0x1A90, 0x1B50, 0x1BB0,
   0x1C40, 0x1C50, 0xA620, 0xA8D0, 0xA900, 0xA9D0, 0xA9F0, 0xAA50, 0xABF0, 0xFF10, 0x104A0, 0x10D30,
   0x11066, 0x110F0, 0x11136, 0x111D0, 0x112F0, 0x11450, 0x114D0, 0x11650, 0x116C0, 0x11730, 0x118E0,
   0x11950, 0x11C50, 0x11D50, 0x11DA0, 0x11F50, 0x16A60, 0x16AC0, 0x16B50, 0x1D7CE, 0x1D7D8, 0x1D7E2,
   0x1D7EC, 0x1D7F6, 0x1E140, 0x1E2F0, 0x1E4F0, 0x1E950, 0x1FBF0]

/-- `\d` with the value `float` gives it. -/
def digitVal (c : Nat) : Option Nat :=
  if 0x30 ≤ c ∧ c ≤ 0x39 then some (c - 0x30)
  else (digitZeros.find? fun z => z ≤ c ∧ c < z + 10).map (c - ·)

end EbpfDemo.L1Encoding
