import Mathlib.Data.Rat.Defs
import EbpfDemo.Core.Dict
import EbpfDemo.L1Encoding.Text

/-!
# json.loads

`loads` is CPython's `json.loads` on a `str`: the scanner of `_json.c` with
`strict` strings, `NaN` and `Infinity`, ASCII digits in numbers, the last value
of a repeated key. `recLimit` is how deep arrays and objects may nest before the
scanner raises `RecursionError`.

A scanner returns what it read and the text behind it. `keyOf_of_loads` says
where a key of the result comes from: it stands in the text between two quotes,
and is as long as what stands there only if that contains neither an escape nor
a control character.
-/
namespace EbpfDemo.L1Encoding.Json

open EbpfDemo.Core

/-- Why `json.loads` fails: `JSONDecodeError`, the `ValueError` of an integer
with too many digits, `RecursionError`. -/
inductive JErr where
  | decode | tooManyDigits | recursion
  deriving DecidableEq

/-- A float as written. -/
inductive FloatLit where
  | dec (q : ℚ)
  | nan
  | inf (neg : Bool)
  deriving DecidableEq

inductive Value where
  | null
  | bool (b : Bool)
  | int (n : ℤ)
  | float (f : FloatLit)
  | str (s : Str)
  | arr (xs : List Value)
  | obj (kvs : List (Str × Value))

def isWs (c : Nat) : Bool := c = 0x20 || c = 0x09 || c = 0x0A || c = 0x0D

def skipWs (s : Str) : Str := s.dropWhile isWs

def isDigit (c : Nat) : Bool := 0x30 ≤ c && c ≤ 0x39

/-- The value of ASCII digits. -/
def digits (s : Str) : Nat := s.foldl (fun n c => 10 * n + (c - 0x30)) 0

/-! ## Strings -/

def hexVal (c : Nat) : Option Nat :=
  if isDigit c then some (c - 0x30)
  else if 0x61 ≤ c ∧ c ≤ 0x66 then some (c - 0x61 + 10)
  else if 0x41 ≤ c ∧ c ≤ 0x46 then some (c - 0x41 + 10)
  else none

/-- Four hex digits. -/
def hex4 : Str → Option (Nat × Str)
  | a :: b :: c :: d :: s => do
    let a ← hexVal a
    let b ← hexVal b
    let c ← hexVal c
    let d ← hexVal d
    pure (((a * 16 + b) * 16 + c) * 16 + d, s)
  | _ => none

/-- Behind `\\u`: a character, or the two halves of a surrogate pair. A half
without its other half stands for itself. -/
def unicodeEscape (s : Str) : Option (Nat × Str) := do
  let (h, s) ← hex4 s
  if 0xD800 ≤ h ∧ h ≤ 0xDBFF then
    match s with
    | 0x5C :: 0x75 :: t => do
      let (l, t) ← hex4 t
      if 0xDC00 ≤ l ∧ l ≤ 0xDFFF then
        pure (0x10000 + (h - 0xD800) * 0x400 + (l - 0xDC00), t)
      else pure (h, s)
    | _ => pure (h, s)
  else pure (h, s)

/-- Behind a backslash. -/
def escape : Str → Option (Nat × Str)
  | [] => none
  | c :: s =>
    if c = 0x22 ∨ c = 0x5C ∨ c = 0x2F then some (c, s)
    else if c = 0x62 then some (0x08, s)
    else if c = 0x66 then some (0x0C, s)
    else if c = 0x6E then some (0x0A, s)
    else if c = 0x72 then some (0x0D, s)
    else if c = 0x74 then some (0x09, s)
    else if c = 0x75 then unicodeEscape s
    else none

/-- Behind the opening quote, to behind the closing one. `fuel` is more than
the length of the text. -/
def scanString : Nat → Str → Except JErr (Str × Str)
  | 0, _ => .error .decode
  | _, [] => .error .decode
  | n + 1, c :: s =>
    if c = 0x22 then .ok ([], s)
    else if c = 0x5C then
      match escape s with
      | none => .error .decode
      | some (x, s) => do
        let (t, s) ← scanString n s
        pure (x :: t, s)
    else if c < 0x20 then .error .decode
    else do
      let (t, s) ← scanString n s
      pure (c :: t, s)

/-! ## Numbers and literals -/

/-- The digits of an integer part: a zero, or digits that start with no zero. -/
def intPart : Str → Option (Str × Str)
  | [] => none
  | c :: s =>
    if c = 0x30 then some ([c], s)
    else if isDigit c then some (c :: s.takeWhile isDigit, s.dropWhile isDigit)
    else none

/-- The digits of a fraction, empty if there is none. -/
def fracPart : Str → Str × Str
  | 0x2E :: s =>
    if s.takeWhile isDigit = [] then ([], 0x2E :: s) else (s.takeWhile isDigit, s.dropWhile isDigit)
  | s => ([], s)

def expDigits (neg : Bool) (s t : Str) : Option ℤ × Str :=
  if t.takeWhile isDigit = [] then (none, s)
  else
    (some (if neg then -(digits (t.takeWhile isDigit) : ℤ) else digits (t.takeWhile isDigit)),
      t.dropWhile isDigit)

/-- An exponent, if there is one. -/
def expPart (s : Str) : Option ℤ × Str :=
  match s with
  | [] => (none, s)
  | c :: t =>
    if c = 0x65 ∨ c = 0x45 then
      match t with
      | 0x2D :: u => expDigits true s u
      | 0x2B :: u => expDigits false s u
      | t => expDigits false s t
    else (none, s)

/-- `sys.get_int_max_str_digits()` -/
def maxIntDigits : Nat := 4300

def scanNumber (s : Str) : Except JErr (Value × Str) :=
  let neg := s.head? = some 0x2D
  let sign : ℤ := if neg then -1 else 1
  match intPart (if neg then s.tail else s) with
  | none => .error .decode
  | some (ip, s) =>
    match fracPart s with
    | (fp, s) =>
      match expPart s with
      | (e, s) =>
        if fp = [] ∧ e = none then
          if ip.length > maxIntDigits then .error .tooManyDigits
          else .ok (.int (sign * digits ip), s)
        else
          .ok (.float (.dec (sign * digits (ip ++ fp) * 10 ^ (e.getD 0 - fp.length))), s)

def literals : List (Str × Value) :=
  [(L1Encoding.str "null", .null), (L1Encoding.str "true", .bool true),
   (L1Encoding.str "false", .bool false), (L1Encoding.str "NaN", .float .nan),
   (L1Encoding.str "Infinity", .float (.inf false)),
   (L1Encoding.str "-Infinity", .float (.inf true))]

def scanLiteral (s : Str) : Option (Value × Str) :=
  (literals.find? fun l => l.1.isPrefixOf s).map fun l => (l.2, s.drop l.1.length)

/-! ## Values -/

section
variable (val : Str → Except JErr (Value × Str))

/-- The elements of an array, to behind its bracket. -/
def scanElements : Nat → Str → Except JErr (List Value × Str)
  | 0, _ => .error .decode
  | n + 1, s => do
    let (v, s) ← val s
    match skipWs s with
    | 0x5D :: s => pure ([v], s)
    | 0x2C :: s => do
      let (vs, s) ← scanElements n (skipWs s)
      pure (v :: vs, s)
    | _ => .error .decode

def scanArray (s : Str) : Except JErr (Value × Str) :=
  match skipWs s with
  | 0x5D :: s => pure (.arr [], s)
  | s => do
    let (vs, s) ← scanElements val s.length s
    pure (.arr vs, s)

/-- The members of an object, to behind its brace. -/
def scanMembers : Nat → Str → Except JErr (List (Str × Value) × Str)
  | 0, _ => .error .decode
  | n + 1, s =>
    match s with
    | 0x22 :: s => do
      let (k, s) ← scanString (s.length + 1) s
      match skipWs s with
      | 0x3A :: s => do
        let (v, s) ← val (skipWs s)
        match skipWs s with
        | 0x7D :: s => pure ([(k, v)], s)
        | 0x2C :: s => do
          let (kvs, s) ← scanMembers n (skipWs s)
          pure ((k, v) :: kvs, s)
        | _ => .error .decode
      | _ => .error .decode
    | _ => .error .decode

def scanObject (s : Str) : Except JErr (Value × Str) :=
  match skipWs s with
  | 0x7D :: s => pure (.obj [], s)
  | s => do
    let (kvs, s) ← scanMembers val s.length s
    pure (.obj (Dict.ofList kvs), s)

end

/-- `scan_once`; `depth` is how many arrays and objects may still be opened. -/
def scanOnce : Nat → Str → Except JErr (Value × Str)
  | _, [] => .error .decode
  | depth, c :: s =>
    if c = 0x22 then do
      let (t, s) ← scanString (s.length + 1) s
      pure (.str t, s)
    else if c = 0x7B then
      match depth with
      | 0 => .error .recursion
      | depth + 1 => scanObject (scanOnce depth) s
    else if c = 0x5B then
      match depth with
      | 0 => .error .recursion
      | depth + 1 => scanArray (scanOnce depth) s
    else
      match scanLiteral (c :: s) with
      | some r => .ok r
      | none => scanNumber (c :: s)

/-- `json.loads(s)` -/
def loads (recLimit : Nat) (s : Str) : Except JErr Value :=
  if s.head? = some 0xFEFF then .error .decode
  else do
    let (v, rest) ← scanOnce recLimit (skipWs s)
    if skipWs rest = [] then pure v else .error .decode

/-! ## What a scanner reads -/

theorem hex4_suffix {s t : Str} {n : Nat} (h : hex4 s = some (n, t)) :
    ∃ p, s = p ++ t ∧ 1 ≤ p.length := by
  unfold hex4 at h
  split at h
  · simp only [bind, Option.bind_eq_some_iff, pure, Option.some.injEq, Prod.mk.injEq] at h
    obtain ⟨_, -, _, -, _, -, _, -, -, rfl⟩ := h
    exact ⟨[_, _, _, _], rfl, by simp⟩
  · cases h

theorem unicodeEscape_suffix {s t : Str} {n : Nat} (h : unicodeEscape s = some (n, t)) :
    ∃ p, s = p ++ t ∧ 1 ≤ p.length := by
  simp only [unicodeEscape, bind, Option.bind_eq_some_iff, pure] at h
  obtain ⟨⟨x, u⟩, hx, h⟩ := h
  obtain ⟨p, rfl, hp⟩ := hex4_suffix hx
  dsimp only at h
  have hsame : (x, u) = (n, t) → ∃ q, p ++ u = q ++ t ∧ 1 ≤ q.length := by
    rintro ⟨⟩; exact ⟨p, rfl, hp⟩
  split at h
  · split at h
    · rename_i v
      obtain ⟨⟨y, w⟩, hy, h⟩ := Option.bind_eq_some_iff.mp h
      obtain ⟨q, rfl, hq⟩ := hex4_suffix hy
      dsimp only at h
      split at h
      · obtain ⟨-, rfl⟩ := Prod.mk.inj (Option.some.inj h)
        exact ⟨p ++ 0x5C :: 0x75 :: q, by simp, by simp; omega⟩
      · exact hsame (Option.some.inj h)
    · exact hsame (Option.some.inj h)
  · exact hsame (Option.some.inj h)

theorem escape_suffix {s t : Str} {n : Nat} (h : escape s = some (n, t)) :
    ∃ p, s = p ++ t ∧ 1 ≤ p.length := by
  cases s with
  | nil => cases h
  | cons c s =>
    have hone : ∀ x, some (x, s) = some (n, t) → ∃ p, c :: s = p ++ t ∧ 1 ≤ p.length := by
      intro x hx; cases hx; exact ⟨[c], rfl, by simp⟩
    simp only [escape] at h
    split_ifs at h
    iterate 6 exact hone _ h
    obtain ⟨p, rfl, hp⟩ := unicodeEscape_suffix h
    exact ⟨c :: p, rfl, by simp⟩

/-- The content `b` of a string and what it stands for: an escape is longer than
its character, so equal lengths mean that there is none. -/
structure Quoted (t b : Str) : Prop where
  le : t.length ≤ b.length
  plain : t.length = b.length → t = b ∧ ∀ c ∈ b, c ≠ 0x22 ∧ c ≠ 0x5C ∧ 0x20 ≤ c

theorem scanString_quoted : ∀ {n : Nat} {s t rest : Str}, scanString n s = .ok (t, rest) →
    ∃ b, s = b ++ 0x22 :: rest ∧ Quoted t b := by
  intro n
  induction n with
  | zero => intro s t rest h; cases h
  | succ n ih =>
    intro s t rest h
    cases s with
    | nil => cases h
    | cons c s =>
      simp only [scanString] at h
      split_ifs at h with h1 h2 h3
      · cases h
        exact ⟨[], by rw [h1]; rfl, Nat.le_refl _, fun _ => ⟨rfl, fun _ hm => by cases hm⟩⟩
      · cases he : escape s with
        | none => rw [he] at h; cases h
        | some r =>
          obtain ⟨x, u⟩ := r
          rw [he] at h
          obtain ⟨p, rfl, hp⟩ := escape_suffix he
          cases hs : scanString n u with
          | error e => simp [hs, bind, Except.bind] at h
          | ok r =>
            obtain ⟨t', rest'⟩ := r
            simp only [hs, bind, Except.bind, pure, Except.pure, Except.ok.injEq,
              Prod.mk.injEq] at h
            obtain ⟨rfl, rfl⟩ := h
            obtain ⟨b, rfl, hq⟩ := ih hs
            have := hq.le
            exact ⟨c :: (p ++ b), by simp, by simp; omega, fun hl => by simp at hl; omega⟩
      · cases hs : scanString n s with
        | error e => simp [hs, bind, Except.bind] at h
        | ok r =>
          obtain ⟨t', rest'⟩ := r
          simp only [hs, bind, Except.bind, pure, Except.pure, Except.ok.injEq, Prod.mk.injEq] at h
          obtain ⟨rfl, rfl⟩ := h
          obtain ⟨b, rfl, hq⟩ := ih hs
          refine ⟨c :: b, rfl, Nat.succ_le_succ hq.le, fun hl => ?_⟩
          obtain ⟨rfl, hb⟩ := hq.plain (Nat.succ.inj hl)
          refine ⟨rfl, fun x hx => ?_⟩
          rcases List.mem_cons.mp hx with rfl | hx
          · exact ⟨h1, h2, Nat.not_lt.mp h3⟩
          · exact hb x hx

/-- A plain string is read as it stands. -/
theorem scanString_plain {b : Str} (h : ∀ c ∈ b, c ≠ 0x22 ∧ c ≠ 0x5C ∧ 0x20 ≤ c) (rest : Str) :
    ∀ {n : Nat}, b.length < n → scanString n (b ++ 0x22 :: rest) = .ok (b, rest) := by
  induction b with
  | nil =>
    intro n hn
    obtain ⟨n, rfl⟩ := Nat.exists_eq_succ_of_ne_zero (Nat.ne_of_gt hn)
    simp [scanString]
  | cons c b ih =>
    intro n hn
    obtain ⟨n, rfl⟩ := Nat.exists_eq_succ_of_ne_zero (by simp at hn; omega : n ≠ 0)
    obtain ⟨h1, h2, h3⟩ := h c List.mem_cons_self
    have := ih (fun x hx => h x (List.mem_cons_of_mem _ hx)) (Nat.lt_of_succ_lt_succ hn)
    simp only [List.cons_append, scanString, if_neg h1, if_neg h2, if_neg (Nat.not_lt.mpr h3), this]
    rfl

/-- A scanner leaves a rest of its text. -/
def Shrinks {α : Type} (f : Str → Except JErr (α × Str)) : Prop :=
  ∀ s v rest, f s = .ok (v, rest) → rest <:+ s

theorem skipWs_suffix (s : Str) : skipWs s <:+ s := List.dropWhile_suffix _

theorem bind_ok {α β : Type} {x : Except JErr α} {f : α → Except JErr β} {b : β}
    (h : x >>= f = .ok b) : ∃ a, x = .ok a ∧ f a = .ok b := by
  cases x with
  | error e => cases h
  | ok a => exact ⟨a, rfl, h⟩

theorem intPart_suffix {s ip rest : Str} (h : intPart s = some (ip, rest)) : rest <:+ s := by
  cases s with
  | nil => cases h
  | cons c s =>
    simp only [intPart] at h
    split_ifs at h
    · cases h; exact List.suffix_cons _ _
    · cases h; exact (List.dropWhile_suffix _).trans (List.suffix_cons _ _)

theorem fracPart_suffix (s : Str) : (fracPart s).2 <:+ s := by
  unfold fracPart
  split
  · split
    · exact List.suffix_rfl
    · exact (List.dropWhile_suffix _).trans (List.suffix_cons _ _)
  · exact List.suffix_rfl

theorem expDigits_suffix {neg : Bool} {s t : Str} (h : t <:+ s) : (expDigits neg s t).2 <:+ s := by
  unfold expDigits
  split
  · exact List.suffix_rfl
  · exact (List.dropWhile_suffix _).trans h

theorem expPart_suffix (s : Str) : (expPart s).2 <:+ s := by
  cases s with
  | nil => exact List.suffix_rfl
  | cons c t =>
    simp only [expPart]
    split
    · have h1 : t <:+ c :: t := List.suffix_cons _ _
      split
      · exact expDigits_suffix ((List.suffix_cons _ _).trans h1)
      · exact expDigits_suffix ((List.suffix_cons _ _).trans h1)
      · exact expDigits_suffix h1
    · exact List.suffix_rfl

theorem scanNumber_shrinks : Shrinks scanNumber := by
  intro s v rest h
  have hrest : ∀ {t : Str}, t <:+ s → (expPart (fracPart t).2).2 <:+ s := fun ht =>
    (expPart_suffix _).trans ((fracPart_suffix _).trans ht)
  have htail : (if s.head? = some 0x2D then s.tail else s) <:+ s := by
    split
    · exact List.tail_suffix s
    · exact List.suffix_rfl
  simp only [scanNumber] at h
  cases hi : intPart (if s.head? = some 0x2D then s.tail else s) with
  | none => simp [hi] at h
  | some r =>
    simp only [hi] at h
    have hs := hrest ((intPart_suffix hi).trans htail)
    split at h
    · split at h
      · cases h
      · cases h; exact hs
    · cases h; exact hs

theorem scanLiteral_suffix {s rest : Str} {v : Value} (h : scanLiteral s = some (v, rest)) :
    rest <:+ s := by
  obtain ⟨l, -, hl⟩ := Option.map_eq_some_iff.mp h
  cases hl; exact List.drop_suffix _ _

section
variable {val : Str → Except JErr (Value × Str)}

theorem scanElements_shrinks (hv : Shrinks val) : ∀ n, Shrinks (scanElements val n)
  | 0 => fun _ _ _ h => by cases h
  | n + 1 => by
    intro s vs rest h
    obtain ⟨⟨v, u⟩, hval, h⟩ := bind_ok h
    have hu := (skipWs_suffix u).trans (hv s v u hval)
    dsimp only at h
    split at h
    · rename_i he; cases h; exact (List.suffix_cons _ _).trans (he ▸ hu)
    · rename_i t he
      obtain ⟨⟨ws, w⟩, hrec, h⟩ := bind_ok h
      cases h
      have ht : t <:+ s := (List.suffix_cons _ _).trans (he ▸ hu)
      exact (scanElements_shrinks hv n _ _ _ hrec).trans ((skipWs_suffix t).trans ht)
    · cases h

theorem scanArray_shrinks (hv : Shrinks val) : Shrinks (scanArray val) := by
  intro s v rest h
  have hs := skipWs_suffix s
  unfold scanArray at h
  split at h
  · rename_i he; cases h; exact (List.suffix_cons _ _).trans (he ▸ hs)
  · obtain ⟨⟨vs, u⟩, hrec, h⟩ := bind_ok h
    cases h; exact (scanElements_shrinks hv _ _ _ _ hrec).trans hs

/-- The key `k` stands in `s` between two quotes. -/
def KeyOf (k s : Str) : Prop := ∃ a b c, s = a ++ 0x22 :: (b ++ 0x22 :: c) ∧ Quoted k b

theorem KeyOf.mono {k s t : Str} (h : KeyOf k s) (hs : s <:+: t) : KeyOf k t := by
  obtain ⟨a, b, c, rfl, hq⟩ := h
  obtain ⟨x, y, rfl⟩ := hs
  exact ⟨x ++ a, b, c ++ y, by simp, hq⟩

/-- One member: a key between quotes, and what is behind its value. -/
theorem scanMembers_spec (hv : Shrinks val) : ∀ n s kvs rest,
    scanMembers val n s = .ok (kvs, rest) → rest <:+ s ∧ ∀ k ∈ Assoc.keys kvs, KeyOf k s
  | 0, _, _, _, h => by cases h
  | n + 1, s, kvs, rest, h => by
    unfold scanMembers at h
    split at h
    · obtain ⟨⟨k, u⟩, hk, hm⟩ := bind_ok h
      clear h
      obtain ⟨b, rfl, hq⟩ := scanString_quoted hk
      have hkey : KeyOf k (0x22 :: (b ++ 0x22 :: u)) := ⟨[], b, u, rfl, hq⟩
      have hu : skipWs u <:+ 0x22 :: (b ++ 0x22 :: u) :=
        (skipWs_suffix u).trans ⟨0x22 :: (b ++ [0x22]), by simp⟩
      dsimp only at hm
      split at hm
      · rename_i t he
        obtain ⟨⟨v, w⟩, hval, hm⟩ := bind_ok hm
        have ht : t <:+ 0x22 :: (b ++ 0x22 :: u) := (List.suffix_cons _ _).trans (he ▸ hu)
        have hw := (skipWs_suffix w).trans ((hv _ _ _ hval).trans ((skipWs_suffix t).trans ht))
        dsimp only at hm
        split at hm
        · rename_i he'; cases hm
          refine ⟨(List.suffix_cons _ _).trans (he' ▸ hw), fun x hx => ?_⟩
          rw [List.mem_singleton.mp hx]; exact hkey
        · rename_i y he'
          obtain ⟨⟨kvs', z⟩, hrec, hm⟩ := bind_ok hm
          cases hm
          obtain ⟨hz, hkeys⟩ := scanMembers_spec hv n _ _ _ hrec
          have hy := (skipWs_suffix y).trans ((List.suffix_cons _ _).trans (he' ▸ hw))
          refine ⟨hz.trans hy, fun x hx => ?_⟩
          rcases List.mem_cons.mp hx with rfl | hx
          · exact hkey
          · exact (hkeys x hx).mono hy.isInfix
        · cases hm
      · cases hm
    · cases h

theorem scanObject_spec (hv : Shrinks val) {s rest : Str} {v : Value}
    (h : scanObject val s = .ok (v, rest)) :
    rest <:+ s ∧ ∀ kvs, v = .obj kvs → ∀ k ∈ Assoc.keys kvs, KeyOf k s := by
  have hs := skipWs_suffix s
  unfold scanObject at h
  split at h
  · rename_i he; cases h
    exact ⟨(List.suffix_cons _ _).trans (he ▸ hs), fun _ hv k hk => by cases hv; cases hk⟩
  · obtain ⟨⟨kvs, u⟩, hrec, h⟩ := bind_ok h
    cases h
    obtain ⟨hu, hkeys⟩ := scanMembers_spec hv _ _ _ _ hrec
    refine ⟨hu.trans hs, fun _ hv k hk => ?_⟩
    cases hv
    exact (hkeys k (Dict.mem_keys_ofList.mp hk)).mono hs.isInfix

end

theorem scanScalar_spec {s rest : Str} {v : Value}
    (h : (match scanLiteral s with
      | some r => Except.ok r
      | none => scanNumber s) = .ok (v, rest)) :
    rest <:+ s ∧ ∀ kvs, v ≠ .obj kvs := by
  split at h
  · rename_i r hl
    cases h
    refine ⟨scanLiteral_suffix hl, fun kvs hv => ?_⟩
    obtain ⟨l, hmem, hl⟩ := Option.map_eq_some_iff.mp hl
    have hm := List.mem_of_find?_eq_some hmem
    cases hl
    simp only [literals, List.mem_cons, List.not_mem_nil, or_false] at hm
    rcases hm with rfl | rfl | rfl | rfl | rfl | rfl <;> cases hv
  · refine ⟨scanNumber_shrinks _ _ _ h, fun kvs hv => ?_⟩
    subst hv
    simp only [scanNumber] at h
    split at h
    · cases h
    · split at h
      · split at h <;> cases h
      · cases h

/-- **A scanned value** leaves a rest, and the keys of an object stand in the
text. -/
theorem scanOnce_spec (depth : Nat) : ∀ {s rest : Str} {v : Value},
    scanOnce depth s = .ok (v, rest) →
      rest <:+ s ∧ ∀ kvs, v = .obj kvs → ∀ k ∈ Assoc.keys kvs, KeyOf k s := by
  induction depth using Nat.strongRecOn with
  | ind depth ih =>
    intro s rest v h
    cases s with
    | nil => cases depth <;> cases h
    | cons c s =>
      have hs : s <:+ c :: s := List.suffix_cons _ _
      have hval : ∀ d, depth = d + 1 → Shrinks (scanOnce d) := fun d hd _ _ _ hx =>
        (ih d (by omega) hx).1
      unfold scanOnce at h
      split_ifs at h with h1 h2 h3
      · obtain ⟨⟨t, u⟩, ht, h⟩ := bind_ok h
        cases h
        obtain ⟨b, rfl, -⟩ := scanString_quoted ht
        exact ⟨⟨c :: (b ++ [0x22]), by simp⟩, fun _ hv => by cases hv⟩
      · cases depth with
        | zero => cases h
        | succ d =>
          obtain ⟨hr, hk⟩ := scanObject_spec (hval d rfl) h
          exact ⟨hr.trans hs, fun kvs hv k hm => (hk kvs hv k hm).mono hs.isInfix⟩
      · cases depth with
        | zero => cases h
        | succ d =>
          refine ⟨(scanArray_shrinks (hval d rfl) _ _ _ h).trans hs, fun kvs hv => ?_⟩
          subst hv
          simp only [scanArray] at h
          split at h
          · cases h
          · obtain ⟨_, -, h⟩ := bind_ok h
            cases h
      · obtain ⟨hr, hv⟩ := scanScalar_spec h
        exact ⟨hr, fun kvs he => absurd he (hv kvs)⟩

/-- **Where a key comes from.** -/
theorem keyOf_of_loads {recLimit : Nat} {s : Str} {kvs : List (Str × Value)}
    (h : loads recLimit s = .ok (.obj kvs)) {k : Str} (hk : k ∈ Assoc.keys kvs) : KeyOf k s := by
  unfold loads at h
  split at h
  · cases h
  · obtain ⟨⟨v, rest⟩, hs, h⟩ := bind_ok h
    dsimp only at h
    split at h
    · cases h
      exact ((scanOnce_spec _ hs).2 kvs rfl k hk).mono (skipWs_suffix s).isInfix
    · cases h

end EbpfDemo.L1Encoding.Json
