import EbpfDemo.Core.Shortest
import EbpfDemo.L1Encoding.Labels

/-!
# json.dumps

What the client sends to the browser is `json.dumps` of a `dict`: `ensure_ascii`
text, `", "` and `": "` between the parts, `float.__repr__` for floats, `NaN` and
`Infinity` for what is not finite. `encode` is the encoder of `_json.c`; `depth` is
how many lists and dicts may still be opened before it raises `RecursionError`.
The sign of a zero is not kept (`Binary64`).

* `encode_printable`: the text of any value is printable ASCII, so it is one line
  of an event stream.
-/
namespace EbpfDemo.L1Encoding.Json

open EbpfDemo.Core

/-- What `json.dumps` is given. -/
inductive Py where
  | null
  | bool (b : Bool)
  | int (n : ℤ)
  | float (x : Binary64)
  | str (s : Str)
  | list (xs : List Py)
  | dict (kvs : List (Str × Py))

/-- The `ValueError` of an integer with too many digits, `RecursionError`. -/
inductive DumpErr where
  | tooManyDigits | recursion
  deriving DecidableEq

/-! ## Strings -/

def hexDigit (d : Nat) : Nat := if d < 10 then 0x30 + d else 0x61 + (d - 10)

/-- `\\uXXXX` -/
def hexEscape (u : Nat) : Str :=
  [0x5C, 0x75, hexDigit (u / 4096 % 16), hexDigit (u / 256 % 16), hexDigit (u / 16 % 16),
    hexDigit (u % 16)]

/-- The UTF-16 code units of a character; a surrogate stands for itself. -/
def unitsOf (c : Nat) : Str :=
  if c < 0x10000 then [c]
  else [0xD800 + (c - 0x10000) / 0x400, 0xDC00 + (c - 0x10000) % 0x400]

/-- The text as UTF-16. -/
def utf16 (s : Str) : Str := s.flatMap unitsOf

/-- One character in a string. -/
def escapeChar (c : Nat) : Str :=
  if c = 0x22 ∨ c = 0x5C then [0x5C, c]
  else if c = 0x0A then [0x5C, 0x6E]
  else if c = 0x0D then [0x5C, 0x72]
  else if c = 0x09 then [0x5C, 0x74]
  else if c = 0x08 then [0x5C, 0x62]
  else if c = 0x0C then [0x5C, 0x66]
  else if 0x20 ≤ c ∧ c ≤ 0x7E then [c]
  else (unitsOf c).flatMap hexEscape

/-- `py_encode_basestring_ascii` -/
def encodeString (s : Str) : Str := 0x22 :: (s.flatMap escapeChar ++ [0x22])

/-! ## Numbers -/

/-- `int.__repr__` -/
def encodeInt (n : ℤ) : Except DumpErr Str :=
  let ds := decimal n.natAbs
  if ds.length > maxIntDigits then .error .tooManyDigits
  else .ok (if n < 0 then 0x2D :: ds else ds)

/-- The digits without the zeros at the end. -/
def strip (ds : Str) : Str := (ds.reverse.dropWhile (· = 0x30)).reverse

def zeros (n : Nat) : Str := List.replicate n 0x30

/-- An exponent has a sign and two digits or more. -/
def encodeExp (e : ℤ) : Str :=
  0x65 :: (if e < 0 then 0x2D else 0x2B) ::
    (if e.natAbs < 10 then 0x30 :: decimal e.natAbs else decimal e.natAbs)

/-- The digits `ds` with the decimal point behind `point` of them: an exponent from
`1e16` on and below `1e-4`. -/
def layout (ds : Str) (point : ℤ) : Str :=
  if point ≤ -4 ∨ 16 < point then
    ds.take 1 ++ (if ds.length = 1 then [] else 0x2E :: ds.drop 1) ++ encodeExp (point - 1)
  else if point ≤ 0 then 0x30 :: 0x2E :: (zeros (-point).toNat ++ ds)
  else if ds.length ≤ point.toNat then
    ds ++ (zeros (point.toNat - ds.length) ++ [0x2E, 0x30])
  else ds.take point.toNat ++ 0x2E :: ds.drop point.toNat

/-- `float.__repr__` of a positive number. -/
def reprPos (q : ℚ) : Str :=
  let d := Decimal.shortest q
  let ds := decimal d.digits
  layout (strip ds) (ds.length + d.exp)

/-- `float.__repr__` -/
def encodeFloat : Binary64 → Str
  | .nan => L1Encoding.str "NaN"
  | .inf false => L1Encoding.str "Infinity"
  | .inf true => L1Encoding.str "-Infinity"
  | .fin q _ => if q = 0 then L1Encoding.str "0.0" else if q < 0 then 0x2D :: reprPos (-q) else reprPos q

/-! ## Values -/

/-- `", ".join` -/
def commas : List Str → Str := List.intercalate [0x2C, 0x20]

def encode : Nat → Py → Except DumpErr Str
  | _, .null => .ok (L1Encoding.str "null")
  | _, .bool true => .ok (L1Encoding.str "true")
  | _, .bool false => .ok (L1Encoding.str "false")
  | _, .int n => encodeInt n
  | _, .float x => .ok (encodeFloat x)
  | _, .str s => .ok (encodeString s)
  | 0, .list _ => .error .recursion
  | depth + 1, .list xs => do
    let parts ← xs.mapM (encode depth)
    pure (0x5B :: (commas parts ++ [0x5D]))
  | 0, .dict _ => .error .recursion
  | depth + 1, .dict kvs => do
    let parts ← kvs.mapM fun e => do
      let v ← encode depth e.2
      pure (encodeString e.1 ++ 0x3A :: 0x20 :: v)
    pure (0x7B :: (commas parts ++ [0x7D]))

/-- `json.dumps(v)` -/
def dumps (recLimit : Nat) (v : Py) : Except DumpErr Str := encode recLimit v

/-! ## The characters of the text -/

/-- Printable ASCII. -/
def Printable (s : Str) : Prop := ∀ c ∈ s, 0x20 ≤ c ∧ c ≤ 0x7E

theorem Printable.append {s t : Str} (hs : Printable s) (ht : Printable t) : Printable (s ++ t) :=
  List.forall_mem_append.mpr ⟨hs, ht⟩

theorem Printable.cons {c : Nat} {s : Str} (hc : 0x20 ≤ c ∧ c ≤ 0x7E) (hs : Printable s) :
    Printable (c :: s) := List.forall_mem_cons.mpr ⟨hc, hs⟩

theorem Printable.sublist {s t : Str} (ht : Printable t) (h : s.Sublist t) : Printable s :=
  fun c hc => ht c (h.subset hc)

theorem printable_nil : Printable [] := List.forall_mem_nil _

theorem printable_digits {s : Str} (h : ∀ c ∈ s, 0x30 ≤ c ∧ c ≤ 0x39) : Printable s :=
  fun c hc => by have := h c hc; omega

theorem printable_decimal (n : Nat) : Printable (decimal n) :=
  printable_digits fun _ => decimal_digit

theorem hexDigit_printable {d : Nat} (h : d < 16) : 0x20 ≤ hexDigit d ∧ hexDigit d ≤ 0x7E := by
  unfold hexDigit
  split <;> omega

theorem printable_hexEscape (u : Nat) : Printable (hexEscape u) := by
  have h (x : Nat) := hexDigit_printable (Nat.mod_lt x (by decide : 0 < 16))
  exact .cons (by decide) (.cons (by decide) (.cons (h _) (.cons (h _) (.cons (h _)
    (.cons (h _) printable_nil)))))

theorem printable_flatMap {s : Str} {f : Nat → Str} (h : ∀ c, Printable (f c)) :
    Printable (s.flatMap f) := by
  intro c hc
  obtain ⟨x, -, hx⟩ := List.mem_flatMap.mp hc
  exact h x c hx

theorem printable_escapeChar (c : Nat) : Printable (escapeChar c) := by
  have two {x : Nat} (h : 0x20 ≤ x ∧ x ≤ 0x7E) : Printable [0x5C, x] :=
    .cons (by decide) (.cons h printable_nil)
  unfold escapeChar
  refine iteInduction (motive := Printable) (fun h => two (by omega)) fun _ => ?_
  refine iteInduction (motive := Printable) (fun _ => two (by decide)) fun _ => ?_
  refine iteInduction (motive := Printable) (fun _ => two (by decide)) fun _ => ?_
  refine iteInduction (motive := Printable) (fun _ => two (by decide)) fun _ => ?_
  refine iteInduction (motive := Printable) (fun _ => two (by decide)) fun _ => ?_
  refine iteInduction (motive := Printable) (fun _ => two (by decide)) fun _ => ?_
  refine iteInduction (motive := Printable) (fun h => .cons h printable_nil) fun _ => ?_
  exact printable_flatMap printable_hexEscape

theorem printable_encodeString (s : Str) : Printable (encodeString s) :=
  .cons (by decide) ((printable_flatMap printable_escapeChar).append
    (.cons (by decide) printable_nil))

theorem printable_encodeInt {n : ℤ} {t : Str} (h : encodeInt n = .ok t) : Printable t := by
  simp only [encodeInt] at h
  split at h
  · cases h
  · cases h
    split
    · exact .cons (by decide) (printable_decimal _)
    · exact printable_decimal _

theorem printable_zeros (n : Nat) : Printable (zeros n) :=
  fun c hc => by rw [List.eq_of_mem_replicate hc]; decide

theorem printable_encodeExp (e : ℤ) : Printable (encodeExp e) := by
  refine .cons (by decide) (.cons (by split <;> decide) ?_)
  split
  · exact .cons (by decide) (printable_decimal _)
  · exact printable_decimal _

theorem printable_layout {ds : Str} (h : Printable ds) (point : ℤ) :
    Printable (layout ds point) := by
  have htake (n : Nat) := h.sublist (List.take_sublist n ds)
  have hdrop (n : Nat) := h.sublist (List.drop_sublist n ds)
  unfold layout
  split_ifs
  · exact ((htake _).append printable_nil).append (printable_encodeExp _)
  · exact ((htake _).append (.cons (by decide) (hdrop _))).append (printable_encodeExp _)
  · exact .cons (by decide) (.cons (by decide) ((printable_zeros _).append h))
  · exact h.append ((printable_zeros _).append (by unfold Printable; decide))
  · exact (htake _).append (.cons (by decide) (hdrop _))

theorem strip_sublist (ds : Str) : (strip ds).Sublist ds := by
  have h := (List.dropWhile_sublist (l := ds.reverse) (· = 0x30)).reverse
  rwa [List.reverse_reverse] at h

theorem printable_encodeFloat (x : Binary64) : Printable (encodeFloat x) := by
  have hpos (q : ℚ) : Printable (reprPos q) :=
    printable_layout ((printable_decimal _).sublist (strip_sublist _)) _
  unfold encodeFloat
  split
  · unfold Printable; decide
  · unfold Printable; decide
  · unfold Printable; decide
  · split_ifs
    · unfold Printable; decide
    · exact .cons (by decide) (hpos _)
    · exact hpos _

theorem printable_commas {ts : List Str} (h : ∀ t ∈ ts, Printable t) : Printable (commas ts) := by
  induction ts with
  | nil => exact printable_nil
  | cons t ts ih =>
    obtain ⟨ht, hts⟩ := List.forall_mem_cons.mp h
    cases ts with
    | nil => simpa [commas] using ht
    | cons u us =>
      have hcons : commas (t :: u :: us) = t ++ (0x2C :: 0x20 :: commas (u :: us)) := by
        simp [commas, List.intercalate]
      rw [hcons]
      exact ht.append (.cons (by decide) (.cons (by decide) (ih hts)))

theorem ok_of_bind {α β : Type} {x : Except DumpErr α} {f : α → Except DumpErr β} {b : β}
    (h : x >>= f = .ok b) : ∃ a, x = .ok a ∧ f a = .ok b := by
  cases x with
  | error e => cases h
  | ok a => exact ⟨a, rfl, h⟩

/-- The texts of the parts, one for one. -/
theorem forall₂_of_mapM {α : Type} {f : α → Except DumpErr Str} : ∀ {xs : List α} {ts : List Str},
    xs.mapM f = .ok ts → List.Forall₂ (fun x t => f x = .ok t) xs ts
  | [], ts, h => by cases h; exact .nil
  | x :: xs, ts, h => by
    rw [List.mapM_cons] at h
    obtain ⟨t, hx, h⟩ := ok_of_bind h
    obtain ⟨us, hxs, h⟩ := ok_of_bind h
    cases h
    exact .cons hx (forall₂_of_mapM hxs)

theorem forall_of_forall₂ {α : Type} {R : α → Str → Prop} {P : Str → Prop} {xs : List α}
    {ts : List Str} (h : List.Forall₂ R xs ts) (hR : ∀ x t, R x t → P t) : ∀ t ∈ ts, P t := by
  induction h with
  | nil => exact List.forall_mem_nil P
  | cons hx _ ih => exact List.forall_mem_cons.mpr ⟨hR _ _ hx, ih⟩

section
variable {depth : Nat} {t : Str}

/-- The text of a list. -/
theorem encode_list {xs : List Py} (h : encode (depth + 1) (.list xs) = .ok t) :
    ∃ ts, List.Forall₂ (fun x u => encode depth x = .ok u) xs ts ∧
      t = 0x5B :: (commas ts ++ [0x5D]) := by
  rw [encode] at h
  obtain ⟨ts, hts, h⟩ := ok_of_bind h
  cases h
  exact ⟨ts, forall₂_of_mapM hts, rfl⟩

/-- The text `u` of an item. -/
def Member (depth : Nat) (e : Str × Py) (u : Str) : Prop :=
  ∃ w, encode depth e.2 = .ok w ∧ u = encodeString e.1 ++ 0x3A :: 0x20 :: w

/-- The text of a dict. -/
theorem encode_dict {kvs : List (Str × Py)} (h : encode (depth + 1) (.dict kvs) = .ok t) :
    ∃ ts, List.Forall₂ (Member depth) kvs ts ∧ t = 0x7B :: (commas ts ++ [0x7D]) := by
  rw [encode] at h
  obtain ⟨ts, hts, h⟩ := ok_of_bind h
  cases h
  refine ⟨ts, (forall₂_of_mapM hts).imp fun e u he => ?_, rfl⟩
  obtain ⟨w, hw, he⟩ := ok_of_bind he
  cases he
  exact ⟨w, hw, rfl⟩

/-- **One line.** The text of a value is printable ASCII. -/
theorem encode_printable : ∀ {depth : Nat} {v : Py} {t : Str}, encode depth v = .ok t → Printable t
  | depth, .null, _, h => by rw [encode] at h; cases h; unfold Printable; decide
  | depth, .bool true, _, h => by rw [encode] at h; cases h; unfold Printable; decide
  | depth, .bool false, _, h => by rw [encode] at h; cases h; unfold Printable; decide
  | depth, .int n, _, h => by rw [encode] at h; exact printable_encodeInt h
  | depth, .float x, _, h => by rw [encode] at h; cases h; exact printable_encodeFloat x
  | depth, .str s, _, h => by rw [encode] at h; cases h; exact printable_encodeString s
  | 0, .list _, _, h => by rw [encode] at h; cases h
  | 0, .dict _, _, h => by rw [encode] at h; cases h
  | depth + 1, .list xs, _, h => by
    obtain ⟨ts, hts, rfl⟩ := encode_list h
    have hp := forall_of_forall₂ hts fun _ _ => encode_printable
    exact .cons (by decide) ((printable_commas hp).append (.cons (by decide) printable_nil))
  | depth + 1, .dict kvs, _, h => by
    obtain ⟨ts, hts, rfl⟩ := encode_dict h
    have hp : ∀ u ∈ ts, Printable u := forall_of_forall₂ hts fun e u ⟨w, hw, hu⟩ => hu ▸
      (printable_encodeString e.1).append
        (.cons (by decide) (.cons (by decide) (encode_printable hw)))
    exact .cons (by decide) ((printable_commas hp).append (.cons (by decide) printable_nil))

end

end EbpfDemo.L1Encoding.Json
