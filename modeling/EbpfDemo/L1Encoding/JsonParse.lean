import EbpfDemo.Core.Stretch
import EbpfDemo.L1Encoding.JsonText

/-!
# JSON.parse

The page reads with `JSON.parse` what the server wrote with `json.dumps`. A
JavaScript string is a list of UTF-16 code units, a number a double; there is no
`NaN`, no `Infinity`, and no limit on digits or nesting (`fuel` is the length of
the text).

* `parse_dumps`: the page reads the value the server wrote if all its floats are
  finite, else nothing: `json.dumps` writes `NaN` and `Infinity`, which
  `JSON.parse` does not accept.
-/
namespace EbpfDemo.L1Encoding.Js

open EbpfDemo.Core
open Json (Py isWs skipWs isDigit digits hex4 intPart fracPart expPart)

inductive Value where
  | null
  | bool (b : Bool)
  | num (x : Binary64)
  | str (s : Str)
  | arr (xs : List Value)
  | obj (kvs : List (Str × Value))

/-- Behind a backslash, one code unit. -/
def escape : Str → Option (Nat × Str)
  | [] => none
  | c :: s =>
    if c = 0x22 ∨ c = 0x5C ∨ c = 0x2F then some (c, s)
    else if c = 0x62 then some (0x08, s)
    else if c = 0x66 then some (0x0C, s)
    else if c = 0x6E then some (0x0A, s)
    else if c = 0x72 then some (0x0D, s)
    else if c = 0x74 then some (0x09, s)
    else if c = 0x75 then hex4 s
    else none

/-- Behind the opening quote. -/
def string : Nat → Str → Option (Str × Str)
  | 0, _ => none
  | _, [] => none
  | n + 1, c :: s =>
    if c = 0x22 then some ([], s)
    else if c = 0x5C then do
      let (x, s) ← escape s
      let (t, s) ← string n s
      pure (x :: t, s)
    else if c < 0x20 then none
    else do
      let (t, s) ← string n s
      pure (c :: t, s)

/-- A number without its sign, exactly. -/
def unsigned (s : Str) : Option (ℚ × Str) := do
  let (ip, s) ← intPart s
  let (fp, s) := fracPart s
  let (e, s) := expPart s
  pure (digits (ip ++ fp) * 10 ^ (e.getD 0 - fp.length), s)

def number (s : Str) : Option (Value × Str) :=
  match s with
  | 0x2D :: s => (unsigned s).map fun r => (.num (.ofRat (-r.1)), r.2)
  | s => (unsigned s).map fun r => (.num (.ofRat r.1), r.2)

def literals : List (Str × Value) :=
  [(L1Encoding.str "null", .null), (L1Encoding.str "true", .bool true),
   (L1Encoding.str "false", .bool false)]

def literal (s : Str) : Option (Value × Str) :=
  (literals.find? fun l => l.1.isPrefixOf s).map fun l => (l.2, s.drop l.1.length)

/-- What stands between commas, to behind the closing bracket. -/
def items {α : Type} (item : Str → Option (α × Str)) (close : Nat) :
    Nat → Str → Option (List α × Str)
  | 0, _ => none
  | n + 1, s => do
    let (x, s) ← item s
    match skipWs s with
    | [] => none
    | c :: s =>
      if c = close then pure ([x], s)
      else if c = 0x2C then do
        let (xs, s) ← items item close n (skipWs s)
        pure (x :: xs, s)
      else none

/-- Behind the opening bracket. -/
def bracketed {α : Type} (item : Str → Option (α × Str)) (close : Nat) (s : Str) :
    Option (List α × Str) :=
  match skipWs s with
  | [] => none
  | c :: s => if c = close then some ([], s) else items item close (c :: s).length (c :: s)

/-- A key and its value. -/
def member (val : Str → Option (Value × Str)) : Str → Option ((Str × Value) × Str)
  | 0x22 :: s => do
    let (k, s) ← string (s.length + 1) s
    match skipWs s with
    | 0x3A :: s => do
      let (v, s) ← val (skipWs s)
      pure ((k, v), s)
    | _ => none
  | _ => none

/-- An object keeps the last value of a repeated key. -/
def value : Nat → Str → Option (Value × Str)
  | _, [] => none
  | fuel, c :: s =>
    if c = 0x22 then (string (s.length + 1) s).map fun r => (.str r.1, r.2)
    else if c = 0x7B then
      match fuel with
      | 0 => none
      | fuel + 1 =>
        (bracketed (member (value fuel)) 0x7D s).map fun r => (.obj (Dict.ofList r.1), r.2)
    else if c = 0x5B then
      match fuel with
      | 0 => none
      | fuel + 1 => (bracketed (value fuel) 0x5D s).map fun r => (.arr r.1, r.2)
    else (literal (c :: s)).or (number (c :: s))

/-- `JSON.parse(s)`; `none` is the `SyntaxError`. -/
def parse (s : Str) : Option Value := do
  let (v, rest) ← value s.length (skipWs s)
  if skipWs rest = [] then some v else none

/-! ## What a Python value is on the page -/

mutual

/-- Its value on the page. -/
def ofPy : Py → Value
  | .null => .null
  | .bool b => .bool b
  | .int n => .num (.ofRat n)
  | .float x => .num x
  | .str s => .str (Json.utf16 s)
  | .list xs => .arr (ofPys xs)
  | .dict kvs => .obj (Dict.ofList (ofItems kvs))

def ofPys : List Py → List Value
  | [] => []
  | v :: vs => ofPy v :: ofPys vs

def ofItems : List (Str × Py) → List (Str × Value)
  | [] => []
  | (k, v) :: kvs => (Json.utf16 k, ofPy v) :: ofItems kvs

end

/-- A Python `str`: its characters are code points. -/
def isText (s : Str) : Bool := s.all (· < 0x110000)

mutual

/-- All strings in it are Python strings. -/
def valid : Py → Bool
  | .str s => isText s
  | .list xs => valids xs
  | .dict kvs => validItems kvs
  | _ => true

def valids : List Py → Bool
  | [] => true
  | v :: vs => valid v && valids vs

def validItems : List (Str × Py) → Bool
  | [] => true
  | (k, v) :: kvs => isText k && valid v && validItems kvs

end

mutual

/-- No float in it is infinite or `NaN`. -/
def finite : Py → Bool
  | .float x => x.isFinite
  | .list xs => finites xs
  | .dict kvs => finiteItems kvs
  | _ => true

def finites : List Py → Bool
  | [] => true
  | v :: vs => finite v && finites vs

def finiteItems : List (Str × Py) → Bool
  | [] => true
  | (_, v) :: kvs => finite v && finiteItems kvs

end

/-! ## Strings -/

theorem hexVal_hexDigit {d : Nat} (h : d < 16) : Json.hexVal (Json.hexDigit d) = some d := by
  have : ∀ d < 16, Json.hexVal (Json.hexDigit d) = some d := by decide
  exact this d h

theorem hex4_hexEscape {u : Nat} (h : u < 0x10000) (rest : Str) :
    hex4 (Json.hexDigit (u / 4096 % 16) :: Json.hexDigit (u / 256 % 16) ::
      Json.hexDigit (u / 16 % 16) :: Json.hexDigit (u % 16) :: rest) = some (u, rest) := by
  have hd (x : Nat) := hexVal_hexDigit (Nat.mod_lt x (by decide : 0 < 16))
  simp only [hex4, hd, Option.bind_eq_bind, Option.bind_some, pure]
  congr 2
  omega

/-- With any fuel above `m` the text `s` up to `rest` is the content `t`. -/
def Reads (m : Nat) (s t rest : Str) : Prop := ∀ n, m < n → string n s = some (t, rest)

/-- In front of a string content the text `p` stands for the units `us`. -/
def Emits (p us : Str) : Prop :=
  ∀ m s t rest, Reads m s t rest → Reads (m + p.length) (p ++ s) (us ++ t) rest

theorem emits_nil : Emits [] [] := fun _ _ _ _ h => h

theorem Emits.append {p q us vs : Str} (hp : Emits p us) (hq : Emits q vs) :
    Emits (p ++ q) (us ++ vs) := by
  intro m s t rest h
  have := hp _ _ _ _ (hq m s t rest h)
  rwa [List.append_assoc, List.append_assoc, List.length_append, Nat.add_comm p.length,
    ← Nat.add_assoc]

theorem emits_flatMap {f g : Nat → Str} {s : Str} (h : ∀ c ∈ s, Emits (f c) (g c)) :
    Emits (s.flatMap f) (s.flatMap g) := by
  induction s with
  | nil => exact emits_nil
  | cons c s ih =>
    rw [List.flatMap_cons, List.flatMap_cons]
    obtain ⟨hc, hs⟩ := List.forall_mem_cons.mp h
    exact hc.append (ih hs)

theorem emits_plain {c : Nat} (h1 : c ≠ 0x22) (h2 : c ≠ 0x5C) (h3 : 0x20 ≤ c) : Emits [c] [c] := by
  intro m s t rest h n hn
  obtain ⟨n, rfl⟩ := Nat.exists_eq_succ_of_ne_zero (Nat.ne_of_gt (Nat.zero_lt_of_lt hn))
  have := h n (Nat.lt_of_succ_lt_succ hn)
  simp only [List.cons_append, List.nil_append, string, if_neg h1, if_neg h2,
    if_neg (Nat.not_lt.mpr h3), this]
  rfl

theorem emits_escape {p : Str} {x : Nat} (h : ∀ s, escape (p ++ s) = some (x, s)) :
    Emits (0x5C :: p) [x] := by
  intro m s t rest hs n hn
  obtain ⟨n, rfl⟩ := Nat.exists_eq_succ_of_ne_zero (Nat.ne_of_gt (Nat.zero_lt_of_lt hn))
  have := hs n (by rw [List.length_cons] at hn; omega)
  simp [string, h, this]

theorem emits_hexEscape {u : Nat} (h : u < 0x10000) : Emits (Json.hexEscape u) [u] :=
  emits_escape fun s => by simpa [escape] using hex4_hexEscape h s

theorem unitsOf_lt {c : Nat} (h : c < 0x110000) : ∀ u ∈ Json.unitsOf c, u < 0x10000 := by
  unfold Json.unitsOf
  split
  · exact List.forall_mem_singleton.mpr (by assumption)
  · exact List.forall_mem_cons.mpr ⟨by omega, List.forall_mem_singleton.mpr (by omega)⟩

/-- One character, whatever way it is written. -/
theorem emits_escapeChar {c : Nat} (h : c < 0x110000) :
    Emits (Json.escapeChar c) (Json.unitsOf c) := by
  have hlow (hc : c < 0x10000) : Json.unitsOf c = [c] := if_pos hc
  let P (p : Str) : Prop := Emits p (Json.unitsOf c)
  show P (Json.escapeChar c)
  have short {x : Nat} (hx : c = x) (hx' : x < 0x10000) {p : Nat}
      (he : ∀ s, escape (p :: s) = some (x, s)) : P [0x5C, p] := by
    show Emits _ (Json.unitsOf c)
    rw [hlow (hx ▸ hx'), hx]
    exact emits_escape he
  unfold Json.escapeChar
  refine iteInduction (motive := P) (fun hc => ?_) fun hq => ?_
  · refine short rfl (by omega) fun s => ?_
    rcases hc with rfl | rfl <;> rfl
  refine iteInduction (motive := P) (fun hc => short hc (by decide) fun _ => rfl) fun _ => ?_
  refine iteInduction (motive := P) (fun hc => short hc (by decide) fun _ => rfl) fun _ => ?_
  refine iteInduction (motive := P) (fun hc => short hc (by decide) fun _ => rfl) fun _ => ?_
  refine iteInduction (motive := P) (fun hc => short hc (by decide) fun _ => rfl) fun _ => ?_
  refine iteInduction (motive := P) (fun hc => short hc (by decide) fun _ => rfl) fun _ => ?_
  refine iteInduction (motive := P) (fun hc => ?_) fun _ => ?_
  · show Emits _ (Json.unitsOf c)
    rw [hlow (by omega)]
    exact emits_plain (by omega) (by omega) hc.1
  · have := emits_flatMap (f := Json.hexEscape) (g := fun u => [u]) fun u hu =>
      emits_hexEscape (unitsOf_lt h u hu)
    rwa [List.flatMap_singleton'] at this

/-- **Strings.** The page reads the UTF-16 of the text. -/
theorem string_encode {s : Str} (h : isText s = true) (rest : Str) {n : Nat}
    (hn : (s.flatMap Json.escapeChar).length < n) :
    string n (s.flatMap Json.escapeChar ++ 0x22 :: rest) = some (Json.utf16 s, rest) := by
  have hnil : Reads 0 (0x22 :: rest) [] rest := by
    intro n hn
    obtain ⟨n, rfl⟩ := Nat.exists_eq_succ_of_ne_zero (Nat.ne_of_gt hn)
    rfl
  have hchar : ∀ c ∈ s, c < 0x110000 := fun c hc => of_decide_eq_true (List.all_eq_true.mp h c hc)
  have := emits_flatMap (f := Json.escapeChar) (fun c hc => emits_escapeChar (hchar c hc)) _ _ _ _
    hnil n (by omega)
  rwa [List.append_nil] at this

/-! ## Numbers -/

def Digits (s : Str) : Prop := ∀ c ∈ s, isDigit c = true

/-- No digit comes next. -/
def NoDigit (rest : Str) : Prop := ∀ c, rest.head? = some c → isDigit c = false

/-- No number goes on in `rest`. -/
structure Stops (rest : Str) : Prop where
  noDigit : NoDigit rest
  noPoint : rest.head? ≠ some 0x2E
  noExp : rest.head? ≠ some 0x65 ∧ rest.head? ≠ some 0x45

/-- A zero, or digits that start with no zero. -/
structure IntText (ip : Str) : Prop where
  digits : Digits ip
  ne_nil : ip ≠ []
  lead : ip.head? = some 0x30 → ip = [0x30]

theorem digits_nil : Digits [] := List.forall_mem_nil _

theorem digits_zero : Digits [0x30] := List.forall_mem_singleton.mpr rfl

theorem Digits.append {s t : Str} (hs : Digits s) (ht : Digits t) : Digits (s ++ t) :=
  List.forall_mem_append.mpr ⟨hs, ht⟩

theorem digits_decimal (n : Nat) : Digits (decimal n) := fun c hc => by
  have := decimal_digit hc
  simp [isDigit, this]

theorem intText_decimal (n : Nat) : IntText (decimal n) where
  digits := digits_decimal n
  ne_nil := decimal_ne_nil n
  lead h := by
    cases hd : decimal n with
    | nil => rw [hd] at h; cases h
    | cons c s =>
      rw [hd] at h
      obtain rfl := Option.some.inj h
      rw [decimal_head hd rfl]

theorem span_digits {ds rest : Str} (hd : Digits ds) (hr : NoDigit rest) :
    (ds ++ rest).takeWhile isDigit = ds ∧ (ds ++ rest).dropWhile isDigit = rest :=
  ⟨takeWhile_stop hd hr, dropWhile_stop hd hr⟩

theorem intPart_append {ip rest : Str} (h : IntText ip) (hr : NoDigit rest) :
    intPart (ip ++ rest) = some (ip, rest) := by
  obtain ⟨hd, hne, hlead⟩ := h
  cases ip with
  | nil => exact absurd rfl hne
  | cons c s =>
    obtain ⟨hc, hs⟩ := List.forall_mem_cons.mp hd
    rw [List.cons_append]
    simp only [intPart]
    by_cases h0 : c = 0x30
    · obtain rfl : s = [] := by simpa [h0] using hlead (by rw [h0]; rfl)
      rw [if_pos h0]
      rfl
    · obtain ⟨h1, h2⟩ := span_digits hs hr
      rw [if_neg h0, if_pos hc, h1, h2]

/-- A fraction, if it has digits. -/
def point (fp : Str) : Str := if fp = [] then [] else 0x2E :: fp

/-- An exponent, if there is one. -/
def power : Option ℤ → Str
  | none => []
  | some e => Json.encodeExp e

theorem fracPart_point {fp rest : Str} (hd : Digits fp) (hr : NoDigit rest)
    (hp : rest.head? ≠ some 0x2E) : fracPart (point fp ++ rest) = (fp, rest) := by
  unfold point
  split
  · rename_i h
    subst h
    rw [List.nil_append]
    unfold fracPart
    split
    · exact absurd rfl hp
    · rfl
  · rename_i h
    obtain ⟨h1, h2⟩ := span_digits hd hr
    rw [List.cons_append, fracPart, h1, h2, if_neg h]

/-- The digits of an exponent. -/
theorem expDigits_text {neg : Bool} {ds rest s : Str} {n : Nat} (hd : Digits ds) (hne : ds ≠ [])
    (hr : NoDigit rest) (hn : digits ds = n) :
    Json.expDigits neg s (ds ++ rest) = (some (if neg then -(n : ℤ) else n), rest) := by
  obtain ⟨h1, h2⟩ := span_digits hd hr
  unfold Json.expDigits
  rw [h1, h2, if_neg hne, hn]

theorem digits_zero_cons (s : Str) : digits (0x30 :: s) = digits s := rfl

theorem expPart_power {rest : Str} (e : Option ℤ) (hr : Stops rest) :
    expPart (power e ++ rest) = (e, rest) := by
  cases e with
  | none =>
    rw [power, List.nil_append]
    unfold expPart
    split
    · rfl
    · rename_i c t
      rw [if_neg]
      rintro (rfl | rfl)
      · exact hr.noExp.1 rfl
      · exact hr.noExp.2 rfl
  | some e =>
    have hval : digits (decimal e.natAbs) = e.natAbs := foldl_decimal _
    have hds : ∃ ds, (if e.natAbs < 10 then 0x30 :: decimal e.natAbs else decimal e.natAbs) = ds ∧
        Digits ds ∧ ds ≠ [] ∧ digits ds = e.natAbs := by
      refine ⟨_, rfl, ?_⟩
      split
      · exact ⟨List.forall_mem_cons.mpr ⟨rfl, digits_decimal _⟩, List.cons_ne_nil _ _,
          (digits_zero_cons _).trans hval⟩
      · exact ⟨digits_decimal _, decimal_ne_nil _, hval⟩
    obtain ⟨ds, hds, hd, hne, hn⟩ := hds
    rw [power, Json.encodeExp, hds]
    by_cases he : e < 0
    · rw [if_pos he]
      have hval : -(e.natAbs : ℤ) = e := by omega
      simp only [List.cons_append, expPart, expDigits_text hd hne hr.noDigit hn, true_or, if_true,
        hval]
    · rw [if_neg he]
      have hval : (e.natAbs : ℤ) = e := by omega
      simp only [List.cons_append, expPart, expDigits_text hd hne hr.noDigit hn, true_or, if_true,
        Bool.false_eq_true, if_false, hval]

theorem digits_append (s t : Str) : digits (s ++ t) = digits s * 10 ^ t.length + digits t := by
  have h : ∀ (t : Str) (n : Nat), t.foldl (fun n c => 10 * n + (c - 0x30)) n =
      n * 10 ^ t.length + digits t := by
    intro t
    induction t with
    | nil => intro n; simp [digits]
    | cons c t ih =>
      intro n
      have hc : digits (c :: t) = (10 * 0 + (c - 0x30)) * 10 ^ t.length + digits t := ih _
      rw [List.foldl_cons, ih, hc, List.length_cons, pow_succ]
      ring
  rw [digits, List.foldl_append, h]
  rfl

/-- **Numbers.** The value of a number as it is written. -/
theorem unsigned_text {ip fp rest : Str} (hip : IntText ip) (hfp : Digits fp) (e : Option ℤ)
    (hr : Stops rest) : unsigned (ip ++ (point fp ++ (power e ++ rest))) =
      some ((digits (ip ++ fp) : ℚ) * 10 ^ (e.getD 0 - fp.length), rest) := by
  have h2 : NoDigit (power e ++ rest) := by
    cases e with
    | none => exact hr.noDigit
    | some e => intro c hc; cases hc; rfl
  have h2' : (power e ++ rest).head? ≠ some 0x2E := by
    cases e with
    | none => exact hr.noPoint
    | some e => intro h; cases h
  have h1 : NoDigit (point fp ++ (power e ++ rest)) := by
    unfold point
    split
    · exact h2
    · intro c hc; cases hc; rfl
  unfold unsigned
  simp [intPart_append hip h1, fracPart_point hfp h2 h2', expPart_power e hr]

/-! ## float.__repr__ -/

/-- The digits of a number that is not zero. -/
structure Significant (ds : Str) : Prop where
  digits : Digits ds
  ne_nil : ds ≠ []
  lead : ds.head? ≠ some 0x30

theorem Significant.intText {ds : Str} (h : Significant ds) : IntText ds :=
  ⟨h.digits, h.ne_nil, fun h' => absurd h' h.lead⟩

theorem Significant.take {ds : Str} (h : Significant ds) {n : Nat} (hn : 0 < n) :
    IntText (ds.take n) where
  digits c hc := h.digits c (List.mem_of_mem_take hc)
  ne_nil h' := (List.take_eq_nil_iff.mp h').elim (Nat.ne_of_gt hn) h.ne_nil
  lead h' := by
    rw [List.head?_take, if_neg (Nat.ne_of_gt hn)] at h'
    exact absurd h' h.lead

theorem digits_zeros (n : Nat) : Digits (Json.zeros n) :=
  fun c hc => by rw [List.eq_of_mem_replicate hc]; rfl

theorem digits_of_zeros (n : Nat) : digits (Json.zeros n) = 0 := by
  induction n with
  | zero => rfl
  | succ n ih => exact ih

theorem intText_zero : IntText [0x30] := ⟨digits_zero, List.cons_ne_nil _ _, fun _ => rfl⟩

theorem some_mul_zpow {d : ℚ} {a b : ℤ} {rest : Str} (h : a = b) :
    some (d * (10 : ℚ) ^ a, rest) = some (d * 10 ^ b, rest) := by rw [h]

/-- The digits with their point, however they are laid out. -/
theorem unsigned_layout {ds rest : Str} (h : Significant ds) (pos : ℤ) (hr : Stops rest) :
    unsigned (Json.layout ds pos ++ rest) =
      some ((digits ds : ℚ) * 10 ^ (pos - ds.length), rest) := by
  have hlen : 0 < ds.length := List.length_pos_iff.mpr h.ne_nil
  have hdrop (n : Nat) : Digits (ds.drop n) := fun c hc => h.digits c (List.mem_of_mem_drop hc)
  unfold Json.layout
  split_ifs with h1 h2 h3 h4
  · -- one digit and an exponent
    have := unsigned_text h.intText digits_nil (some (pos - 1)) hr
    have htake : ds.take 1 = ds := List.take_of_length_le (by omega)
    rw [htake]
    simpa [point, power, h2] using this
  · have hd : ds.drop 1 ≠ [] := by rw [Ne, List.drop_eq_nil_iff]; omega
    have := unsigned_text (h.take (n := 1) (by decide)) (hdrop 1) (some (pos - 1)) hr
    rw [List.take_append_drop, point, if_neg hd, power] at this
    refine (congrArg unsigned (by simp)).trans (this.trans ?_)
    refine some_mul_zpow ?_
    simp only [Option.getD_some, List.length_drop]
    omega
  · -- all digits behind the point
    have hne : Json.zeros (-pos).toNat ++ ds ≠ [] := by simp [h.ne_nil]
    have := unsigned_text intText_zero ((digits_zeros (-pos).toNat).append h.digits) none hr
    rw [point, if_neg hne, power, List.nil_append] at this
    refine (congrArg unsigned (by simp)).trans (this.trans ?_)
    have hval : digits ([0x30] ++ (Json.zeros (-pos).toNat ++ ds)) = digits ds := by
      rw [List.singleton_append, digits_zero_cons, digits_append, digits_of_zeros, Nat.zero_mul,
        Nat.zero_add]
    rw [hval]
    refine some_mul_zpow ?_
    simp only [Option.getD_none, List.length_append, Json.zeros, List.length_replicate]
    omega
  · -- all digits in front of it
    have hip : IntText (ds ++ Json.zeros (pos.toNat - ds.length)) := by
      refine ⟨h.digits.append (digits_zeros _), by simp [h.ne_nil], fun h' => ?_⟩
      rw [List.head?_append_of_ne_nil _ h.ne_nil] at h'
      exact absurd h' h.lead
    have := unsigned_text hip digits_zero none hr
    rw [point, if_neg (by simp), power, List.nil_append] at this
    refine (congrArg unsigned (by simp)).trans (this.trans ?_)
    have hval : digits (ds ++ Json.zeros (pos.toNat - ds.length) ++ [0x30]) =
        digits ds * 10 ^ (pos.toNat - ds.length) * 10 := by
      rw [digits_append, digits_append, digits_of_zeros]
      simp [Json.zeros, digits]
    rw [hval]
    have hpos : pos - ds.length = ((pos.toNat - ds.length : ℕ) : ℤ) := by omega
    rw [hpos, zpow_natCast]
    simp
  · have hd : ds.drop pos.toNat ≠ [] := by rw [Ne, List.drop_eq_nil_iff]; omega
    have := unsigned_text (h.take (n := pos.toNat) (by omega)) (hdrop pos.toNat) none hr
    rw [List.take_append_drop, point, if_neg hd, power, List.nil_append] at this
    refine (congrArg unsigned (by simp)).trans (this.trans ?_)
    refine some_mul_zpow ?_
    simp only [Option.getD_none, List.length_drop]
    omega

/-- Zeros at the end do not change the number. -/
theorem strip_append (ds : Str) : ∃ k, ds = Json.strip ds ++ Json.zeros k := by
  have h := List.takeWhile_append_dropWhile (p := (· = 0x30)) (l := ds.reverse)
  refine ⟨(ds.reverse.takeWhile (· = 0x30)).length, ?_⟩
  have hz : (ds.reverse.takeWhile (· = 0x30)).reverse =
      Json.zeros (ds.reverse.takeWhile (· = 0x30)).length := by
    refine List.eq_replicate_iff.mpr ⟨by simp, fun c hc => ?_⟩
    have := List.mem_takeWhile_imp (List.mem_reverse.mp hc)
    exact of_decide_eq_true this
  calc ds = (ds.reverse.takeWhile (· = 0x30) ++ ds.reverse.dropWhile (· = 0x30)).reverse := by
        rw [h, List.reverse_reverse]
    _ = _ := by rw [List.reverse_append, hz]; rfl

theorem significant_strip {n : Nat} (h : n ≠ 0) : Significant (Json.strip (decimal n)) := by
  obtain ⟨k, hk⟩ := strip_append (decimal n)
  have hval : digits (decimal n) = n := foldl_decimal n
  have hne : Json.strip (decimal n) ≠ [] := by
    intro h0
    rw [h0, List.nil_append] at hk
    rw [hk, digits_of_zeros] at hval
    exact h hval.symm
  refine ⟨fun c hc => digits_decimal n c ((Json.strip_sublist _).subset hc), hne, fun h0 => ?_⟩
  have hlead := (intText_decimal n).lead (by rw [hk, List.head?_append_of_ne_nil _ hne, h0])
  rw [hlead] at hval
  exact h hval.symm

/-- The zeros at the end go into the exponent. -/
theorem value_strip (d : Decimal) :
    (digits (Json.strip (decimal d.digits)) : ℚ) *
        10 ^ ((decimal d.digits).length + d.exp - (Json.strip (decimal d.digits)).length : ℤ) =
      d.value := by
  obtain ⟨k, hk⟩ := strip_append (decimal d.digits)
  have hval : digits (decimal d.digits) = d.digits := foldl_decimal d.digits
  have hlen := congrArg List.length hk
  rw [List.length_append] at hlen
  rw [hk, digits_append, digits_of_zeros, Nat.add_zero] at hval
  have hexp : ((decimal d.digits).length + d.exp - (Json.strip (decimal d.digits)).length : ℤ) =
      k + d.exp := by
    simp only [Json.zeros, List.length_replicate] at hlen
    omega
  have hcast : (digits (Json.strip (decimal d.digits)) : ℚ) * 10 ^ k = d.digits := by
    simp only [Json.zeros, List.length_replicate] at hval
    exact_mod_cast hval
  rw [hexp, zpow_add₀ (by norm_num), zpow_natCast, ← mul_assoc, hcast, Decimal.value]

/-- The text of a positive double is read as its shortest decimal. -/
theorem unsigned_reprPos {q : ℚ} (hq : 0 < q) (hr : Representable q) {rest : Str}
    (hs : Stops rest) : unsigned (Json.reprPos q ++ rest) =
      some ((Decimal.shortest q).value, rest) := by
  have hne := Decimal.digits_shortest hq hr
  refine (unsigned_layout (significant_strip hne) _ hs).trans ?_
  rw [value_strip]

theorem number_of_digit {s : Str} (h : s.head? ≠ some 0x2D) :
    number s = (unsigned s).map fun r => (.num (.ofRat r.1), r.2) := by
  unfold number
  split
  · exact absurd rfl h
  · rfl

theorem number_neg (s : Str) :
    number (0x2D :: s) = (unsigned s).map fun r => (.num (.ofRat (-r.1)), r.2) := rfl

/-- What `unsigned` can read starts with a digit. -/
theorem isDigit_of_unsigned {c : Nat} {s : Str} {r : ℚ × Str} (h : unsigned (c :: s) = some r) :
    isDigit c = true := by
  obtain ⟨x, hx, -⟩ := Option.bind_eq_some_iff.mp h
  simp only [intPart] at hx
  split at hx
  · rename_i h0; rw [h0]; rfl
  · split at hx
    · assumption
    · cases hx

/-- A literal starts with a letter. -/
theorem literal_eq_none {c : Nat} {s : Str} (h : c < 0x61) : literal (c :: s) = none := by
  have hlead : ∀ l ∈ literals, 0x61 ≤ l.1.headD 0 := by decide
  have hno : ∀ l ∈ literals, l.1.isPrefixOf (c :: s) = false := by
    rintro ⟨t, v⟩ hl
    have := hlead _ hl
    cases t with
    | nil => exact absurd (show 0x61 ≤ 0 from this) (by decide)
    | cons x t =>
      have hx : 0x61 ≤ x := this
      simp only [List.isPrefixOf, Bool.and_eq_false_iff, beq_eq_false_iff_ne]
      exact .inl (by omega)
  unfold literal
  rw [List.find?_eq_none.mpr fun l hl => by rw [hno l hl]; exact Bool.false_ne_true]
  rfl

theorem value_scalar {c : Nat} (h1 : c ≠ 0x22) (h2 : c ≠ 0x7B) (h3 : c ≠ 0x5B) (fuel : Nat)
    (s : Str) : value fuel (c :: s) = (literal (c :: s)).or (number (c :: s)) := by
  unfold value
  rw [if_neg h1, if_neg h2, if_neg h3]

/-- A number is no literal, string, array or object. -/
theorem value_number {fuel : Nat} {s : Str} {r : Value × Str} (h : number s = some r) :
    value fuel s = some r := by
  cases s with
  | nil => cases h
  | cons c s =>
    have hc : isDigit c = true ∨ c = 0x2D := by
      by_cases hd : c = 0x2D
      · exact .inr hd
      · rw [number_of_digit (by simpa using hd)] at h
        obtain ⟨x, hx, -⟩ := Option.map_eq_some_iff.mp h
        exact .inl (isDigit_of_unsigned hx)
    have hlow : c < 0x3A ∧ c ≠ 0x22 := by
      rcases hc with hc | rfl
      · simp only [isDigit, Bool.and_eq_true, decide_eq_true_eq] at hc; omega
      · decide
    rw [value_scalar hlow.2 (by omega) (by omega), literal_eq_none (by omega), Option.none_or, h]

/-- Integers are rounded to doubles. -/
theorem number_encodeInt {n : ℤ} {t rest : Str} (h : Json.encodeInt n = .ok t) (hr : Stops rest) :
    number (t ++ rest) = some (.num (.ofRat n), rest) := by
  have hu := unsigned_text (intText_decimal n.natAbs) digits_nil none hr
  have hval : digits (decimal n.natAbs) = n.natAbs := foldl_decimal _
  rw [List.append_nil, hval] at hu
  have hu' : unsigned (decimal n.natAbs ++ rest) = some ((n.natAbs : ℚ), rest) := by
    simpa [point, power] using hu
  have hcast : (n.natAbs : ℚ) = |(n : ℚ)| := by
    rw [Nat.cast_natAbs, Int.cast_abs]
  simp only [Json.encodeInt] at h
  split at h
  · cases h
  · cases h
    split
    · rename_i hneg
      have habs : |(n : ℚ)| = -n := abs_of_neg (by exact_mod_cast hneg)
      rw [List.cons_append, number_neg, hu', hcast, habs, Option.map_some, neg_neg]
    · rename_i hneg
      have habs : |(n : ℚ)| = n := abs_of_nonneg (by exact_mod_cast not_lt.mp hneg)
      have hhead : (decimal n.natAbs ++ rest).head? ≠ some 0x2D := by
        rw [List.head?_append_of_ne_nil _ (decimal_ne_nil _)]
        intro h
        have := decimal_digit (List.mem_of_mem_head? h)
        omega
      rw [number_of_digit hhead, hu', hcast, habs, Option.map_some]

theorem number_reprPos {q : ℚ} (hq : 0 < q) (hr : Representable q) {rest : Str} (hs : Stops rest) :
    number (Json.reprPos q ++ rest) = some (.num (.fin q hr), rest) := by
  have hu := unsigned_reprPos hq hr hs
  have hhead : (Json.reprPos q ++ rest).head? ≠ some 0x2D := by
    cases hc : Json.reprPos q ++ rest with
    | nil => simp
    | cons c s =>
      rw [hc] at hu
      have := isDigit_of_unsigned hu
      intro h
      obtain rfl := Option.some.inj h
      cases this
  rw [number_of_digit hhead, hu, Option.map_some, Decimal.ofRat_shortest hq hr]

/-- **Floats.** A finite float is read as itself. -/
theorem number_encodeFloat {q : ℚ} (h : Representable q) {rest : Str} (hs : Stops rest) :
    number (Json.encodeFloat (.fin q h) ++ rest) = some (.num (.fin q h), rest) := by
  unfold Json.encodeFloat
  dsimp only
  split_ifs with h0 hneg
  · subst h0
    have := unsigned_text intText_zero digits_zero none hs
    rw [number_of_digit (by exact (by decide : (0x30 : Nat) ≠ 0x2D) ∘ Option.some.inj)]
    have hz : unsigned (0x30 :: 0x2E :: 0x30 :: rest) = some (0, rest) := by
      simpa [point, power, digits] using this
    have hz : unsigned (L1Encoding.str "0.0" ++ rest) = some (0, rest) := hz
    rw [hz, Option.map_some, Binary64.ofRat_of_representable h]
  · have hr := Binary64.representable_neg h
    have hq : 0 < -q := by linarith
    have hback := Binary64.ofRat_neg hr (Decimal.ofRat_shortest hq hr)
    rw [List.cons_append, number_neg, unsigned_reprPos hq hr hs, Option.map_some, hback]
    simp only [neg_neg]
  · exact number_reprPos (lt_of_le_of_ne (not_lt.mp hneg) (Ne.symm h0)) h hs

/-! ## Lists and dicts -/

theorem ofPys_eq (xs : List Py) : ofPys xs = xs.map ofPy := by
  induction xs with
  | nil => rfl
  | cons x xs ih => rw [ofPys, ih, List.map_cons]

theorem ofItems_eq (kvs : List (Str × Py)) :
    ofItems kvs = kvs.map fun e => (Json.utf16 e.1, ofPy e.2) := by
  induction kvs with
  | nil => rfl
  | cons e kvs ih => rw [ofItems, ih, List.map_cons]

theorem finites_eq (xs : List Py) : finites xs = xs.all finite := by
  induction xs with
  | nil => rfl
  | cons x xs ih => rw [finites, ih, List.all_cons]

theorem finiteItems_eq (kvs : List (Str × Py)) : finiteItems kvs = kvs.all fun e => finite e.2 := by
  induction kvs with
  | nil => rfl
  | cons e kvs ih => rw [finiteItems, ih, List.all_cons]

theorem valids_eq (xs : List Py) : valids xs = xs.all valid := by
  induction xs with
  | nil => rfl
  | cons x xs ih => rw [valids, ih, List.all_cons]

theorem validItems_eq (kvs : List (Str × Py)) :
    validItems kvs = kvs.all fun e => isText e.1 && valid e.2 := by
  induction kvs with
  | nil => rfl
  | cons e kvs ih => rw [validItems, ih, List.all_cons]

/-- A text a value or a key starts with. -/
def Begins (t : Str) : Prop := ∃ c s, t = c :: s ∧ isWs c = false ∧ c ≠ 0x5D ∧ c ≠ 0x7D

theorem Begins.skipWs {t : Str} (h : Begins t) (rest : Str) : skipWs (t ++ rest) = t ++ rest := by
  obtain ⟨c, s, rfl, hc, -⟩ := h
  simp [Json.skipWs, hc]

section
variable {α β : Type} {item : Str → Option (α × Str)} {ok : β → Bool} {f : β → α}

/-- `item` reads the text `t` of `x`, or fails on it. -/
structure Item (item : Str → Option (α × Str)) (ok : β → Bool) (f : β → α) (x : β) (t : Str) :
    Prop where
  begins : Begins t
  reads : ∀ rest, Stops rest → item (t ++ rest) = if ok x then some (f x, rest) else none

variable {close : Nat} {xs : List β} {ts : List Str}

theorem stops_cons {c : Nat} (h : c = 0x2C ∨ c = 0x5D ∨ c = 0x7D) (s : Str) : Stops (c :: s) := by
  constructor
  · intro x hx
    obtain rfl := Option.some.inj hx
    rcases h with rfl | rfl | rfl <;> rfl
  · intro hx
    have := Option.some.inj hx
    omega
  · exact ⟨fun hx => by have := Option.some.inj hx; omega,
      fun hx => by have := Option.some.inj hx; omega⟩

theorem commas_cons (t : Str) (ts : List Str) : ∃ v, Json.commas (t :: ts) = t ++ v := by
  cases ts with
  | nil => exact ⟨[], by simp [Json.commas, List.intercalate]⟩
  | cons u us => exact ⟨0x2C :: 0x20 :: Json.commas (u :: us), by simp [Json.commas, List.intercalate]⟩

/-- The items up to the closing bracket; one that cannot be read is enough to fail. -/
theorem items_commas (hc : close = 0x5D ∨ close = 0x7D) (h : List.Forall₂ (Item item ok f) xs ts)
    (rest : Str) : ∀ n, xs ≠ [] → ts.length ≤ n →
      items item close n (Json.commas ts ++ close :: rest) =
        if xs.all ok then some (xs.map f, rest) else none := by
  have hws : ∀ c s, c = 0x2C ∨ c = close → skipWs (c :: s) = c :: s := by
    rintro c s (rfl | rfl)
    · rfl
    · rcases hc with rfl | rfl <;> rfl
  induction h with
  | nil => exact fun _ hne => absurd rfl hne
  | @cons x t xs ts hx hxs ih =>
    rintro (_ | n) - hn
    · cases hn
    have hlen := Nat.le_of_succ_le_succ hn
    cases hxs with
    | nil =>
      have hread := hx.reads (close :: rest) (stops_cons (.inr hc) rest)
      simp only [Json.commas, List.intercalate, List.intersperse_singleton, List.flatten_cons,
        List.flatten_nil, List.append_nil, items, hread]
      cases hok : ok x <;> simp [hok, hws]
    | @cons y u ys us hy hys =>
      have hread := hx.reads (0x2C :: 0x20 :: (Json.commas (u :: us) ++ close :: rest))
        (stops_cons (.inl rfl) _)
      have hcomma : Json.commas (t :: u :: us) ++ close :: rest =
          t ++ 0x2C :: 0x20 :: (Json.commas (u :: us) ++ close :: rest) := by
        simp [Json.commas, List.intercalate]
      have hskip : skipWs (0x20 :: (Json.commas (u :: us) ++ close :: rest)) =
          Json.commas (u :: us) ++ close :: rest := by
        obtain ⟨v, hv⟩ := commas_cons u us
        rw [hv, List.append_assoc]
        exact hy.begins.skipWs _
      have hne : ¬ (0x2C : Nat) = close := by omega
      rw [hcomma, items, hread]
      cases hok : ok x with
      | false => simp [hok]
      | true =>
        simp only [if_true, Option.bind_eq_bind, Option.bind_some, hws _ _ (.inl rfl), if_neg hne,
          hskip, ih n (by simp) hlen, List.all_cons, hok, Bool.true_and]
        by_cases hall : (ok y && ys.all ok) = true <;> simp [hall]

theorem length_le_commas {ts : List Str} : ts.length ≤ (Json.commas ts).length + 1 := by
  induction ts with
  | nil => exact Nat.zero_le _
  | cons t ts ih =>
    cases ts with
    | nil => simp
    | cons u us =>
      have hcons : Json.commas (t :: u :: us) = t ++ 0x2C :: 0x20 :: Json.commas (u :: us) := by
        simp [Json.commas, List.intercalate]
      rw [hcons]
      simp only [List.length_append, List.length_cons] at ih ⊢
      omega

/-- A list or a dict of any length, the empty one included. -/
theorem bracketed_commas (hc : close = 0x5D ∨ close = 0x7D)
    (h : List.Forall₂ (Item item ok f) xs ts) (rest : Str) :
    bracketed item close (Json.commas ts ++ close :: rest) =
      if xs.all ok then some (xs.map f, rest) else none := by
  cases h with
  | nil =>
    have hws : skipWs (Json.commas [] ++ close :: rest) = close :: rest := by
      rcases hc with rfl | rfl <;> rfl
    simp [bracketed, hws]
  | @cons x t xs ts hx hxs =>
    have hread := items_commas hc (.cons hx hxs) rest _ (List.cons_ne_nil x xs)
      (length_le_commas.trans (Nat.le_add_right _ rest.length))
    obtain ⟨v, hv⟩ := commas_cons t ts
    obtain ⟨c, s, rfl, hcws, hne⟩ := hx.begins
    have hlen : (Json.commas ((c :: s) :: ts)).length + 1 + rest.length =
        (Json.commas ((c :: s) :: ts) ++ close :: rest).length := by
      rw [List.length_append, List.length_cons]
      omega
    rw [hlen] at hread
    have hws : skipWs (Json.commas ((c :: s) :: ts) ++ close :: rest) =
        c :: (s ++ v ++ close :: rest) := by
      rw [hv]
      simp [skipWs, hcws]
    have hcons : Json.commas ((c :: s) :: ts) ++ close :: rest = c :: (s ++ v ++ close :: rest) := by
      rw [hv]
      simp
    rw [hcons] at hread
    have hclose : ¬ c = close := by
      rcases hc with rfl | rfl
      · exact hne.1
      · exact hne.2
    simp only [bracketed, hws, if_neg hclose, hread]

end

/-! ## Values -/

/-- A key, a colon, a value. -/
theorem item_member {val : Str → Option (Value × Str)} {e : Str × Py} {w : Str}
    (hk : isText e.1 = true) (hv : Item val finite ofPy e.2 w) :
    Item (member val) (fun e => finite e.2) (fun e => (Json.utf16 e.1, ofPy e.2)) e
      (Json.encodeString e.1 ++ 0x3A :: 0x20 :: w) where
  begins := ⟨0x22, _, rfl, rfl, by decide, by decide⟩
  reads rest hr := by
    have htext : Json.encodeString e.1 ++ 0x3A :: 0x20 :: w ++ rest =
        0x22 :: (e.1.flatMap Json.escapeChar ++ 0x22 :: 0x3A :: 0x20 :: (w ++ rest)) := by
      simp [Json.encodeString]
    have hkey := string_encode hk (0x3A :: 0x20 :: (w ++ rest))
      (n := (e.1.flatMap Json.escapeChar ++ 0x22 :: 0x3A :: 0x20 :: (w ++ rest)).length + 1)
      (by rw [List.length_append]; omega)
    have hcolon : skipWs (0x3A :: 0x20 :: (w ++ rest)) = 0x3A :: 0x20 :: (w ++ rest) := rfl
    have hspace : skipWs (0x20 :: (w ++ rest)) = w ++ rest := hv.begins.skipWs rest
    rw [htext, member, hkey]
    simp only [Option.bind_eq_bind, Option.bind_some, hcolon, hspace, hv.reads rest hr]
    cases finite e.2 <;> rfl

/-- The first character of a number. -/
theorem begins_of_number {t : Str} {r : Value × Str} (h : number t = some r) : Begins t := by
  cases t with
  | nil => cases h
  | cons c s =>
    have hc : isDigit c = true ∨ c = 0x2D := by
      by_cases hd : c = 0x2D
      · exact .inr hd
      · rw [number_of_digit (by simpa using hd)] at h
        obtain ⟨x, hx, -⟩ := Option.map_eq_some_iff.mp h
        exact .inl (isDigit_of_unsigned hx)
    refine ⟨c, s, rfl, ?_⟩
    rcases hc with hc | rfl
    · simp only [isDigit, isWs, Bool.and_eq_true, decide_eq_true_eq, Bool.or_eq_false_iff,
        decide_eq_false_iff_not] at hc ⊢
      omega
    · decide

theorem stops_nil : Stops [] := ⟨fun _ h => (by cases h), by simp, by simp⟩

/-- A number is an item that can be read. -/
theorem item_number {fuel : Nat} {v : Py} {t : Str} {x : Binary64} (hok : finite v = true)
    (hv : ofPy v = .num x)
    (h : ∀ rest, Stops rest → number (t ++ rest) = some (.num x, rest)) :
    Item (value fuel) finite ofPy v t where
  begins := begins_of_number (by simpa using h [] stops_nil)
  reads rest hr := by rw [if_pos hok, hv]; exact value_number (h rest hr)

/-- `null`, `true`, `false` -/
theorem item_literal {fuel : Nat} {v : Py} {t : Str} (hl : (t, ofPy v) ∈ literals)
    (hok : finite v = true) : Item (value fuel) finite ofPy v t := by
  have hlead : ∀ l ∈ literals, 0x61 ≤ l.1.headD 0 ∧ l.1.headD 0 < 0x7B := by decide
  have hread (rest : Str) : literal (t ++ rest) = some (ofPy v, rest) := by
    simp only [literals, List.mem_cons, Prod.mk.injEq, List.not_mem_nil, or_false] at hl
    rcases hl with ⟨rfl, h⟩ | ⟨rfl, h⟩ | ⟨rfl, h⟩ <;> rw [h] <;> rfl
  cases t with
  | nil => exact absurd (show 0x61 ≤ 0 from (hlead _ hl).1) (by decide)
  | cons c s =>
    have hc : 0x61 ≤ c ∧ c < 0x7B := hlead _ hl
    refine ⟨⟨c, s, rfl, ?_, by omega, by omega⟩, fun rest _ => ?_⟩
    · simp only [isWs, Bool.or_eq_false_iff, decide_eq_false_iff_not]
      omega
    · have := hread rest
      rw [if_pos hok]
      rw [List.cons_append] at this ⊢
      rw [value_scalar (by omega) (by omega) (by omega), this]
      rfl

theorem unsigned_eq_none {c : Nat} {s : Str} (h : isDigit c = false) : unsigned (c :: s) = none := by
  cases hu : unsigned (c :: s) with
  | none => rfl
  | some r => rw [isDigit_of_unsigned hu] at h; cases h

/-- What is not finite is written as a word `JSON.parse` does not know. -/
theorem item_infinite {fuel : Nat} {x : Binary64} (h : x.isFinite = false) :
    Item (value fuel) finite ofPy (.float x) (Json.encodeFloat x) := by
  have hno : ¬ finite (.float x) = true := by
    rw [finite, h]
    exact Bool.false_ne_true
  have hword : ∀ c s, 0x40 ≤ c → c < 0x5B → value fuel (c :: s) = none := by
    intro c s h1 h2
    have hd : isDigit c = false := by
      simp only [isDigit, Bool.and_eq_false_iff, decide_eq_false_iff_not]
      omega
    rw [value_scalar (by omega) (by omega) (by omega), literal_eq_none (by omega), Option.none_or,
      number_of_digit (by simp; omega), unsigned_eq_none hd, Option.map_none]
  have hminus : ∀ s, unsigned s = none → value fuel (0x2D :: s) = none := by
    intro s hs
    rw [value_scalar (by decide) (by decide) (by decide), literal_eq_none (by decide),
      Option.none_or, number_neg, hs, Option.map_none]
  cases x with
  | fin q hq => cases h
  | nan =>
    refine ⟨⟨_, _, rfl, by decide⟩, fun rest _ => ?_⟩
    rw [if_neg hno]
    exact hword 0x4E _ (by decide) (by decide)
  | inf neg =>
    cases neg with
    | false =>
      refine ⟨⟨_, _, rfl, by decide⟩, fun rest _ => ?_⟩
      rw [if_neg hno]
      exact hword 0x49 _ (by decide) (by decide)
    | true =>
      refine ⟨⟨_, _, rfl, by decide⟩, fun rest _ => ?_⟩
      rw [if_neg hno]
      exact hminus _ (unsigned_eq_none (c := 0x49) rfl)

theorem length_le_of_mem {u : Str} {ts : List Str} (h : u ∈ ts) :
    u.length ≤ (Json.commas ts).length := by
  induction ts with
  | nil => cases h
  | cons t ts ih =>
    cases ts with
    | nil =>
      rw [List.mem_singleton.mp h]
      simp [Json.commas, List.intercalate]
    | cons v vs =>
      have hcons : Json.commas (t :: v :: vs) = t ++ 0x2C :: 0x20 :: Json.commas (v :: vs) := by
        simp [Json.commas, List.intercalate]
      rw [hcons]
      simp only [List.length_append, List.length_cons] at ih ⊢
      rcases List.mem_cons.mp h with rfl | h
      · omega
      · have := ih h
        omega

theorem forall₂_imp_mem {α β : Type} {R S : α → β → Prop} {xs : List α} {ys : List β}
    (h : List.Forall₂ R xs ys) (hS : ∀ x ∈ xs, ∀ y ∈ ys, R x y → S x y) : List.Forall₂ S xs ys := by
  induction h with
  | nil => exact .nil
  | cons hxy _ ih =>
    refine .cons (hS _ List.mem_cons_self _ List.mem_cons_self hxy) (ih fun x hx y hy => ?_)
    exact hS x (List.mem_cons_of_mem _ hx) y (List.mem_cons_of_mem _ hy)

/-- **Values.** In any text, what `json.dumps` wrote is read as the value it was
written for, or not at all if it holds a float that is not finite. -/
theorem item_encode : ∀ {depth : Nat} {v : Py} {t : Str}, Json.encode depth v = .ok t →
    valid v = true → ∀ {fuel : Nat}, t.length ≤ fuel → Item (value fuel) finite ofPy v t
  | depth, .null, _, h, _, fuel, _ => by
    rw [Json.encode] at h; cases h
    exact item_literal (.head _) rfl
  | depth, .bool true, _, h, _, fuel, _ => by
    rw [Json.encode] at h; cases h
    exact item_literal (.tail _ (.head _)) rfl
  | depth, .bool false, _, h, _, fuel, _ => by
    rw [Json.encode] at h; cases h
    exact item_literal (.tail _ (.tail _ (.head _))) rfl
  | depth, .int n, _, h, _, fuel, _ => by
    rw [Json.encode] at h
    exact item_number rfl rfl fun rest hr => number_encodeInt h hr
  | depth, .float x, _, h, _, fuel, _ => by
    rw [Json.encode] at h; cases h
    cases hx : x.isFinite with
    | false => exact item_infinite hx
    | true =>
      cases x with
      | fin q hq => exact item_number rfl rfl fun rest hr => number_encodeFloat hq hr
      | _ => cases hx
  | depth, .str s, _, h, hv, fuel, _ => by
    rw [Json.encode] at h; cases h
    refine ⟨⟨_, _, rfl, by decide⟩, fun rest _ => ?_⟩
    have hs := string_encode (s := s) hv rest
      (n := (s.flatMap Json.escapeChar ++ 0x22 :: rest).length + 1)
      (by rw [List.length_append]; omega)
    have htext : Json.encodeString s ++ rest = 0x22 :: (s.flatMap Json.escapeChar ++ 0x22 :: rest) := by
      simp [Json.encodeString]
    rw [htext]
    unfold value
    rw [if_pos rfl, hs]
    rfl
  | 0, .list _, _, h, _, _, _ => by rw [Json.encode] at h; cases h
  | 0, .dict _, _, h, _, _, _ => by rw [Json.encode] at h; cases h
  | depth + 1, .list xs, _, h, _, 0, hf => by
    obtain ⟨ts, -, rfl⟩ := Json.encode_list h
    exact absurd hf (by simp)
  | depth + 1, .dict xs, _, h, _, 0, hf => by
    obtain ⟨ts, -, rfl⟩ := Json.encode_dict h
    exact absurd hf (by simp)
  | depth + 1, .list xs, _, h, hv, fuel + 1, hf => by
    obtain ⟨ts, hts, rfl⟩ := Json.encode_list h
    rw [valid, valids_eq, List.all_eq_true] at hv
    rw [List.length_cons, List.length_append] at hf
    have hitems := forall₂_imp_mem hts (S := Item (value fuel) finite ofPy) fun x hx u hu he =>
      item_encode he (hv x hx) ((length_le_of_mem hu).trans (by omega))
    refine ⟨⟨_, _, rfl, by decide⟩, fun rest _ => ?_⟩
    have hread := bracketed_commas (.inl rfl) hitems rest
    have htext : 0x5B :: (Json.commas ts ++ [0x5D]) ++ rest =
        0x5B :: (Json.commas ts ++ 0x5D :: rest) := by simp
    rw [htext, value, if_neg (by decide), if_neg (by decide), if_pos rfl]
    rw [hread, finite, finites_eq, ofPy, ofPys_eq]
    cases xs.all finite <;> rfl
  | depth + 1, .dict kvs, _, h, hv, fuel + 1, hf => by
    obtain ⟨ts, hts, rfl⟩ := Json.encode_dict h
    rw [valid, validItems_eq, List.all_eq_true] at hv
    rw [List.length_cons, List.length_append] at hf
    have hitems := forall₂_imp_mem hts
      (S := Item (member (value fuel)) (fun e => finite e.2) fun e => (Json.utf16 e.1, ofPy e.2))
      fun e he u hu htext => by
        obtain ⟨w, hw, hu'⟩ := htext
        obtain ⟨hk, hval⟩ := Bool.and_eq_true_iff.mp (hv e he)
        have hlen := length_le_of_mem hu
        subst hu'
        simp only [List.length_append, List.length_cons] at hlen
        exact item_member hk (item_encode hw hval (by omega))
    refine ⟨⟨_, _, rfl, by decide⟩, fun rest _ => ?_⟩
    have hread := bracketed_commas (.inr rfl) hitems rest
    have htext : 0x7B :: (Json.commas ts ++ [0x7D]) ++ rest =
        0x7B :: (Json.commas ts ++ 0x7D :: rest) := by simp
    rw [htext, value, if_neg (by decide), if_pos rfl]
    rw [hread, finite, finiteItems_eq, ofPy, ofItems_eq]
    cases kvs.all fun e => finite e.2 <;> rfl

theorem parse_encode {depth : Nat} {v : Py} (hv : valid v = true) {s : Str}
    (h : Json.encode depth v = .ok s) : parse s = if finite v then some (ofPy v) else none := by
  obtain ⟨hb, hread⟩ := item_encode h hv (Nat.le_refl s.length)
  have hws := hb.skipWs []
  have hval := hread [] stops_nil
  rw [List.append_nil] at hws hval
  unfold parse
  rw [hws, hval]
  cases finite v <;> rfl

/-- **What the page reads.** The text of a value is read as that value exactly when
all its floats are finite; else `JSON.parse` raises. -/
theorem parse_dumps (recLimit : Nat) (v : Py) (hv : valid v = true) {s : Str}
    (h : Json.dumps recLimit v = .ok s) : parse s = if finite v then some (ofPy v) else none :=
  parse_encode hv h

/-- A float that is not finite in a list of a dict. -/
def infinite : Py := .dict [(str "k", .list [.int 1, .float (.inf false)])]

def nested : Py :=
  .dict [(str "k", .list [.float (.ofRat (1 / 2)), .null]), (str "s", .str (str "a\"b"))]

/-- `json.dumps` writes both, the page reads one of them. -/
theorem parse_dumps_nested :
    (Json.dumps 10 infinite = .ok (str "\x7b\"k\": [1, Infinity]\x7d") ∧
      parse (str "\x7b\"k\": [1, Infinity]\x7d") = none) ∧
    Json.dumps 10 nested = .ok (str "\x7b\"k\": [0.5, null], \"s\": \"a\\\"b\"\x7d") ∧
      parse (str "\x7b\"k\": [0.5, null], \"s\": \"a\\\"b\"\x7d") = some (ofPy nested) := by
  have hinf : Json.dumps 10 infinite = .ok (str "\x7b\"k\": [1, Infinity]\x7d") := by decide +kernel
  have hfin : Json.dumps 10 nested = .ok (str "\x7b\"k\": [0.5, null], \"s\": \"a\\\"b\"\x7d") := by
    decide +kernel
  exact ⟨⟨hinf, parse_dumps 10 infinite (by decide) hinf⟩, hfin,
    (parse_dumps 10 nested (by decide +kernel) hfin).trans (if_pos (by decide +kernel))⟩

end EbpfDemo.L1Encoding.Js
