import EbpfDemo.L1Encoding.JsonParse

/-!
# Texts and numbers in a URL

The page writes a name and a number into the URL of a request. `encodeURIComponent` goes
from UTF-16 to the bytes of UTF-8 and escapes those it does not keep, `unquote` is
`urllib.parse.unquote` of ASCII. `numberText` is `Number.prototype.toString`, which has
the digits of `float.__repr__` but lays them out in its own way.

* `unquote_component`: a text of characters comes back.
* `unsigned_numberText`: from 1 up to `10 ^ 20` a number is written without an exponent,
  as its shortest decimal.
-/
namespace EbpfDemo.L1Encoding.Url

open EbpfDemo.Core
open Json (strip zeros isDigit utf16 unitsOf)
open Js (Digits Significant Stops digits_zeros point unsigned)

/-! ## Escaped bytes -/

def hexDigit (d : Nat) : Nat := if d < 10 then 0x30 + d else 0x41 + (d - 10)

/-- `%XX` -/
def percent (b : UInt8) : Str := [0x25, hexDigit (b.toNat / 16), hexDigit (b.toNat % 16)]

/-- What `encodeURIComponent` keeps: letters, digits and `-_.!~*'()`. -/
def isKept (c : Nat) : Bool :=
  0x61 ≤ c && c ≤ 0x7A || 0x41 ≤ c && c ≤ 0x5A || 0x30 ≤ c && c ≤ 0x39 ||
    c ∈ [0x2D, 0x5F, 0x2E, 0x21, 0x7E, 0x2A, 0x27, 0x28, 0x29]

def escapeByte (b : UInt8) : Str := if isKept b.toNat then [b.toNat] else percent b

/-- The characters of UTF-16, `none` if half of a pair is missing. -/
def characters : Str → Option Str
  | [] => some []
  | u :: s =>
    if 0xD800 ≤ u ∧ u < 0xDC00 then
      match s with
      | l :: s =>
        if 0xDC00 ≤ l ∧ l < 0xE000 then
          (characters s).map ((0x10000 + (u - 0xD800) * 0x400 + (l - 0xDC00)) :: ·)
        else none
      | [] => none
    else if 0xDC00 ≤ u ∧ u < 0xE000 then none
    else (characters s).map (u :: ·)

/-- `none` is the `URIError`. -/
def encodeURIComponent (s : Str) : Option Str :=
  (characters s).map fun t => (encode t).flatMap escapeByte

/-- A percent sign without two hexadecimal digits stands for itself. -/
def unescape : Str → List UInt8
  | [] => []
  | 0x25 :: h :: l :: s =>
    match Json.hexVal h, Json.hexVal l with
    | some x, some y => .ofNat (16 * x + y) :: unescape s
    | _, _ => 0x25 :: unescape (h :: l :: s)
  | c :: s => .ofNat c :: unescape s

/-- `unquote(s)` -/
def unquote (s : Str) : Str := decode (unescape s)

theorem hexVal_upper {d : Nat} (h : d < 16) : Json.hexVal (hexDigit d) = some d := by
  have hall : ∀ d < 16, Json.hexVal (hexDigit d) = some d := by decide
  exact hall d h

theorem unescape_escapeByte (b : UInt8) (s : Str) :
    unescape (escapeByte b ++ s) = b :: unescape s := by
  have hb := b.toNat_lt
  unfold escapeByte
  split
  · rename_i hkept
    have hne : b.toNat ≠ 0x25 := by
      intro h
      rw [h] at hkept
      cases hkept
    rw [List.singleton_append, unescape, UInt8.ofNat_toNat]
    exact fun _ _ _ h _ => hne h
  · have hval : 16 * (b.toNat / 16) + b.toNat % 16 = b.toNat := by omega
    simp only [percent, List.cons_append, List.nil_append, unescape,
      hexVal_upper (show b.toNat / 16 < 16 by omega),
      hexVal_upper (show b.toNat % 16 < 16 by omega), hval, UInt8.ofNat_toNat]

theorem unescape_flatMap (bs : List UInt8) (s : Str) :
    unescape (bs.flatMap escapeByte ++ s) = bs ++ unescape s := by
  induction bs with
  | nil => rfl
  | cons b bs ih =>
    rw [List.flatMap_cons, List.append_assoc, unescape_escapeByte, ih, List.cons_append]

/-- What has no percent sign is not escaped. -/
theorem unquote_plain {p : Str} (h : ∀ c ∈ p, c < 0x80 ∧ c ≠ 0x25) (s : Str) :
    unquote (p ++ s) = p ++ unquote s := by
  induction p with
  | nil => rfl
  | cons c p ih =>
    obtain ⟨hc, hne⟩ := h c List.mem_cons_self
    have hval : (UInt8.ofNat c).toNat = c := by
      rw [UInt8.toNat_ofNat']
      omega
    rw [List.cons_append, List.cons_append, ← ih fun x hx => h x (List.mem_cons_of_mem _ hx), unquote,
      unescape, decode_cons_ascii (hval.symm ▸ hc), hval, unquote]
    exact fun _ _ _ h _ => hne h

/-! ## Characters of UTF-16 -/

theorem characters_unitsOf {c : Nat} (h : Scalar c) (s : Str) :
    characters (unitsOf c ++ s) = (characters s).map (c :: ·) := by
  unfold Scalar at h
  unfold unitsOf
  split
  · rw [List.singleton_append, characters.eq_def]
    dsimp only
    rw [if_neg (by omega), if_neg (by omega)]
  · have hval : 0x10000 + (0xD800 + (c - 0x10000) / 0x400 - 0xD800) * 0x400 +
        (0xDC00 + (c - 0x10000) % 0x400 - 0xDC00) = c := by omega
    rw [List.cons_append, List.singleton_append, characters.eq_def]
    dsimp only
    rw [if_pos (by omega), if_pos (by omega), hval]

theorem characters_utf16 {t : Str} (h : ∀ c ∈ t, Scalar c) : characters (utf16 t) = some t := by
  induction t with
  | nil => rfl
  | cons c t ih =>
    rw [utf16, List.flatMap_cons, characters_unitsOf (h c List.mem_cons_self)]
    exact congrArg _ (ih fun x hx => h x (List.mem_cons_of_mem _ hx))

/-- **Texts.** A text of characters is escaped, and comes back from it. -/
theorem unquote_component {t : Str} (h : ∀ c ∈ t, Scalar c) : ∃ e,
    encodeURIComponent (utf16 t) = some e ∧ unquote e = t ∧
      ∀ c ∈ e, isKept c = true ∨ c = 0x25 := by
  refine ⟨(encode t).flatMap escapeByte, ?_, ?_, ?_⟩
  · rw [encodeURIComponent, characters_utf16 h]
    rfl
  · have hbytes := unescape_flatMap (encode t) []
    have htext := decode_encode h []
    rw [List.append_nil, unescape, List.append_nil] at hbytes
    rw [List.append_nil, show decode [] = [] from rfl, List.append_nil] at htext
    rw [unquote, hbytes, htext]
  · intro c hc
    obtain ⟨b, -, hc⟩ := List.mem_flatMap.mp hc
    have hb := b.toNat_lt
    have hhex : ∀ d < 16, isKept (hexDigit d) = true := by decide
    unfold escapeByte at hc
    split at hc
    · rename_i hkept
      rw [List.mem_singleton.mp hc]
      exact .inl hkept
    · simp only [percent, List.mem_cons, List.not_mem_nil, or_false] at hc
      rcases hc with rfl | rfl | rfl
      · exact .inr rfl
      · exact .inl (hhex _ (by omega))
      · exact .inl (hhex _ (by omega))

/-! ## Numbers -/

/-- The digits `ds` with the decimal point behind `point` of them: an exponent from `1e21`
on and below `1e-6`. -/
def layout (ds : Str) (point : ℤ) : Str :=
  if ds.length ≤ point ∧ point ≤ 21 then ds ++ zeros (point.toNat - ds.length)
  else if 0 < point ∧ point ≤ 21 then ds.take point.toNat ++ 0x2E :: ds.drop point.toNat
  else if -6 < point ∧ point ≤ 0 then 0x30 :: 0x2E :: (zeros (-point).toNat ++ ds)
  else ds.take 1 ++ (if ds.length = 1 then [] else 0x2E :: ds.drop 1) ++
    0x65 :: (if point - 1 < 0 then 0x2D else 0x2B) :: decimal (point - 1).natAbs

def numberPos (q : ℚ) : Str :=
  let d := Decimal.shortest q
  let ds := decimal d.digits
  layout (strip ds) (ds.length + d.exp)

/-- `${x}` of a number. -/
def numberText : Binary64 → Str
  | .nan => str "NaN"
  | .inf false => str "Infinity"
  | .inf true => str "-Infinity"
  | .fin q _ => if q = 0 then [0x30] else if q < 0 then 0x2D :: numberPos (-q) else numberPos q

section
variable {ds : Str} {point : ℤ}

theorem unsigned_layout (h : Significant ds) (h1 : 0 < point) (h2 : point ≤ 21) :
    unsigned (layout ds point) = some ((Json.digits ds : ℚ) * 10 ^ (point - ds.length), []) := by
  unfold layout
  split_ifs with hle hmid
  · have hip : Js.IntText (ds ++ zeros (point.toNat - ds.length)) := by
      refine ⟨h.digits.append (digits_zeros _), by simp [h.ne_nil], fun h' => ?_⟩
      rw [List.head?_append_of_ne_nil _ h.ne_nil] at h'
      exact absurd h' h.lead
    have htext := Js.unsigned_text hip Js.digits_nil none Js.stops_nil
    rw [Js.point, if_pos rfl, Js.power, List.append_nil, List.append_nil, List.append_nil,
      Js.digits_append, Js.digits_of_zeros] at htext
    have hpos : point - ds.length = ((point.toNat - ds.length : ℕ) : ℤ) := by omega
    rw [htext, hpos, zpow_natCast]
    simp [zeros]
  · have hd : ds.drop point.toNat ≠ [] := by
      rw [Ne, List.drop_eq_nil_iff]
      omega
    have hfp : Digits (ds.drop point.toNat) := fun c hc => h.digits c (List.mem_of_mem_drop hc)
    have htext := Js.unsigned_text (h.take (n := point.toNat) (by omega)) hfp none Js.stops_nil
    rw [List.take_append_drop, Js.point, if_neg hd, Js.power, List.append_nil,
      List.append_nil] at htext
    rw [htext]
    refine Js.some_mul_zpow ?_
    simp only [Option.getD_none, List.length_drop]
    omega
  all_goals omega

theorem plain_layout (h : Digits ds) (h1 : 0 < point) (h2 : point ≤ 21) :
    ∀ c ∈ layout ds point, isDigit c = true ∨ c = 0x2E := by
  unfold layout
  split_ifs with hle hmid
  · exact fun c hc => .inl ((h.append (digits_zeros _)) c hc)
  · intro c hc
    rcases List.mem_append.mp hc with hc | hc
    · exact .inl (h c (List.mem_of_mem_take hc))
    · rcases List.mem_cons.mp hc with rfl | hc
      · exact .inr rfl
      · exact .inl (h c (List.mem_of_mem_drop hc))
  all_goals omega

end

section
variable {q : ℚ}

theorem decimal_length {n : Nat} (h : n ≠ 0) : (decimal n).length = Nat.log 10 n + 1 := by
  rw [decimal, if_neg h, List.length_reverse, List.length_map, Nat.length_digits 10 n (by decide) h]

/-- Where the point of a number from 1 up to `10 ^ 20` is. -/
theorem point_shortest (hr : Representable q) (h1 : 1 ≤ q) (h2 : q < 10 ^ 20) :
    0 < ((decimal (Decimal.shortest q).digits).length + (Decimal.shortest q).exp : ℤ) ∧
      ((decimal (Decimal.shortest q).digits).length + (Decimal.shortest q).exp : ℤ) ≤ 21 := by
  have hq : 0 < q := one_pos.trans_le h1
  have hlo : 0 ≤ Int.log 10 q :=
    (Int.zpow_le_iff_le_log (b := 10) (by decide) hq).mp (by exact_mod_cast h1)
  have hhi : Int.log 10 q < 20 :=
    (Int.lt_zpow_iff_log_lt (b := 10) (by decide) hq).mp (by exact_mod_cast h2)
  obtain ⟨⟨n, hn, hmem⟩, -⟩ := Decimal.shortest_found hq hr
  obtain ⟨hexp, hge, hle⟩ := Decimal.digits_neighbours hq hn hmem
  have hne := Decimal.digits_shortest hq hr
  have hlog1 : n - 1 ≤ Nat.log 10 (Decimal.shortest q).digits :=
    Nat.le_log_of_pow_le (by decide) hge
  have hlog2 : Nat.log 10 (Decimal.shortest q).digits ≤ n :=
    (Nat.log_mono_right hle).trans (Nat.log_pow (by decide) n).le
  rw [decimal_length hne, hexp]
  omega

/-- **Numbers.** -/
theorem unsigned_numberText (hr : Representable q) (h1 : 1 ≤ q) (h2 : q < 10 ^ 20) :
    unsigned (numberText (.fin q hr)) = some ((Decimal.shortest q).value, []) ∧
      ∀ c ∈ numberText (.fin q hr), isDigit c = true ∨ c = 0x2E := by
  have hq : 0 < q := one_pos.trans_le h1
  obtain ⟨hlo, hhi⟩ := point_shortest hr h1 h2
  have hsig := Js.significant_strip (Decimal.digits_shortest hq hr)
  have htext : numberText (.fin q hr) = numberPos q := by
    rw [numberText, if_neg hq.ne', if_neg (not_lt.mpr hq.le)]
  rw [htext, numberPos]
  constructor
  · rw [unsigned_layout hsig hlo hhi, Js.value_strip]
  · exact plain_layout hsig.digits hlo hhi

end

end EbpfDemo.L1Encoding.Url
