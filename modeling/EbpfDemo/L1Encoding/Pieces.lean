import Mathlib.Algebra.BigOperators.Ring.List
import Mathlib.Algebra.Order.BigOperators.Group.List
import Mathlib.Algebra.Order.Group.Nat
import EbpfDemo.L1Encoding.Text

/-!
# What each character was decoded from

The decoder cuts its input into pieces: the bytes of one character, or bytes that
begin no character and are replaced by one U+FFFD. `pieces` keeps what `decode`
forgets; `Opens` says of an unfinished sequence that every character it can still
become is as long as the sequence.

* `decode_pieces`, `flatMap_bytes`: the characters of the pieces are the decoded
  text, their bytes the input.
* `valid_pieces`: a character's piece has the length of its encoding, a replaced
  one at most three bytes.
* `length_le_encode_decode`, `encode_decode_le_length`, `encode_decode_length_iff`:
  encoding the decoded text again makes it no shorter and at most three times as
  long, and leaves its length exactly if every replaced piece has three bytes.
-/
namespace EbpfDemo.L1Encoding

/-- Bytes of the input and the character they are, `none` if they are replaced. -/
structure Piece where
  char : Option Nat
  bytes : List UInt8
  deriving DecidableEq

namespace Piece

/-- The character in the decoded text. -/
def shown (p : Piece) : Nat := p.char.getD replacement

/-- As long as its character's encoding, or too short for a character. -/
def Valid (p : Piece) : Prop := match p.char with
  | some c => Scalar c ∧ (encodeChar c).length = p.bytes.length
  | none => 1 ≤ p.bytes.length ∧ p.bytes.length ≤ 3

end Piece

/-- The pieces a byte ends outside a sequence, and the sequence it opens. -/
def cutLead (b : UInt8) : List Piece × List UInt8 :=
  if b.toNat < 0x80 then ([⟨some b.toNat, [b]⟩], [])
  else if (lead b.toNat).2 = .ground then ([⟨none, [b]⟩], [])
  else ([], [b])

/-- The pieces a byte ends behind the bytes `w` of a sequence, and the sequence
that is open then. -/
def cut (st : Utf8) (w : List UInt8) (b : UInt8) : List Piece × List UInt8 :=
  match st with
  | .ground => cutLead b
  | .more n acc lo hi =>
    if lo ≤ b.toNat ∧ b.toNat ≤ hi then
      match n with
      | 0 => ([⟨some (acc * 64 + (b.toNat - 0x80)), w ++ [b]⟩], [])
      | _ + 1 => ([], w ++ [b])
    else (⟨none, w⟩ :: (cutLead b).1, (cutLead b).2)

/-- What the end of the input leaves. -/
def rest : Utf8 → List UInt8 → List Piece
  | .ground, _ => []
  | .more .., w => [⟨none, w⟩]

def piecesFrom (st : Utf8) (w : List UInt8) : List UInt8 → List Piece
  | [] => rest st w
  | b :: bs => (cut st w b).1 ++ piecesFrom (feed st b.toNat).2 (cut st w b).2 bs

def pieces (bs : List UInt8) : List Piece := piecesFrom .ground [] bs

/-- `w` is the open sequence: every character it can end in has its length. -/
def Opens : Utf8 → List UInt8 → Prop
  | .ground, w => w = []
  | .more n acc lo hi, w => 1 ≤ w.length ∧ w.length + n + 1 ≤ 4 ∧ 0x80 ≤ lo ∧ hi ≤ 0xBF ∧
    ∀ c, (acc * 64 + (lo - 0x80)) * 64 ^ n ≤ c → c < (acc * 64 + (hi - 0x80) + 1) * 64 ^ n →
      Scalar c ∧ (encodeChar c).length = w.length + n + 1

/-! ## One byte -/

theorem encodeChar_one {c : Nat} (h : c < 0x80) : (encodeChar c).length = 1 := by
  rw [encodeChar, if_pos h]; rfl

theorem encodeChar_two {c : Nat} (h1 : 0x80 ≤ c) (h2 : c < 0x800) :
    (encodeChar c).length = 2 := by
  rw [encodeChar, if_neg (by omega), if_pos h2]; rfl

theorem encodeChar_three {c : Nat} (h1 : 0x800 ≤ c) (h2 : c < 0x10000) :
    (encodeChar c).length = 3 := by
  rw [encodeChar, if_neg (by omega), if_neg (by omega), if_pos h2]; rfl

theorem encodeChar_four {c : Nat} (h1 : 0x10000 ≤ c) : (encodeChar c).length = 4 := by
  rw [encodeChar, if_neg (by omega), if_neg (by omega), if_neg (by omega)]; rfl

theorem opens_singleton {n acc lo hi : Nat} {b : UInt8} (hn : n ≤ 2) (hlo : 0x80 ≤ lo)
    (hhi : hi ≤ 0xBF) (h : ∀ c, (acc * 64 + (lo - 0x80)) * 64 ^ n ≤ c →
      c < (acc * 64 + (hi - 0x80) + 1) * 64 ^ n → Scalar c ∧ (encodeChar c).length = n + 2) :
    Opens (.more n acc lo hi) [b] := by
  refine ⟨Nat.le_refl 1, by simp only [List.length_singleton]; omega, hlo, hhi, fun c h1 h2 => ?_⟩
  obtain ⟨hs, hl⟩ := h c h1 h2
  exact ⟨hs, by rw [hl, List.length_singleton]; omega⟩

/-- What a byte does outside a sequence: it is emitted or replaced, or opens one. -/
def Led (b : UInt8) : Str × Utf8 → Prop
  | (out, .ground) => out = [if b.toNat < 0x80 then b.toNat else replacement]
  | (out, st) => out = [] ∧ Opens st [b]

/-- The first of two bytes. -/
theorem led_two {acc : Nat} {b : UInt8} (h1 : 2 ≤ acc) (h2 : acc < 32) :
    Led b ([], .more 0 acc 0x80 0xBF) :=
  ⟨rfl, opens_singleton (by omega) (by omega) (by omega) fun _ _ _ =>
    ⟨.inl (by omega), encodeChar_two (by omega) (by omega)⟩⟩

/-- The first of three bytes, which cannot lead to a surrogate. -/
theorem led_three {acc lo hi : Nat} {b : UInt8} (hlo : 0x80 ≤ lo) (hhi : hi ≤ 0xBF)
    (hmin : 0x800 ≤ (acc * 64 + (lo - 0x80)) * 64)
    (hmax : (acc * 64 + (hi - 0x80) + 1) * 64 ≤ 0xD800 ∨
      0xE000 ≤ (acc * 64 + (lo - 0x80)) * 64 ∧ (acc * 64 + (hi - 0x80) + 1) * 64 ≤ 0x10000) :
    Led b ([], .more 1 acc lo hi) :=
  ⟨rfl, opens_singleton (by omega) hlo hhi fun _ _ _ =>
    ⟨by unfold Scalar; omega, encodeChar_three (by omega) (by omega)⟩⟩

/-- The first of four bytes. -/
theorem led_four {acc lo hi : Nat} {b : UInt8} (hlo : 0x80 ≤ lo) (hhi : hi ≤ 0xBF)
    (hmin : 0x10000 ≤ (acc * 64 + (lo - 0x80)) * 4096)
    (hmax : (acc * 64 + (hi - 0x80) + 1) * 4096 ≤ 0x110000) : Led b ([], .more 2 acc lo hi) :=
  ⟨rfl, opens_singleton (by omega) hlo hhi fun _ _ _ =>
    ⟨.inr (by omega), encodeChar_four (by omega)⟩⟩

/-- A lead byte opens a sequence of the length it announces. -/
theorem led_lead (b : UInt8) : Led b (lead b.toNat) := by
  unfold lead
  refine iteInduction (motive := Led b) (fun h => congrArg (fun c => [c]) (if_pos h).symm)
    fun h80 => ?_
  have bad : Led b ([replacement], .ground) := congrArg (fun c => [c]) (if_neg h80).symm
  refine iteInduction (motive := Led b) (fun _ => bad) fun hC2 => ?_
  refine iteInduction (motive := Led b) (fun _ => led_two (by omega) (by omega)) fun hE0 => ?_
  -- the bytes E0 and ED have narrower limits than the others that open three
  refine iteInduction (motive := Led b)
    (fun _ => led_three (by omega) (by omega) (by omega) (by omega)) fun _ => ?_
  refine iteInduction (motive := Led b)
    (fun _ => led_three (by omega) (by omega) (by omega) (by omega)) fun _ => ?_
  refine iteInduction (motive := Led b)
    (fun _ => led_three (by omega) (by omega) (by omega) (by omega)) fun hF0 => ?_
  -- and F0 and F4 than those that open four
  refine iteInduction (motive := Led b)
    (fun _ => led_four (by omega) (by omega) (by omega) (by omega)) fun _ => ?_
  refine iteInduction (motive := Led b)
    (fun _ => led_four (by omega) (by omega) (by omega) (by omega)) fun _ => ?_
  exact iteInduction (motive := Led b)
    (fun _ => led_four (by omega) (by omega) (by omega) (by omega)) fun _ => bad

/-- What a byte ends and opens is what the decoder emits and where it goes. -/
theorem cutLead_spec (b : UInt8) :
    (cutLead b).1.map Piece.shown = (lead b.toNat).1 ∧ Opens (lead b.toNat).2 (cutLead b).2 := by
  have hled := led_lead b
  unfold cutLead
  by_cases hb : b.toNat < 0x80
  · rw [if_pos hb, lead_ascii hb]; exact ⟨rfl, rfl⟩
  · rw [if_neg hb]
    generalize lead b.toNat = r at hled ⊢
    obtain ⟨out, st⟩ := r
    cases st with
    | ground =>
      have hout : out = [if b.toNat < 0x80 then b.toNat else replacement] := hled
      rw [if_pos rfl, hout, if_neg hb]
      exact ⟨rfl, rfl⟩
    | more n acc lo hi =>
      obtain ⟨rfl, hopens⟩ := hled
      rw [if_neg (show ¬ Utf8.more n acc lo hi = .ground from nofun)]
      exact ⟨rfl, hopens⟩

/-- A byte keeps the open sequence open, ends it, or opens another. -/
theorem opens_cut {st : Utf8} {w : List UInt8} (h : Opens st w) (b : UInt8) :
    Opens (feed st b.toNat).2 (cut st w b).2 := by
  cases st with
  | ground => exact (cutLead_spec b).2
  | more n acc lo hi =>
    obtain ⟨hw, hlen, hlo, hhi, hsize⟩ := h
    simp only [feed, cut]
    by_cases hb : lo ≤ b.toNat ∧ b.toNat ≤ hi
    · rw [if_pos hb, if_pos hb]
      cases n with
      | zero => rfl
      | succ n =>
        show Opens (.more n (acc * 64 + (b.toNat - 0x80)) 0x80 0xBF) (w ++ [b])
        have hwlen : (w ++ [b]).length = w.length + 1 := List.length_append
        refine ⟨by omega, by omega, Nat.le_refl _, Nat.le_refl _, fun c h1 h2 => ?_⟩
        -- the characters behind this byte are among those before it
        have hle := Nat.mul_le_mul_right (64 ^ n)
          (show (acc * 64 + (lo - 0x80)) * 64 ≤
            (acc * 64 + (b.toNat - 0x80)) * 64 + (0x80 - 0x80) by omega)
        have hlt := Nat.mul_le_mul_right (64 ^ n)
          (show (acc * 64 + (b.toNat - 0x80)) * 64 + (0xBF - 0x80) + 1 ≤
            (acc * 64 + (hi - 0x80) + 1) * 64 by omega)
        rw [Nat.mul_assoc, ← Nat.pow_succ'] at hle hlt
        obtain ⟨hs, hl⟩ := hsize c (hle.trans h1) (Nat.lt_of_lt_of_le h2 hlt)
        exact ⟨hs, hl.trans (by omega)⟩
    · rw [if_neg hb, if_neg hb]; exact (cutLead_spec b).2

theorem bytes_cutLead (b : UInt8) : (cutLead b).1.flatMap Piece.bytes ++ (cutLead b).2 = [b] := by
  unfold cutLead
  split_ifs <;> rfl

theorem valid_cutLead (b : UInt8) : ∀ p ∈ (cutLead b).1, p.Valid := by
  unfold cutLead
  intro p hp
  split_ifs at hp with hb hg
  · rw [List.mem_singleton.mp hp]
    exact ⟨.inl (by omega), encodeChar_one hb⟩
  · rw [List.mem_singleton.mp hp]
    exact ⟨Nat.le_refl 1, by simp⟩
  · cases hp

/-- What a byte ends is what the decoder emits. -/
theorem shown_cut (st : Utf8) (w : List UInt8) (b : UInt8) :
    (cut st w b).1.map Piece.shown = (feed st b.toNat).1 := by
  cases st with
  | ground => exact (cutLead_spec b).1
  | more n acc lo hi =>
    simp only [cut, feed]
    split
    · cases n <;> rfl
    · rw [List.map_cons, (cutLead_spec b).1]; rfl

theorem bytes_cut {st : Utf8} {w : List UInt8} (h : Opens st w) (b : UInt8) :
    (cut st w b).1.flatMap Piece.bytes ++ (cut st w b).2 = w ++ [b] := by
  cases st with
  | ground =>
    have hw : w = [] := h
    rw [hw]; exact bytes_cutLead b
  | more n acc lo hi =>
    simp only [cut]
    split
    · cases n <;> simp
    · rw [List.flatMap_cons, List.append_assoc, bytes_cutLead]

theorem valid_cut {st : Utf8} {w : List UInt8} (h : Opens st w) (b : UInt8) :
    ∀ p ∈ (cut st w b).1, p.Valid := by
  cases st with
  | ground => exact valid_cutLead b
  | more n acc lo hi =>
    obtain ⟨hw, hlen, hlo, hhi, hsize⟩ := h
    simp only [cut]
    by_cases hb : lo ≤ b.toNat ∧ b.toNat ≤ hi
    · rw [if_pos hb]
      cases n with
      | zero =>
        intro p hp
        rw [List.mem_singleton.mp hp]
        obtain ⟨hs, hl⟩ := hsize (acc * 64 + (b.toNat - 0x80)) (by omega) (by omega)
        exact ⟨hs, by rw [hl]; simp⟩
      | succ n => intro p hp; cases hp
    · rw [if_neg hb]
      intro p hp
      rcases List.mem_cons.mp hp with rfl | hp
      · exact ⟨hw, by show w.length ≤ 3; omega⟩
      · exact valid_cutLead b p hp

/-! ## The input -/

theorem shown_piecesFrom : ∀ (bs : List UInt8) (st : Utf8) (w : List UInt8),
    (piecesFrom st w bs).map Piece.shown = decodeFrom st bs
  | [], st, w => by cases st <;> rfl
  | b :: bs, st, w => by
    rw [piecesFrom, List.map_append, shown_cut, shown_piecesFrom bs]; rfl

theorem bytes_piecesFrom : ∀ (bs : List UInt8) {st : Utf8} {w : List UInt8}, Opens st w →
    (piecesFrom st w bs).flatMap Piece.bytes = w ++ bs
  | [], .ground, w, h => by
    have hw : w = [] := h
    rw [hw]; rfl
  | [], .more .., w, _ => rfl
  | b :: bs, st, w, h => by
    rw [piecesFrom, List.flatMap_append, bytes_piecesFrom bs (opens_cut h b), ← List.append_assoc,
      bytes_cut h, List.append_assoc]; rfl

theorem valid_piecesFrom : ∀ (bs : List UInt8) {st : Utf8} {w : List UInt8}, Opens st w →
    ∀ p ∈ piecesFrom st w bs, p.Valid
  | [], .ground, _, _ => fun p hp => by cases hp
  | [], .more .., w, h => fun p hp => by
    obtain ⟨hw, hlen, -⟩ := h
    rw [List.mem_singleton.mp hp]
    exact ⟨hw, by show w.length ≤ 3; omega⟩
  | b :: bs, st, w, h => fun p hp => by
    rcases List.mem_append.mp hp with hp | hp
    · exact valid_cut h b p hp
    · exact valid_piecesFrom bs (opens_cut h b) p hp

/-- The text is what the pieces show. -/
theorem decode_pieces (bs : List UInt8) : decode bs = (pieces bs).map Piece.shown :=
  (shown_piecesFrom bs .ground []).symm

/-- The input is what the pieces are cut from. -/
theorem flatMap_bytes (bs : List UInt8) : (pieces bs).flatMap Piece.bytes = bs :=
  bytes_piecesFrom bs (w := []) rfl

theorem valid_pieces (bs : List UInt8) : ∀ p ∈ pieces bs, p.Valid :=
  valid_piecesFrom bs (w := []) rfl

/-! ## Lengths -/

/-- Two sums of amounts that are ordered one by one are equal only one by one. -/
theorem sum_map_eq_iff {α : Type} {f g : α → Nat} : ∀ {l : List α}, (∀ x ∈ l, f x ≤ g x) →
    ((l.map f).sum = (l.map g).sum ↔ ∀ x ∈ l, f x = g x)
  | [], _ => by simp
  | x :: l, h => by
    have ih := sum_map_eq_iff (l := l) fun y hy => h y (List.mem_cons_of_mem _ hy)
    have hx := h x List.mem_cons_self
    have hl : (l.map f).sum ≤ (l.map g).sum :=
      List.sum_le_sum fun y hy => h y (List.mem_cons_of_mem _ hy)
    rw [List.map_cons, List.map_cons, List.sum_cons, List.sum_cons, List.forall_mem_cons, ← ih]
    omega

/-- Every replaced piece is the first three bytes of a longer sequence. -/
def NoShortGap (bs : List UInt8) : Prop := ∀ p ∈ pieces bs, p.char = none → p.bytes.length = 3

instance (bs : List UInt8) : Decidable (NoShortGap bs) :=
  inferInstanceAs (Decidable (∀ p ∈ pieces bs, _))

theorem encode_length (bs : List UInt8) : (encode (decode bs)).length =
    ((pieces bs).map fun p => (encodeChar p.shown).length).sum := by
  rw [encode, List.length_flatMap, decode_pieces, List.map_map]; rfl

theorem length_pieces (bs : List UInt8) :
    bs.length = ((pieces bs).map fun p => p.bytes.length).sum := by
  rw [← List.length_flatMap, flatMap_bytes]

theorem Piece.Valid.length {p : Piece} (h : p.Valid) :
    p.bytes.length ≤ (encodeChar p.shown).length ∧
      (encodeChar p.shown).length ≤ 3 * p.bytes.length ∧
      (p.bytes.length = (encodeChar p.shown).length ↔ (p.char = none → p.bytes.length = 3)) := by
  obtain ⟨char, bytes⟩ := p
  cases char with
  | some c =>
    have hl : bytes.length = (encodeChar c).length := h.2.symm
    exact ⟨Nat.le_of_eq hl, by show (encodeChar c).length ≤ 3 * bytes.length; omega,
      fun _ hn => (by cases hn), fun _ => hl⟩
  | none =>
    obtain ⟨h1, h3⟩ : 1 ≤ bytes.length ∧ bytes.length ≤ 3 := h
    exact ⟨h3, by show 3 ≤ 3 * bytes.length; omega, fun he _ => he, fun he => he rfl⟩

/-- Decoding and encoding loses no length. -/
theorem length_le_encode_decode (bs : List UInt8) : bs.length ≤ (encode (decode bs)).length := by
  rw [encode_length, length_pieces bs]
  exact List.sum_le_sum fun p hp => (valid_pieces bs p hp).length.1

theorem encode_decode_le_length (bs : List UInt8) :
    (encode (decode bs)).length ≤ 3 * bs.length := by
  rw [encode_length, length_pieces bs, ← List.sum_map_mul_left]
  exact List.sum_le_sum fun p hp => (valid_pieces bs p hp).length.2.1

/-- **Length.** It is the same exactly if no replaced piece is shorter than what
replaces it. -/
theorem encode_decode_length_iff (bs : List UInt8) :
    bs.length = (encode (decode bs)).length ↔ NoShortGap bs := by
  rw [encode_length]
  conv_lhs => lhs; rw [length_pieces bs]
  rw [sum_map_eq_iff fun p hp => (valid_pieces bs p hp).length.1]
  exact forall₂_congr fun p hp => (valid_pieces bs p hp).length.2.2

/-- Valid UTF-8 has no gap. -/
theorem noShortGap_encode {s : Str} (h : ∀ c ∈ s, Scalar c) : NoShortGap (encode s) := by
  rw [← encode_decode_length_iff]
  have hd := decode_encode h []
  rw [List.append_nil] at hd
  rw [hd, show decode [] = [] from rfl, List.append_nil]

end EbpfDemo.L1Encoding
