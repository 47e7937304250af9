import EbpfDemo.Core.Pattern
import EbpfDemo.Core.Stretch
import EbpfDemo.L1Encoding.Labels

/-!
# The expression of a line

`kvLine` takes a line apart with `takeWhile` and `dropWhile`. The source compiles

    ^\s*([A-Za-z0-9_.-]+)\s*(?:[:=])\s*([-+]?\d*\.?\d+)\s*$

and leaves the rest to `re`, which is greedy and goes back: `\d*` takes all digits and
`\d+` wants one of them, `$` also stands in front of a last line feed. Here the expression
is a pattern, matched in that order.

* `kvLine_match`: on every string the two agree, in what is a match, in the key and in the
  number. The expression can match a line in many ways, but into the same groups.
-/
namespace EbpfDemo.L1Encoding

open EbpfDemo.Core

/-- `(?:[:=])` -/
def isSeparator (c : Nat) : Bool := c = 0x3A || c = 0x3D

/-- `[-+]` -/
def isSign (c : Nat) : Bool := c = 0x2D || c = 0x2B

/-- `\.` -/
def isPoint (c : Nat) : Bool := c = 0x2E

/-- `\d*\.?\d+` -/
def digitItems : List (Item Nat) := [⟨isDecimal, .star⟩, ⟨isPoint, .opt⟩, ⟨isDecimal, .plus⟩]

/-- mirrors src/client/main.py:135 -/
def kvRe : Pattern Nat :=
  [.item ⟨isSpace, .star⟩, .group [⟨isKeyChar, .plus⟩], .item ⟨isSpace, .star⟩,
    .item ⟨isSeparator, .one⟩, .item ⟨isSpace, .star⟩, .group (⟨isSign, .opt⟩ :: digitItems),
    .item ⟨isSpace, .star⟩]

/-- `$` -/
def atEnd (r : Str) : Bool := r = [] || r = [0x0A]

/-- `kv_re.match(ln)` -/
def kvMatch (ln : Str) : Option (List Str) := kvRe.first atEnd ln

/-- `float` of digits with or without a point. -/
def floatOfDigits (s : Str) : ℚ :=
  let fp := (s.dropWhile isDecimal).drop 1
  digitsVal (s.takeWhile isDecimal ++ fp) / 10 ^ fp.length

/-- `float`, as the number that is rounded. -/
def floatOfText : Str → ℚ
  | 0x2B :: s => floatOfDigits s
  | 0x2D :: s => -floatOfDigits s
  | s => floatOfDigits s

/-- `key, val = m.group(1), float(m.group(2))` -/
def keyVal (m : List Str) : Str × ℚ := (m.getD 0 [], floatOfText (m.getD 1 []))

/-! ## Classes that exclude each other -/

theorem isSpace_of_isDecimal {c : Nat} (h : isDecimal c = true) : isSpace c = false := by
  have hruns : ∀ z ∈ digitZeros, ∀ i < 10, isSpace (z + i) = false := by decide +kernel
  unfold isDecimal digitVal at h
  split at h
  · exact isSpace_of_digit ‹_›
  · rw [Option.isSome_map, List.find?_isSome] at h
    obtain ⟨z, hz, hle⟩ := h
    obtain ⟨hle, hlt⟩ := of_decide_eq_true hle
    have hc := hruns z hz (c - z) (by omega)
    rwa [Nat.add_sub_cancel' hle] at hc

theorem isSpace_of_isSeparator {c : Nat} (h : isSeparator c = true) :
    isSpace c = false ∧ isKeyChar c = false := by
  simp only [isSeparator, Bool.or_eq_true, decide_eq_true_eq] at h
  rcases h with rfl | rfl <;> exact ⟨rfl, rfl⟩

theorem isKeyChar_of_isSpace {c : Nat} (h : isSpace c = true) : isKeyChar c = false := by
  apply Bool.eq_false_iff.mpr
  intro hkey
  rw [isSpace_of_isKeyChar hkey] at h
  cases h

section
variable {s num : Str} {q : ℚ} {c : Nat}

theorem digit_of_mem (h : Items.Matches digitItems s) (hc : c ∈ s) :
    isDecimal c = true ∨ c = 0x2E := by
  obtain ⟨i, hi, hcls⟩ := Items.exists_of_mem h hc
  simp only [digitItems, List.mem_cons, List.not_mem_nil, or_false] at hi
  rcases hi with rfl | rfl | rfl
  · exact .inl hcls
  · exact .inr (of_decide_eq_true hcls)
  · exact .inl hcls

theorem digits_ne_nil (h : Items.Matches digitItems s) : s ≠ [] := by
  obtain ⟨d, t, rfl, -, p, t, rfl, -, e, t, rfl, he, -⟩ := h
  intro hnil
  simp only [List.append_eq_nil_iff] at hnil
  exact (admits_plus.mp he).2 hnil.2.2.1

/-! ## The number -/

theorem decimalBody_iff :
    decimalBody s = some q ↔ Items.Matches digitItems s ∧ floatOfDigits s = q := by
  constructor
  · intro h
    obtain ⟨d, t, rfl, hd, htake, hdrop⟩ := exists_stretch isDecimal s
    unfold decimalBody at h
    unfold floatOfDigits
    rw [htake, hdrop] at h ⊢
    split at h
    · split at h
      · cases h
      · rename_i hne
        cases h
        rw [List.append_nil] at hne ⊢
        refine ⟨⟨[], d, rfl, admits_star.mpr nofun, [], d, rfl, admits_opt.mpr (.inl rfl), d, [],
          (List.append_nil d).symm, admits_plus.mpr ⟨hd, hne⟩, rfl⟩, ?_⟩
        simp only [List.drop_nil, List.append_nil, List.length_nil, pow_zero, div_one]
    · rename_i fp
      split at h
      · rename_i hfp
        cases h
        refine ⟨⟨d, _, rfl, admits_star.mpr hd, [0x2E], fp, rfl, admits_opt.mpr (.inr ⟨_, rfl, rfl⟩),
          fp, [], (List.append_nil fp).symm,
          admits_plus.mpr ⟨fun c hc => List.all_eq_true.mp hfp.2 c hc, hfp.1⟩, rfl⟩, rfl⟩
      · cases h
    · cases h
  · rintro ⟨⟨d, t, rfl, hd, p, t, rfl, hp, e, t, rfl, he, rfl⟩, rfl⟩
    have hd := admits_star.mp hd
    obtain ⟨he, hne⟩ := admits_plus.mp he
    rw [List.append_nil]
    unfold decimalBody floatOfDigits
    rcases admits_opt.mp hp with rfl | ⟨c, rfl, hc⟩
    · have hall : ∀ c ∈ d ++ e, isDecimal c = true := by
        intro c hc
        rcases List.mem_append.mp hc with hc | hc
        · exact hd c hc
        · exact he c hc
      rw [List.nil_append, List.dropWhile_eq_nil_iff.mpr hall, List.takeWhile_eq_self_iff.mpr hall]
      have hnil : d ++ e ≠ [] := fun h => hne (List.append_eq_nil_iff.mp h).2
      simp only [if_neg hnil, List.drop_nil, List.append_nil, List.length_nil, pow_zero, div_one]
    · obtain rfl : c = 0x2E := of_decide_eq_true hc
      have hstop : ∀ c ∈ ([0x2E] ++ e).head?, isDecimal c = false := by
        intro c hc
        cases hc
        rfl
      rw [takeWhile_stop hd hstop, dropWhile_stop hd hstop]
      exact if_pos ⟨hne, List.all_eq_true.mpr he⟩

/-- Digits have no sign in front. -/
theorem sign_free (h : Items.Matches digitItems s) :
    number s = decimalBody s ∧ floatOfText s = floatOfDigits s := by
  have hno {c : Nat} {t : Str} (hs : s = c :: t) : isDecimal c = true ∨ c = 0x2E :=
    digit_of_mem h (hs ▸ List.mem_cons_self)
  unfold number floatOfText
  constructor
  · split
    · rcases hno rfl with h | h <;> cases h
    · rcases hno rfl with h | h <;> cases h
    · rfl
  · split
    · rcases hno rfl with h | h <;> cases h
    · rcases hno rfl with h | h <;> cases h
    · rfl

theorem number_iff : number num = some q ↔
    Items.Matches (⟨isSign, .opt⟩ :: digitItems) num ∧ floatOfText num = q := by
  have hsigned {c : Nat} {s : Str} (hc : isSign c = true) (h : Items.Matches digitItems s) :
      Items.Matches (⟨isSign, .opt⟩ :: digitItems) (c :: s) :=
    ⟨[c], s, rfl, admits_opt.mpr (.inr ⟨c, rfl, hc⟩), h⟩
  constructor
  · intro h
    unfold number at h
    split at h
    · obtain ⟨hs, hq⟩ := decimalBody_iff.mp h
      exact ⟨hsigned rfl hs, hq⟩
    · obtain ⟨p, hp, rfl⟩ := Option.map_eq_some_iff.mp h
      obtain ⟨hs, hq⟩ := decimalBody_iff.mp hp
      exact ⟨hsigned rfl hs, congrArg Neg.neg hq⟩
    · obtain ⟨hs, hq⟩ := decimalBody_iff.mp h
      refine ⟨⟨[], _, rfl, admits_opt.mpr (.inl rfl), hs⟩, ?_⟩
      rw [(sign_free hs).2, hq]
  · rintro ⟨⟨g, s, rfl, hg, hs⟩, rfl⟩
    have hbody := decimalBody_iff.mpr ⟨hs, rfl⟩
    rcases admits_opt.mp hg with rfl | ⟨c, rfl, hc⟩
    · rw [List.nil_append, (sign_free hs).1, (sign_free hs).2]
      exact hbody
    · simp only [isSign, Bool.or_eq_true, decide_eq_true_eq] at hc
      rcases hc with rfl | rfl
      · exact congrArg (Option.map fun q => -q) hbody
      · exact hbody

theorem isSpace_of_number (h : Items.Matches (⟨isSign, .opt⟩ :: digitItems) num) :
    num ≠ [] ∧ ∀ c ∈ num, isSpace c = false := by
  obtain ⟨g, s, rfl, hg, hs⟩ := h
  constructor
  · exact fun hnil => digits_ne_nil hs (List.append_eq_nil_iff.mp hnil).2
  · intro c hc
    rcases List.mem_append.mp hc with hc | hc
    · have hsign := hg.1 c hc
      simp only [isSign, Bool.or_eq_true, decide_eq_true_eq] at hsign
      rcases hsign with rfl | rfl <;> rfl
    · rcases digit_of_mem hs hc with h | rfl
      · exact isSpace_of_isDecimal h
      · rfl

end

/-! ## The line -/

/-- How the expression cuts a line: the spaces between the groups, the separator, and at the
end all that is left. -/
structure Cut (ln key num : Str) where
  w : Str
  v : Str
  u : Str
  z : Str
  sep : Nat
  line : ln = w ++ (key ++ (v ++ sep :: (u ++ (num ++ z))))
  spaces : ∀ c ∈ w ++ v ++ u ++ z, isSpace c = true
  separates : isSeparator sep = true
  key_ne : key ≠ []
  keyChars : ∀ c ∈ key, isKeyChar c = true
  number : Items.Matches (⟨isSign, .opt⟩ :: digitItems) num

namespace Cut
variable {ln key num : Str}

/-- The stretches of the scanner are the pieces of the cut. -/
theorem scan (x : Cut ln key num) :
    ln.dropWhile isSpace = key ++ (x.v ++ x.sep :: (x.u ++ (num ++ x.z))) ∧
      (key ++ (x.v ++ x.sep :: (x.u ++ (num ++ x.z)))).takeWhile isKeyChar = key ∧
      ((key ++ (x.v ++ x.sep :: (x.u ++ (num ++ x.z)))).dropWhile isKeyChar).dropWhile isSpace =
        x.sep :: (x.u ++ (num ++ x.z)) ∧
      (x.u ++ (num ++ x.z)).dropWhile isSpace = num ++ x.z ∧
      (num ++ x.z).takeWhile (fun c => !isSpace c) = num ∧
      ((num ++ x.z).dropWhile fun c => !isSpace c).all isSpace = true := by
  obtain ⟨w, v, u, z, sep, rfl, hspaces, hsep, hne, hkey, hnumber⟩ := x
  obtain ⟨hnil, hnum⟩ := isSpace_of_number hnumber
  simp only [List.mem_append] at hspaces
  have hw : ∀ d ∈ w, isSpace d = true := fun d hd => hspaces d (.inl (.inl (.inl hd)))
  have hv : ∀ d ∈ v, isSpace d = true := fun d hd => hspaces d (.inl (.inl (.inr hd)))
  have hu : ∀ d ∈ u, isSpace d = true := fun d hd => hspaces d (.inl (.inr hd))
  have hz : ∀ d ∈ z, isSpace d = true := fun d hd => hspaces d (.inr hd)
  dsimp only
  -- each stretch stops at the first element of the next piece
  have hfirst : ∀ d ∈ (key ++ (v ++ sep :: (u ++ (num ++ z)))).head?, isSpace d = false := by
    obtain ⟨k, s, rfl⟩ := List.exists_cons_of_ne_nil hne
    intro d hd
    cases hd
    exact isSpace_of_isKeyChar (hkey k List.mem_cons_self)
  have hstop : ∀ d ∈ (v ++ sep :: (u ++ (num ++ z))).head?, isKeyChar d = false := by
    cases v with
    | nil =>
      intro d hd
      cases hd
      exact (isSpace_of_isSeparator hsep).2
    | cons x v =>
      intro d hd
      cases hd
      exact isKeyChar_of_isSpace (hv x List.mem_cons_self)
  have hcolon : ∀ d ∈ (sep :: (u ++ (num ++ z))).head?, isSpace d = false := by
    intro d hd
    cases hd
    exact (isSpace_of_isSeparator hsep).1
  have hvalue : ∀ d ∈ (num ++ z).head?, isSpace d = false := by
    obtain ⟨c, s, rfl⟩ := List.exists_cons_of_ne_nil hnil
    intro d hd
    cases hd
    exact hnum c List.mem_cons_self
  have hinside : ∀ d ∈ num, (!isSpace d) = true := fun d hd => by rw [hnum d hd]; rfl
  have hlast : ∀ d ∈ z.head?, (!isSpace d) = false := fun d hd => by
    rw [hz d (List.mem_of_head? hd)]; rfl
  refine ⟨dropWhile_stop hw hfirst, takeWhile_stop hkey hstop, ?_, dropWhile_stop hu hvalue,
    takeWhile_stop hinside hlast, ?_⟩
  · rw [dropWhile_stop hkey hstop, dropWhile_stop hv hcolon]
  · rw [dropWhile_stop hinside hlast]
    exact List.all_eq_true.mpr hz

/-- The scanner reads a line that can be cut. -/
theorem kvLine_eq (x : Cut ln key num) : kvLine ln = some (key, floatOfText num) := by
  obtain ⟨hw, hkey, hsep, hu, hnum, hz⟩ := x.scan
  have hvalue : kvNumber (x.u ++ (num ++ x.z)) = some (floatOfText num) := by
    unfold kvNumber
    dsimp only
    rw [hu, hnum, if_pos hz]
    exact number_iff.mpr ⟨x.number, rfl⟩
  unfold kvLine
  dsimp only
  rw [hw, hkey, hsep]
  obtain ⟨k, s, rfl⟩ := List.exists_cons_of_ne_nil x.key_ne
  have hc := x.separates
  simp only [isSeparator, Bool.or_eq_true, decide_eq_true_eq] at hc
  dsimp only
  rw [if_pos hc, hvalue]
  rfl

/-- A line can be cut in one way only, as far as the groups go. -/
theorem unique {key' num' : Str} (x : Cut ln key num) (y : Cut ln key' num') :
    key = key' ∧ num = num' := by
  obtain ⟨hw, hkey, hsep, hu, hnum, -⟩ := x.scan
  obtain ⟨hw', hkey', hsep', hu', hnum', -⟩ := y.scan
  have hline := hw.symm.trans hw'
  rw [hline, hkey'] at hkey
  rw [hline, hsep'] at hsep
  have htail := (List.cons.inj hsep).2
  rw [← htail, hu'] at hu
  rw [← hu, hnum'] at hnum
  exact ⟨hkey.symm, hnum.symm⟩

end Cut

section
variable {ln m r : Str} {gs : List Str}

/-- A match is a cut; what stands behind the match are spaces too. -/
theorem cut_of_matches (h : kvRe.Matches m gs) (hr : atEnd r = true) :
    ∃ key num, gs = [key, num] ∧ Nonempty (Cut (m ++ r) key num) := by
  obtain ⟨w, t, rfl, hw, key, t, gs, rfl, hkey, ⟨v, t, rfl, hv, sep, t, rfl, hsep, u, t, rfl, hu,
    num, t, gs, rfl, hnum, ⟨z, t, rfl, hz, rfl, rfl⟩, rfl⟩, rfl⟩ := h
  obtain ⟨key, t, rfl, hkey, rfl⟩ := hkey
  obtain ⟨hkey, hne⟩ := admits_plus.mp hkey
  obtain ⟨c, rfl, hc⟩ := admits_one.mp hsep
  rw [List.append_nil]
  have hspace : ∀ d ∈ r, isSpace d = true := by
    intro d hd
    simp only [atEnd, Bool.or_eq_true, decide_eq_true_eq] at hr
    rcases hr with rfl | rfl
    · cases hd
    · rw [List.mem_singleton.mp hd]
      rfl
  refine ⟨key, num, rfl, ⟨⟨w, v, u, z ++ r, c, ?_, ?_, hc, hne, hkey, hnum⟩⟩⟩
  · simp only [List.append_assoc, List.append_nil, List.nil_append, List.cons_append]
  · intro d hd
    simp only [List.mem_append] at hd
    rcases hd with ((hd | hd) | hd) | hd | hd
    · exact admits_star.mp hw d hd
    · exact admits_star.mp hv d hd
    · exact admits_star.mp hu d hd
    · exact admits_star.mp hz d hd
    · exact hspace d hd

/-- What the scanner reads the expression matches. -/
theorem matches_of_kvLine {e : Str × ℚ} (h : kvLine ln = some e) : ∃ gs, kvRe.Matches ln gs := by
  obtain ⟨w, s, rfl, hw, -, hs⟩ := exists_stretch isSpace ln
  obtain ⟨key, s', rfl, hkey, hk, hs'⟩ := exists_stretch isKeyChar s
  obtain ⟨v, s'', rfl, hv, -, hs''⟩ := exists_stretch isSpace s'
  unfold kvLine at h
  dsimp only at h
  rw [hs, hk, hs', hs''] at h
  split at h
  · cases h
  · cases h
  · rename_i c t hne
    split at h
    · rename_i hc
      obtain ⟨q, hq, rfl⟩ := Option.map_eq_some_iff.mp h
      obtain ⟨u, t, rfl, hu, -, ht⟩ := exists_stretch isSpace t
      obtain ⟨num, z, rfl, -, hnum, hz⟩ := exists_stretch (fun c => !isSpace c) t
      unfold kvNumber at hq
      dsimp only at hq
      rw [ht, hnum, hz] at hq
      split at hq
      · rename_i hz
        have hsep : isSeparator c = true := by
          simpa only [isSeparator, Bool.or_eq_true, decide_eq_true_eq] using hc
        refine ⟨[key, num], w, _, rfl, admits_star.mpr hw, key, _, [num], rfl,
          ⟨key, [], (List.append_nil key).symm, admits_plus.mpr ⟨hkey, hne⟩, rfl⟩, ?_, rfl⟩
        refine ⟨v, _, rfl, admits_star.mpr hv, [c], _, rfl, admits_one.mpr ⟨c, rfl, hsep⟩, u, _, rfl,
          admits_star.mpr hu, num, z, [], rfl, (number_iff.mp hq).1, ?_, rfl⟩
        exact ⟨z, [], (List.append_nil z).symm, admits_star.mpr (List.all_eq_true.mp hz), rfl, rfl⟩
      · cases hq
    · cases h

end

/-- **The line as the source reads it.** The scanner and the matcher agree on every string,
and what the matcher finds is the only match: in whatever order it tries, the key and the
number are these. -/
theorem kvLine_match (ln : Str) : kvLine ln = (kvMatch ln).map keyVal ∧
    ∀ gs, kvMatch ln = some gs ↔ ∃ m r, ln = m ++ r ∧ atEnd r = true ∧ kvRe.Matches m gs := by
  have hmatch {m r : Str} {gs : List Str} (hm : kvRe.Matches m gs) (hr : atEnd r = true) :
      kvMatch (m ++ r) = some gs := by
    obtain ⟨key, num, rfl, ⟨x⟩⟩ := cut_of_matches hm hr
    obtain ⟨gs, hgs⟩ := Option.ne_none_iff_exists'.mp (Pattern.first_of_matches hm hr)
    obtain ⟨m', r', hs, hr', hm'⟩ := Pattern.first_some hgs
    obtain ⟨key', num', rfl, ⟨y⟩⟩ := cut_of_matches hm' hr'
    rw [← hs] at y
    obtain ⟨rfl, rfl⟩ := x.unique y
    exact hgs
  refine ⟨?_, fun gs => ⟨fun h => Pattern.first_some h, ?_⟩⟩
  · cases hk : kvLine ln with
    | some e =>
      obtain ⟨gs, hm⟩ := matches_of_kvLine hk
      have hfirst := hmatch (r := []) hm rfl
      obtain ⟨key, num, rfl, ⟨x⟩⟩ := cut_of_matches (r := []) hm rfl
      rw [List.append_nil] at hfirst x
      rw [hfirst, ← hk]
      exact x.kvLine_eq
    | none =>
      cases h : kvMatch ln with
      | none => rfl
      | some gs =>
        obtain ⟨m, r, rfl, hr, hm⟩ := Pattern.first_some h
        obtain ⟨key, num, rfl, ⟨x⟩⟩ := cut_of_matches hm hr
        rw [x.kvLine_eq] at hk
        cases hk
  · rintro ⟨m, r, rfl, hr, hm⟩
    exact hmatch hm hr

end EbpfDemo.L1Encoding
