import Mathlib.Data.List.TakeWhile
import EbpfDemo.Core.Binary64
import EbpfDemo.L1Encoding.Json

/-!
# parse_output_metrics

The client reads every line of a tool's output first as `key: number` (or
`key=number`), then as JSON, and adds the numbers up by key. `kvLine` is the
regular expression

    ^\s*([A-Za-z0-9_.-]+)\s*(?:[:=])\s*([-+]?\d*\.?\d+)\s*$

matched on one line, `parseLine` the body of the loop. `Floats` is the arithmetic
of the values: `binary64` is the machine's.

What is not caught by the `except` of the loop leaves the function: the
`OverflowError` of `math.isfinite` on an integer too large for a float, and the
`RecursionError` of the scanner.

`source_of_mem`: a key of the result was matched by the expression, and then
holds only its key characters, or stands in a line between two quotes.
-/
namespace EbpfDemo.L1Encoding

open EbpfDemo.Core

/-- The floats the values are added in. -/
structure Floats (F : Type) where
  zero : F
  add : F → F → F
  ofRat : ℚ → F
  isFinite : F → Bool

def binary64 : Floats Binary64 := ⟨.zero, .add, .ofRat, Binary64.isFinite⟩

inductive PyErr where
  | overflow | recursion
  deriving DecidableEq

/-- `[A-Za-z0-9_.-]` -/
def isKeyChar (c : Nat) : Bool :=
  0x61 ≤ c && c ≤ 0x7A || 0x41 ≤ c && c ≤ 0x5A || 0x30 ≤ c && c ≤ 0x39 || c = 0x5F || c = 0x2E ||
    c = 0x2D

def isDecimal (c : Nat) : Bool := (digitVal c).isSome

def digitsVal (s : Str) : Nat := s.foldl (fun n c => 10 * n + (digitVal c).getD 0) 0

/-- `\d*\.?\d+` and its value. -/
def decimalBody (s : Str) : Option ℚ :=
  match s.dropWhile isDecimal with
  | [] => if s = [] then none else some (digitsVal s)
  | 0x2E :: fp =>
    if fp ≠ [] ∧ fp.all isDecimal then
      some (digitsVal (s.takeWhile isDecimal ++ fp) / 10 ^ fp.length)
    else none
  | _ => none

/-- `[-+]?\d*\.?\d+` and its value. -/
def number : Str → Option ℚ
  | 0x2B :: s => decimalBody s
  | 0x2D :: s => (decimalBody s).map fun q => -q
  | s => decimalBody s

/-- Behind the separator: `\s*`, the number, `\s*$`. -/
def kvNumber (s : Str) : Option ℚ :=
  let s := s.dropWhile isSpace
  if (s.dropWhile fun c => !isSpace c).all isSpace then number (s.takeWhile fun c => !isSpace c)
  else none

/-- mirrors src/client/main.py:135-139 -/
def kvLine (ln : Str) : Option (Str × ℚ) :=
  let s := ln.dropWhile isSpace
  let key := s.takeWhile isKeyChar
  match key, (s.dropWhile isKeyChar).dropWhile isSpace with
  | [], _ => none
  | _, [] => none
  | key, c :: s =>
    if c = 0x3A ∨ c = 0x3D then (kvNumber s).map fun q => (key, q) else none

section
variable {F : Type} (N : Floats F)

abbrev Metrics (F : Type) := List (Str × F)

/-- `out[k] = out.get(k, 0.0) + v` -/
def addTo (out : Metrics F) (k : Str) (v : F) : Metrics F :=
  Dict.set k (N.add (Dict.getD out k N.zero) v) out

/-- The float to add for a JSON value: `none` for a value that is no number or
not finite. `math.isfinite` raises on an integer that has no float. -/
def finiteFloat : Json.Value → Except PyErr (Option F)
  | .bool b => .ok (some (N.ofRat (if b then 1 else 0)))
  | .int n => if N.isFinite (N.ofRat n) then .ok (some (N.ofRat n)) else .error .overflow
  | .float (.dec q) => .ok (if N.isFinite (N.ofRat q) then some (N.ofRat q) else none)
  | _ => .ok none

/-- mirrors src/client/main.py:146-153 -/
def addItem (out : Metrics F) (e : Str × Json.Value) : Except PyErr (Metrics F) :=
  if e.1.length ≤ 128 then do
    match ← finiteFloat N e.2 with
    | some v => pure (addTo N out e.1 v)
    | none => pure out
  else pure out

/-- mirrors src/client/main.py:137-155 -/
def parseLine (recLimit : Nat) (out : Metrics F) (ln : Str) : Except PyErr (Metrics F) :=
  match kvLine ln with
  | some (key, q) =>
    if key.length ≤ 128 ∧ N.isFinite (N.ofRat q) then .ok (addTo N out key (N.ofRat q)) else .ok out
  | none =>
    match Json.loads recLimit ln with
    | .ok (.obj kvs) => kvs.foldlM (addItem N) out
    | .ok _ => .ok out
    | .error .recursion => .error .recursion
    | .error _ => .ok out

/-- mirrors src/client/main.py:133-156 -/
def parseOutputMetrics (recLimit : Nat) (output : Str) : Except PyErr (Metrics F) :=
  (splitlines output).foldlM (parseLine N recLimit) []

variable {N}

/-! ## Where a key comes from -/

theorem mem_keys_addTo {out : Metrics F} {k x : Str} {v : F} :
    x ∈ Assoc.keys (addTo N out k v) ↔ x = k ∨ x ∈ Assoc.keys out := Dict.mem_keys_set

theorem keys_addItem {out out' : Metrics F} {e : Str × Json.Value} {k : Str}
    (h : addItem N out e = .ok out') (hk : k ∈ Assoc.keys out') :
    k = e.1 ∨ k ∈ Assoc.keys out := by
  unfold addItem at h
  split at h
  · cases hf : finiteFloat N e.2 with
    | error x => rw [hf] at h; cases h
    | ok o =>
      rw [hf] at h
      cases o with
      | none => cases h; exact .inr hk
      | some v => cases h; exact mem_keys_addTo.mp hk
  · cases h; exact .inr hk

/-- Folding steps that each add the keys of one element. -/
theorem keys_foldlM {α : Type} {f : Metrics F → α → Except PyErr (Metrics F)} {P : α → Str → Prop}
    (hf : ∀ out out' a k, f out a = .ok out' → k ∈ Assoc.keys out' → P a k ∨ k ∈ Assoc.keys out) :
    ∀ {l : List α} {out out' : Metrics F} {k : Str}, l.foldlM f out = .ok out' →
      k ∈ Assoc.keys out' → (∃ a ∈ l, P a k) ∨ k ∈ Assoc.keys out := by
  intro l
  induction l with
  | nil => intro out out' k h hk; cases h; exact .inr hk
  | cons a l ih =>
    intro out out' k h hk
    rw [List.foldlM_cons] at h
    cases hs : f out a with
    | error e => rw [hs] at h; cases h
    | ok o =>
      rw [hs] at h
      rcases ih h hk with ⟨b, hb, hp⟩ | hk
      · exact .inl ⟨b, List.mem_cons_of_mem _ hb, hp⟩
      · rcases hf _ _ _ _ hs hk with hp | hk
        · exact .inl ⟨a, List.mem_cons_self, hp⟩
        · exact .inr hk

/-- A line the key `k` comes from. -/
def Source (ln : Str) (k : Str) : Prop := (∃ q, kvLine ln = some (k, q)) ∨ Json.KeyOf k ln

theorem keys_parseLine {recLimit : Nat} {out out' : Metrics F} {ln k : Str}
    (h : parseLine N recLimit out ln = .ok out') (hk : k ∈ Assoc.keys out') :
    Source ln k ∨ k ∈ Assoc.keys out := by
  unfold parseLine at h
  split at h
  · rename_i key q hkv
    split at h
    · cases h
      rcases mem_keys_addTo.mp hk with rfl | hk
      · exact .inl (.inl ⟨q, hkv⟩)
      · exact .inr hk
    · cases h; exact .inr hk
  · split at h
    · rename_i kvs hj
      rcases keys_foldlM (P := fun e k => k = e.1) (fun _ _ _ _ => keys_addItem) h hk with
        ⟨e, he, rfl⟩ | hk
      · exact .inl (.inr (Json.keyOf_of_loads hj (Assoc.mem_keys_of_mem he)))
      · exact .inr hk
    · cases h; exact .inr hk
    · cases h
    · cases h; exact .inr hk

/-- **Where a key comes from.** -/
theorem source_of_mem {recLimit : Nat} {output : Str} {out : Metrics F}
    (h : parseOutputMetrics N recLimit output = .ok out) {k : Str} (hk : k ∈ Assoc.keys out) :
    ∃ ln ∈ splitlines output, Source ln k := by
  rcases keys_foldlM (P := Source) (fun _ _ _ _ => keys_parseLine) h hk with h | h
  · exact h
  · cases h

theorem kvLine_key {ln k : Str} {q : ℚ} (h : kvLine ln = some (k, q)) :
    ∀ c ∈ k, isKeyChar c = true := by
  have hall : ∀ c ∈ (ln.dropWhile isSpace).takeWhile isKeyChar, isKeyChar c = true :=
    fun c hc => List.mem_takeWhile_imp hc
  unfold kvLine at h
  dsimp only at h
  split at h
  · cases h
  · cases h
  · split at h
    · obtain ⟨_, -, he⟩ := Option.map_eq_some_iff.mp h
      cases he; exact hall
    · cases h

end
end EbpfDemo.L1Encoding
