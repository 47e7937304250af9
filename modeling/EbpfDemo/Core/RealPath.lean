import EbpfDemo.Core.Dict
import EbpfDemo.Core.FileSys

/-!
# What Python makes of a path

`os.path.realpath` follows links itself, name by name with `lstat`: a link's target by a call
of its own, what links led to in the dict `seen`. A name that is not there is kept. A link
met while its own target is being followed ends the walk: what is left of the path is put
behind it as it stands, and `normpath` then takes out every `..` with the name in front, be
it a link or not. So a loop of links can lead somewhere.

* `resolve_reach`: where the kernel gets, `Path.resolve()` gets as well, if Python may make
  more calls than the kernel follows links;
* `resolve_entry`: then a name behind it that is no link is kept.
-/
namespace EbpfDemo.Core

namespace FileSys

/-- What links led to; `none` while a link's target is followed. -/
abbrev Seen := List (Path × Option Path)

/-- The path and the flag that `_joinrealpath` returns, and what it leaves in `seen`. -/
structure Joined where
  path : Path
  ok : Bool
  seen : Seen

/-- Why `Path.resolve()` raises: a `RecursionError`, or the `RuntimeError` of a loop. -/
inductive ResolveError where
  | recursion
  | symlinkLoop
  deriving DecidableEq

variable (fs : FileSys) (links : Nat)

/-- The loop of `_joinrealpath`; `call` is its call of itself. -/
def joinNames (call : Path → List Name → Seen → Option Joined) :
    Path → List Name → Seen → Option Joined
  | path, [], seen => some ⟨path, true, seen⟩
  | path, name :: rest, seen =>
    if name = [] ∨ name = .dot then joinNames call path rest seen
    else if name = .dotdot then joinNames call path.dropLast rest seen
    else
      let newpath := path ++ [name]
      match fs.lstat links newpath with
      | .ok (.link abs target) =>
        match Assoc.find newpath seen with
        | some (some p) => joinNames call p rest seen
        | some none => some ⟨newpath ++ rest, false, seen⟩
        | none =>
          match call (base abs path) target (Dict.set newpath none seen) with
          | none => none
          | some ⟨p, true, seen⟩ => joinNames call p rest (Dict.set newpath (some p) seen)
          | some ⟨p, false, seen⟩ => some ⟨p ++ rest, false, seen⟩
      | _ => joinNames call newpath rest seen

/-- `_joinrealpath`, at most `depth` calls deep; `none` is the `RecursionError`. -/
def joinRealpath : Nat → Path → List Name → Seen → Option Joined
  | 0, _, _, _ => none
  | depth + 1, path, rest, seen => fs.joinNames links (joinRealpath depth) path rest seen

/-- `os.path.normpath` of an absolute path. -/
def normpath (p : Path) : Path :=
  p.foldl (fun new c => if c = [] ∨ c = Name.dot then new
    else if c = Name.dotdot then new.dropLast else new ++ [c]) []

/-- `os.path.realpath` -/
def realpath (depth : Nat) (p : Path) : Option Path :=
  (fs.joinRealpath links depth [] p []).map fun r => normpath r.path

/-- `Path.resolve()`: what `realpath` leaves of a loop is found by `stat`. -/
def resolve (depth : Nat) (p : Path) : Except ResolveError Path :=
  match fs.realpath links depth p with
  | none => .error .recursion
  | some p => if fs.stat links p = .error .loop then .error .symlinkLoop else .ok p

/-- `Path.exists()` -/
def «exists» (p : Path) : Bool :=
  match fs.stat links p with
  | .ok _ => true
  | .error _ => false

/-- `Path.is_file()` -/
def isFile (p : Path) : Bool :=
  match fs.stat links p with
  | .ok (.file _) => true
  | _ => false

/-- `Path.is_symlink()` -/
def isSymlink (p : Path) : Bool :=
  match fs.lstat links p with
  | .ok (.link ..) => true
  | _ => false

/-- `os.access(path, os.X_OK)` -/
def isExecutable (p : Path) : Bool :=
  match fs.stat links p with
  | .ok (.file x) => x
  | .ok .dir => true
  | _ => false

variable {fs links}

/-! ## Normal paths -/

section
variable {p : Path} {c : Name}

theorem normpath_concat (p : Path) (c : Name) :
    normpath (p ++ [c]) = if c = [] ∨ c = Name.dot then normpath p
      else if c = Name.dotdot then (normpath p).dropLast else normpath p ++ [c] := by
  rw [normpath, List.foldl_append]; rfl

theorem normpath_names (hc : c ∈ normpath p) : ¬ c.Special := by
  induction p using List.reverseRecOn with
  | nil => cases hc
  | append_singleton p d ih =>
    rw [normpath_concat] at hc
    split at hc
    · exact ih hc
    rename_i hstay
    split at hc
    · exact ih (List.dropLast_subset _ hc)
    rename_i hup
    rcases List.mem_append.mp hc with hc | hc
    · exact ih hc
    · rw [List.mem_singleton.mp hc]
      exact not_or.mpr ⟨hstay, hup⟩

theorem normpath_self (h : ∀ c ∈ p, ¬ c.Special) : normpath p = p := by
  induction p using List.reverseRecOn with
  | nil => rfl
  | append_singleton p c ih =>
    obtain ⟨hstay, hup⟩ := not_or.mp (h c (List.mem_append_right p (List.mem_singleton_self c)))
    rw [normpath_concat, if_neg hstay, if_neg hup,
      ih fun d hd => h d (List.mem_append_left [c] hd)]

end

/-! ## Links -/

/-- The link at `l` leads to `p`, through `j` further ones. -/
def LeadsTo (fs : FileSys) (l p : Path) (j : Nat) : Prop :=
  ∃ abs target, fs.node l = some (.link abs target) ∧ fs.Walks (base abs l.dropLast) target p j

theorem LeadsTo.unique {l p q : Path} {i j : Nat} (hp : fs.LeadsTo l p i)
    (hq : fs.LeadsTo l q j) : p = q ∧ i = j := by
  obtain ⟨abs, target, hl, hw⟩ := hp
  obtain ⟨abs', target', hl', hw'⟩ := hq
  rw [hl] at hl'
  cases hl'
  exact hw.unique hw'

/-- What is in `seen` is where the links lead. -/
def Sound (fs : FileSys) (seen : Seen) : Prop :=
  ∀ l p q j, fs.LeadsTo l p j → Assoc.find l seen = some (some q) → q = p

/-- A link whose target is being followed is at least `k` links from its end. -/
def Ahead (fs : FileSys) (seen : Seen) (k : Nat) : Prop :=
  ∀ l p j, fs.LeadsTo l p j → Assoc.find l seen = some none → k ≤ j

/-- No call is left open. -/
def Closes (seen seen' : Seen) : Prop :=
  ∀ l, Assoc.find l seen' = some none → Assoc.find l seen = some none

theorem Ahead.mono {seen : Seen} {j k : Nat} (h : fs.Ahead seen k) (hj : j ≤ k) :
    fs.Ahead seen j := fun l p i hl hf => Nat.le_trans hj (h l p i hl hf)

theorem Ahead.closes {seen seen' : Seen} {k : Nat} (h : fs.Ahead seen k)
    (hc : Closes seen seen') : fs.Ahead seen' k := fun l p i hl hf => h l p i hl (hc l hf)

section
variable {seen seen' : Seen} {l p : Path} {j : Nat}

/-- A call for a target begins. -/
theorem Sound.enter (h : fs.Sound seen) (l : Path) : fs.Sound (Dict.set l none seen) := by
  intro m p q j hm hf
  rw [Dict.find_set] at hf
  split at hf
  · cases hf
  · exact h m p q j hm hf

theorem Ahead.enter (h : fs.Ahead seen j) (hl : fs.LeadsTo l p j) :
    fs.Ahead (Dict.set l none seen) j := by
  intro m q i hm hf
  rw [Dict.find_set] at hf
  split at hf
  · rename_i he
    subst he
    exact Nat.le_of_eq (hl.unique hm).2
  · exact h m q i hm hf

/-- The call is over. -/
theorem Sound.leave (h : fs.Sound seen) (hl : fs.LeadsTo l p j) :
    fs.Sound (Dict.set l (some p) seen) := by
  intro m q q' i hm hf
  rw [Dict.find_set] at hf
  split at hf
  · rename_i he
    subst he
    cases hf
    exact (hl.unique hm).1
  · exact h m q q' i hm hf

theorem Closes.leave (h : Closes (Dict.set l none seen) seen') :
    Closes seen (Dict.set l (some p) seen') := by
  intro m hf
  rw [Dict.find_set] at hf
  split at hf
  · cases hf
  · rename_i hne
    have := h m hf
    rwa [Dict.find_set, if_neg hne] at this

end

/-! ## One name of the loop -/

section
variable {call : Path → List Name → Seen → Option Joined} {cur : Path} {c : Name} {seen : Seen}

theorem joinNames_stay (hc : c = [] ∨ c = .dot) (rest : List Name) :
    fs.joinNames links call cur (c :: rest) seen = fs.joinNames links call cur rest seen := by
  rw [joinNames, if_pos hc]

theorem joinNames_up (rest : List Name) : fs.joinNames links call cur (.dotdot :: rest) seen =
    fs.joinNames links call cur.dropLast rest seen := by
  rw [joinNames, if_neg (by decide), if_pos rfl]

/-- A name that is no link, or not there. -/
theorem joinNames_name (hcur : fs.Direct cur) (hc : ¬ c.Special)
    (hlink : ∀ x, fs.node (cur ++ [c]) = some x → x.isLink = false) (rest : List Name) :
    fs.joinNames links call cur (c :: rest) seen =
      fs.joinNames links call (cur ++ [c]) rest seen := by
  obtain ⟨hstay, hup⟩ := not_or.mp hc
  rw [joinNames, if_neg hstay, if_neg hup]
  dsimp only
  rw [lstat_entry (reach_self hcur) hc]
  split
  · rename_i hl
    cases hlink _ (lookup_ok.mp hl)
  · rfl

theorem joinNames_link {abs : Bool} {target : List Name} (hcur : fs.Direct cur)
    (hn : fs.node (cur ++ [c]) = some (.link abs target)) (rest : List Name) :
    fs.joinNames links call cur (c :: rest) seen =
      match Assoc.find (cur ++ [c]) seen with
      | some (some p) => fs.joinNames links call p rest seen
      | some none => some ⟨cur ++ [c] ++ rest, false, seen⟩
      | none =>
        match call (base abs cur) target (Dict.set (cur ++ [c]) none seen) with
        | none => none
        | some ⟨p, true, seen⟩ =>
          fs.joinNames links call p rest (Dict.set (cur ++ [c]) (some p) seen)
        | some ⟨p, false, seen⟩ => some ⟨p ++ rest, false, seen⟩ := by
  obtain ⟨hc, -⟩ := proper_of_node hn
  obtain ⟨hstay, hup⟩ := not_or.mp hc
  rw [joinNames, if_neg hstay, if_neg hup]
  dsimp only
  rw [lstat_entry (reach_self hcur) hc, lookup_node hn]

end

/-! ## The loop, where the kernel gets -/

section
variable {cur p q : Path} {cs : List Name} {k d : Nat} {seen : Seen}

/-- **Python follows the kernel.** The induction is on the walk: a link met again while its
target is followed would be as far from its end as from itself. -/
theorem Walks.joinNames (h : fs.Walks cur cs p k) (hcur : fs.Direct cur) (hs : fs.Sound seen)
    (ha : fs.Ahead seen k) (hk : k ≤ d) (rest : List Name) : ∃ seen',
      fs.joinNames links (fs.joinRealpath links d) cur (cs ++ rest) seen =
        fs.joinNames links (fs.joinRealpath links d) p rest seen' ∧
      fs.Sound seen' ∧ Closes seen seen' := by
  induction h generalizing seen d rest with
  | nil => exact ⟨seen, rfl, hs, fun _ hf => hf⟩
  | stay _ hc _ ih => rw [List.cons_append, joinNames_stay hc]; exact ih hcur hs ha hk rest
  | up _ _ ih => rw [List.cons_append, joinNames_up]; exact ih (direct_up hcur) hs ha hk rest
  | @name cur _ c _ _ _ hn hx _ ih =>
    have hlink : ∀ y, fs.node (cur ++ [c]) = some y → y.isLink = false := by
      intro y hy
      rw [hn] at hy
      cases hy
      exact hx
    rw [List.cons_append, joinNames_name hcur (proper_of_node hn).1 hlink]
    exact ih ⟨_, hn, hx⟩ hs ha hk rest
  | @link cur q p c cs j k abs target hn ht hcs iht ih =>
    have hl : fs.LeadsTo (cur ++ [c]) q j :=
      ⟨abs, target, hn, by rwa [List.dropLast_concat]⟩
    have hq : fs.Direct q := ht.direct (direct_base hn)
    rw [List.cons_append, joinNames_link hcur hn]
    cases hf : Assoc.find (cur ++ [c]) seen with
    | some e =>
      cases e with
      | some q' =>
        rw [hs _ _ _ _ hl hf]
        exact ih hq hs (ha.mono (by omega)) (by omega) rest
      | none =>
        have := ha _ _ _ hl hf
        omega
    | none =>
      obtain ⟨d, rfl⟩ : ∃ d', d = d' + 1 := ⟨d - 1, by omega⟩
      obtain ⟨seen₁, hcall, hs₁, hc₁⟩ := iht (direct_base hn) (hs.enter (cur ++ [c]))
        ((ha.mono (by omega)).enter hl) (d := d) (by omega) []
      have hc := hc₁.leave (p := q)
      obtain ⟨seen₂, hrest, hs₂, hc₂⟩ := ih hq (hs₁.leave hl)
        ((ha.mono (by omega)).closes hc) (d := d + 1) (by omega) rest
      rw [List.append_nil] at hcall
      dsimp only
      rw [joinRealpath, hcall]
      exact ⟨seen₂, hrest, hs₂, fun l hl => hc l (hc₂ l hl)⟩

end

/-! ## Resolved paths -/

section
variable {depth : Nat} {p q : Path} {c : Name}

theorem resolve_names (h : fs.resolve links depth p = .ok q) (hc : c ∈ q) : ¬ c.Special := by
  unfold resolve realpath at h
  cases hr : fs.joinRealpath links depth [] p [] with
  | none => rw [hr] at h; cases h
  | some r =>
    rw [hr] at h
    dsimp only [Option.map_some] at h
    split at h
    · cases h
    · cases h; exact normpath_names hc

theorem resolve_joined {r : Joined} (hr : fs.joinRealpath links depth [] p [] = some r)
    (hp : normpath r.path = r.path) (hs : fs.stat links r.path ≠ .error .loop) :
    fs.resolve links depth p = .ok r.path := by
  rw [resolve, realpath, hr, Option.map_some]
  dsimp only
  rw [hp, if_neg hs]

/-- Behind a path the kernel follows, the loop goes on from where it leads. -/
theorem joinRealpath_reach (h : fs.reach links p = .ok q) (hd : links < depth)
    (rest : List Name) : ∃ seen d, fs.joinRealpath links depth [] (p ++ rest) [] =
      fs.joinNames links (fs.joinRealpath links d) q rest seen := by
  obtain ⟨k, hk, hkn⟩ := reach_iff.mp h
  obtain ⟨d, rfl⟩ : ∃ d, depth = d + 1 := ⟨depth - 1, by omega⟩
  have hs : fs.Sound [] := by
    intro l p q j _ hf
    cases hf
  have ha : fs.Ahead [] k := by
    intro l p j _ hf
    cases hf
  obtain ⟨seen, hj, -⟩ := hk.joinNames direct_root hs ha (by omega : k ≤ d) rest
  exact ⟨seen, d, hj⟩

theorem normpath_direct (h : fs.Direct q) : normpath q = q :=
  normpath_self fun _ hc => (h.proper hc).1

/-- **A path the kernel follows** resolves to where it leads. -/
theorem resolve_reach (h : fs.reach links p = .ok q) (hd : links < depth) :
    fs.resolve links depth p = .ok q := by
  obtain ⟨seen, d, hj⟩ := joinRealpath_reach h hd []
  have hq := reach_direct h
  obtain ⟨x, hx, -⟩ := id hq
  have hstat := stat_node (reach_self (n := links) hq) hx
  rw [List.append_nil] at hj
  exact resolve_joined hj (normpath_direct hq) (by rw [hstat]; intro he; cases he)

/-- **A name behind it** that is no link is kept, there or not. -/
theorem resolve_entry (h : fs.reach links p = .ok q) (hd : links < depth) (hc : ¬ c.Special)
    (hlink : ∀ x, fs.node (q ++ [c]) = some x → x.isLink = false) :
    fs.resolve links depth (p ++ [c]) = .ok (q ++ [c]) := by
  obtain ⟨seen, d, hj⟩ := joinRealpath_reach h hd [c]
  have hq := reach_direct h
  rw [joinNames_name hq hc hlink] at hj
  have hnorm : normpath (q ++ [c]) = q ++ [c] := by
    obtain ⟨hstay, hup⟩ := not_or.mp hc
    rw [normpath_concat, if_neg hstay, if_neg hup, normpath_direct hq]
  exact resolve_joined hj hnorm (stat_entry (n := links) hq hc hlink ▸ lookup_ne q c)

end
end FileSys
end EbpfDemo.Core
