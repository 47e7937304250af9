import Mathlib.Data.List.Basic
import Mathlib.Data.List.Induction
import EbpfDemo.Core.Assoc

/-!
# File systems with symbolic links

A file system is the list of its nodes by path; the fields say that names are proper, that
the root and the parent of a node are directories, and that a link's target has no doubled
slash. `walk` follows a path as the kernel does: a name is looked up in a directory, `.` and
`..` are taken at the place reached so far, and a symbolic link is replaced by its target, at
most `n` times in all.

`Walks` is the same without a bound: the target of a link is a walk of its own, and the
number counts the links.

* `walk_iff`: the kernel gets where `Walks` says, if the links suffice;
* `Walks.unique`: so the place and the number of links are determined;
* `walks_direct`: the path of a node that is no link leads to it through no link.
-/
namespace EbpfDemo.Core

abbrev Name := List Nat
abbrev Path := List Name

def Name.dot : Name := [0x2E]
def Name.dotdot : Name := [0x2E, 0x2E]

/-- No name of an entry; the empty name stands between two slashes or behind the last. -/
def Name.Special (c : Name) : Prop := (c = [] ∨ c = .dot) ∨ c = .dotdot

instance (c : Name) : Decidable c.Special := inferInstanceAs (Decidable (_ ∨ _))

/-- The name of a directory entry. -/
def Name.Proper (c : Name) : Prop := ¬ c.Special ∧ 0x2F ∉ c

instance (c : Name) : Decidable c.Proper := inferInstanceAs (Decidable (_ ∧ _))

inductive Node where
  | dir
  | file (executable : Bool)
  | link (absolute : Bool) (target : List Name)
  | special
  deriving DecidableEq

namespace Node

def isLink : Node → Bool
  | .link .. => true
  | _ => false

/-- The names in a link's target; behind a last slash there is an empty one. -/
def target : Node → List Name
  | .link _ target => target
  | _ => []

end Node

structure FileSys where
  nodes : List (Path × Node)
  nodup : (Assoc.keys nodes).Nodup
  proper : ∀ e ∈ nodes, ∀ c ∈ e.1, c.Proper
  root : Assoc.find [] nodes = some .dir
  parent : ∀ e ∈ nodes, e.1 ≠ [] → Assoc.find e.1.dropLast nodes = some .dir
  slashes : ∀ e ∈ nodes, [] ∉ e.2.target.dropLast

/-- Why the kernel does not follow a path: `ENOENT`, `ENOTDIR`, `ELOOP`. -/
inductive Errno where
  | noEntry
  | notDir
  | loop
  deriving DecidableEq

namespace FileSys

variable (fs : FileSys)

def node (p : Path) : Option Node := Assoc.find p fs.nodes

/-- How far a walk gets without a link. -/
inductive Advance where
  | done (p : Path)
  | link (base : Path) (rest : List Name)

/-- Where a link's target begins. -/
def base (absolute : Bool) (cur : Path) : Path := if absolute then [] else cur

def advance (cur : Path) : List Name → Except Errno Advance
  | [] => .ok (.done cur)
  | c :: cs =>
    if fs.node cur ≠ some .dir then .error .notDir
    else if c = [] ∨ c = .dot then advance cur cs
    else if c = .dotdot then advance cur.dropLast cs
    else
      match fs.node (cur ++ [c]) with
      | none => .error .noEntry
      | some (.link abs target) => .ok (.link (base abs cur) (target ++ cs))
      | some _ => advance (cur ++ [c]) cs

/-- Follow the names from `cur`, through at most `n` links; also what is left of
`n`. -/
def walk : Nat → Path → List Name → Except Errno (Path × Nat)
  | 0, cur, cs =>
    match fs.advance cur cs with
    | .error e => .error e
    | .ok (.done p) => .ok (p, 0)
    | .ok (.link ..) => .error .loop
  | n + 1, cur, cs =>
    match fs.advance cur cs with
    | .error e => .error e
    | .ok (.done p) => .ok (p, n + 1)
    | .ok (.link base rest) => walk n base rest

/-- The node that an absolute path leads to. -/
def reach (n : Nat) (p : Path) : Except Errno Path := (fs.walk n [] p).map Prod.fst

/-- `stat(2)` -/
def stat (n : Nat) (p : Path) : Except Errno Node :=
  match fs.reach n p with
  | .error e => .error e
  | .ok q => (fs.node q).elim (.error .noEntry) .ok

/-- The entry of a directory. -/
def lookup (cur : Path) (c : Name) : Except Errno Node :=
  if fs.node cur ≠ some .dir then .error .notDir
  else (fs.node (cur ++ [c])).elim (.error .noEntry) .ok

/-- `lstat(2)`: a link at the end is not followed. -/
def lstat (n : Nat) (p : Path) : Except Errno Node :=
  match p.getLast? with
  | none => fs.stat n p
  | some c =>
    if c.Special then fs.stat n p
    else
      match fs.reach n p.dropLast with
      | .error e => .error e
      | .ok cur => fs.lookup cur c

/-- The names in a directory. -/
def listdir (n : Nat) (p : Path) : Except Errno (List Name) :=
  match fs.reach n p with
  | .error e => .error e
  | .ok q =>
    if fs.node q ≠ some .dir then .error .notDir
    else .ok (fs.nodes.filterMap fun e => if e.1.dropLast = q then e.1.getLast? else none)

/-- From `cur` the names lead to a place, through so many links. -/
inductive Walks : Path → List Name → Path → Nat → Prop where
  | nil {cur : Path} : Walks cur [] cur 0
  | stay {cur p : Path} {c : Name} {cs : List Name} {k : Nat} :
    fs.node cur = some .dir → c = [] ∨ c = .dot → Walks cur cs p k → Walks cur (c :: cs) p k
  | up {cur p : Path} {cs : List Name} {k : Nat} :
    fs.node cur = some .dir → Walks cur.dropLast cs p k → Walks cur (.dotdot :: cs) p k
  | name {cur p : Path} {c : Name} {cs : List Name} {k : Nat} {x : Node} :
    fs.node (cur ++ [c]) = some x → x.isLink = false → Walks (cur ++ [c]) cs p k →
    Walks cur (c :: cs) p k
  | link {cur q p : Path} {c : Name} {cs : List Name} {j k : Nat} {abs : Bool}
      {target : List Name} :
    fs.node (cur ++ [c]) = some (.link abs target) → Walks (base abs cur) target q j →
    Walks q cs p k → Walks cur (c :: cs) p (j + k + 1)

/-- A node that is no link. -/
def Direct (p : Path) : Prop := ∃ x, fs.node p = some x ∧ x.isLink = false

variable {fs}

/-! ## Nodes -/

section
variable {p : Path} {c : Name} {x : Node}

theorem node_mem (h : fs.node p = some x) : (p, x) ∈ fs.nodes := Assoc.mem_of_find h

theorem proper_of_node (h : fs.node (p ++ [c]) = some x) : c.Proper :=
  fs.proper _ (node_mem h) c (by simp)

theorem parent_of_node (h : fs.node (p ++ [c]) = some x) : fs.node p = some .dir := by
  have := fs.parent _ (node_mem h) (by simp)
  rwa [List.dropLast_concat] at this

theorem direct_root : fs.Direct [] := ⟨.dir, fs.root, rfl⟩

theorem direct_dir (h : fs.node p = some .dir) : fs.Direct p := ⟨.dir, h, rfl⟩

theorem direct_base {abs : Bool} (h : fs.node (p ++ [c]) = some x) : fs.Direct (base abs p) := by
  cases abs
  · exact direct_dir (parent_of_node h)
  · exact direct_root

theorem direct_up (h : fs.Direct p) : fs.Direct p.dropLast := by
  rcases List.eq_nil_or_concat p with rfl | ⟨q, c, rfl⟩
  · exact direct_root
  · obtain ⟨x, hx, -⟩ := h
    rw [List.concat_eq_append] at hx ⊢
    rw [List.dropLast_concat]
    exact direct_dir (parent_of_node hx)

theorem Direct.proper (h : fs.Direct p) (hc : c ∈ p) : c.Proper := by
  obtain ⟨x, hx, -⟩ := h
  exact fs.proper _ (node_mem hx) c hc

theorem lookup_node (h : fs.node (p ++ [c]) = some x) : fs.lookup p c = .ok x := by
  rw [lookup, if_neg (not_not.mpr (parent_of_node h)), h]; rfl

theorem lookup_ne (p : Path) (c : Name) : fs.lookup p c ≠ .error .loop := by
  intro h
  unfold lookup at h
  cases hn : fs.node (p ++ [c]) <;> rw [hn] at h <;> split at h <;> cases h

theorem lookup_ok : fs.lookup p c = .ok x ↔ fs.node (p ++ [c]) = some x := by
  refine ⟨fun h => ?_, lookup_node⟩
  unfold lookup at h
  split at h
  · cases h
  · cases hn : fs.node (p ++ [c]) with
    | none => rw [hn] at h; cases h
    | some y => rw [hn] at h; cases h; rfl

end

/-! ## One name of a walk -/

section
variable {cur : Path} {c : Name}

theorem walk_nil (n : Nat) (cur : Path) : fs.walk n cur [] = .ok (cur, n) := by
  cases n <;> rfl

theorem walk_congr {cur' : Path} {cs cs' : List Name}
    (h : fs.advance cur cs = fs.advance cur' cs') (n : Nat) :
    fs.walk n cur cs = fs.walk n cur' cs' := by
  cases n <;> rw [walk, walk, h]

theorem walk_stay (h : fs.node cur = some .dir) (hc : c = [] ∨ c = .dot) (n : Nat)
    (cs : List Name) : fs.walk n cur (c :: cs) = fs.walk n cur cs := by
  apply walk_congr
  rw [advance, if_neg (not_not.mpr h), if_pos hc]

theorem walk_up (h : fs.node cur = some .dir) (n : Nat) (cs : List Name) :
    fs.walk n cur (.dotdot :: cs) = fs.walk n cur.dropLast cs := by
  apply walk_congr
  rw [advance, if_neg (not_not.mpr h), if_neg (by decide), if_pos rfl]

/-- An entry of any kind. -/
theorem advance_entry {x : Node} (h : fs.node (cur ++ [c]) = some x) (cs : List Name) :
    fs.advance cur (c :: cs) =
      match some x with
      | none => .error .noEntry
      | some (.link abs target) => .ok (.link (base abs cur) (target ++ cs))
      | some _ => fs.advance (cur ++ [c]) cs := by
  obtain ⟨hproper, -⟩ := proper_of_node h
  rw [advance, if_neg (not_not.mpr (parent_of_node h)), if_neg fun e => hproper (.inl e),
    if_neg fun e => hproper (.inr e), h]

theorem walk_name {x : Node} (h : fs.node (cur ++ [c]) = some x) (hx : x.isLink = false) (n : Nat)
    (cs : List Name) : fs.walk n cur (c :: cs) = fs.walk n (cur ++ [c]) cs := by
  apply walk_congr
  rw [advance_entry h]
  cases x with
  | link abs target => cases hx
  | dir => rfl
  | file b => rfl
  | special => rfl

theorem walk_link {abs : Bool} {target : List Name}
    (h : fs.node (cur ++ [c]) = some (.link abs target)) (n : Nat) (cs : List Name) :
    fs.walk (n + 1) cur (c :: cs) = fs.walk n (base abs cur) (target ++ cs) := by
  rw [walk, advance_entry h]

end

/-! ## Where a walk ends -/

section
variable {cur p q : Path} {as bs cs : List Name} {i j k : Nat}

theorem Walks.append (h : fs.Walks cur as q i) (hq : fs.Walks q bs p j) :
    fs.Walks cur (as ++ bs) p (i + j) := by
  induction h with
  | nil => rwa [Nat.zero_add]
  | stay hdir hc _ ih => exact .stay hdir hc (ih hq)
  | up hdir _ ih => exact .up hdir (ih hq)
  | name hn hx _ ih => exact .name hn hx (ih hq)
  | @link _ _ _ _ _ a b _ _ hn ht _ _ ih =>
    rw [show a + b + 1 + j = a + (b + j) + 1 by omega]
    exact .link hn ht (ih hq)

theorem Walks.split (h : fs.Walks cur (as ++ bs) p k) :
    ∃ q i j, fs.Walks cur as q i ∧ fs.Walks q bs p j ∧ i + j = k := by
  induction as generalizing cur k with
  | nil => exact ⟨cur, 0, k, .nil, h, Nat.zero_add k⟩
  | cons c as ih =>
    cases h with
    | stay hdir hc h =>
      obtain ⟨q, i, j, h1, h2, hk⟩ := ih h
      exact ⟨q, i, j, .stay hdir hc h1, h2, hk⟩
    | up hdir h =>
      obtain ⟨q, i, j, h1, h2, hk⟩ := ih h
      exact ⟨q, i, j, .up hdir h1, h2, hk⟩
    | name hn hx h =>
      obtain ⟨q, i, j, h1, h2, hk⟩ := ih h
      exact ⟨q, i, j, .name hn hx h1, h2, hk⟩
    | link hn ht h =>
      obtain ⟨q, i, j, h1, h2, hk⟩ := ih h
      exact ⟨q, _, j, .link hn ht h1, h2, by omega⟩

/-- The kernel takes a link's target and what follows the link for one path. -/
theorem Walks.walk (h : fs.Walks cur cs p k) (rest : List Name) (n : Nat) :
    fs.walk (n + k) cur (cs ++ rest) = fs.walk n p rest := by
  induction h generalizing rest n with
  | nil => rfl
  | stay hdir hc _ ih => exact (walk_stay hdir hc _ _).trans (ih rest n)
  | up hdir _ ih => exact (walk_up hdir _ _).trans (ih rest n)
  | name hn hx _ ih => exact (walk_name hn hx _ _).trans (ih rest n)
  | @link _ q _ c cs j k abs target hn _ _ iht ih =>
    rw [show n + (j + k + 1) = n + k + j + 1 by omega, List.cons_append, walk_link hn,
      iht, ih]

/-- What a stop of the kernel says about the walk. -/
def Advance.Means (fs : FileSys) (cur : Path) (cs : List Name) : Advance → Prop
  | .done p => fs.Walks cur cs p 0
  | .link base rest => ∀ p k, fs.Walks base rest p k → fs.Walks cur cs p (k + 1)

theorem Advance.Means.mono {cur' : Path} {cs' : List Name} {a : Advance}
    (hw : ∀ p k, fs.Walks cur' cs' p k → fs.Walks cur cs p k) (h : a.Means fs cur' cs') :
    a.Means fs cur cs := by
  cases a with
  | done p => exact hw p 0 h
  | link base rest => exact fun p k hk => hw p (k + 1) (h p k hk)

theorem means_advance {a : Advance} (h : fs.advance cur cs = .ok a) : a.Means fs cur cs := by
  induction cs generalizing cur with
  | nil => cases h; exact .nil
  | cons c cs ih =>
    rw [advance] at h
    split at h
    · cases h
    rename_i hdir
    rw [not_not] at hdir
    split at h
    · rename_i hc
      exact (ih h).mono fun _ _ => .stay hdir hc
    split at h
    · rename_i hc
      subst hc
      exact (ih h).mono fun _ _ => .up hdir
    cases hn : fs.node (cur ++ [c]) with
    | none => rw [hn] at h; cases h
    | some x =>
      rw [hn] at h
      cases x with
      | link abs target =>
        cases h
        intro p k hk
        obtain ⟨q, i, j, ht, hcs, rfl⟩ := hk.split
        exact .link hn ht hcs
      | dir => exact (ih h).mono fun _ _ => .name hn rfl
      | file b => exact (ih h).mono fun _ _ => .name hn rfl
      | special => exact (ih h).mono fun _ _ => .name hn rfl

theorem walks_of_walk {n m : Nat} (h : fs.walk n cur cs = .ok (p, m)) :
    ∃ k, fs.Walks cur cs p k ∧ m + k = n := by
  induction n generalizing cur cs with
  | zero =>
    rw [FileSys.walk] at h
    split at h
    · cases h
    · rename_i ha; cases h; exact ⟨0, means_advance ha, rfl⟩
    · cases h
  | succ n ih =>
    rw [FileSys.walk] at h
    split at h
    · cases h
    · rename_i ha; cases h; exact ⟨0, means_advance ha, rfl⟩
    · rename_i ha
      obtain ⟨k, hk, rfl⟩ := ih h
      exact ⟨k + 1, means_advance ha p k hk, rfl⟩

/-- **Following a path.** -/
theorem walk_iff {n m : Nat} :
    fs.walk n cur cs = .ok (p, m) ↔ ∃ k, fs.Walks cur cs p k ∧ m + k = n := by
  refine ⟨walks_of_walk, ?_⟩
  rintro ⟨k, hk, rfl⟩
  have h := hk.walk [] m
  rwa [List.append_nil, walk_nil] at h

theorem Walks.unique (h : fs.Walks cur cs p k) (h' : fs.Walks cur cs q j) : p = q ∧ k = j := by
  have hp : fs.walk (j + k) cur cs = .ok (p, j) := walk_iff.mpr ⟨k, h, rfl⟩
  have hq : fs.walk (j + k) cur cs = .ok (q, k) := walk_iff.mpr ⟨j, h', Nat.add_comm k j⟩
  have he := hp.symm.trans hq
  simp only [Except.ok.injEq, Prod.mk.injEq] at he
  exact ⟨he.1, he.2.symm⟩

theorem Walks.direct (h : fs.Walks cur cs p k) (hcur : fs.Direct cur) : fs.Direct p := by
  induction h with
  | nil => exact hcur
  | stay _ _ _ ih => exact ih hcur
  | up _ _ ih => exact ih (direct_up hcur)
  | name hn hx _ ih => exact ih ⟨_, hn, hx⟩
  | link hn _ _ iht ih => exact ih (iht (direct_base hn))

theorem walks_direct (h : fs.Direct p) : fs.Walks [] p p 0 := by
  induction p using List.reverseRecOn with
  | nil => exact .nil
  | append_singleton p c ih =>
    obtain ⟨x, hx, hlink⟩ := h
    exact (ih (direct_dir (parent_of_node hx))).append (.name hx hlink .nil)

end

/-! ## Paths from the root -/

section
variable {n k : Nat} {p q cur : Path} {c : Name} {x : Node}

theorem reach_iff : fs.reach n p = .ok q ↔ ∃ k, fs.Walks [] p q k ∧ k ≤ n := by
  unfold reach
  constructor
  · intro h
    cases hw : fs.walk n [] p with
    | error e => rw [hw] at h; cases h
    | ok r =>
      rw [hw] at h
      cases h
      obtain ⟨k, hk, hn⟩ := walks_of_walk hw
      exact ⟨k, hk, by omega⟩
  · rintro ⟨k, hk, hn⟩
    rw [walk_iff.mpr ⟨k, hk, Nat.sub_add_cancel hn⟩]; rfl

theorem reach_direct (h : fs.reach n p = .ok q) : fs.Direct q := by
  obtain ⟨k, hk, -⟩ := reach_iff.mp h
  exact hk.direct direct_root

theorem reach_self (h : fs.Direct p) : fs.reach n p = .ok p :=
  reach_iff.mpr ⟨0, walks_direct h, Nat.zero_le n⟩

/-- An entry that is no link, behind a path. -/
theorem reach_entry (h : fs.reach n p = .ok cur) (hx : fs.node (cur ++ [c]) = some x)
    (hlink : x.isLink = false) : fs.reach n (p ++ [c]) = .ok (cur ++ [c]) := by
  obtain ⟨k, hk, hn⟩ := reach_iff.mp h
  exact reach_iff.mpr ⟨k + 0, hk.append (.name hx hlink .nil), hn⟩

theorem stat_node (h : fs.reach n p = .ok q) (hx : fs.node q = some x) : fs.stat n p = .ok x := by
  rw [stat, h]
  dsimp only
  rw [hx]; rfl

/-- A name that is no link behind a node: there or not. -/
theorem stat_entry (hq : fs.Direct q) (hc : ¬ c.Special)
    (hlink : ∀ x, fs.node (q ++ [c]) = some x → x.isLink = false) :
    fs.stat n (q ++ [c]) = fs.lookup q c := by
  cases hn : fs.node (q ++ [c]) with
  | some x =>
    rw [stat_node (reach_entry (reach_self hq) hn (hlink x hn)) hn, lookup_node hn]
  | none =>
    obtain ⟨hstay, hup⟩ := not_or.mp hc
    have hwalk : fs.walk n [] (q ++ [c]) = fs.walk n q [c] := (walks_direct hq).walk [c] n
    have hadvance : fs.advance q [c] =
        if fs.node q ≠ some .dir then .error .notDir else .error .noEntry := by
      rw [advance, if_neg hstay, if_neg hup, hn]
    unfold stat reach lookup
    rw [hwalk, hn]
    cases n <;> rw [walk, hadvance] <;> split_ifs <;> rfl

theorem lstat_entry (h : fs.reach n p = .ok cur) (hc : ¬ c.Special) :
    fs.lstat n (p ++ [c]) = fs.lookup cur c := by
  rw [lstat, List.getLast?_concat]
  dsimp only
  rw [if_neg hc, List.dropLast_concat, h]

theorem reach_of_listdir {names : List Name} (h : fs.listdir n p = .ok names) :
    ∃ q, fs.reach n p = .ok q := by
  unfold listdir at h
  cases hr : fs.reach n p with
  | error e => rw [hr] at h; cases h
  | ok q => exact ⟨q, rfl⟩

theorem listdir_dir (h : fs.reach n p = .ok q) (hq : fs.node q = some .dir) :
    ∃ names, fs.listdir n p = .ok names := by
  rw [listdir, h]
  dsimp only
  rw [if_neg (not_not.mpr hq)]
  exact ⟨_, rfl⟩

theorem mem_listdir {names : List Name} (h : fs.reach n p = .ok q)
    (hl : fs.listdir n p = .ok names) : c ∈ names ↔ ∃ x, fs.node (q ++ [c]) = some x := by
  unfold listdir at hl
  rw [h] at hl
  dsimp only at hl
  split at hl
  · cases hl
  cases hl
  rw [List.mem_filterMap]
  constructor
  · rintro ⟨e, he, h⟩
    split at h
    · rename_i hd
      have hp : e.1 = q ++ [c] := by
        rw [← hd]; exact (List.dropLast_append_getLast? c h).symm
      exact ⟨e.2, hp ▸ Assoc.find_of_mem fs.nodup he⟩
    · cases h
  · rintro ⟨x, hx⟩
    exact ⟨_, node_mem hx, by simp⟩

end
end FileSys
end EbpfDemo.Core
