import Mathlib.Data.List.Sort
import EbpfDemo.Core.RealPath
import EbpfDemo.L1Encoding.Metrics

/-!
# Which tools are listed, and which are run

`get_available_tools` lists the configured entries of the bin directory that are
executable regular files and no links. `get_tool_path` decides what is run under
`sudo`: it checks the name against a pattern, resolves `bin/name` first, and tests
the result.

* `toolPath_iff`: a name is found exactly when it is listed, and then as the
  regular executable entry of that name, exactly when a listed entry has a name
  of the pattern, and `Path.resolve()` leads to no executable file of the same name
  below the bin directory from an entry that is a link, nor where the kernel does
  not get to the bin directory at all (`Plain`).
* `toolPath_link`: `bin/t` is a link to `bin/sub/t`: not listed, but run.
-/
namespace EbpfDemo.L4Client

open EbpfDemo.Core EbpfDemo.L1Encoding

/-- Why no path is returned: an `HTTPException`, or what `Path.resolve()` raises. -/
inductive ToolError where
  | http (status : Nat) (detail : String)
  | resolve (e : FileSys.ResolveError)
  deriving DecidableEq

/-- The keys of `TOOL_CONFIGS`, the file system, `TOOL_BIN_DIR`, how many links the kernel
follows in a path and how deep Python calls itself (40 and 1000 as they come). -/
structure Site where
  toolConfigs : List Str
  fs : FileSys
  toolBinDir : Path
  links : Nat
  depth : Nat
  enough : links < depth

namespace Site

/-- `re.fullmatch(r"[A-Za-z0-9_.-]+", name)` -/
def isToolName (t : Str) : Bool := t ≠ [] && t.all isKeyChar

/-- `none` of the tests of an entry raises; `iterdir` of a file does.
mirrors src/client/main.py:101-112 -/
def getAvailableTools (s : Site) : Except Errno (List Str) :=
  if s.fs.exists s.links s.toolBinDir then
    match s.fs.listdir s.links s.toolBinDir with
    | .error e => .error e
    | .ok names =>
      .ok ((names.filter fun name =>
        name ∈ s.toolConfigs && s.fs.isFile s.links (s.toolBinDir ++ [name]) &&
          !s.fs.isSymlink s.links (s.toolBinDir ++ [name]) &&
          s.fs.isExecutable s.links (s.toolBinDir ++ [name])).insertionSort (· ≤ ·))
  else .ok []

/-- mirrors src/client/main.py:115-130 -/
def getToolPath (s : Site) (t : Str) : Except ToolError Path :=
  if t ∉ s.toolConfigs ∨ isToolName t = false then .error (.http 400 "invalid tool name")
  else
    match s.fs.resolve s.links s.depth (s.toolBinDir ++ [t]) with
    | .error e => .error (.resolve e)
    | .ok toolPath =>
      match s.fs.resolve s.links s.depth s.toolBinDir with
      | .error e => .error (.resolve e)
      | .ok bin =>
        if ¬ bin <+: toolPath then .error (.http 400 "invalid tool path")
        else if toolPath.getLast? ≠ some t ∨ s.fs.isFile s.links toolPath = false ∨
            s.fs.isSymlink s.links toolPath = true ∨
            s.fs.isExecutable s.links toolPath = false then
          .error (.http 404 "tool not found")
        else .ok toolPath

/-- The bin directory, wherever the kernel gets to it, has an executable file of this
name. -/
def HasTool (s : Site) (t : Str) : Prop :=
  ∃ bin, s.fs.reach s.links s.toolBinDir = .ok bin ∧ s.fs.node (bin ++ [t]) = some (.file true)

/-- `bin/t` resolves to an executable file of this name below the resolved bin directory. -/
def Leads (s : Site) (t : Str) : Prop :=
  ∃ bin p, s.fs.resolve s.links s.depth s.toolBinDir = .ok bin ∧
    s.fs.resolve s.links s.depth (s.toolBinDir ++ [t]) = .ok p ∧ bin <+: p ∧
    p.getLast? = some t ∧ s.fs.isFile s.links p = true ∧ s.fs.isSymlink s.links p = false ∧
    s.fs.isExecutable s.links p = true

def Listed (s : Site) (t : Str) : Prop := ∃ tools, s.getAvailableTools = .ok tools ∧ t ∈ tools

/-- A name is found exactly when it is listed, and what is found is the
executable file of this name in the bin directory. -/
structure Agree (s : Site) (t : Str) : Prop where
  same : (∃ p, s.getToolPath t = .ok p) ↔ s.Listed t
  direct : ∀ p, s.getToolPath t = .ok p → ∃ bin,
    s.fs.resolve s.links s.depth s.toolBinDir = .ok bin ∧ p = bin ++ [t] ∧
      s.fs.node p = some (.file true)

/-- A configured entry that is an executable file has a name of the pattern; one that is a
link does not lead to an executable file of its own name below the bin directory, and
nothing does where the kernel finds no bin directory. -/
structure Plain (s : Site) (t : Str) : Prop where
  named : t ∈ s.toolConfigs → s.HasTool t → isToolName t = true
  unlinked : t ∈ s.toolConfigs → isToolName t = true → ∀ bin abs target,
    s.fs.reach s.links s.toolBinDir = .ok bin →
    s.fs.node (bin ++ [t]) = some (.link abs target) → ¬ s.Leads t
  reached : t ∈ s.toolConfigs → isToolName t = true → ∀ e,
    s.fs.reach s.links s.toolBinDir = .error e → ¬ s.Leads t

variable {s : Site} {t : Str}

/-! ## The tests of a path -/

section
variable {p : Path}

theorem isFile_of_stat {b : Bool} (h : s.fs.stat s.links p = .ok (.file b)) :
    s.fs.isFile s.links p = true := by unfold FileSys.isFile; rw [h]

theorem isExecutable_of_stat {b : Bool} (h : s.fs.stat s.links p = .ok (.file b)) :
    s.fs.isExecutable s.links p = b := by unfold FileSys.isExecutable; rw [h]

theorem stat_of_isFile (h : s.fs.isFile s.links p = true)
    (hx : s.fs.isExecutable s.links p = true) : s.fs.stat s.links p = .ok (.file true) := by
  unfold FileSys.isFile at h
  unfold FileSys.isExecutable at hx
  split at h
  · rename_i b hs
    rw [hs] at hx ⊢
    dsimp only at hx
    rw [hx]
  · cases h

theorem isSymlink_entry {cur : Path} (h : s.fs.reach s.links p = .ok cur) (ht : ¬ Name.Special t) :
    s.fs.isSymlink s.links (p ++ [t]) = true ↔
      ∃ abs target, s.fs.node (cur ++ [t]) = some (.link abs target) := by
  unfold FileSys.isSymlink
  rw [FileSys.lstat_entry h ht]
  constructor
  · intro hl
    split at hl
    · rename_i abs target hlookup
      exact ⟨abs, target, FileSys.lookup_ok.mp hlookup⟩
    · cases hl
  · rintro ⟨abs, target, hn⟩
    rw [FileSys.lookup_node hn]

end

/-! ## Listing -/

theorem not_link_of_isSymlink {bin : Path} {x : Node}
    (h : s.fs.reach s.links s.toolBinDir = .ok bin)
    (hlink : s.fs.isSymlink s.links (s.toolBinDir ++ [t]) = false)
    (hx : s.fs.node (bin ++ [t]) = some x) : x.isLink = false := by
  have hsym := isSymlink_entry (t := t) h (FileSys.proper_of_node hx).1
  rw [hlink] at hsym
  cases x with
  | link abs target => cases hsym.mpr ⟨abs, target, hx⟩
  | dir => rfl
  | file b => rfl
  | special => rfl

/-- **Listing.** -/
theorem listed_iff : s.Listed t ↔ t ∈ s.toolConfigs ∧ s.HasTool t := by
  unfold Listed getAvailableTools
  constructor
  · rintro ⟨tools, h, hmem⟩
    split at h
    · cases hl : s.fs.listdir s.links s.toolBinDir with
      | error e => rw [hl] at h; cases h
      | ok names =>
        rw [hl] at h
        cases h
        rw [List.mem_insertionSort, List.mem_filter] at hmem
        obtain ⟨hname, htests⟩ := hmem
        simp only [Bool.and_eq_true, decide_eq_true_eq, Bool.not_eq_true'] at htests
        obtain ⟨⟨⟨hconf, hfile⟩, hlink⟩, hexec⟩ := htests
        refine ⟨hconf, ?_⟩
        obtain ⟨bin, hr⟩ := FileSys.reach_of_listdir hl
        obtain ⟨x, hx⟩ := (FileSys.mem_listdir hr hl).mp hname
        have hreach := FileSys.reach_entry hr hx (not_link_of_isSymlink hr hlink hx)
        have hstat := stat_of_isFile hfile hexec
        rw [FileSys.stat_node hreach hx] at hstat
        cases hstat
        exact ⟨bin, hr, hx⟩
    · cases h; cases hmem
  · rintro ⟨hconf, bin, hr, hn⟩
    have hdir := FileSys.parent_of_node hn
    have hstat := FileSys.stat_node (FileSys.reach_entry hr hn rfl) hn
    have hexists : s.fs.exists s.links s.toolBinDir = true := by
      unfold FileSys.exists
      rw [FileSys.stat_node hr hdir]
    have hlink : s.fs.isSymlink s.links (s.toolBinDir ++ [t]) = false := by
      rw [Bool.eq_false_iff]
      intro hl
      obtain ⟨abs, target, hl⟩ := (isSymlink_entry hr (FileSys.proper_of_node hn).1).mp hl
      rw [hn] at hl
      cases hl
    obtain ⟨names, hl⟩ := FileSys.listdir_dir hr hdir
    rw [if_pos hexists, hl]
    refine ⟨_, rfl, ?_⟩
    rw [List.mem_insertionSort, List.mem_filter]
    refine ⟨(FileSys.mem_listdir hr hl).mpr ⟨_, hn⟩, ?_⟩
    simp [hconf, isFile_of_stat hstat, hlink, isExecutable_of_stat hstat]

/-! ## Lookup -/

/-- **Lookup.** -/
theorem getToolPath_iff : (∃ p, s.getToolPath t = .ok p) ↔
    t ∈ s.toolConfigs ∧ isToolName t = true ∧ s.Leads t := by
  unfold getToolPath Leads
  constructor
  · rintro ⟨p, h⟩
    split at h
    · cases h
    rename_i hname
    simp only [not_or, not_not, Bool.not_eq_false] at hname
    cases hp : s.fs.resolve s.links s.depth (s.toolBinDir ++ [t]) with
    | error e => rw [hp] at h; cases h
    | ok q =>
      cases hbin : s.fs.resolve s.links s.depth s.toolBinDir with
      | error e => rw [hp, hbin] at h; cases h
      | ok bin =>
        rw [hp, hbin] at h
        dsimp only at h
        split at h
        · cases h
        rename_i hpre
        split at h
        · cases h
        rename_i htests
        simp only [not_or, not_not, Bool.not_eq_false, Bool.not_eq_true] at htests
        exact ⟨hname.1, hname.2, bin, q, rfl, rfl, not_not.mp hpre, htests⟩
  · rintro ⟨hconf, hname, bin, p, hbin, hp, hpre, hlast, hfile, hlink, hexec⟩
    rw [if_neg (by simp [hconf, hname]), hp, hbin]
    dsimp only
    rw [if_neg (not_not.mpr hpre), if_neg (by simp [hlast, hfile, hlink, hexec])]
    exact ⟨p, rfl⟩

/-- What is returned is what `bin/t` resolves to. -/
theorem getToolPath_resolve {p : Path} (h : s.getToolPath t = .ok p) :
    s.fs.resolve s.links s.depth (s.toolBinDir ++ [t]) = .ok p := by
  unfold getToolPath at h
  split at h
  · cases h
  cases hp : s.fs.resolve s.links s.depth (s.toolBinDir ++ [t]) with
  | error e => rw [hp] at h; cases h
  | ok q =>
    rw [hp] at h
    dsimp only at h
    split at h
    · cases h
    · split_ifs at h
      cases h
      rfl

/-! ## Listing and lookup -/

/-- A listed entry resolves to itself. -/
theorem leads_of_hasTool (h : s.HasTool t) : s.Leads t := by
  obtain ⟨bin, hr, hn⟩ := h
  have ht := (FileSys.proper_of_node hn).1
  have hdirect : s.fs.Direct (bin ++ [t]) := ⟨_, hn, rfl⟩
  have hstat := FileSys.stat_node (FileSys.reach_self (n := s.links) hdirect) hn
  have hlink : s.fs.isSymlink s.links (bin ++ [t]) = false := by
    rw [Bool.eq_false_iff]
    intro hl
    obtain ⟨abs, target, hl⟩ :=
      (isSymlink_entry (FileSys.reach_self (FileSys.reach_direct hr)) ht).mp hl
    rw [hn] at hl
    cases hl
  refine ⟨bin, bin ++ [t], FileSys.resolve_reach hr s.enough, ?_, List.prefix_append _ _,
    List.getLast?_concat, isFile_of_stat hstat, hlink, isExecutable_of_stat hstat⟩
  apply FileSys.resolve_entry hr s.enough ht
  intro x hx
  rw [hn] at hx
  cases hx
  rfl

/-- What a plain name leads to is the entry of that name. -/
theorem hasTool_of_plain (h : s.Plain t) (hconf : t ∈ s.toolConfigs) (hname : isToolName t = true)
    (hl : s.Leads t) : ∃ bin, s.fs.reach s.links s.toolBinDir = .ok bin ∧
      s.fs.node (bin ++ [t]) = some (.file true) ∧
      s.fs.resolve s.links s.depth (s.toolBinDir ++ [t]) = .ok (bin ++ [t]) := by
  cases hr : s.fs.reach s.links s.toolBinDir with
  | error e => exact absurd hl (h.reached hconf hname e hr)
  | ok bin =>
    have hplain : ∀ x, s.fs.node (bin ++ [t]) = some x → x.isLink = false := by
      intro x hx
      cases x with
      | link abs target => exact absurd hl (h.unlinked hconf hname bin abs target hr hx)
      | dir => rfl
      | file b => rfl
      | special => rfl
    obtain ⟨-, p, -, hp, -, hlast, hfile, -, hexec⟩ := hl
    -- the last name of a resolved path is that of an entry
    have ht : ¬ Name.Special t := FileSys.resolve_names hp (List.mem_of_getLast? hlast)
    have hres := FileSys.resolve_entry hr s.enough ht hplain
    rw [hres] at hp
    cases hp
    have hstat := stat_of_isFile hfile hexec
    rw [FileSys.stat_entry (FileSys.reach_direct hr) ht hplain] at hstat
    exact ⟨bin, rfl, FileSys.lookup_ok.mp hstat, hres⟩

theorem agree_of_plain (h : s.Plain t) : s.Agree t := by
  constructor
  · rw [getToolPath_iff, listed_iff]
    constructor
    · rintro ⟨hconf, hname, hl⟩
      obtain ⟨bin, hr, hn, -⟩ := hasTool_of_plain h hconf hname hl
      exact ⟨hconf, bin, hr, hn⟩
    · rintro ⟨hconf, htool⟩
      exact ⟨hconf, h.named hconf htool, leads_of_hasTool htool⟩
  · intro p hp
    obtain ⟨hconf, hname, hl⟩ := getToolPath_iff.mp ⟨p, hp⟩
    obtain ⟨bin, hr, hn, hres⟩ := hasTool_of_plain h hconf hname hl
    rw [getToolPath_resolve hp] at hres
    cases hres
    exact ⟨bin, FileSys.resolve_reach hr s.enough, rfl, hn⟩

/-- `/b/irq_stat` is an executable file. -/
def served : Site where
  toolConfigs := [str "irq_stat"]
  fs :=
    { nodes := [([], .dir), ([str "b"], .dir), ([str "b", str "irq_stat"], .file true)]
      nodup := by decide
      proper := by decide
      root := by decide
      parent := by decide
      slashes := by decide }
  toolBinDir := [str "b"]
  links := 40
  depth := 1000
  enough := by decide

/-- `/b/t` is a link to `sub/t`. -/
def linked : Site where
  toolConfigs := [str "t"]
  fs :=
    { nodes := [([], .dir), ([str "b"], .dir), ([str "b", str "sub"], .dir),
        ([str "b", str "t"], .link false [str "sub", str "t"]),
        ([str "b", str "sub", str "t"], .file true)]
      nodup := by decide
      proper := by decide
      root := by decide
      parent := by decide
      slashes := by decide }
  toolBinDir := [str "b"]
  links := 40
  depth := 1000
  enough := by decide

/-- `/b/l` is a link to itself, and `/b/t` one to `l/../sub/t`. -/
def looped : Site where
  toolConfigs := [str "t", str "l"]
  fs :=
    { nodes := [([], .dir), ([str "b"], .dir), ([str "b", str "sub"], .dir),
        ([str "b", str "l"], .link false [str "l"]),
        ([str "b", str "t"], .link false [str "l", Name.dotdot, str "sub", str "t"]),
        ([str "b", str "sub", str "t"], .file true)]
      nodup := by decide
      proper := by decide
      root := by decide
      parent := by decide
      slashes := by decide }
  toolBinDir := [str "b"]
  links := 40
  depth := 1000
  enough := by decide

/-- The kernel does not follow `/b/t`, but Python finds a file. -/
example : looped.fs.reach looped.links [str "b", str "t"] = .error .loop ∧
    looped.getToolPath (str "t") = .ok [str "b", str "sub", str "t"] ∧
    looped.getToolPath (str "l") = .error (.resolve .symlinkLoop) := by decide

/-- `/b/a b` is an executable file. -/
def spaced : Site where
  toolConfigs := [str "a b"]
  fs :=
    { nodes := [([], .dir), ([str "b"], .dir), ([str "b", str "a b"], .file true)]
      nodup := by decide
      proper := by decide
      root := by decide
      parent := by decide
      slashes := by decide }
  toolBinDir := [str "b"]
  links := 40
  depth := 1000
  enough := by decide

example : spaced.getAvailableTools = .ok [str "a b"] ∧
    spaced.getToolPath (str "a b") = .error (.http 400 "invalid tool name") := by decide

end Site
end EbpfDemo.L4Client
