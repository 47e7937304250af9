import EbpfDemo.L2Kernel.Counters

/-!
# The poll of read_stat

`read_stat` first collects all keys, at most `MAX_ENTRIES`
of them, and then looks each one up, prints it and deletes it. One `readStep`
is one map call.
-/
namespace EbpfDemo.L3Loader

open EbpfDemo.Core (HashMap)

/-- mirrors src/my_tools/file/read_stat.c:8 -/
def MAX_ENTRIES : Nat := 10240

/-- Before which map call the loop stands; `rest` are the keys still to visit. -/
inductive RPc where
  | idle
  | next
  | look (rest : List UInt32)
  | clear (k : UInt32) (rest : List UInt32)
  deriving DecidableEq

structure RState where
  map : HashMap UInt32 UInt64
  pc : RPc
  pid : UInt32
  pids : List UInt32
  printed : List (UInt32 × UInt64)

/-- mirrors src/my_tools/file/read_stat.c:44-69 -/
def readStep (s : RState) : RState :=
  match s.pc with
  | .idle => { s with pc := .next, pid := 0, pids := [] }
  | .next =>
    match s.map.getNextKey (some s.pid) with
    | none => { s with pc := .look s.pids }
    | some next =>
      if s.pids.length ≥ MAX_ENTRIES then { s with pc := .look s.pids }
      else { s with pids := s.pids ++ [next], pid := next }
  | .look [] => { s with pc := .idle }
  | .look (k :: rest) =>
    match s.map.lookupElem k with
    | none => { s with pc := .look rest }
    | some v => { s with pc := .clear k rest, printed := s.printed ++ [(k, v)] }
  | .clear k rest => { s with pc := .look rest, map := s.map.deleteElem k }

/-- The key that was printed and is not yet deleted. -/
def RState.window (s : RState) : Option UInt32 := match s.pc with
  | .clear k _ => some k
  | _ => none

end EbpfDemo.L3Loader
