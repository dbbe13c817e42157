import Mathlib
import Htmpfs.Types

/-!
# Path names

`path_t` cuts a string at its slashes; `if_snapshot` reads the prefix
`/.snapshot/$(version)` off a path and `make_path_with_version` puts one on.
-/

namespace Htmpfs

/-- `path_t`: the components, the first of them empty. -/
structure PathT where
  pathname : List Bytes
  deriving DecidableEq, Repr

namespace PathT

/-- The loop of `path_t::path_t`: `cur` is the component being read. -/
def split (cur : Bytes) : Bytes → List Bytes
  | [] => if cur.isEmpty then [] else [cur]
  | c :: rest =>
      if c = slash then
        if cur.isEmpty then split cur rest else cur :: split [] rest
      else split (cur ++ [c]) rest

/-- `path_t::path_t` -/
def ofString (givenPath : Bytes) : PathT := ⟨[] :: split [] givenPath⟩

/-- `path_t::to_string` -/
def toString (p : PathT) : Bytes :=
  p.pathname.flatMap fun i => if i.isEmpty then [] else slash :: i

def size (p : PathT) : ℕ := p.pathname.length

/-- `*last()`, undefined on a path without components. -/
def last (p : PathT) : Except Exit Bytes :=
  match p.pathname.getLast? with
  | some name => pure name
  | none => throw .undefined

/-- `path_t::pop_end` -/
def popEnd (p : PathT) : Except Exit (Bytes × PathT) := do
  let ret ← p.last
  pure (ret, ⟨p.pathname.dropLast⟩)

end PathT

/-- `if_snapshot(path, output)` for an empty `output`: the version and `output`. -/
def ifSnapshot (path : Bytes) : Except Exit (SnapshotVer × Bytes) :=
  -- ignore root
  if path = [slash] then pure (curModifiableVer, path)
  else
    match (PathT.ofString path).pathname.tail with
    | [] => pure (curModifiableVer, [])
    | head :: rest =>
        if head = snapshotEntry then
          match rest with
          -- if no version provided
          | [] => throw (.htmpfs .invalidDentryName)
          | version :: rest => pure (version, rest.flatMap fun i => slash :: i)
        else pure (curModifiableVer, path)

/-- `make_path_with_version` -/
def makePathWithVersion (path : Bytes) (version : SnapshotVer) : Bytes :=
  if version = curModifiableVer then path
  else slash :: snapshotEntry ++ slash :: version ++ path

end Htmpfs
