import Rpcsx.Lib.ByteString
import Rpcsx.Vfs.Escape

/-!
# The mount table

`vfs::mount`, `vfs::unmount` and `vfs::get`: a tree of virtual directories, some of which have a host
path, and the walk that turns a guest path into a host path. What a host path is resolved to
(`resolve_path`) and where the configuration is kept (`get_config_dir`) are parameters.
-/

namespace Rpcsx.Vfs

open Lib

/-- `vfs_directory`: the host path (empty if nothing is mounted here) and the subdirectories by
name. -/
inductive VfsDirectory
  | mk (path : Bytes) (dirs : List (Bytes × VfsDirectory))

namespace VfsDirectory

def path : VfsDirectory → Bytes
  | .mk path _ => path

def dirs : VfsDirectory → List (Bytes × VfsDirectory)
  | .mk _ dirs => dirs

def find? (dir : VfsDirectory) (name : Bytes) : Option VfsDirectory :=
  (dir.dirs.find? fun x => x.1 = name).map Prod.snd

def modify (f : VfsDirectory → VfsDirectory) : List Bytes → VfsDirectory → VfsDirectory
  | [], dir => f dir
  | name :: names, .mk path dirs =>
    .mk path (dirs.map fun x => (x.1, if x.1 = name then modify f names x.2 else x.2))

def findOrAdd (name : Bytes) (dir : VfsDirectory) : VfsDirectory :=
  match dir.find? name with
  | some _ => dir
  | none =>
    .mk dir.path (dir.dirs.takeWhile (fun x => x.1 < name) ++
      (name, .mk [] []) :: dir.dirs.dropWhile (fun x => x.1 < name))

def setPath (path : Bytes) : VfsDirectory → VfsDirectory
  | .mk _ dirs => .mk path dirs

end VfsDirectory

/-! ## Paths -/

def slash : UInt8 := 0x2F

def dot : Bytes := [0x2E]

def dotdot : Bytes := [0x2E, 0x2E]

/-- The names in a path, each with the part of the path that follows it. The loops of `mount` and
`get` skip slashes, take a name and cut both off, one name a turn; `name` is what was read of the
current one. -/
def fragmentsFrom (name : Bytes) : Bytes → List (Bytes × Bytes)
  | [] => if name = [] then [] else [(name, [])]
  | c :: rest =>
    if c = slash then
      if name = [] then fragmentsFrom [] rest else (name, c :: rest) :: fragmentsFrom [] rest
    else fragmentsFrom (name ++ [c]) rest

def fragments (vpath : Bytes) : List (Bytes × Bytes) := fragmentsFrom [] vpath

def names (vpath : Bytes) : List Bytes := (fragments vpath).map Prod.fst

def isAbsolute (vpath : Bytes) : Bool := vpath.head? = some slash

def merge (separator : Bytes) : List Bytes → Bytes
  | [] => []
  | [s] => s
  | s :: rest => s ++ separator ++ merge separator rest

/-! ## Mounting -/

section Host

variable (resolvePath : Bytes → Bytes) (configDir : Bytes)

def mountedPath (path : Bytes) (isDir : Bool) : Bytes :=
  let resolved := resolvePath path
  let resolved := if resolved = [] then path else resolved
  let resolved :=
    if isDir = true ∧ resolved.getLast? ≠ some slash then resolved ++ [slash] else resolved
  if path = [slash] then [slash] else resolved

/-- The loop of `vfs::mount`: `list` are the names of the directories on the stack above the
root. -/
def mountLoop (path : Bytes) (isDir : Bool) (root : VfsDirectory) (list : List Bytes) : List Bytes → VfsDirectory
  | [] => root.modify (.setPath (mountedPath resolvePath path isDir)) list
  | name :: rest =>
    if name = dot then mountLoop path isDir root list rest
    else if name = dotdot then mountLoop path isDir root list.dropLast rest
    else mountLoop path isDir (root.modify (.findOrAdd name) list) (list ++ [name]) rest

def mount (root : VfsDirectory) (vpath path : Bytes) (isDir : Bool) : VfsDirectory × Bool :=
  if isAbsolute vpath then (mountLoop resolvePath path isDir root [] (names vpath), true)
  else (root, false)

def unmountChildren : List Bytes → VfsDirectory → VfsDirectory
  | [], dir => dir
  | name :: rest, .mk path dirs =>
    .mk path (dirs.flatMap fun x =>
      if x.1 = name then (if rest = [] then [] else [(x.1, unmountChildren rest x.2)]) else [x])

def unmount (root : VfsDirectory) (vpath : Bytes) : VfsDirectory × Bool :=
  if names vpath = [] then (root, false) else (unmountChildren (names vpath) root, true)

/-! ## Looking up -/

/-- What `vfs::get` returns: the host path, what it adds to `out_dir`, and what it puts into
`out_path`. -/
structure GetResult where
  host : Bytes
  outDir : List Bytes := []
  outPath : Option Bytes := none
  deriving DecidableEq

def nowhere : Bytes := configDir ++ ascii "delete_this_dir.../delete_this..."

/-- The walk over the stack, from its top, that looks for the latest valid mount path: the directory
and how many are below it. -/
def latestMount (single : Bool) : List (Option VfsDirectory) → Option (VfsDirectory × Nat)
  | [] => none
  | none :: below => latestMount single below
  | some dir :: below =>
    if dir.path ≠ [] ∨ single = true then some (dir, below.length) else latestMount single below

def finish (list : List (Option VfsDirectory)) (result : List Bytes) (vpath : Bytes) : GetResult :=
  let nameList := result
  let (base, outDir, result) :=
    match latestMount (list.length = 1) list with
    | some (dir, below) =>
      (dir.path, (dir.dirs.filter fun x => x.2.path ≠ []).map Prod.fst, result.drop below)
    | none => ([], [], result)
  let result := if vpath ≠ [] then result ++ [[]] else result
  if base = [] then { host := [], outDir }
  else
    { host := base ++ merge [slash] (result.map (escape · false)), outDir,
      outPath := some (slash :: merge [slash] nameList) }

/-- The loop of `vfs::get`. The stack `list` has its top first; `vpath` is what is left of the
path. -/
def getLoop (list : List (Option VfsDirectory)) (result : List Bytes) (vpath : Bytes) :
    List (Bytes × Bytes) → GetResult
  | [] => finish list result vpath
  | (name, left) :: rest =>
    if name = dot then getLoop list result left rest
    else if name = dotdot then
      -- the parent of the root is the root
      if list.length = 1 then getLoop list result left rest
      else getLoop list.tail result.dropLast left rest
    else
      match (list.head?.join).bind (·.find? name) with
      | none => getLoop (none :: list) (result ++ [name]) left rest
      | some dir =>
        if dir.path = [slash] then
          -- `/host_root` is neither escaped nor processed
          if left.length ≤ 1 then { host := nowhere configDir }
          else
            { host := left.drop 1,
              outPath := some (slash :: merge [slash] (result ++ [name]) ++ left) }
        else getLoop (some dir :: list) (result ++ [name]) left rest

def get (root : VfsDirectory) (vpath : Bytes) : GetResult :=
  if isAbsolute vpath then getLoop configDir [some root] [] vpath (fragments vpath)
  else { host := nowhere configDir }

/-! ## Tables -/

inductive Op
  | mount (vpath path : Bytes) (isDir : Bool)
  | unmount (vpath : Bytes)

def step (root : VfsDirectory) : Op → VfsDirectory
  | .mount vpath path isDir => (mount resolvePath root vpath path isDir).1
  | .unmount vpath => (unmount root vpath).1

def run (ops : List Op) : VfsDirectory := ops.foldl (step resolvePath) (.mk [] [])

end Host

end Rpcsx.Vfs
