import RemoteCache.Lib.Walk
import RemoteCache.Server.LocalServer

/-!
# What the server touches

The full paths that each handler of `CacheAPIHandler` passes to the operating
system, by their components and as far as no call raises an exception. Which
paths they are depends on the tree where a handler looks before it acts.
-/
namespace RemoteCache

namespace LocalServer

/-- `self.command` of a request with a method `do_GET`, `do_PUT` and so on. -/
inductive Command where
  | GET
  | PUT
  | PATCH
  | POST
  | DELETE

/-- A call of a handler, with what it reads of the request. -/
inductive Call where
  | info (path : Str)
  | list (path : Str)
  | data (path : Str)
  | upload (path : Str)
  | create (path : Str) (isDirectory : Bool)
  | delete (path : Str) (isDirectory : Bool)
  | rename (body : Bytes)

/-- The names that `os.listdir` finds in a directory, and all that `shutil.rmtree` finds below
it. -/
structure Listing where
  names : Path → List Str
  below : Path → List (List Str)
  plain : ∀ p, ∀ c ∈ names p, PlainName c
  plainBelow : ∀ p, ∀ cs ∈ below p, ∀ c ∈ cs, PlainName c

/-- `/api/create/` and `/api/rename` -/
def createRoute : Str := ['/', 'a', 'p', 'i', '/', 'c', 'r', 'e', 'a', 't', 'e', '/']
def renameRoute : Str := ['/', 'a', 'p', 'i', '/', 'r', 'e', 'n', 'a', 'm', 'e']

/-- The handler that a request is given to; there is none for a request that is answered with 404,
or with nothing as `urlparse` refuses the target. -/
def dispatch (address : Str → Bool) (command : Command) (target : Str) (body : Bytes) :
    Option Call :=
  let path := Python.urlPath target
  let isDirectory := decide (forDirectory target)
  if Python.urlRefused address target then none
  else match command with
    | .GET =>
      if infoRoute <+: path then some (.info (path.drop 9))
      else if listRoute <+: path then some (.list (path.drop 9))
      else if dataRoute <+: path then some (.data (path.drop 9))
      else none
    | .PUT => if dataRoute <+: path then some (.upload (path.drop 9)) else none
    | .PATCH => if dataRoute <+: path then some (.upload (path.drop 9)) else none
    | .POST =>
      if createRoute <+: path then some (.create (path.drop 11) isDirectory)
      else if path = renameRoute then some (.rename body)
      else none
    | .DELETE => if deleteRoute <+: path then some (.delete (path.drop 11) isDirectory) else none

/-! ### The operating system -/

/-- `os.path.isdir` -/
def isDir (t : Tree Bytes) (cs : List Str) : Bool :=
  t.leads [] cs && t.node (location cs) = some .dir

/-- `os.makedirs`: the directory and whatever is missing on the way. -/
def makedirs (t : Tree Bytes) (cs : List Str) : List (List Str) := cs :: t.missing cs

/-- `if not os.path.exists(directory): os.makedirs(directory, exist_ok=True)` -/
def ensureDirectory (t : Tree Bytes) (directory : List Str) : List (List Str) :=
  directory :: if t.leads [] directory then [] else makedirs t directory

/-! ### Handlers -/

variable (rootDir : Str)

/-- `full_path` -/
def fullNames (path : Str) : List Str := components (fullPath rootDir path)

/-- `os.path.dirname(full_path)` -/
def parentNames (path : Str) : List Str := components (Python.dirname (fullPath rootDir path))

/-- `_get_file_info`, which `_handle_info_request` calls. -/
def infoAccesses (path : Str) : List (List Str) := [fullNames rootDir path]

/-- `_handle_list_request` -/
def listAccesses (os : Listing) (t : Tree Bytes) (path : Str) : List (List Str) :=
  let full := fullNames rootDir path
  full :: if isDir t full then
    (os.names (location full)).flatMap fun name => infoAccesses rootDir (joinPath path name)
  else []

/-- `_handle_data_request` -/
def dataAccesses (path : Str) : List (List Str) := [fullNames rootDir path]

/-- `_handle_data_upload` -/
def uploadAccesses (t : Tree Bytes) (path : Str) : List (List Str) :=
  ensureDirectory t (parentNames rootDir path) ++ [fullNames rootDir path]

/-- `_handle_create_request` -/
def createAccesses (t : Tree Bytes) (path : Str) (isDirectory : Bool) : List (List Str) :=
  if isDirectory then makedirs t (fullNames rootDir path)
  else ensureDirectory t (parentNames rootDir path) ++ [fullNames rootDir path]

/-- `_handle_delete_request` -/
def deleteAccesses (os : Listing) (t : Tree Bytes) (path : Str) (isDirectory : Bool) :
    List (List Str) :=
  let full := fullNames rootDir path
  full :: if isDirectory && isDir t full then (os.below (location full)).map (full ++ ·) else []

/-- `_handle_rename_request`, where `loads` gives the two paths of a body if it is a JSON object
with strings for them, a missing one as the empty string. -/
def renameAccesses (loads : Bytes → Option (Str × Str)) (t : Tree Bytes) (body : Bytes) :
    List (List Str) :=
  match loads body with
  | none => []
  | some (oldPath, newPath) =>
    if oldPath = [] ∨ newPath = [] then []
    else
      let old := fullNames rootDir oldPath
      old :: if t.leads [] old then
        ensureDirectory t (parentNames rootDir newPath) ++ [old, fullNames rootDir newPath]
      else []

def accesses (os : Listing) (loads : Bytes → Option (Str × Str)) (t : Tree Bytes) :
    Call → List (List Str)
  | .info path => infoAccesses rootDir path
  | .list path => listAccesses rootDir os t path
  | .data path => dataAccesses rootDir path
  | .upload path => uploadAccesses rootDir t path
  | .create path isDirectory => createAccesses rootDir t path isDirectory
  | .delete path isDirectory => deleteAccesses rootDir os t path isDirectory
  | .rename body => renameAccesses rootDir loads t body

end LocalServer

end RemoteCache
