import RemoteCache.Lib.Files
import RemoteCache.Lib.Python
import RemoteCache.Lib.Tree

/-!
# The bundled HTTP server

The handlers of `CacheAPIHandler` for requests by `GET`, `PUT`, `PATCH` and
`DELETE`. A handler that changes data maps the tree below the top of the file
system to the tree afterwards and the status it sends; its clients ignore the
body. A response to `GET` has headers and, unless it is a JSON text, a body.
-/
namespace RemoteCache

inductive Method where
  | GET
  | PUT
  | PATCH
  | DELETE
  deriving DecidableEq

/-- The target is `self.path`. Header names are compared without regard to case. -/
structure Request where
  method : Method
  target : Str
  headers : List (Str × Str)
  body : Bytes

def Request.header (req : Request) (name : Str) : Option Str :=
  (req.headers.find? fun h => Python.lower h.1 = Python.lower name).map (·.2)

/-- The body is absent where it is a JSON text, which is left out. -/
structure Response where
  status : ℕ
  headers : List (Str × Str)
  body : Option Bytes

def Response.header (resp : Response) (name : Str) : Option Str :=
  (resp.headers.find? fun h => Python.lower h.1 = Python.lower name).map (·.2)

theorem Response.header_cons (status : ℕ) (name' value : Str) (headers : List (Str × Str))
    (body : Option Bytes) (name : Str) :
    (⟨status, (name', value) :: headers, body⟩ : Response).header name =
      if Python.lower name' = Python.lower name then some value
      else (⟨status, headers, body⟩ : Response).header name := by
  by_cases same : Python.lower name' = Python.lower name
  · simp [header, same]
  · simp [header, same]

namespace LocalServer

/-- `/api/info/`, `/api/list/`, `/api/data/` and `/api/delete/` -/
def infoRoute : Str := ['/', 'a', 'p', 'i', '/', 'i', 'n', 'f', 'o', '/']
def listRoute : Str := ['/', 'a', 'p', 'i', '/', 'l', 'i', 's', 't', '/']
def dataRoute : Str := ['/', 'a', 'p', 'i', '/', 'd', 'a', 't', 'a', '/']
def deleteRoute : Str := ['/', 'a', 'p', 'i', '/', 'd', 'e', 'l', 'e', 't', 'e', '/']

variable (rootDir : Str)

/-! ### The operating system -/

/-- The path may be that of a file: it ends neither in a slash nor in `.` or `..`. -/
def namesFile (p : Str) : Bool :=
  let last := p.rtakeWhile (· ≠ '/')
  last ≠ [] && last ≠ ['.'] && last ≠ ['.', '.']

/-- What is at a path. -/
def stat (t : Tree Bytes) (p : Str) : Option (Inode Bytes) :=
  match t.node (resolve [] p) with
  | some (.file b) => if namesFile p then some (.file b) else none
  | some .dir => some .dir
  | none => none

/-- What a file that is opened without being truncated holds, empty if it is new. -/
def contentAt (t : Tree Bytes) (p : Str) : Bytes :=
  match stat t p with
  | some (.file b) => b
  | _ => .empty

/-- `open(p, 'wb')`, and the data that the file holds in the end. -/
def create (t : Tree Bytes) (p : Str) (b : Bytes) : Option (Tree Bytes) :=
  if namesFile p then t.put? (resolve [] p) (.file b) else none

/-- `if not os.path.exists(directory): os.makedirs(directory, exist_ok=True)`, for the parent
directory of a full path. -/
def ensureParent (t : Tree Bytes) (full : Str) : Option (Tree Bytes) :=
  if (stat t (Python.dirname full)).isSome then some t
  else t.makedirs [] (resolve [] (Python.dirname full))

/-- `self.rfile.read(content_length)`, or nothing where an exception is raised. `read` takes -1 for
everything, and refuses what is less or needs more than 63 bits. -/
def readBody (headers : List (Str × Str)) (body : Bytes) : Option Bytes :=
  let contentLength := (headers.find? fun h =>
    Python.lower h.1 = Python.lower "Content-Length".toList).map (·.2)
  match Python.int (contentLength.getD ['0']) with
  | none => none
  | some length =>
    if 0 ≤ length ∧ length < 2 ^ 63 then some (body.slice 0 length.toNat)
    else if length = -1 then some body
    else none

/-! ### Handlers -/

def fullPath (path : Str) : Str := joinPath rootDir (path.dropWhile (· = '/'))

/-- `_send_json_response` and `_send_error_response` -/
def sendJson (code : ℕ) : Response :=
  ⟨code, [("Content-Type".toList, "application/json".toList)], none⟩

/-- `_handle_info_request` -/
def handleInfoRequest (t : Tree Bytes) (path : Str) : Response :=
  sendJson (if (stat t (fullPath rootDir path)).isSome then 200 else 404)

/-- `_handle_list_request` -/
def handleListRequest (t : Tree Bytes) (path : Str) : Response :=
  match stat t (fullPath rootDir path) with
  | some .dir => sendJson 200
  | some (.file _) => sendJson 404
  | none => sendJson 404

/-- `bytes=` -/
def bytesUnit : Str := ['b', 'y', 't', 'e', 's', '=']

/-- The first and the last byte that are asked for, the last one if it is given; nothing where
`int` raises an exception. -/
def parseRange (range : Str) : Option (ℤ × Option ℤ) :=
  let ranges := range.splitOn '-'
  let first := ranges.headD []
  let last := ranges.getD 1 []
  match if first = [] then some 0 else Python.int first,
    if last = [] then some none else (Python.int last).map some with
  | some start, some end_ => some (start, end_)
  | _, _ => none

/-- How many bytes of a file the handler means to send. -/
def contentLength (b : Bytes) (start : ℤ) (end_ : Option ℤ) : ℤ :=
  min (end_.getD (b.size - 1)) (b.size - 1) - start + 1

/-- The header and the body of an answer with a range of a file. -/
def sendRange (contentType : List (Str × Str)) (b : Bytes) (start : ℤ) (end_ : Option ℤ) :
    Response :=
  let last := min (end_.getD (b.size - 1)) (b.size - 1)
  let length := contentLength b start end_
  -- A range starts at 0 or more, as its dashes have been taken out.
  let rest := b.slice start.toNat (b.size - start.toNat)
  { status := 206
    headers := ("Content-Range".toList, "bytes ".toList ++ Python.str start ++ '-' ::
        (Python.str last ++ '/' :: Nat.toDigits 10 b.size)) ::
      ("Content-Length".toList, Python.str length) :: contentType
    -- `read` takes -1 for everything, and refuses what is less.
    body := some (if 0 ≤ length then rest.slice 0 length.toNat
      else if length = -1 then rest else .empty) }

/-- What is sent for a range: where `read` refuses the length, the exception is answered after the
header. -/
def sentRange (contentType : List (Str × Str)) (b : Bytes) (start : ℤ) (end_ : Option ℤ) :
    List Response :=
  sendRange contentType b start end_ ::
    if contentLength b start end_ < -1 then [sendJson 500] else []

/-- `_handle_data_request`, with `mimetypes.guess_type`: all that it sends, each answer with its
status line. -/
def sentDataRequest (guessType : Str → Option Str) (t : Tree Bytes) (path : Str)
    (req : Request) : List Response :=
  let full := fullPath rootDir path
  let contentType := ((guessType full).map fun type => ("Content-Type".toList, type)).toList
  match stat t full with
  | some (.file b) =>
    let range := Python.lower (Python.strip ((req.header "Range".toList).getD []))
    if bytesUnit <+: range then
      match parseRange (range.drop 6) with
      | none => [sendJson 500]
      | some (start, end_) => sentRange contentType b start end_
    else [⟨200, contentType ++ [("Content-Length".toList, Nat.toDigits 10 b.size)], some b⟩]
  | some .dir => [sendJson 404]
  | none => [sendJson 404]

/-- The answer that a client takes: the first one. -/
def handleDataRequest (guessType : Str → Option Str) (t : Tree Bytes) (path : Str)
    (req : Request) : Response :=
  (sentDataRequest rootDir guessType t path req).headD (sendJson 500)

/-- `int(header.split(' ')[1].split('-')[0])` -/
def rangeStart (range : Str) : Option ℤ :=
  ((range.splitOn ' ')[1]?).bind fun part => Python.int ((part.splitOn '-').headD [])

/-- `_handle_data_upload`. Every exception ends in a status 500. -/
def handleDataUpload (t : Tree Bytes) (path : Str) (req : Request) : Tree Bytes × ℕ :=
  let full := fullPath rootDir path
  match ensureParent t full with
  | none => (t, 500)
  | some t =>
    match readBody req.headers req.body with
    | none => (t, 500)
    | some data =>
      match if req.method = .PATCH then req.header "Content-Range".toList else none with
      | some range =>
        match rangeStart range with
        | none => (t, 500)
        | some start =>
          let old := contentAt t full
          -- The file is opened before `seek` refuses a start.
          let fits := 0 ≤ start ∧ start < 2 ^ 63
          match create t full (if fits then old.write data start.toNat else old) with
          | none => (t, 500)
          | some t => (t, if fits then 204 else 500)
      | none =>
        match create t full data with
        | none => (t, 500)
        | some t => (t, if req.method = .PUT then 201 else 200)

/-- `directory=true` in the query -/
def forDirectory (target : Str) : Prop :=
  (Python.queryValue (Python.urlQuery target) "directory".toList).map Python.lower =
    some "true".toList

instance (target : Str) : Decidable (forDirectory target) := inferInstanceAs (Decidable (_ = _))

/-- `_handle_delete_request` -/
def handleDeleteRequest (t : Tree Bytes) (path : Str) (req : Request) : Tree Bytes × ℕ :=
  let full := fullPath rootDir path
  match stat t full with
  | none => (t, 404)
  | some .dir =>
    if forDirectory req.target then
      (t.rmtree (resolve [] full), if resolve [] full = [] then 500 else 204)
    else (t, 400)
  | some (.file _) =>
    if forDirectory req.target then (t, 400) else (t.rmtree (resolve [] full), 204)

/-! ### Requests

`urlparse` takes every target below, apart from those for which `Python.urlRefused` holds. -/

def doGET (guessType : Str → Option Str) (t : Tree Bytes) (req : Request) : Response :=
  let path := Python.urlPath req.target
  if infoRoute <+: path then handleInfoRequest rootDir t (path.drop 9)
  else if listRoute <+: path then handleListRequest rootDir t (path.drop 9)
  else if dataRoute <+: path then handleDataRequest rootDir guessType t (path.drop 9) req
  else sendJson 404

def doPUT (t : Tree Bytes) (req : Request) : Tree Bytes × ℕ :=
  let path := Python.urlPath req.target
  if dataRoute <+: path then handleDataUpload rootDir t (path.drop 9) req else (t, 404)

def doPATCH (t : Tree Bytes) (req : Request) : Tree Bytes × ℕ :=
  let path := Python.urlPath req.target
  if dataRoute <+: path then handleDataUpload rootDir t (path.drop 9) req else (t, 404)

def doDELETE (t : Tree Bytes) (req : Request) : Tree Bytes × ℕ :=
  let path := Python.urlPath req.target
  if deleteRoute <+: path then handleDeleteRequest rootDir t (path.drop 11) req
  else (t, 404)

def handle (t : Tree Bytes) (req : Request) : Tree Bytes × ℕ :=
  match req.method with
  -- The content type makes no difference to the status.
  | .GET => (t, (doGET rootDir (fun _ => none) t req).status)
  | .PUT => doPUT rootDir t req
  | .PATCH => doPATCH rootDir t req
  | .DELETE => doDELETE rootDir t req

end LocalServer

end RemoteCache
