import SourceLayout.Files.Path
import SourceLayout.Files.SystemError
import SourceLayout.Settings.Value

/-! A tree of files and directories, and reading from it. -/

namespace SourceLayout
open Text

abbrev Bytes := List UInt8

/-- A file with its content and its permissions, or a directory. -/
inductive Entry where
  | file (content : Bytes) (mode : Nat)
  | directory
  deriving DecidableEq

namespace Entry

def isFile : Entry → Bool
  | .file .. => true
  | .directory => false

def isDirectory : Entry → Bool
  | .file .. => false
  | .directory => true

end Entry

/-- Files and directories by the names on the way to them from the root, and the working directory,
at which paths begin that do not begin at the root. No name on the way to that leads upwards. -/
structure FileTree where
  entries : List (List String × Entry) := []
  working : List String := []
  working_down : ".." ∉ working := by decide

namespace FileTree

/-- The entry at a place. The working directory is there, and so are those on the way to it. -/
def get? (t : FileTree) (place : List String) : Option Entry :=
  if place.isPrefixOf t.working then some .directory else t.entries.lookup place

def set (t : FileTree) (place : List String) (e : Entry) : FileTree :=
  if t.entries.any (·.1 == place) then
    { t with entries := t.entries.map fun (p, old) => if p == place then (p, e) else (p, old) }
  else { t with entries := t.entries ++ [(place, e)] }

def add (t : FileTree) (place : List String) (e : Entry) : FileTree :=
  let above := (List.range (place.length - 1)).map fun i => place.take (i + 1)
  (above.foldl (fun t p => if (t.get? p).isSome then t else t.set p .directory) t).set place e

def fromRoot (t : FileTree) (p : Path) : Path :=
  if p.absolute then p else ⟨true, t.working ++ p.parts⟩

/-- Goes from a place along names; every place on the way must be a directory. -/
def walk (t : FileTree) (place : List String) : List String → Except SystemError (List String)
  | [] => .ok place
  | part :: rest =>
    match t.get? place with
    | some .directory => walk t (if part == ".." then place.dropLast else place ++ [part]) rest
    | some (.file ..) => .error .notDirectory
    | none => .error .noEntry

def placeOf (t : FileTree) (p : Path) : Except SystemError (List String) :=
  t.walk [] (t.fromRoot p).parts

def directoryOf (t : FileTree) (p : Path) : Except SystemError (List String) := do
  let place ← t.placeOf p
  match t.get? place with
  | some .directory => .ok place
  | some (.file ..) => .error .notDirectory
  | none => .error .noEntry

def entry (t : FileTree) (p : Path) : Except SystemError Entry := do
  match t.get? (← t.placeOf p) with
  | some e => .ok e
  | none => .error .noEntry

def hasFile (t : FileTree) (p : Path) : Bool := (t.entry p).toOption.any Entry.isFile

def hasDirectory (t : FileTree) (p : Path) : Bool := (t.entry p).toOption.any Entry.isDirectory

def contains (t : FileTree) (p : Path) : Bool := (t.entry p).toOption.isSome

def readBytes (t : FileTree) (p : Path) : Except SystemError Bytes := do
  match (← t.entry p) with
  | .file content _ => .ok content
  | .directory => .error .isDirectory

end FileTree

/-- The text of bytes in UTF-8, if they are. -/
def decodeText? (bytes : Bytes) : Option Text :=
  (String.fromUTF8? ⟨bytes.toArray⟩).map String.toList

def encodeText (t : Text) : Bytes := (String.ofList t).toUTF8.data.toList

inductive ReadFailure where
  | system (e : SystemError) (path : Path)
  | undecodable
  deriving DecidableEq, Repr

/-- The failure as it is told. A path is shown in quotes; which bytes are not text is left out. -/
def ReadFailure.message : ReadFailure → String
  | .system e path => e.message ++ ": " ++ String.ofList (Value.quoted path.render.toList)
  | .undecodable => "cannot decode"

namespace FileTree

def readText (t : FileTree) (p : Path) : Except ReadFailure Text :=
  match t.readBytes p with
  | .error e => .error (.system e p)
  | .ok bytes => (decodeText? bytes).elim (.error .undecodable) .ok

end FileTree

end SourceLayout
