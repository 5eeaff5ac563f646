import SourceLayout.Files.Tree
import SourceLayout.Log

/-! A disk on which the system may refuse to read or write. A file is replaced through a temporary
one beside it, so that it is either the old or the new file at every moment. Each step of that can
fail; while another program holds the file it is tried again. -/

namespace SourceLayout

/-- What becomes of the steps of an attempt to replace a file: each may be refused with an error. -/
structure StepFailures where
  /-- The temporary file is created. -/
  create : Option SystemError := none
  /-- The content is written to it. -/
  fill : Option SystemError := none
  /-- The system is asked whether there is an old file. -/
  look : Option SystemError := none
  /-- The permissions of the old file are taken over. -/
  permit : Option SystemError := none
  /-- The temporary file is renamed. -/
  rename : Option SystemError := none
  deriving DecidableEq, Repr

/-- A file tree together with what will become of the next attempts to replace a file and to read
one: the first ones fail as the lists say, all others succeed. Calls to rename are counted. -/
structure Disk where
  tree : FileTree
  failures : List StepFailures := []
  refusals : List (Option SystemError) := []
  calls : Nat := 0

namespace Disk

def readText (d : Disk) (p : Path) : Except ReadFailure Text × Disk :=
  let after := { d with refusals := d.refusals.drop 1 }
  match d.refusals.head?.join with
  | some e => (.error (.system e p), after)
  | none => (d.tree.readText p, after)

def temporaryName (directory : List String) (name : String) (k : Nat) : List String :=
  directory ++ [s!".{name}.{k}.tmp"]

/-- A temporary file in a directory that is not there yet. Each entry takes one name at most and so
does the way to the working directory, so of two more names than there are entries one is free. -/
def temporary (t : FileTree) (directory : List String) (name : String) : List String :=
  let k := (List.range (t.entries.length + 2)).find? fun k =>
    (t.get? (temporaryName directory name k)).isNone
  temporaryName directory name (k.getD 0)

def remove (d : Disk) (place : List String) : Disk :=
  { d with tree := { d.tree with entries := d.tree.entries.filter (·.1 != place) } }

def put (d : Disk) (place : List String) (e : Entry) : Disk := { d with tree := d.tree.set place e }

/-- The permissions of a new file, which only its owner may read and write. -/
def privateMode : Nat := 0o600

/-- The permissions that a file gets when it is replaced: those that it has. -/
def modeOf (t : FileTree) (p : Path) : Nat :=
  match t.entry p with
  | .ok (.file _ mode) => mode
  | _ => privateMode

/-- The place at which a file is when it is renamed to a path. A path that ends in no name of its
own leads to a directory in use. -/
def targetOf (t : FileTree) (p : Path) : Except SystemError (List String) := do
  let directory ← t.directoryOf p.parent
  if p.name == "" || p.name == ".." then .error .busy else .ok (directory ++ [p.name])

/-- Moves a file to a place. A file does not replace a directory. -/
def rename (d : Disk) (source target : List String) : Except SystemError Unit × Disk :=
  let called := { d with calls := d.calls + 1 }
  match d.tree.get? source, d.tree.get? target with
  | _, some .directory => (.error .isDirectory, called)
  | some e, _ => (.ok (), (called.remove source).put target e)
  | none, _ => (.error .noEntry, called)

def renameTo (d : Disk) (source : List String) :
    Except SystemError (List String) → Except SystemError Unit × Disk
  | .error e => (.error e, { d with calls := d.calls + 1 })
  | .ok target => d.rename source target

/-- Whether something is found at a path, if the system refuses to look with an error. An error that
says that there is nothing is an answer. -/
def lookFor (t : FileTree) (p : Path) : Option SystemError → Except SystemError Bool
  | none => .ok (t.contains p)
  | some e => if e.isAbsence then .ok false else .error e

/-- Replaces a file by a temporary one: writes the content to it, gives it the permissions of the
old file, if that is found, and renames it. Where a step fails the temporary file is left behind. -/
def replaceBy (d : Disk) (scratch : List String) (p : Path) (content : Bytes)
    (failures : StepFailures) : Except SystemError Unit × Disk :=
  let filled := d.put scratch (.file content privateMode)
  match failures.fill, lookFor d.tree p failures.look with
  | some e, _ => (.error e, d.put scratch (.file [] privateMode))
  | none, .error e => (.error e, filled)
  | none, .ok false => filled.renameTo scratch (failures.rename.elim (targetOf d.tree p) .error)
  | none, .ok true =>
    match failures.permit with
    | some e => (.error e, filled)
    | none =>
      (d.put scratch (.file content (modeOf d.tree p))).renameTo scratch
        (failures.rename.elim (targetOf d.tree p) .error)

def cleanUp (d : Disk) (scratch : List String) : Disk :=
  if (d.tree.get? scratch).isSome then d.remove scratch else d

/-- One attempt with a temporary file in a directory. When it fails the
temporary file is removed. -/
def attempt (d : Disk) (directory : List String) (p : Path) (content : Bytes)
    (failures : StepFailures) : Except SystemError Unit × Disk :=
  let scratch := temporary d.tree directory p.name
  match failures.create with
  | some e => (.error e, d)
  | none =>
    match d.replaceBy scratch p content failures with
    | (.ok (), after) => (.ok (), after)
    | (.error e, after) => (.error e, after.cleanUp scratch)

/-- One attempt to replace a file. The directory of the temporary file must be there: it is found by
the names of the path alone, whatever they lead to. -/
def writeOnce (d : Disk) (p : Path) (content : Bytes) : Except SystemError Unit × Disk :=
  let next := { d with failures := d.failures.drop 1 }
  match d.tree.directoryOf (d.tree.fromRoot p.parent).resolve with
  | .error e => (.error e, next)
  | .ok directory => next.attempt directory p content (d.failures.head?.getD {})

/-- What is noted before another attempt. -/
def busyNote (p : Path) (e : SystemError) : Note :=
  ⟨.debug, .files, s!"{p.render} is busy ({e.text}), retrying in 0.1s"⟩

/-- Writes a file with at most `attempts` attempts. Another one is made only
while the file is busy. -/
def writeWithin (p : Path) (content : Bytes) :
    Nat → Disk → Except SystemError Unit × List Note × Disk
  | 0, d => (.ok (), [], d)
  | attempts + 1, d =>
    match d.writeOnce p content with
    | (.ok (), d) => (.ok (), [], d)
    | (.error e, d) =>
      if e.isBusy && 0 < attempts then
        let (result, notes, d) := writeWithin p content attempts d
        (result, busyNote p e :: notes, d)
      else (.error e, [], d)

/-- Replaces a file; a busy file is tried again `retries` times. -/
def write (d : Disk) (p : Path) (content : Text) (retries : Int := 3) :
    Except SystemError Unit × List Note × Disk :=
  writeWithin p (encodeText content) (retries + 1).toNat d

end Disk

end SourceLayout
