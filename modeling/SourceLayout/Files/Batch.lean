import SourceLayout.Document.Format
import SourceLayout.Files.AtomicWrite

/-! Laying out several files on disk. -/

namespace SourceLayout
open Text

/-- What is reported for a file, or for a failure to read or write one. -/
structure FileReport where
  source : Text := []
  modified : Bool := false
  errors : List String := []
  deriving DecidableEq, Repr

/-- A file that is not text, which ends a batch, and the disk as it is then. -/
structure NotText where
  path : Path
  disk : Disk

structure Batch where
  reports : List FileReport := []
  modified : Nat := 0
  failed : Nat := 0
  disk : Disk
  notes : List Note := []

namespace Batch

/-- How a file's top-level nodes are found. -/
abbrev Parser := Path → Text → List Node

def addFailure (b : Batch) (p : Path) (message : String) : Batch :=
  { b with
    reports := b.reports ++ [{ errors := [message] }]
    failed := b.failed + 1
    notes := b.notes ++ [⟨.error, .engine, s!"Error processing {p.render}: {message}"⟩] }

/-- Reports a file that was laid out, and writes it if it changed and no rule failed. The report
stands even when the write fails, which is reported too. -/
def addFormatted (b : Batch) (p : Path) (f : Formatted) : Batch :=
  let errors := f.failures.map RuleFailure.text
  let b := { b with
    reports := b.reports ++ [{ source := f.source, modified := f.modified, errors }]
    notes := b.notes ++ f.notes }
  if !errors.isEmpty then { b with failed := b.failed + 1 }
  else if !f.modified then b
  else
    let (result, notes, disk) := b.disk.write p f.source
    let b := { b with modified := b.modified + 1, disk, notes := b.notes ++ notes }
    match result with
    | .ok () => b
    | .error e => b.addFailure p e.message

def step (cfg : Settings) (rules : List Rule) (parse : Parser) (b : Batch) (p : Path) :
    Except NotText Batch :=
  match b.disk.readText p with
  | (.error .undecodable, disk) => .error ⟨p, disk⟩
  | (.error failure, disk) => .ok ({ b with disk }.addFailure p failure.message)
  | (.ok source, disk) =>
    let nodes := parse p (unifyBreaks source)
    .ok ({ b with disk }.addFormatted p (Document.format cfg rules p.render nodes source))

def run (cfg : Settings) (rules : List Rule) (parse : Parser) (paths : List Path) (disk : Disk) :
    Except NotText Batch :=
  paths.foldlM (step cfg rules parse) { disk }

end Batch

end SourceLayout
