import SourceLayout.Files.Batch
import SourceLayout.Settings.Load

/-! The command line: lays out one file in place, or says whether that would change it. -/

namespace SourceLayout
open Text

namespace CommandLine

/-- What is asked of a run: the file, whether only to check it, and whether to show all notes. -/
structure Request where
  file : Option Path := none
  check : Bool := false
  verbose : Bool := false
  deriving DecidableEq, Repr

/-- What a run prints at its end. -/
inductive Message where
  | noFile
  | notFound (p : Path)
  | unreadable (p : Path) (why : ReadFailure)
  | unchanged (p : Path)
  | wouldChange (p : Path)
  | changed (p : Path)
  deriving DecidableEq, Repr

def Message.text : Message → String
  | .noFile => "Error: Provide a file to format\n"
  | .notFound p => s!"Error: File not found: {p.render}\n"
  | .unreadable p why => s!"Error: Cannot read {p.render}: {why.message}\n"
  | .unchanged p => s!"{p.render} already formatted\n"
  | .wouldChange p => s!"Would reformat {p.render}\n"
  | .changed p => s!"Formatted {p.render}\n"

inductive Break where
  | unknownLevel
  | settings (why : Settings.Obstruction)
  /-- The output does not take the message. -/
  | unprinted
  deriving DecidableEq, Repr

inductive Ending where
  | exit (code : Nat)
  | broken (why : Break)
  deriving DecidableEq, Repr

/-- The result of a run: how it ends, what it prints, what it notes and how much of that is shown,
and the disk afterwards. -/
structure Outcome where
  ending : Ending
  output : String := ""
  notes : List Note := []
  log : String := ""
  disk : Disk

/-- The importance of notes that are shown at a level, which goes by its name. -/
def threshold? (name : Text) : Option Nat :=
  [("TRACE", 5), ("DEBUG", 10), ("INFO", 20), ("SUCCESS", 25), ("WARNING", 30), ("ERROR", 40),
    ("CRITICAL", 50)].lookup (String.ofList (upper name))

def componentName : Component → String
  | .outline => "serisei_formatter.parser"
  | .declarations => "serisei_formatter.rules.declarations"
  | .engine => "serisei_formatter.engine"
  | .files => "serisei_formatter.file_utils"
  | .settings => "serisei_cli.config"
  | .commandLine => "serisei_cli.main"

def noteLine (n : Note) : String :=
  let level := String.ofList (padTo 8 ' ' n.level.name.toList)
  let name := componentName n.component
  let message := n.message
  s!"{level} | {name} - {message}\n"

/-- The lines of the notes that matter enough. -/
def noteText (threshold : Nat) (notes : List Note) : String :=
  String.join ((notes.filter (threshold ≤ ·.level.rank)).map noteLine)

section

variable (parse : Batch.Parser) (prints : String → Bool)

/-- How a run ends that closes with a message, if the output takes that. -/
def closing (code : Nat) (m : Message) : Ending :=
  if prints m.text then .exit code else .broken .unprinted

def close (code : Nat) (m : Message) (notes : List Note) (disk : Disk) : Outcome where
  ending := closing prints code m
  output := if prints m.text then m.text else ""
  notes := notes
  disk := disk

/-- Lays out a file that is there, under settings that are loaded; `notes` were made before. -/
def formatFile (check : Bool) (disk : Disk) (p : Path) (cfg : Settings) (notes : List Note) :
    Outcome :=
  let shown := p.render
  match disk.readText p with
  | (.error why, disk) => close prints 1 (.unreadable p why) notes disk
  | (.ok source, disk) =>
    let f := Document.format cfg Rule.standard shown (parse p (unifyBreaks source)) source
    let warnings := f.failures.map fun e =>
      let why := e.text
      (⟨.warning, .commandLine, s!"{shown}: {why}"⟩ : Note)
    let notes := notes ++ f.notes ++ warnings
    if !f.modified then close prints 0 (.unchanged p) notes disk
    else if check then close prints 1 (.wouldChange p) notes disk
    else
      match disk.write p f.source with
      | (.ok (), more, disk) => close prints 0 (.changed p) (notes ++ more) disk
      | (.error e, more, disk) =>
        let why := e.message
        let failure : Note := ⟨.error, .commandLine, s!"Error writing {shown}: {why}"⟩
        { ending := .exit 1, notes := notes ++ more ++ [failure], disk }

/-- A run whose level of notes is known. -/
def runFile (check : Bool) (disk : Disk) : Option Path → Outcome
  | none => close prints 1 .noFile [] disk
  | some p =>
    if !disk.tree.contains p then close prints 1 (.notFound p) [] disk
    else
      match Settings.load disk.tree p with
      | .error why => { ending := .broken (.settings why), disk }
      | .ok (cfg, notes) => formatFile parse prints check disk p cfg notes

/-- The name of the level of notes: the one that the environment gives, or else by the request. -/
def levelName (r : Request) (environment : Option String) : Text :=
  (environment.getD (if r.verbose then "DEBUG" else "INFO")).toList

/-- A run with a request and the level of notes from the environment, if it gives one. Which
messages the output takes is up to it: it may be closed, or a name may be in another encoding. -/
def run (r : Request) (environment : Option String) (disk : Disk) : Outcome :=
  match threshold? (levelName r environment) with
  | none => { ending := .broken .unknownLevel, disk }
  | some threshold =>
    let out := runFile parse prints r.check disk r.file
    { out with log := noteText threshold out.notes }

end

end CommandLine

end SourceLayout
