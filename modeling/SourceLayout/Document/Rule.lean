import SourceLayout.Declaration.Basic
import SourceLayout.Document.Edit
import SourceLayout.Import.Grouping
import SourceLayout.Outline.Region

/-! Layout rules: each looks at the regions of a file and asks for edits. -/

namespace SourceLayout

/-- What a rule sees of a file: its text with plain line breaks, its lines, and its regions. -/
structure Context where
  source : Text
  lines : List Text
  imports : Option ImportBlock
  declarations : List Region

/-- What a rule answers: notes, and the edits it asks for or the reason why it failed. -/
structure Analysis where
  notes : List Note := []
  edits : Except String (List Edit)

structure Rule where
  code : String
  name : String
  analyze : Settings → Context → Analysis

namespace Rule
open Text

/-- The new lines of the import block. An empty line sets it off from what follows. -/
def importLines (cfg : Settings) (ctx : Context) (b : ImportBlock) : List Text :=
  let new := Grouping.layout (cfg.resolveIndent ctx.source) b.statements
  new ++ if !new.isEmpty && b.last + 1 < ctx.lines.length then [[]] else []

def importEdits (cfg : Settings) (ctx : Context) : List Edit :=
  ctx.imports.toList.map fun b =>
    { first := b.first, last := b.last, lines := importLines cfg ctx b }

def regionLines (ls : List Text) (r : Region) : List Text := (ls.take (r.last + 1)).drop r.first

def declarationLines (cfg : Settings) (ctx : Context) (r : Region) : List Text :=
  Declaration.format (cfg.resolveIndent ctx.source) (regionLines ctx.lines r)

def declarationEdits (cfg : Settings) (ctx : Context) : List Edit :=
  (ctx.declarations.filter fun r => declarationLines cfg ctx r != regionLines ctx.lines r).map
    fun r =>
    { first := r.first, last := r.last, lines := declarationLines cfg ctx r }

def declarationNotes (ctx : Context) : List Note :=
  ctx.declarations.filterMap fun r =>
    (Declaration.note? (regionLines ctx.lines r)).map fun m => ⟨.debug, .declarations, m⟩

/-- Sorts the imports into groups. -/
def imports : Rule where
  code := "F001"
  name := "import-grouping"
  analyze cfg ctx := { edits := .ok (importEdits cfg ctx) }

/-- Aligns the members of declarations. -/
def declarations : Rule where
  code := "F002"
  name := "declaration-alignment"
  analyze cfg ctx := { notes := declarationNotes ctx, edits := .ok (declarationEdits cfg ctx) }

def standard : List Rule := [imports, declarations]

end Rule

end SourceLayout
