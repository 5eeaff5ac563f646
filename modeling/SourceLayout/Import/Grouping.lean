import SourceLayout.Import.Header
import SourceLayout.Import.Reflow

/-! Import statements sorted into groups and written under the headers of the groups. -/

namespace SourceLayout
open Text

namespace Group

/-- Whether a matcher takes a statement. A quoted name, a path or a file ending is looked for in the
statement; a plain name stands for the package of that name, what lies below it and its scope. -/
def matcherAccepts (matcher : Text) (s : Statement) : Bool :=
  if matcher.head? == some '"' || matcher.head? == some '\'' || matcher.head? == some '.' ||
      matcher.getLast? == some '/' then
    occursIn matcher s.normalized
  else
    let m := s.moduleName
    if m.head? == some '.' || m.head? == some '/' then false
    else m == matcher || (matcher ++ ['/']).isPrefixOf m || ('@' :: matcher ++ ['/']).isPrefixOf m

def accepts (g : Group) (s : Statement) : Bool :=
  g.isCatchAll || g.matchers.any (matcherAccepts · s)

end Group

namespace Statement

/-- The statements whose one-line form is not in `seen` and does not occur earlier in the list. -/
def distinctFrom (seen : List Text) : List Statement → List Statement
  | [] => []
  | s :: r =>
    if seen.contains s.normalized then distinctFrom seen r
    else s :: distinctFrom (s.normalized :: seen) r

def distinct (ss : List Statement) : List Statement := distinctFrom [] ss

def rendered (cfg : Settings) (s : Statement) : Text :=
  let t := trim s.text
  if cfg.reflowImports then reflow t cfg.columnWidth cfg.indentUnit else t

def withTrailing (comment : Text) : List Text → List Text
  | [] => []
  | [l] => [if comment.isEmpty then l else l ++ ' ' :: comment]
  | l :: r => l :: withTrailing comment r

/-- The lines of a statement: the comments above it, and its text with the comment after it. -/
def outputLines (cfg : Settings) (s : Statement) : List Text :=
  s.leading.flatMap lines ++ withTrailing s.trailing (lines (s.rendered cfg))

def textLe : Text → Text → Bool
  | [], _ => true
  | _ :: _, [] => false
  | a :: r, b :: q => a.toNat < b.toNat || (a.toNat == b.toNat && textLe r q)

def sorted (cfg : Settings) (ss : List Statement) : List Statement :=
  ss.mergeSort fun a b => textLe (a.rendered cfg) (b.rendered cfg)

end Statement

namespace Grouping

/-- The position of the first group that takes a statement. -/
def home? (groups : List Group) (s : Statement) : Option Nat := groups.findIdx? (·.accepts s)

def members (groups : List Group) (ss : List Statement) (i : Nat) : List Statement :=
  ss.filter fun s => home? groups s == some i

/-- The lines of one group: its header and its statements; none if it has no statement. -/
def block (cfg : Settings) (g : Group) (ss : List Statement) : List Text :=
  if ss.isEmpty then []
  else Header.ofGroup cfg g :: (Statement.sorted cfg ss).flatMap (·.outputLines cfg)

/-- The blocks that are not empty, one empty line between two of them. -/
def joinBlocks (blocks : List (List Text)) : List Text :=
  [[]].intercalate (blocks.filter (!·.isEmpty))

/-- The lines of an import block: one block for each group that has statements, in the order of the
groups. -/
def layout (cfg : Settings) (statements : List Statement) : List Text :=
  let ss := Statement.distinct statements
  joinBlocks (cfg.groups.zipIdx.map fun (g, i) => block cfg g (members cfg.groups ss i))

end Grouping

end SourceLayout
