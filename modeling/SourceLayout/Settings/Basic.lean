import SourceLayout.Indent
import SourceLayout.Text.Upper
import SourceLayout.Text.Word

/-! Settings of the formatter: the groups imports are sorted into, the width of their
headers, and the indentation. -/

namespace SourceLayout
open Text

structure Group where
  label : Text
  matchers : List Text := []
  deriving DecidableEq, Repr

namespace Group

/-- Whether `w` occurs as a whole word; `before` is the character in front of the text. -/
def holdsWord (w : Text) (before : Option Char) : Text → Bool
  | [] => false
  | c :: r =>
    let rest := (c :: r).drop w.length
    (w.isPrefixOf (c :: r) && isWordEdge before (some c) &&
        isWordEdge w.getLast? rest.head?) ||
      holdsWord w (some c) r

/-- A group that takes every import: one without matchers, or with the word `OTHER` in its label. -/
def isCatchAll (g : Group) : Bool :=
  g.matchers.isEmpty || holdsWord "OTHER".toList none (upper g.label)

def other : Group := { label := "// OTHER".toList }

private def of (label : String) (matchers : List String) : Group :=
  { label := label.toList, matchers := matchers.map String.toList }

def defaults : List Group := [
  .of "// EXTERNAL" ["\"react\"", "'react'", "next/", "dnd-kit/", "zustand", "framer-motion",
    "tiptap", "axios", "tanstack", "vite", "path", "tauri", "react-router-dom",
    "@react-oauth/google", "globby"],
  .of "// CONTEXTS" ["contexts/"],
  .of "// COMPONENTS" ["components/"],
  .of "// CONFIGS" ["configs/"],
  .of "// LIB" ["lib/"],
  .of "// LOGIC" ["logic/"],
  .of "// DATA" ["mock-data/"],
  .of "// HOOKS" ["hooks/"],
  .of "// STORES" ["store/"],
  .of "// SERVICES" ["services/"],
  .of "// STYLES" ["styles/", ".css"],
  .of "// TYPES" ["types", "typings"],
  .of "// UTILS" ["utils/"],
  .of "// ASSETS" ["assets/"],
  other]

end Group

/-- What a run is told: the character that fills headers, their width, the indentation (as far as it
is fixed), whether method signatures are expanded and long imports broken, and the groups. -/
structure Settings where
  headerChar : Char := '='
  columnWidth : Nat := 120
  indentKind : Option IndentKind := none
  indentSize : Option Nat := none
  expandMethods : Bool := true
  reflowImports : Bool := true
  groups : List Group := Group.defaults
  deriving DecidableEq, Repr

namespace Settings

def indentUnit (s : Settings) : Text :=
  match s.indentKind with
  | some .tabs => ['\t']
  | _ => List.replicate (s.indentSize.getD IndentStyle.defaultSize) ' '

/-- The groups, with one that takes every import at the end. -/
def closeGroups (groups : List Group) : List Group :=
  if groups.getLast?.any Group.isCatchAll then groups else groups ++ [Group.other]

/-- The settings with the indentation that is not fixed taken from the source. -/
def resolveIndent (s : Settings) (source : Text) : Settings :=
  if s.indentKind == some .tabs || (s.indentKind.isSome && s.indentSize.isSome) then s
  else
    let style := IndentStyle.detect source
    let size := if style.kind == .spaces then style.size else IndentStyle.defaultSize
    { s with
      indentKind := some (s.indentKind.getD style.kind)
      indentSize := some (s.indentSize.getD size) }

end Settings

end SourceLayout
