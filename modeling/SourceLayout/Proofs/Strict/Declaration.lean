import SourceLayout.Proofs.LastLine
import SourceLayout.Proofs.Strict.Block

/-! Declarations laid out by operations that can fail: type aliases whose members are separated by
bars, and bodies on one line or on several. -/

namespace SourceLayout
open Text

namespace Strict

/-! ## Bodies on one line -/

def oneLine (cfg : Settings) (calls depth : Nat) (base line : Text) : Strict (List Text) :=
  match (Scan.findTop? ['{'] line).bind (Block.braceParts? line) with
  | none => pure [line]
  | some (before, content, after) => do
    let inner ← blockLines cfg calls depth base [base ++ cfg.indentUnit ++ Member.terminate content]
    let suffix ← afterBrace after
    pure (trimRight (before ++ ['{']) :: inner ++ [base ++ '}' :: suffix])

theorem oneLine_eq (cfg : Settings) {room calls depth : Nat} (h : room + depth = nestingLimit + 1)
    (hcalls : room < calls) (base line : Text) :
    oneLine cfg calls depth base line = pure (Block.formatOneLine cfg room base line) := by
  rw [oneLine, Block.formatOneLine]
  cases (Scan.findTop? ['{'] line).bind (Block.braceParts? line) with
  | none => rfl
  | some parts =>
    simp only [blockLines_eq cfg h hcalls, afterBrace_eq, pure_bind]

/-! ## Members separated by bars -/

def addLine (members : List (List Text)) (l : Text) : Strict (List (List Text)) := do
  let current ← last members
  pure (members.dropLast ++ [current ++ [l]])

/-- Cuts lines into members, behind those that are cut already. -/
def splitFrom (s : Scan.State) (members : List (List Text)) : List Text → Strict (List (List Text))
  | [] => pure members
  | l :: r =>
    let shown := trim l
    if shown.isEmpty then splitFrom s members r
    else
      let t := Scan.feed s shown
      let commentOnly := isBlankLine (Scan.withoutComments shown)
      if s.settled && (members.isEmpty || shown.head? == some '|' || commentOnly) then
        splitFrom t (members ++ [[l]]) r
      else do
        let members ← addLine members l
        splitFrom t members r

/-- Once a member is begun, a line that continues one finds it. -/
theorem splitFrom_eq_of_ne_nil (s : Scan.State) (done : List (List Text)) {current : List Text}
    (h : current ≠ []) (ls : List Text) :
    splitFrom s (done ++ [current.reverse]) ls = pure (done ++ Union.membersFrom s current ls) := by
  induction ls generalizing s done current with
  | nil => simp [splitFrom, Union.membersFrom, h]
  | cons l r ih =>
    have hempty : (done ++ [current.reverse]).isEmpty = false := by simp
    have hcurrent : current.isEmpty = false := by simpa using h
    rw [splitFrom, Union.membersFrom]
    simp only [hempty, hcurrent, addLine, last_concat, List.dropLast_concat, pure_bind]
    split
    · exact ih s done h
    split
    · refine (ih (Scan.feed s (trim l)) (done ++ [current.reverse]) (List.cons_ne_nil l [])).trans
        ?_
      rw [List.append_assoc]
      rfl
    · have hnext := ih (Scan.feed s (trim l)) done (List.cons_ne_nil l current)
      rw [List.reverse_cons] at hnext
      exact hnext

/-- The first line that shows something begins a member, since nothing is open before it. -/
theorem splitFrom_eq {s : Scan.State} (h : s.settled = true) (ls : List Text) :
    splitFrom s [] ls = pure (Union.membersFrom s [] ls) := by
  induction ls with
  | nil => rfl
  | cons l r ih =>
    rw [splitFrom, Union.membersFrom]
    simp only [h, List.isEmpty_nil, Bool.true_or, Bool.and_true, if_true, List.nil_append]
    split
    · exact ih
    · exact splitFrom_eq_of_ne_nil (Scan.feed s (trim l)) [] (List.cons_ne_nil l []) r

/-- The object type of a member of one line, or of several. -/
def memberObject (depth : Nat) (deeper shown : Text) (ls : List Text) :
    Strict (Option (Text × List Text × Text)) :=
  if nestingLimit ≤ depth then pure none
  else if ls.length = 1 then
    match (Scan.findCode? '{' shown).bind (Block.braceParts? shown) with
    | none => pure none
    | some (before, content, after) => do
      let suffix ← afterBrace after
      pure (some (before, [deeper ++ Member.terminate content], '}' :: suffix))
  else do
    let span ← objectSpan ls
    pure (span.map fun span => (span.before, span.content deeper, span.closing))

def memberLines (cfg : Settings) (calls depth : Nat) (indent : Text) (ls : List Text) :
    Strict (List Text) := do
  let top ← first ls
  match ← memberObject depth (indent ++ cfg.indentUnit) (trim top) ls with
  | some (before, content, closing) => do
    let opening ← openBrace (trim before)
    let inner ← blockLines cfg calls (depth + 1) indent content
    pure ((indent ++ opening) :: inner ++ [indent ++ closing])
  | none =>
    pure (if ls.length = 1 then [indent ++ trim top] else
      keepLines cfg indent (indent ++ trim top) ls)

theorem memberObject_eq {room depth : Nat} (h : room + depth = nestingLimit + 1) (deeper top : Text)
    (r : List Text) :
    memberObject depth deeper (trim top) (top :: r) =
      pure (if 1 < room then Union.object? deeper (top :: r) else none) := by
  unfold memberObject Union.object?
  by_cases hroom : 1 < room
  · rw [if_neg (by omega), if_pos hroom]
    simp only [List.headD_cons]
    split
    · cases (Scan.findCode? '{' (trim top)).bind (Block.braceParts? (trim top)) with
      | none => rfl
      | some parts =>
        simp only [afterBrace_eq, pure_bind]
        rfl
    · rw [objectSpan_eq, pure_bind]
  · rw [if_pos (by omega), if_neg hroom]

theorem memberLines_eq (cfg : Settings) {room calls depth : Nat}
    (h : room + depth = nestingLimit + 1) (hcalls : room < calls) (indent : Text) {ls : List Text}
    (hls : ls ≠ []) :
    memberLines cfg calls depth indent ls = pure (Union.memberLines cfg room indent ls) := by
  obtain ⟨top, r, rfl⟩ := List.exists_cons_of_ne_nil hls
  rw [memberLines, first_cons, pure_bind, memberObject_eq h, pure_bind, Union.memberLines]
  simp only [List.headD_cons]
  by_cases hroom : 1 < room
  · simp only [hroom, if_true]
    cases Union.object? (indent ++ cfg.indentUnit) (top :: r) with
    | none => rfl
    | some x =>
      have hinner : room - 1 + (depth + 1) = nestingLimit + 1 := by omega
      have hless : room - 1 < calls := by omega
      simp only [openBrace_eq, blockLines_eq cfg hinner hless, pure_bind]
  · simp only [hroom, if_false]

/-! ## Type aliases -/

def assignmentRow? (ls : List Text) : Option Nat :=
  ls.findIdx? fun l => (Union.assignment? l).isSome

/-- The length of a line up to its equals sign. -/
def cutAt (line : Text) : Nat := (Union.assignment? line).elim 0 (· + 1)

def isUnion (ls : List Text) : Strict Bool :=
  if ls.isEmpty then pure false
  else do
    let top ← first ls
    if !isTypeAlias top then pure false
    else match assignmentRow? ls with
      | none => pure false
      | some row => do
        let line ← item ls row
        if Union.startsBar (line.drop (cutAt line)) then pure true
        else if row + 1 < ls.length then do
          let next ← item ls (row + 1)
          pure (Union.startsBar next)
        else pure false

def unionLines (cfg : Settings) (calls depth : Nat) (base : Text) (ls : List Text) :
    Strict (List Text) :=
  match assignmentRow? ls with
  | none => pure ls
  | some row => do
    let line ← item ls row
    let value := trim (line.drop (cutAt line))
    let (head, rest) :=
      if value.head? == some '|' then
        (ls.take row ++ [trimRight (line.take (cutAt line))], (base ++ value) :: ls.drop (row + 1))
      else (ls.take row ++ [trimRight line], ls.drop (row + 1))
    let members ← splitFrom {} [] rest
    let rows ← members.mapM (memberLines cfg calls depth (base ++ cfg.indentUnit))
    pure (head ++ rows.flatten)

theorem assignmentRow?_eq (ls : List Text) :
    assignmentRow? ls = (Union.assignmentLine? ls).map fun x => x.1.length := by
  induction ls with
  | nil => rfl
  | cons l r ih =>
    rw [assignmentRow?, List.findIdx?_cons, Union.assignmentLine?]
    cases Union.assignment? l with
    | some i => rfl
    | none =>
      rw [assignmentRow?] at ih
      simp [ih, Function.comp_def]

theorem item_length (before : List Text) (line : Text) (after : List Text) :
    item (before ++ line :: after) before.length = pure line := item_of_getElem? (by simp)

theorem isUnion_eq (ls : List Text) : isUnion ls = pure (Union.isUnion ls) := by
  unfold isUnion Union.isUnion
  rw [assignmentRow?_eq]
  cases hls : ls with
  | nil => rfl
  | cons top r =>
    rw [← hls]
    have hhead : ls.head? = some top := by rw [hls, List.head?_cons]
    have hfirst : first ls = pure top := by rw [hls, first_cons]
    have hempty : ls.isEmpty = false := by rw [hls, List.isEmpty_cons]
    simp only [hempty, hhead, hfirst, pure_bind, Option.any_some, Bool.false_eq_true, if_false]
    cases isTypeAlias top with
    | false => rfl
    | true =>
      cases ha : Union.assignmentLine? ls with
      | none => rfl
      | some x =>
        obtain ⟨before, line, i, after⟩ := x
        obtain ⟨hsplit, hi⟩ := Union.assignmentLine?_spec ha
        have hcut : cutAt line = i + 1 := by rw [cutAt, hi, Option.elim_some]
        rw [hsplit]
        simp only [Option.map_some, item_length, hcut, pure_bind]
        cases Union.startsBar (line.drop (i + 1)) with
        | true => rfl
        | false =>
          cases after with
          | nil => simp
          | cons next after =>
            have hnext : item (before ++ line :: next :: after) (before.length + 1) = pure next :=
              item_of_getElem? (by simp)
            simp [hnext]

theorem unionLines_eq (cfg : Settings) {room calls depth : Nat}
    (h : room + depth = nestingLimit + 1) (hcalls : room < calls) (base : Text) (ls : List Text) :
    unionLines cfg calls depth base ls = pure (Union.format cfg room base ls) := by
  rw [unionLines, Union.format, Union.cut?, assignmentRow?_eq]
  cases ha : Union.assignmentLine? ls with
  | none => rfl
  | some x =>
    obtain ⟨before, line, i, after⟩ := x
    obtain ⟨hsplit, hi⟩ := Union.assignmentLine?_spec ha
    have hcut : cutAt line = i + 1 := by rw [cutAt, hi, Option.elim_some]
    have hafter : (before ++ line :: after).drop (before.length + 1) = after := by simp
    have hmembers : ∀ rest, (Union.members rest).mapM
      (memberLines cfg calls depth (base ++ cfg.indentUnit)) =
        pure ((Union.members rest).map (Union.memberLines cfg room (base ++ cfg.indentUnit))) :=
          fun rest =>
      mapM_pure fun m hm => memberLines_eq cfg h hcalls
        _ (Union.isBlankLine_membersFrom (by simp) m hm).1
    have hsettled : ∀ rest, splitFrom {} [] rest = pure (Union.members rest) := splitFrom_eq rfl
    rw [hsplit]
    simp only [Option.map_some, item_length, hafter, List.take_left, hcut, pure_bind]
    split <;> simp only [hsettled, hmembers, pure_bind, List.flatMap_def]

/-! ## Declarations -/

def declarationLines (cfg : Settings) (calls : Nat) (ls : List Text) : Strict (List Text) :=
  if ls.isEmpty then pure ls
  else do
    let top ← first ls
    let base := indentOf top
    if ← isUnion ls then unionLines cfg calls 0 base ls
    else match Declaration.bodyBrace? ls with
      | none => pure ls
      | some (row, col) => do
        let opening ← item ls row
        let head := unlines (ls.take row ++ [opening.take col])
        if isTypeAlias top && (trimRight (Scan.withoutComments head)).getLast? != some '=' then
          pure ls
        else match Declaration.closingBrace? ls row col with
          | none => pure ls
          | some (closeRow, close) =>
            if closeRow + 1 != ls.length then pure ls
            else if row + 1 == ls.length then do
              let rows ← oneLine cfg calls 0 base opening
              pure (ls.take row ++ rows)
            else do
              let bottom ← last ls
              let span : ObjectSpan :=
                { before := opening.take col
                  afterOpen := trim (opening.drop (col + 1))
                  middle := (ls.drop (row + 1)).dropLast
                  beforeClose := trim (bottom.take close)
                  closing := trim (bottom.drop close) }
              let inner ← blockLines cfg calls 0 base (span.content (base ++ cfg.indentUnit))
              pure (ls.take row ++ trimRight (span.before ++ ['{']) :: inner ++
                [base ++ span.closing])

/-- The layout of a declaration has an answer, whatever its lines are. -/
theorem declarationLines_eq (cfg : Settings) {calls : Nat} (h : nestingLimit + 1 < calls)
    (ls : List Text) :
    declarationLines cfg calls ls = pure (Declaration.format cfg ls) := by
  have hroom : roomAt 0 + 0 = nestingLimit + 1 := rfl
  unfold declarationLines Declaration.format Declaration.shape
  cases hls : ls with
  | nil => rfl
  | cons top r =>
    rw [← hls]
    have hhead : ls.head? = some top := by rw [hls, List.head?_cons]
    have hheadD : ls.headD [] = top := by rw [hls, List.headD_cons]
    have hfirst : first ls = pure top := by rw [hls, first_cons]
    have hempty : ls.isEmpty = false := by rw [hls, List.isEmpty_cons]
    have hlast : last ls = pure (ls.getLast?.getD []) := by
      rw [last, hls, List.getLast?_cons]
      rfl
    simp only [hempty, hhead, hheadD, hfirst, isUnion_eq, pure_bind, Option.any_some,
      Bool.false_eq_true, if_false]
    cases Union.isUnion ls with
    | true => exact unionLines_eq cfg hroom h (indentOf top) ls
    | false =>
      simp only [Bool.false_eq_true, if_false]
      cases hbrace : Declaration.bodyBrace? ls with
      | none => rfl
      | some place =>
        obtain ⟨row, col⟩ := place
        obtain ⟨l, m, hl, -⟩ := Declaration.findMark?_spec hbrace
        have hgetD : ls.getD row [] = l := by rw [List.getD_eq_getElem?_getD, hl, Option.getD_some]
        simp only [item_of_getElem? hl, hgetD, pure_bind]
        split
        · rfl
        cases Declaration.closingBrace? ls row col with
        | none => rfl
        | some closing =>
          simp only
          split
          · rfl
          split
          · simp only [oneLine_eq cfg hroom h, hgetD, pure_bind]
          · simp only [hlast, blockLines_eq cfg hroom h, pure_bind, Declaration.formatBody,
              Declaration.bodySpan, hgetD]

end Strict

end SourceLayout
