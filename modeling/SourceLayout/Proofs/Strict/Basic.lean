import SourceLayout.Proofs.Kept.Signature

/-! Layout with operations that can fail. Where the layout takes the first line of a member, the
greatest of some widths or a bracket off the stack, nothing may be there to take; and where it
goes into an object type, its calls may be nested deeper than can be held. The definitions here
say so: they slip. The theorems about them say that this does not happen, and that the answers are
those of the layout itself. -/

namespace SourceLayout
open Text

/-- What goes wrong where an operation has nothing to work on. -/
inductive Slip where
  /-- An item is taken from a list that has none at that place. -/
  | noItem
  /-- The numbers of a list are combined, and there are none. -/
  | noNumber
  /-- A bracket is taken off an empty stack. -/
  | noBracket
  /-- A text is filled up with something that is not one character. -/
  | badFill
  /-- A text is longer than can be held. -/
  | tooLong
  /-- Calls are nested deeper than can be held, as they are where a recursion does not end. -/
  | tooDeep
  deriving DecidableEq, Repr

/-- What a rule that slips is reported with. -/
def Slip.message : Slip → String
  | .noItem => "no item to take"
  | .noNumber => "no number to combine"
  | .noBracket => "no bracket to close"
  | .badFill => "not one character to fill with"
  | .tooLong => "text too long"
  | .tooDeep => "calls nested too deep"

/-- A computation that slips or has an answer. -/
abbrev Strict := Except Slip

namespace Strict

variable {α β : Type}

def demand (slip : Slip) : Option α → Strict α
  | some a => pure a
  | none => throw slip

def item (xs : List α) (i : Nat) : Strict α := demand .noItem xs[i]?

def first (xs : List α) : Strict α := demand .noItem xs.head?

def last (xs : List α) : Strict α := demand .noItem xs.getLast?

def combine (f : Nat → Nat → Nat) : List Nat → Strict Nat
  | [] => throw .noNumber
  | n :: ns => pure (ns.foldl f n)

theorem item_of_getElem? {xs : List α} {i : Nat} {a : α} (h : xs[i]? = some a) :
    item xs i = pure a := by
  rw [item, h]
  rfl

theorem first_cons (a : α) (xs : List α) : first (a :: xs) = pure a := rfl

theorem last_concat (xs : List α) (a : α) : last (xs ++ [a]) = pure a := by
  rw [last, List.getLast?_concat]
  rfl

/-! ## Lists -/

theorem mapM_pure {f : α → Strict β} {g : α → β} {xs : List α} (h : ∀ x ∈ xs, f x = pure (g x)) :
    xs.mapM f = pure (xs.map g) := by
  induction xs with
  | nil => rfl
  | cons x xs ih =>
    obtain ⟨hx, hxs⟩ := List.forall_mem_cons.mp h
    rw [List.mapM_cons, hx, ih hxs, List.map_cons, pure_bind, pure_bind]

theorem mapM_bind {γ : Type} {f : α → Strict β} {g : α → β} {k : List β → Strict γ} {xs : List α}
    (h : ∀ x ∈ xs, f x = pure (g x)) : xs.mapM f >>= k = k (xs.map g) := by
  rw [mapM_pure h, pure_bind]

theorem anyM_pure {f : α → Strict Bool} {g : α → Bool} {xs : List α}
    (h : ∀ x ∈ xs, f x = pure (g x)) : xs.anyM f = pure (xs.any g) := by
  induction xs with
  | nil => rfl
  | cons x xs ih =>
    obtain ⟨hx, hxs⟩ := List.forall_mem_cons.mp h
    rw [List.anyM_cons, hx, pure_bind, ih hxs, List.any_cons]
    cases g x <;> rfl

/-! ## The scanner -/

def popTo (o : Char) : List Char → Strict (List Char)
  | [] => throw .noBracket
  | c :: r => if c == o then pure r else popTo o r

def closeBracket (c o : Char) (stack : List Char) : Strict (List Char) :=
  if stack.head? = some o then
    match stack with
    | [] => throw .noBracket
    | _ :: r => pure r
  else if c != '>' && stack.contains o then popTo o stack
  else pure stack

def stackAfter (s : Scan.State) (c : Char) : Strict (List Char) :=
  if Scan.isOpener c then pure (c :: s.stack)
  else match Scan.openerOf c with
    | some o =>
      if c == '>' && s.previous == some '=' then pure s.stack else closeBracket c o s.stack
    | none => pure s.stack

def readCode (s : Scan.State) (c : Char) : Strict Scan.State := do
  let stack ← stackAfter s c
  pure { s with stack, previous := if isBlank c then s.previous else some c }

/-- A bracket that is on the stack is found there. -/
theorem popTo_of_mem {o : Char} {stack : List Char} (h : o ∈ stack) :
    popTo o stack = pure (stack.dropWhile (· != o)).tail := by
  induction stack with
  | nil => cases h
  | cons c r ih =>
    rw [popTo, List.dropWhile_cons]
    by_cases hc : c = o
    · simp [hc]
    · have hr : o ∈ r := (List.mem_cons.mp h).resolve_left (Ne.symm hc)
      simp [hc, ih hr]

theorem closeBracket_eq (c o : Char) (stack : List Char) :
    closeBracket c o stack = pure (Scan.closeBracket c o stack) := by
  unfold closeBracket Scan.closeBracket
  split
  · next h =>
    cases stack with
    | nil => cases h
    | cons d r => rfl
  · split
    · next h =>
      rw [Bool.and_eq_true, List.contains_iff_mem] at h
      exact popTo_of_mem h.2
    · rfl

/-- The scanner never takes a bracket off an empty stack. -/
theorem readCode_eq (s : Scan.State) (c : Char) : readCode s c = pure (s.readCode c) := by
  have hstack : stackAfter s c = pure (s.readCode c).stack := by
    unfold stackAfter Scan.State.readCode
    cases ho : Scan.openerOf c with
    | none => split <;> rfl
    | some o =>
      simp only [closeBracket_eq]
      split
      · rfl
      · split <;> rfl
  rw [readCode, hstack, pure_bind]
  rfl

/-! ## Indentation -/

def sizeOf (widths : List Nat) : Strict Nat := do
  let near := widths.filter (· ≤ 8)
  if near.isEmpty then pure IndentStyle.defaultSize
  else do
    let divisor ← combine Nat.gcd near
    let size ← if divisor = 1 then combine min near else pure divisor
    pure (if [2, 3, 4, 8].contains size then size else IndentStyle.defaultSize)

def resolveIndent (s : Settings) (source : Text) : Strict Settings :=
  if s.indentKind == some .tabs || (s.indentKind.isSome && s.indentSize.isSome) then pure s
  else do
    let (tabbed, spaced) := (IndentStyle.leads source).partition (·.contains '\t')
    let style : IndentStyle ←
      if tabbed.length > spaced.length then pure ⟨.tabs, 1⟩
      else do
        let size ← sizeOf (spaced.map List.length)
        pure ⟨.spaces, size⟩
    let size := if style.kind == .spaces then style.size else IndentStyle.defaultSize
    pure { s with
      indentKind := some (s.indentKind.getD style.kind)
      indentSize := some (s.indentSize.getD size) }

theorem sizeOf_eq (widths : List Nat) : sizeOf widths = pure (IndentStyle.sizeOf widths) := by
  unfold sizeOf IndentStyle.sizeOf
  cases widths.filter (· ≤ 8) with
  | nil => rfl
  | cons w ws =>
    simp only [List.isEmpty_cons, Bool.false_eq_true, if_false, combine, pure_bind]
    split <;> rfl

theorem resolveIndent_eq (s : Settings) (source : Text) :
    resolveIndent s source = pure (s.resolveIndent source) := by
  unfold resolveIndent Settings.resolveIndent IndentStyle.detect IndentStyle.ofLeads
  split
  · rfl
  · simp only [sizeOf_eq, pure_bind]
    split <;> rfl

/-! ## Names and braces -/

def column (ps : List Parameter) : Strict NameColumn := do
  let width ← combine max (ps.map (·.name.length))
  pure { width, hasOptional := ps.any (·.optional) }

def openBrace (t : Text) : Strict Text :=
  if t.isEmpty then pure ['{']
  else do
    let c ← last t
    pure (if c == '<' || c == '(' || c == '[' then t ++ ['{'] else t ++ [' ', '{'])

def afterBrace (t : Text) : Strict Text :=
  if t.isEmpty then pure []
  else do
    let c ← first t
    pure (if ['[', ']', '>', ')', ',', ';'].contains c then t else ' ' :: t)

theorem column_eq {ps : List Parameter} (h : ps ≠ []) : column ps = pure (Parameter.column ps) := by
  cases ps with
  | nil => exact absurd rfl h
  | cons p ps => simp [column, Parameter.column, NameColumn.of, combine, Function.comp_def]

theorem openBrace_eq (t : Text) : openBrace t = pure (SourceLayout.openBrace t) := by
  rcases List.eq_nil_or_concat t with rfl | ⟨r, c, rfl⟩
  · rfl
  · rw [List.concat_eq_append, openBrace, last_concat, SourceLayout.openBrace, List.getLast?_concat]
    simp

theorem afterBrace_eq (t : Text) : afterBrace t = pure (SourceLayout.afterBrace t) := by
  cases t <;> rfl

/-! ## Call signatures -/

/-- The lines of a parameter. `object` writes out the object type in its type, if it has one. -/
def parameterLines (col : NameColumn) (indent trailing : Text)
    (object : Text → Strict (Option (List Text))) (p : Parameter) : Strict (List Text) :=
  if p.type.isEmpty then pure (p.lines col indent trailing fun _ => none)
  else do
    let inside ← object (indent ++ col.cell p.name p.optional ++ [' ', ':', ' '])
    pure (p.lines col indent trailing fun _ => inside)

/-- The first object type of `type` with one member a line, found at nesting depth `depth`. At most
`calls` calls can be nested. -/
def expandObject (unit : Text) : (calls depth : Nat) → (type head indent trailing : Text) →
    Strict (Option (List Text))
  | 0, _, _, _, _, _ => throw .tooDeep
  | calls + 1, depth, type, head, indent, trailing =>
    if nestingLimit ≤ depth then pure none
    else match Parameter.objectTexts? type with
      | none => pure none
      | some (before, texts, after) => do
        let members := texts.map Parameter.read
        let inner := indent ++ unit
        let col ← column members
        let opening ← openBrace before
        let rows ← members.mapM fun m =>
          parameterLines col inner [';']
            (fun start => expandObject unit calls (depth + 1) m.type start inner [';']) m
        let suffix ← afterBrace after
        pure (some ((head ++ opening) :: rows.flatten ++ [indent ++ '}' :: suffix ++ trailing]))

def expandAll (unit : Text) (calls depth : Nat) (indent : Text) (ps : List Parameter) :
    Strict (List Text) :=
  if ps.isEmpty then pure []
  else do
    let col ← column ps
    let rows ← ps.zipIdx.mapM fun (p, i) =>
      let comma := if i < ps.length - 1 then [','] else []
      parameterLines col indent comma
        (fun start => expandObject unit calls depth p.type start indent comma) p
    pure rows.flatten

def signatureLines (cfg : Settings) (calls depth : Nat) (indent head : Text) (ls : List Text) :
    Strict (List Text) := do
  let body := ls.filter (!isBlankLine ·)
  let top ← first body
  let kept := keepLines cfg indent (indent ++ trim top) body
  if !cfg.expandMethods then pure kept
  else do
    let bottom ← last body
    match Signature.read? (body.dropLast ++ [bottom]) with
    | none => pure kept
    | some sig => do
      let rows ← expandAll cfg.indentUnit calls depth (indent ++ cfg.indentUnit)
        (Parameter.readAll sig.parameters)
      let closing := indent ++ [')', ':', ' '] ++ sig.result ++ [';'] ++
        (if sig.comment.isEmpty then [] else ' ' :: sig.comment)
      pure ((indent ++ head ++ [' ', '(']) :: rows ++ [closing])

theorem parameterLines_eq {p : Parameter} {col : NameColumn} {indent trailing : Text}
    {object : Text → Strict (Option (List Text))} {object? : Text → Option (List Text)}
    (h : ∀ start, object start = pure (object? start)) :
    parameterLines col indent trailing object p = pure (p.lines col indent trailing object?) := by
  unfold parameterLines Parameter.lines
  split
  · rfl
  · rw [h, pure_bind]

theorem objectTexts?_ne_nil {t before after : Text} {texts : List Text}
    (h : Parameter.objectTexts? t = some (before, texts, after)) : texts ≠ [] := by
  obtain ⟨i, -, h⟩ := Option.bind_eq_some_iff.mp h
  obtain ⟨⟨b, inside, a⟩, -, h⟩ := Option.bind_eq_some_iff.mp h
  simp only [Option.ite_none_left_eq_some, Option.some.injEq, Prod.mk.injEq] at h
  obtain ⟨hne, -, rfl, -⟩ := h
  simpa using hne

/-- Writing out an object type goes no deeper than the limit, and finds what it works on, since an
object type that is written out has members. -/
theorem expandObject_eq (unit : Text) {room calls depth : Nat} (h : room + depth = nestingLimit)
    (hcalls : room < calls) (type head indent trailing : Text) :
    expandObject unit calls depth type head indent trailing =
      pure (Parameter.expandObject unit room type head indent trailing) := by
  induction room generalizing calls depth type head indent trailing with
  | zero =>
    obtain ⟨calls, rfl⟩ := Nat.exists_eq_add_of_lt hcalls
    rw [expandObject, if_pos (by omega), Parameter.expandObject]
  | succ room ih =>
    obtain ⟨calls, rfl⟩ := Nat.exists_eq_add_of_lt hcalls
    rw [expandObject, if_neg (by omega), Parameter.expandObject]
    cases hobject : Parameter.objectTexts? type with
    | none => rfl
    | some parts =>
      obtain ⟨before, texts, after⟩ := parts
      have hne : texts.map Parameter.read ≠ [] := by simpa using objectTexts?_ne_nil hobject
      simp only [column_eq hne, openBrace_eq, afterBrace_eq, pure_bind]
      refine (mapM_bind fun m _ => parameterLines_eq fun start => ih ?_ ?_ m.type start _ _).trans
        ?_
      · omega
      · omega
      · rw [Option.map_some, List.flatMap_def]

theorem expandAll_eq (unit : Text) {room calls depth : Nat} (h : room + depth = nestingLimit)
    (hcalls : room < calls) (indent : Text) (ps : List Parameter) :
    expandAll unit calls depth indent ps = pure (Parameter.expandAll unit room indent ps) := by
  rw [expandAll, Parameter.expandAll]
  cases ps with
  | nil => rfl
  | cons p ps =>
    simp only [List.isEmpty_cons, Bool.false_eq_true, if_false, column_eq (List.cons_ne_nil p ps),
      pure_bind]
    refine (mapM_bind fun x _ => parameterLines_eq fun start =>
      expandObject_eq unit h hcalls x.1.type start _ _).trans ?_
    rw [List.flatMap_def]

/-- A member that shows a head has a first line and a last one. -/
theorem signatureLines_eq (cfg : Settings) {room calls depth : Nat}
    (h : room + depth = nestingLimit) (hcalls : room < calls) (indent head : Text) {ls : List Text}
    (hls : trim (ls.headD []) ≠ []) :
    signatureLines cfg calls depth indent head ls =
      pure (Signature.format cfg room indent head ls) := by
  obtain ⟨r, hbody⟩ := nonblank_of_head hls
  have hlast : last (ls.filter (!isBlankLine ·)) =
      pure ((ls.headD [] :: r).getLast (List.cons_ne_nil _ _)) := by
    rw [hbody, last, List.getLast?_eq_some_getLast (List.cons_ne_nil _ _)]
    rfl
  rw [signatureLines, Signature.format, hlast, hbody, first_cons]
  simp only [pure_bind, List.dropLast_concat_getLast, List.headD_cons]
  split
  · rfl
  · cases Signature.read? (ls.headD [] :: r) with
    | none => rfl
    | some sig =>
      simp only [expandAll_eq cfg.indentUnit h hcalls, pure_bind]
      rfl

end Strict

end SourceLayout
