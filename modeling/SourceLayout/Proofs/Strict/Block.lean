import SourceLayout.Proofs.Strict.Basic
import SourceLayout.Proofs.Kept.Member

/-! The members between a pair of braces, laid out by operations that can fail. What is written so
far is one list of lines, with the place where the run of comments at its end begins; it stands for
the finished lines and the comments of a layout. -/

namespace SourceLayout
open Text

namespace Strict

/-! ## Cutting lines into members -/

def onLine (t : Text) : Strict (List Text) := do
  let pieces := (Member.semicolonPieces t).map trim
  let closed := pieces.dropLast
  let rest := pieces.getLast?.getD []
  let shown (parts : List Text) : List Text := parts.filter fun p => !p.isEmpty && p != [';']
  if rest.isEmpty then pure (shown closed)
  else if !closed.isEmpty && Scan.commentStart? rest == some 0 then do
    let l ← last closed
    pure (shown (closed.dropLast ++ [l ++ ' ' :: rest]))
  else pure (shown (closed ++ [rest]))

def expandLine (carried : Bool) (line : Text) : Strict (List Text) :=
  let shown := trim line
  if carried || shown.isEmpty || startsWith shown "//" || startsWith shown "/*" ||
    startsWith shown "*" then
    pure [line]
  else do
    let parts ← onLine shown
    pure (if parts.length < 2 then [line] else parts.map (indentOf line ++ ·))

def expandFrom (s : Scan.State) : List Text → Strict (List Text)
  | [] => pure []
  | l :: r => do
    let here ← expandLine (s.inBlock || s.quote.isSome) l
    let rest ← expandFrom (Scan.feed s l) r
    pure (here ++ rest)

/-- The member on these lines, told by the first of them. -/
def member (ls : List Text) : Strict Member := do
  let top ← first ls
  pure (Member.ofLines (top :: ls.tail))

def members (ls : List Text) : Strict (List Member) := do
  let expanded ← expandFrom {} ls
  (Member.delimit expanded).mapM member

theorem onLine_eq (t : Text) : onLine t = pure (Member.onLine t) := by
  unfold onLine Member.onLine
  generalize (Member.semicolonPieces t).map trim = pieces
  simp only
  split
  · rfl
  · rcases List.eq_nil_or_concat pieces.dropLast with hnil | ⟨above, l, hconcat⟩
    · rw [hnil]
      simp
    · rw [hconcat, List.concat_eq_append, last_concat, List.getLast?_concat]
      have hne : (above ++ [l]).isEmpty = false := by simp
      simp only [hne, Bool.not_false, Bool.true_and, pure_bind]
      split <;> rfl

theorem expandFrom_eq (s : Scan.State) (ls : List Text) :
    expandFrom s ls = pure (Member.expandFrom s ls) := by
  have hline : ∀ carried l, expandLine carried l = pure (Member.expandLine carried l) := by
    intro carried l
    unfold expandLine Member.expandLine
    simp only [onLine_eq, pure_bind]
    split <;> rfl
  induction ls generalizing s with
  | nil => rfl
  | cons l r ih => rw [expandFrom, hline, ih, pure_bind, pure_bind, Member.expandFrom]

/-- Members have lines. -/
theorem delimitFrom_ne_nil {s : Scan.State} {current ls m : List Text}
    (hm : m ∈ Member.delimitFrom s current ls) :
    m ≠ [] := by
  induction ls generalizing s current with
  | nil =>
    unfold Member.delimitFrom at hm
    split at hm
    · cases hm
    · next hne =>
      rw [List.mem_singleton.mp hm]
      simpa using hne
  | cons l r ih =>
    unfold Member.delimitFrom at hm
    split at hm
    · exact ih hm
    · simp only at hm
      split at hm
      · rcases List.mem_cons.mp hm with rfl | hm
        · simp
        · exact ih hm
      · exact ih hm

theorem members_eq (ls : List Text) : members ls = pure (Block.members ls) := by
  rw [members, expandFrom_eq, pure_bind, Block.members]
  refine mapM_pure fun m hm => ?_
  obtain ⟨top, r, rfl⟩ := List.exists_cons_of_ne_nil (delimitFrom_ne_nil hm)
  rfl

/-! ## Object types over several lines -/

def braceStep (stack : List (Nat × Nat)) (x : Scan.Mark × Nat) : Strict (List (Nat × Nat)) :=
  if x.1.char == '{' then pure ((x.2, x.1.depth) :: stack)
  else if x.1.char == '}' && !stack.isEmpty then
    match stack with
    | [] => throw .noBracket
    | _ :: r => pure r
  else pure stack

def objectSpan (ls : List Text) : Strict (Option ObjectSpan) :=
  if ls.length < 2 then pure none
  else do
    let top := trim (← first ls)
    let bottom := trim (← last ls)
    let braces ← (Scan.codeMarks top).foldlM braceStep []
    if braces.isEmpty then pure none
    else do
      let (opener, depth) ← first braces
      pure do
        let s ← ObjectSpan.pass? depth (Scan.feed {} top) ls.tail.dropLast
        let closer ← ObjectSpan.closing? depth s bottom
        return {
          before := top.take opener
          afterOpen := trim (top.drop (opener + 1))
          middle := ls.tail.dropLast
          beforeClose := trim (bottom.take closer)
          closing := trim (bottom.drop closer) }

theorem openBraces_eq (t : Text) :
    (Scan.codeMarks t).foldlM braceStep [] = pure (ObjectSpan.openBraces t) := by
  have hstep : ∀ stack x, braceStep stack x = pure (ObjectSpan.braceStep stack x) := by
    intro stack x
    unfold braceStep ObjectSpan.braceStep
    split
    · rfl
    · cases stack with
      | nil => simp
      | cons b stack =>
        simp only [List.isEmpty_cons, Bool.not_false, Bool.and_true, List.tail_cons]
        split <;> rfl
  rw [funext fun stack => funext (hstep stack), List.foldlM_pure, ObjectSpan.openBraces]

theorem objectSpan_eq (ls : List Text) : objectSpan ls = pure (ObjectSpan.read? ls) := by
  unfold objectSpan ObjectSpan.read?
  match ls with
  | [] => rfl
  | [l] => rfl
  | l :: l' :: r =>
    obtain ⟨above, z, hz⟩ : ∃ above z, l' :: r = above ++ [z] :=
      ⟨_, _, (List.dropLast_concat_getLast (List.cons_ne_nil l' r)).symm⟩
    have hlast : last (l :: l' :: r) = pure z := by rw [hz, ← List.cons_append, last_concat]
    have hlast? : (l' :: r).getLast? = some z := by rw [hz, List.getLast?_concat]
    simp only [hlast, first_cons, openBraces_eq, pure_bind, List.tail_cons, hlast?, List.head?_cons,
      Option.bind_eq_bind, Option.bind_some]
    cases ObjectSpan.openBraces (trim l) with
    | nil => rfl
    | cons b bs => rfl

/-- The object type that is the value of a field, and what stands in front of its brace. -/
def nestedSpan (head : FieldHead) (ls : List Text) : Strict (Option (Text × ObjectSpan)) := do
  match ← objectSpan ls with
  | none => pure none
  | some span =>
    let top ← first ls
    let start := (trim top).length - head.value.length
    pure (if span.before.length < start then none else some (trim (span.before.drop start), span))

theorem nestedSpan_eq (head : FieldHead) (ls : List Text) :
    nestedSpan head ls = pure (Member.nestedSpan? head ls) := by
  rw [nestedSpan, Member.nestedSpan?, objectSpan_eq, pure_bind]
  cases hspan : ObjectSpan.read? ls with
  | none => rfl
  | some span =>
    cases ls with
    | nil => cases hspan
    | cons l r => rfl

/-! ## Placing members -/

/-- What is written so far, and where the comments at its end begin, if there are any. -/
structure Draft where
  lines : List Text := []
  run : Option Nat := none

/-- The draft with an empty line above the comments at its end, unless nothing is there or
one is there already. -/
def setOff (d : Draft) : Strict (List Text) :=
  let start := d.run.getD d.lines.length
  if 0 < start then do
    let above ← item d.lines (start - 1)
    pure (if above.isEmpty then d.lines else d.lines.take start ++ [] :: d.lines.drop start)
  else pure d.lines

/-- The lines of a field. `inner` lays out the lines between its braces. -/
def fieldLines (cfg : Settings) (inner : Text → List Text → Strict (List Text)) (indent : Text)
    (col : NameColumn) (head : FieldHead) (ls : List Text) : Strict (List Text) :=
  let label := indent ++ col.cell head.key head.optional ++ [' ', ':']
  let body := ls.filter (!isBlankLine ·)
  let first := label ++ ' ' :: head.value
  if body.length = 1 then pure [trimRight first]
  else do
    match ← nestedSpan head body with
    | none => pure (keepLines cfg indent first body)
    | some (before, span) => do
      let rows ← inner indent (span.content (indent ++ cfg.indentUnit))
      pure ((label ++ ' ' :: before ++ ['{']) :: rows ++ [indent ++ span.closing])

def place (cfg : Settings) (calls depth : Nat) (inner : Text → List Text → Strict (List Text))
    (indent : Text) (col : NameColumn) (d : Draft) (m : Member) : Strict Draft :=
  match m.kind with
  | .comment => pure
    { lines := d.lines ++ Member.commentLines indent m.lines,
      run := some (d.run.getD d.lines.length) }
  | .method head => do
    let above ← setOff d
    let rows ← signatureLines cfg calls depth indent (padTo col.cellWidth ' ' head.token) m.lines
    pure { lines := above ++ rows }
  | .field head => do
    let rows ← fieldLines cfg inner indent col head m.lines
    pure { lines := d.lines ++ rows }
  | .unknown => pure { lines := d.lines ++ Member.plainLines indent m.lines }

/-- The lines between a pair of braces at nesting depth `depth`. At most
`calls` calls can be nested. -/
def blockLines (cfg : Settings) :
    (calls depth : Nat) → (base : Text) → List Text → Strict (List Text)
  | 0, _, _, _ => throw .tooDeep
  | calls + 1, depth, base, ls =>
    if nestingLimit < depth then pure (Member.plainLines (base ++ cfg.indentUnit) ls)
    else do
      let ms ← members ls
      let out ← ms.foldlM
        (place cfg calls depth (blockLines cfg calls (depth + 1)) (base ++ cfg.indentUnit)
          (Member.column ms)) {}
      pure out.lines

/-- A draft shows the lines of a layout, and its run begins where the finished lines end. -/
structure Draft.Shows (d : Draft) (out : Member.Layout) : Prop where
  lines : d.lines = out.done ++ out.comments
  run : d.run.getD d.lines.length = out.done.length

theorem setOff_eq {d : Draft} {out : Member.Layout} (h : d.Shows out) :
    setOff d = pure (Member.setOff out.done ++ out.comments) := by
  rw [setOff, h.run, h.lines, Member.setOff]
  rcases List.eq_nil_or_concat out.done with hnil | ⟨above, l, hconcat⟩
  · rw [hnil]
    rfl
  · rw [hconcat, List.concat_eq_append, List.getLast?_concat]
    have hitem : item (above ++ [l] ++ out.comments) ((above ++ [l]).length - 1) = pure l :=
      item_of_getElem? (by simp)
    rw [if_pos (by simp), hitem, pure_bind, List.take_left, List.drop_left]
    split
    · next hempty => simp [hempty]
    · next hempty => simp [hempty]

theorem foldlM_shows {f : Draft → Member → Strict Draft}
    {g : Member.Layout → Member → Member.Layout} {ms : List Member}
    (hstep : ∀ m ∈ ms, ∀ d out, d.Shows out → ∃ d', f d m = pure d' ∧ d'.Shows (g out m))
    {d : Draft} {out : Member.Layout} (h : d.Shows out) :
    ∃ d', ms.foldlM f d = pure d' ∧ d'.Shows (ms.foldl g out) := by
  induction ms generalizing d out with
  | nil => exact ⟨d, rfl, h⟩
  | cons m ms ih =>
    obtain ⟨hm, hms⟩ := List.forall_mem_cons.mp hstep
    obtain ⟨d', hd, hshows⟩ := hm d out h
    rw [List.foldlM_cons, hd, pure_bind, List.foldl_cons]
    exact ih hms hshows

section

variable {cfg : Settings} {room : Nat} {inner : Text → List Text → Strict (List Text)}
    {indent : Text}
  {col : NameColumn} (hinner : ∀ base ls, inner base ls = pure (Block.format cfg room base ls))
include hinner

theorem fieldLines_eq (head : FieldHead) (ls : List Text) :
    fieldLines cfg inner indent col head ls =
      pure (Member.fieldLines cfg (Block.format cfg room) indent col head ls) := by
  rw [fieldLines, Member.fieldLines, Member.nestedField?, nestedSpan_eq, pure_bind]
  simp only
  split
  · rfl
  · cases Member.nestedSpan? head (ls.filter (!isBlankLine ·)) with
    | none => rfl
    | some x =>
      simp only [hinner, pure_bind]
      rfl

/-- One member: nothing slips, and the draft goes on to show the layout. -/
theorem place_shows {calls depth : Nat} (hroom : room + depth = nestingLimit)
    (hcalls : room < calls) {ls : List Text} {d : Draft} {out : Member.Layout} (h : d.Shows out) :
    ∃ d', place cfg calls depth inner indent col d (Member.ofLines ls) = pure d' ∧
      d'.Shows (Member.place cfg room (Block.format cfg room) indent col out
        (Member.ofLines ls)) := by
  rw [place, Member.place]
  cases hkind : (Member.ofLines ls).kind with
  | comment =>
    refine ⟨_, rfl, ?_, ?_⟩
    · simp [h.lines]
    · simp [h.run]
  | method head =>
    have hhead : trim ((Member.ofLines ls).lines.headD []) ≠ [] := by
      intro hnil
      have hread := Member.kindOf_method hkind
      rw [show ls = (Member.ofLines ls).lines from rfl, hnil] at hread
      cases hread
    simp only [setOff_eq h, signatureLines_eq cfg hroom hcalls indent _ hhead, pure_bind]
    exact ⟨_, rfl, by simp, by simp⟩
  | field head =>
    simp only [fieldLines_eq hinner, pure_bind]
    exact ⟨_, rfl, by simp [h.lines], by simp [h.lines]⟩
  | unknown => exact ⟨_, rfl, by simp [h.lines], by simp [h.lines]⟩

end

/-- The layout of a block goes no deeper than the limit, and finds what it works on, since members
have lines and a run of comments begins behind lines that are there. -/
theorem blockLines_eq (cfg : Settings) {room calls depth : Nat}
    (h : room + depth = nestingLimit + 1) (hcalls : room < calls) (base : Text) (ls : List Text) :
    blockLines cfg calls depth base ls = pure (Block.format cfg room base ls) := by
  induction room generalizing calls depth base ls with
  | zero =>
    obtain ⟨calls, rfl⟩ := Nat.exists_eq_add_of_lt hcalls
    rw [blockLines, if_pos (by omega), Block.format]
  | succ room ih =>
    obtain ⟨calls, rfl⟩ := Nat.exists_eq_add_of_lt hcalls
    rw [blockLines, if_neg (by omega), Block.format, members_eq, pure_bind]
    have hinner : ∀ base ls, blockLines cfg (room + 1 + calls) (depth + 1) base ls =
        pure (Block.format cfg room base ls) := ih (by omega) (by omega)
    have hstep : ∀ m ∈ Block.members ls, ∀ d out, d.Shows out →
        ∃ d', place cfg (room + 1 + calls) depth (blockLines cfg (room + 1 + calls) (depth + 1))
            (base ++ cfg.indentUnit) (Member.column (Block.members ls)) d m = pure d' ∧
          d'.Shows (Member.place cfg room (Block.format cfg room) (base ++ cfg.indentUnit)
            (Member.column (Block.members ls)) out m) := by
      intro m hm d out hd
      obtain ⟨lines, -, rfl⟩ := List.mem_map.mp hm
      exact place_shows hinner (by omega) (by omega) hd
    have hstart : Draft.Shows {} {} := ⟨rfl, rfl⟩
    obtain ⟨d, hfold, hshows⟩ := foldlM_shows hstep hstart
    rw [hfold, pure_bind, hshows.lines]

end Strict

end SourceLayout
