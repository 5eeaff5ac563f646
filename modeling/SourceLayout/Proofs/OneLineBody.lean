import SourceLayout.Proofs.Kept.Declaration
import SourceLayout.Proofs.Lexing
import SourceLayout.Proofs.LineByLine

/-! The body of a declaration on its last line. It is found by reading all the lines, and
laid out by reading the last line alone; the two readings agree on the closing brace
whenever they agree on the opening one, and on that if and only if the text in front of it,
read alone, leaves nothing open. -/

namespace SourceLayout.Scan
open Text

/-! ## Braces as the first marks of their kind -/

/-- The bracket that closes an opening one is the first of its kind outside all others. -/
theorem matching?_eq {o c : Char} (ho : isOpener o = true) (hc : openerOf c = some o) (r : Text) :
    matching? (o :: r) = (marks (o :: r)).findIdx? fun m => m.isCode &&
    (m.char == c && m.depth == 0) := by
  have hne : o ≠ c := by
    rintro rfl
    rw [isOpener_of_openerOf hc] at ho
    cases ho
  have hmarks : marks (o :: r) = _ := marksFrom_opener ho rfl r
  rw [matching?_opener ho, hmarks, List.findIdx?_cons]
  simp only [beq_eq_false_iff_ne.mpr hne, Bool.false_and, Bool.and_false, Bool.false_eq_true,
    ↓reduceIte]
  congr 1
  cases hi : (marksFrom .free { stack := [o], previous := some o } r).findIdx?
      fun m => m.isTop && isCloser m.char with
  | none =>
    rw [eq_comm, List.findIdx?_eq_none_iff]
    rw [List.findIdx?_eq_none_iff] at hi
    intro m hm
    have hno := hi m hm
    rw [Bool.eq_false_iff] at hno ⊢
    intro htop
    simp only [Bool.and_eq_true, beq_iff_eq] at htop
    exact hno (by simp [Mark.isTop, isCloser, htop, hc])
  | some i =>
    obtain ⟨inner, d, s', rest, he, hl, hd, -, hin⟩ := closes_outermost .free _ r [] rfl hi
    obtain rfl := eq_of_openerOf hd hc
    rw [he, List.findIdx?_append]
    have hinner : inner.findIdx? (fun m => m.isCode && (m.char == d && m.depth == 0)) = none := by
      rw [List.findIdx?_eq_none_iff]
      intro m hm
      cases hcode : m.isCode with
      | false => rfl
      | true =>
        have hdepth := hin m hm hcode
        have hzero : (m.depth == 0) = false := by
          rw [beq_eq_false_iff_ne]
          omega
        rw [hzero, Bool.and_false, Bool.and_false]
    rw [hinner, List.findIdx?_cons]
    simp [Mark.isCode, hl]

/-- Whether a text, read alone, leaves nothing open and holds no brace outside brackets. -/
def leadsIn (lead : Text) : Bool :=
  (endFrom .free {} lead).1 == .free && (feed {} lead).settled && (findTop? ['{'] lead).isNone

private theorem marksFrom_brace {s : State} (h : InCode (.free, s)) (r : Text) :
    ∃ ms, marksFrom .free s ('{' :: r) = ⟨'{', s.depth, .code⟩ :: ms := by
  have hstep : step .free s '{' r.head? = (⟨'{', s.depth, .code⟩, .free, s.readCode '{') := by
    simp [step, stepFree, show s.quote = none from h.quote, show s.inBlock = false from h.inBlock,
      isQuote, State.readCode, State.depth, isOpener]
  exact ⟨marksFrom .free (s.readCode '{') r, by rw [marksFrom_cons, hstep]⟩

/-- A brace is the first one outside brackets if and only if the text in front of it leads in. -/
theorem findTop?_eq_some_iff {t : Text} {col : Nat} (h : t[col]? = some '{') :
    findTop? ['{'] t = some col ↔ leadsIn (t.take col) = true := by
  obtain ⟨hlt, hget⟩ := List.getElem?_eq_some_iff.mp h
  have hdrop : t.drop col = '{' :: t.drop (col + 1) := by rw [List.drop_eq_getElem_cons hlt, hget]
  have hlen : (marks (t.take col)).length = col := by
    rw [length_marks, List.length_take]
    omega
  -- where the text in front ends in code, the brace is marked with the brackets that are open there
  have hsplit (hend : Closes (t.take col)) :
      ∃ ms, marks t = marks (t.take col) ++ ⟨'{', (feed {} (t.take col)).depth, .code⟩ :: ms := by
    have hcut : Cuts .free {} (t.take col) (t.drop col) :=
      .inr ⟨by rw [hdrop]; simp, .of_none rfl, hend.quote⟩
    have hmarks := marksFrom_cut hcut
    obtain ⟨ms, hbrace⟩ := marksFrom_brace (s := (endFrom .free {} (t.take col)).2) ⟨rfl, hend.lex⟩
      (t.drop (col + 1))
    rw [List.take_append_drop, hend.phase, hdrop, hbrace, ← feed_eq] at hmarks
    exact ⟨ms, hmarks⟩
  have hnone_iff : findTop? ['{'] (t.take col) = none ↔
      ∀ m ∈ marks (t.take col), (m.isTop && m.char == '{') = false := by
    rw [findTop?_eq, List.findIdx?_eq_none_iff]
  rw [leadsIn, Bool.and_eq_true, Bool.and_eq_true, beq_iff_eq, Option.isNone_iff_eq_none, hnone_iff,
    findTop?_eq]
  constructor
  · intro hfind
    obtain ⟨hi, htop, hbefore⟩ := List.findIdx?_eq_some_iff_getElem.mp hfind
    simp only [Bool.and_eq_true, beq_iff_eq, Mark.isTop] at htop
    have hcut := endBefore_code (List.getElem?_eq_getElem hi) htop.1.1 (by rw [htop.2]; decide)
    have hend : Closes (t.take col) := by
      rw [Closes, (cut_inCode hcut).1]
      exact hcut
    obtain ⟨ms, hmarks⟩ := hsplit hend
    have hbrace : (marks t)[col]? = some ⟨'{', (feed {} (t.take col)).depth, .code⟩ := by
      rw [hmarks, List.getElem?_append_right (by omega), hlen, Nat.sub_self,
        List.getElem?_cons_zero]
    obtain ⟨_, hbrace⟩ := List.getElem?_eq_some_iff.mp hbrace
    rw [hbrace] at htop
    have hstack : (feed {} (t.take col)).stack = [] := List.eq_nil_of_length_eq_zero htop.1.2
    refine ⟨⟨hend.phase, settled_iff.mpr ⟨hstack, ?_, ?_⟩⟩, fun m hm => ?_⟩
    · rw [feed_eq, hend.quote]
    · rw [feed_eq, hend.inBlock]
    · obtain ⟨j, hj, rfl⟩ := List.mem_iff_getElem.mp hm
      have hsame : (marks t)[j]? = some (marks (t.take col))[j] := by
        rw [hmarks, List.getElem?_append_left hj, List.getElem?_eq_getElem hj]
      obtain ⟨_, hsame⟩ := List.getElem?_eq_some_iff.mp hsame
      rw [← hsame]
      simpa using hbefore j (by omega)
  · rintro ⟨⟨hphase, hsettled⟩, hnone⟩
    obtain ⟨hstack, hq, hb⟩ := settled_iff.mp hsettled
    have hend : Closes (t.take col) := ⟨hphase, by rw [← feed_eq, State.lex, hq, hb]⟩
    obtain ⟨ms, hmarks⟩ := hsplit hend
    rw [hmarks, List.findIdx?_append, List.findIdx?_eq_none_iff.mpr hnone, List.findIdx?_cons]
    simp [Mark.isTop, Mark.isCode, State.depth, hstack, hlen]

end SourceLayout.Scan

namespace SourceLayout.Block
open Text Scan

/-- The braces between which a body on one line is laid out. -/
def bracePair? (line : Text) : Option (Nat × Nat) :=
  (findTop? ['{'] line).bind fun opener => (matching? (line.drop opener)).map fun n =>
    (opener, opener + n)

def expandBetween (cfg : Settings) (room : Nat) (base line : Text) (opener closer : Nat) :
    List Text :=
  let content := trim ((line.drop (opener + 1)).take (closer - opener - 1))
  if content.isEmpty then [line]
  else trimRight (line.take opener ++ ['{']) ::
    format cfg room base [base ++ cfg.indentUnit ++ Member.terminate content] ++
      [base ++ '}' :: afterBrace (trim (line.drop (closer + 1)))]

theorem formatOneLine_eq (cfg : Settings) (room : Nat) (base line : Text) :
    formatOneLine cfg room base line =
      ((bracePair? line).map fun x => expandBetween cfg room base line x.1 x.2).getD [line] := by
  rw [formatOneLine, bracePair?]
  cases findTop? ['{'] line with
  | none => rfl
  | some opener =>
    rw [Option.bind_some, Option.bind_some, braceParts?, aroundPair?]
    cases matching? (line.drop opener) with
    | none => rfl
    | some n =>
      have hinner : opener + n - opener - 1 = n - 1 := by omega
      simp only [Option.map_some, Option.bind_eq_bind, Option.bind_some, Option.getD_some,
        expandBetween, hinner]
      cases (trim ((line.drop (opener + 1)).take (n - 1))).isEmpty <;> rfl

end SourceLayout.Block

namespace SourceLayout.Declaration
open Text Scan

/-- A character that is found in the lines is found in its line, read from the state before it. -/
theorem findMark?_eq_some {p : Mark → Bool} {s : State} {ls : List Text} {row col : Nat}
    (h : findMark? p s ls = some (row, col)) :
    row < ls.length ∧
      (marks (ls.getD row []) (feedAll s (ls.take row))).findIdx? (fun m => m.isCode && p m) =
        some col := by
  induction ls generalizing s row with
  | nil => cases h
  | cons l r ih =>
    unfold findMark? at h
    split at h
    · next c hc =>
      cases h
      exact ⟨Nat.zero_lt_succ _, hc⟩
    · obtain ⟨⟨row', col'⟩, hr, h⟩ := Option.map_eq_some_iff.mp h
      cases h
      obtain ⟨hlt, hfind⟩ := ih hr
      exact ⟨Nat.succ_lt_succ hlt, hfind⟩

/-- A declaration whose body does not close on the last line stays as it is or
is a list of members. -/
theorem shape_cases (ls : List Text) :
    (shape ls = .union ∧ Union.isUnion ls = true ∨ shape ls = .plain ∨ shape ls = .unclosed) ∨
      ∃ row col closeRow close, bodyBrace? ls = some (row, col) ∧
        closingBrace? ls row col = some (closeRow, close) ∧ closeRow + 1 = ls.length ∧
        shape ls = if row + 1 == ls.length then .oneLine row else .body row col close := by
  unfold shape
  split
  · next hunion => exact .inl (.inl ⟨rfl, hunion⟩)
  cases hb : bodyBrace? ls with
  | none => exact .inl (.inr (.inl rfl))
  | some x =>
    obtain ⟨row, col⟩ := x
    simp only
    split
    · exact .inl (.inr (.inl rfl))
    cases hc : closingBrace? ls row col with
    | none => exact .inl (.inr (.inr rfl))
    | some y =>
      obtain ⟨closeRow, close⟩ := y
      simp only
      split
      · exact .inl (.inr (.inr rfl))
      · next hlast => exact .inr ⟨row, col, closeRow, close, rfl, hc, by simpa using hlast, rfl⟩

theorem shape_oneLine {ls : List Text} {row : Nat} (h : shape ls = .oneLine row) :
    row + 1 = ls.length ∧ ∃ col close, bodyBrace? ls = some (row, col) ∧
      closingBrace? ls row col = some (row, close) := by
  rcases shape_cases ls with hother | ⟨row', col, closeRow, close, hb, hc, hlast, hshape⟩
  · simp [h] at hother
  · rw [h] at hshape
    split at hshape
    · next hrow =>
      cases hshape
      rw [beq_iff_eq] at hrow
      obtain rfl : closeRow = row := by omega
      exact ⟨hrow, col, close, hb, hc⟩
    · cases hshape

/-- On the last line the body closes where its brace is matched. -/
theorem closingBrace?_eq {ls : List Text} {row col : Nat} {r : Text} (hlast : row + 1 = ls.length)
    (h : (ls.getD row []).drop col = '{' :: r) :
    closingBrace? ls row col = (matching? ((ls.getD row []).drop col)).map fun n =>
    (row, col + n) := by
  have hdrop : ls.drop row = [ls.getD row []] := by
    rw [drop_row (by omega), hlast, List.drop_length]
  rw [closingBrace?, hdrop]
  simp only [findMark?]
  rw [h, matching?_eq (by decide) (c := '}') rfl, ← h]
  cases (marks ((ls.getD row []).drop col)).findIdx? fun m => m.isCode &&
    (m.char == '}' && m.depth == 0) <;> rfl

/-- Where the lines before it leave nothing open, the last line is read as it is read alone. -/
theorem findTop?_of_bodyBrace? {ls : List Text} {row col : Nat}
    (h : bodyBrace? ls = some (row, col)) (hs : (feedAll {} (ls.take row)).settled = true) :
    findTop? ['{'] (ls.getD row []) = some col := by
  obtain ⟨-, hfind⟩ := findMark?_eq_some h
  obtain ⟨hstack, hquote, hblock⟩ := settled_iff.mp hs
  have hbare : (feedAll {} (ls.take row)).Bare {} :=
    ⟨hstack, rfl, by rw [State.lex, hquote, hblock]; rfl⟩
  rw [marks, hbare.marksFrom, ← marks] at hfind
  have htop : (fun m : Mark => m.isTop && m.char == '{') =
      fun m => m.isCode && (m.char == '{' && m.depth == 0) := by
    funext m
    rw [Mark.isTop, Bool.and_assoc, Bool.and_comm (m.depth == 0)]
  rw [findTop?_eq, htop, hfind]

/-- The pair of braces between which the last line is laid out is the body that was found if and
only if the text in front of the body, read alone, leaves nothing open and holds no other brace. It
is whenever the lines before the last one leave nothing open. -/
theorem oneLine_braces_iff {ls : List Text} {row : Nat} (h : shape ls = .oneLine row)
    (cfg : Settings) :
    let line := ls.getD row []
    ∃ col close, bodyBrace? ls = some (row, col) ∧ closingBrace? ls row col = some (row, close) ∧
      format cfg ls = ls.take row ++ ((Block.bracePair? line).map fun x =>
        Block.expandBetween cfg (roomAt 0) (indentOf (ls.headD [])) line x.1 x.2).getD [line] ∧
      (Block.bracePair? line = some (col, close) ↔ leadsIn (line.take col) = true) ∧
      ((feedAll {} (ls.take row)).settled = true → Block.bracePair? line = some (col, close)) := by
  intro line
  obtain ⟨hlast, col, close, hopen, hclose⟩ := shape_oneLine h
  have hget : (ls.getD row [])[col]? = some '{' := by
    obtain ⟨l, m, hl, hm, hp⟩ := findMark?_spec hopen
    simp only [Bool.and_eq_true, beq_iff_eq] at hp
    rw [List.getD_eq_getElem?_getD, hl, Option.getD_some, hm, hp.1]
  obtain ⟨hlt, hchar⟩ := List.getElem?_eq_some_iff.mp hget
  have hdrop : line.drop col = '{' :: line.drop (col + 1) := by
    rw [List.drop_eq_getElem_cons hlt, hchar]
  obtain ⟨n, hn, rfl⟩ : ∃ n, matching? (line.drop col) = some n ∧ col + n = close := by
    rw [closingBrace?_eq hlast hdrop, Option.map_eq_some_iff] at hclose
    obtain ⟨n, hn, heq⟩ := hclose
    exact ⟨n, hn, congrArg Prod.snd heq⟩
  -- the closing brace hangs on the opening one alone
  have hpair : Block.bracePair? line = some (col, col + n) ↔ findTop? ['{'] line = some col := by
    rw [Block.bracePair?]
    constructor
    · intro hp
      obtain ⟨i, hi, hp⟩ := Option.bind_eq_some_iff.mp hp
      obtain ⟨k, -, hp⟩ := Option.map_eq_some_iff.mp hp
      exact hi.trans (congrArg (fun x => some x.1) hp)
    · intro hi
      rw [hi, Option.bind_some, hn]
      rfl
  refine ⟨col, col + n, hopen, hclose, ?_, hpair.trans (findTop?_eq_some_iff hget), fun hs => ?_⟩
  · rw [format, h, ← Block.formatOneLine_eq]
  · exact hpair.mpr (findTop?_of_bodyBrace? hopen hs)

/-- A head over two lines that leaves nothing open on the first. -/
theorem oneLine_braces_iff_extends :
    let ls :=
  ["interface A<T> // \x7b".toList, "  extends B<\x7b c: T \x7d> \x7b a: string \x7d".toList]
    shape ls = .oneLine 1 ∧ ∃ col close, bodyBrace? ls = some (1, col) ∧
      closingBrace? ls 1 col = some (1, close) ∧
      Block.bracePair? (ls.getD 1 []) = some (col, close) := by
  intro ls
  have hshape : shape ls = .oneLine 1 := by decide +kernel
  obtain ⟨col, close, hopen, hclose, -, -, hsettled⟩ := oneLine_braces_iff hshape {}
  exact ⟨hshape, col, close, hopen, hclose, hsettled (by decide +kernel)⟩

/-- With the generics of the head still open on the last line, the braces of a bound are laid out
in place of the body. -/
theorem oneLine_braces_open_generics :
    let ls := ["interface A<".toList, "  T extends \x7b x: string \x7d> \x7b a: string \x7d".toList]
    shape ls = .oneLine 1 ∧ bodyBrace? ls = some (1, 27) ∧ closingBrace? ls 1 27 = some (1, 39) ∧
      Block.bracePair? (ls.getD 1 []) = some (12, 24) := by
  decide +kernel

end SourceLayout.Declaration
