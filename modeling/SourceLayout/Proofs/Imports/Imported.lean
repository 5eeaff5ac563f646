import SourceLayout.Proofs.Imports.Laid
import SourceLayout.Proofs.Imports.Unbroken
import SourceLayout.Proofs.Imports.Reread

/-! What an import imports. It is read from the code of a statement: whether it imports types only,
its default name, the names between its braces and its module. Breaking an over-long statement into
lines joins its names on one line first and keeps all of it if and only if that keeps the names: a
name behind a line comment becomes part of the comment. -/

namespace SourceLayout
open Text

/-! ## Statements on one line -/

namespace Text

theorem joinWrapped_append_cons (x : Text) {c : Char} (hc : isBlank c = false) (y : Text) :
    joinWrapped (x ++ c :: y) = joinWrapped x ++ c :: joinWrapped y := by
  have hgo (run : Text) : joinWrapped.go run (x ++ c :: y) = joinWrapped.go run x ++ c ::
      joinWrapped y := by
    induction x generalizing run with
    | nil => simp [joinWrapped.go, hc, joinWrapped]
    | cons d x ih =>
      rw [List.cons_append, joinWrapped.go, joinWrapped.go]
      split
      · exact ih _
      · simp [ih]
  exact hgo []

theorem joinWrapped_shown_append {x : Text} (hx : x.all (!isBlank ·) = true) (y : Text) :
    joinWrapped (x ++ y) = x ++ joinWrapped y := by
  induction x with
  | nil => rfl
  | cons c x ih =>
    rw [List.all_cons, Bool.and_eq_true, Bool.not_eq_true'] at hx
    rw [List.cons_append, joinWrapped_cons hx.1, ih hx.2]
    rfl

theorem joinWrapped_lead {b l : Text} (hb : isBlankLine b = true)
    (hl : ∀ c ∈ l.head?, isBlank c = false) :
    joinWrapped (b ++ l) = joinWrapped.release b.reverse ++ joinWrapped l := by
  cases l with
  | nil =>
    rw [joinWrapped, joinWrapped_go_blank hb]
    simp [joinWrapped, joinWrapped.go, joinWrapped.release]
  | cons c l => exact joinWrapped_blank_append hb rfl (hl c rfl)

theorem release_blank {b : Text} (hb : isBlankLine b = true) :
    isBlankLine (joinWrapped.release b.reverse) = true ∧
    (b ≠ [] → joinWrapped.release b.reverse ≠ []) := by
  refine ⟨isBlankLine_release (isBlankLine_reverse hb), fun hne hnil => ?_⟩
  obtain ⟨e, he, -⟩ := release_head hb hne
  rw [hnil] at he
  cases he

theorem trimRight_append_cons (x : Text) {c : Char} (hc : isBlank c = false) (y : Text) :
    trimRight (x ++ c :: y) = x ++ c :: trimRight y := by
  have hshown : isBlankLine (c :: y) = false := by simp [isBlankLine, hc]
  rw [trimRight_append_shown x hshown]
  cases hy : isBlankLine y with
  | false => exact congrArg (x ++ ·) (trimRight_append_shown [c] hy)
  | true =>
    have hnil := trimRight_append_blank [] hy
    have hone := trimRight_append_blank [c] hy
    rw [List.nil_append] at hnil
    rw [show [c] ++ y = c :: y from rfl] at hone
    rw [hone, hnil, trimRight_eq_self (by simp [hc])]
    rfl

end Text

namespace NamedImport

theorem shown_of_nameChar {name : Text} (h : ∀ c ∈ name, isNameChar c = true) :
    name.all (!isBlank ·) = true := by
  rw [List.all_eq_true]
  intro c hc
  rw [Bool.not_eq_true', Bool.eq_false_iff]
  intro hblank
  have hchar := h c hc
  rw [Scan.not_nameChar_of_blank hblank] at hchar
  cases hchar

theorem Lead.joined {d : Option Text} {l : Text} (h : Lead d l) :
    Lead d (joinWrapped l) ∧ ∀ c ∈ l.head?, isBlank c = false := by
  cases h with
  | bare => exact ⟨.bare, by simp⟩
  | @named name b b' hne hname hb hb' =>
    have hshown := shown_of_nameChar hname
    have hjoined : joinWrapped (name ++ (b ++ ',' :: b')) =
        name ++ (joinWrapped.release b.reverse ++ ',' :: joinWrapped b') := by
      rw [joinWrapped_shown_append hshown, joinWrapped_lead hb (by simp [isBlank]),
        joinWrapped_cons rfl]
    constructor
    · rw [hjoined]
      exact .named hne hname (release_blank hb).1 (joinWrapped_blank hb')
    · intro c hc
      obtain ⟨e, u, rfl⟩ := List.exists_cons_of_ne_nil hne
      cases hc
      rw [List.all_cons, Bool.and_eq_true, Bool.not_eq_true'] at hshown
      exact hshown.1

theorem Opening.head {k : Bool} {d : Option Text} {o : Text} (h : Opening k d o) :
    o.head? = some 'i' := by
  cases h <;> rfl

theorem Opening.joined {k : Bool} {d : Option Text} {o : Text} (h : Opening k d o) :
    Opening k d (joinWrapped o) := by
  cases h with
  | @plain b d l hb hne hl =>
    obtain ⟨hlead, hhead⟩ := hl.joined
    rw [joinWrapped_shown_append rfl, joinWrapped_lead hb hhead]
    exact .plain (release_blank hb).1 ((release_blank hb).2 hne) hlead
  | @typed b b' d l hb hne hb' hne' hl =>
    obtain ⟨hlead, hhead⟩ := hl.joined
    rw [joinWrapped_shown_append rfl, joinWrapped_lead hb (fun c hc => by cases hc; rfl),
      joinWrapped_shown_append rfl, joinWrapped_lead hb' hhead]
    obtain ⟨hr, hkeep⟩ := release_blank hb
    obtain ⟨hr', hkeep'⟩ := release_blank hb'
    exact .typed hr (hkeep hne) hr' (hkeep' hne') hlead

theorem isEnd_cases {e : Text} (h : isEnd e = true) :
    isBlankLine e = true ∨ ∃ b, isBlankLine b = true ∧ e = b ++ [';'] := by
  simp only [isEnd, Bool.or_eq_true, beq_iff_eq] at h
  have he := indentOf_append_trimLeft e
  rcases h with h | h
  · rw [h, List.append_nil] at he
    exact .inl (he ▸ isBlankLine_indentOf e)
  · rw [h] at he
    exact .inr ⟨_, isBlankLine_indentOf e, he.symm⟩

/-- The end of a statement on one line, without the blanks behind it. -/
theorem isEnd_joined {e : Text} (h : isEnd e = true) :
    isEnd (trimRight (joinWrapped e)) = true := by
  rcases isEnd_cases h with hb | ⟨b, hb, rfl⟩
  · have hnil := trimRight_append_blank [] (joinWrapped_blank hb)
    rw [List.nil_append] at hnil
    rw [hnil]
    rfl
  · rw [joinWrapped_lead hb (by simp [isBlank]), trimRight_append_shown _ (by decide)]
    have htrim := trimLeft_blank_cons (release_blank hb).1 (c := ';') rfl []
    simp only [isEnd, Bool.or_eq_true, beq_iff_eq]
    exact .inr htrim

theorem Closing.joined {m r : Text} {q : Char} (h : Closing m r q) (hn : '\n' ∉ m) :
    Closing m (trimRight (joinWrapped r)) q ∧ isBlankLine (joinWrapped r) = false := by
  obtain ⟨b, b', e, hb, hb', he, rfl⟩ := h.shape
  have hq := isBlank_of_quote h.quote
  have hjoined : joinWrapped (b ++ ("from".toList ++ (b' ++ q :: (m ++ q :: e)))) =
      joinWrapped.release b.reverse ++
        ("from".toList ++ (joinWrapped.release b'.reverse ++ q :: (m ++ q :: joinWrapped e))) := by
    rw [joinWrapped_lead hb (fun c hc => by cases hc; rfl), joinWrapped_shown_append rfl,
      joinWrapped_lead hb' (by simp [hq]), joinWrapped_cons hq, joinWrapped_append_cons m hq,
      joinWrapped_line hn]
  rw [hjoined]
  constructor
  · have hjoin (e : Text) : joinWrapped.release b.reverse ++
        ("from".toList ++ (joinWrapped.release b'.reverse ++ q :: (m ++ q :: e))) =
        joinWrapped.release b.reverse ++
          ("from".toList ++ (joinWrapped.release b'.reverse ++ q :: m)) ++ q :: e := by
      simp
    refine ⟨h.quote, h.nonempty, _, _, trimRight (joinWrapped e), (release_blank hb).1,
      (release_blank hb').1, isEnd_joined he, ?_⟩
    rw [hjoin, trimRight_append_cons _ hq, hjoin]
  · rw [isBlankLine, List.all_append, List.all_append, show "from".toList.all isBlank =
      false from rfl]
    simp

/-- A statement of this shape on one line. -/
theorem flatten_shape {k : Bool} {d : Option Text} {o m r : Text} {q : Char} (ho : Opening k d o)
    (hr : Closing m r q) (hn : '\n' ∉ m) (names : Text) :
    Statement.flatten (o ++ '{' :: (names ++ '}' :: r)) =
      joinWrapped o ++ '{' :: (joinWrapped names ++ '}' :: trimRight (joinWrapped r)) := by
  have hhead : ∀ c, (joinWrapped o ++ '{' :: (joinWrapped names ++ '}' :: joinWrapped r)).head? =
    some c →
      isBlank c = false := by
    intro c hc
    rw [List.head?_append, ho.joined.head] at hc
    cases hc
    rfl
  have hjoin : joinWrapped o ++ '{' :: (joinWrapped names ++ '}' :: joinWrapped r) =
      (joinWrapped o ++ '{' :: (joinWrapped names ++ ['}'])) ++ joinWrapped r := by simp
  rw [Statement.flatten, joinWrapped_append_cons o rfl, joinWrapped_append_cons names rfl, trim,
    trimLeft_eq_self hhead, hjoin, trimRight_append_shown _ (hr.joined hn).2]
  simp

end NamedImport

/-! ## What is imported -/

structure Imported where
  typeOnly : Bool
  default? : Option Text
  names : List Text
  moduleName : Text
  deriving DecidableEq, Repr

/-- Reads what a statement imports from its code: its comments are removed, and in its names each
run of blanks counts as one space. -/
def Imported.read? (t : Text) : Option Imported := do
  let (typeOnly, default?, rest) ← NamedImport.head? (Scan.withoutComments t)
  let close ← Scan.findTop? ['}'] rest
  let moduleName ← NamedImport.tail? (rest.drop (close + 1))
  return { typeOnly, default?, names := Scan.entriesOf (rest.take close), moduleName }

namespace NamedImport
open Scan

theorem Lead.inert {d : Option Text} {l : Text} (h : Lead d l) : l.all isInert = true := by
  cases h with
  | bare => rfl
  | named _ hname hb hb' =>
    rw [List.all_append, List.all_append, List.all_cons, inert_blank hb, inert_blank hb',
      List.all_eq_true.mpr fun c hc => isInert_of_nameChar (hname c hc)]
    rfl

theorem Opening.inert {k : Bool} {d : Option Text} {o : Text} (h : Opening k d o) :
    o.all isInert = true := by
  cases h with
  | plain hb _ hl =>
    rw [List.all_append, List.all_append, inert_blank hb, hl.inert]
    rfl
  | typed hb _ hb' _ hl =>
    rw [List.all_append, List.all_append, List.all_append, List.all_append, inert_blank hb,
      inert_blank hb', hl.inert]
    rfl

/-- Whether a module name stays as it is between quotes, whichever they are, and on one line. -/
def isPlainModule (m : Text) : Bool := m.all fun c => !isQuote c && c != '\\' && c != '\n'

theorem isPlainModule_iff {m : Text} :
    isPlainModule m = true ↔ (∀ c ∈ m, isQuote c = false) ∧ '\\' ∉ m ∧ '\n' ∉ m := by
  simp only [isPlainModule, List.all_eq_true, Bool.and_eq_true, Bool.not_eq_true', bne_iff_ne]
  constructor
  · intro h
    exact ⟨fun c hc => (h c hc).1.1, fun hmem => (h _ hmem).1.2 rfl, fun hmem => (h _ hmem).2 rfl⟩
  · rintro ⟨hquote, hescape, hn⟩ c hc
    exact ⟨⟨hquote c hc, fun heq => hescape (heq ▸ hc)⟩, fun heq => hn (heq ▸ hc)⟩

end NamedImport

namespace Scan

/-- A string without its quote and without backslashes ends at its quote. -/
theorem clean_quoted {q : Char} (hq : isQuote q = true) {m : Text} (hm : q ∉ m)
    (hescape : '\\' ∉ m) : Clean (q :: (m ++ [q])) := by
  have hread {s : State} (hs : s.quote = some q) (hb : s.inBlock = false) :
      (∀ x ∈ marksFrom .free s (m ++ [q]), x.isComment = false) ∧
      InCode (endFrom .free s (m ++ [q])) := by
    induction m with
    | nil =>
      have hstep : step .free s q none =
          (⟨q, s.depth, .string⟩, .free, { s with quote := none }) := by
        simp [step, stepFree, hs, hb]
      constructor
      · simp [marksFrom, hstep, Mark.isComment]
      · simp only [List.nil_append, endFrom, List.head?_nil, hstep]
        exact ⟨rfl, by simp [State.lex, hb]⟩
    | cons c m ih =>
      rw [List.mem_cons, not_or] at hm hescape
      have hstep : step .free s c (m ++ [q]).head? = (⟨c, s.depth, .string⟩, .free, s) := by
        simp [step, stepFree, hs, hb, Ne.symm hescape.1, Ne.symm hm.1]
      obtain ⟨hmarks, hend⟩ := ih hm.2 hescape.2
      rw [List.cons_append, marksFrom_cons, endFrom, hstep]
      exact ⟨List.forall_mem_cons.mpr ⟨rfl, hmarks⟩, hend⟩
  have hstep (next : Option Char) :
      step .free {} q next = (⟨q, 0, .string⟩, .free, { quote := some q, previous := some q }) := by
    simp [step, stepFree, hq, State.depth]
  obtain ⟨hmarks, hend⟩ := @hread { quote := some q, previous := some q } rfl rfl
  constructor
  · rw [Closes, endFrom, hstep]
    exact hend
  · rw [comments_eq_nil, commentStart?, List.findIdx?_eq_none_iff, marks, marksFrom_cons, hstep]
    exact List.forall_mem_cons.mpr ⟨rfl, hmarks⟩

/-- The first brace that closes outside all brackets. -/
theorem findTop?_brace {n : Text} (hcloses : Closes n) (hflat : isFlat (tags n) = true) (r : Text) :
    findTop? ['}'] (n ++ '}' :: r) = some n.length := by
  obtain ⟨hdepth, hstack⟩ := depth_of_flat (p := .free) (s := {}) rfl hflat
  have hcut : Cuts .free {} n ('}' :: r) := .inr ⟨by simp, .of_none rfl, hcloses.quote⟩
  have hstep : (step .free (endFrom .free {} n).2 '}' r.head?).1 = ⟨'}', 0, .code⟩ := by
    simp [step, stepFree, hcloses.quote, hcloses.inBlock, isQuote, State.depth, hstack]
  have hnone : (marks n).findIdx? (fun m => m.isTop && m.char == '}') = none := by
    rw [List.findIdx?_eq_none_iff]
    intro m hm
    rw [Bool.eq_false_iff]
    intro hbrace
    simp only [Mark.isTop, Mark.isCode, Bool.and_eq_true, beq_iff_eq] at hbrace
    have h := List.all_eq_true.mp hflat m.tag (List.mem_map_of_mem hm)
    rw [Mark.tag, hbrace.1.1, hbrace.2] at h
    revert h
    decide
  rw [findTop?_eq, marks, marksFrom_cut hcut, List.findIdx?_append, ← marks, hnone, hcloses.phase,
    marksFrom_cons, List.findIdx?_cons, hstep]
  simp [Mark.isTop, Mark.isCode]

end Scan

namespace NamedImport
open Scan

theorem Closing.clean {m r : Text} {q : Char} (h : Closing m r q) (hm : isPlainModule m = true) :
    Clean ('}' :: r) := by
  obtain ⟨b, b', e, hb, hb', he, rfl⟩ := h.shape
  obtain ⟨hquote, hescape, -⟩ := isPlainModule_iff.mp hm
  have hq := isQuote_of_quote h.quote
  have hqm : q ∉ m := fun hmem => by
    rw [hquote q hmem] at hq
    cases hq
  have hend : e.all isInert = true := by
    refine List.all_eq_true.mpr fun c hc => ?_
    rcases blank_or_semicolon he hc with hblank | rfl
    · exact isInert_of_blank hblank
    · rfl
  have hlead : ('}' :: (b ++ ("from".toList ++ b'))).all isInert = true := by
    rw [List.all_cons, List.all_append, List.all_append, inert_blank hb, inert_blank hb']
    rfl
  have hjoin : '}' :: (b ++ ("from".toList ++ (b' ++ q :: (m ++ q :: e)))) =
      '}' :: (b ++ ("from".toList ++ b')) ++ (q :: (m ++ [q]) ++ e) := by simp
  rw [hjoin]
  exact (((clean_quoted hq hqm hescape).append_inert hend).1.inert_append hlead).1

/-- A statement of this shape imports what its parts say. -/
theorem imported_shape {k : Bool} {d : Option Text} {o n m r : Text} {q : Char} (ho : Opening k d o)
    (hr : Closing m r q) (hm : isPlainModule m = true) (hn : Closes n)
    (hflat : isFlat (tags n) = true) :
    Imported.read? (o ++ '{' :: (n ++ '}' :: r)) = some ⟨k, d, namesIn (stream n), m⟩ := by
  have hopen : (o ++ ['{']).all isInert = true := by
    rw [List.all_append, ho.inert]
    rfl
  have hfirst := parted_inert hopen (n ++ '}' :: r)
  have hsecond : Parted n ('}' :: r) := hn.parted (.inr (by simp))
  have hcode : withoutComments (o ++ '{' :: (n ++ '}' :: r)) =
      o ++ '{' :: (withoutComments n ++ '}' :: r) := by
    have hjoin : o ++ '{' :: (n ++ '}' :: r) = (o ++ ['{']) ++ (n ++ '}' :: r) := by simp
    rw [hjoin, hfirst.withoutComments, hsecond.withoutComments,
      withoutComments_of_none (clean_inert hopen).commentStart?,
      withoutComments_of_none (hr.clean hm).commentStart?]
    simp
  have hqm : q ∉ m := fun hmem => by
    have hquote := (isPlainModule_iff.mp hm).1 q hmem
    rw [isQuote_of_quote hr.quote] at hquote
    cases hquote
  have hnames : entriesOf (withoutComments n) = namesIn (stream n) := by
    rw [entriesOf_eq (commentStart?_eq_none.mp (commentStart?_withoutComments n))
      (isFlat_withoutComments hflat), stream_withoutComments]
  simp [Imported.read?, hcode, head?_opening ho,
    findTop?_brace hn.withoutComments (isFlat_withoutComments hflat), hr.tail? hqm, hnames]

/-! ## Breaking a statement into lines -/

/-- An import as the language has it: its module stays as it is between quotes, no brackets stand
among its names, and these end in code. -/
def isTidy (i : NamedImport) : Bool :=
  isPlainModule i.moduleName && ending i.names == (.free, none, false) && isFlat (tags i.names)

theorem isTidy_iff {i : NamedImport} :
    i.isTidy = true ↔ isPlainModule i.moduleName = true ∧ Closes i.names ∧
    isFlat (tags i.names) = true := by
  simp [isTidy, closes_iff, and_assoc]

theorem unlines_render (i : NamedImport) (unit : Text) :
    unlines (i.render unit) =
      i.lead ++ '{' :: (lay unit (splitTop [','] i.names) ++ '}' :: i.trail) := by
  rw [render_eq, unlines, joinLines, intercalate_render, List.flatMap_map]
  simp [lay]

/-- What a tidy import imports, and what it does on one line. -/
theorem imported_of_tidy {t : Text} {i : NamedImport} (hi : read? t = some i)
    (htidy : i.isTidy = true) :
    Imported.read? t = some ⟨i.typeOnly, i.default?, namesIn (stream i.names), i.moduleName⟩ ∧
      read? (Statement.flatten t) = some { i with names := joinWrapped i.names } := by
  obtain ⟨hmodule, hcloses, hflat⟩ := isTidy_iff.mp htidy
  obtain ⟨hquote, -, hn⟩ := isPlainModule_iff.mp hmodule
  obtain ⟨o, r, q, ho, hr, rfl⟩ := read?_spec hi
  refine ⟨imported_shape ho hr hmodule hcloses hflat, ?_⟩
  rw [flatten_shape ho hr hn]
  exact read?_shape ho.joined (hr.joined hn).1 hquote _

/-- The printed import imports the names that are left on one line. -/
theorem imported_render {t : Text} {i : NamedImport} (hi : read? t = some i)
    (htidy : i.isTidy = true) {unit : Text} (hunit : isBlankLine unit = true) :
    Imported.read? (unlines (render { i with names := joinWrapped i.names } unit)) =
      some ⟨i.typeOnly, i.default?, namesIn (stream (joinWrapped i.names)), i.moduleName⟩ := by
  obtain ⟨hmodule, hcloses, hflat⟩ := isTidy_iff.mp htidy
  obtain ⟨o, r, q, ho, hr, -⟩ := read?_spec hi
  obtain ⟨-, hflat', hlex⟩ := joinWrapped_spec hflat hcloses
  obtain ⟨hnames, hlaid, hends⟩ := lay_splitTop hunit (not_mem_joinWrapped i.names) hlex hflat'
  have hopening := Opening.printed (i := { i with names := joinWrapped i.names }) ho
  have hclosing := closing_trail (i := { i with names := joinWrapped i.names }) hr.nonempty
  rw [unlines_render, imported_shape hopening hclosing hmodule hends hlaid, hnames]

end NamedImport

namespace Statement
open Scan

/-- Breaking an import into lines keeps what it imports if and only if it is left as it is, or
else no string among its names holds a line break, no line break in a comment alone sets two
letters of a name apart, and nothing but comments, blanks and commas stands behind the first
line comment among them. -/
theorem imported_reflow_iff {t unit : Text} {i : NamedImport} (hi : NamedImport.read? t = some i)
    (htidy : i.isTidy = true) (hunit : isBlankLine unit = true) (width : Nat) :
    Imported.read? (reflow t width unit) = Imported.read? t ↔
      reflow t width unit = t ∨ isFoldable i.names = true ∧ isQuiet i.names = true := by
  obtain ⟨himported, hflatten⟩ := NamedImport.imported_of_tidy hi htidy
  obtain ⟨-, hcloses, hflat⟩ := NamedImport.isTidy_iff.mp htidy
  by_cases hsame : reflow t width unit = t
  · simp [hsame]
  · have hbroken : reflow t width unit =
        unlines (({ i with names := joinWrapped i.names } : NamedImport).render unit) := by
      simp only [reflow, hflatten] at hsame ⊢
      split at hsame
      · exact absurd rfl hsame
      · next hwidth =>
        rw [if_neg hwidth]
        split at hsame
        · exact absurd rfl hsame
        · next hnames => rw [if_neg hnames]
    rw [hbroken, NamedImport.imported_render hi htidy hunit, himported,
      ← namesIn_joinWrapped_iff hflat hcloses]
    rw [hbroken] at hsame
    simp [hsame]

/-- An import with a comment on one line and one to the end of a line, behind
which no name stands. -/
theorem imported_reflow_iff_trailing :
    let t := "import type D, \x7b a /* x */ as b,\n  c // last\n\x7d from 'm';".toList
    NamedImport.read? t = some ⟨true, some ['D'], " a /* x */ as b,\n  c // last\n".toList, ['m']⟩ ∧
      reflow t 20 "  ".toList =
        "import type D, \x7b\n  a /* x */ as b,\n  c // last,\n\x7d from \"m\";".toList ∧
      Imported.read? (reflow t 20 "  ".toList) = Imported.read? t ∧
      Imported.read? t = some ⟨true, some ['D'], ["a as b".toList, ['c']], ['m']⟩ := by
  intro t
  have hread : NamedImport.read? t =
      some ⟨true, some ['D'], " a /* x */ as b,\n  c // last\n".toList, ['m']⟩ := by
    decide +kernel
  exact ⟨hread, by decide +kernel,
    (imported_reflow_iff hread (by decide +kernel) rfl 20).mpr
      (.inr ⟨by decide +kernel, by decide +kernel⟩),
    by decide +kernel⟩

/-- A name behind a line comment is lost, and so is the gap that a line break in a comment makes. A
module that is not plain is cut off at the quote that it is written in. -/
theorem imported_reflow_lost :
    let lost := "import \x7b a, // c\n  b \x7d from 'm';".toList
    let joined := "import \x7b type/*\n*/a \x7d from 'm';".toList
    let quoted := "import \x7b a \x7d from 'a\"//b';".toList
    let read (t : Text) := (Imported.read? t).map fun x => (x.names, x.moduleName)
    read lost = some ([['a'], ['b']], ['m']) ∧ read (reflow lost 10 "    ".toList) =
      some ([['a']], ['m']) ∧
    read joined = some (["type a".toList], ['m']) ∧
      read (reflow joined 10 "    ".toList) = some (["typea".toList], ['m']) ∧
    read quoted = some ([['a']], "a\"//b".toList) ∧ read (reflow quoted 10 "    ".toList) =
      some ([['a']], ['a']) := by
  decide +kernel

end Statement

end SourceLayout
