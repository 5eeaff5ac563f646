import SourceLayout.Member.Block
import SourceLayout.Proofs.LineByLine
import SourceLayout.Proofs.Terminate

/-! The strings on lines. Where each string begins and ends on one line and a comment that goes on
over a line break ends at the end of a line, the strings can be read line by line. They do not
depend on the blanks around a line, and a line may be cut in two between two tokens of code. -/

namespace SourceLayout.Scan
open Text

/-! ## The strings of a text -/

def stringChars (ms : List Mark) : Text := (ms.filter (·.kind == .string)).map Mark.char

def literals (t : Text) : Text := stringChars (marks t)

@[simp] theorem stringChars_nil : stringChars [] = [] := rfl

@[simp] theorem stringChars_append (a b : List Mark) :
    stringChars (a ++ b) = stringChars a ++ stringChars b := by
  rw [stringChars, List.filter_append, List.map_append]
  rfl

theorem stringChars_eq_nil {ms : List Mark} (h : ∀ m ∈ ms, m.kind ≠ .string) :
    stringChars ms = [] := by
  rw [stringChars, List.filter_eq_nil_iff.mpr fun m hm => by simpa using h m hm, List.map_nil]

theorem literals_eq (t : Text) : literals t = ((tags t).filter (·.2 == .string)).map (·.1) := by
  rw [tags, List.filter_map, List.map_map]
  rfl

theorem stringChars_lex {s s' : State} (h : s.lex = s'.lex) (p : Phase) (t : Text) :
    stringChars (marksFrom p s t) = stringChars (marksFrom p s' t) := by
  have htags (ms : List Mark) : stringChars ms =
      ((ms.map Mark.tag).filter (·.2 == .string)).map (·.1) := by
    rw [List.filter_map, List.map_map]
    rfl
  rw [htags, htags, tags_lex h]

theorem Parted.literals {u v : Text} (h : Parted u v) :
    Scan.literals (u ++ v) = Scan.literals u ++ Scan.literals v := by
  rw [literals_eq, literals_eq, literals_eq, h.tags, List.filter_append, List.map_append]

/-- Only behind a quote is a character part of a string. -/
theorem step_no_quote {p : Phase} {s : State} {c : Char} (hp : p ≠ .escaped)
    (hq : s.quote = none) (hc : isQuote c = false) (next : Option Char) :
    (step p s c next).1.kind ≠ .string ∧ (step p s c next).2.1 ≠ .escaped ∧
      (step p s c next).2.2.quote = none := by
  have hfree : (stepFree s c next).1.kind ≠ .string ∧ (stepFree s c next).2.1 ≠ .escaped ∧
      (stepFree s c next).2.2.quote = none := by
    unfold stepFree
    cases hb : s.inBlock with
    | true =>
      simp only [↓reduceIte]
      split <;> exact ⟨by simp, by simp, hq⟩
    | false =>
      simp only [Bool.false_eq_true, ↓reduceIte, hq, hc]
      split
      · exact ⟨by simp, by simp, hq⟩
      · split <;> exact ⟨by simp, by simp, by first | rfl | exact hq⟩
  cases p with
  | free => exact hfree
  | line =>
    simp only [step]
    split
    · exact hfree
    · exact ⟨by simp, by simp, hq⟩
  | escaped => exact absurd rfl hp
  | sign => exact ⟨by simp [step], by simp [step], hq⟩

/-- A text without quotes that begins outside strings has none. -/
theorem no_strings {p : Phase} {s : State} {t : Text} (hp : p ≠ .escaped) (hq : s.quote = none)
    (ht : ∀ c ∈ t, isQuote c = false) :
    stringChars (marksFrom p s t) = [] ∧ (endFrom p s t).2.quote = none := by
  induction t generalizing p s with
  | nil => exact ⟨rfl, hq⟩
  | cons c r ih =>
    obtain ⟨hc, hr⟩ := List.forall_mem_cons.mp ht
    obtain ⟨hkind, hphase, hquote⟩ := step_no_quote hp hq hc r.head?
    obtain ⟨hrest, hend⟩ := ih hphase hquote hr
    refine ⟨?_, hend⟩
    rw [marksFrom_cons, stringChars, List.filter_cons_of_neg (by simpa using hkind)]
    exact hrest

/-- An escape needs a character to go across. -/
theorem not_escaped_at_end (s : State) (t : Text) : (endFrom .free s t).1 ≠ .escaped := by
  intro he
  have hquiet := endFrom_quiet (p := .free) s (t := t) (.inl rfl)
  rw [he] at hquiet
  cases hquiet

theorem not_quote_of_blank {c : Char} (hc : isBlank c = true) : isQuote c = false := by
  have hsign := not_sign_of_blank hc
  simp_all [isQuote, signs]

theorem not_quotes_of_blank {b : Text} (hb : isBlankLine b = true) : ∀ c ∈ b, isQuote c = false :=
  fun c hc => not_quote_of_blank (List.all_eq_true.mp hb c hc)

/-! ## The strings of a line -/

/-- The state at the beginning of a line outside strings; `b` says that a comment goes on. -/
def start (b : Bool) : State := { inBlock := b }

/-- The strings of a line that begins outside strings, and whether a comment goes on behind it. None
if a string goes on, or if the line begins inside a comment and shows more than comments. -/
def lineLiterals? (b : Bool) (l : Text) : Option (Text × Bool) :=
  if (feed (start b) l).quote.isSome || b &&
    (marks l (start b)).any (fun m => !m.isComment && !isBlank m.char)
  then none
  else some (stringChars (marks l (start b)), (feed (start b) l).inBlock)

def literals? (b : Bool) : List Text → Option (Text × Bool)
  | [] => some ([], b)
  | l :: r => (lineLiterals? b l).bind fun x => (literals? x.2 r).map fun y => (x.1 ++ y.1, y.2)

/-- Blanks around a text change nothing of what is read of it as a line. -/
theorem lineLiterals?_around (b : Bool) {a t c : Text} (ha : isBlankLine a = true)
    (hc : isBlankLine c = true) : lineLiterals? b (a ++ t ++ c) = lineLiterals? b t := by
  have hq : (start b).quote = none := rfl
  have hfeed : feed (start b) (a ++ t ++ c) = feed (start b) t := by
    have hbehind : feed (start b) (a ++ t ++ c) = feed (start b) (a ++ t) :=
      stateFrom_append_blank .free (.of_none hq) _ hc
    rw [hbehind, feed_blank_append hq ha t]
  rw [lineLiterals?, lineLiterals?, hfeed]
  cases hend : (feed (start b) t).quote with
  | some q => simp
  | none =>
    have hend' : (endFrom .free (start b) t).2.quote = none := by rw [← feed_eq]; exact hend
    obtain ⟨hs, hp⟩ := endFrom_blank hq ha .free
    have hright : Cuts .free (start b) t c := Cuts.blank_right (.of_none hq) hend' hc
    have hmarks : marks (a ++ t ++ c) (start b) = marksFrom .free (start b) a ++
      (marks t (start b) ++
        marksFrom (endFrom .free (start b) t).1 (endFrom .free (start b) t).2 c) := by
      rw [marks, List.append_assoc, marksFrom_cut (Cuts.blank_left ha _), hs, hp rfl,
        marksFrom_cut hright]
      rfl
    have hblank (p : Phase) (s : State) {u : Text} (hu : isBlankLine u = true) :
        (marksFrom p s u).any (fun m => !m.isComment && !isBlank m.char) = false := by
      rw [List.any_eq_false]
      intro m hm
      have hmem := List.mem_map_of_mem (f := Mark.char) hm
      rw [map_char_marksFrom] at hmem
      simp [List.all_eq_true.mp hu _ hmem]
    rw [hmarks, List.any_append, List.any_append, hblank _ _ ha, hblank _ _ hc, stringChars_append,
      stringChars_append, (no_strings (by decide) hq (not_quotes_of_blank ha)).1,
      (no_strings (not_escaped_at_end (start b) t) hend' (not_quotes_of_blank hc)).1]
    simp

theorem lineLiterals?_reindent (b : Bool) {a : Text} (ha : isBlankLine a = true) (l : Text) :
    lineLiterals? b (a ++ trim l) = lineLiterals? b l := by
  obtain ⟨c, hl, hc⟩ := trim_spec l
  have hnew := lineLiterals?_around b (t := trim l) ha (c := []) rfl
  have hold := lineLiterals?_around b (t := trim l) (isBlankLine_indentOf l) hc
  rw [List.append_nil] at hnew
  rw [← hl] at hold
  rw [hnew, hold]

theorem lineLiterals?_trim (b : Bool) (l : Text) : lineLiterals? b (trim l) = lineLiterals? b l :=
  lineLiterals?_reindent b (a := []) rfl l

theorem lineLiterals?_trimRight (b : Bool) (l : Text) :
    lineLiterals? b (trimRight l) = lineLiterals? b l := by
  obtain ⟨c, hl, hc⟩ := trimRight_append l
  have h := lineLiterals?_around b (a := []) (t := trimRight l) rfl hc
  rw [List.nil_append, ← hl] at h
  exact h.symm

theorem lineLiterals?_blank (b : Bool) {l : Text} (hl : isBlankLine l = true) :
    lineLiterals? b l = some ([], b) := by
  have h := lineLiterals?_around b (t := []) hl (c := []) rfl
  rw [List.append_nil, List.append_nil] at h
  rw [h]
  cases b <;> rfl

/-! ## Cutting a line -/

theorem lineLiterals?_false (t : Text) :
    lineLiterals? false t = if (ending t).2.1.isSome then
    none else some (literals t, (ending t).2.2) := by
  rw [lineLiterals?, feed_eq, Bool.false_and, Bool.or_false]
  rfl

theorem Closes.lineLiterals? {t : Text} (h : Closes t) :
    lineLiterals? false t = some (Scan.literals t, false) := by
  rw [lineLiterals?_false, closes_iff.mp h]
  rfl

theorem Parted.lineLiterals? {u v : Text} (h : Parted u v) :
    Scan.lineLiterals? false (u ++ v) =
      (Scan.lineLiterals? false v).map fun x => (Scan.literals u ++ x.1, x.2) := by
  rw [lineLiterals?_false, lineLiterals?_false, h.ending, h.literals]
  split <;> rfl

theorem Closes.literals_trimRight {t : Text} (ht : Closes t) (h : commentStart? t = none) :
    Scan.literals (Text.trimRight t) = Scan.literals t := by
  obtain ⟨b, hb, hblank⟩ := trimRight_append t
  have hparted := ((ht.trimRight h).parted (.blank_right _ hblank)).literals
  have hnone : Scan.literals b = [] := (no_strings (by decide) rfl (not_quotes_of_blank hblank)).1
  rw [← hb, hnone, List.append_nil] at hparted
  exact hparted.symm

/-- Ending a member leaves its strings alone. -/
theorem lineLiterals?_terminate (t : Text) :
    lineLiterals? false (Member.terminate t) = lineLiterals? false t := by
  rcases Member.terminate_cases t with h | ⟨hno, hcloses, h⟩ | ⟨cut, hcut, h⟩
  · rw [h]
  · rw [h, (hcloses.parted (v := [';']) (.inr (by simp))).lineLiterals?, hcloses.lineLiterals?]
    show some (literals t ++ [], false) = _
    rw [List.append_nil]
  · have hno := commentStart?_take hcut
    have hparted := parted_comment hcut
    obtain ⟨hleft, hright⟩ := Member.parted_semicolon (hparted.closes.trimRight hno) (t.drop cut)
    have hwhole := hparted.lineLiterals?
    rw [List.take_append_drop] at hwhole
    rw [h, hleft.lineLiterals?, hright.lineLiterals?, hwhole, hparted.closes.literals_trimRight hno]
    cases lineLiterals? false (t.drop cut) <;> rfl

/-! ## Lines -/

theorem literals?_cons_eq_some {b b' : Bool} {l : Text} {r : List Text} {w : Text} :
    literals? b (l :: r) = some (w, b') ↔ ∃ x c y, lineLiterals? b l = some (x, c) ∧
      literals? c r = some (y, b') ∧ w = x ++ y := by
  simp only [literals?, Option.bind_eq_some_iff, Option.map_eq_some_iff, Prod.exists, Prod.mk.injEq]
  constructor
  · rintro ⟨x, c, hl, y, d, hr, rfl, rfl⟩
    exact ⟨x, c, y, hl, hr, rfl⟩
  · rintro ⟨x, c, y, hl, hr, rfl⟩
    exact ⟨x, c, hl, y, b', hr, rfl, rfl⟩

theorem literals?_append (b : Bool) (ls r : List Text) :
    literals? b (ls ++ r) = (literals? b ls).bind fun x => (literals? x.2 r).map fun y =>
    (x.1 ++ y.1, y.2) := by
  induction ls generalizing b with
  | nil => simp [literals?]
  | cons l ls ih =>
    rw [List.cons_append, literals?, literals?]
    cases lineLiterals? b l with
    | none => rfl
    | some x =>
      rw [Option.bind_some, Option.bind_some, ih]
      cases literals? x.2 ls with
      | none => rfl
      | some y =>
        simp only [Option.bind_some, Option.map_some, Option.map_map]
        congr 1
        funext z
        simp

theorem literals?_append_eq_some {b b' : Bool} {ls r : List Text} {w : Text} :
    literals? b (ls ++ r) = some (w, b') ↔ ∃ x c y, literals? b ls = some (x, c) ∧
      literals? c r = some (y, b') ∧ w = x ++ y := by
  simp only [literals?_append, Option.bind_eq_some_iff, Option.map_eq_some_iff, Prod.exists,
    Prod.mk.injEq]
  constructor
  · rintro ⟨x, c, hl, y, d, hr, rfl, rfl⟩
    exact ⟨x, c, y, hl, hr, rfl⟩
  · rintro ⟨x, c, y, hl, hr, rfl⟩
    exact ⟨x, c, hl, y, b', hr, rfl, rfl⟩

@[simp] theorem literals?_singleton (b : Bool) (l : Text) :
    literals? b [l] = lineLiterals? b l := by
  rw [literals?]
  cases lineLiterals? b l with
  | none => rfl
  | some x => simp [literals?]

/-- Lines that are each read as before are read as before. -/
theorem literals?_map {f : Text → Text} (hf : ∀ b l, lineLiterals? b (f l) = lineLiterals? b l)
    (b : Bool) (ls : List Text) : literals? b (ls.map f) = literals? b ls := by
  induction ls generalizing b with
  | nil => rfl
  | cons l r ih =>
    rw [List.map_cons, literals?, literals?, hf]
    congr 1
    funext x
    rw [ih]

theorem literals?_shown (b : Bool) (ls : List Text) :
    literals? b (ls.filter (!isBlankLine ·)) = literals? b ls := by
  induction ls generalizing b with
  | nil => rfl
  | cons l r ih =>
    cases hl : isBlankLine l with
    | true =>
      rw [List.filter_cons_of_neg (by simp [hl]), ih, literals?, lineLiterals?_blank b hl]
      simp
    | false =>
      rw [List.filter_cons_of_pos (by simp [hl]), literals?, literals?]
      congr 1
      funext x
      rw [ih]

theorem lineLiterals?_eq_some {b c : Bool} {l w : Text} (h : lineLiterals? b l = some (w, c)) :
    (endFrom .free (start b) l).2.lex = (none, c) ∧ stringChars (marks l (start b)) = w := by
  rw [lineLiterals?, Option.ite_none_left_eq_some] at h
  obtain ⟨hquote, h⟩ := h
  cases h
  simp only [Bool.or_eq_true, not_or, Option.not_isSome_iff_eq_none] at hquote
  exact ⟨by rw [← feed_eq, State.lex, hquote.1], rfl⟩

/-- The state behind a line, as far as it matters to strings. -/
theorem feed_of_line {s : State} {b c : Bool} {l w : Text} (hs : s.lex = (none, b))
    (h : lineLiterals? b l = some (w, c)) : (feed s l).lex = (none, c) := by
  have hstart : s.lex = (start b).lex := hs
  rw [← (lineLiterals?_eq_some h).1, ← feed_eq]
  exact feed_lex hstart l

theorem feedAll_of_lines {s : State} {b c : Bool} {ls : List Text} {w : Text}
    (hs : s.lex = (none, b)) (h : literals? b ls = some (w, c)) :
    (feedAll s ls).lex = (none, c) := by
  induction ls generalizing s b w with
  | nil =>
    cases h
    exact hs
  | cons l r ih =>
    obtain ⟨x, d, y, hl, hr, -⟩ := literals?_cons_eq_some.mp h
    exact ih (feed_of_line hs hl) hr

/-- A line in which code is shown begins outside comments, and may be cut in front of that code. -/
theorem parted_of_line {s : State} {t w : Text} {b c : Bool} {i : Nat} {m : Mark}
    (hs : s.lex = (none, b)) (hw : lineLiterals? b t = some (w, c)) (hm : (marks t s)[i]? = some m)
    (hcode : m.isCode = true) (hshown : isBlank m.char = false) :
    b = false ∧ Parted (t.take i) (t.drop i) := by
  -- the character is code from every state that agrees on strings and comments
  have hmark (s' : State) (hs' : s.lex = s'.lex) :
      ∃ m', (marks t s')[i]? = some m' ∧ m'.isCode = true ∧ m'.char = m.char := by
    have htags := congrArg (·[i]?) (tags_lex hs' .free t)
    simp only [List.getElem?_map] at htags
    rw [← marks, ← marks, hm, Option.map_some] at htags
    obtain ⟨m', hm', hsame⟩ := Option.map_eq_some_iff.mp htags.symm
    rw [Mark.tag, Mark.tag, Prod.mk.injEq] at hsame
    exact ⟨m', hm', by rw [Mark.isCode, hsame.2]; exact hcode, hsame.1⟩
  have hb : b = false := by
    obtain ⟨m', hm', hcode', hchar⟩ := hmark (start b) hs
    rw [lineLiterals?, Option.ite_none_left_eq_some, Bool.or_eq_true, not_or, Bool.and_eq_true,
      not_and] at hw
    rw [Bool.eq_false_iff]
    intro hb
    refine hw.1.2 hb (List.any_eq_true.mpr ⟨m', List.mem_of_getElem? hm', ?_⟩)
    rw [Mark.isCode, beq_iff_eq] at hcode'
    rw [Mark.isComment, hcode', hchar, hshown]
    rfl
  subst hb
  obtain ⟨m', hm', hcode', hchar⟩ := hmark {} hs
  refine ⟨rfl, parted_code hm' hcode' ?_⟩
  rintro hn
  rw [← hchar, hn] at hshown
  cases hshown

/-- The strings of lines are the strings of the text that they make up. -/
theorem stringChars_unlines {b b' : Bool} {ls : List Text} {w : Text}
    (h : literals? b ls = some (w, b')) : stringChars (marks (unlines ls) (start b)) = w := by
  induction ls generalizing b w with
  | nil =>
    cases h
    rfl
  | cons l r ih =>
    obtain ⟨x, c, y, hl, hr, rfl⟩ := literals?_cons_eq_some.mp h
    obtain ⟨hend, rfl⟩ := lineLiterals?_eq_some hl
    cases r with
    | nil =>
      cases hr
      rw [unlines, joinLines_singleton, List.append_nil]
    | cons k r =>
      have hquote : (endFrom .free (start b) l).2.quote = none := congrArg Prod.fst hend
      have hquiet := endFrom_quiet (p := .free) (start b) (t := l) (.inl rfl)
      have hcut : Cuts .free (start b) l ('\n' :: unlines (k :: r)) :=
        .inr ⟨by simp, .of_none rfl, hquote⟩
      -- the line break is in no string, and behind it the next line begins
      obtain ⟨kind, hstep⟩ := step_newline hquiet hquote (unlines (k :: r)).head?
      have hkind : kind ≠ .string := by
        have hno := (step_no_quote (c := '\n') (not_escaped_at_end (start b) l) hquote (by decide)
          (unlines (k :: r)).head?).1
        rw [hstep] at hno
        exact hno
      have hbreak : stringChars
        (marksFrom (endFrom .free (start b) l).1 (endFrom .free (start b) l).2
          ('\n' :: unlines (k :: r))) = stringChars (marks (unlines (k :: r)) (start c)) := by
        rw [marksFrom_cons, hstep, stringChars, List.filter_cons_of_neg (by simpa using hkind)]
        exact stringChars_lex hend .free _
      rw [unlines, joinLines_cons_cons, ← unlines, List.singleton_append, marks, marksFrom_cut hcut,
        stringChars_append, hbreak, ih hr]
      rfl

/-! ## Lines with another indentation -/

theorem literals?_keepLines (cfg : Settings) {indent first : Text} (hi : isBlankLine indent = true)
    {l : Text} {r : List Text} (hf : lineLiterals? false first = lineLiterals? false l) :
    literals? false (keepLines cfg indent first (l :: r)) = literals? false (l :: r) := by
  have hdeeper := isBlankLine_append hi (isBlankLine_unit cfg)
  rw [keepLines, literals?, literals?, lineLiterals?_trimRight, hf]
  congr 1
  funext x
  rw [literals?_map (fun b l => lineLiterals?_reindent b hdeeper l), List.drop_one, List.tail_cons,
    literals?_shown]

end SourceLayout.Scan

namespace SourceLayout.Member
open Text Scan

theorem literals?_plainLines {indent : Text} (hi : isBlankLine indent = true) (b : Bool)
    (ls : List Text) : literals? b (plainLines indent ls) = literals? b ls := by
  rw [plainLines, literals?_map fun b l => lineLiterals?_reindent b hi l, literals?_shown]

theorem literals?_commentLines {indent : Text} (hi : isBlankLine indent = true) (b : Bool)
    (ls : List Text) : literals? b (commentLines indent ls) = literals? b ls := by
  have hline (b : Bool) (x : Text × Nat) : lineLiterals? b (commentLine indent x) =
      lineLiterals? b x.1 := by
    unfold commentLine
    simp only
    split
    · have hdeeper : isBlankLine (indent ++ [' ']) = true := isBlankLine_append hi rfl
      have h := lineLiterals?_reindent b hdeeper x.1
      rw [List.append_assoc, List.singleton_append] at h
      exact h
    · exact lineLiterals?_reindent b hi x.1
  have hmap (b : Bool) (xs : List (Text × Nat)) :
      literals? b ((xs.filter (!isBlankLine ·.1)).map (commentLine indent)) =
        literals? b (xs.map Prod.fst) := by
    induction xs generalizing b with
    | nil => rfl
    | cons x xs ih =>
      cases hb : isBlankLine x.1 with
      | true =>
        rw [List.filter_cons_of_neg (by simp [hb]), ih, List.map_cons, literals?,
          lineLiterals?_blank b hb]
        simp
      | false =>
        rw [List.filter_cons_of_pos (by simp [hb]), List.map_cons, List.map_cons, literals?,
          literals?, hline]
        congr 1
        funext y
        rw [ih]
  rw [commentLines, hmap, List.zipIdx_map_fst]

end SourceLayout.Member
