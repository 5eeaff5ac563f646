import SourceLayout.Proofs.Stable.Lines

/-! The state carried from line to line is all that reading on depends on. Lines that are read one
after the other are read as the text they make up, since a line break changes no state and completes
no sign; and outside all brackets, strings and comments it does not matter what was read before. -/

namespace SourceLayout.Scan
open Text

/-! ## Line breaks -/

/-- The open string, if there is one, is ended neither by a backslash nor by a line break. Strings
that the scanner opens are such. -/
def State.EndsInLine (s : State) : Prop := s.quote ≠ some '\\' ∧ s.quote ≠ some '\n'

theorem State.EndsInLine.step {s : State} (h : s.EndsInLine) (p : Phase) (c : Char)
    (next : Option Char) : (step p s c next).2.2.EndsInLine := by
  rcases step_lex p s.quote s.inBlock c next with hread | ⟨k, p', q', b', v, -, -, hq, hother⟩
  · rw [hread s rfl rfl]
    exact h
  · rw [hother s rfl rfl]
    rcases hq with rfl | rfl | ⟨rfl, hc⟩
    · exact h
    · exact ⟨by simp, by simp⟩
    · -- a string that begins here is ended by its quote
      constructor <;> (intro h'; cases h'; cases hc)

theorem State.EndsInLine.stateFrom {s : State} (h : s.EndsInLine) (p : Phase) (t : Text) :
    (stateFrom p s t).EndsInLine := by
  induction t generalizing p s with
  | nil => exact h
  | cons c r ih => exact ih (h.step p c r.head?) _

/-- A line break leaves the state as it is, and the scanner stands between tokens again. -/
theorem step_lineBreak (p : Phase) {s : State} (hs : s.EndsInLine) (next : Option Char) :
    ∃ k, step p s '\n' next = (⟨'\n', s.depth, k⟩, .free, s) := by
  have hfree : ∃ k, stepFree s '\n' next = (⟨'\n', s.depth, k⟩, .free, s) := by
    cases hb : s.inBlock with
    | true => exact ⟨.comment, by simp [stepFree, hb]⟩
    | false =>
      cases hq : s.quote with
      | none => exact ⟨.code, step_blank hq hb (by decide) next⟩
      | some q =>
        have hne : '\n' ≠ q := by
          rintro rfl
          exact hs.2 hq
        exact ⟨.string, by simp [stepFree, hb, hq, hne]⟩
  cases p with
  | free => exact hfree
  | line => exact hfree
  | escaped => exact ⟨.string, rfl⟩
  | sign => exact ⟨.comment, rfl⟩

/-- At the end of a line a character is read as at the end of a text. Only the phase may differ: a
backslash in a string escapes the line break. -/
theorem step_before_lineBreak (p : Phase) {s : State} (hs : s.EndsInLine) (c : Char) :
    (step p s c (some '\n')).1 = (step p s c none).1 ∧
      (step p s c (some '\n')).2.2 = (step p s c none).2.2 := by
  refine ⟨step_mark_next p s c _ (.inl (by simp)), ?_⟩
  have hfree : (stepFree s c (some '\n')).2.2 = (stepFree s c none).2.2 := by
    cases hb : s.inBlock with
    | true => simp [stepFree, hb]
    | false =>
      cases hq : s.quote with
      | none => simp [stepFree, hb, hq]
      | some q =>
        by_cases hc : c = '\\'
        · have hne : '\\' ≠ q := by
            rintro rfl
            exact hs.1 hq
          simp [stepFree, hb, hq, hc, hne]
        · simp [stepFree, hb, hq, hc]
  cases p with
  | free => exact hfree
  | line =>
    simp only [step]
    split
    · exact hfree
    · rfl
  | escaped => rfl
  | sign => rfl

theorem stateFrom_cons (p : Phase) (s : State) (c : Char) (r : Text) :
    stateFrom p s (c :: r) = stateFrom (step p s c r.head?).2.1 (step p s c r.head?).2.2 r := rfl

/-- A text is read up to a line break as it is read alone, and from there on
as if it began there. -/
theorem read_lineBreak (p : Phase) {s : State} (hs : s.EndsInLine) (l t : Text) :
    stateFrom p s (l ++ '\n' :: t) = feed (stateFrom p s l) t ∧
      ∃ k, marksFrom p s (l ++ '\n' :: t) =
        marksFrom p s l ++ ⟨'\n', (stateFrom p s l).depth, k⟩ :: marks t (stateFrom p s l) := by
  induction l generalizing p s with
  | nil =>
    obtain ⟨k, hbreak⟩ := step_lineBreak p hs t.head?
    rw [List.nil_append, stateFrom_cons, marksFrom_cons, hbreak]
    exact ⟨rfl, k, rfl⟩
  | cons c l ih =>
    cases l with
    | nil =>
      obtain ⟨hmark, hstate⟩ := step_before_lineBreak p hs c
      have hrest := ih (step p s c (some '\n')).2.1 (hs.step p c (some '\n'))
      rw [hstate] at hrest
      obtain ⟨hend, k, hmarks⟩ := hrest
      refine ⟨?_, k, ?_⟩
      · rw [List.cons_append, stateFrom_cons, List.nil_append, List.head?_cons, hstate]
        exact hend
      · rw [List.cons_append, marksFrom_cons, List.nil_append, List.head?_cons, hstate, hmark]
        exact congrArg (List.cons _) hmarks
    | cons e l =>
      obtain ⟨hend, k, hmarks⟩ := ih (step p s c (some e)).2.1 (hs.step p c (some e))
      exact ⟨hend, k, congrArg (List.cons _) hmarks⟩

/-! ## Lines one after the other -/

def marksAll (s : State) : List Text → List Mark
  | [] => []
  | l :: r => marks l s ++ marksAll (feed s l) r

theorem filter_marks_of_line {l : Text} (hl : '\n' ∉ l) (s : State) :
    (marks l s).filter (·.char != '\n') = marks l s := by
  rw [List.filter_eq_self]
  intro m hm
  have hchar : m.char ∈ l := by
    rw [← map_char_marks l s]
    exact List.mem_map_of_mem hm
  simp only [bne_iff_ne]
  intro h
  exact hl (h ▸ hchar)

theorem read_unlines {s : State} (hs : s.EndsInLine) {ls : List Text} (hls : ∀ l ∈ ls, '\n' ∉ l) :
    feedAll s ls = feed s (unlines ls) ∧
      marksAll s ls = (marks (unlines ls) s).filter (·.char != '\n') := by
  induction ls generalizing s with
  | nil => exact ⟨rfl, rfl⟩
  | cons l r ih =>
    obtain ⟨hl, hr⟩ := List.forall_mem_cons.mp hls
    cases r with
    | nil =>
      rw [unlines, joinLines_singleton, filter_marks_of_line hl]
      exact ⟨rfl, List.append_nil _⟩
    | cons l' r =>
      obtain ⟨hstate, hmarks⟩ := ih (hs.stateFrom .free l) hr
      obtain ⟨hend, k, hread⟩ := read_lineBreak .free hs l (unlines (l' :: r))
      have hjoin : unlines (l :: l' :: r) = l ++ '\n' :: unlines (l' :: r) := joinLines_cons_cons ..
      constructor
      · calc feedAll s (l :: l' :: r)
            = feed (feed s l) (unlines (l' :: r)) := hstate
          _ = feed s (unlines (l :: l' :: r)) := by rw [hjoin]; exact hend.symm
      · calc marksAll s (l :: l' :: r)
            = marks l s ++ (marks (unlines (l' :: r)) (feed s l)).filter (·.char != '\n') :=
              congrArg (marks l s ++ ·) hmarks
          _ = (marks (unlines (l :: l' :: r)) s).filter (·.char != '\n') := by
            rw [hjoin, show marks (l ++ '\n' :: unlines (l' :: r)) s = _ from hread,
              List.filter_append, List.filter_cons_of_neg (by simp)]
            exact congrArg (· ++ _) (filter_marks_of_line hl s).symm

/-- A string that a backslash ends is ended by one at the end of a line, but not by
one before a line break. -/
theorem feedAll_ne_of_backslash {s : State} (h : s.quote = some '\\') :
    feedAll s [['*', '/', '\\'], ['a']] ≠ feed s (unlines [['*', '/', '\\'], ['a']]) := by
  obtain ⟨stack, quote, inBlock, previous⟩ := s
  subst h
  intro heq
  have hquote := congrArg State.quote heq
  cases inBlock <;> cases hquote

/-- A string that a line break ends is not ended by the end of a line. -/
theorem feedAll_ne_of_lineBreak {s : State} (h : s.quote = some '\n') :
    feedAll s [['*', '/'], ['a']] ≠ feed s (unlines [['*', '/'], ['a']]) := by
  obtain ⟨stack, quote, inBlock, previous⟩ := s
  subst h
  intro heq
  have hquote := congrArg State.quote heq
  cases inBlock <;> cases hquote

/-! ## Outside all brackets -/

/-- Two states outside all brackets, with the same string or comment open. -/
structure State.Bare (s s' : State) : Prop where
  left : s.stack = []
  right : s'.stack = []
  lex : s.lex = s'.lex

/-- Outside all brackets an arrow closes no more than a closing bracket does, and an opening bracket
is itself the last character of code. -/
theorem State.Bare.readCode {s s' : State} (h : s.Bare s') (c : Char) :
    (s.readCode c).Alike (s'.readCode c) ∨ (s.readCode c).Bare (s'.readCode c) := by
  obtain ⟨hleft, hright, hlex⟩ := h
  by_cases hc : isOpener c = true
  · left
    have hblank : isBlank c = false := by
      cases hblank : isBlank c with
      | false => rfl
      | true =>
        have hsign := not_sign_of_blank hblank
        simp_all [isOpener, signs]
    refine ⟨?_, congrArg Prod.fst hlex, congrArg Prod.snd hlex, ?_⟩
    · simp [State.readCode, hc, hleft, hright]
    · simp [State.readCode, hblank]
  · right
    have hstack {u : State} (hu : u.stack = []) : (u.readCode c).stack = [] := by
      simp only [State.readCode, hc, hu]
      cases openerOf c <;> simp [closeBracket]
    exact ⟨hstack hleft, hstack hright, hlex⟩

theorem State.Bare.step {s s' : State} (h : s.Bare s') (p : Phase) (c : Char) (next : Option Char) :
    (step p s c next).1 = (step p s' c next).1 ∧ (step p s c next).2.1 = (step p s' c next).2.1 ∧
      ((Scan.step p s c next).2.2.Alike (Scan.step p s' c next).2.2 ∨
        (Scan.step p s c next).2.2.Bare (Scan.step p s' c next).2.2) := by
  have hquote : s.quote = s'.quote := congrArg Prod.fst h.lex
  have hblock : s.inBlock = s'.inBlock := congrArg Prod.snd h.lex
  rcases step_lex p s'.quote s'.inBlock c next with hread | ⟨k, p', q', b', v, -, -, -, hother⟩
  · rw [hread s hquote hblock, hread s' rfl rfl]
    refine ⟨?_, rfl, h.readCode c⟩
    simp [State.depth, h.left, h.right]
  · rw [hother s hquote hblock, hother s' rfl rfl]
    refine ⟨?_, rfl, .inr ⟨h.left, h.right, rfl⟩⟩
    simp only [State.depth, h.left, h.right]

theorem State.Bare.marksFrom {s s' : State} (h : s.Bare s') (p : Phase) (t : Text) :
    marksFrom p s t = marksFrom p s' t := by
  induction t generalizing p s s' with
  | nil => rfl
  | cons c r ih =>
    obtain ⟨hmark, hphase, hstate⟩ := h.step p c r.head?
    rw [marksFrom_cons, marksFrom_cons, hmark, hphase]
    rcases hstate with halike | hbare
    · rw [(halike.text _ r).1]
    · rw [ih hbare]

/-- The character `a` alone tells a settled state from the others. -/
theorem settled_of_marks {s : State} (h : marks ['a'] s = marks ['a']) : s.settled = true := by
  have hmark : (stepFree s 'a' none).1 = ⟨'a', 0, .code⟩ := List.head_eq_of_cons_eq h
  cases hb : s.inBlock with
  | true => simp [stepFree, hb] at hmark
  | false =>
    cases hq : s.quote with
    | some q => simp [stepFree, hb, hq] at hmark
    | none =>
      have hdepth : s.depth = 0 := by
        simpa [stepFree, hb, hq, isQuote, State.readCode, isOpener, openerOf, State.depth]
          using hmark
      exact settled_iff.mpr ⟨List.length_eq_zero_iff.mp hdepth, hq, hb⟩

/-! ## The carried state -/

/-- Reading line by line agrees with reading the whole text, in the state left behind and in
the marks of all characters but the line breaks, from exactly the states whose open string
ends in a line; and from exactly the settled states every text is read as from the beginning,
whatever was read before. -/
theorem state_carries_everything :
    (∀ s : State, s.EndsInLine ↔
      ∀ ls : List Text, (∀ l ∈ ls, '\n' ∉ l) →
        feedAll s ls = feed s (unlines ls) ∧
          marksAll s ls = (marks (unlines ls) s).filter (·.char != '\n')) ∧
      ∀ s : State, s.settled = true ↔ ∀ t, marks t s = marks t := by
  refine ⟨fun s => ⟨fun hs ls hls => read_unlines hs hls, fun h => ⟨?_, ?_⟩⟩, fun s => ⟨?_, ?_⟩⟩
  · intro hq
    exact feedAll_ne_of_backslash hq (h _ (by decide)).1
  · intro hq
    exact feedAll_ne_of_lineBreak hq (h _ (by decide)).1
  · intro hs t
    obtain ⟨hstack, hquote, hblock⟩ := settled_iff.mp hs
    have hbare : s.Bare {} := ⟨hstack, rfl, by rw [State.lex, hquote, hblock]; rfl⟩
    exact hbare.marksFrom .free t
  · intro h
    exact settled_of_marks (h ['a'])

/-- A template string with an escaped line break, and an arrow sign whose equals
sign was read before. -/
theorem state_carries_everything_template :
    let s : State := { stack := ['{'], quote := some '`', previous := some '=' }
    let ls := ["a\\".toList, "`, b: /* c *".toList, "/ */ => '\x7d'".toList]
    (feedAll s ls = feed s (unlines ls) ∧
        marksAll s ls = (marks (unlines ls) s).filter (·.char != '\n')) ∧
      marks "> <a>".toList { previous := some '=' } = marks "> <a>".toList := by
  obtain ⟨hlines, hsettled⟩ := state_carries_everything
  exact ⟨(hlines _).mp ⟨by decide, by decide⟩ _ (by decide +kernel), (hsettled _).mp rfl _⟩

/-- A string that a backslash ends is still open behind a backslash and a line break, but not behind
a line that ends in a backslash. -/
theorem backslash_string_ends_with_line :
    let s : State := { quote := some '\\' }
    feedAll s [['\\'], ['a']] = { previous := some 'a' } ∧
      feed s (unlines [['\\'], ['a']]) = { quote := some '\\' } := by
  decide +kernel

end SourceLayout.Scan
