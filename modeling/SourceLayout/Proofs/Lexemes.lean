import Mathlib.Data.List.Forall2
import SourceLayout.Proofs.Lexing

/-! Lexemes. A sign that begins or ends a block comment, a backslash with the character behind it
and a line comment are read in one go, all else character by character. Read in this way, the pieces
make up the whole text, and each character has the mark that the scanner gives it; so whatever
follows the marks sees each position of the text once. -/

namespace SourceLayout.Scan
open Text

/-! ## Reading piece by piece -/

/-- In state `s` and in front of `v`, the text `u` is read in one go: it is of kind `k` and leaves
the state `s'`. A backslash at the end of a text escapes nothing, and a line comment goes on to the
line break, which is no part of it. -/
inductive IsLexeme (s : State) : (u v : Text) → (k : Kind) → (s' : State) → Prop
  | blockEnd (v : Text) : s.inBlock = true →
    IsLexeme s ['*', '/'] v .comment { s with inBlock := false }
  | block (c : Char) (v : Text) : s.inBlock = true → ¬ (c = '*' ∧ v.head? = some '/') →
    IsLexeme s [c] v .comment s
  | escape (q c : Char) (v : Text) : s.lex = (some q, false) → IsLexeme s ['\\', c] v .string s
  | string (q c : Char) (v : Text) :
      s.lex = (some q, false) → c ≠ q → (c = '\\' → v = []) → IsLexeme s [c] v .string s
  | stringEnd (q : Char) (v : Text) :
      s.lex = (some q, false) → (q = '\\' → v = []) →
      IsLexeme s [q] v .string { s with quote := none }
  | stringStart (q : Char) (v : Text) : s.lex = (none, false) → isQuote q = true →
      IsLexeme s [q] v .string { s with quote := some q, previous := some q }
  | line (u v : Text) : s.lex = (none, false) → '\n' ∉ u → v = [] ∨ v.head? = some '\n' →
      IsLexeme s ('/' :: '/' :: u) v .comment s
  | blockStart (v : Text) : s.lex = (none, false) →
    IsLexeme s ['/', '*'] v .comment { s with inBlock := true }
  | code (c : Char) (v : Text) : s.lex = (none, false) → isQuote c = false →
      ¬ (c = '/' ∧ (v.head? = some '/' ∨ v.head? = some '*')) →
      IsLexeme s [c] v .code (s.readCode c)

structure Lexeme where
  text : Text
  depth : Nat
  kind : Kind
  deriving DecidableEq, Repr

def Lexeme.marks (x : Lexeme) : List Mark := x.text.map (⟨·, x.depth, x.kind⟩)

/-- The lexemes `xs` make up a text that is read from state `s` to state `s'`. The depth of a lexeme
is the lesser of the depths around it. -/
inductive Lexes : (s : State) → (t : Text) → (xs : List Lexeme) → (s' : State) → Prop
  | nil (s : State) : Lexes s [] [] s
  | cons {s s₁ s' : State} {u v : Text} {k : Kind} {xs : List Lexeme} :
      IsLexeme s u v k s₁ → Lexes s₁ v xs s' →
      Lexes s (u ++ v) (⟨u, min s.depth s₁.depth, k⟩ :: xs) s'

/-- The marks of lexemes that stand one behind the other from position `i` on. -/
def itemsFrom (i : Nat) : List Lexeme → List (Mark × Nat)
  | [] => []
  | x :: xs => x.marks.zipIdx i ++ itemsFrom (i + x.text.length) xs

theorem itemsFrom_eq (i : Nat) (xs : List Lexeme) :
    itemsFrom i xs = (xs.flatMap Lexeme.marks).zipIdx i := by
  induction xs generalizing i with
  | nil => rfl
  | cons x xs ih =>
    rw [itemsFrom, ih, List.flatMap_cons, List.zipIdx_append, Lexeme.marks, List.length_map,
      Nat.add_comm]

theorem State.lex_eq {s : State} {q : Option Char} {b : Bool} :
    s.lex = (q, b) ↔ s.quote = q ∧ s.inBlock = b := by
  rw [State.lex, Prod.mk.injEq]

/-- A line comment is left in front of the line break. -/
theorem read_line {s : State} {u v : Text} (hu : '\n' ∉ u) (hv : v = [] ∨ v.head? = some '\n') :
    marksFrom .line s (u ++ v) = u.map (⟨·, s.depth, .comment⟩) ++ marksFrom .free s v ∧
      stateFrom .line s (u ++ v) = stateFrom .free s v := by
  induction u with
  | nil =>
    cases v with
    | nil => exact ⟨rfl, rfl⟩
    | cons d v =>
      obtain rfl : d = '\n' := by simpa using hv
      exact ⟨rfl, rfl⟩
  | cons c u ih =>
    obtain ⟨hc, hrest⟩ : '\n' ≠ c ∧ '\n' ∉ u := by simpa using hu
    obtain ⟨hmarks, hstate⟩ := ih hrest
    have hstep : step .line s c (u ++ v).head? = (⟨c, s.depth, .comment⟩, .line, s) := by
      simp [step, hc.symm]
    rw [List.cons_append, marksFrom_cons, stateFrom, hstep]
    exact ⟨congrArg (List.cons _) hmarks, hstate⟩

/-- What is read in one go is read by the scanner step by step. -/
theorem IsLexeme.steps {s s' : State} {u v : Text} {k : Kind} (h : IsLexeme s u v k s') :
    marksFrom .free s (u ++ v) = u.map (⟨·, min s.depth s'.depth, k⟩) ++ marksFrom .free s' v ∧
      stateFrom .free s (u ++ v) = stateFrom .free s' v := by
  cases h with
  | blockEnd _ hb => simp [marksFrom, stateFrom, step, stepFree, hb, State.depth]
  | block c _ hb hend => simp [marksFrom, stateFrom, step, stepFree, hb, hend]
  | escape q c _ hs =>
    obtain ⟨hq, hb⟩ := State.lex_eq.mp hs
    simp [marksFrom, stateFrom, step, stepFree, hb, hq]
  | string q c _ hs hc hlast =>
    obtain ⟨hq, hb⟩ := State.lex_eq.mp hs
    have hplain : ¬ (c = '\\' ∧ ¬ v = []) := fun h => h.2 (hlast h.1)
    simp [marksFrom, stateFrom, step, stepFree, hb, hq, hc, hplain]
  | stringEnd q _ hs hlast =>
    obtain ⟨hq, hb⟩ := State.lex_eq.mp hs
    have hplain : ¬ (q = '\\' ∧ ¬ v = []) := fun h => h.2 (hlast h.1)
    simp [marksFrom, stateFrom, step, stepFree, hb, hq, hplain, State.depth]
  | stringStart q _ hs hquote =>
    obtain ⟨hq, hb⟩ := State.lex_eq.mp hs
    simp [marksFrom, stateFrom, step, stepFree, hb, hq, hquote, State.depth]
  | line u _ hs hu hv =>
    obtain ⟨hq, hb⟩ := State.lex_eq.mp hs
    obtain ⟨hmarks, hstate⟩ := read_line (s := s) hu hv
    have hopen : step .free s '/' (some '/') = (⟨'/', s.depth, .comment⟩, .line, s) := by
      simp [step, stepFree, hb, hq, isQuote]
    simp only [List.cons_append, marksFrom, stateFrom, List.head?_cons, hopen, Nat.min_self]
    exact ⟨congrArg (⟨'/', s.depth, .comment⟩ :: ⟨'/', s.depth, .comment⟩ :: ·) hmarks, hstate⟩
  | blockStart _ hs =>
    obtain ⟨hq, hb⟩ := State.lex_eq.mp hs
    simp [marksFrom, stateFrom, step, stepFree, hb, hq, isQuote, State.depth]
  | code c _ hs hquote hslash =>
    obtain ⟨hq, hb⟩ := State.lex_eq.mp hs
    have hline : ¬ (c = '/' ∧ v.head? = some '/') := fun h => hslash ⟨h.1, .inl h.2⟩
    have hblock : ¬ (c = '/' ∧ v.head? = some '*') := fun h => hslash ⟨h.1, .inr h.2⟩
    simp [marksFrom, stateFrom, step, stepFree, hb, hq, hquote, hline, hblock]

/-- Whatever is left of a text and whatever is open in front of it, something
can be read in one go. -/
theorem exists_isLexeme (s : State) (c : Char) (r : Text) :
    ∃ u v k s', u ≠ [] ∧ u ++ v = c :: r ∧ IsLexeme s u v k s' := by
  cases hb : s.inBlock with
  | true =>
    by_cases hend : c = '*' ∧ r.head? = some '/'
    · obtain ⟨rfl, hr⟩ := hend
      obtain ⟨v, rfl⟩ := List.head?_eq_some_iff.mp hr
      exact ⟨_, v, _, _, by simp, rfl, .blockEnd v hb⟩
    · exact ⟨[c], r, _, _, by simp, rfl, .block c r hb hend⟩
  | false =>
    cases hq : s.quote with
    | some q =>
      have hs : s.lex = (some q, false) := State.lex_eq.mpr ⟨hq, hb⟩
      by_cases hescape : c = '\\' ∧ r ≠ []
      · obtain ⟨rfl, hr⟩ := hescape
        obtain ⟨d, v, rfl⟩ := List.exists_cons_of_ne_nil hr
        exact ⟨_, v, _, _, by simp, rfl, .escape q d v hs⟩
      · have hlast : c = '\\' → r = [] := by simpa using hescape
        by_cases hc : c = q
        · subst hc
          exact ⟨[c], r, _, _, by simp, rfl, .stringEnd c r hs hlast⟩
        · exact ⟨[c], r, _, _, by simp, rfl, .string q c r hs hc hlast⟩
    | none =>
      have hs : s.lex = (none, false) := State.lex_eq.mpr ⟨hq, hb⟩
      cases hquote : isQuote c with
      | true => exact ⟨[c], r, _, _, by simp, rfl, .stringStart c r hs hquote⟩
      | false =>
        by_cases hslash : c = '/' ∧ (r.head? = some '/' ∨ r.head? = some '*')
        · obtain ⟨rfl, hr | hr⟩ := hslash
          · -- a line comment goes on to the next line break or to the end
            obtain ⟨w, rfl⟩ := List.head?_eq_some_iff.mp hr
            have hu : '\n' ∉ w.takeWhile (· != '\n') := by
              intro h
              simpa using List.all_eq_true.mp List.all_takeWhile _ h
            have hv : w.dropWhile (· != '\n') = [] ∨
                (w.dropWhile (· != '\n')).head? = some '\n' := by
              cases hw : w.dropWhile (· != '\n') with
              | nil => exact .inl rfl
              | cons d v =>
                have hd := List.head?_dropWhile_not (· != '\n') w
                rw [hw] at hd
                exact .inr (by simpa using hd)
            exact ⟨_, _, _, _, by simp, by simp, .line _ _ hs hu hv⟩
          · obtain ⟨v, rfl⟩ := List.head?_eq_some_iff.mp hr
            exact ⟨_, v, _, _, by simp, rfl, .blockStart v hs⟩
        · exact ⟨[c], r, _, _, by simp, rfl, .code c r hs hquote hslash⟩

theorem exists_lexes (s : State) : (t : Text) → ∃ xs s', Lexes s t xs s'
  | [] => ⟨[], s, .nil s⟩
  | c :: r => by
    obtain ⟨u, v, k, s₁, hne, hcut, hread⟩ := exists_isLexeme s c r
    have hshort : v.length < (c :: r).length := by
      have hpos : 0 < u.length := List.length_pos_iff.mpr hne
      rw [← hcut, List.length_append]
      omega
    obtain ⟨xs, s', hrest⟩ := exists_lexes s₁ v
    rw [← hcut]
    exact ⟨_, s', .cons hread hrest⟩
termination_by t => t.length
decreasing_by exact hshort

/-- The lexemes of a text bear its marks. -/
theorem Lexes.marks_eq {s s' : State} {t : Text} {xs : List Lexeme} (h : Lexes s t xs s') :
    xs.flatMap Lexeme.marks = marks t s ∧ s' = feed s t := by
  induction h with
  | nil s => exact ⟨rfl, rfl⟩
  | cons hread _ ih =>
    obtain ⟨hmarks, hstate⟩ := hread.steps
    rw [List.flatMap_cons, ih.1, ih.2, Scan.marks, Scan.marks, feed, feed, hmarks, hstate]
    exact ⟨rfl, rfl⟩

/-! ## What follows the marks -/

theorem filterMap_range_getElem? {α : Type} (l : List α) :
    (List.range l.length).filterMap (l[·]?) = l := by
  induction l with
  | nil => rfl
  | cons a l ih => simp [List.range_succ_eq_map, List.filterMap_map, ih]

/-- The elements that satisfy `p`, looked up at their positions. -/
theorem filter_eq_filterMap_range {α : Type} (p : α → Bool) (l : List α) :
    l.filter p = ((List.range l.length).filter fun i => l[i]?.any p).filterMap (l[·]?) := by
  conv => lhs; rw [← filterMap_range_getElem? l]
  rw [List.filter_filterMap, List.filterMap_filter]
  refine List.filterMap_congr fun i _ => ?_
  cases l[i]? with
  | none => rfl
  | some a => simp [Option.filter]

theorem findIdx?_eq_find?_range {α : Type} (p : α → Bool) (l : List α) :
    l.findIdx? p = (List.range l.length).find? fun i => l[i]?.any p := by
  induction l with
  | nil => rfl
  | cons a l ih =>
    have hrest : (fun i => (a :: l)[i]?.any p) ∘ Nat.succ = fun i => l[i]?.any p := rfl
    rw [List.findIdx?_cons, ih, List.length_cons, List.range_succ_eq_map, List.find?_cons,
      List.find?_map, hrest]
    cases h : p a <;> simp [h]

def positions (p : Mark → Bool) (t : Text) (s : State) : List Nat :=
  (List.range t.length).filter fun i => (marks t s)[i]?.any p

theorem codeMarks_eq (t : Text) (s : State) :
    codeMarks t s = (positions Mark.isCode t s).filterMap fun i => (marks t s)[i]?.map (·, i) := by
  rw [codeMarks, filter_eq_filterMap_range, positions]
  simp [Option.any_map]

theorem withoutComments_eq_positions (t : Text) (s : State) :
    withoutComments t s = (positions (fun m => !m.isComment || m.char == '\n') t s).filterMap
      (t[·]?) := by
  have hchar (i : Nat) : t[i]? = (marks t s)[i]?.map Mark.char := by
    rw [← List.getElem?_map, map_char_marks]
  rw [withoutComments, filter_eq_filterMap_range, List.map_filterMap, length_marks, positions]
  simp only [hchar]

theorem commentStart?_eq_positions (t : Text) (s : State) :
    commentStart? t s = (positions Mark.isComment t s).head? := by
  rw [commentStart?, findIdx?_eq_find?_range, positions, List.head?_filter, length_marks]

def WrittenAs (m : Mark) (w : Text) : Prop := if m.isFirm then w = [m.char] else w = [] ∨ w = [' ']

/-- Collapsing writes something for each mark in turn. -/
theorem collapseFrom_written (last : Option Char) (ms : List Mark) :
    ∃ ws, List.Forall₂ WrittenAs ms ws ∧ collapseFrom last ms = ws.flatten := by
  induction ms generalizing last with
  | nil => exact ⟨[], .nil, rfl⟩
  | cons m ms ih =>
    rw [collapseFrom_cons]
    cases hfirm : m.isFirm with
    | true =>
      obtain ⟨ws, hws, heq⟩ := ih (some m.char)
      exact ⟨[m.char] :: ws, .cons (by simp [WrittenAs, hfirm]) hws, by simp [heq]⟩
    | false =>
      simp only [Bool.false_eq_true, ↓reduceIte]
      split
      · obtain ⟨ws, hws, heq⟩ := ih last
        exact ⟨[] :: ws, .cons (by simp [WrittenAs, hfirm]) hws, by simp [heq]⟩
      · obtain ⟨ws, hws, heq⟩ := ih (some ' ')
        exact ⟨[' '] :: ws, .cons (by simp [WrittenAs, hfirm]) hws, by simp [heq]⟩

/-- Each position of the text is marked once, in order, with the character that stands there. -/
theorem zipIdx_marks (t : Text) (s : State) :
    (marks t s).zipIdx.map Prod.snd = List.range t.length ∧ ∀ x ∈ (marks t s).zipIdx,
    t[x.2]? = some x.1.char := by
  refine ⟨by rw [List.zipIdx_map_snd, length_marks, List.range_eq_range'], fun x hx => ?_⟩
  have hmark : (marks t s)[x.2]? = some x.1 := List.mem_zipIdx_iff_getElem?.mp hx
  have hchar : ((marks t s).map Mark.char)[x.2]? = some x.1.char := by
    rw [List.getElem?_map, hmark, Option.map_some]
  rwa [map_char_marks] at hchar

/-- The scanner loses nothing, whatever is open in front of a text. The text is read lexeme by
lexeme, and the marks of the lexemes are the marks of the text; they stand at the positions from the
first to the last, each with its character. The code, the text without comments and the first
comment are those at the positions so marked, and collapsing writes something for each mark in turn.
In front of its first comment a text is marked as if it ended there. -/
theorem marks_lose_nothing (t : Text) (s : State) :
    (∃ xs, Lexes s t xs (feed s t)) ∧
    (∀ xs s', Lexes s t xs s' → s' = feed s t ∧ itemsFrom 0 xs = (marks t s).zipIdx) ∧
    (marks t s).zipIdx.map Prod.snd = List.range t.length ∧
    (∀ x ∈ (marks t s).zipIdx, t[x.2]? = some x.1.char) ∧
    codeMarks t s = (positions Mark.isCode t s).filterMap (fun i => (marks t s)[i]?.map (·, i)) ∧
    withoutComments t s = (positions (fun m => !m.isComment || m.char == '\n') t s).filterMap
      (t[·]?) ∧
    commentStart? t s = (positions Mark.isComment t s).head? ∧
    (∃ ws, List.Forall₂ WrittenAs (marks t) ws ∧ collapse t = trim ws.flatten) ∧
    ∀ k, commentStart? t s = some k →
      marks (t.take k) s = (marks t s).take k ∧ ∀ m ∈ marks (t.take k) s, m.isComment = false := by
  obtain ⟨hpositions, hchars⟩ := zipIdx_marks t s
  refine ⟨?_, fun xs s' h => ?_, hpositions, hchars, codeMarks_eq t s,
    withoutComments_eq_positions t s, commentStart?_eq_positions t s, ?_, fun k hk =>
    marks_before_comment hk⟩
  · obtain ⟨xs, s', h⟩ := exists_lexes s t
    exact ⟨xs, h.marks_eq.2 ▸ h⟩
  · exact ⟨h.marks_eq.2, by rw [itemsFrom_eq, h.marks_eq.1]⟩
  · obtain ⟨ws, hws, heq⟩ := collapseFrom_written none (marks t)
    exact ⟨ws, hws, by rw [collapse, heq]⟩

/-- A string that is open in front of the text, with an escaped quote and a comment sign in it, a
slash of code and two comments. -/
theorem marks_lose_nothing_open_string :
    let t := "a\\'/*' (/ 2) /* b\n*/ // c".toList
    let s : State := { stack := ['<', '('], quote := some '\'', previous := some '=' }
    commentStart? t s = some 13 ∧ marks (t.take 13) s = (marks t s).take 13 ∧
      ∀ m ∈ marks (t.take 13) s, m.isComment = false := by
  intro t s
  have hcut : commentStart? t s = some 13 := by decide +kernel
  obtain ⟨-, -, -, -, -, -, -, -, hbefore⟩ := marks_lose_nothing t s
  exact ⟨hcut, hbefore 13 hcut⟩

end SourceLayout.Scan
