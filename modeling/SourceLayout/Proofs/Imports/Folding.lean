import SourceLayout.Proofs.Imports.Entries
import SourceLayout.Proofs.Imports.OneLine

/-! Names on one line. Joining the lines of a text turns the rest of it into comment behind its
first line comment; up to there it changes blanks alone, and so it keeps the names if no string and
no name is broken by a line break that counts. -/

namespace SourceLayout.Scan
open Text

/-! ## The first line comment -/

def upToLine (p : Phase) (s : State) : Text → List (Char × Kind)
  | [] => []
  | c :: r =>
    if (step p s c r.head?).2.1 == .line then []
    else (c, (step p s c r.head?).1.kind) ::
      upToLine (step p s c r.head?).2.1 (step p s c r.head?).2.2 r

def fromLine (p : Phase) (s : State) : Text → List (Char × Kind)
  | [] => []
  | c :: r =>
    if (step p s c r.head?).2.1 == .line then tagsFrom p s (c :: r)
    else fromLine (step p s c r.head?).2.1 (step p s c r.head?).2.2 r

theorem upToLine_append_fromLine (p : Phase) (s : State) (t : Text) :
    upToLine p s t ++ fromLine p s t = tagsFrom p s t := by
  induction t generalizing p s with
  | nil => rfl
  | cons c r ih =>
    rw [upToLine, fromLine]
    split
    · rfl
    · rw [List.cons_append, ih, tagsFrom_cons]

/-- A line comment begins in code. -/
theorem step_line {p : Phase} {s : State} {c : Char} {next : Option Char} (hp : p ≠ .line)
    (h : (step p s c next).2.1 = .line) :
    (step p s c next).1.kind = .comment ∧ (step p s c next).2.2 = s ∧ s.lex = (none, false) := by
  cases p with
  | line => exact absurd rfl hp
  | escaped => cases h
  | sign => cases h
  | free =>
    simp only [step] at h ⊢
    cases hb : s.inBlock with
    | true =>
      simp only [stepFree, hb, ↓reduceIte] at h
      split at h <;> cases h
    | false =>
      cases hq : s.quote with
      | some q =>
        simp only [stepFree, hb, hq, Bool.false_eq_true, ↓reduceIte] at h
        split at h <;> cases h
      | none =>
        simp only [stepFree, hb, hq, Bool.false_eq_true, ↓reduceIte] at h ⊢
        split at h
        · cases h
        · next hquote =>
          rw [if_neg hquote]
          split at h
          · next hline =>
            rw [if_pos hline]
            exact ⟨rfl, rfl, by simp [State.lex, hb, hq]⟩
          · split at h <;> cases h

/-- A line comment goes on to the end of its line. -/
theorem line_read (s : State) {t : Text} (h : '\n' ∉ t) :
    tagsFrom .line s t = t.map (·, .comment) ∧ endFrom .line s t = (.line, s) := by
  induction t with
  | nil => exact ⟨rfl, rfl⟩
  | cons c r ih =>
    rw [List.mem_cons, not_or] at h
    have hstep : step .line s c r.head? = (⟨c, s.depth, .comment⟩, .line, s) := by
      simp [step, Ne.symm h.1]
    obtain ⟨htags, hend⟩ := ih h.2
    rw [tagsFrom_cons, endFrom, hstep]
    exact ⟨congrArg _ htags, hend⟩

/-! ## Joining lines -/

/-- What joining its lines makes of a text, character by character: blanks around a line break
become one space, and everything behind the first line comment becomes comment. -/
inductive Refold : List (Char × Kind) → List (Char × Kind) → Prop
  | line {ts : List (Char × Kind)} (h : ∀ x ∈ ts, x.2 = .comment ∧ x.1 ≠ '\n') : Refold [] ts
  | keep {a b : List (Char × Kind)} {x : Char × Kind} (hx : x.1 ≠ '\n') (h : Refold a b) :
      Refold (x :: a) (x :: b)
  | join {a b : List (Char × Kind)} {w : Text} {k : Kind} (hw : isBlankLine w = true)
      (hn : '\n' ∈ w) (h : Refold a b) : Refold (w.map (·, k) ++ a) ((' ', k) :: b)

/-- Read from `p` and `s`, the text `t'` is `t` with its lines joined, and ends as `t` does
or in a line comment. -/
structure Folds (p : Phase) (s : State) (t t' : Text) : Prop where
  refold : Refold (upToLine p s t) (tagsFrom p s t')
  ends : (endFrom p s t').2.lex = (endFrom p s t).2.lex ∨ (endFrom p s t').2.lex = (none, false)

/-- A place outside line comments that the scanner can reach in front of a text. -/
structure Ready (p : Phase) (s : State) (t : Text) : Prop where
  sane : Sane (p, s)
  line : p ≠ .line
  sign : p = .sign → ∀ c ∈ t.head?, isBlank c = false

theorem step_sign {p : Phase} {s : State} {c : Char} {next : Option Char}
    (h : (step p s c next).2.1 = .sign) : next = some '/' ∨ next = some '*' := by
  have hfree (h : (stepFree s c next).2.1 = .sign) : next = some '/' ∨ next = some '*' := by
    unfold stepFree at h
    split at h
    · split at h
      · next hend => exact .inl (by simp_all)
      · cases h
    · split at h
      · simp only at h
        split at h <;> cases h
      · split at h
        · cases h
        · split at h
          · cases h
          · split at h
            · next hblock => exact .inr (by simp_all)
            · cases h
  cases p with
  | free => exact hfree h
  | line =>
    simp only [step] at h
    split at h
    · exact hfree h
    · cases h
  | escaped => cases h
  | sign => cases h

theorem Ready.tail {p : Phase} {s : State} {c : Char} {r : Text} (h : Ready p s (c :: r))
    (hline : (step p s c r.head?).2.1 ≠ .line) :
    Ready (step p s c r.head?).2.1 (step p s c r.head?).2.2 r := by
  refine ⟨h.sane.step c _, hline, fun hsign d hd => ?_⟩
  rcases step_sign hsign with hnext | hnext <;> (rw [hnext] at hd; cases hd; rfl)

/-- A character that stays. -/
theorem Folds.cons {p : Phase} {s : State} {c : Char} {r r' : Text} (hp : p ≠ .line) (hc : c ≠ '\n')
    (hn : '\n' ∉ r') (hnext : step p s c r'.head? = step p s c r.head?)
    (ih : (step p s c r.head?).2.1 ≠ .line →
      Folds (step p s c r.head?).2.1 (step p s c r.head?).2.2 r r') :
    Folds p s (c :: r) (c :: r') := by
  by_cases hline : (step p s c r.head?).2.1 = .line
  · obtain ⟨hkind, hstate, hlex⟩ := step_line hp hline
    obtain ⟨htags, hend⟩ := line_read s hn
    constructor
    · rw [upToLine, if_pos (by simpa using hline), tagsFrom_cons, hnext, hline, hstate, hkind,
        htags]
      refine .line fun x hx => ?_
      rcases List.mem_cons.mp hx with rfl | hx
      · exact ⟨rfl, hc⟩
      · obtain ⟨d, hd, rfl⟩ := List.mem_map.mp hx
        exact ⟨rfl, fun heq => hn (heq ▸ hd)⟩
    · rw [endFrom, hnext, hline, hstate, hend]
      exact .inr hlex
  · obtain ⟨hrefold, hends⟩ := ih hline
    constructor
    · rw [upToLine, if_neg (by simpa using hline), tagsFrom_cons, hnext]
      exact .keep hc hrefold
    · rw [endFrom, endFrom, hnext]
      exact hends

def State.kind (s : State) : Kind :=
  if s.inBlock then .comment else if s.quote.isSome then .string else .code

theorem step_blank_kind {p : Phase} {s : State} (h : Sane (p, s)) (hp : p = .free ∨ p = .escaped)
    {c : Char} (hc : isBlank c = true) (next : Option Char) :
    step p s c next = (⟨c, s.depth, s.kind⟩, .free, s) := by
  cases hq : s.quote with
  | some q =>
    obtain ⟨hb, -⟩ : s.inBlock = false ∧ _ := h.quote (by rw [hq]; rfl)
    have hjoins := not_joins_of_blank hc
    have hescape : c ≠ '\\' := by
      rintro rfl
      cases hjoins
    have hne : (c == q) = false := by
      rw [beq_eq_false_iff_ne]
      rintro rfl
      have hquote := h.quoted c hq
      rw [not_quote_of_blank hc] at hquote
      cases hquote
    rcases hp with rfl | rfl
    · simp [step, stepFree, State.kind, hb, hq, hescape, hne]
    · simp [step, State.kind, hb, hq]
  | none =>
    have hfree : p = .free := by
      rcases hp with rfl | rfl
      · rfl
      · have hopen := h.escaped rfl
        rw [hq] at hopen
        cases hopen
    subst hfree
    cases hb : s.inBlock with
    | false =>
      rw [step_blank hq hb hc]
      simp [State.kind, hb, hq]
    | true =>
      have hstar : c ≠ '*' := by
        rintro rfl
        cases not_joins_of_blank hc
      simp [step, stepFree, State.kind, hb, hstar]

/-- A run of blanks belongs to one thing. -/
theorem blank_read {p : Phase} {s : State} (h : Sane (p, s)) (hp : p = .free ∨ p = .escaped)
    {w : Text} (hne : w ≠ []) (hw : isBlankLine w = true) (x : Text) :
    upToLine p s (w ++ x) = w.map (·, s.kind) ++ upToLine .free s x ∧
      tagsFrom p s (w ++ x) = w.map (·, s.kind) ++ tagsFrom .free s x ∧
      endFrom p s (w ++ x) = endFrom .free s x := by
  induction w generalizing p with
  | nil => exact absurd rfl hne
  | cons c w ih =>
    simp only [isBlankLine, List.all_cons, Bool.and_eq_true] at hw
    have hstep := step_blank_kind h hp hw.1 (w ++ x).head?
    rw [List.cons_append, upToLine, tagsFrom_cons, endFrom, hstep]
    by_cases hw' : w = []
    · subst hw'
      exact ⟨rfl, rfl, rfl⟩
    · have hsane := h.step c (w ++ x).head?
      rw [hstep] at hsane
      obtain ⟨h1, h2, h3⟩ := ih hsane (.inl rfl) hw' hw.2
      rw [h1, h2, h3]
      exact ⟨rfl, rfl, rfl⟩

/-- Blanks that stay. -/
theorem Folds.blank {p : Phase} {s : State} {w x x' : Text} (h : Ready p s (w ++ x))
    (hn : '\n' ∉ w ++ x') (hhead : x'.head? = x.head?)
    (ih : ∀ {p s}, Ready p s x → Folds p s x x') : Folds p s (w ++ x) (w ++ x') := by
  induction w generalizing p s with
  | nil => exact ih h
  | cons c w ihw =>
    rw [List.cons_append, List.mem_cons, not_or] at hn
    have hnext : (w ++ x').head? = (w ++ x).head? := by
      rw [List.head?_append, List.head?_append, hhead]
    exact Folds.cons h.line (Ne.symm hn.1) hn.2 (congrArg (step p s c) hnext) fun hline =>
      ihw (h.tail hline) hn.2

/-- A character is read in the same way in front of any blank. -/
theorem step_next_blank (p : Phase) (s : State) (c : Char) {d e : Char} (hd : isBlank d = true)
    (he : isBlank e = true) : step p s c (some d) = step p s c (some e) := by
  have hsign {d : Char} (hd : isBlank d = true) : d ≠ '/' ∧ d ≠ '*' := by
    constructor <;> (rintro rfl; revert hd; decide)
  have hfree : stepFree s c (some d) = stepFree s c (some e) := by
    simp [stepFree, hsign hd, hsign he]
  cases p <;> simp [step, hfree]

end SourceLayout.Scan

namespace SourceLayout.Text

theorem release_head {w : Text} (hw : isBlankLine w = true) (hne : w ≠ []) :
    ∃ e, (joinWrapped.release w.reverse).head? = some e ∧ isBlank e = true := by
  unfold joinWrapped.release
  split
  · exact ⟨' ', rfl, rfl⟩
  · obtain ⟨c, w, rfl⟩ := List.exists_cons_of_ne_nil hne
    simp only [isBlankLine, List.all_cons, Bool.and_eq_true] at hw
    exact ⟨c, by simp, hw.1⟩

/-- The blanks in front of a text are joined on their own. -/
theorem joinWrapped_eq (t : Text) :
    joinWrapped t = joinWrapped.release (indentOf t).reverse ++ joinWrapped (trimLeft t) := by
  cases hx : trimLeft t with
  | nil =>
    have ht := indentOf_append_trimLeft t
    rw [hx, List.append_nil] at ht
    have hgo := joinWrapped_go_blank (isBlankLine_indentOf t) [] []
    rw [List.append_nil, List.append_nil, ht] at hgo
    rw [joinWrapped, hgo, ht]
    simp [joinWrapped, joinWrapped.go, joinWrapped.release]
  | cons c r =>
    have hc : isBlank c = false := head_trimLeft (by rw [hx]; rfl)
    conv => lhs; rw [← indentOf_append_trimLeft t, hx]
    exact joinWrapped_blank_append (isBlankLine_indentOf t) rfl hc

/-- A text that begins with no blank begins in the same way on one line. -/
theorem head?_joinWrapped {t : Text} (h : ∀ c ∈ t.head?, isBlank c = false) :
    (joinWrapped t).head? = t.head? := by
  cases t with
  | nil => rfl
  | cons c r => rw [joinWrapped_cons (h c rfl)]; rfl

end SourceLayout.Text

namespace SourceLayout.Scan
open Text

/-- A text is joined in front of its first line comment, and behind that it is comment. -/
theorem folds_joinWrapped {p : Phase} {s : State} {t : Text} (h : Ready p s t) :
    Folds p s t (joinWrapped t) := by
  induction hn : t.length using Nat.strongRecOn generalizing p s t with
  | ind n ih =>
    cases t with
    | nil =>
      exact ⟨.line
        (by simp [joinWrapped, joinWrapped.go, joinWrapped.release, tagsFrom, marksFrom]), .inl rfl⟩
    | cons c r =>
      cases hc : isBlank c with
      | false =>
        have hne : c ≠ '\n' := by
          rintro rfl
          cases hc
        have hnext : step p s c (joinWrapped r).head? = step p s c r.head? := by
          cases r with
          | nil => rfl
          | cons d r =>
            cases hd : isBlank d with
            | false => rw [joinWrapped_cons hd]; rfl
            | true =>
              have hindent : indentOf (d :: r) ≠ [] := by simp [indentOf, hd]
              obtain ⟨e, he, hblank⟩ := release_head (isBlankLine_indentOf (d :: r)) hindent
              rw [joinWrapped_eq, List.head?_append, he]
              exact step_next_blank p s c hblank hd
        rw [joinWrapped_cons hc]
        refine Folds.cons h.line hne (not_mem_joinWrapped r) hnext fun hline => ?_
        exact ih r.length (by rw [← hn]; simp) (h.tail hline) rfl
      | true =>
        have hindent : indentOf (c :: r) ≠ [] := by simp [indentOf, hc]
        have hblank := isBlankLine_indentOf (c :: r)
        have hsplit := indentOf_append_trimLeft (c :: r)
        have hshort : (trimLeft (c :: r)).length < n := by
          have hlength := congrArg List.length hsplit
          rw [List.length_append, hn] at hlength
          have hpos := List.length_pos_iff.mpr hindent
          omega
        have hphase : p = .free ∨ p = .escaped := by
          cases hp : p with
          | free => exact .inl rfl
          | escaped => exact .inr rfl
          | line => exact absurd hp h.line
          | sign =>
            have hshown := h.sign hp c rfl
            rw [hc] at hshown
            cases hshown
        rw [joinWrapped_eq]
        rw [← hsplit] at h
        conv => arg 3; rw [← hsplit]
        by_cases hbreak : '\n' ∈ indentOf (c :: r)
        · have hrelease : joinWrapped.release (indentOf (c :: r)).reverse = [' '] := by
            simp [joinWrapped.release, hbreak]
          obtain ⟨hup, -, hend⟩ := blank_read h.sane hphase hindent hblank (trimLeft (c :: r))
          obtain ⟨-, htags, hend'⟩ :=
            @blank_read p s h.sane hphase [' '] (by simp) rfl (joinWrapped (trimLeft (c :: r)))
          have hready : Ready .free s (trimLeft (c :: r)) := by
            have hsane := h.sane.step c none
            rw [step_blank_kind h.sane hphase hc] at hsane
            exact ⟨hsane, by simp, by simp⟩
          obtain ⟨hrefold, hends⟩ := ih _ hshort hready rfl
          rw [hrelease]
          constructor
          · rw [hup, htags]
            exact .join hblank hbreak hrefold
          · rw [hend, hend']
            exact hends
        · have hrelease : joinWrapped.release (indentOf (c :: r)).reverse = indentOf (c :: r) := by
            simp [joinWrapped.release, hbreak]
          rw [hrelease]
          refine Folds.blank h ?_ (head?_joinWrapped fun d hd => head_trimLeft hd) fun hready =>
            ih _ hshort hready rfl
          rw [List.mem_append, not_or]
          exact ⟨hbreak, not_mem_joinWrapped _⟩

theorem Refold.isFlat {a b : List (Char × Kind)} (h : Refold a b) (hflat : isFlat a = true) :
    isFlat b = true := by
  induction h with
  | line h =>
    refine List.all_eq_true.mpr fun x hx => ?_
    simp [(h x hx).1]
  | keep _ _ ih =>
    simp only [Scan.isFlat, List.all_cons, Bool.and_eq_true] at hflat ⊢
    exact ⟨hflat.1, ih hflat.2⟩
  | join _ _ _ ih =>
    rw [isFlat_append, Bool.and_eq_true] at hflat
    simp only [Scan.isFlat, List.all_cons, Bool.and_eq_true]
    exact ⟨by cases ‹Kind› <;> rfl, ih hflat.2⟩

/-- On one line a text is joined in front of its first line comment; it has no more brackets, and
does not end in a string or a block comment if it did not. -/
theorem joinWrapped_spec {t : Text} (hflat : isFlat (tags t) = true) (hclose : Closes t) :
    Refold (upToLine .free {} t) (tags (joinWrapped t)) ∧ isFlat (tags (joinWrapped t)) = true ∧
      (endFrom .free {} (joinWrapped t)).2.lex = (none, false) := by
  obtain ⟨hrefold, hends⟩ := @folds_joinWrapped .free {} t ⟨sane_start, by simp, by simp⟩
  rw [show tags t = tagsFrom .free {} t from rfl, ← upToLine_append_fromLine, isFlat_append,
    Bool.and_eq_true] at hflat
  refine ⟨hrefold, hrefold.isFlat hflat.1, ?_⟩
  rcases hends with hends | hends
  · exact hends.trans hclose.lex
  · exact hends

end SourceLayout.Scan
