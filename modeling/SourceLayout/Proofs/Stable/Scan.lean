import SourceLayout.Proofs.Brackets

/-! Scanning line by line. What a line does to the state does not change when blanks are added or
dropped at its ends; brackets that are nested in each other are read the same inside any other
brackets; and a line may be cut wherever no sign is cut in two. -/

namespace SourceLayout.Scan
open Text

/-! ## One step -/

/-- What a step does is decided by the open string and comment alone: it reads code, or it
leaves the brackets alone. -/
theorem step_lex (p : Phase) (q : Option Char) (b : Bool) (c : Char) (next : Option Char) :
    (∀ s : State, s.quote = q → s.inBlock = b →
      step p s c next = (⟨c, min s.depth (s.readCode c).depth, .code⟩, .free, s.readCode c)) ∨
    ∃ k p' q' b' v, k ≠ Kind.code ∧ (v = none ∨ v = some c ∧ isQuote c = true) ∧
      (q' = q ∨ q' = none ∨ q' = some c ∧ isQuote c = true) ∧ ∀ s : State, s.quote = q →
        s.inBlock = b →
        step p s c next =
          (⟨c, s.depth, k⟩, p',
            { s with quote := q', inBlock := b', previous := v <|> s.previous }) := by
  have hfree : (∀ s : State, s.quote = q → s.inBlock = b →
      stepFree s c next = (⟨c, min s.depth (s.readCode c).depth, .code⟩, .free, s.readCode c)) ∨
    ∃ k p' q' b' v, k ≠ Kind.code ∧ (v = none ∨ v = some c ∧ isQuote c = true) ∧
      (q' = q ∨ q' = none ∨ q' = some c ∧ isQuote c = true) ∧ ∀ s : State, s.quote = q →
        s.inBlock = b →
        stepFree s c next =
          (⟨c, s.depth, k⟩, p',
            { s with quote := q', inBlock := b', previous := v <|> s.previous }) := by
    cases b with
    | true =>
      right
      by_cases hend : c = '*' ∧ next = some '/'
      · refine ⟨.comment, .sign, q, false, none, by decide, .inl rfl, .inl rfl, ?_⟩
        rintro ⟨_, _, _, _⟩ rfl rfl
        simp [stepFree, hend]
      · refine ⟨.comment, .free, q, true, none, by decide, .inl rfl, .inl rfl, ?_⟩
        rintro ⟨_, _, _, _⟩ rfl rfl
        simp [stepFree, hend]
    | false =>
      cases q with
      | some q =>
        right
        by_cases hesc : c = '\\' ∧ next.isSome = true
        · refine ⟨.string, .escaped, some q, false, none, by decide, .inl rfl, .inl rfl, ?_⟩
          rintro ⟨_, _, _, _⟩ rfl rfl
          simp [stepFree, hesc]
        · refine ⟨.string, .free, if c = q then none else some q, false, none, by decide, .inl rfl,
            ?_, ?_⟩
          · by_cases hc : c = q <;> simp [hc]
          rintro ⟨_, _, _, _⟩ rfl rfl
          by_cases hc : c = q <;> simp_all [stepFree]
      | none =>
        by_cases hquote : isQuote c = true
        · right
          refine ⟨.string, .free, some c, false, some c, by decide, .inr ⟨rfl, hquote⟩,
            .inr (.inr ⟨rfl, hquote⟩), ?_⟩
          rintro ⟨_, _, _, _⟩ rfl rfl
          simp [stepFree, hquote]
        · by_cases hline : c = '/' ∧ next = some '/'
          · right
            refine ⟨.comment, .line, none, false, none, by decide, .inl rfl, .inl rfl, ?_⟩
            rintro ⟨_, _, _, _⟩ rfl rfl
            simp [stepFree, hline, isQuote]
          · by_cases hblock : c = '/' ∧ next = some '*'
            · right
              refine ⟨.comment, .sign, none, true, none, by decide, .inl rfl, .inl rfl, ?_⟩
              rintro ⟨_, _, _, _⟩ rfl rfl
              simp [stepFree, hblock, isQuote]
            · left
              rintro ⟨_, _, _, _⟩ rfl rfl
              simp [stepFree, hquote, hline, hblock]
  cases p with
  | free => exact hfree
  | line =>
    by_cases hc : c = '\n'
    · simpa only [step, hc, beq_self_eq_true, ↓reduceIte] using hc ▸ hfree
    · right
      refine ⟨.comment, .line, q, b, none, by decide, .inl rfl, .inl rfl, ?_⟩
      rintro ⟨_, _, _, _⟩ rfl rfl
      simp [step, hc]
  | escaped =>
    right
    refine ⟨.string, .free, q, b, none, by decide, .inl rfl, .inl rfl, ?_⟩
    rintro ⟨_, _, _, _⟩ rfl rfl
    simp [step]
  | sign =>
    right
    refine ⟨.comment, .free, q, b, none, by decide, .inl rfl, .inl rfl, ?_⟩
    rintro ⟨_, _, _, _⟩ rfl rfl
    simp [step]

/-- A string that is open was opened by a quote. -/
def State.Quoted (s : State) : Prop := ∀ q ∈ s.quote, isQuote q = true

theorem State.Quoted.of_none {s : State} (h : s.quote = none) : s.Quoted := by
  simp [State.Quoted, h]

theorem State.Quoted.step {s : State} (h : s.Quoted) (p : Phase) (c : Char) (next : Option Char) :
    (step p s c next).2.2.Quoted := by
  rcases step_lex p s.quote s.inBlock c next with hread | ⟨k, p', q', b', v, -, -, hq, hother⟩
  · rw [hread s rfl rfl]
    exact h
  · rw [hother s rfl rfl]
    intro q hmem
    rcases hq with rfl | rfl | ⟨rfl, hc⟩
    · exact h q hmem
    · cases hmem
    · cases hmem
      exact hc

/-! ## The end of a text -/

def endFrom (p : Phase) (s : State) : Text → Phase × State
  | [] => (p, s)
  | c :: r => endFrom (step p s c r.head?).2.1 (step p s c r.head?).2.2 r

theorem State.Quoted.endFrom {s : State} (h : s.Quoted) (p : Phase) (t : Text) :
    (endFrom p s t).2.Quoted := by
  induction t generalizing p s with
  | nil => exact h
  | cons c r ih => exact ih (h.step p c r.head?) _

theorem stateFrom_eq (p : Phase) (s : State) (t : Text) : stateFrom p s t = (endFrom p s t).2 := by
  induction t generalizing p s with
  | nil => rfl
  | cons c r ih => exact ih _ _

theorem feed_eq (s : State) (t : Text) : feed s t = (endFrom .free s t).2 := stateFrom_eq ..

/-- Whether a bracket may close here: it closes the innermost open one. The sign `>` behind an
equals sign is the end of an arrow and closes nothing; `arrow` says that the equals sign
stands right before it. -/
def State.allows (s : State) (arrow : Bool) (c : Char) : Bool :=
  match openerOf c with
  | none => true
  | some o => if c == '>' && s.previous == some '=' then arrow else s.stack.head? == some o

/-- Whether every closing bracket of a text closes the innermost open one. -/
def closesInner (p : Phase) (s : State) : Text → Bool
  | [] => true
  | c :: r =>
    (!(step p s c r.head?).1.isCode || s.allows true c) &&
      closesInner (step p s c r.head?).2.1 (step p s c r.head?).2.2 r

/-! ## Cutting a text -/

/-- Characters whose meaning may hang on the next one: they escape it, or
begin or end a comment with it. -/
def joins (c : Char) : Bool := c == '\\' || c == '/' || c == '*'

/-- Where a text, read from `p` and `s`, may be cut: its last character does not hang on the next
one, or the next one ends no sign and stands outside strings. -/
def Cuts (p : Phase) (s : State) (u v : Text) : Prop :=
  (∀ c ∈ u.getLast?, joins c = false) ∨
    (∀ d ∈ v.head?, d ≠ '/' ∧ d ≠ '*') ∧ s.Quoted ∧ (endFrom p s u).2.quote = none

theorem step_next (p : Phase) (s : State) {c : Char} (hc : joins c = false) (next : Option Char) :
    step p s c next = step p s c none := by
  simp only [joins, Bool.or_eq_false_iff, beq_eq_false_iff_ne] at hc
  obtain ⟨⟨hescape, hslash⟩, hstar⟩ := hc
  have hfree : stepFree s c next = stepFree s c none := by
    simp [stepFree, hescape, hslash, hstar]
  cases p <;> simp [step, hfree]

theorem step_before (p : Phase) {s : State} (hs : s.Quoted) {c : Char} {next : Option Char}
    (h : ∀ d ∈ next, d ≠ '/' ∧ d ≠ '*') (hq : (step p s c none).2.2.quote = none) :
    step p s c next = step p s c none := by
  cases next with
  | none => rfl
  | some d =>
    have hd := h d rfl
    have hfree (hq : (stepFree s c none).2.2.quote = none) : stepFree s c (some d) =
        stepFree s c none := by
      cases hb : s.inBlock with
      | true => simp [stepFree, hb, hd]
      | false =>
        cases hqs : s.quote with
        | none => simp [stepFree, hb, hqs, hd]
        | some q =>
          have hc : c ≠ '\\' := by
            rintro rfl
            have hne : '\\' ≠ q := by
              rintro rfl
              exact absurd (hs _ hqs) (by decide)
            simp [stepFree, hb, hqs, hne] at hq
          simp [stepFree, hb, hqs, hc]
    cases p with
    | free => exact hfree hq
    | line =>
      simp only [step] at hq ⊢
      split
      · next hc => simp only [hc, ↓reduceIte] at hq; exact hfree hq
      · rfl
    | escaped => rfl
    | sign => rfl

theorem Cuts.cons {p : Phase} {s : State} {c : Char} {u v : Text} (h : Cuts p s (c :: u) v) :
    step p s c (u ++ v).head? = step p s c u.head? ∧
      Cuts (step p s c u.head?).2.1 (step p s c u.head?).2.2 u v := by
  constructor
  · cases u with
    | nil =>
      rcases h with h | ⟨hv, hs, hq⟩
      · exact step_next p s (h c rfl) v.head?
      · exact step_before p hs hv hq
    | cons e u => rfl
  · rcases h with h | ⟨hv, hs, hq⟩
    · left
      cases u with
      | nil => simp
      | cons e u => exact h
    · exact .inr ⟨hv, hs.step p c u.head?, hq⟩

theorem endFrom_append {p : Phase} {s : State} {u v : Text} (h : Cuts p s u v) :
    endFrom p s (u ++ v) = endFrom (endFrom p s u).1 (endFrom p s u).2 v := by
  induction u generalizing p s with
  | nil => rfl
  | cons c u ih =>
    obtain ⟨hstep, hrest⟩ := h.cons
    rw [List.cons_append, endFrom, endFrom, hstep, ih hrest]

theorem marksFrom_cut {p : Phase} {s : State} {u v : Text} (h : Cuts p s u v) :
    marksFrom p s (u ++ v) =
      marksFrom p s u ++ marksFrom (endFrom p s u).1 (endFrom p s u).2 v := by
  induction u generalizing p s with
  | nil => rfl
  | cons c u ih =>
    obtain ⟨hstep, hrest⟩ := h.cons
    rw [List.cons_append, marksFrom_cons, marksFrom_cons, hstep, ih hrest]
    rfl

/-! ## Blanks -/

theorem blank_of_head {b : Text} (hb : isBlankLine b = true) {d : Char} (hd : d ∈ b.head?) :
    isBlank d = true :=
  List.all_eq_true.mp hb d (List.mem_of_mem_head? hd)

theorem step_blank_state {s : State} (hq : s.quote = none) {c : Char} (hc : isBlank c = true)
    (p : Phase) (next : Option Char) :
    (step p s c next).2.2 = s ∧ (p = .free → (step p s c next).2.1 = .free) := by
  have hfree : (stepFree s c next).2 = (.free, s) := by
    cases hb : s.inBlock with
    | true =>
      have hstar : c ≠ '*' := by rintro rfl; revert hc; decide
      simp [stepFree, hb, hstar]
    | false => rw [show stepFree s c next = step .free s c next from rfl, step_blank hq hb hc]
  cases p with
  | free => simp [step, hfree]
  | line =>
    refine ⟨?_, by simp⟩
    simp only [step]
    split
    · rw [hfree]
    · rfl
  | escaped => simp [step]
  | sign => simp [step]

theorem endFrom_blank {s : State} (hq : s.quote = none) {a : Text} (ha : isBlankLine a = true)
    (p : Phase) : (endFrom p s a).2 = s ∧ (p = .free → (endFrom p s a).1 = .free) := by
  induction a generalizing p with
  | nil => exact ⟨rfl, id⟩
  | cons c a ih =>
    simp only [isBlankLine, List.all_cons, Bool.and_eq_true] at ha
    obtain ⟨hs, hp⟩ := step_blank_state hq ha.1 p a.head?
    rw [endFrom, hs]
    exact ⟨(ih ha.2 _).1, fun h => (ih ha.2 _).2 (hp h)⟩

theorem openerOf_blank {c : Char} (hc : isBlank c = true) : openerOf c = none := by
  have hsign := not_sign_of_blank hc
  unfold openerOf
  split <;> simp_all [signs]

theorem not_joins_of_blank {c : Char} (hc : isBlank c = true) : joins c = false := by
  simp only [joins, Bool.or_eq_false_iff, beq_eq_false_iff_ne]
  refine ⟨⟨?_, ?_⟩, ?_⟩ <;> (rintro rfl; revert hc; decide)

theorem Cuts.blank_left {p : Phase} {s : State} {a : Text} (ha : isBlankLine a = true) (t : Text) :
    Cuts p s a t :=
  .inl fun c hc => not_joins_of_blank (List.all_eq_true.mp ha c (List.mem_of_mem_getLast? hc))

theorem Cuts.blank_right {p : Phase} {s : State} {t b : Text} (hs : s.Quoted)
    (hq : (endFrom p s t).2.quote = none) (hb : isBlankLine b = true) : Cuts p s t b := by
  refine .inr ⟨fun d hd => ?_, hs, hq⟩
  have hblank := blank_of_head hb hd
  constructor <;> (rintro rfl; revert hblank; decide)

theorem getLast?_blank_ne {a : Text} (ha : isBlankLine a = true) : a.getLast? ≠ some '=' := by
  intro h
  have hblank := List.all_eq_true.mp ha '=' (List.mem_of_getLast? h)
  revert hblank
  decide

/-- Blanks in front of a line change nothing. -/
theorem feed_blank_append {s : State} (hq : s.quote = none) {a : Text} (ha : isBlankLine a = true)
    (t : Text) : feed s (a ++ t) = feed s t := by
  obtain ⟨hs, hp⟩ := endFrom_blank hq ha .free
  rw [feed_eq, feed_eq, endFrom_append (Cuts.blank_left ha t), hs, hp rfl]

theorem step_blank_keeps (p : Phase) {s : State} (hs : s.Quoted) {c : Char} (hc : isBlank c = true)
    (next : Option Char) : (step p s c next).2.2 = s := by
  cases hq : s.quote with
  | none => exact (step_blank_state hq hc p next).1
  | some q =>
    have hne : c ≠ q := by
      rintro rfl
      have hquote := hs c hq
      simp only [isQuote, Bool.or_eq_true, beq_iff_eq] at hquote
      rcases hquote with (rfl | rfl) | rfl <;> (revert hc; decide)
    have hesc : c ≠ '\\' ∧ c ≠ '*' := by
      constructor <;> (rintro rfl; revert hc; decide)
    have hfree : (stepFree s c next).2.2 = s := by
      cases hb : s.inBlock <;> simp [stepFree, hb, hq, hne, hesc]
    cases p with
    | free => exact hfree
    | line => simp only [step]; split <;> first | exact hfree | rfl
    | escaped => rfl
    | sign => rfl

theorem stateFrom_blank (p : Phase) {s : State} (hs : s.Quoted) {b : Text}
    (hb : isBlankLine b = true) : stateFrom p s b = s := by
  induction b generalizing p with
  | nil => rfl
  | cons c b ih =>
    simp only [isBlankLine, List.all_cons, Bool.and_eq_true] at hb
    rw [stateFrom_eq, endFrom, ← stateFrom_eq, step_blank_keeps p hs hb.1, ih _ hb.2]

theorem step_state_next (p : Phase) {s : State} (hs : s.Quoted) (c : Char) {next : Option Char}
    (h : ∀ d ∈ next, isBlank d = true) : (step p s c next).2.2 = (step p s c none).2.2 := by
  cases next with
  | none => rfl
  | some d =>
    have hd : d ≠ '/' ∧ d ≠ '*' := by
      have h := h d rfl
      constructor <;> (rintro rfl; revert h; decide)
    have hfree : (stepFree s c (some d)).2.2 = (stepFree s c none).2.2 := by
      cases hb : s.inBlock with
      | true => simp [stepFree, hb, hd]
      | false =>
        cases hq : s.quote with
        | none => simp [stepFree, hb, hq, hd]
        | some q =>
          by_cases hc : c = '\\'
          · have hne : '\\' ≠ q := by
              rintro rfl
              exact absurd (hs _ hq) (by decide)
            simp [stepFree, hb, hq, hc, hne]
          · simp [stepFree, hb, hq, hc]
    cases p with
    | free => exact hfree
    | line => simp only [step]; split <;> first | exact hfree | rfl
    | escaped => rfl
    | sign => rfl

/-- Blanks behind a text do not change the state after it. -/
theorem stateFrom_append_blank (p : Phase) {s : State} (hs : s.Quoted) (t : Text) {b : Text}
    (hb : isBlankLine b = true) : stateFrom p s (t ++ b) = stateFrom p s t := by
  induction t generalizing p s with
  | nil => exact stateFrom_blank p hs hb
  | cons c t ih =>
    rw [List.cons_append, stateFrom_eq, stateFrom_eq, endFrom, endFrom, ← stateFrom_eq,
      ← stateFrom_eq]
    cases t with
    | nil =>
      have hnext : (step p s c b.head?).2.2 = (step p s c none).2.2 := by
        exact step_state_next p hs c fun d hd => blank_of_head hb hd
      rw [List.nil_append, stateFrom_blank _ (hs.step p c b.head?) hb, hnext]
      rfl
    | cons e t => exact ih _ (hs.step p c _)

/-! ## Strings and comments -/

/-- What of a state decides which characters are code. -/
def State.lex (s : State) : Option Char × Bool := (s.quote, s.inBlock)

theorem endFrom_lex {s s' : State} (h : s.lex = s'.lex) (p : Phase) (t : Text) :
    (endFrom p s t).1 = (endFrom p s' t).1 ∧ (endFrom p s t).2.lex = (endFrom p s' t).2.lex ∧
      (marksFrom p s t).map Mark.kind = (marksFrom p s' t).map Mark.kind := by
  induction t generalizing p s s' with
  | nil => exact ⟨rfl, h, rfl⟩
  | cons c r ih =>
    obtain ⟨hq, hb⟩ : s.quote = s'.quote ∧ s.inBlock = s'.inBlock := by simpa [State.lex] using h
    rw [endFrom, endFrom, marksFrom_cons, marksFrom_cons, List.map_cons, List.map_cons]
    rcases step_lex p s'.quote s'.inBlock c r.head? with hread | ⟨k, p', q', b', v, -, -, -, hother⟩
    · rw [hread s hq hb, hread s' rfl rfl]
      obtain ⟨hphase, hlex, hkinds⟩ := @ih (s.readCode c) (s'.readCode c) h .free
      exact ⟨hphase, hlex, by rw [hkinds]⟩
    · rw [hother s hq hb, hother s' rfl rfl]
      obtain ⟨hphase, hlex, hkinds⟩ := @ih
        { s with quote := q', inBlock := b', previous := v <|> s.previous }
        { s' with quote := q', inBlock := b', previous := v <|> s'.previous } rfl p'
      exact ⟨hphase, hlex, by rw [hkinds]⟩

/-- A place within a line that no sign and no escape goes across. -/
def Phase.quiet : Phase → Bool
  | .free => true
  | .line => true
  | .escaped => false
  | .sign => false

theorem step_none_quiet (p : Phase) (s : State) (c : Char) :
    (step p s c none).2.1.quiet = true := by
  have hfree : (stepFree s c none).2.1.quiet = true := by
    unfold stepFree
    cases s.inBlock <;> cases s.quote <;> cases isQuote c <;> simp [Phase.quiet]
  cases p with
  | free => exact hfree
  | line => simp only [step]; split <;> first | exact hfree | rfl
  | escaped => rfl
  | sign => rfl

theorem endFrom_quiet {p : Phase} (s : State) {t : Text} (h : p.quiet = true ∨ t ≠ []) :
    (endFrom p s t).1.quiet = true := by
  induction t generalizing p s with
  | nil => simpa [endFrom] using h
  | cons c r ih =>
    cases r with
    | nil => exact step_none_quiet p s c
    | cons d r => exact ih _ (.inr (List.cons_ne_nil d r))

/-- Characters that may stand between the name of a field and its value. -/
def isSoft (c : Char) : Bool := c == '?' || c == ':' || isBlank c && c != '\n'

/-- A soft character leaves the phase, the strings and the comments alone, and a
blank the whole state. -/
theorem step_soft {p : Phase} (hp : p.quiet = true) {s : State} (hs : s.Quoted) {c : Char}
    (hc : isSoft c = true) :
    ∃ k s', (∀ next, step p s c next = (⟨c, s.depth, k⟩, p, s')) ∧
      (k == .comment) = (p == .line || s.inBlock) ∧ s'.lex = s.lex ∧
      (isBlank c = true → s' = s) := by
  obtain ⟨hnewline, hjoins, hquote, hopen, hclose⟩ :
      c ≠ '\n' ∧ joins c = false ∧ isQuote c = false ∧ isOpener c = false ∧ openerOf c = none := by
    simp only [isSoft, Bool.or_eq_true, beq_iff_eq, Bool.and_eq_true, bne_iff_ne] at hc
    rcases hc with (rfl | rfl) | ⟨hblank, hne⟩
    · decide
    · decide
    · have hplain := not_sign_of_blank hblank
      refine ⟨hne, not_joins_of_blank hblank, ?_, ?_, openerOf_blank hblank⟩
      · simp_all [isQuote, signs]
      · simp_all [isOpener, signs]
  have hnext := fun next => step_next p s hjoins next
  cases p with
  | escaped => cases hp
  | sign => cases hp
  | line =>
    refine ⟨.comment, s, fun next => ?_, rfl, rfl, fun _ => rfl⟩
    rw [hnext]
    simp [step, hnewline]
  | free =>
    cases hb : s.inBlock with
    | true =>
      refine ⟨.comment, s, fun next => ?_, rfl, rfl, fun _ => rfl⟩
      rw [hnext]
      simp [step, stepFree, hb]
    | false =>
      cases hq : s.quote with
      | some q =>
        have hne : c ≠ q := by
          rintro rfl
          rw [hs c hq] at hquote
          cases hquote
        refine ⟨.string, s, fun next => ?_, rfl, rfl, fun _ => rfl⟩
        rw [hnext]
        simp [step, stepFree, hb, hq, hne]
      | none =>
        have hread : s.readCode c =
            { s with previous := if isBlank c then s.previous else some c } := by
          simp [State.readCode, hopen, hclose]
        refine ⟨.code, s.readCode c, fun next => ?_, rfl, rfl, fun hblank =>
          readCode_blank hblank s⟩
        rw [hnext]
        simp [step, stepFree, hb, hq, hquote, hread, State.depth]

theorem State.Quoted.of_lex {s s' : State} (h : s.lex = s'.lex) (hs : s.Quoted) : s'.Quoted := by
  have hq : s.quote = s'.quote := congrArg Prod.fst h
  rw [State.Quoted, ← hq]
  exact hs

/-- Blanks among soft characters say nothing. -/
theorem endFrom_soft {p : Phase} (hp : p.quiet = true) {s : State} (hs : s.Quoted) {x : Text}
    (hx : x.all isSoft = true) :
    endFrom p s x = endFrom p s (x.filter (!isBlank ·)) ∧
      (marksFrom p s x).filter (!isBlank ·.char) = marksFrom p s (x.filter (!isBlank ·)) ∧
      (∀ m ∈ marksFrom p s x, m.isComment = (p == .line || s.inBlock)) ∧
      (endFrom p s x).1 = p ∧ (endFrom p s x).2.lex = s.lex := by
  induction x generalizing s with
  | nil => exact ⟨rfl, rfl, by simp [marksFrom], rfl, rfl⟩
  | cons c r ih =>
    rw [List.all_cons, Bool.and_eq_true] at hx
    obtain ⟨k, s', hstep, hk, hlex, hblank⟩ := step_soft hp hs hx.1
    obtain ⟨hend, hfirm, hcomment, hphase, hlast⟩ := ih (hs.of_lex hlex.symm) hx.2
    have hin : s'.inBlock = s.inBlock := congrArg Prod.snd hlex
    rw [endFrom, marksFrom_cons, hstep]
    refine ⟨?_, ?_, ?_, hphase, hlast.trans hlex⟩
    · cases hc : isBlank c with
      | true => rw [List.filter_cons_of_neg (by simp [hc]), ← hblank hc]; exact hend
      | false => rw [List.filter_cons_of_pos (by simp [hc]), endFrom, hstep]; exact hend
    · cases hc : isBlank c with
      | true =>
        rw [List.filter_cons_of_neg (by simp [hc]), List.filter_cons_of_neg (by simp [hc]),
          ← hblank hc]
        exact hfirm
      | false =>
        rw [List.filter_cons_of_pos (by simp [hc]), List.filter_cons_of_pos (by simp [hc]),
          marksFrom_cons, hstep]
        exact congrArg _ hfirm
    · intro m hm
      rcases List.mem_cons.mp hm with rfl | hm
      · exact hk
      · rw [hcomment m hm, hin]

/-! ## Brackets around a text -/

/-- The state with more brackets open outside those that are open. -/
def State.on (s : State) (outer : List Char) : State := { s with stack := s.stack ++ outer }

def Mark.deeper (n : Nat) (m : Mark) : Mark := { m with depth := m.depth + n }

@[simp] theorem State.on_stack (s : State) (outer : List Char) :
    (s.on outer).stack = s.stack ++ outer := rfl

@[simp] theorem State.on_previous (s : State) (outer : List Char) :
    (s.on outer).previous = s.previous := rfl

theorem State.depth_on (s : State) (outer : List Char) :
    (s.on outer).depth = s.depth + outer.length := by
  simp [State.on, State.depth]

theorem isOpener_of_openerOf {c o : Char} (h : openerOf c = some o) : isOpener c = false := by
  unfold openerOf at h
  split at h <;> first | decide | simp at h

/-- A closing bracket that is no arrow closes its partner, if that is the innermost one. -/
theorem readCode_close {s : State} {c o : Char} {rest : List Char} (hc : openerOf c = some o)
    (harrow : ¬(c = '>' ∧ s.previous = some '=')) (hs : s.stack = o :: rest) :
    s.readCode c =
      { s with stack := rest, previous := if isBlank c then s.previous else some c } := by
  have hno : (c == '>' && s.previous == some '=') = false := by simpa using harrow
  simp [State.readCode, isOpener_of_openerOf hc, hc, hs, hno, closeBracket]

theorem readCode_on {s : State} {arrow : Bool} {c : Char} (h : s.allows arrow c = true)
    (outer : List Char) : (s.on outer).readCode c = (s.readCode c).on outer := by
  unfold State.readCode State.on
  cases ho : isOpener c with
  | true => simp
  | false =>
    cases hc : openerOf c with
    | none => simp
    | some o =>
      simp only [State.allows, hc, Bool.and_eq_true, beq_iff_eq] at h
      by_cases harrow : c = '>' ∧ s.previous = some '='
      · simp [harrow.1, harrow.2]
      · have hhead : s.stack.head? = some o := by simpa [harrow] using h
        obtain ⟨rest, hrest⟩ : ∃ rest, s.stack = o :: rest := by
          cases hs : s.stack with
          | nil => simp [hs] at hhead
          | cons a rest => exact ⟨rest, by simpa [hs] using hhead⟩
        simp [harrow, hrest, closeBracket]

theorem allows_on {s : State} {arrow : Bool} {c : Char} (h : s.allows arrow c = true)
    (outer : List Char) : (s.on outer).allows arrow c = true := by
  unfold State.allows at h ⊢
  split at h
  · rfl
  · next o hc =>
    rw [State.on_previous, State.on_stack]
    by_cases harrow : (c == '>' && s.previous == some '=') = true
    · rw [if_pos harrow] at h ⊢
      exact h
    · rw [if_neg harrow, beq_iff_eq] at h ⊢
      simp [h]

/-! ## The last character of code -/

/-- States that read on in the same way: the last character of code matters only if it is an equals
sign. -/
structure State.Alike (s s' : State) : Prop where
  stack : s.stack = s'.stack
  quote : s.quote = s'.quote
  inBlock : s.inBlock = s'.inBlock
  equals : s.previous = some '=' ↔ s'.previous = some '='

namespace State.Alike

theorem beq_equals {s s' : State} (h : s.Alike s') :
    (s.previous == some '=') = (s'.previous == some '=') := by
  have := h.equals
  grind

theorem allows {s s' : State} (h : s.Alike s') (arrow : Bool) (c : Char) :
    s.allows arrow c = s'.allows arrow c := by
  unfold State.allows
  rw [h.stack, h.beq_equals]

theorem readCode {s s' : State} (h : s.Alike s') (c : Char) :
    (s.readCode c).Alike (s'.readCode c) := by
  refine ⟨?_, h.quote, h.inBlock, ?_⟩
  · unfold State.readCode
    simp only [h.stack, h.beq_equals]
  · unfold State.readCode
    simp only
    split
    · exact h.equals
    · rfl

theorem step {s s' : State} (h : s.Alike s') (p : Phase) (c : Char) (next : Option Char) :
    (step p s c next).1 = (step p s' c next).1 ∧ (step p s c next).2.1 = (step p s' c next).2.1 ∧
      (Scan.step p s c next).2.2.Alike (Scan.step p s' c next).2.2 := by
  rcases step_lex p s'.quote s'.inBlock c next with hread | ⟨k, p', q', b', v, -, -, -, hother⟩
  · rw [hread s h.quote h.inBlock, hread s' rfl rfl]
    refine ⟨?_, rfl, h.readCode c⟩
    simp only [State.depth, h.stack, (h.readCode c).stack]
  · rw [hother s h.quote h.inBlock, hother s' rfl rfl]
    refine ⟨by simp only [State.depth, h.stack], rfl, ⟨h.stack, rfl, rfl, ?_⟩⟩
    cases v with
    | none => simpa using h.equals
    | some c => simp

theorem text {s s' : State} (h : s.Alike s') (p : Phase) (t : Text) :
    marksFrom p s t = marksFrom p s' t ∧ closesInner p s t = closesInner p s' t ∧
      (endFrom p s t).1 = (endFrom p s' t).1 ∧ (endFrom p s t).2.Alike (endFrom p s' t).2 := by
  induction t generalizing p s s' with
  | nil => exact ⟨rfl, rfl, rfl, h⟩
  | cons c r ih =>
    obtain ⟨hmark, hphase, hstate⟩ := h.step p c r.head?
    obtain ⟨hmarks, hnests, hend⟩ := ih hstate (Scan.step p s c r.head?).2.1
    rw [hphase] at hmarks hnests hend
    refine ⟨?_, ?_, ?_⟩
    · rw [marksFrom_cons, marksFrom_cons, hmark, hphase, hmarks]
    · rw [closesInner, closesInner, hmark, hphase, hnests, h.allows]
    · rw [endFrom, endFrom, hphase]
      exact hend

end State.Alike

end SourceLayout.Scan
