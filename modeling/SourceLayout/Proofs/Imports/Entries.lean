import SourceLayout.Proofs.Literals.Clean

/-! The entries of a list of names. A text without its comments is read as it was read with them; so
the names between two commas are the same whether the comments are removed before the text is cut or
after, and they can be read off the characters of the text one by one. -/

namespace SourceLayout.Scan
open Text

/-! ## Texts without their comments -/

/-- The characters of a text read from phase `p` and state `s`, each with what it belongs to. -/
def tagsFrom (p : Phase) (s : State) (t : Text) : List (Char × Kind) :=
  (marksFrom p s t).map Mark.tag

theorem tagsFrom_cons (p : Phase) (s : State) (c : Char) (r : Text) :
    tagsFrom p s (c :: r) =
      (c, (step p s c r.head?).1.kind) :: tagsFrom (step p s c r.head?).2.1 (step p s c r.head?).2.2
      r := by
  rw [tagsFrom, marksFrom_cons, List.map_cons, Mark.tag, step_char]
  rfl

/-- What a character is without the comments: a line break in a comment stays, and is code then. -/
def bareTag (x : Char × Kind) : Option (Char × Kind) :=
  if x.2 == .comment then if x.1 == '\n' then some (x.1, .code) else none else some x

theorem bareTag_some {x y : Char × Kind} (h : bareTag x = some y) :
    x.2 ≠ .comment ∧ y = x ∨ x = ('\n', .comment) ∧ y = ('\n', .code) := by
  obtain ⟨c, k⟩ := x
  simp only [bareTag] at h
  split at h
  · next hk =>
    split at h
    · next hn =>
      rw [beq_iff_eq] at hk hn
      cases h
      exact .inr ⟨by rw [hk, hn], by rw [hn]⟩
    · cases h
  · next hk =>
    cases h
    exact .inl ⟨by simpa using hk, rfl⟩

theorem bareTag_none {x : Char × Kind} (h : bareTag x = none) : x.2 = .comment ∧ x.1 ≠ '\n' := by
  simp only [bareTag] at h
  split at h
  · next hk =>
    split at h
    · cases h
    · next hn => exact ⟨by simpa using hk, by simpa using hn⟩
  · cases h

theorem bareTag_char {x y : Char × Kind} (h : bareTag x = some y) : y.1 = x.1 := by
  rcases bareTag_some h with ⟨-, rfl⟩ | ⟨rfl, rfl⟩ <;> rfl

def bareFrom (p : Phase) (s : State) (t : Text) : Text :=
  ((tagsFrom p s t).filterMap bareTag).map (·.1)

theorem withoutComments_eq_bare (t : Text) : withoutComments t = bareFrom .free {} t := by
  rw [withoutComments_eq, bareFrom]
  change _ = ((tags t).filterMap bareTag).map _
  induction tags t with
  | nil => rfl
  | cons x ts ih =>
    rw [List.filter_cons, List.filterMap_cons]
    by_cases hx : x.2 = .comment
    · by_cases hn : x.1 = '\n'
      · simp [bareTag, hx, hn, ih]
      · simp [bareTag, hx, hn, ih]
    · simp [bareTag, hx, ih]

/-- A character behind which code goes on does not hang on the next one, unless that
could make it a comment. -/
theorem step_next_inCode {p : Phase} {s : State} {c : Char} {next : Option Char}
    (h : InCode (step p s c next).2) (hs : s.Quoted) (hb : s.inBlock = false) (hc : c ≠ '/')
    (next' : Option Char) : step p s c next' = step p s c next := by
  have hfree (h : InCode (stepFree s c next).2) : stepFree s c next' = stepFree s c next := by
    cases hq : s.quote with
    | none => simp [stepFree, hb, hq, hc]
    | some q =>
      have hne : c ≠ '\\' := by
        rintro rfl
        have hquote := h.quote
        have hq' : ('\\' == q) = false := by
          rw [beq_eq_false_iff_ne]
          rintro rfl
          exact absurd (hs _ hq) (by decide)
        simp only [stepFree, hb, hq, hq', Bool.false_eq_true, ↓reduceIte] at hquote
        split at hquote <;> simp [hq] at hquote
      simp [stepFree, hb, hq, hne]
  cases p with
  | free => exact hfree h
  | line =>
    simp only [step] at h ⊢
    split
    · next hn =>
      simp only [hn, ↓reduceIte] at h
      exact hfree h
    · rfl
  | escaped => rfl
  | sign => rfl

/-- A comment begins in code, with a slash. -/
theorem inCode_of_comment {p : Phase} {s : State} {d : Char} {next : Option Char}
    (hp : p = .free ∨ p = .escaped) (hb : s.inBlock = false)
    (hd : (step p s d next).1.isComment = true) : InCode (p, s) ∧ d = '/' := by
  rcases hp with rfl | rfl
  · cases hq : s.quote with
    | none =>
      refine ⟨⟨rfl, by simp [State.lex, hq, hb]⟩, ?_⟩
      by_cases hslash : d = '/'
      · exact hslash
      · simp only [step, stepFree, hb, hq, Bool.false_eq_true, ↓reduceIte] at hd
        split at hd <;> simp [Mark.isComment, hslash] at hd
    | some q => simp [step, stepFree, hb, hq, Mark.isComment] at hd
  · simp [step, Mark.isComment] at hd

/-- In front of a comment no slash stands that is not part of one. -/
theorem not_slash_of_comment {p : Phase} {s : State} {c : Char} (hp : p = .free ∨ p = .escaped)
    (hsane : Sane (p, s)) (hb : s.inBlock = false)
    (hc : (step p s c (some '/')).1.isComment = false) (hcode : InCode (step p s c (some '/')).2) :
    c ≠ '/' := by
  rintro rfl
  have hquote := hcode.quote
  rcases hp with rfl | rfl
  · cases hq : s.quote with
    | none => simp [step, stepFree, hb, hq, isQuote, Mark.isComment] at hc
    | some q =>
      have hne : ('/' == q) = false := by
        rw [beq_eq_false_iff_ne]
        rintro rfl
        exact absurd (hsane.quoted _ hq) (by decide)
      simp [step, stepFree, hb, hq, hne] at hquote
  · have hopen := hsane.escaped rfl
    simp only [step] at hquote
    simp [hquote] at hopen

/-- Where the scanner stands if the comments are left out. -/
def Phase.bare (p : Phase) : Phase := if p = .escaped then .escaped else .free

/-- Reading a comment leaves the strings alone. -/
theorem step_comment {p : Phase} {s : State} {c : Char} {next : Option Char} (h : Sane (p, s))
    (hc : (step p s c next).1.isComment = true) :
    p.bare = .free ∧ (step p s c next).2.1.bare = .free ∧ s.quote = none ∧
    (step p s c next).2.2.quote = none := by
  have hfree (hq : s.quote = none) (hc : (stepFree s c next).1.isComment = true) :
      (stepFree s c next).2.1.bare = .free ∧ (stepFree s c next).2.2.quote = none := by
    cases hb : s.inBlock with
    | true =>
      simp only [stepFree, hb, ↓reduceIte]
      split <;> exact ⟨rfl, hq⟩
    | false =>
      cases hc' : isQuote c with
      | true => simp [stepFree, hb, hq, hc', Mark.isComment] at hc
      | false =>
        simp only [stepFree, hb, hq, hc', Bool.false_eq_true, ↓reduceIte] at hc ⊢
        split
        · exact ⟨rfl, hq⟩
        · split
          · exact ⟨rfl, rfl⟩
          · next h1 h2 =>
            rw [if_neg h1, if_neg h2] at hc
            simp [Mark.isComment] at hc
  have hquote : s.quote = none := by
    cases hq : s.quote with
    | none => rfl
    | some q =>
      obtain ⟨hb, hp⟩ : s.inBlock = false ∧ (p = .free ∨ p = .escaped) := h.quote (by rw [hq]; rfl)
      rcases hp with rfl | rfl <;> simp [step, stepFree, hb, hq, Mark.isComment] at hc
  cases p with
  | free =>
    obtain ⟨h1, h2⟩ := hfree hquote hc
    exact ⟨rfl, h1, hquote, h2⟩
  | line =>
    simp only [step] at hc ⊢
    split
    · next hn =>
      simp only [hn, ↓reduceIte] at hc
      obtain ⟨h1, h2⟩ := hfree hquote hc
      exact ⟨rfl, h1, hquote, h2⟩
    · exact ⟨rfl, rfl, hquote, hquote⟩
  | escaped => simp [step, Mark.isComment] at hc
  | sign => exact ⟨rfl, rfl, hquote, hquote⟩

/-- A character outside comments is read as if there were none. -/
theorem step_bare {p : Phase} {s : State} {c : Char} {next : Option Char} (h : Sane (p, s))
    (hc : (step p s c next).1.isComment = false) :
    s.inBlock = false ∧ (p.bare = .free ∨ p.bare = .escaped) ∧ Sane (p.bare, s) ∧
      ∀ n, step p s c n = step p.bare s c n := by
  have hblock : s.inBlock = false := by
    cases hb : s.inBlock with
    | false => rfl
    | true =>
      have hnot : p ≠ .escaped := by
        rintro rfl
        have hquote := (h.quote (h.escaped rfl)).1
        rw [hb] at hquote
        cases hquote
      cases p with
      | escaped => exact absurd rfl hnot
      | free =>
        simp only [step, stepFree, hb, ↓reduceIte] at hc
        split at hc <;> simp [Mark.isComment] at hc
      | line =>
        simp only [step, stepFree, hb, ↓reduceIte] at hc
        split at hc
        · split at hc <;> simp [Mark.isComment] at hc
        · simp [Mark.isComment] at hc
      | sign => simp [step, Mark.isComment] at hc
  cases p with
  | free => exact ⟨hblock, .inl rfl, h, fun n => rfl⟩
  | escaped => exact ⟨hblock, .inr rfl, h, fun n => rfl⟩
  | sign => simp [step, Mark.isComment] at hc
  | line =>
    have hn : c = '\n' := by
      simp only [step] at hc
      split at hc
      · next hn => simpa using hn
      · simp [Mark.isComment] at hc
    refine ⟨hblock, .inl rfl, ⟨by simp [Phase.bare], fun hq => ?_, h.quoted⟩, fun n => ?_⟩
    · exact ⟨hblock, .inl rfl⟩
    · simp [step, hn, Phase.bare]

/-- Without its comments a text is read as it was read with them. -/
theorem tags_bareFrom {p : Phase} {s : State} (h : Sane (p, s)) {s' : State}
    (hs : s'.lex = (s.quote, false)) (t : Text) :
    tagsFrom p.bare s' (bareFrom p s t) = (tagsFrom p s t).filterMap bareTag ∧
      (endFrom p.bare s' (bareFrom p s t)).2.quote = (endFrom p s t).2.quote := by
  induction t generalizing p s s' with
  | nil => exact ⟨rfl, congrArg Prod.fst hs⟩
  | cons c r ih =>
    have hsane := h.step c r.head?
    rw [endFrom]
    cases hc : (step p s c r.head?).1.isComment with
    | true =>
      have hkind : (step p s c r.head?).1.kind = .comment := by simpa [Mark.isComment] using hc
      obtain ⟨hp, hp', hq, hq'⟩ := step_comment h hc
      obtain ⟨htags, hend⟩ := @ih _ _ hsane s' (by rw [hs, hq, hq'])
      rw [hp'] at htags hend
      rw [bareFrom, tagsFrom_cons, List.filterMap_cons, bareTag, hkind, hp]
      by_cases hn : c = '\n'
      · have hblank : step .free s' c
          (bareFrom (step p s c r.head?).2.1 (step p s c r.head?).2.2 r).head? =
            (⟨c, s'.depth, .code⟩, .free, s') :=
          step_blank (by rw [hq] at hs; exact congrArg Prod.fst hs) (congrArg Prod.snd hs)
            (by rw [hn]; rfl) _
        subst hn
        simp only [beq_self_eq_true, ↓reduceIte, List.map_cons]
        rw [tagsFrom_cons, endFrom]
        simp only [bareFrom] at htags hend hblank
        rw [hblank]
        exact ⟨congrArg _ htags, hend⟩
      · simp only [beq_self_eq_true, ↓reduceIte, beq_eq_false_iff_ne.mpr hn, Bool.false_eq_true]
        exact ⟨htags, hend⟩
    | false =>
      have hkind : (step p s c r.head?).1.kind ≠ .comment := by simpa [Mark.isComment] using hc
      obtain ⟨hb, hp, hbare, hstep⟩ := step_bare h hc
      rw [hstep] at hc hkind hsane ⊢
      obtain ⟨hp', hb', -⟩ := step_quiet hp hb hc
      have hsame : (step p.bare s c r.head?).2.1.bare = (step p.bare s c r.head?).2.1 := by
        rcases hp' with h | h <;> rw [h] <;> rfl
      obtain ⟨htags, hend⟩ := @ih _ _ hsane (step p.bare s c r.head?).2.2 (by rw [State.lex, hb'])
      rw [hsame] at htags hend
      have hlex : s'.lex = s.lex := by rw [hs, State.lex, hb]
      -- the next character is the same, or a comment begins there
      have hnext : step p.bare s c
          (bareFrom (step p.bare s c r.head?).2.1 (step p.bare s c r.head?).2.2 r).head? =
            step p.bare s c r.head? := by
        cases r with
        | nil => rfl
        | cons d r =>
          cases hd : bareTag
            (d, (step (step p.bare s c (some d)).2.1 (step p.bare s c (some d)).2.2 d
              r.head?).1.kind) with
          | some x =>
            have hx : x.1 = d := bareTag_char hd
            rw [bareFrom, tagsFrom_cons, List.head?_cons, List.filterMap_cons, hd]
            simp [hx]
          | none =>
            have hcomment := (bareTag_none hd).1
            obtain ⟨hcode, rfl⟩ := inCode_of_comment hp' hb' (beq_iff_eq.mpr hcomment)
            exact step_next_inCode hcode hbare.quoted hb (not_slash_of_comment hp hbare hb hc hcode)
              _
      have hx : bareFrom p s (c :: r) =
          c :: bareFrom (step p.bare s c r.head?).2.1 (step p.bare s c r.head?).2.2 r := by
        rw [bareFrom, tagsFrom_cons, hstep, List.filterMap_cons, bareTag]
        simp [hkind, bareFrom]
      rw [hx, tagsFrom_cons p, hstep, List.filterMap_cons, bareTag]
      simp only [beq_eq_false_iff_ne.mpr hkind, Bool.false_eq_true, ↓reduceIte]
      constructor
      · rw [show tagsFrom p.bare s' _ = tagsFrom p.bare s _ from tags_lex hlex .., tagsFrom_cons,
          hnext, htags]
      · rw [(Prod.mk.inj (endFrom_lex hlex p.bare _).2.1).1, endFrom, hnext, hend]

theorem tags_withoutComments (t : Text) :
    tags (withoutComments t) = (tags t).filterMap bareTag := by
  rw [withoutComments_eq_bare]
  exact (tags_bareFrom sane_start rfl t).1

theorem commentStart?_withoutComments (t : Text) : commentStart? (withoutComments t) = none := by
  rw [commentStart?_eq_none, tags_withoutComments]
  intro x hx
  obtain ⟨y, -, hy⟩ := List.mem_filterMap.mp hx
  rcases bareTag_some hy with ⟨hk, rfl⟩ | ⟨-, rfl⟩
  · exact hk
  · decide

/-- Without its comments a text still ends in code. -/
theorem Closes.withoutComments {t : Text} (h : Closes t) : Closes (withoutComments t) := by
  obtain ⟨hphase, hblock⟩ := outside_of_no_comment (commentStart?_withoutComments t)
  have hquote : (endFrom .free {} (Scan.withoutComments t)).2.quote = none := by
    have hend := (@tags_bareFrom _ _ sane_start {} rfl t).2
    rw [← withoutComments_eq_bare] at hend
    exact hend.trans h.quote
  exact ⟨hphase, by simp [State.lex, hquote, hblock]⟩

/-! ## Texts without brackets -/

/-- No bracket stands in the code. -/
def isFlat (ts : List (Char × Kind)) : Bool :=
  ts.all fun x => x.2 != .code || !(isOpener x.1 || isCloser x.1)

theorem isFlat_append (a b : List (Char × Kind)) : isFlat (a ++ b) = (isFlat a && isFlat b) :=
  List.all_append

theorem isFlat_comma (ts : List (Char × Kind)) : isFlat ((',', .code) :: ts) = isFlat ts := rfl

/-- Without brackets everything stands outside all brackets. -/
theorem depth_of_flat {p : Phase} {s : State} (hs : s.stack = []) {t : Text}
    (h : isFlat (tagsFrom p s t) = true) :
    (∀ m ∈ marksFrom p s t, m.depth = 0) ∧ (endFrom p s t).2.stack = [] := by
  induction t generalizing p s with
  | nil => exact ⟨by simp [marksFrom], hs⟩
  | cons c r ih =>
    rw [tagsFrom_cons, isFlat, List.all_cons, Bool.and_eq_true] at h
    obtain ⟨hc, hr⟩ := h
    have hdepth : s.depth = 0 := by rw [State.depth, hs]; rfl
    have hstep : (step p s c r.head?).1.depth = 0 ∧ (step p s c r.head?).2.2.stack = [] := by
      rcases step_cases p s c r.head? with ⟨-, -, hstep⟩ | ⟨k, p', s', -, hstack, hstep⟩
      · rw [hstep] at hc ⊢
        simp only [bne_self_eq_false, Bool.false_or, Bool.not_eq_true', Bool.or_eq_false_iff,
          isCloser, Option.isSome_eq_false_iff, Option.isNone_iff_eq_none] at hc
        exact ⟨by simp [hdepth], by simp [State.readCode, hc.1, hc.2, hs]⟩
      · rw [hstep]
        exact ⟨hdepth, hstack.trans hs⟩
    obtain ⟨hrest, hend⟩ := ih hstep.2 hr
    rw [marksFrom_cons, endFrom]
    exact ⟨List.forall_mem_cons.mpr ⟨hstep.1, hrest⟩, hend⟩

theorem isFlat_withoutComments {t : Text} (h : isFlat (tags t) = true) :
    isFlat (tags (withoutComments t)) = true := by
  rw [tags_withoutComments, isFlat, List.all_eq_true]
  intro x hx
  obtain ⟨y, hy, hxy⟩ := List.mem_filterMap.mp hx
  rcases bareTag_some hxy with ⟨-, rfl⟩ | ⟨-, rfl⟩
  · exact List.all_eq_true.mp h _ hy
  · decide

/-! ## Names, character by character -/

inductive Part where
  | nothing
  | gap
  | comma
  | letter
  deriving DecidableEq

/-- Blanks of code, and line breaks in comments, set letters apart; what else
is comment is nothing. -/
def partOf (x : Char × Kind) : Part :=
  if x.2 == .comment then if x.1 == '\n' then .gap else .nothing
  else if x.2 == .code && isBlank x.1 then .gap
  else if x.2 == .code && x.1 == ',' then .comma
  else .letter

theorem eq_comma {x : Char × Kind} (h : partOf x = .comma) : x = (',', .code) := by
  obtain ⟨c, k⟩ := x
  cases k with
  | code =>
    by_cases hb : isBlank c = true
    · simp [partOf, hb] at h
    · by_cases hc : c = ','
      · rw [hc]
      · simp [partOf, hb, hc] at h
  | string => simp [partOf] at h
  | comment =>
    by_cases hn : c = '\n' <;> simp [partOf, hn] at h

theorem kind_of_nothing {x : Char × Kind} (h : partOf x = .nothing) : x.2 = .comment := by
  by_cases hk : x.2 = .comment
  · exact hk
  · simp only [partOf, beq_eq_false_iff_ne.mpr hk, Bool.false_eq_true, ↓reduceIte] at h
    split at h
    · cases h
    · split at h <;> cases h

theorem partOf_string {x : Char × Kind} (h : x.2 = .string) : partOf x = .letter := by
  simp [partOf, h]

theorem partOf_blank {c : Char} (hc : isBlank c = true) : partOf (c, .code) = .gap := by
  simp [partOf, hc]

def isIdle (x : Char × Kind) : Bool := x.2 == .comment || isBlank x.1 || x.1 == ','

/-- Letters are what belongs to strings, and code that is neither blank nor comma. -/
theorem letter_iff {x : Char × Kind} : partOf x = .letter ↔ x.2 = .string ∨ isIdle x = false := by
  obtain ⟨c, k⟩ := x
  cases k with
  | string => simp [partOf]
  | comment => by_cases hn : c = '\n' <;> simp [partOf, isIdle, hn]
  | code =>
    by_cases hb : isBlank c = true
    · simp [partOf, isIdle, hb]
    · by_cases hc : c = ','
      · subst hc
        decide
      · simp [partOf, isIdle, hb, hc]

/-- The gap in front of the next letter, behind a blank. There is none in
front of the first letter. -/
def widen (gap : Option Bool) : Option Bool := gap.map fun _ => true

/-- The letters of a list of names, with a space for each gap between them and nothing in place of
each comma. `gap` is missing at the beginning of a name and says else whether a blank stands
behind the last letter. -/
def streamFrom (gap : Option Bool) : List (Char × Kind) → List (Option Char)
  | [] => []
  | x :: r =>
    match partOf x with
    | .nothing => streamFrom gap r
    | .gap => streamFrom (widen gap) r
    | .comma => none :: streamFrom none r
    | .letter =>
      (if gap == some true then [some ' ', some x.1] else [some x.1]) ++ streamFrom (some false) r

def stream (t : Text) : List (Option Char) := streamFrom none (tags t)

def namesIn (st : List (Option Char)) : List Text :=
  ((splitWhen Option.isNone st).map fun p => trim (p.filterMap id)).filter (!·.isEmpty)

theorem partOf_bareTag {x y : Char × Kind} (h : bareTag x = some y) : partOf y = partOf x := by
  rcases bareTag_some h with ⟨-, rfl⟩ | ⟨rfl, rfl⟩ <;> rfl

theorem streamFrom_bare (gap : Option Bool) (ts : List (Char × Kind)) :
    streamFrom gap (ts.filterMap bareTag) = streamFrom gap ts := by
  induction ts generalizing gap with
  | nil => rfl
  | cons x ts ih =>
    rw [List.filterMap_cons]
    cases hx : bareTag x with
    | none =>
      obtain ⟨hk, hn⟩ := bareTag_none hx
      have hpart : partOf x = .nothing := by simp [partOf, hk, hn]
      simp only [streamFrom, hpart, ih]
    | some y => simp only [streamFrom, partOf_bareTag hx, bareTag_char hx, ih]

/-- Removing the comments leaves the names alone. -/
theorem stream_withoutComments (t : Text) : stream (withoutComments t) = stream t := by
  rw [stream, tags_withoutComments, streamFrom_bare, stream]

theorem streamFrom_append_comma (gap : Option Bool) (a b : List (Char × Kind)) :
    streamFrom gap (a ++ (',', .code) :: b) = streamFrom gap a ++ none :: streamFrom none b := by
  induction a generalizing gap with
  | nil => rfl
  | cons x a ih =>
    cases hx : partOf x <;> simp [streamFrom, hx, ih]

theorem namesIn_append_none (a b : List (Option Char)) :
    namesIn (a ++ none :: b) = namesIn a ++ namesIn b := by
  rw [namesIn, splitWhen_append_cons a rfl, List.map_append, List.filter_append]
  rfl

@[simp] theorem widen_widen (gap : Option Bool) : widen (widen gap) = widen gap := by
  cases gap <;> rfl

theorem streamFrom_comment {ts : List (Char × Kind)} (h : ∀ x ∈ ts, x.2 = .comment ∧ x.1 ≠ '\n')
    (gap : Option Bool) : streamFrom gap ts = [] := by
  induction ts with
  | nil => rfl
  | cons x ts ih =>
    rw [List.forall_mem_cons] at h
    have hpart : partOf x = .nothing := by simp [partOf, h.1]
    simpa only [streamFrom, hpart] using ih h.2

/-- A run of blanks is one gap if it is code or holds a line break. -/
theorem streamFrom_run {w : Text} (hw : isBlankLine w = true) {k : Kind} (hk : k ≠ .string)
    (gap : Option Bool) (ts : List (Char × Kind)) :
    streamFrom gap (w.map (·, k) ++ ts) =
      streamFrom (if w ≠ [] ∧ k = .code ∨ '\n' ∈ w then widen gap else gap) ts := by
  induction w generalizing gap with
  | nil => simp
  | cons c w ih =>
    simp only [isBlankLine, List.all_cons, Bool.and_eq_true] at hw
    rw [List.map_cons, List.cons_append, streamFrom]
    cases k with
    | string => exact absurd rfl hk
    | code =>
      simp only [partOf_blank hw.1, ih hw.2]
      split <;> simp
    | comment =>
      by_cases hc : c = '\n'
      · have hpart : partOf (c, .comment) = .gap := by simp [partOf, hc]
        simp only [hpart, ih hw.2]
        split <;> simp [hc]
      · have hpart : partOf (c, .comment) = .nothing := by simp [partOf, hc]
        simp only [hpart, ih hw.2]
        simp [Ne.symm hc]

/-- The letters of two parts stand one behind the other. -/
theorem streamFrom_append (gap : Option Bool) (a : List (Char × Kind)) :
    ∃ g, ∀ b, streamFrom gap (a ++ b) = streamFrom gap a ++ streamFrom g b := by
  induction a generalizing gap with
  | nil => exact ⟨gap, fun b => rfl⟩
  | cons x a ih =>
    cases hx : partOf x with
    | nothing => simpa [streamFrom, hx] using ih gap
    | gap => simpa [streamFrom, hx] using ih (widen gap)
    | comma => simpa [streamFrom, hx] using ih none
    | letter => simpa [streamFrom, hx] using ih (some false)

theorem namesIn_append_commas (a : List (Option Char)) {b : List (Option Char)}
    (hb : ∀ c ∈ b, c = none) : namesIn (a ++ b) = namesIn a := by
  induction b generalizing a with
  | nil => rw [List.append_nil]
  | cons c b ih =>
    obtain ⟨rfl, hrest⟩ := List.forall_mem_cons.mp hb
    have hnil : namesIn b = [] := ih [] hrest
    rw [namesIn_append_none, hnil, List.append_nil]

/-! ## Names as they are cut and collapsed -/

/-- The names between the commas of a text, with each run of blanks written as one space. -/
def entriesOf (t : Text) : List Text := ((piecesTop [','] t).map collapse).filter (!·.isEmpty)

/-- The last character that is written, as far as it decides on the next blank. A space is written
for the gap itself or stands in a string that is still open. -/
def Fits (s : State) (last : Option Char) (gap : Option Bool) : Prop :=
  last = none ∧ gap = none ∨ last = some ' ' ∧ gap = some true ∨
    ∃ c, last = some c ∧ gap = some false ∧ (s.quote = none → c ≠ ' ')

/-- Collapsing writes the letters and the gaps between them, and perhaps a space behind them. `gap`
has been written where it is open. -/
theorem collapseFrom_stream {p : Phase} {s : State} (h : Sane (p, s)) {t : Text}
    {last : Option Char} {gap : Option Bool} (hfits : Fits s last gap)
    (hnone : ∀ x ∈ tagsFrom p s t, x.2 ≠ .comment)
    (hcomma : ∀ x ∈ tagsFrom p s t, partOf x ≠ .comma) :
    ∃ b, isBlankLine b = true ∧
    (if gap == some true then [' '] else []) ++ collapseFrom last (marksFrom p s t) =
      (streamFrom gap (tagsFrom p s t)).filterMap id ++ b := by
  induction t generalizing p s last gap with
  | nil =>
    refine ⟨if gap == some true then [' '] else [], by split <;> rfl, ?_⟩
    simp [marksFrom, collapseFrom, tagsFrom, streamFrom]
  | cons c r ih =>
    rw [tagsFrom_cons, List.forall_mem_cons] at hnone hcomma
    have hsane : Sane ((step p s c r.head?).2.1, (step p s c r.head?).2.2) := h.step c r.head?
    rw [tagsFrom_cons, streamFrom, marksFrom_cons, collapseFrom_cons, step_char]
    have hkind := hnone.1
    have hpart := hcomma.1
    cases hfirm : (step p s c r.head?).1.isFirm with
    | true =>
      have hletter : partOf (c, (step p s c r.head?).1.kind) = .letter := by
        simp only [Mark.isFirm, step_char, Bool.or_eq_true, beq_iff_eq, Bool.not_eq_true'] at hfirm
        rcases hfirm with hstring | hshown
        · simp [partOf, hstring]
        · simp only [partOf, hkind, hshown, Bool.and_false, beq_iff_eq, ↓reduceIte,
            Bool.false_eq_true] at hpart ⊢
          split at hpart
          · exact absurd rfl hpart
          · next hno => rw [if_neg hno]
      have hnext : Fits (step p s c r.head?).2.2 (some c) (some false) := by
        refine .inr (.inr ⟨c, rfl, rfl, fun hq => ?_⟩)
        rintro rfl
        simp only [Mark.isFirm, step_char, Bool.or_eq_true, beq_iff_eq, Bool.not_eq_true'] at hfirm
        rcases hfirm with hstring | hshown
        · exact absurd (isQuote_of_left h hstring hq) (by decide)
        · cases hshown
      obtain ⟨b, hb, heq⟩ := ih hsane hnext hnone.2 hcomma.2
      refine ⟨b, hb, ?_⟩
      simp only [show (some false == some true) = false from rfl, Bool.false_eq_true, ↓reduceIte,
        List.nil_append] at heq
      simp only [hletter, ↓reduceIte, heq]
      split <;> simp
    | false =>
      simp only [Mark.isFirm, step_char, Bool.or_eq_false_iff, beq_eq_false_iff_ne,
        Bool.not_eq_false'] at hfirm
      have hcode : (step p s c r.head?).1.kind = .code := by
        cases hk : (step p s c r.head?).1.kind with
        | code => rfl
        | string => exact absurd hk hfirm.1
        | comment => exact absurd hk hkind
      have hgap : partOf (c, (step p s c r.head?).1.kind) = .gap := by simp [partOf, hcode, hfirm.2]
      have hstep : s.quote = none ∧ (step p s c r.head?).2.2 = s := by
        rcases step_cases p s c r.head? with ⟨hq, -, hstep⟩ | ⟨k, p', s', hk, -, hstep⟩
        · rw [hstep]
          exact ⟨hq, readCode_blank hfirm.2 s⟩
        · rw [hstep] at hcode
          exact absurd hcode hk
      simp only [hgap, Bool.false_eq_true, ↓reduceIte]
      rw [hstep.2] at hsane hnone hcomma ⊢
      rcases hfits with ⟨rfl, rfl⟩ | ⟨rfl, rfl⟩ | ⟨d, rfl, rfl, hd⟩
      · exact ih hsane (.inl ⟨rfl, rfl⟩) hnone.2 hcomma.2
      · exact ih hsane (.inr (.inl ⟨rfl, rfl⟩)) hnone.2 hcomma.2
      · have hne := hd hstep.1
        simpa [hne, widen] using ih hsane (.inr (.inl ⟨rfl, rfl⟩)) hnone.2 hcomma.2

theorem splitWhen_stream {gap : Option Bool} {ts : List (Char × Kind)}
    (h : ∀ x ∈ ts, partOf x ≠ .comma) : ∀ c ∈ streamFrom gap ts, c.isNone = false := by
  induction ts generalizing gap with
  | nil => simp [streamFrom]
  | cons x ts ih =>
    rw [List.forall_mem_cons] at h
    cases hx : partOf x with
    | comma => exact absurd hx h.1
    | nothing => simpa [streamFrom, hx] using ih h.2
    | gap => simpa [streamFrom, hx] using ih h.2
    | letter =>
      simp only [streamFrom, hx, List.mem_append]
      rintro c (hc | hc)
      · split at hc
        · simp only [List.mem_cons, List.not_mem_nil, or_false] at hc
          rcases hc with rfl | rfl <;> rfl
        · rw [List.mem_singleton.mp hc]
          rfl
      · exact ih h.2 c hc

/-- A text without comments and commas is one name. -/
theorem namesIn_uncut {t : Text} (hnone : ∀ x ∈ tags t, x.2 ≠ .comment)
    (hcomma : ∀ x ∈ tags t, partOf x ≠ .comma) :
    namesIn (stream t) = [collapse t].filter (!·.isEmpty) := by
  obtain ⟨b, hb, heq⟩ := @collapseFrom_stream _ _ sane_start t none none (.inl ⟨rfl, rfl⟩) hnone
    hcomma
  have hcollapse : collapse t = trim ((stream t).filterMap id) := by
    rw [collapse, marks, ← trim_append_blank ((stream t).filterMap id) hb]
    exact congrArg trim heq
  rw [namesIn, stream, splitWhen_of_none (splitWhen_stream hcomma), hcollapse]
  rfl

/-- The names of a text without comments and brackets, read character by character. -/
theorem entriesOf_eq {t : Text} (hnone : ∀ x ∈ tags t, x.2 ≠ .comment)
    (hflat : isFlat (tags t) = true) : entriesOf t = namesIn (stream t) := by
  have huncut {u : Text} (hno : ∀ m ∈ marks u, isSeparator [','] m = false)
    (hflat : isFlat (tags u) = true) :
      ∀ x ∈ tags u, partOf x ≠ .comma := by
    intro x hx hcomma
    obtain ⟨m, hm, rfl⟩ := List.mem_map.mp hx
    have hdepth := (depth_of_flat (p := .free) (s := {}) rfl hflat).1 m hm
    have hsep := hno m hm
    obtain ⟨hchar, hkind⟩ : m.char = ',' ∧ m.kind = .code := Prod.mk.inj (eq_comma hcomma)
    simp [isSeparator, Mark.isTop, Mark.isCode, hdepth, hchar, hkind] at hsep
  induction t using cut_induction (show [','].all isStop = true from rfl) with
  | uncut t hno =>
    rw [entriesOf, piecesTop_uncut hno, namesIn_uncut hnone (huncut hno hflat)]
    rfl
  | ended u c v hc hstop hended ih =>
    obtain rfl : c = ',' := List.mem_singleton.mp hc
    have htags : tags (u ++ ',' :: v) = tags u ++ (',', .code) :: tags v := by
      rw [tags, marks_append_stop rfl hended.closes, List.map_append]
      rfl
    rw [htags] at hnone hflat
    rw [isFlat_append, isFlat_comma, Bool.and_eq_true] at hflat
    have hv := ih (fun x hx => hnone x (by simp [hx])) hflat.2
    have hu := namesIn_uncut (fun x hx => hnone x (by simp [hx])) (huncut hended.uncut hflat.1)
    rw [stream, htags, streamFrom_append_comma, namesIn_append_none, ← stream, ← stream, hu, ← hv,
      entriesOf, hended.piecesTop_append rfl hc, List.map_cons, List.filter_cons, entriesOf]
    split <;> simp_all

end SourceLayout.Scan
