import SourceLayout.Proofs.Collapse
import SourceLayout.Proofs.Stable.Scan

/-! Cutting a text where code goes on. Which characters are code, string or comment depends on
the open string and the open comment alone; so between two tokens of code a text may be cut, and
each part is read as if it stood alone. -/

namespace SourceLayout.Scan
open Text

/-! ## Places in code -/

/-- A place between two tokens where neither a string nor a comment is open. -/
structure InCode (x : Phase × State) : Prop where
  phase : x.1 = .free
  lex : x.2.lex = (none, false)

theorem inCode_start : InCode (.free, {}) := ⟨rfl, rfl⟩

theorem InCode.quote {x : Phase × State} (h : InCode x) : x.2.quote = none :=
  congrArg Prod.fst h.lex

theorem InCode.inBlock {x : Phase × State} (h : InCode x) : x.2.inBlock = false :=
  congrArg Prod.snd h.lex

/-- A character behind which code goes on is read without regard to the next one. -/
theorem step_inCode {p : Phase} {s : State} {c : Char} {next : Option Char}
    (h : InCode (step p s c next).2) : step p s c next = step p s c none := by
  have hfree (h : InCode (stepFree s c next).2) : stepFree s c next = stepFree s c none := by
    obtain ⟨hphase, hlex⟩ := h
    cases hb : s.inBlock with
    | true =>
      by_cases hend : c = '*' ∧ next = some '/'
      · simp [stepFree, hb, hend] at hphase
      · simp [stepFree, hb, hend]
    | false =>
      cases hq : s.quote with
      | some q =>
        by_cases hescape : c = '\\' ∧ next.isSome = true
        · simp [stepFree, hb, hq, hescape] at hphase
        · simp only [not_and, Bool.not_eq_true] at hescape
          by_cases hc : c = '\\'
          · simp [stepFree, hb, hq, hc, hescape hc]
          · simp [stepFree, hb, hq, hc]
      | none =>
        by_cases hline : c = '/' ∧ next = some '/'
        · simp [stepFree, hb, hq, hline, isQuote] at hphase
        · by_cases hblock : c = '/' ∧ next = some '*'
          · simp [stepFree, hb, hq, hblock, isQuote] at hphase
          · simp [stepFree, hb, hq, hline, hblock]
  cases p with
  | free => exact hfree h
  | line =>
    simp only [step] at h ⊢
    split
    · next hc => simp only [hc, ↓reduceIte] at h; exact hfree h
    · rfl
  | escaped => rfl
  | sign => rfl

/-- Where the scanner stands behind `u` in a text that goes on with `v`. -/
def endBefore (v : Text) (p : Phase) (s : State) : Text → Phase × State
  | [] => (p, s)
  | c :: u => endBefore v (step p s c (u ++ v).head?).2.1 (step p s c (u ++ v).head?).2.2 u

/-- Where code goes on, a text is read up to there as it is read alone. -/
theorem cut_inCode {p : Phase} {s : State} {u v : Text} (h : InCode (endBefore v p s u)) :
    endFrom p s u = endBefore v p s u ∧
      marksFrom p s (u ++ v) = marksFrom p s u ++ marksFrom .free (endFrom p s u).2 v ∧
      endFrom p s (u ++ v) = endFrom .free (endFrom p s u).2 v := by
  induction u generalizing p s with
  | nil =>
    obtain rfl : p = .free := h.phase
    exact ⟨rfl, rfl, rfl⟩
  | cons c u ih =>
    have hstep : step p s c (u ++ v).head? = step p s c u.head? := by
      cases u with
      | nil => exact step_inCode h
      | cons e u => rfl
    rw [endBefore, hstep] at h
    obtain ⟨hend, hmarks, hrest⟩ := ih h
    rw [List.cons_append, endBefore, endFrom, endFrom, marksFrom_cons, marksFrom_cons, hstep]
    exact ⟨hend, congrArg _ hmarks, hrest⟩

/-- The mark of the character behind `u`. -/
theorem getElem?_marksFrom (p : Phase) (s : State) (u : Text) (d : Char) (v : Text) :
    (marksFrom p s (u ++ d :: v))[u.length]? =
      some (step (endBefore (d :: v) p s u).1 (endBefore (d :: v) p s u).2 d v.head?).1 := by
  induction u generalizing p s with
  | nil => rfl
  | cons c u ih =>
    rw [List.cons_append, marksFrom_cons, List.length_cons, List.getElem?_cons_succ, ih]
    rfl

/-- Code goes on where a character of code stands, line breaks aside. -/
theorem inCode_of_code {x : Phase × State} {d : Char} {next : Option Char} (hd : d ≠ '\n')
    (h : (step x.1 x.2 d next).1.isCode = true) : InCode x := by
  rcases step_cases x.1 x.2 d next with ⟨hq, hb, hstep⟩ | ⟨k, p', s', hk, -, hstep⟩
  · refine ⟨?_, by simp [State.lex, hq, hb]⟩
    cases hp : x.1 with
    | free => rfl
    | line =>
      rw [hp] at h
      simp [step, hd, Mark.isCode] at h
    | escaped =>
      rw [hp] at h
      simp [step, Mark.isCode] at h
    | sign =>
      rw [hp] at h
      simp [step, Mark.isCode] at h
  · rw [hstep] at h
    simp [Mark.isCode, hk] at h

/-- A text may be cut in front of a character of code. -/
theorem endBefore_code {p : Phase} {s : State} {t : Text} {i : Nat} {m : Mark}
    (hm : (marksFrom p s t)[i]? = some m) (hcode : m.isCode = true) (hn : m.char ≠ '\n') :
    InCode (endBefore (t.drop i) p s (t.take i)) := by
  have hi : i < t.length := by
    obtain ⟨hlt, -⟩ := List.getElem?_eq_some_iff.mp hm
    rwa [length_marksFrom] at hlt
  have hdrop : t.drop i = t[i] :: t.drop (i + 1) := List.drop_eq_getElem_cons hi
  have hlen : (t.take i).length = i := by
    rw [List.length_take]
    omega
  have hget := getElem?_marksFrom p s (t.take i) t[i] (t.drop (i + 1))
  rw [← hdrop, List.take_append_drop, hlen, hm, Option.some.injEq] at hget
  have hchar : m.char = t[i] := by rw [hget, step_char]
  exact inCode_of_code (hchar ▸ hn) (hget ▸ hcode)

/-- Where no comment has begun, the scanner stands outside comments. -/
theorem endBefore_quiet {p : Phase} {s : State} (hp : p = .free ∨ p = .escaped)
    (hb : s.inBlock = false) {u v : Text}
    (h : ∀ m ∈ (marksFrom p s (u ++ v)).take u.length, m.isComment = false) :
    ((endBefore v p s u).1 = .free ∨ (endBefore v p s u).1 = .escaped) ∧
      (endBefore v p s u).2.inBlock = false := by
  induction u generalizing p s with
  | nil => exact ⟨hp, hb⟩
  | cons c u ih =>
    rw [List.cons_append, marksFrom_cons, List.length_cons, List.take_succ_cons,
      List.forall_mem_cons] at h
    obtain ⟨hp', hb', -⟩ := step_quiet hp hb h.1
    exact ih hp' hb' h.2

/-- The text in front of the first comment is marked as it is in the whole text,
and holds no comment. -/
theorem marks_before_comment {t : Text} {s : State} {cut : Nat} (h : commentStart? t s = some cut) :
    marks (t.take cut) s = (marks t s).take cut ∧ ∀ m ∈ marks (t.take cut) s,
    m.isComment = false := by
  obtain ⟨hi, -, hbefore⟩ := List.findIdx?_eq_some_iff_getElem.mp h
  rw [length_marks] at hi
  have hlen : (t.take cut).length = cut := by
    rw [List.length_take]
    omega
  have hquiet : ∀ m ∈ (marks t s).take cut, m.isComment = false := by
    intro m hm
    obtain ⟨j, hj, rfl⟩ := List.mem_take_iff_getElem.mp hm
    simpa using hbefore j (by simp at hj; omega)
  -- no comment sign is cut in two, since both its characters are comment
  obtain ⟨ms, hms⟩ := marksFrom_append .free s (t.take cut) (t.drop cut) <| .inr <| by
    rw [List.take_append_drop, hlen]
    exact hquiet
  rw [List.take_append_drop, ← marks, ← marks] at hms
  have hmarks : marks (t.take cut) s = (marks t s).take cut := by
    rw [hms, List.take_left' (by rw [length_marks, hlen])]
  exact ⟨hmarks, hmarks ▸ hquiet⟩

/-- A text may be cut in front of its first comment. -/
theorem endBefore_comment {t : Text} {cut : Nat} (h : commentStart? t = some cut) :
    InCode (endBefore (t.drop cut) .free {} (t.take cut)) := by
  obtain ⟨hi, hcomment, -⟩ := List.findIdx?_eq_some_iff_getElem.mp h
  rw [length_marks] at hi
  have hlen : (t.take cut).length = cut := by
    rw [List.length_take]
    omega
  obtain ⟨hmarks, hbefore⟩ := marks_before_comment h
  have hquiet : ∀ m ∈ (marksFrom .free {} (t.take cut ++ t.drop cut)).take (t.take cut).length,
      m.isComment = false := by
    rw [List.take_append_drop, hlen, ← marks, ← hmarks]
    exact hbefore
  obtain ⟨hphase, hblock⟩ := endBefore_quiet (.inl rfl) rfl hquiet
  have hget := getElem?_marksFrom .free {} (t.take cut) t[cut] (t.drop (cut + 1))
  rw [← List.drop_eq_getElem_cons hi, List.take_append_drop, hlen, ← marks,
    List.getElem?_eq_getElem (by simpa using hi), Option.some.injEq] at hget
  rw [hget] at hcomment
  generalize endBefore (t.drop cut) .free {} (t.take cut) = x at hphase hblock hcomment
  -- a comment that begins here begins in code
  have hfree : x.1 = .free := by
    rcases hphase with hp | hp
    · exact hp
    · rw [hp] at hcomment
      simp [step, Mark.isComment] at hcomment
  refine ⟨hfree, ?_⟩
  cases hq : x.2.quote with
  | none => simp [State.lex, hq, hblock]
  | some q =>
    rw [hfree] at hcomment
    simp [step, stepFree, hblock, hq, Mark.isComment] at hcomment

/-- A place that can be reached: a string and a comment are not open at once, and an
escape stands in a string. -/
structure Sane (x : Phase × State) : Prop where
  escaped : x.1 = .escaped → x.2.quote.isSome = true
  quote : x.2.quote.isSome = true → x.2.inBlock = false ∧ (x.1 = .free ∨ x.1 = .escaped)
  quoted : x.2.Quoted

/-- Outside strings nothing is escaped. -/
theorem Sane.not_escaped {x : Phase × State} (h : Sane x) (hq : x.2.quote = none) :
    x.1 ≠ .escaped := by
  intro hp
  have hopen := h.escaped hp
  rw [hq] at hopen
  cases hopen

theorem Sane.step {p : Phase} {s : State} (h : Sane (p, s)) (c : Char) (next : Option Char) :
    Sane (step p s c next).2 := by
  have hquote : s.quote.isSome = true → s.inBlock = false := fun hq => (h.quote hq).1
  have hfree : Sane (stepFree s c next).2 := by
    have hplace : ((stepFree s c next).2.1 = .escaped → (stepFree s c next).2.2.quote.isSome =
      true) ∧
        ((stepFree s c next).2.2.quote.isSome = true → (stepFree s c next).2.2.inBlock = false ∧
          ((stepFree s c next).2.1 = .free ∨ (stepFree s c next).2.1 = .escaped)) := by
      unfold stepFree
      cases hb : s.inBlock with
      | true =>
        have hq : s.quote = none := by
          cases hq : s.quote with
          | none => rfl
          | some q =>
            rw [hquote (by rw [hq]; rfl)] at hb
            cases hb
        simp only [↓reduceIte]
        split <;> simp [hq]
      | false =>
        cases hq : s.quote with
        | none =>
          simp only [Bool.false_eq_true, ↓reduceIte]
          split
          · simp
          · split
            · simp [hq]
            · split <;> simp [hq]
        | some q =>
          simp only [Bool.false_eq_true, ↓reduceIte]
          split
          · simp [hb, hq]
          · split <;> simp [hb]
    exact ⟨hplace.1, hplace.2, h.quoted.step .free c next⟩
  cases p with
  | free => exact hfree
  | line =>
    have hq : s.quote.isSome = false := by
      rw [Bool.eq_false_iff]
      intro hq
      rcases (h.quote hq).2 with hp | hp <;> cases hp
    simp only [Scan.step]
    split
    · exact hfree
    · exact ⟨by simp, by simp [hq], h.quoted⟩
  | escaped => exact ⟨by simp [Scan.step], fun hq => ⟨hquote hq, .inl rfl⟩, h.quoted⟩
  | sign =>
    have hq : s.quote.isSome = false := by
      rw [Bool.eq_false_iff]
      intro hq
      rcases (h.quote hq).2 with hp | hp <;> cases hp
    exact ⟨by simp [Scan.step], by simp [Scan.step, hq], h.quoted⟩

theorem Sane.endBefore {p : Phase} {s : State} (h : Sane (p, s)) (u v : Text) :
    Sane (endBefore v p s u) := by
  induction u generalizing p s with
  | nil => exact h
  | cons c u ih => exact ih (h.step c _)

theorem sane_start : Sane (.free, {}) := ⟨by simp, by simp, .of_none rfl⟩

/-- A string is left behind its quote. -/
theorem isQuote_of_left {p : Phase} {s : State} {c : Char} {next : Option Char} (h : Sane (p, s))
    (hc : (step p s c next).1.kind = .string) (hq : (step p s c next).2.2.quote = none) :
    isQuote c = true := by
  have hfree (hc : (stepFree s c next).1.kind = .string)
    (hq : (stepFree s c next).2.2.quote = none) :
      isQuote c = true := by
    cases hs : s.quote with
    | none =>
      cases hquote : isQuote c with
      | true => rfl
      | false =>
        cases hb : s.inBlock with
        | true =>
          simp only [stepFree, hb, ↓reduceIte] at hc
          split at hc <;> cases hc
        | false =>
          simp only [stepFree, hb, hs, hquote, Bool.false_eq_true, ↓reduceIte] at hc
          split at hc
          · cases hc
          · split at hc <;> cases hc
    | some q =>
      have hb : s.inBlock = false := (h.quote (by simp [hs])).1
      simp only [stepFree, hb, hs, Bool.false_eq_true, ↓reduceIte] at hq
      split at hq
      · simp [hs] at hq
      · split at hq
        · next hcq => exact beq_iff_eq.mp hcq ▸ h.quoted q hs
        · simp [hs] at hq
  cases p with
  | free => exact hfree hc hq
  | line =>
    simp only [step] at hc hq
    split at hc
    · next hn =>
      simp only [hn, ↓reduceIte] at hq
      exact hfree hc hq
    · cases hc
  | escaped =>
    have hopen := h.escaped rfl
    simp only [step] at hq
    simp [hq] at hopen
  | sign => cases hc

/-! ## Texts that end in code -/

def Mark.tag (m : Mark) : Char × Kind := (m.char, m.kind)

def tags (t : Text) : List (Char × Kind) := (marks t).map Mark.tag

theorem commentStart?_eq_none {t : Text} :
    commentStart? t = none ↔ ∀ x ∈ tags t, x.2 ≠ .comment := by
  rw [commentStart?, List.findIdx?_eq_none_iff, tags, List.forall_mem_map]
  simp [Mark.tag, Mark.isComment]

/-- Where a text ends, as far as it decides what the next character belongs to. -/
def ending (t : Text) : Phase × Option Char × Bool :=
  ((endFrom .free {} t).1, (endFrom .free {} t).2.lex)

def Closes (t : Text) : Prop := InCode (endFrom .free {} t)

/-- Behind `u` code goes on, and the rest `v` is read as it is read alone. -/
structure Parted (u v : Text) : Prop where
  closes : Closes u
  tags : tags (u ++ v) = tags u ++ tags v
  ending : ending (u ++ v) = ending v

theorem closes_iff {t : Text} : Closes t ↔ ending t = (.free, none, false) :=
  ⟨fun h => Prod.ext h.phase h.lex, fun h => ⟨congrArg Prod.fst h, congrArg Prod.snd h⟩⟩

theorem Parted.closes_append {u v : Text} (h : Parted u v) : Closes (u ++ v) ↔ Closes v := by
  rw [closes_iff, closes_iff, h.ending]

theorem tags_lex {s s' : State} (h : s.lex = s'.lex) (p : Phase) (t : Text) :
    (marksFrom p s t).map Mark.tag = (marksFrom p s' t).map Mark.tag := by
  have hkinds := (endFrom_lex h p t).2.2
  have hzip (s : State) : (marksFrom p s t).map Mark.tag =
      t.zip ((marksFrom p s t).map Mark.kind) := by
    have h := List.zip_map' (f := Mark.char) (g := Mark.kind) (l := marksFrom p s t)
    rw [map_char_marksFrom] at h
    exact h.symm
  rw [hzip, hzip, hkinds]

private theorem parted_of_read {u v : Text} (hu : Closes u)
    (hmarks : marks (u ++ v) = marks u ++ marksFrom .free (endFrom .free {} u).2 v)
    (hend : endFrom .free {} (u ++ v) = endFrom .free (endFrom .free {} u).2 v) : Parted u v := by
  have hstart : (endFrom .free {} u).2.lex = ({} : State).lex := hu.lex
  refine ⟨hu, ?_, ?_⟩
  · rw [tags, hmarks, List.map_append, tags_lex hstart]
    rfl
  · obtain ⟨hphase, hlex, -⟩ := endFrom_lex hstart .free v
    rw [ending, hend, hphase, hlex]
    rfl

theorem parted_of_inCode {u v : Text} (h : InCode (endBefore v .free {} u)) : Parted u v := by
  obtain ⟨hend, hmarks, hrest⟩ := cut_inCode h
  exact parted_of_read (by rw [Closes, hend]; exact h) hmarks hrest

/-- Two texts whose meeting characters form no sign. -/
def Meets (u v : Text) : Prop :=
  (∀ c ∈ u.getLast?, joins c = false) ∨ ∀ d ∈ v.head?, d ≠ '/' ∧ d ≠ '*'

theorem Closes.parted {u v : Text} (hu : Closes u) (h : Meets u v) : Parted u v := by
  have hcut : Cuts .free {} u v := h.imp_right fun hv => ⟨hv, .of_none rfl, hu.quote⟩
  apply parted_of_read hu
  · rw [marks, marksFrom_cut hcut, hu.phase]
    rfl
  · rw [endFrom_append hcut, hu.phase]

/-- A text may be cut in front of a character of code. -/
theorem parted_code {t : Text} {i : Nat} {m : Mark} (hm : (marks t)[i]? = some m)
    (hcode : m.isCode = true) (hn : m.char ≠ '\n') : Parted (t.take i) (t.drop i) :=
  parted_of_inCode (endBefore_code hm hcode hn)

/-- A text may be cut in front of its first comment. -/
theorem parted_comment {t : Text} {cut : Nat} (h : commentStart? t = some cut) :
    Parted (t.take cut) (t.drop cut) := parted_of_inCode (endBefore_comment h)

/-! ## Blanks and comments -/

theorem endFrom_concat (p : Phase) (s : State) (u : Text) (c : Char) :
    endFrom p s (u ++ [c]) = (step (endBefore [c] p s u).1 (endBefore [c] p s u).2 c none).2 := by
  induction u generalizing p s with
  | nil => rfl
  | cons d u ih => rw [List.cons_append, endFrom, ih, endBefore]

theorem endBefore_nil (p : Phase) (s : State) (t : Text) : endBefore [] p s t = endFrom p s t := by
  induction t generalizing p s with
  | nil => rfl
  | cons c t ih => rw [endBefore, List.append_nil, ih, endFrom]

/-- A text without comments does not end in one. -/
theorem outside_of_no_comment {t : Text} (h : commentStart? t = none) :
    (endFrom .free {} t).1 = .free ∧ (endFrom .free {} t).2.inBlock = false := by
  have hnone := List.findIdx?_eq_none_iff.mp h
  have hquiet := endBefore_quiet (p := .free) (s := {}) (u := t) (v := []) (.inl rfl) rfl
    fun m hm => by
    rw [List.append_nil] at hm
    exact hnone m (List.mem_of_mem_take hm)
  rw [endBefore_nil] at hquiet
  refine ⟨?_, hquiet.2⟩
  rcases hquiet.1 with hp | hp
  · exact hp
  · have hend := endFrom_quiet (p := .free) {} (t := t) (.inl rfl)
    rw [hp] at hend
    cases hend

/-- A text without comments ends in code unless a string is open. -/
theorem closes_of_quote {t : Text} (h : commentStart? t = none) (hq : (feed {} t).quote = none) :
    Closes t := by
  obtain ⟨hphase, hblock⟩ := outside_of_no_comment h
  rw [feed_eq] at hq
  exact ⟨hphase, by rw [State.lex, hq, hblock]⟩

/-- A text that settles all it opens and holds no comment ends in code. -/
theorem closes_of_settled {t : Text} (hs : (feed {} t).settled = true)
    (h : commentStart? t = none) :
    Closes t := closes_of_quote h (settled_iff.mp hs).2.1

theorem tags_blank {b : Text} (hb : isBlankLine b = true) : tags b = b.map fun c => (c, .code) := by
  have hmarks := marks_blank_append hb (s := {}) rfl rfl []
  rw [List.append_nil] at hmarks
  rw [tags, hmarks]
  simp [marks, marksFrom, Mark.tag]

theorem Meets.blank_right (u : Text) {b : Text} (hb : isBlankLine b = true) : Meets u b := by
  refine .inr fun d hd => ?_
  have hblank := blank_of_head hb hd
  constructor <;> (rintro rfl; revert hblank; decide)

theorem commentStart?_trimRight {t : Text} (h : commentStart? t = none) :
    commentStart? (trimRight t) = none := by
  obtain ⟨b, hb, hblank⟩ := trimRight_append t
  have hhead : b.head? ≠ some '/' ∧ b.head? ≠ some '*' :=
    ⟨fun hd => absurd (blank_of_head hblank hd) (by decide),
      fun hd => absurd (blank_of_head hblank hd) (by decide)⟩
  obtain ⟨ms, hms⟩ := marksFrom_append .free {} (trimRight t) b (.inl hhead)
  rw [← hb] at hms
  rw [commentStart?, List.findIdx?_eq_none_iff] at h ⊢
  intro m hm
  apply h
  rw [marks, hms]
  exact List.mem_append_left _ hm

/-- Without the blanks at its end a text without comments still ends in code. -/
theorem Closes.trimRight {t : Text} (ht : Closes t) (h : commentStart? t = none) :
    Closes (trimRight t) := by
  obtain ⟨b, hb, hblank⟩ := trimRight_append t
  have hstate := stateFrom_append_blank .free (.of_none rfl) (s := {}) (Text.trimRight t) hblank
  rw [← hb, stateFrom_eq, stateFrom_eq] at hstate
  exact ⟨(outside_of_no_comment (commentStart?_trimRight h)).1, hstate ▸ ht.lex⟩

/-- In front of the first comment stands none. -/
theorem commentStart?_take {t : Text} {cut : Nat} (h : commentStart? t = some cut) :
    commentStart? (t.take cut) = none := List.findIdx?_eq_none_iff.mpr (marks_before_comment h).2

end SourceLayout.Scan
