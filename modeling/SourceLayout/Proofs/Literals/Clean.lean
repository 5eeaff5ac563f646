import SourceLayout.Proofs.Literals.Basic
import SourceLayout.Proofs.Stable.Separators

/-! Texts without comments that end in code. They may be cut between tokens, trimmed, collapsed and
joined by signs that open nothing, and their strings stay. -/

namespace SourceLayout.Scan
open Text

structure Clean (t : Text) : Prop where
  closes : Closes t
  comments : comments t = []

theorem comments_eq_nil {t : Text} : comments t = [] ↔ commentStart? t = none := by
  rw [comments, List.map_eq_nil_iff, List.filter_eq_nil_iff, commentStart?,
    List.findIdx?_eq_none_iff]
  simp

theorem Clean.commentStart? {t : Text} (h : Clean t) : commentStart? t = none :=
  comments_eq_nil.mp h.comments

theorem Parted.clean {u v : Text} (h : Parted u v) : Clean (u ++ v) ↔ Clean u ∧ Clean v := by
  constructor
  · rintro ⟨hcloses, hcomments⟩
    rw [h.comments, List.append_eq_nil_iff] at hcomments
    exact ⟨⟨h.closes, hcomments.1⟩, h.closes_append.mp hcloses, hcomments.2⟩
  · rintro ⟨hu, hv⟩
    exact ⟨h.closes_append.mpr hv.closes, by rw [h.comments, hu.comments, hv.comments]; rfl⟩

theorem clean_nil : Clean [] := ⟨inCode_start, rfl⟩

/-! ## Signs that open nothing -/

/-- Characters that no string and no comment begins with and that no sign is made of. -/
def isInert (c : Char) : Bool := !isQuote c && !joins c

theorem isInert_of_blank {c : Char} (hc : isBlank c = true) : isInert c = true := by
  rw [isInert, not_quote_of_blank hc, not_joins_of_blank hc]
  rfl

theorem isInert_of_nameChar {c : Char} (hc : isNameChar c = true) : isInert c = true := by
  have hsign := not_sign_of_nameChar hc
  have hjoins : joins c = false := by
    simp only [joins, Bool.or_eq_false_iff, beq_eq_false_iff_ne]
    refine ⟨⟨?_, ?_⟩, ?_⟩ <;> (rintro rfl; revert hc; decide)
  have hquote : isQuote c = false := by simp_all [isQuote, signs]
  rw [isInert, hquote, hjoins]
  rfl

theorem isInert_of_soft {c : Char} (hc : isSoft c = true) : isInert c = true := by
  simp only [isSoft, Bool.or_eq_true, beq_iff_eq, Bool.and_eq_true] at hc
  rcases hc with (rfl | rfl) | ⟨hblank, -⟩
  · decide
  · decide
  · exact isInert_of_blank hblank

theorem inert_blank {b : Text} (hb : isBlankLine b = true) : b.all isInert = true :=
  List.all_eq_true.mpr fun c hc => isInert_of_blank (List.all_eq_true.mp hb c hc)

theorem inert_soft {a : Text} (ha : a.all isSoft = true) : a.all isInert = true :=
  List.all_eq_true.mpr fun c hc => isInert_of_soft (List.all_eq_true.mp ha c hc)

theorem step_inert {s : State} (hs : InCode (.free, s)) {c : Char} (hc : isInert c = true)
    (next : Option Char) :
    (step .free s c next).1.kind = .code ∧ InCode (step .free s c next).2 := by
  have hq : s.quote = none := hs.quote
  have hb : s.inBlock = false := hs.inBlock
  simp only [isInert, joins, Bool.and_eq_true, Bool.not_eq_true', Bool.or_eq_false_iff,
    beq_eq_false_iff_ne] at hc
  obtain ⟨hquote, ⟨-, hslash⟩, -⟩ := hc
  have hstep : step .free s c next =
      (⟨c, min s.depth (s.readCode c).depth, .code⟩, .free, s.readCode c) := by
    simp [step, stepFree, hq, hb, hquote, hslash]
  rw [hstep]
  exact ⟨rfl, rfl, by simp [State.lex, hq, hb]⟩

/-- Signs that open nothing are code, and so is what follows. -/
theorem inert_read {s : State} (hs : InCode (.free, s)) {a : Text} (ha : a.all isInert = true) :
    (∀ m ∈ marksFrom .free s a, m.kind = .code) ∧ InCode (endFrom .free s a) := by
  induction a generalizing s with
  | nil => exact ⟨by simp [marksFrom], hs⟩
  | cons c a ih =>
    rw [List.all_cons, Bool.and_eq_true] at ha
    obtain ⟨hkind, hnext⟩ := step_inert hs ha.1 a.head?
    have hphase : (step .free s c a.head?).2.1 = .free := hnext.phase
    obtain ⟨hrest, hend⟩ := ih (s := (step .free s c a.head?).2.2) ⟨rfl, hnext.lex⟩ ha.2
    rw [marksFrom_cons, endFrom, hphase]
    exact ⟨List.forall_mem_cons.mpr ⟨hkind, hrest⟩, hend⟩

theorem clean_inert {a : Text} (ha : a.all isInert = true) : Clean a := by
  obtain ⟨hmarks, hend⟩ := inert_read inCode_start ha
  refine ⟨hend, ?_⟩
  rw [comments, List.filter_eq_nil_iff.mpr fun m hm => by simp [Mark.isComment, hmarks m hm],
    List.map_nil]

theorem literals_inert {a : Text} (ha : a.all isInert = true) : literals a = [] :=
  stringChars_eq_nil fun m hm => by simp [(inert_read inCode_start ha).1 m hm]

theorem not_joins_of_inert {c : Char} (hc : isInert c = true) : joins c = false := by
  simp only [isInert, Bool.and_eq_true, Bool.not_eq_true'] at hc
  exact hc.2

theorem not_quote_of_inert {c : Char} (hc : isInert c = true) : isQuote c = false := by
  simp only [isInert, Bool.and_eq_true, Bool.not_eq_true'] at hc
  exact hc.1

theorem Meets.inert_right (u : Text) {a : Text} (ha : a.all isInert = true) (v : Text)
    (hne : a ≠ []) : Meets u (a ++ v) := by
  refine .inr fun d hd => ?_
  obtain ⟨c, a, rfl⟩ := List.exists_cons_of_ne_nil hne
  cases hd
  have hjoins := not_joins_of_inert (List.all_eq_true.mp ha d List.mem_cons_self)
  constructor <;> (rintro rfl; cases hjoins)

theorem Meets.sign (u : Text) {c : Char} (hc : isInert c = true) (v : Text) : Meets u (c :: v) :=
  Meets.inert_right u (a := [c]) (by simp [hc]) v (by simp)

theorem Meets.inert_left {a : Text} (ha : a.all isInert = true) (v : Text) : Meets a v :=
  .inl fun c hc => not_joins_of_inert (List.all_eq_true.mp ha c (List.mem_of_mem_getLast? hc))

/-- In front of a text. -/
theorem parted_inert {a : Text} (ha : a.all isInert = true) (v : Text) : Parted a v :=
  (clean_inert ha).closes.parted (.inert_left ha v)

theorem literals_lead {a : Text} (ha : a.all isInert = true) (v : Text) :
    literals (a ++ v) = literals v := by
  rw [(parted_inert ha v).literals, literals_inert ha, List.nil_append]

theorem lineLiterals?_lead {a : Text} (ha : a.all isInert = true) (v : Text) :
    lineLiterals? false (a ++ v) = lineLiterals? false v := by
  rw [(parted_inert ha v).lineLiterals?, literals_inert ha]
  cases lineLiterals? false v <;> rfl

theorem Clean.inert_append {a v : Text} (hv : Clean v) (ha : a.all isInert = true) :
    Clean (a ++ v) ∧ literals (a ++ v) = literals v :=
  ⟨(parted_inert ha v).clean.mpr ⟨clean_inert ha, hv⟩, literals_lead ha v⟩

theorem Clean.append_inert {u a : Text} (hu : Clean u) (ha : a.all isInert = true) :
    Clean (u ++ a) ∧ literals (u ++ a) = literals u := by
  by_cases hne : a = []
  · rw [hne, List.append_nil]
    exact ⟨hu, rfl⟩
  · have hmeets := Meets.inert_right u ha [] hne
    rw [List.append_nil] at hmeets
    have hparted := hu.closes.parted hmeets
    rw [hparted.literals, literals_inert ha, List.append_nil]
    exact ⟨hparted.clean.mpr ⟨hu, clean_inert ha⟩, rfl⟩

/-- Behind a text. -/
theorem Closes.lineLiterals?_append {u a : Text} (hu : Closes u) (ha : a.all isInert = true) :
    Scan.lineLiterals? false (u ++ a) = some (Scan.literals u, false) := by
  by_cases hne : a = []
  · rw [hne, List.append_nil, hu.lineLiterals?]
  · have hmeets := Meets.inert_right u ha [] hne
    rw [List.append_nil] at hmeets
    rw [(hu.parted hmeets).lineLiterals?, (clean_inert ha).closes.lineLiterals?, Option.map_some,
      literals_inert ha, List.append_nil]

/-- Between two texts. -/
theorem Clean.join {u a v : Text} (hu : Clean u) (ha : a.all isInert = true) (hne : a ≠ [])
    (hv : Clean v) :
    Clean (u ++ (a ++ v)) ∧ literals (u ++ (a ++ v)) = literals u ++ literals v := by
  have hparted := hu.closes.parted (.inert_right u ha v hne)
  obtain ⟨hclean, hliterals⟩ := hv.inert_append ha
  exact ⟨hparted.clean.mpr ⟨hu, hclean⟩, by rw [hparted.literals, hliterals]⟩

/-- The place between two texts may be moved behind signs. -/
theorem Parted.extend {u a v : Text} (h : Parted u (a ++ v)) (ha : a.all isInert = true) :
    Parted (u ++ a) v ∧ Scan.comments (u ++ a) = Scan.comments u ∧
    Scan.literals (u ++ a) = Scan.literals u := by
  by_cases hne : a = []
  · subst hne
    rw [List.append_nil]
    exact ⟨h, rfl, rfl⟩
  · have hmeets := Meets.inert_right u ha [] hne
    rw [List.append_nil] at hmeets
    have hsigns := h.closes.parted hmeets
    have hrest := parted_inert ha v
    refine ⟨⟨hsigns.closes_append.mpr hrest.closes, ?_, ?_⟩, ?_, ?_⟩
    · rw [List.append_assoc, h.tags, hrest.tags, hsigns.tags, List.append_assoc]
    · rw [List.append_assoc, h.ending, hrest.ending]
    · rw [hsigns.comments, (clean_inert ha).comments, List.append_nil]
    · rw [hsigns.literals, literals_inert ha, List.append_nil]

theorem Parted.lead {a u v : Text} (ha : a.all isInert = true) (h : Parted u v) :
    Parted (a ++ u) v ∧ Scan.comments (a ++ u) = Scan.comments u ∧
    Scan.literals (a ++ u) = Scan.literals u := by
  have hfirst := parted_inert ha u
  have hwhole := parted_inert ha (u ++ v)
  refine ⟨⟨hfirst.closes_append.mpr h.closes, ?_, ?_⟩, ?_, ?_⟩
  · rw [List.append_assoc, hwhole.tags, h.tags, hfirst.tags, List.append_assoc]
  · rw [List.append_assoc, hwhole.ending, h.ending]
  · rw [hfirst.comments, (clean_inert ha).comments, List.nil_append]
  · rw [hfirst.literals, literals_inert ha, List.nil_append]

theorem Parted.of_lead {a u v : Text} (ha : a.all isInert = true) (h : Parted (a ++ u) v) :
    Parted u v := by
  have hfirst := parted_inert ha u
  have hwhole := parted_inert ha (u ++ v)
  have htags := h.tags
  have hending := h.ending
  rw [List.append_assoc] at htags hending
  rw [hwhole.tags, hfirst.tags, List.append_assoc] at htags
  exact ⟨hfirst.closes_append.mp h.closes, List.append_cancel_left htags,
    hwhole.ending.symm.trans hending⟩

/-! ## Blanks -/

theorem Clean.trimRight {t : Text} (h : Clean t) :
    Clean (trimRight t) ∧ literals (Text.trimRight t) = literals t :=
  ⟨⟨h.closes.trimRight h.commentStart?,
    comments_eq_nil.mpr (commentStart?_trimRight h.commentStart?)⟩,
    h.closes.literals_trimRight h.commentStart?⟩

theorem Clean.trim {t : Text} (h : Clean t) :
    Clean (trim t) ∧ literals (Text.trim t) = literals t := by
  have hparted := parted_inert (inert_blank (isBlankLine_indentOf t)) (trimLeft t)
  have hleft : Clean (trimLeft t) := by
    have hclean := hparted.clean
    rw [indentOf_append_trimLeft] at hclean
    exact (hclean.mp h).2
  have hliterals := (hleft.inert_append (inert_blank (isBlankLine_indentOf t))).2
  rw [indentOf_append_trimLeft] at hliterals
  rw [Text.trim, hleft.trimRight.2, hliterals]
  exact ⟨hleft.trimRight.1, rfl⟩

/-- Before blanks on one line a text ends in code if it does behind them. -/
theorem Closes.of_blank {u b : Text} (h : Closes (u ++ b)) (hb : isBlankLine b = true)
    (hn : '\n' ∉ b) : Closes u ∧ Scan.literals (u ++ b) = Scan.literals u := by
  have hstate := stateFrom_append_blank .free (.of_none rfl) (s := {}) u hb
  rw [stateFrom_eq, stateFrom_eq] at hstate
  have hlex := h.lex
  rw [hstate] at hlex
  have hquote : (endFrom .free {} u).2.quote = none := congrArg Prod.fst hlex
  have hcut : Cuts .free {} u b := .blank_right (.of_none rfl) hquote hb
  have hsoft : b.all isSoft = true := by
    rw [List.all_eq_true]
    intro c hc
    have hne : c ≠ '\n' := by
      rintro rfl
      exact hn hc
    simp [isSoft, List.all_eq_true.mp hb c hc, hne]
  have hphase := h.phase
  rw [endFrom_append hcut,
    (endFrom_soft (endFrom_quiet {} (.inl rfl)) (.of_none hquote) hsoft).2.2.2.1] at hphase
  refine ⟨⟨hphase, hlex⟩, ?_⟩
  rw [Scan.literals, marks, marksFrom_cut hcut, stringChars_append,
    (no_strings (not_escaped_at_end {} u) hquote (not_quotes_of_blank hb)).1, List.append_nil]
  rfl

theorem Closes.trim {t : Text} (h : Closes t) (hn : '\n' ∉ t) :
    Closes (trim t) ∧ Scan.literals (Text.trim t) = Scan.literals t := by
  obtain ⟨b, hb, hblank⟩ := trim_spec t
  have hindent := inert_blank (isBlankLine_indentOf t)
  have hleft : Closes (indentOf t ++ Text.trim t ++ b) := by
    rw [← hb]
    exact h
  obtain ⟨hcloses, hsame⟩ :=
    hleft.of_blank hblank fun hmem => hn (by rw [hb]; exact List.mem_append_right _ hmem)
  rw [← hb, literals_lead hindent] at hsame
  exact ⟨(parted_inert hindent _).closes_append.mp hcloses, hsame.symm⟩

/-! ## Cutting at a sign -/

/-- A text is cut at a sign of code. -/
theorem Clean.cut {u v : Text} {c : Char} (h : Clean (u ++ c :: v)) {m : Mark}
    (hm : (marks (u ++ c :: v))[u.length]? = some m) (hcode : m.isCode = true)
    (hc : isInert c = true) (hn : c ≠ '\n') :
    Clean u ∧ Clean v ∧ literals (u ++ c :: v) = literals u ++ literals v := by
  have hchar : m.char = c := by
    have hget := getElem?_of_marks hm
    rw [List.getElem?_append_right (Nat.le_refl _), Nat.sub_self, List.getElem?_cons_zero] at hget
    exact (Option.some.inj hget).symm
  have hsign : [c].all isInert = true := by simp [hc]
  have hparted := parted_code hm hcode (by rw [hchar]; exact hn)
  rw [List.take_left, List.drop_left] at hparted
  obtain ⟨hu, hcv⟩ := hparted.clean.mp h
  have hv := ((parted_inert hsign v).clean.mp hcv).2
  refine ⟨hu, hv, ?_⟩
  rw [hparted.literals, ← List.singleton_append, (hv.inert_append hsign).2]

/-- A sign at the end of a text that ends in code is code. -/
theorem Clean.concat {u : Text} {c : Char} (h : Clean (u ++ [c])) (hc : isInert c = true)
    (hn : c ≠ '\n') : Clean u ∧ literals (u ++ [c]) = literals u := by
  have hmark := getElem?_marksFrom .free {} u c []
  have hsane := sane_start.endBefore u [c]
  have hend : InCode (step (endBefore [c] .free {} u).1 (endBefore [c] .free {} u).2 c none).2 := by
    have hcloses := h.closes
    rw [Closes, endFrom_concat] at hcloses
    exact hcloses
  have hno : (step (endBefore [c] .free {} u).1 (endBefore [c] .free {} u).2 c none).1.isComment =
      false :=
    List.findIdx?_eq_none_iff.mp h.commentStart? _ (List.mem_of_getElem? hmark)
  have hcode : (step (endBefore [c] .free {} u).1 (endBefore [c] .free {} u).2 c none).1.isCode =
      true := by
    generalize endBefore [c] .free {} u = x at hsane hend hno
    obtain ⟨p, s⟩ := x
    cases hq : s.quote with
    | none =>
      have hp : p ≠ .escaped := hsane.not_escaped hq
      have hquote : isQuote c = false := by
        simp only [isInert, Bool.and_eq_true, Bool.not_eq_true'] at hc
        exact hc.1
      have hkind := (step_no_quote hp hq hquote none).1
      cases hk : (step p s c none).1.kind <;> simp_all [Mark.isComment, Mark.isCode]
    | some q =>
      -- a string that is open before the sign is open behind it
      have hstays : (step p s c none).2.2.quote = some q := by
        have hne : c ≠ q := by
          rintro rfl
          have hquote := hsane.quoted c hq
          simp [isInert, hquote] at hc
        obtain ⟨hb, hp⟩ := hsane.quote (by rw [hq]; rfl)
        rcases hp with hp | hp
        · obtain rfl : p = .free := hp
          have hblock : s.inBlock = false := hb
          simp [step, stepFree, hblock, hq, hne]
        · obtain rfl : p = .escaped := hp
          exact hq
      have hnone := hend.quote
      rw [hstays] at hnone
      cases hnone
  obtain ⟨hu, -, hliterals⟩ := h.cut hmark hcode hc hn
  exact ⟨hu, by rw [hliterals]; exact List.append_nil _⟩

/-! ## Collapsing blanks -/

/-- The collapsed text leaves the state that the text itself leaves. -/
theorem endFrom_collapseFrom {p : Phase} {s : State} (hp : p = .free ∨ p = .escaped)
    (hb : s.inBlock = false) (t : Text) (ht : ∀ m ∈ marksFrom p s t, m.isComment = false)
    (last : Option Char) : endFrom p s (collapseFrom last (marksFrom p s t)) = endFrom p s t := by
  induction t generalizing p s last with
  | nil => rfl
  | cons c r ih =>
    rw [marksFrom_cons] at ht ⊢
    obtain ⟨hm, hr⟩ := List.forall_mem_cons.mp ht
    obtain ⟨hp', hb', -⟩ := step_quiet hp hb hm
    rw [collapseFrom_cons, endFrom]
    cases hfirm : (step p s c r.head?).1.isFirm with
    | false =>
      -- a blank of code: the state does not change, whether a space is written for it or not
      obtain ⟨rfl, hq, hc⟩ := code_of_not_firm hp hm hfirm
      rw [step_blank hq hb hc] at hr hp' hb' ⊢
      simp only [Bool.false_eq_true, ↓reduceIte]
      split
      · exact ih hp' hb' hr last
      · rw [endFrom, step_blank hq hb (c := ' ') (by decide)]
        exact ih hp' hb' hr (some ' ')
    | true =>
      simp only [↓reduceIte, step_char]
      have he : step p s c (collapseFrom (some c) (marksFrom (step p s c r.head?).2.1
          (step p s c r.head?).2.2 r)).head? = step p s c r.head? := by
        cases r with
        | nil => rfl
        | cons d r =>
          simpa using step_collapsed hp hb hm (step p s c (some d)).2.1 (step p s c (some d)).2.2 r
            []
      rw [endFrom, he]
      exact ih hp' hb' hr (some c)

/-- The strings are firm. -/
theorem stringChars_firm (ms : List Mark) :
    stringChars (ms.filter Mark.isFirm) = stringChars ms := by
  have hfirm : ∀ m : Mark, (m.kind == .string && m.isFirm) = (m.kind == .string) := by
    intro m
    rw [Mark.isFirm]
    cases m.kind == .string <;> rfl
  rw [stringChars, List.filter_filter, stringChars]
  simp only [hfirm]

/-- The blanks around a text without comments are blanks of code. -/
theorem Clean.marks_trim {t : Text} (h : Clean t) :
    ∃ a b, marks t = a ++ marks (Text.trim t) ++ b ∧ (∀ m ∈ a, m.isFirm = false) ∧
    ∀ m ∈ b, m.isFirm = false := by
  obtain ⟨ms, hms, hblank⟩ := Scan.marks_trim t
  refine ⟨_, ms, hms, fun m hm => ?_, fun m hm => ?_⟩
  · obtain ⟨c, hc, rfl⟩ := List.mem_map.mp hm
    simp [Mark.isFirm, List.all_eq_true.mp (isBlankLine_indentOf t) c hc]
  · have hchars : stringChars ms = [] := by
      have hliterals := h.trim.2
      rw [literals, literals, hms, stringChars_append, stringChars_append] at hliterals
      have hlen := congrArg List.length hliterals
      simp only [List.length_append] at hlen
      exact List.eq_nil_of_length_eq_zero (by omega)
    rw [stringChars, List.map_eq_nil_iff, List.filter_eq_nil_iff] at hchars
    have hkind : m.kind ≠ .string := by simpa using hchars m hm
    simp [Mark.isFirm, hkind, hblank m hm]

theorem Clean.firm_trim {t : Text} (h : Clean t) :
    (marks (Text.trim t)).filter Mark.isFirm = (marks t).filter Mark.isFirm := by
  obtain ⟨a, b, hmarks, ha, hb⟩ := h.marks_trim
  have hnone {M : List Mark} (hM : ∀ m ∈ M, m.isFirm = false) : M.filter Mark.isFirm = [] :=
    List.filter_eq_nil_iff.mpr fun m hm => by simp [hM m hm]
  rw [hmarks, List.filter_append, List.filter_append, hnone ha, hnone hb, List.nil_append,
    List.append_nil]

theorem Clean.marks_collapseFrom {t : Text} (h : Clean t) :
    Clean (collapseFrom none (marks t)) ∧ marks (collapseFrom none (marks t)) =
      squeezeFrom none (marks t) := by
  have hno := List.findIdx?_eq_none_iff.mp h.commentStart?
  have hmarks := Scan.marks_collapseFrom hno none
  refine ⟨⟨?_, comments_eq_nil.mpr (List.findIdx?_eq_none_iff.mpr ?_)⟩, hmarks⟩
  · rw [Closes, marks, endFrom_collapseFrom (.inl rfl) rfl t hno]
    exact h.closes
  · rw [hmarks]
    exact quiet_squeezeFrom none hno

/-- Collapsing keeps the firm marks, and with them the strings. -/
theorem Clean.collapse {t : Text} (h : Clean t) :
    Clean (collapse t) ∧ (marks (Scan.collapse t)).filter Mark.isFirm =
      (marks t).filter Mark.isFirm := by
  obtain ⟨hclean, hmarks⟩ := h.marks_collapseFrom
  exact ⟨hclean.trim.1, by rw [Scan.collapse, hclean.firm_trim, hmarks, firm_squeezeFrom]⟩

theorem Clean.literals_collapse {t : Text} (h : Clean t) :
    literals (Scan.collapse t) = literals t := by
  rw [literals, ← stringChars_firm, h.collapse.2, stringChars_firm, literals]

/-! ## Pairs of brackets and pieces -/

theorem inert_opener {c : Char} (hc : isOpener c = true) : isInert c = true ∧ c ≠ '\n' := by
  simp only [isOpener, Bool.or_eq_true, beq_iff_eq] at hc
  rcases hc with ((rfl | rfl) | rfl) | rfl <;> decide

theorem inert_closer {c o : Char} (hc : openerOf c = some o) : isInert c = true ∧ c ≠ '\n' := by
  unfold openerOf at hc
  split at hc <;> first | decide | cases hc

/-- A text is cut at a pair of brackets of code. -/
theorem parted_pair {t before inside after : Text} {i : Nat} {m : Mark} {d : Char}
    (hm : (marks t)[i]? = some m) (hcode : m.isCode = true) (ho : isOpener m.char = true)
    (hd : openerOf d = some m.char) (hp : aroundPair? t i = some (before, inside, after)) :
    t = before ++ ([m.char] ++ (inside ++ d :: after)) ∧
      Parted before ([m.char] ++ (inside ++ d :: after)) ∧
      Parted inside (d :: after) := by
  have hget := getElem?_of_marks hm
  have hspec := aroundPair?_spec ho hd hget hp
  obtain ⟨hlt, -⟩ := List.getElem?_eq_some_iff.mp hget
  obtain ⟨close, hclose, he⟩ := Option.map_eq_some_iff.mp hp
  simp only [Prod.mk.injEq] at he
  obtain ⟨hbefore, -, hafter⟩ := he
  have hlen : before.length = i := by
    rw [← hbefore, List.length_take]
    omega
  rw [List.append_assoc, List.cons_append] at hspec
  have hdrop : t.drop i = m.char :: (inside ++ d :: after) := by
    rw [hspec, ← hlen, List.drop_left]
  have hparted := parted_code hm hcode (inert_opener ho).2
  rw [hbefore, hdrop] at hparted
  refine ⟨hspec, hparted, ?_⟩
  -- the closing bracket is code, read from the opening one on
  rw [hdrop] at hclose
  obtain ⟨inner, c, s', rest, hmarks, hl, hc, -, -⟩ := matching?_spec ho hclose
  obtain rfl := eq_of_openerOf hc hd
  have hinside : inside.length + 1 = close := by
    have hbound := congrArg List.length hmarks
    have hwhole := congrArg List.length hspec
    have hend := congrArg List.length hafter
    simp only [length_marks, List.length_cons, List.length_append,
      List.length_drop] at hbound hwhole hend
    omega
  have hat : (marks (m.char :: (inside ++ c :: after)))[inside.length + 1]? =
      some ⟨c, 0, .code⟩ := by
    rw [hmarks, hinside, ← hl, List.cons_append, List.getElem?_cons_succ,
      List.getElem?_append_right (Nat.le_refl _), Nat.sub_self, List.getElem?_cons_zero]
  have hcut := parted_code hat rfl (inert_closer hc).2
  rw [List.take_succ_cons, List.drop_succ_cons, List.take_left, List.drop_left] at hcut
  exact Parted.of_lead (a := [m.char]) (by simp [(inert_opener ho).1]) hcut

theorem Clean.aroundPair {t before inside after : Text} {i : Nat} {m : Mark} {d : Char}
    (h : Clean t) (hm : (marks t)[i]? = some m) (hcode : m.isCode = true)
    (ho : isOpener m.char = true) (hd : openerOf d = some m.char)
    (hp : aroundPair? t i = some (before, inside, after)) :
    Clean before ∧ Clean inside ∧ Clean after ∧
      literals t = literals before ++ (literals inside ++ literals after) := by
  obtain ⟨rfl, hbefore, hinside⟩ := parted_pair hm hcode ho hd hp
  have hopen : [m.char].all isInert = true := by simp [(inert_opener ho).1]
  have hclose : [d].all isInert = true := by simp [(inert_closer hd).1]
  obtain ⟨hfirst, hpair⟩ := hbefore.clean.mp h
  obtain ⟨hinner, hrest⟩ := hinside.clean.mp ((parted_inert hopen _).clean.mp hpair).2
  rw [← List.singleton_append] at hinside hrest
  refine ⟨hfirst, hinner, ((parted_inert hclose after).clean.mp hrest).2, ?_⟩
  rw [hbefore.literals, literals_lead hopen, ← List.singleton_append, hinside.literals,
    literals_lead hclose]

/-- A text is cut at its separators outside brackets. -/
theorem Clean.piecesTop {separators : List Char} (hseps : separators.all isStop = true) {t : Text}
    (h : Clean t) :
    (∀ x ∈ piecesTop separators t, Clean x) ∧
      ((Scan.piecesTop separators t).map literals).flatten = literals t := by
  induction t using cut_induction hseps with
  | uncut t hno =>
    rw [piecesTop_uncut hno]
    exact ⟨by simpa using h, by simp⟩
  | ended u c v hc hstop hended ih =>
    have hsign : isInert c = true ∧ c ≠ '\n' := by
      have hcases : c = ',' ∨ c = ';' := by simpa [isStop] using hstop
      rcases hcases with rfl | rfl <;> decide
    obtain ⟨hu, hv, hliterals⟩ := h.cut (hended.getElem?_marks hstop v) rfl hsign.1 hsign.2
    obtain ⟨hrest, hflat⟩ := ih hv
    rw [hended.piecesTop_append hstop hc, List.map_cons, List.flatten_cons, hflat, hliterals]
    exact ⟨List.forall_mem_cons.mpr ⟨hu, hrest⟩, rfl⟩

theorem Clean.splitTop {separators : List Char} (hseps : separators.all isStop = true) {t : Text}
    (h : Clean t) :
    (∀ x ∈ splitTop separators t, Clean x) ∧
      ((Scan.splitTop separators t).map literals).flatten = literals t := by
  obtain ⟨hclean, hflat⟩ := h.piecesTop hseps
  constructor
  · intro x hx
    obtain ⟨y, hy, rfl⟩ := List.mem_map.mp (List.mem_filter.mp hx).1
    exact (hclean y hy).trim.1
  · rw [← hflat, Scan.splitTop]
    generalize Scan.piecesTop separators t = ps at hclean
    induction ps with
    | nil => rfl
    | cons y ps ih =>
      obtain ⟨hy, hps⟩ := List.forall_mem_cons.mp hclean
      have htrim := hy.trim.2
      rw [List.map_cons, List.map_cons, List.flatten_cons, ← ih hps, ← htrim]
      cases hne : (Text.trim y).isEmpty with
      | true =>
        rw [List.filter_cons_of_neg (by simp [hne]), List.isEmpty_iff.mp hne]
        rfl
      | false =>
        rw [List.filter_cons_of_pos (by simp [hne])]
        rfl

theorem Clean.intercalate {ts : List Text} (h : ∀ t ∈ ts, Clean t) :
    Clean ([' '].intercalate ts) ∧ literals ([' '].intercalate ts) = (ts.map literals).flatten := by
  induction ts with
  | nil => exact ⟨clean_nil, rfl⟩
  | cons t ts ih =>
    obtain ⟨ht, hts⟩ := List.forall_mem_cons.mp h
    cases ts with
    | nil =>
      rw [intercalate_singleton]
      exact ⟨ht, by simp⟩
    | cons u ts =>
      obtain ⟨hclean, hliterals⟩ := ih hts
      obtain ⟨hjoin, heq⟩ := ht.join (a := [' ']) rfl (by simp) hclean
      rw [intercalate_cons_cons, heq, hliterals]
      exact ⟨hjoin, rfl⟩

end SourceLayout.Scan
