import SourceLayout.Proofs.Marks

/-! Collapsing blanks. It writes a run of blanks outside strings as one space, so the other marks,
which are called firm, are the same before and after. -/

namespace SourceLayout.Scan
open Text

/-- A mark that collapsing keeps: all but blanks outside strings. -/
def Mark.isFirm (m : Mark) : Bool := m.kind == .string || !isBlank m.char

theorem collapseFrom_cons (last : Option Char) (m : Mark) (ms : List Mark) :
    collapseFrom last (m :: ms) =
      if m.isFirm then m.char :: collapseFrom (some m.char) ms
      else if last.isNone || last == some ' ' then collapseFrom last ms
      else ' ' :: collapseFrom (some ' ') ms := by
  have h : m.isFirm = !(m.kind != .string && isBlank m.char) := by
    simp [Mark.isFirm, bne]
  rw [collapseFrom, h]
  cases m.kind != .string && isBlank m.char <;> rfl

@[simp] theorem ink_collapseFrom (last : Option Char) (ms : List Mark) :
    ink (collapseFrom last ms) = ink (ms.map Mark.char) := by
  induction ms generalizing last with
  | nil => rfl
  | cons m ms ih =>
    rw [collapseFrom_cons, List.map_cons, ink_cons m.char]
    cases h : m.isFirm with
    | true => rw [if_pos rfl, ink_cons m.char, ih]
    | false =>
      have hc : isBlank m.char = true := by
        simp only [Mark.isFirm, Bool.or_eq_false_iff, Bool.not_eq_false'] at h
        exact h.2
      have hm : ink [m.char] = [] := ink_blank (by simp [isBlankLine, hc])
      rw [if_neg (by simp), hm]
      split <;> simp [ih]

@[simp] theorem ink_collapse (t : Text) : ink (collapse t) = ink t := by
  simp [collapse]

/-- Where no comment begins, the scanner stays out of comments, and the next character matters only
behind a backslash and a slash. -/
theorem step_quiet {p : Phase} {s : State} {c : Char} {next : Option Char}
    (hp : p = .free ∨ p = .escaped) (hb : s.inBlock = false)
    (h : (step p s c next).1.isComment = false) :
    ((step p s c next).2.1 = .free ∨ (step p s c next).2.1 = .escaped) ∧
      (step p s c next).2.2.inBlock = false ∧
      ∀ next', (c = '/' → next' ≠ some '/' ∧ next' ≠ some '*') →
        (c = '\\' → next'.isSome = next.isSome) →
        step p s c next' = step p s c next := by
  rcases hp with rfl | rfl
  · simp only [step, stepFree, hb, Bool.false_eq_true, ↓reduceIte] at h ⊢
    cases hq : s.quote with
    | some q => grind
    | none =>
      simp only [hq] at h ⊢
      cases hquote : isQuote c with
      | true => simp
      | false =>
        simp only [hquote, Bool.false_eq_true, ↓reduceIte] at h ⊢
        have hline : (c == '/' && next == some '/') = false := by
          cases hl : c == '/' && next == some '/' with
          | true => simp [hl, Mark.isComment] at h
          | false => rfl
        have hblock : (c == '/' && next == some '*') = false := by
          cases hl : c == '/' && next == some '*' with
          | true => simp [hline, hl, Mark.isComment] at h
          | false => rfl
        simp only [hline, hblock, Bool.false_eq_true, ↓reduceIte]
        refine ⟨.inl trivial, hb, ?_⟩
        intro next' hn _
        by_cases hc : c = '/'
        · simp [hn hc]
        · simp [hc]
  · exact ⟨.inl rfl, hb, fun _ _ _ => rfl⟩

/-- A mark that collapsing does not keep stands in code. -/
theorem code_of_not_firm {p : Phase} {s : State} {c : Char} {next : Option Char}
    (hp : p = .free ∨ p = .escaped) (hm : (step p s c next).1.isComment = false)
    (hfirm : (step p s c next).1.isFirm = false) :
    p = .free ∧ s.quote = none ∧ isBlank c = true := by
  simp only [Mark.isFirm, step_char, Bool.or_eq_false_iff, beq_eq_false_iff_ne,
    Bool.not_eq_false'] at hfirm
  obtain ⟨hk, hc⟩ := hfirm
  rcases step_cases p s c next with ⟨hq, -, -⟩ | ⟨k, p', s', hk', -, he⟩
  · rcases hp with rfl | rfl
    · exact ⟨rfl, hq, hc⟩
    · simp [step] at hk
  · cases k <;> simp_all [Mark.isComment]

/-- What follows a character is read with it in the same way after it is collapsed. -/
theorem step_collapsed {p : Phase} {s : State} {c d : Char} (hp : p = .free ∨ p = .escaped)
    (hb : s.inBlock = false) (hm : (step p s c (some d)).1.isComment = false) (p' : Phase)
    (s' : State) (r x : Text) :
    step p s c (collapseFrom (some c) (marksFrom p' s' (d :: r)) ++ x).head? =
      step p s c (some d) := by
  obtain ⟨-, -, hnext⟩ := step_quiet hp hb hm
  rw [marksFrom_cons, collapseFrom_cons]
  split
  · simp
  · -- the next character is a blank of code, written as a space behind a backslash or a slash
    by_cases hc : c = '/' ∨ c = '\\'
    · rw [if_neg (by rcases hc with rfl | rfl <;> decide)]
      exact hnext _ (by simp) (by simp)
    · exact hnext _ (fun h => absurd (.inl h) hc) (fun h => absurd (.inr h) hc)

/-- The marks of the collapsed text: a run of blanks outside strings is marked as one space. -/
def squeezeFrom (last : Option Char) : List Mark → List Mark
  | [] => []
  | m :: r =>
    if m.isFirm then m :: squeezeFrom (some m.char) r
    else if last.isNone || last == some ' ' then squeezeFrom last r
    else { m with char := ' ' } :: squeezeFrom (some ' ') r

theorem not_firm_space {m : Mark} (h : m.isFirm = false) :
    ({ m with char := ' ' } : Mark).isFirm = false := by
  simp only [Mark.isFirm, Bool.or_eq_false_iff] at h ⊢
  exact ⟨h.1, by decide⟩

theorem firm_squeezeFrom (last : Option Char) (ms : List Mark) :
    (squeezeFrom last ms).filter Mark.isFirm = ms.filter Mark.isFirm := by
  induction ms generalizing last with
  | nil => rfl
  | cons m ms ih =>
    rw [squeezeFrom, List.filter_cons]
    cases hfirm : m.isFirm with
    | true => rw [if_pos rfl, List.filter_cons_of_pos hfirm, ih, if_pos rfl]
    | false =>
      simp only [Bool.false_eq_true, ↓reduceIte]
      split
      · exact ih last
      · rw [List.filter_cons_of_neg (by simp [not_firm_space hfirm]), ih]

theorem quiet_squeezeFrom (last : Option Char) {ms : List Mark}
    (h : ∀ m ∈ ms, m.isComment = false) : ∀ m ∈ squeezeFrom last ms, m.isComment = false := by
  induction ms generalizing last with
  | nil => exact h
  | cons m ms ih =>
    obtain ⟨hm, hms⟩ := List.forall_mem_cons.mp h
    rw [squeezeFrom]
    split
    · exact List.forall_mem_cons.mpr ⟨hm, ih _ hms⟩
    · split
      · exact ih _ hms
      · exact List.forall_mem_cons.mpr ⟨hm, ih _ hms⟩

/-- The collapsed text is read along with the text itself, however it goes on after a space. -/
theorem marksFrom_collapseFrom {p : Phase} {s : State} (hp : p = .free ∨ p = .escaped)
    (hb : s.inBlock = false) (t : Text) (ht : ∀ m ∈ marksFrom p s t, m.isComment = false)
    (last : Option Char) (x : Text) (hx : x.head? = none ∨ x.head? = some ' ') :
    ∃ p' s', marksFrom p s (collapseFrom last (marksFrom p s t) ++ x) =
      squeezeFrom last (marksFrom p s t) ++ marksFrom p' s' x := by
  induction t generalizing p s last with
  | nil => exact ⟨p, s, rfl⟩
  | cons c r ih =>
    rw [marksFrom_cons] at ht ⊢
    have hm : (step p s c r.head?).1.isComment = false := ht _ List.mem_cons_self
    have hr := fun m hm => ht m (List.mem_cons_of_mem _ hm)
    obtain ⟨hp', hb', -⟩ := step_quiet hp hb hm
    rw [collapseFrom_cons, squeezeFrom]
    cases hfirm : (step p s c r.head?).1.isFirm with
    | false =>
      -- a blank of code: the state does not change, whether a space is written for it or not
      obtain ⟨rfl, hq, hc⟩ := code_of_not_firm hp hm hfirm
      rw [step_blank hq hb hc] at hr hp' hb' ⊢
      simp only [Bool.false_eq_true, ↓reduceIte]
      split
      · exact ih hp' hb' hr last
      · obtain ⟨p', s', h⟩ := ih hp' hb' hr (some ' ')
        refine ⟨p', s', ?_⟩
        rw [List.cons_append, marksFrom_cons, step_blank hq hb (by decide), h]
        rfl
    | true =>
      simp only [↓reduceIte, step_char, List.cons_append]
      rw [marksFrom_cons]
      cases r with
      | nil =>
        have he : (step p s c x.head?).1 = (step p s c none).1 :=
          step_mark_next p s c x.head? (.inl (by rcases hx with h | h <;> simp [h]))
        refine ⟨(step p s c x.head?).2.1, (step p s c x.head?).2.2, ?_⟩
        simp only [marksFrom, collapseFrom, squeezeFrom, List.nil_append, List.head?_nil]
        rw [he]
      | cons d r =>
        have he := step_collapsed hp hb hm (step p s c (some d)).2.1 (step p s c (some d)).2.2 r x
        obtain ⟨p', s', h⟩ := ih hp' hb' hr (some c)
        refine ⟨p', s', ?_⟩
        rw [List.head?_cons] at h ⊢
        rw [he, h]

/-- The marks of the collapsed text. -/
theorem marks_collapseFrom {t : Text} (ht : ∀ m ∈ marks t, m.isComment = false)
    (last : Option Char) : marks (collapseFrom last (marks t)) = squeezeFrom last (marks t) := by
  obtain ⟨p', s', h⟩ := marksFrom_collapseFrom (.inl rfl) rfl t ht last [] (.inl rfl)
  simpa [marks, marksFrom] using h

theorem collapseFrom_append (last : Option Char) (ms ns : List Mark) :
    collapseFrom last (ms ++ ns) =
      collapseFrom last ms ++ collapseFrom ((collapseFrom last ms).getLast?.or last) ns := by
  induction ms generalizing last with
  | nil => rfl
  | cons m ms ih =>
    have hcons (c : Char) : (c :: collapseFrom (some c) ms).getLast?.or last =
        (collapseFrom (some c) ms).getLast?.or (some c) := by
      rw [List.getLast?_cons]
      cases (collapseFrom (some c) ms).getLast? <;> rfl
    rw [List.cons_append, collapseFrom_cons, collapseFrom_cons]
    split
    · rw [ih, hcons, List.cons_append]
    · split
      · exact ih last
      · rw [ih, hcons, List.cons_append]

/-- A trimmed text, collapsed, ends in its last character and is trimmed. -/
theorem collapseFrom_trimmed {w : Text} (hne : w ≠ []) (ht : trim w = w) :
    ∃ c, (collapseFrom none (marks w)).getLast? = some c ∧ isBlank c = false ∧
      trim (collapseFrom none (marks w)) = collapseFrom none (marks w) := by
  have hmarks : marks w ≠ [] := by
    intro h
    exact hne (by rw [← map_char_marks w {}, h]; rfl)
  -- the last mark of `w` is firm, so collapsing ends there
  obtain ⟨ms, m, hm⟩ : ∃ ms m, marks w = ms ++ [m] :=
    ⟨_, _, (List.dropLast_concat_getLast hmarks).symm⟩
  have hlast : isBlank m.char = false := by
    apply last_trim (t := w)
    rw [ht, ← map_char_marks w {}, hm]
    simp
  have hend : (collapseFrom none (marks w)).getLast? = some m.char := by
    rw [hm, collapseFrom_append, collapseFrom_cons, if_pos (by simp [Mark.isFirm, hlast])]
    exact List.getLast?_concat
  refine ⟨m.char, hend, hlast, trim_eq_self (fun c hc => ?_) fun c hc => ?_⟩
  · cases w with
    | nil => exact absurd rfl hne
    | cons d w =>
      have hd : isBlank d = false := head_trim (t := d :: w) (by rw [ht]; rfl)
      rw [marks, marksFrom_cons, collapseFrom_cons, if_pos (by simp [Mark.isFirm, hd])] at hc
      simp only [step_char, List.head?_cons, Option.some.injEq] at hc
      exact hc ▸ hd
  · rw [hend, Option.some.injEq] at hc
    exact hc ▸ hlast

/-- Collapsing keeps the firm marks of a trimmed text without comments, also when the text goes on
after a space. -/
theorem firm_collapse {w x : Text} (hne : w ≠ []) (ht : trim w = w)
    (hw : ∀ m ∈ marks w, m.isComment = false) (hx : x.head? = none ∨ x.head? = some ' ') :
    ∃ ms, (marks (collapse (w ++ x))).filter Mark.isFirm = (marks w).filter Mark.isFirm ++ ms ∧
      (x = [] → ms = []) := by
  obtain ⟨ns, hns⟩ := marksFrom_append .free {} w x (.inl (by rcases hx with h | h <;> simp [h]))
  have hchars : ns.map Mark.char = x := by
    have h := congrArg (List.map Mark.char) hns
    simpa using h.symm
  obtain ⟨e, hend, hlast, htrim⟩ := collapseFrom_trimmed hne ht
  have hcollapse : collapse (w ++ x) =
      collapseFrom none (marks w) ++ trimRight (collapseFrom (some e) ns) := by
    have hcut : collapseFrom none (marks (w ++ x)) =
        collapseFrom none (marks w) ++ collapseFrom (some e) ns := by
      rw [marks, hns, ← marks, collapseFrom_append, hend]
      rfl
    rw [collapse, hcut, trim_append htrim fun h => by rw [h] at hend; cases hend]
  have hnext : (trimRight (collapseFrom (some e) ns)).head? = none ∨
      (trimRight (collapseFrom (some e) ns)).head? = some ' ' := by
    obtain ⟨b, hb, -⟩ := trimRight_append (collapseFrom (some e) ns)
    cases ns with
    | nil => exact .inl rfl
    | cons n ns =>
      have hn : n.char = ' ' := by
        rw [← hchars] at hx
        simpa using hx
      have hfirst : (collapseFrom (some e) (n :: ns)).head? = some ' ' := by
        rw [collapseFrom_cons, hn]
        split
        · rfl
        · rw [if_neg]
          · rfl
          · intro h
            simp only [Option.isNone_some, Bool.false_or, beq_iff_eq, Option.some.injEq] at h
            rw [h] at hlast
            cases hlast
      rw [hb, List.head?_append] at hfirst
      cases hh : (trimRight (collapseFrom (some e) (n :: ns))).head? with
      | none => exact .inl rfl
      | some c =>
        rw [hh, Option.some_or] at hfirst
        exact .inr hfirst
  obtain ⟨p', s', h⟩ := marksFrom_collapseFrom (.inl rfl) rfl w hw none _ hnext
  refine ⟨_, by rw [hcollapse, marks, marks, h, List.filter_append, firm_squeezeFrom], ?_⟩
  intro he
  rw [he, List.map_eq_nil_iff] at hchars
  rw [hchars]
  rfl

end SourceLayout.Scan
