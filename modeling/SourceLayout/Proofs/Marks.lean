import SourceLayout.Proofs.Ink

/-! The marks of a text: what one step of the scanner can do, how plain characters are marked, and
how the marks of a text extend those of its beginning. -/

namespace SourceLayout.Scan
open Text

/-! ## One step -/

private theorem stepFree_cases (s : State) (c : Char) (next : Option Char) :
    (s.quote = none ∧ s.inBlock = false ∧
      stepFree s c next = (⟨c, min s.depth (s.readCode c).depth, .code⟩, .free, s.readCode c)) ∨
    ∃ k p' s', k ≠ .code ∧ s'.stack = s.stack ∧ stepFree s c next = (⟨c, s.depth, k⟩, p', s') := by
  unfold stepFree
  cases hb : s.inBlock with
  | true =>
    right
    simp only [↓reduceIte]
    split
    · exact ⟨.comment, .sign, { s with inBlock := false }, by decide, rfl, by simp⟩
    · exact ⟨.comment, .free, s, by decide, rfl, rfl⟩
  | false =>
    simp only [Bool.false_eq_true, ↓reduceIte]
    cases hq : s.quote with
    | some q =>
      right
      simp only
      split
      · exact ⟨.string, .escaped, s, by decide, rfl, rfl⟩
      · split
        · exact ⟨.string, .free, { s with quote := none }, by decide, rfl, by simp [hb]⟩
        · exact ⟨.string, .free, s, by decide, rfl, rfl⟩
    | none =>
      simp only
      split
      · exact .inr ⟨.string, .free, { s with quote := some c, previous := some c }, by decide, rfl,
          by simp [hb]⟩
      · split
        · exact .inr ⟨.comment, .line, s, by decide, rfl, rfl⟩
        · split
          · exact .inr ⟨.comment, .sign, { s with inBlock := true }, by decide, rfl, by simp [hq]⟩
          · exact .inl ⟨trivial, trivial, rfl⟩

/-- Everything a step can do: it marks its character, and either reads it as code or leaves the open
brackets alone. -/
theorem step_cases (p : Phase) (s : State) (c : Char) (next : Option Char) :
    (s.quote = none ∧ s.inBlock = false ∧
      step p s c next = (⟨c, min s.depth (s.readCode c).depth, .code⟩, .free, s.readCode c)) ∨
    ∃ k p' s', k ≠ .code ∧ s'.stack = s.stack ∧ step p s c next = (⟨c, s.depth, k⟩, p', s') := by
  cases p with
  | free => exact stepFree_cases s c next
  | line =>
    unfold step
    simp only
    split
    · exact stepFree_cases s c next
    · exact .inr ⟨.comment, .line, s, by decide, rfl, rfl⟩
  | escaped => exact .inr ⟨.string, .free, s, by decide, rfl, rfl⟩
  | sign => exact .inr ⟨.comment, .free, s, by decide, rfl, rfl⟩

@[simp] theorem step_char (p : Phase) (s : State) (c : Char) (next : Option Char) :
    (step p s c next).1.char = c := by
  rcases step_cases p s c next with ⟨_, _, h⟩ | ⟨k, p', s', _, _, h⟩ <;> rw [h]

theorem marksFrom_cons (p : Phase) (s : State) (c : Char) (r : Text) :
    marksFrom p s (c :: r) =
      (step p s c r.head?).1 :: marksFrom (step p s c r.head?).2.1 (step p s c r.head?).2.2 r := rfl

@[simp] theorem map_char_marksFrom (p : Phase) (s : State) (t : Text) :
    (marksFrom p s t).map Mark.char = t := by
  induction t generalizing p s with
  | nil => rfl
  | cons c r ih => rw [marksFrom_cons, List.map_cons, step_char, ih]

@[simp] theorem length_marksFrom (p : Phase) (s : State) (t : Text) :
    (marksFrom p s t).length = t.length := by
  have h := congrArg List.length (map_char_marksFrom p s t)
  rw [List.length_map] at h
  exact h

@[simp] theorem map_char_marks (t : Text) (s : State) : (marks t s).map Mark.char = t :=
  map_char_marksFrom ..

@[simp] theorem length_marks (t : Text) (s : State) : (marks t s).length = t.length :=
  length_marksFrom ..

@[simp] theorem readCode_quote (s : State) (c : Char) : (s.readCode c).quote = s.quote := rfl

@[simp] theorem readCode_inBlock (s : State) (c : Char) : (s.readCode c).inBlock = s.inBlock := rfl

theorem settled_iff {s : State} :
    s.settled = true ↔ s.stack = [] ∧ s.quote = none ∧ s.inBlock = false := by
  simp [State.settled, and_assoc]

/-! ## Plain characters -/

/-- The characters that may open or close a bracket, a string or a comment. -/
def signs : List Char := ['\'', '"', '`', '/', '(', '{', '[', '<', ')', '}', ']', '>']

private theorem step_plain {c : Char} (hc : c ∉ signs) {s : State} (hs : s.settled = true)
    (next : Option Char) :
    ∃ s', s'.settled = true ∧ step .free s c next = (⟨c, 0, .code⟩, .free, s') := by
  obtain ⟨hst, hq, hb⟩ := settled_iff.mp hs
  have ho : isOpener c = false := by simp_all [isOpener, signs]
  have hcl : openerOf c = none := by
    unfold openerOf
    split <;> simp_all [signs]
  have hquote : isQuote c = false := by simp_all [isQuote, signs]
  have hslash : c ≠ '/' := by rintro rfl; exact hc (by decide)
  refine ⟨s.readCode c, ?_, ?_⟩
  · simp [State.settled, State.readCode, ho, hcl, hst, hq, hb]
  · simp [step, stepFree, State.readCode, State.depth, ho, hcl, hquote, hslash, hst, hq, hb]

/-- Characters that open and close nothing are code outside all brackets. -/
theorem marksFrom_plain (a r : Text) (ha : ∀ c ∈ a, c ∉ signs) {s : State} (hs : s.settled = true) :
    ∃ s', s'.settled = true ∧
      marksFrom .free s (a ++ r) = a.map (⟨·, 0, .code⟩) ++ marksFrom .free s' r := by
  induction a generalizing s with
  | nil => exact ⟨s, hs, rfl⟩
  | cons c a ih =>
    obtain ⟨s₁, hs₁, he⟩ := step_plain (ha c List.mem_cons_self) hs (a ++ r).head?
    obtain ⟨s', hs', hr⟩ := ih (fun d hd => ha d (List.mem_cons_of_mem _ hd)) hs₁
    refine ⟨s', hs', ?_⟩
    rw [List.cons_append, marksFrom_cons, he, hr]
    rfl

theorem not_sign_of_blank {c : Char} (h : isBlank c = true) : c ∉ signs := by
  intro hc
  have hall : signs.all (!isBlank ·) = true := by decide
  have hnot := List.all_eq_true.mp hall c hc
  simp [h] at hnot

theorem not_nameChar_of_blank {c : Char} (h : isBlank c = true) : isNameChar c = false := by
  let blanks : List Nat := [9, 10, 11, 12, 13, 28, 29, 30, 31, 32, 0x85, 0xA0, 0x1680, 0x2000,
    0x2001, 0x2002, 0x2003, 0x2004, 0x2005, 0x2006, 0x2007, 0x2008, 0x2009, 0x200A, 0x2028, 0x2029,
    0x202F, 0x205F, 0x3000]
  have hall : blanks.all (fun n => !isNameChar (Char.ofNat n)) = true := by decide +kernel
  have hmem : c.toNat ∈ blanks := by
    simp only [isBlank, Bool.or_eq_true, Bool.and_eq_true, decide_eq_true_eq, beq_iff_eq] at h
    simp only [blanks, List.mem_cons, List.not_mem_nil, or_false]
    omega
  have hc := List.all_eq_true.mp hall c.toNat hmem
  rw [Char.ofNat_toNat] at hc
  simpa using hc

theorem not_sign_of_nameChar {c : Char} (h : isNameChar c = true) : c ∉ signs := by
  intro hc
  have hall : signs.all (!isNameChar ·) = true := by decide
  have hnot := List.all_eq_true.mp hall c hc
  simp [h] at hnot

theorem readCode_blank {c : Char} (hc : isBlank c = true) (s : State) : s.readCode c = s := by
  have hsign := not_sign_of_blank hc
  have ho : isOpener c = false := by simp_all [isOpener, signs]
  have hcl : openerOf c = none := by
    unfold openerOf
    split <;> simp_all [signs]
  simp [State.readCode, ho, hcl, hc]

theorem step_blank {s : State} (hq : s.quote = none) (hb : s.inBlock = false) {c : Char}
    (hc : isBlank c = true) (next : Option Char) :
    step .free s c next = (⟨c, s.depth, .code⟩, .free, s) := by
  have hsign := not_sign_of_blank hc
  have hquote : isQuote c = false := by simp_all [isQuote, signs]
  have hslash : c ≠ '/' := by rintro rfl; exact hsign (by decide)
  simp [step, stepFree, hq, hb, hquote, hslash, readCode_blank hc]

/-- Blanks in front of a text that begins in code do not change its marks. -/
theorem marks_blank_append {a : Text} (ha : isBlankLine a = true) {s : State} (hq : s.quote = none)
    (hb : s.inBlock = false) (t : Text) :
    marks (a ++ t) s = a.map (⟨·, s.depth, .code⟩) ++ marks t s := by
  induction a with
  | nil => rfl
  | cons c a ih =>
    simp only [isBlankLine, List.all_cons, Bool.and_eq_true] at ha
    have hrest := ih ha.2
    rw [marks] at hrest ⊢
    rw [List.cons_append, marksFrom_cons, step_blank hq hb ha.1, hrest]
    rfl

/-! ## The beginning of a text -/

/-- The next character decides the mark of a character only where a comment begins. -/
theorem step_mark_next (p : Phase) (s : State) (c : Char) (next : Option Char)
    (h : (next ≠ some '/' ∧ next ≠ some '*') ∨ (step p s c next).1.isComment = false) :
    (step p s c next).1 = (step p s c none).1 := by
  have hfree (h : (next ≠ some '/' ∧ next ≠ some '*') ∨ (stepFree s c next).1.isComment = false) :
      (stepFree s c next).1 = (stepFree s c none).1 := by
    unfold stepFree at h ⊢
    cases hb : s.inBlock with
    | true => simp only [↓reduceIte]; split <;> split <;> rfl
    | false =>
      cases hq : s.quote with
      | some q => simp
      | none =>
        simp only [hb, hq, Bool.false_eq_true, ↓reduceIte] at h ⊢
        split
        · rfl
        · grind [Mark.isComment]
  cases p with
  | free => exact hfree h
  | line =>
    unfold step at h ⊢
    simp only at h ⊢
    split
    · next hc => simp only [hc, ↓reduceIte] at h; exact hfree h
    · rfl
  | escaped => rfl
  | sign => rfl

/-- The marks of the beginning of a text are its first marks, unless a
comment sign is cut in two. -/
theorem marksFrom_append (p : Phase) (s : State) (a b : Text)
    (h : (b.head? ≠ some '/' ∧ b.head? ≠ some '*') ∨
      ∀ m ∈ (marksFrom p s (a ++ b)).take a.length, m.isComment = false) :
    ∃ ms, marksFrom p s (a ++ b) = marksFrom p s a ++ ms := by
  induction a generalizing p s with
  | nil => exact ⟨_, rfl⟩
  | cons c a ih =>
    rw [List.cons_append, marksFrom_cons] at h ⊢
    rw [marksFrom_cons]
    cases a with
    | nil =>
      have hm : (step p s c b.head?).1 = (step p s c none).1 := by
        apply step_mark_next
        rcases h with h | h
        · exact .inl h
        · exact .inr (h _ List.mem_cons_self)
      exact ⟨_, by rw [List.nil_append, hm]; rfl⟩
    | cons d a =>
      have hr : (b.head? ≠ some '/' ∧ b.head? ≠ some '*') ∨
          ∀ m ∈ (marksFrom (step p s c (some d)).2.1 (step p s c (some d)).2.2 (d :: a ++ b)).take
            (d :: a).length, m.isComment = false :=
        h.imp_right fun h m hm => h m (List.mem_cons_of_mem _ hm)
      obtain ⟨ms, hms⟩ := ih _ _ hr
      exact ⟨ms, congrArg (List.cons _) hms⟩

/-- The marks of a trimmed text stand between those of the blanks around it. -/
theorem marks_trim (t : Text) :
    ∃ ms, marks t = (indentOf t).map (⟨·, 0, .code⟩) ++ marks (trim t) ++ ms ∧
      ∀ m ∈ ms, isBlank m.char = true := by
  obtain ⟨b, hb, hblank⟩ := trimRight_append (trimLeft t)
  have hhead : b.head? ≠ some '/' ∧ b.head? ≠ some '*' := by
    cases b with
    | nil => simp
    | cons c b =>
      simp only [isBlankLine, List.all_cons, Bool.and_eq_true] at hblank
      have hne : ∀ d, isBlank d = false → (c :: b).head? ≠ some d := by
        rintro d hd h
        obtain rfl : c = d := by simpa using h
        simp [hd] at hblank
      exact ⟨hne '/' (by decide), hne '*' (by decide)⟩
  obtain ⟨ms, hms⟩ := marksFrom_append .free {} (trim t) b (.inl hhead)
  have hchars : ms.map Mark.char = b := by
    have h := congrArg (List.map Mark.char) hms
    rw [map_char_marksFrom, List.map_append, map_char_marksFrom] at h
    exact (List.append_cancel_left h).symm
  refine ⟨ms, ?_, fun m hm => List.all_eq_true.mp hblank _ (hchars ▸ List.mem_map_of_mem hm)⟩
  have hindent := marks_blank_append (a := indentOf t) List.all_takeWhile (s := {}) rfl rfl
    (trimLeft t)
  rw [indentOf_append_trimLeft] at hindent
  rw [hindent, List.append_assoc]
  congr 1
  rw [hb]
  exact hms

end SourceLayout.Scan
