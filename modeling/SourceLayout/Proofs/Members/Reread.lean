import SourceLayout.Proofs.Members.Groups
import SourceLayout.Proofs.Stable.Field

/-! Members that are printed anew and read again. Lines printed for the members of a block are cut
into the members they were printed for, if each of them is one member, starts like one, and is whole
where the member was. Comments are such lines with any indentation. -/

namespace SourceLayout.Scan
open Text

/-! ## Lines that hold comments only -/

theorem withoutComments_lineBreak {s : State} (hs : s.EndsInLine) (l t : Text) :
    withoutComments (l ++ '\n' :: t) s = withoutComments l s ++ '\n' ::
    withoutComments t (feed s l) := by
  obtain ⟨-, k, hmarks⟩ := read_lineBreak .free hs l t
  rw [withoutComments, show marks (l ++ '\n' :: t) s = _ from hmarks, List.filter_append,
    List.filter_cons_of_pos (by simp), List.map_append]
  rfl

/-- Outside strings a character opens a string, which shows, or is read outside strings again. -/
theorem step_unquoted {p : Phase} (hp : p ≠ .escaped) {s : State} (hq : s.quote = none) (c : Char)
    (next : Option Char) :
    ((step p s c next).2.1 ≠ .escaped ∧ (step p s c next).2.2.quote = none) ∨
      (step p s c next).1.isComment = false ∧ isBlank c = false := by
  have hshown (hc : isQuote c = true) : isBlank c = false := by
    simp only [isQuote, Bool.or_eq_true, beq_iff_eq] at hc
    rcases hc with (rfl | rfl) | rfl <;> decide
  have hfree : ((stepFree s c next).2.1 ≠ .escaped ∧ (stepFree s c next).2.2.quote = none) ∨
      (stepFree s c next).1.isComment = false ∧ isBlank c = false := by
    unfold stepFree
    cases hb : s.inBlock with
    | true =>
      left
      simp only [↓reduceIte]
      split <;> simp [hq]
    | false =>
      simp only [Bool.false_eq_true, ↓reduceIte, hq]
      split
      · next hc => exact .inr ⟨rfl, hshown hc⟩
      · left
        split
        · simp [hq]
        · split <;> simp [hq, State.readCode]
  cases p with
  | free => exact hfree
  | line =>
    simp only [step]
    split
    · exact hfree
    · simp [hq]
  | escaped => exact absurd rfl hp
  | sign => simp [step, hq]

/-- A line without code or strings that begins outside strings ends outside strings. -/
theorem quote_of_blank_code {s : State} (hq : s.quote = none) {l : Text}
    (h : isBlankLine (withoutComments l s) = true) : (feed s l).quote = none := by
  have hmarks : ∀ m ∈ marks l s, m.isComment = false → isBlank m.char = true := by
    intro m hm hno
    refine List.all_eq_true.mp h m.char (List.mem_map_of_mem (List.mem_filter.mpr ⟨hm, ?_⟩))
    simp [hno]
  have hfrom {p : Phase} (hp : p ≠ .escaped) {s : State} (hq : s.quote = none) {l : Text}
      (h : ∀ m ∈ marksFrom p s l, m.isComment = false → isBlank m.char = true) :
      (stateFrom p s l).quote = none := by
    induction l generalizing p s with
    | nil => exact hq
    | cons c r ih =>
      rw [marksFrom_cons] at h
      obtain ⟨hm, hrest⟩ := List.forall_mem_cons.mp h
      rw [stateFrom_cons]
      rcases step_unquoted hp hq c r.head? with ⟨hphase, hquote⟩ | ⟨hno, hshown⟩
      · exact ih hphase hquote hrest
      · have hblank := hm hno
        rw [step_char, hshown] at hblank
        cases hblank
  exact hfrom (by simp) hq hmarks

/-- Lines that hold nothing but comments, read from state `s`. -/
def Remarks (s : State) : List Text → Prop
  | [] => True
  | l :: r => isBlankLine (withoutComments l s) = true ∧ Remarks (feed s l) r

theorem remarks_append {s : State} {a b : List Text} :
    Remarks s (a ++ b) ↔ Remarks s a ∧ Remarks (feedAll s a) b := by
  induction a generalizing s with
  | nil => simp [Remarks]
  | cons l a ih => rw [List.cons_append, Remarks, Remarks, ih, and_assoc, feedAll_cons]

theorem remarks_iff {s : State} (hq : s.quote = none) {ls : List Text} :
    Remarks s ls ↔ isBlankLine (withoutComments (unlines ls) s) = true := by
  induction ls generalizing s with
  | nil => exact iff_of_true trivial rfl
  | cons l r ih =>
    cases r with
    | nil =>
      rw [unlines, joinLines_singleton, Remarks]
      exact and_iff_left trivial
    | cons k r =>
      have hjoin : unlines (l :: k :: r) = l ++ '\n' :: unlines (k :: r) := joinLines_cons_cons ..
      have hends : s.EndsInLine := by simp [State.EndsInLine, hq]
      have hblank (a b : Text) : isBlankLine (a ++ '\n' :: b) = true ↔ isBlankLine a = true ∧
          isBlankLine b = true := by
        have hbreak : isBlank '\n' = true := by decide
        simp [isBlankLine, hbreak]
      rw [hjoin, withoutComments_lineBreak hends, hblank, Remarks]
      refine and_congr_right fun hl => ih (quote_of_blank_code hq hl)

end SourceLayout.Scan

namespace SourceLayout.Member
open Text Scan

/-! ## Other indentations -/

def Reindented (l l' : Text) : Prop := ∃ a, isBlankLine a = true ∧ l' = a ++ trim l

theorem Reindented.trim_eq {l l' : Text} (h : Reindented l l') : trim l' = trim l := by
  obtain ⟨a, ha, rfl⟩ := h
  rw [trim_blank_append ha, trim_trim]

theorem Reindented.isBlankLine_eq {l l' : Text} (h : Reindented l l') :
    isBlankLine l' = isBlankLine l := by
  have hiff {t : Text} : isBlankLine t = true ↔ trim t = [] := ⟨trim_blank, isBlankLine_of_trim⟩
  rw [Bool.eq_iff_iff, hiff, hiff, h.trim_eq]

theorem map_trim_reindented {g g' : List Text} (h : List.Forall₂ Reindented g g') :
    g'.map trim = g.map trim := by
  induction h with
  | nil => rfl
  | cons hl _ ih => rw [List.map_cons, List.map_cons, hl.trim_eq, ih]

theorem remarks_reindented {s : State} (hq : s.quote = none) {g g' : List Text}
    (h : List.Forall₂ Reindented g g') (hg : Remarks s g) :
    Remarks s g' ∧ feedAll s g' = feedAll s g := by
  induction h generalizing s with
  | nil => exact ⟨trivial, rfl⟩
  | @cons l l' g g' hl _ ih =>
    obtain ⟨a, ha, rfl⟩ := hl
    have hquote := quote_of_blank_code hq hg.1
    have hcode := codeOf_reindent hq ha hquote
    have hfeed := feed_reindent hq ha l
    obtain ⟨hrest, hstate⟩ := ih hquote hg.2
    rw [Remarks, feedAll_cons, feedAll_cons, hfeed]
    refine ⟨⟨isBlankLine_of_trim ?_, hrest⟩, hstate⟩
    exact hcode.trans (trim_blank hg.1)

theorem allStay_reindented {s : State} (hq : s.quote = none) {g g' : List Text}
    (h : List.Forall₂ Reindented g g') (hg : Remarks s g) (hstay : AllStay s g) : AllStay s g' := by
  induction h generalizing s with
  | nil => trivial
  | @cons l l' g g' hl _ ih =>
    have htrim := hl.trim_eq
    obtain ⟨a, ha, rfl⟩ := hl
    rw [AllStay, htrim, feed_reindent hq ha l]
    exact ⟨hstay.1, ih (quote_of_blank_code hq hg.1) hg.2 hstay.2⟩

theorem noGap_of_shown {s : State} {ls : List Text} (h : ∀ l ∈ ls, isBlankLine l = false) :
    NoGap s ls := by
  induction ls generalizing s with
  | nil => trivial
  | cons l r ih =>
    obtain ⟨hl, hr⟩ := List.forall_mem_cons.mp h
    exact ⟨by rw [hl]; rfl, ih hr⟩

/-- Comments leave no blank line. -/
theorem shown_of_remarks {s : State} (hq : s.quote = none) {ls : List Text} (h : Remarks s ls)
    (hgap : NoGap s ls) : ∀ l ∈ ls, isBlankLine l = false := by
  induction ls generalizing s with
  | nil => simp
  | cons l r ih =>
    refine List.forall_mem_cons.mpr ⟨?_, ih (quote_of_blank_code hq h.1) h.2 hgap.2⟩
    simpa [hq] using hgap.1

/-! ## Members printed anew -/

structure Reread (g g' : List Text) : Prop where
  single : Single g'
  stay : AllStay {} g'
  starts : nextStarts g' = true
  whole : ∀ r, (feedAll {} g).settled = true → isWhole g r = true →
    (feedAll {} g').settled = true ∧ ∀ r', nextStarts r' = true → isWhole g' r' = true
  kind : kindOf g' = kindOf g

/-- What is printed for members is cut into what is printed for each. -/
theorem series_reread {G : List (List Text)} {P : List Text → List Text} (hG : Series G)
    (hP : ∀ g ∈ G, Reread g (P g)) :
    Series (G.map P) ∧ AllStay {} (G.map P).flatten ∧ nextStarts (G.map P).flatten = true := by
  induction G with
  | nil => exact ⟨trivial, trivial, rfl⟩
  | cons g G ih =>
    obtain ⟨hg, hrest⟩ := List.forall_mem_cons.mp hP
    obtain ⟨hseries, hstay, hstarts⟩ := ih hG.2.2 hrest
    have hfirst := hg.single.shown.nextStarts_append rfl hg.single.ne (G.map P).flatten
    rw [List.map_cons, List.flatten_cons, hfirst]
    by_cases hne : G = []
    · subst hne
      rw [List.map_nil, List.flatten_nil, List.append_nil]
      exact ⟨⟨hg.single, by simp, trivial⟩, hg.stay, hg.starts⟩
    · obtain ⟨hsettled, hwhole⟩ := hG.2.1 hne
      obtain ⟨hsettled', hwhole'⟩ := hg.whole _ hsettled hwhole
      refine ⟨⟨hg.single, fun _ => ⟨hsettled', hwhole' _ hstarts⟩, hseries⟩, ?_, hg.starts⟩
      exact allStay_append.mpr ⟨hg.stay, hstay.of_lex (same_of_settled hsettled').lex.symm⟩

/-! ## Comments -/

theorem kindOf_comment {g : List Text} : kindOf g = .comment ↔ Remarks {} g := by
  rw [remarks_iff rfl]
  unfold kindOf
  simp only
  split
  · next h => exact iff_of_true rfl (isBlankLine_of_trim (List.isEmpty_iff.mp h))
  · next h =>
    refine iff_of_false ?_ fun hblank => h (by rw [trim_blank hblank]; rfl)
    split
    · simp
    · split <;> simp

/-- Comments are whole as soon as no comment is open. -/
theorem isWhole_of_remarks {a : List Text} (h : Remarks {} a) (r : List Text) :
    isWhole a r = true := by
  rw [isWhole, trim_blank ((remarks_iff rfl).mp h)]
  rfl

theorem Single.unsettled {g a b : List Text} (hg : Single g) (h : Remarks {} g) (hab : g = a ++ b)
    (ha : a ≠ []) (hb : b ≠ []) : (feedAll {} a).settled = false := by
  rw [Bool.eq_false_iff]
  intro hsettled
  have hno := hg.unsplit a b hab ha hb hsettled
  rw [isWhole_of_remarks (remarks_append.mp (hab ▸ h)).1] at hno
  cases hno

/-- A line that shows nothing but comments starts with one. -/
theorem starts_of_blank_code {l : Text} (hl : isBlankLine l = false)
    (h : isBlankLine (withoutComments l) = true) :
    starts (trim l) = true := by
  have hquote := quote_of_blank_code (s := {}) rfl h
  have hcode : isBlankLine (withoutComments (trim l)) = true := by
    have hsame := codeOf_reindent (s := {}) rfl (a := []) rfl hquote
    exact isBlankLine_of_trim (hsame.trans (trim_blank h))
  cases ht : trim l with
  | nil =>
    rw [isBlankLine_of_trim ht] at hl
    cases hl
  | cons c r =>
    have hc : isBlank c = false := head_trim (t := l) (by rw [ht]; rfl)
    have hmark : (step .free {} c r.head?).1.isComment = true := by
      rw [ht] at hcode
      cases hm : (step .free {} c r.head?).1.isComment with
      | true => rfl
      | false =>
        rw [withoutComments, marks, marksFrom_cons, List.filter_cons_of_pos (by simp [hm]),
          List.map_cons, step_char, isBlankLine, List.all_cons, hc] at hcode
        cases hcode
    obtain ⟨rfl, hnext⟩ : c = '/' ∧ (r.head? = some '/' ∨ r.head? = some '*') := by
      simp only [step, stepFree, Bool.false_eq_true, ↓reduceIte] at hmark
      split at hmark
      · cases hmark
      · split at hmark
        · next hslash =>
          rw [Bool.and_eq_true, beq_iff_eq, beq_iff_eq] at hslash
          exact ⟨hslash.1, .inl hslash.2⟩
        · split at hmark
          · next hstar =>
            rw [Bool.and_eq_true, beq_iff_eq, beq_iff_eq] at hstar
            exact ⟨hstar.1, .inr hstar.2⟩
          · cases hmark
    rcases hnext with hnext | hnext
    · obtain ⟨r, rfl⟩ := List.head?_eq_some_iff.mp hnext
      rfl
    · obtain ⟨r, rfl⟩ := List.head?_eq_some_iff.mp hnext
      rfl

/-- Comments are read as before with other indentations. -/
theorem reread_remarks {g g' : List Text} (hg : Single g) (hstay : AllStay {} g) (h : Remarks {} g)
    (hsame : List.Forall₂ Reindented g g') : Reread g g' := by
  obtain ⟨hremarks, hfeed⟩ := remarks_reindented rfl hsame h
  have hshown : ∀ l ∈ g', isBlankLine l = false := by
    have hold := shown_of_remarks rfl h hg.shown
    clear hremarks hfeed hstay h hg
    induction hsame with
    | nil => simp
    | cons hl _ ih =>
      obtain ⟨hfirst, hrest⟩ := List.forall_mem_cons.mp hold
      exact List.forall_mem_cons.mpr ⟨hl.isBlankLine_eq.trans hfirst, ih hrest⟩
  have hne : g' ≠ [] := by
    rintro rfl
    cases hsame
    exact hg.ne rfl
  refine ⟨⟨hne, noGap_of_shown hshown, ?_⟩, allStay_reindented rfl hsame h hstay, ?_, ?_, ?_⟩
  · rintro a' b' rfl ha hb hsettled
    -- the lines up to here were not settled before either
    have htake := List.forall₂_take_append g a' b' hsame
    have hlength := hsame.length_eq
    rw [List.length_append] at hlength
    have hbefore := hg.unsettled h (List.take_append_drop a'.length g).symm
      (by
        intro hnil
        rw [hnil] at htake
        cases htake
        exact ha rfl)
      (by
        intro hnil
        have hpos := List.length_pos_iff.mpr hb
        have hdrop := congrArg List.length hnil
        rw [List.length_drop, List.length_nil] at hdrop
        omega)
    rw [(remarks_reindented rfl htake (remarks_append.mp
      ((List.take_append_drop a'.length g).symm ▸ h :
        Remarks {} (g.take a'.length ++ g.drop a'.length))).1).2,
      hbefore] at hsettled
    cases hsettled
  · obtain ⟨l', r', rfl⟩ := List.exists_cons_of_ne_nil hne
    have hl' := hshown l' List.mem_cons_self
    rw [nextStarts_cons hl']
    exact starts_of_blank_code hl' hremarks.1
  · intro r hsettled _
    exact ⟨hfeed ▸ hsettled, fun r' _ => isWhole_of_remarks hremarks r'⟩
  · rw [kindOf_comment.mpr hremarks, kindOf_comment.mpr h]

end SourceLayout.Member
