import Mathlib.Data.List.Chain
import SourceLayout.Proofs.Signatures.Compact

/-! Runs of firm marks. A text without comments that ends in code is cut into runs by its blanks of
code. Collapsing keeps these runs and writes them one behind the other with a space between them, so
it changes nothing but the blanks around the tokens, and nothing at all when it is done twice. -/

namespace SourceLayout.Scan
open Text

/-! ## Runs -/

/-- The runs of firm marks between the blanks of code. -/
def firmRuns (ms : List Mark) : List (List Mark) :=
  (splitWhen (fun m => !m.isFirm) ms).filter (!·.isEmpty)

def spaced (ws : List (List Mark)) : Text := [' '].intercalate (ws.map (·.map Mark.char))

@[simp] theorem spaced_nil : spaced [] = [] := rfl

theorem spaced_cons (w : List Mark) {ws : List (List Mark)} (h : ws ≠ []) :
    spaced (w :: ws) = w.map Mark.char ++ ' ' :: spaced ws := by
  obtain ⟨x, ws, rfl⟩ := List.exists_cons_of_ne_nil h
  exact intercalate_cons_cons _ _ _ _

theorem spaced_singleton (w : List Mark) : spaced [w] = w.map Mark.char := intercalate_singleton _ _

@[simp] theorem firmRuns_nil : firmRuns [] = [] := rfl

theorem firmRuns_gap (u : List Mark) {m : Mark} (hm : m.isFirm = false) (r : List Mark) :
    firmRuns (u ++ m :: r) = firmRuns u ++ firmRuns r := by
  rw [firmRuns, splitWhen_append_cons u (by simp [hm]), List.filter_append]
  rfl

theorem firmRuns_run {u : List Mark} (hu : ∀ m ∈ u, m.isFirm = true) (hne : u ≠ []) :
    firmRuns u = [u] := by
  rw [firmRuns, splitWhen_of_none fun m hm => by simp [hu m hm]]
  simp [hne]

theorem firmRuns_blank_append {b : List Mark} (hb : ∀ m ∈ b, m.isFirm = false) (r : List Mark) :
    firmRuns (b ++ r) = firmRuns r := by
  induction b with
  | nil => rfl
  | cons m b ih =>
    obtain ⟨hm, hb⟩ := List.forall_mem_cons.mp hb
    rw [List.cons_append, ← ih hb]
    exact firmRuns_gap [] hm (b ++ r)

theorem firmRuns_append_blank (u : List Mark) {b : List Mark} (hb : ∀ m ∈ b, m.isFirm = false) :
    firmRuns (u ++ b) = firmRuns u := by
  cases b with
  | nil => rw [List.append_nil]
  | cons m b =>
    obtain ⟨hm, hb⟩ := List.forall_mem_cons.mp hb
    have hnil : firmRuns b = [] := by simpa using firmRuns_blank_append hb []
    rw [firmRuns_gap u hm, hnil, List.append_nil]

theorem Clean.firmRuns_trim {t : Text} (h : Clean t) :
    firmRuns (marks (Text.trim t)) = firmRuns (marks t) := by
  obtain ⟨a, b, hmarks, ha, hb⟩ := h.marks_trim
  rw [hmarks, firmRuns_append_blank _ hb, firmRuns_blank_append ha]

/-! ## Spaces in strings -/

/-- A space that is firm stands in a string, which goes on behind it. -/
def GoesOn (m n : Mark) : Prop := m.isFirm = true → m.char = ' ' → n.isFirm = true

theorem goesOn_marksFrom {p : Phase} {s : State} (hs : Sane (p, s)) (hp : p = .free ∨ p = .escaped)
    (hb : s.inBlock = false) {t : Text} (ht : ∀ m ∈ marksFrom p s t, m.isComment = false) :
    (marksFrom p s t).IsChain GoesOn := by
  induction t generalizing p s with
  | nil => exact .nil
  | cons c r ih =>
    rw [marksFrom_cons] at ht ⊢
    obtain ⟨hm, hr⟩ := List.forall_mem_cons.mp ht
    obtain ⟨hp', hb', -⟩ := step_quiet hp hb hm
    refine List.isChain_cons.mpr ⟨?_, ih (hs.step c _) hp' hb' hr⟩
    intro n hn hfirm hspace
    cases r with
    | nil => cases hn
    | cons d r =>
      obtain rfl : _ = n := by simpa [marksFrom_cons] using hn
      rw [step_char] at hspace
      subst hspace
      -- a string is left behind its quote, and a space is no quote
      by_contra hblank
      obtain ⟨-, hq, -⟩ := code_of_not_firm hp' (hr _ List.mem_cons_self) (by simpa using hblank)
      have hkind : (step p s ' ' (d :: r).head?).1.kind = .string := by
        simpa [Mark.isFirm, show isBlank ' ' = true by decide] using hfirm
      exact absurd (isQuote_of_left hs hkind hq) (by decide)

theorem Clean.goesOn {t : Text} (h : Clean t) : (marks t).IsChain GoesOn :=
  goesOn_marksFrom sane_start (.inl rfl) rfl (List.findIdx?_eq_none_iff.mp h.commentStart?)

/-! ## Collapsing run by run -/

/-- Where collapsing stands: behind the run `u`, or, if that is empty, where a blank is dropped. -/
def Stands (u : List Mark) (last : Option Char) (ms : List Mark) : Prop :=
  u = [] ∧ (last = none ∨ last = some ' ') ∨
    u ≠ [] ∧ last ≠ none ∧ (last = some ' ' → ∀ m ∈ ms.head?, m.isFirm = true)

/-- Behind the run `u`, collapsing goes on with the runs of the text and a space in front of each,
and it keeps these runs. -/
theorem collapseFrom_runs {u : List Mark} {last : Option Char} {ms : List Mark}
    (hu : ∀ m ∈ u, m.isFirm = true) (hstands : Stands u last ms) (h : ms.IsChain GoesOn) :
    firmRuns (u ++ squeezeFrom last ms) = firmRuns (u ++ ms) ∧
      ∃ b, isBlankLine b = true ∧
        u.map Mark.char ++ collapseFrom last ms = spaced (firmRuns (u ++ ms)) ++ b := by
  induction ms generalizing u last with
  | nil =>
    refine ⟨rfl, [], rfl, ?_⟩
    rcases hstands with ⟨rfl, -⟩ | ⟨hne, -⟩
    · rfl
    · rw [collapseFrom, List.append_nil, List.append_nil, List.append_nil, firmRuns_run hu hne,
        spaced_singleton]
  | cons m ms ih =>
    obtain ⟨hnext, hchain⟩ := List.isChain_cons.mp h
    rw [squeezeFrom, collapseFrom_cons]
    cases hfirm : m.isFirm with
    | true =>
      -- the run goes on
      have hu' : ∀ n ∈ u ++ [m], n.isFirm = true := by
        intro n hn
        rcases List.mem_append.mp hn with hn | hn
        · exact hu n hn
        · exact List.mem_singleton.mp hn ▸ hfirm
      have hstands' : Stands (u ++ [m]) (some m.char) ms :=
        .inr ⟨by simp, by simp, fun hspace n hn => hnext n hn hfirm (Option.some.inj hspace)⟩
      simpa using ih hu' hstands' hchain
    | false =>
      simp only [Bool.false_eq_true, ↓reduceIte]
      by_cases hlast : last = none ∨ last = some ' '
      · -- behind a gap and at the beginning a blank is dropped
        obtain rfl : u = [] := by
          rcases hstands with ⟨hnil, -⟩ | ⟨-, hnone, hspace⟩
          · exact hnil
          · have hm := hspace (hlast.resolve_left hnone) m rfl
            rw [hfirm] at hm
            cases hm
        rw [if_pos (by simpa using hlast), if_pos (by simpa using hlast), firmRuns_gap [] hfirm]
        exact ih hu (.inl ⟨rfl, hlast⟩) hchain
      · -- a gap ends the run
        have hne : u ≠ [] := by
          rcases hstands with ⟨-, hgap⟩ | ⟨hne, -⟩
          · exact absurd hgap hlast
          · exact hne
        obtain ⟨hruns, b, hb, htext⟩ := @ih [] (some ' ') (by simp) (.inl ⟨rfl, .inr rfl⟩) hchain
        rw [if_neg (by simpa using hlast), if_neg (by simpa using hlast),
          firmRuns_gap u (not_firm_space hfirm), firmRuns_gap u hfirm, firmRuns_run hu hne]
        refine ⟨congrArg ([u] ++ ·) hruns, ?_⟩
        simp only [List.map_nil, List.nil_append] at htext
        rw [htext]
        by_cases hrest : firmRuns ms = []
        · have hspace : isBlankLine (' ' :: b) = true := by
            rw [isBlankLine, List.all_cons, Bool.and_eq_true]
            exact ⟨by decide, hb⟩
          refine ⟨' ' :: b, hspace, ?_⟩
          rw [hrest, List.append_nil, spaced_singleton, spaced_nil, List.nil_append]
        · refine ⟨b, hb, ?_⟩
          rw [List.singleton_append, spaced_cons u hrest, List.append_assoc, List.cons_append]

/-- Collapsing keeps the runs of firm marks. -/
theorem Clean.firmRuns_collapse {t : Text} (h : Clean t) :
    firmRuns (marks (Scan.collapse t)) = firmRuns (marks t) := by
  obtain ⟨hclean, hmarks⟩ := h.marks_collapseFrom
  have hruns := (@collapseFrom_runs [] none (marks t) (by simp) (.inl ⟨rfl, .inl rfl⟩) h.goesOn).1
  rw [Scan.collapse, hclean.firmRuns_trim, hmarks]
  exact hruns

/-- The collapsed text is written run by run, with one space between two runs. -/
theorem Clean.collapse_eq {t : Text} (h : Clean t) :
    Scan.collapse t = spaced (firmRuns (marks t)) := by
  rw [← collapse_trim, ← h.firmRuns_trim]
  by_cases hne : Text.trim t = []
  · rw [hne]
    rfl
  · obtain ⟨c, hlast, hc, htrim⟩ := collapseFrom_trimmed hne (trim_trim t)
    obtain ⟨-, b, hb, htext⟩ :=
      @collapseFrom_runs [] none (marks (Text.trim t)) (by simp) (.inl ⟨rfl, .inl rfl⟩)
        h.trim.1.goesOn
    simp only [List.map_nil, List.nil_append] at htext
    -- the last character shows, so no blank is left over
    obtain rfl : b = [] := by
      cases hlastBlank : b.getLast? with
      | none => exact List.getLast?_eq_none_iff.mp hlastBlank
      | some d =>
        rw [htext, List.getLast?_append, hlastBlank, Option.some_or, Option.some.injEq] at hlast
        have hblank := List.all_eq_true.mp hb d (List.mem_of_getLast? hlastBlank)
        rw [hlast, hc] at hblank
        cases hblank
    rw [Scan.collapse, htrim, htext, List.append_nil]

/-- In a collapsed text the blanks outside strings are spaces of code. -/
theorem Clean.space_of_not_firm {t : Text} (h : Clean t) {m : Mark}
    (hm : m ∈ marks (Scan.collapse t)) (hfirm : m.isFirm = false) :
    m.char = ' ' ∧ m.kind = .code := by
  have htight := (compact_collapse h.commentStart?).tight
  have hcomment := List.findIdx?_eq_none_iff.mp h.collapse.1.commentStart? m hm
  refine ⟨?_, ?_⟩
  · rcases firm_or_space_of_tight htight m.tag (List.mem_map_of_mem hm) with hf | hspace
    · rw [show isFirmTag m.tag = m.isFirm from rfl, hfirm] at hf
      cases hf
    · exact hspace
  · cases hk : m.kind with
    | code => rfl
    | string => simp [Mark.isFirm, hk] at hfirm
    | comment => simp [Mark.isComment, hk] at hcomment

/-- Collapsing keeps the tokens of a text without comments that ends outside strings. All that is
not a blank outside strings has the same mark before and after; the runs between the blanks are the
same and stand with one space of code between them; the collapsed text holds no comment and ends
outside strings, too, and is not changed when it is collapsed again. -/
theorem collapse_keeps_tokens {t : Text} (hquiet : commentStart? t = none)
    (hclosed : (feed {} t).quote = none) :
    (marks (collapse t)).filter Mark.isFirm = (marks t).filter Mark.isFirm ∧
    firmRuns (marks (collapse t)) = firmRuns (marks t) ∧
    collapse t = spaced (firmRuns (marks t)) ∧
    (∀ m ∈ marks (collapse t), m.isFirm = false → m.char = ' ' ∧ m.kind = .code) ∧
    commentStart? (collapse t) = none ∧ (feed {} (collapse t)).quote = none ∧
    collapse (collapse t) = collapse t := by
  have hclean : Clean t := ⟨closes_of_quote hquiet hclosed, comments_eq_nil.mpr hquiet⟩
  obtain ⟨hcollapsed, hfirm⟩ := hclean.collapse
  refine ⟨hfirm, hclean.firmRuns_collapse, hclean.collapse_eq, fun m hm =>
    hclean.space_of_not_firm hm, hcollapsed.commentStart?, ?_, (compact_collapse hquiet).collapse⟩
  rw [feed_eq]
  exact hcollapsed.closes.quote

/-- A string with blanks and an escaped quote, an arrow sign that a line break cuts in two, and two
slashes with a tab between them. -/
theorem collapse_keeps_tokens_cut_arrow :
    let t := "  f<T>( 'a  \\' ' )\n =\n> [x /\t/ y] ".toList
    let u := "f<T>( 'a  \\' ' ) = > [x / / y]".toList
    commentStart? t = none ∧ (feed {} t).quote = none ∧ collapse t = u ∧
      (marks u).filter Mark.isFirm = (marks t).filter Mark.isFirm ∧
      firmRuns (marks u) = firmRuns (marks t) ∧ u = spaced (firmRuns (marks t)) ∧
      commentStart? u = none ∧ collapse u = u := by
  intro t u
  have hquiet : commentStart? t = none := by decide +kernel
  have hclosed : (feed {} t).quote = none := by decide +kernel
  have hu : collapse t = u := by decide +kernel
  have h := collapse_keeps_tokens hquiet hclosed
  rw [hu] at h
  obtain ⟨hfirm, hruns, hspaced, -, hnone, -, hagain⟩ := h
  exact ⟨hquiet, hclosed, hu, hfirm, hruns, hspaced, hnone, hagain⟩

end SourceLayout.Scan
