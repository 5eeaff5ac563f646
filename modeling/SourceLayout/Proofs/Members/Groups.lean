import Mathlib.Data.List.Forall2
import SourceLayout.Proofs.LineByLine
import SourceLayout.Proofs.Stable.Pieces

/-! Lines cut into members, whatever they hold. Every member is the shortest run of lines that may
be one, so the members of lines are the one way to cut them into such runs. Since nothing that was
read before a member matters to it, a member alone is cut as it is cut among the others. Putting
each member on its own line moves text and leaves all else as it is. -/

namespace SourceLayout.Scan
open Text

/-! ## States that read alike -/

/-- States from which all texts are read alike: the same brackets, strings and comments are open,
and what was read last matters to neither or is the same for both. -/
def State.Same (s s' : State) : Prop := s.Alike s' ∨ s.Bare s'

theorem State.Same.lex {s s' : State} (h : s.Same s') : s.lex = s'.lex := by
  rcases h with halike | hbare
  · exact halike.lex
  · exact hbare.lex

theorem State.Same.quote {s s' : State} (h : s.Same s') : s.quote = s'.quote :=
  congrArg Prod.fst h.lex

theorem State.Same.settled {s s' : State} (h : s.Same s') : s.settled = s'.settled := by
  have hstack : s.stack = s'.stack := by
    rcases h with halike | hbare
    · exact halike.stack
    · rw [hbare.left, hbare.right]
  have hblock : s.inBlock = s'.inBlock := congrArg Prod.snd h.lex
  simp [State.settled, hstack, h.quote, hblock]

theorem same_of_settled {s : State} (h : s.settled = true) : s.Same {} := by
  obtain ⟨hstack, hquote, hblock⟩ := settled_iff.mp h
  exact .inr ⟨hstack, rfl, by rw [State.lex, hquote, hblock]; rfl⟩

theorem State.Same.stateFrom {s s' : State} (h : s.Same s') (p : Phase) (t : Text) :
    (stateFrom p s t).Same (stateFrom p s' t) := by
  induction t generalizing p s s' with
  | nil => exact h
  | cons c r ih =>
    rw [stateFrom_cons, stateFrom_cons]
    rcases h with halike | hbare
    · obtain ⟨-, hphase, hstate⟩ := halike.step p c r.head?
      rw [hphase]
      exact ih (.inl hstate) _
    · obtain ⟨-, hphase, hstate⟩ := hbare.step p c r.head?
      rw [hphase]
      exact ih hstate _

theorem State.Same.feed {s s' : State} (h : s.Same s') (l : Text) : (feed s l).Same (feed s' l) :=
  h.stateFrom .free l

end SourceLayout.Scan

namespace SourceLayout.Member
open Text Scan

/-! ## Blank lines -/

/-- The lines without the blank lines that stand outside string literals, read from state `s`. -/
def shownFrom (s : State) : List Text → List Text
  | [] => []
  | l :: r => if isBlankLine l && s.quote.isNone then shownFrom s r else l :: shownFrom (feed s l) r

def NoGap (s : State) : List Text → Prop
  | [] => True
  | l :: r => (isBlankLine l && s.quote.isNone) = false ∧ NoGap (feed s l) r

theorem noGap_shownFrom (s : State) (ls : List Text) : NoGap s (shownFrom s ls) := by
  induction ls generalizing s with
  | nil => trivial
  | cons l r ih =>
    rw [shownFrom]
    split
    · exact ih s
    · next h => exact ⟨Bool.not_eq_true _ |>.mp h, ih _⟩

theorem noGap_append {s : State} {a b : List Text} :
    NoGap s (a ++ b) ↔ NoGap s a ∧ NoGap (feedAll s a) b := by
  induction a generalizing s with
  | nil => simp [NoGap]
  | cons l a ih => rw [List.cons_append, NoGap, NoGap, ih, and_assoc, feedAll_cons]

theorem NoGap.of_lex {s s' : State} (hs : s.lex = s'.lex) {ls : List Text} (h : NoGap s ls) :
    NoGap s' ls := by
  induction ls generalizing s s' with
  | nil => trivial
  | cons l r ih =>
    have hquote : s.quote = s'.quote := congrArg Prod.fst hs
    exact ⟨hquote ▸ h.1, ih (feed_lex hs l) h.2⟩

/-- Outside strings the first line shows something. -/
theorem NoGap.head {s : State} (hq : s.quote = none) {ls : List Text} (h : NoGap s ls)
    (hne : ls ≠ []) : ∃ l r, ls = l :: r ∧ isBlankLine l = false := by
  obtain ⟨l, r, rfl⟩ := List.exists_cons_of_ne_nil hne
  exact ⟨l, r, rfl, by simpa [hq] using h.1⟩

theorem NoGap.nextStarts_append {s : State} (hq : s.quote = none) {b : List Text} (h : NoGap s b)
    (hb : b ≠ []) (r : List Text) : nextStarts (b ++ r) = nextStarts b := by
  obtain ⟨l, b, rfl, hl⟩ := h.head hq hb
  rw [List.cons_append, nextStarts_cons hl, nextStarts_cons hl]

theorem nextStarts_shownFrom {s : State} (hq : s.quote = none) (ls : List Text) :
    nextStarts (shownFrom s ls) = nextStarts ls := by
  induction ls with
  | nil => rfl
  | cons l r ih =>
    cases hl : isBlankLine l with
    | true =>
      have hskip : nextStarts (l :: r) = nextStarts r := by simp [nextStarts, hl]
      rw [shownFrom, hl, hq, hskip]
      exact ih
    | false =>
      rw [shownFrom, hl, Bool.false_and, if_neg (by simp), nextStarts_cons hl, nextStarts_cons hl]

/-! ## Runs of lines that are one member -/

/-- Lines that are one member: no shorter run of them is whole. -/
structure Single (g : List Text) : Prop where
  ne : g ≠ []
  shown : NoGap {} g
  unsplit : ∀ a b, g = a ++ b → a ≠ [] → b ≠ [] → (feedAll {} a).settled = true →
    isWhole a b = false

/-- Members that follow each other, all whole but perhaps the last. -/
def Series : List (List Text) → Prop
  | [] => True
  | g :: G =>
    Single g ∧ (G ≠ [] → (feedAll {} g).settled = true ∧ isWhole g G.flatten = true) ∧ Series G

theorem delimitFrom_same {s s' : State} (h : s.Same s') (current ls : List Text) :
    delimitFrom s current ls = delimitFrom s' current ls := by
  induction ls generalizing s s' current with
  | nil => rfl
  | cons l r ih =>
    have hnext := h.feed l
    simp only [delimitFrom, h.quote, hnext.settled, ih h, ih hnext]

theorem delimitFrom_shown (s : State) (current ls : List Text) :
    delimitFrom s current (shownFrom s ls) = delimitFrom s current ls := by
  induction ls generalizing s current with
  | nil => rfl
  | cons l r ih =>
    rw [shownFrom, delimitFrom]
    split
    · exact ih s current
    · next hl =>
      rw [delimitFrom, if_neg hl]
      cases hs : (feed s l).settled with
      | false => simp only [hs, Bool.false_and, ih]
      | true =>
        have hnext := nextStarts_shownFrom (settled_iff.mp hs).2.1 r
        simp only [isWhole_congr _ hnext, ih]

/-- Lines are cut into members as early as they can be. -/
theorem series_delimitFrom {current ls : List Text} (hshown : NoGap {} (current.reverse ++ ls))
    (hopen : ∀ a b, current.reverse = a ++ b → a ≠ [] → (feedAll {} a).settled = true →
      isWhole a (b ++ ls) = false) :
    Series (delimitFrom (feedAll {} current.reverse) current ls) ∧
      (delimitFrom (feedAll {} current.reverse) current ls).flatten = current.reverse ++ ls := by
  induction ls generalizing current with
  | nil =>
    rw [List.append_nil] at hshown
    cases current with
    | nil => exact ⟨trivial, rfl⟩
    | cons k current =>
      simp only [List.append_nil] at hopen
      refine ⟨⟨⟨by simp, hshown, fun a b hab ha _ => hopen a b hab ha⟩, by simp, trivial⟩, ?_⟩
      simp [delimitFrom]
  | cons l r ih =>
    have hjoin : current.reverse ++ l :: r = (l :: current).reverse ++ r := by simp
    have hfeed : feed (feedAll {} current.reverse) l = feedAll {} (l :: current).reverse := by
      rw [List.reverse_cons, feedAll_append]
      rfl
    obtain ⟨-, hl, -⟩ := noGap_append.mp hshown
    rw [hjoin] at hshown ⊢
    obtain ⟨hgroup, hrest⟩ := noGap_append.mp hshown
    rw [delimitFrom, if_neg (by simp [hl])]
    simp only [hfeed]
    cases hwhole :
      (feedAll {} (l :: current).reverse).settled && isWhole (l :: current).reverse r with
    | true =>
      obtain ⟨hsettled, hwhole⟩ := (Bool.and_eq_true ..).mp hwhole
      have hfresh := same_of_settled hsettled
      obtain ⟨hseries, hflatten⟩ := @ih [] (hrest.of_lex hfresh.lex) (by
        intro a b hab ha
        exact absurd (List.append_eq_nil_iff.mp hab.symm).1 ha)
      rw [List.reverse_nil, List.nil_append, feedAll_nil] at hflatten
      simp only [↓reduceIte, Series, List.flatten_cons, delimitFrom_same hfresh, hflatten]
      refine ⟨⟨⟨by simp, hgroup, ?_⟩, fun _ => ⟨hsettled, hwhole⟩, hseries⟩, trivial⟩
      intro a b hab ha hb ha'
      have hb' : NoGap (feedAll {} a) b := (noGap_append.mp (hab ▸ hgroup)).2
      rw [List.reverse_cons] at hab
      obtain ⟨rfl, -⟩ | ⟨b', rfl, hcurrent⟩ := concat_eq_append hab
      · exact absurd rfl hb
      have hbefore := hopen a b' hcurrent ha ha'
      rw [List.append_cons] at hbefore
      rw [← hbefore]
      exact isWhole_congr a (hb'.nextStarts_append (settled_iff.mp ha').2.1 hb r).symm
    | false =>
      simp only [Bool.false_eq_true, ↓reduceIte]
      refine @ih (l :: current) hshown ?_
      intro a b hab ha ha'
      rw [List.reverse_cons] at hab
      rcases concat_eq_append hab with ⟨rfl, rfl⟩ | ⟨b', rfl, hcurrent⟩
      · rw [List.reverse_cons, ha', Bool.true_and] at hwhole
        exact hwhole
      · rw [List.append_assoc]
        exact hopen a b' hcurrent ha ha'

/-- A member is read up to its end. -/
theorem delimitFrom_single {current b rest : List Text} (hg : Single (current.reverse ++ b))
    (hb : b ≠ []) (hend : rest ≠ [] → (feedAll {} (current.reverse ++ b)).settled = true ∧
      isWhole (current.reverse ++ b) rest = true) :
    delimitFrom (feedAll {} current.reverse) current (b ++ rest) =
      (current.reverse ++ b) :: delimitFrom (feedAll {} (current.reverse ++ b)) [] rest := by
  induction b generalizing current with
  | nil => exact absurd rfl hb
  | cons l b ih =>
    have hjoin : current.reverse ++ l :: b = (l :: current).reverse ++ b := by simp
    have hfeed : feed (feedAll {} current.reverse) l = feedAll {} (l :: current).reverse := by
      rw [List.reverse_cons, feedAll_append]
      rfl
    obtain ⟨-, hl, -⟩ := noGap_append.mp hg.shown
    rw [hjoin] at hg hend ⊢
    rw [List.cons_append, delimitFrom, if_neg (by simp [hl])]
    simp only [hfeed]
    cases b with
    | nil =>
      rw [List.append_nil] at hend ⊢
      rw [List.nil_append]
      cases hwhole : (feedAll {} (l :: current).reverse).settled &&
        isWhole (l :: current).reverse rest with
      | true => rfl
      | false =>
        cases rest with
        | nil => simp [delimitFrom]
        | cons k rest =>
          obtain ⟨hsettled, hw⟩ := hend (List.cons_ne_nil k rest)
          rw [hsettled, hw] at hwhole
          cases hwhole
    | cons k b =>
      have hno : ((feedAll {} (l :: current).reverse).settled &&
          isWhole (l :: current).reverse (k :: b ++ rest)) = false := by
        cases hsettled : (feedAll {} (l :: current).reverse).settled with
        | false => rfl
        | true =>
          have hpart := hg.unsplit _ _ rfl (by simp) (List.cons_ne_nil k b) hsettled
          have hrest := (noGap_append.mp hg.shown).2
          rw [Bool.true_and, ← hpart]
          exact isWhole_congr _ (hrest.nextStarts_append (settled_iff.mp hsettled).2.1
            (List.cons_ne_nil k b) rest)
      rw [hno]
      exact ih hg (List.cons_ne_nil k b) hend

theorem delimit_of_series {G : List (List Text)} (h : Series G) : delimit G.flatten = G := by
  induction G with
  | nil => rfl
  | cons g G ih =>
    obtain ⟨hsingle, hend, hseries⟩ := h
    have hdelimit := @delimitFrom_single [] g G.flatten hsingle hsingle.ne
      (fun hne => hend (by rintro rfl; exact hne rfl))
    rw [List.flatten_cons]
    refine hdelimit.trans (congrArg (List.cons g) ?_)
    by_cases hne : G = []
    · subst hne
      rfl
    · rw [List.reverse_nil, List.nil_append, delimitFrom_same (same_of_settled (hend hne).1)]
      exact ih hseries

/-- The members of lines are the one way to cut what is shown of them into runs that are whole
where another follows. -/
theorem delimit_eq_iff_series (ls : List Text) (G : List (List Text)) :
    delimit ls = G ↔ Series G ∧ G.flatten = shownFrom {} ls := by
  have hshown : delimit (shownFrom {} ls) = delimit ls := delimitFrom_shown {} [] ls
  rw [← hshown]
  constructor
  · rintro rfl
    exact @series_delimitFrom [] (shownFrom {} ls) (noGap_shownFrom {} ls)
      (fun a b hab ha => absurd (List.append_eq_nil_iff.mp hab.symm).1 ha)
  · rintro ⟨hseries, hflatten⟩
    rw [← hflatten]
    exact delimit_of_series hseries

theorem Series.single {G : List (List Text)} (h : Series G) : ∀ g ∈ G, Single g := by
  induction G with
  | nil => simp
  | cons g G ih => exact List.forall_mem_cons.mpr ⟨h.1, ih h.2.2⟩

/-- A member alone is one member. -/
theorem Single.delimit_eq {g : List Text} (h : Single g) : delimit g = [g] := by
  have hseries : Series [g] := ⟨h, by simp, trivial⟩
  have heq := delimit_of_series hseries
  rwa [List.flatten_cons, List.flatten_nil, List.append_nil] at heq

/-! ## Members that have their own lines -/

/-- Reading the members of a line one after the other opens and closes the strings and
comments of the line. -/
theorem lex_onLine {indent : Text} (hi : isBlankLine indent = true) {s : State} (t : Text)
    (hs : s.quote = none ∧ s.inBlock = false) :
    (feedAll s ((onLine t).map (indent ++ ·))).lex = (feed s t).lex := by
  induction hlen : t.length using Nat.strongRecOn generalizing s t with
  | ind n ih =>
    rcases uncut_or_closed t with hcut | ⟨q, v, rfl, hq⟩
    · rw [onLine_uncut hcut]
      split
      · next hnil => rw [List.map_nil, feedAll_nil, ← feed_trim hs.1, hnil]; rfl
      · rw [List.map_singleton, feedAll_cons, feedAll_nil, feed_reindent hs.1 hi]
    · obtain ⟨-, hlex⟩ := hq.lex hs
      have hfeed := hq.feed_append hs v
      by_cases hmerge : Uncut v ∧ trim v ≠ [] ∧ startsComment (trim v) = true
      · obtain ⟨hv, hnil, hc⟩ := hmerge
        have hsame : feed s (trim q ++ ' ' :: trim v) = feed (feed s q) v := by
          rw [hq.trim.feed_append hs _, feed_trim hs.1, ← List.singleton_append,
            feed_reindent hlex.1 rfl]
        rw [onLine_merge hq hv hnil hc, List.map_singleton, feedAll_cons, feedAll_nil,
          feed_blank_append hs.1 hi _, hsame, hfeed]
      · have hshorter : v.length < n := by
          have hpos := List.length_pos_iff.mpr hq.ne_nil
          rw [← hlen, List.length_append]
          omega
        rw [onLine_cons hq hmerge, List.map_append, feedAll_append, hfeed]
        unfold kept
        split
        · next hlone =>
          have hsame : s.lex = (feed s q).lex := by rw [← feed_trim hs.1, hlone, feed_lone hs]; rfl
          rw [List.map_nil, feedAll_nil, ih v.length hshorter v hs rfl]
          exact feed_lex hsame v
        · rw [List.map_singleton, feedAll_cons, feedAll_nil, feed_reindent hs.1 hi]
          exact ih v.length hshorter v hlex rfl

/-- Putting each member on its own line once is enough. -/
theorem allStay_expandFrom (s : State) (ls : List Text) : AllStay s (expandFrom s ls) := by
  induction ls generalizing s with
  | nil => trivial
  | cons l r ih =>
    have hcarries : s.carries = (s.inBlock || s.quote.isSome) := rfl
    rw [expandFrom, ← hcarries]
    cases hl : stays s.carries (trim l) with
    | true =>
      rw [expandLine_of_stays hl, List.singleton_append]
      exact ⟨hl, ih (feed s l)⟩
    | false =>
      obtain ⟨hno, hparts⟩ := expandLine_of_not_stays hl
      have hs : s.quote = none ∧ s.inBlock = false := by
        rw [hcarries, Bool.or_eq_false_iff, Option.isSome_eq_false_iff, Option.isNone_iff_eq_none]
          at hno
        exact hno.symm
      have hlex := lex_onLine (isBlankLine_indentOf l) (trim l) hs
      rw [feed_trim hs.1] at hlex
      rw [hparts, allStay_append]
      refine ⟨?_, (ih (feed s l)).of_lex hlex.symm⟩
      apply allStay_of_short
      intro k hk
      obtain ⟨p, hp, rfl⟩ := List.mem_map.mp hk
      rw [trim_blank_append (isBlankLine_indentOf l), (mem_onLine hp).1]
      exact (mem_onLine hp).2

theorem AllStay.shown {s : State} {ls : List Text} (h : AllStay s ls) :
    AllStay s (shownFrom s ls) := by
  induction ls generalizing s with
  | nil => trivial
  | cons l r ih =>
    rw [shownFrom]
    split
    · next hl =>
      -- a blank line outside strings does nothing
      rw [Bool.and_eq_true, Option.isNone_iff_eq_none] at hl
      have hrest := h.2
      rw [feed_blank hl.2 hl.1] at hrest
      exact ih hrest
    · exact ⟨h.1, ih h.2⟩

/-- The lines of every member keep to themselves. -/
theorem Series.allStay {G : List (List Text)} (h : Series G) (hstay : AllStay {} G.flatten) :
    ∀ g ∈ G, AllStay {} g := by
  induction G with
  | nil => simp
  | cons g G ih =>
    obtain ⟨-, hend, hseries⟩ := h
    rw [List.flatten_cons, allStay_append] at hstay
    refine List.forall_mem_cons.mpr ⟨hstay.1, ?_⟩
    by_cases hne : G = []
    · simp [hne]
    · exact ih hseries (hstay.2.of_lex (same_of_settled (hend hne).1).lex)

/-! ## What becomes of a line -/

/-- A text and the members on it: each is a part of the text up to a semicolon outside brackets, or
what follows the last one, without the blanks around it. Lone semicolons are left out, and a comment
that follows the last semicolon stays with its member, one space behind it. -/
inductive Spread : Text → List Text → Prop
  | blank {t : Text} (ht : isBlankLine t = true) : Spread t []
  | last {t : Text} (ht : Uncut t) (hne : trim t ≠ []) : Spread t [trim t]
  | lone {q v : Text} {ps : List Text} (hq : trim q = [';']) (h : Spread v ps) : Spread (q ++ v) ps
  | member {q v : Text} {ps : List Text} (hq : Closed q) (h : Spread v ps) :
    Spread (q ++ v) (trim q :: ps)
  | comment {q v : Text} (hq : Closed q) (hv : Uncut v) (hc : startsComment (trim v) = true) :
      Spread (q ++ v) [trim q ++ ' ' :: trim v]

theorem spread_onLine (t : Text) : Spread t (onLine t) := by
  induction hlen : t.length using Nat.strongRecOn generalizing t with
  | ind n ih =>
    rcases uncut_or_closed t with hcut | ⟨q, v, rfl, hq⟩
    · rw [onLine_uncut hcut]
      split
      · next hnil => exact .blank (isBlankLine_of_trim hnil)
      · next hne => exact .last hcut hne
    · by_cases hmerge : Uncut v ∧ trim v ≠ [] ∧ startsComment (trim v) = true
      · obtain ⟨hv, hnil, hc⟩ := hmerge
        rw [onLine_merge hq hv hnil hc]
        exact .comment hq hv hc
      · have hrest : Spread v (onLine v) := by
          refine ih v.length ?_ v rfl
          have hpos := List.length_pos_iff.mpr hq.ne_nil
          rw [← hlen, List.length_append]
          omega
        rw [onLine_cons hq hmerge, kept]
        split
        · next hlone => exact .lone hlone hrest
        · exact .member hq hrest

/-- A line stays as it is, or its members stand on lines of their own with its indentation. -/
def SpreadLine (l : Text) (out : List Text) : Prop :=
  out = [l] ∨ ∃ ps, Spread (trim l) ps ∧ out = ps.map (indentOf l ++ ·)

theorem expandFrom_spread (s : State) (ls : List Text) :
    ∃ parts, expandFrom s ls = parts.flatten ∧ List.Forall₂ SpreadLine ls parts := by
  induction ls generalizing s with
  | nil => exact ⟨[], rfl, .nil⟩
  | cons l r ih =>
    obtain ⟨parts, hparts, hall⟩ := ih (feed s l)
    refine ⟨expandLine (s.inBlock || s.quote.isSome) l :: parts, ?_, .cons ?_ hall⟩
    · rw [expandFrom, hparts, List.flatten_cons]
    · cases hl : stays (s.inBlock || s.quote.isSome) (trim l) with
      | true => exact .inl (expandLine_of_stays hl)
      | false => exact .inr ⟨_, spread_onLine (trim l), (expandLine_of_not_stays hl).2⟩

/-! ## Members of lines -/

/-- Cutting lines into members loses nothing and is stable. Every member has a line, and its first
line shows something; one after the other the members are the lines that show something or stand in
a string, each member on its own line; cutting them again, together or one alone, gives the same
members. And putting members on their own lines only moves text to lines with the indentation of the
line it comes from, drops blanks and lone semicolons, and sets off a comment behind the last
semicolon by one space. -/
theorem members_lossless (ls : List Text) :
    (∀ g ∈ delimit (expandLines ls), ∃ l r, g = l :: r ∧ isBlankLine l = false) ∧
    (delimit (expandLines ls)).flatten = shownFrom {} (expandLines ls) ∧
    delimit (expandLines (delimit (expandLines ls)).flatten) = delimit (expandLines ls) ∧
    (∀ g ∈ delimit (expandLines ls), delimit (expandLines g) = [g]) ∧
    ∃ parts, expandLines ls = parts.flatten ∧ List.Forall₂ SpreadLine ls parts := by
  obtain ⟨hseries, hflatten⟩ := (delimit_eq_iff_series (expandLines ls) _).mp rfl
  have hstay : AllStay {} (delimit (expandLines ls)).flatten := by
    rw [hflatten]
    exact (allStay_expandFrom {} ls).shown
  have hexpand {g : List Text} (hg : AllStay {} g) : expandLines g = g := expandFrom_of_allStay hg
  refine ⟨?_, hflatten, ?_, ?_, expandFrom_spread {} ls⟩
  · intro g hg
    have hsingle := hseries.single g hg
    exact hsingle.shown.head rfl hsingle.ne
  · rw [hexpand hstay]
    exact delimit_of_series hseries
  · intro g hg
    rw [hexpand (hseries.allStay hstay g hg)]
    exact (hseries.single g hg).delimit_eq

/-- Text is not only moved and dropped: a comment that follows the last semicolon at once is set off
by a space that the line does not have. -/
theorem expandLines_adds_space :
    expandLines ["a; b;// c".toList] = ["a;".toList, "b; // c".toList] ∧
      ¬(expandLines ["a; b;// c".toList]).flatten.Sublist "a; b;// c".toList := by
  decide

end SourceLayout.Member
