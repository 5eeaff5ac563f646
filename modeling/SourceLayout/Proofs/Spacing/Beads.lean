import SourceLayout.Proofs.Collapse
import SourceLayout.Proofs.Lines

/-! What stands between the letters of a text. A text is respaced if it keeps its letters and if two
neighbours are set apart by a separator or a line break only where they were before, behind a
bracket that opens, or in front of one that closes. Trimming and collapsing respace a text, and
respaced pieces make up a respaced whole. -/

namespace SourceLayout.Text
open Scan

/-! ## Letters and what sets them apart -/

/-- A character that is neither blank nor a separator nor a colon. -/
def isLetter (c : Char) : Bool := isInk c && c != ':'

def letters (t : Text) : Text := t.filter isLetter

/-- A character that sets apart what stands on its two sides: a separator or a line break. -/
def isDivider (c : Char) : Bool := c == ';' || c == ',' || c == '\n'

/-- The letters of a text, each with whether it is set apart from the one before it. `divided` says
whether a divider stands right before the text. -/
def beadsFrom (divided : Bool) : Text → List (Char × Bool)
  | [] => []
  | c :: r =>
    if isLetter c then (c, divided) :: beadsFrom false r else beadsFrom (divided || isDivider c) r

def beads (t : Text) : List (Char × Bool) := beadsFrom false t

def dividedFrom (divided : Bool) : Text → Bool
  | [] => divided
  | c :: r => if isLetter c then dividedFrom false r else dividedFrom (divided || isDivider c) r

theorem letters_append (a b : Text) : letters (a ++ b) = letters a ++ letters b :=
  List.filter_append ..

theorem letters_eq (t : Text) : letters t = (ink t).filter (· != ':') := by
  rw [ink, List.filter_filter]
  exact List.filter_congr fun c _ => Bool.and_comm ..

theorem letters_blank {t : Text} (h : isBlankLine t = true) : letters t = [] := by
  rw [letters_eq, ink_blank h]
  rfl

theorem map_fst_beadsFrom (s : Bool) (t : Text) : (beadsFrom s t).map Prod.fst = letters t := by
  induction t generalizing s with
  | nil => rfl
  | cons c r ih =>
    rw [beadsFrom, letters, List.filter_cons]
    split
    · exact congrArg (List.cons c) (ih false)
    · exact ih _

theorem length_beadsFrom (s : Bool) (t : Text) : (beadsFrom s t).length = (letters t).length := by
  rw [← map_fst_beadsFrom s, List.length_map]

theorem beadsFrom_append (s : Bool) (a b : Text) :
    beadsFrom s (a ++ b) = beadsFrom s a ++ beadsFrom (dividedFrom s a) b := by
  induction a generalizing s with
  | nil => rfl
  | cons c a ih =>
    rw [List.cons_append, beadsFrom, beadsFrom, dividedFrom]
    split
    · rw [ih, List.cons_append]
    · exact ih _

theorem dividedFrom_append (s : Bool) (a b : Text) :
    dividedFrom s (a ++ b) = dividedFrom (dividedFrom s a) b := by
  induction a generalizing s with
  | nil => rfl
  | cons c a ih =>
    rw [List.cons_append, dividedFrom, dividedFrom]
    split
    · exact ih false
    · exact ih _

/-- A gap is a text without letters. -/
theorem beadsFrom_gap {g : Text} (h : letters g = []) (s : Bool) : beadsFrom s g = [] := by
  rw [← List.map_eq_nil_iff (f := Prod.fst), map_fst_beadsFrom, h]

theorem dividedFrom_gap {g : Text} (h : letters g = []) (s : Bool) :
    dividedFrom s g = (s || g.any isDivider) := by
  induction g generalizing s with
  | nil => simp [dividedFrom]
  | cons c g ih =>
    rw [letters, List.filter_eq_nil_iff] at h
    obtain ⟨hc, hg⟩ := List.forall_mem_cons.mp h
    rw [dividedFrom, if_neg hc, ih (List.filter_eq_nil_iff.mpr hg), List.any_cons, Bool.or_assoc]

theorem beadsFrom_letter {c : Char} (h : isLetter c = true) (s : Bool) (r : Text) :
    beadsFrom s (c :: r) = (c, s) :: beadsFrom false r := by
  rw [beadsFrom, if_pos h]

/-! ## Respaced texts -/

def atOpening (before : Option Char) : Bool := before.all isOpener

/-- The second letters are the first ones, and set apart only if those are, behind a bracket
that opens, or if they are brackets that close. `before` stands in front of the letters,
`last` is the last one. -/
inductive Follows : Option Char → List (Char × Bool) → List (Char × Bool) → Option Char → Prop
  | nil (before : Option Char) : Follows before [] [] before
  | cons {before last : Option Char} {c : Char} {s s' : Bool} {bs bs' : List (Char × Bool)}
      (h : s' = true → s = true ∨ atOpening before = true ∨ isCloser c = true)
      (r : Follows (some c) bs bs' last) : Follows before ((c, s) :: bs) ((c, s') :: bs') last

/-- A divider may stand in the second text where one stands in the first, or
where a bracket opens. -/
def Allowed (before : Option Char) (s s' : Bool) : Prop :=
  s' = true → s = true ∨ atOpening before = true

/-- Read behind `before`, and behind a divider or not as `s` and `s'` say, the letters of
`a'` follow those of `a`. -/
abbrev Carries (before : Option Char) (s s' : Bool) (a a' : Text) : Prop :=
  ∃ last, Follows before (beadsFrom s a) (beadsFrom s' a') last ∧
    Allowed last (dividedFrom s a) (dividedFrom s' a')

/-- The text `a'` is the text `a` with other gaps, in which no letters are set apart that were not
before, brackets aside. -/
def Respaces (a a' : Text) : Prop := ∀ before s s', Allowed before s s' → Carries before s s' a a'

namespace Follows

variable {before middle last last' : Option Char} {x x' x'' y y' : List (Char × Bool)}

theorem append (h : Follows before x x' middle) (h' : Follows middle y y' last) :
    Follows before (x ++ y) (x' ++ y') last := by
  induction h with
  | nil => exact h'
  | cons hc _ ih => exact .cons hc (ih h')

theorem trans (h : Follows before x x' last) (h' : Follows before x' x'' last') :
    Follows before x x'' last ∧ last' = last := by
  induction h generalizing x'' with
  | nil =>
    cases h'
    exact ⟨.nil _, rfl⟩
  | cons hc _ ih =>
    cases h' with
    | cons hc' hr' =>
      obtain ⟨hr, hlast⟩ := ih hr'
      refine ⟨.cons (fun hs => ?_) hr, hlast⟩
      rcases hc' hs with hs' | hfree
      · exact hc hs'
      · exact .inr hfree

theorem map_fst_eq (h : Follows before x x' last) : x'.map Prod.fst = x.map Prod.fst := by
  induction h with
  | nil => rfl
  | cons _ _ ih => rw [List.map_cons, List.map_cons, ih]

/-- A letter that is not set apart from a letter before it that opens no bracket, and that
closes none, stays so. -/
theorem getElem?_false {i : Nat} {b c : Char} {s : Bool} (h : Follows before x x' last)
    (hb : x[i]? = some (b, s)) (hopen : isOpener b = false) (hc : x[i + 1]? = some (c, false))
    (hclose : isCloser c = false) : x'[i + 1]? = some (c, false) := by
  induction h generalizing i with
  | nil => cases hb
  | @cons before last d t t' bs bs' _ r ih =>
    cases i with
    | succ i => exact ih hb hc
    | zero =>
      cases hb
      cases r with
      | nil => cases hc
      | @cons _ _ e u u' cs cs' hu _ =>
        cases hc
        have hfalse : u' = false := by
          rw [Bool.eq_false_iff]
          intro htrue
          rcases hu htrue with h | h | h
          · cases h
          · rw [show atOpening (some b) = isOpener b from rfl, hopen] at h
            cases h
          · rw [hclose] at h
            cases h
        simp [hfalse]

end Follows

theorem Carries.append {before : Option Char} {s s' : Bool} {a a' b b' : Text}
    (h : Carries before s s' a a') (h' : Respaces b b') :
    Carries before s s' (a ++ b) (a' ++ b') := by
  obtain ⟨middle, hfollows, hmiddle⟩ := h
  obtain ⟨last, hfollows', hlast⟩ := h' middle _ _ hmiddle
  refine ⟨last, ?_, ?_⟩
  · rw [beadsFrom_append, beadsFrom_append]
    exact hfollows.append hfollows'
  · rwa [dividedFrom_append, dividedFrom_append]

namespace Respaces

variable {a a' a'' b b' g g' : Text}

theorem append (h : Respaces a a') (h' : Respaces b b') : Respaces (a ++ b) (a' ++ b') :=
  fun before s s' hs => Carries.append (h before s s' hs) h'

theorem trans (h : Respaces a a') (h' : Respaces a' a'') : Respaces a a'' := by
  intro before s s' hs
  obtain ⟨last, hfollows, hlast⟩ := h before s s' hs
  obtain ⟨last', hfollows', hlast'⟩ := h' before s' s' fun hs => .inl hs
  obtain ⟨hboth, rfl⟩ := hfollows.trans hfollows'
  refine ⟨last', hboth, fun hs => ?_⟩
  rcases hlast' hs with hs | hopen
  · exact hlast hs
  · exact .inr hopen

theorem letter (c : Char) : Respaces [c] [c] := by
  intro before s s' hs
  cases hc : isLetter c with
  | true =>
    simp only [Carries, beadsFrom, dividedFrom, hc, if_true]
    exact ⟨some c, .cons (fun h => (hs h).imp_right .inl) (.nil _), fun h => nomatch h⟩
  | false =>
    simp only [Carries, beadsFrom, dividedFrom, hc, Bool.false_eq_true, if_false]
    refine ⟨before, .nil _, fun h => ?_⟩
    rw [Bool.or_eq_true] at h
    rcases h with h | h
    · rcases hs h with h | h
      · exact .inl (by simp [h])
      · exact .inr h
    · exact .inl (by simp [h])

theorem refl (a : Text) : Respaces a a := by
  induction a with
  | nil => exact fun before s s' hs => ⟨before, .nil _, hs⟩
  | cons c a ih => exact (letter c).append ih

/-- A gap may be any other gap that does not set things apart if it does not. -/
theorem gap (hg : letters g = []) (hg' : letters g' = [])
    (h : g'.any isDivider = true → g.any isDivider = true) :
    Respaces g g' := by
  intro before s s' hs
  rw [Carries, beadsFrom_gap hg, beadsFrom_gap hg', dividedFrom_gap hg, dividedFrom_gap hg']
  refine ⟨before, .nil _, fun hd => ?_⟩
  rw [Bool.or_eq_true] at hd
  rcases hd with hd | hd
  · exact (hs hd).imp_left fun h => by simp [h]
  · exact .inl (by simp [h hd])

theorem drop_gap (hg : letters g = []) : Respaces g [] := gap hg rfl fun h => nomatch h

/-- Blanks and other gaps that set nothing apart may be added. -/
theorem pad (h : Respaces a a') (hg : letters g = []) (hd : g.any isDivider = false) :
    Respaces a (a' ++ g) := by
  have hboth := h.append (gap (g := []) rfl hg fun h => by rw [hd] at h; cases h)
  rwa [List.append_nil] at hboth

theorem letters_eq (h : Respaces a a') : letters a' = letters a := by
  obtain ⟨last, hfollows, -⟩ := h none false false fun hs => nomatch hs
  have hfst := hfollows.map_fst_eq
  rwa [map_fst_beadsFrom, map_fst_beadsFrom] at hfst

theorem trimRight (t : Text) : Respaces t (Text.trimRight t) := by
  obtain ⟨b, hb, hblank⟩ := trimRight_append t
  have hparts := (refl (Text.trimRight t)).append (drop_gap (letters_blank hblank))
  rwa [← hb, List.append_nil] at hparts

theorem trim (t : Text) : Respaces t (Text.trim t) := by
  have hparts := (drop_gap (letters_blank (isBlankLine_indentOf t))).append (refl (trimLeft t))
  rw [indentOf_append_trimLeft, List.nil_append] at hparts
  exact hparts.trans (trimRight _)

theorem collapseFrom (last : Option Char) (ms : List Mark) :
    Respaces (ms.map Mark.char) (Scan.collapseFrom last ms) := by
  induction ms generalizing last with
  | nil => exact refl []
  | cons m ms ih =>
    rw [List.map_cons, Scan.collapseFrom]
    split
    · next hm =>
      simp only [Bool.and_eq_true] at hm
      have hgap : letters [m.char] = [] := letters_blank (by simp [isBlankLine, hm.2])
      split
      · exact (drop_gap hgap).append (ih last)
      · have hspace : Respaces [m.char] [' '] := gap hgap rfl fun h => absurd h (by decide)
        exact hspace.append (ih _)
    · exact (letter m.char).append (ih _)

theorem collapse (t : Text) : Respaces t (Scan.collapse t) := by
  have hmarks := collapseFrom none (marks t)
  rw [map_char_marks] at hmarks
  exact hmarks.trans (trim _)

end Respaces

/-! ## Behind a divider -/

/-- As `Respaces`, for a text behind a divider or behind a bracket that opens: there
anything may be set apart. -/
def RespacesBehind (a a' : Text) : Prop :=
  ∀ before s s', (s = true ∨ atOpening before = true) → Carries before s s' a a'

/-- A gap in front of a bracket that closes may be any other. -/
theorem Respaces.closer {c : Char} (hc : isCloser c = true) {g g' : Text} (hg : letters g = [])
    (hg' : letters g' = []) : Respaces (g ++ [c]) (g' ++ [c]) := by
  have hletter : isLetter c = true := by
    rw [isCloser, Option.isSome_iff_exists] at hc
    obtain ⟨o, ho⟩ := hc
    unfold openerOf at ho
    split at ho <;> first | decide | cases ho
  intro before s s' _
  refine ⟨some c, ?_, ?_⟩
  · rw [beadsFrom_append, beadsFrom_append, beadsFrom_gap hg, beadsFrom_gap hg',
      beadsFrom_letter hletter, beadsFrom_letter hletter]
    exact .cons (fun _ => .inr (.inr hc)) (.nil _)
  · simp only [dividedFrom_append, dividedFrom, hletter, if_true]
    exact fun h => nomatch h

theorem Respaces.behind {a a' : Text} (h : Respaces a a') : RespacesBehind a a' :=
  fun before s s' hs => h before s s' fun _ => hs

namespace RespacesBehind

variable {a a' b b' g g' : Text}

theorem append (h : RespacesBehind a a') (h' : Respaces b b') :
    RespacesBehind (a ++ b) (a' ++ b') :=
  fun before s s' hs => Carries.append (h before s s' hs) h'

theorem gap_append (hg' : letters g' = []) (h : RespacesBehind b b') :
    RespacesBehind b (g' ++ b') := by
  intro before s s' hs
  rw [Carries, beadsFrom_append, beadsFrom_gap hg', dividedFrom_append]
  exact h before s _ hs

/-- What stands behind a piece and a divider may be set apart from the piece. -/
theorem piece {d : Char} (hd : isDivider d = true) (h : RespacesBehind a a')
    (h' : RespacesBehind b b') : RespacesBehind (a ++ d :: b) (a' ++ b') := by
  have hletter : isLetter d = false := by
    simp only [isDivider, Bool.or_eq_true, beq_iff_eq] at hd
    rcases hd with (rfl | rfl) | rfl <;> rfl
  have hbeads : ∀ s, beadsFrom s (a ++ d :: b) = beadsFrom s a ++ beadsFrom true b := by
    intro s
    rw [beadsFrom_append, beadsFrom, hletter, hd, Bool.or_true]
    rfl
  have hdivided : ∀ s, dividedFrom s (a ++ d :: b) = dividedFrom true b := by
    intro s
    rw [dividedFrom_append, dividedFrom, hletter, hd, Bool.or_true]
    rfl
  intro before s s' hs
  obtain ⟨middle, hfollows, -⟩ := h before s s' hs
  obtain ⟨last, hfollows', hlast⟩ := h' middle true (dividedFrom s' a') (.inl rfl)
  refine ⟨last, ?_, ?_⟩
  · rw [hbeads, beadsFrom_append]
    exact hfollows.append hfollows'
  · rwa [hdivided, dividedFrom_append]

theorem opener {o : Char} (ho : isOpener o = true) (h : RespacesBehind b b') :
    Respaces (o :: b) (o :: b') := by
  have hletter : isLetter o = true := by
    simp only [isOpener, Bool.or_eq_true, beq_iff_eq] at ho
    rcases ho with ((rfl | rfl) | rfl) | rfl <;> decide
  intro before s s' hs
  obtain ⟨last, hfollows, hlast⟩ := h (some o) false false (.inr ho)
  rw [Carries, beadsFrom_letter hletter, beadsFrom_letter hletter, dividedFrom, dividedFrom,
    if_pos hletter, if_pos hletter]
  exact ⟨last, .cons (fun h => (hs h).imp_right .inl) hfollows, hlast⟩

end RespacesBehind

end SourceLayout.Text
