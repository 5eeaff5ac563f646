import SourceLayout.Member.Basic
import SourceLayout.Proofs.Lexing

/-! Ending a member. Of what is added only a semicolon is code and nothing is comment; the
semicolon is put in front of the first comment, and so it ends the code unless more code
stands behind that comment. -/

namespace SourceLayout.Scan
open Text

def comments (t : Text) : Text := ((marks t).filter Mark.isComment).map Mark.char

theorem comments_eq (t : Text) : comments t = ((tags t).filter (·.2 == .comment)).map (·.1) := by
  rw [tags, List.filter_map, List.map_map]
  rfl

theorem withoutComments_eq (t : Text) :
    withoutComments t = ((tags t).filter fun x => x.2 != .comment || x.1 == '\n').map (·.1) := by
  rw [tags, List.filter_map, List.map_map]
  rfl

theorem Parted.comments {u v : Text} (h : Parted u v) :
    Scan.comments (u ++ v) = Scan.comments u ++ Scan.comments v := by
  rw [comments_eq, comments_eq, comments_eq, h.tags, List.filter_append, List.map_append]

theorem Parted.withoutComments {u v : Text} (h : Parted u v) :
    Scan.withoutComments (u ++ v) = Scan.withoutComments u ++ Scan.withoutComments v := by
  rw [withoutComments_eq, withoutComments_eq, withoutComments_eq, h.tags, List.filter_append,
    List.map_append]

theorem withoutComments_of_none {t : Text} (h : commentStart? t = none) :
    withoutComments t = t := by
  have hnone := List.findIdx?_eq_none_iff.mp h
  have hall : ∀ m ∈ marks t, (!m.isComment || m.char == '\n') = true := fun m hm => by
    rw [hnone m hm]; rfl
  rw [withoutComments, List.filter_eq_self.mpr hall, map_char_marks]

theorem comments_of_none {t : Text} (h : commentStart? t = none) : comments t = [] := by
  have hnone := List.findIdx?_eq_none_iff.mp h
  rw [comments, List.filter_eq_nil_iff.mpr fun m hm => by simp [hnone m hm], List.map_nil]

end SourceLayout.Scan

namespace SourceLayout.Member
open Text Scan

/-- The code of a member, without its comments and the blanks at its end. -/
def code (t : Text) : Text := trimRight (withoutComments t)

/-- Whether the code of a member ends where a semicolon is put: at the end of the text, or in front
of the first comment. -/
def codeEndsAtCut (t : Text) : Bool :=
  match commentStart? t with
  | none => trimRight t == t
  | some cut => isBlankLine (withoutComments (t.drop cut))

/-- What a member can become: nothing is added, or a semicolon ends it, or a semicolon stands in
front of its first comment. -/
theorem terminate_cases (t : Text) :
    terminate t = t ∨ (commentStart? t = none ∧ Closes t ∧ terminate t = t ++ [';']) ∨
      ∃ cut, commentStart? t = some cut ∧
        terminate t = trimRight (t.take cut) ++ ([';', ' '] ++ t.drop cut) := by
  unfold terminate
  simp only
  split
  · exact .inl rfl
  · split
    · exact .inl rfl
    · next hsettled =>
      split
      · exact .inl rfl
      · cases h : commentStart? t with
        | none => exact .inr (.inl ⟨rfl, closes_of_settled (by simpa using hsettled) h, rfl⟩)
        | some cut => exact .inr (.inr ⟨cut, rfl, by simp⟩)

/-- What is written behind the code and in front of a comment is read by itself. -/
theorem parted_semicolon {u : Text} (hu : Closes u) (v : Text) :
    Parted u ([';', ' '] ++ v) ∧ Parted [';', ' '] v := by
  constructor
  · exact hu.parted (.inr (by simp))
  · exact Closes.parted ⟨rfl, rfl⟩ (.inl (by simp [joins]))

/-- Of a member that is ended, the text before its first comment and the rest are read one after the
other, and so is the semicolon between them. -/
theorem read_terminate {t : Text} {cut : Nat} (h : commentStart? t = some cut)
    (ht : terminate t = trimRight (t.take cut) ++ ([';', ' '] ++ t.drop cut)) :
    comments (terminate t) = comments (t.drop cut) ∧
      withoutComments (terminate t) = trimRight (t.take cut) ++ [';', ' '] ++
        withoutComments (t.drop cut) := by
  have hno := commentStart?_take h
  have hcloses := (parted_comment h).closes.trimRight hno
  obtain ⟨hleft, hright⟩ := parted_semicolon hcloses (t.drop cut)
  have hnone := commentStart?_trimRight hno
  rw [ht, hleft.comments, hright.comments, hleft.withoutComments, hright.withoutComments,
    comments_of_none hnone, withoutComments_of_none hnone, List.append_assoc]
  exact ⟨rfl, rfl⟩

/-- The comments of a member stay when it is ended. -/
theorem comments_terminate (t : Text) : comments (terminate t) = comments t := by
  rcases terminate_cases t with h | ⟨hno, hcloses, h⟩ | ⟨cut, hcut, h⟩
  · rw [h]
  · rw [h, (hcloses.parted (.inr (by simp))).comments]
    exact List.append_nil _
  · have hsplit := (parted_comment hcut).comments
    rw [List.take_append_drop, comments_of_none (commentStart?_take hcut),
      List.nil_append] at hsplit
    rw [(read_terminate hcut h).1, hsplit]

/-- A semicolon between two parts of a text ends the code only if the second part shows nothing. -/
private theorem semicolon_between (p r : Text) :
    (trimRight (trimRight p ++ [';', ' '] ++ r) = trimRight (p ++ r) ∨
      trimRight (trimRight p ++ [';', ' '] ++ r) = trimRight (p ++ r) ++ [';']) ↔
      isBlankLine r = true := by
  cases hr : isBlankLine r with
  | true =>
    have hblank : isBlankLine (' ' :: r) = true := by
      rw [isBlankLine, List.all_cons, ← isBlankLine, hr]
      rfl
    have hsemicolon : trimRight (trimRight p ++ [';', ' '] ++ r) = trimRight p ++ [';'] := by
      rw [show trimRight p ++ [';', ' '] ++ r = trimRight p ++ [';'] ++ ' ' :: r by simp,
        trimRight_append_blank _ hblank]
      exact trimRight_append_of_last (by simp) (by simp; decide)
    rw [hsemicolon, trimRight_append_blank p hr]
    exact ⟨fun _ => rfl, fun _ => .inr rfl⟩
  | false =>
    -- both sides keep all that stands before the rest
    rw [trimRight_append_shown _ hr, trimRight_append_shown _ hr]
    obtain ⟨b, hb, hblank⟩ := trimRight_append p
    generalize trimRight p = q at hb
    subst hb
    refine ⟨fun h => ?_, by simp⟩
    cases b with
    | nil =>
      have hlen := h.imp (congrArg List.length) (congrArg List.length)
      simp only [List.length_append, List.length_cons, List.length_nil] at hlen
      omega
    | cons c b =>
      have hc : ';' ≠ c := by
        rintro rfl
        have hsemicolon := List.all_eq_true.mp hblank ';' List.mem_cons_self
        revert hsemicolon
        decide
      simp [hc] at h

/-- Ending a member keeps its comments. Its code stays or gets one semicolon at its end if and only
if nothing is added, or the semicolon is put where the code ends. -/
theorem code_terminate_iff (t : Text) :
    comments (terminate t) = comments t ∧
      ((code (terminate t) = code t ∨ code (terminate t) = code t ++ [';']) ↔
        terminate t = t ∨ codeEndsAtCut t = true) := by
  refine ⟨comments_terminate t, ?_⟩
  rcases terminate_cases t with h | ⟨hno, hcloses, h⟩ | ⟨cut, hcut, h⟩
  · simp [h]
  · have hcode : code (terminate t) = t ++ [';'] := by
      rw [code, h, (hcloses.parted (.inr (by simp))).withoutComments, withoutComments_of_none hno]
      exact trimRight_append_of_last (List.cons_ne_nil _ _) (by rintro c ⟨⟩; decide)
    have hends : codeEndsAtCut t = true ↔ trimRight t = t := by simp [codeEndsAtCut, hno]
    have hadded : t ++ [';'] ≠ t := by simp
    rw [hcode, code, withoutComments_of_none hno, hends, h]
    obtain ⟨b, hb, -⟩ := trimRight_append t
    constructor
    · rintro (heq | heq)
      · have hlen := congrArg List.length heq
        have hlen' := congrArg List.length hb
        simp only [List.length_append, List.length_cons, List.length_nil] at hlen hlen'
        omega
      · exact .inr (List.append_cancel_right heq).symm
    · rintro (heq | heq)
      · exact absurd heq hadded
      · exact .inr (by rw [heq])
  · have hsplit := (parted_comment hcut).withoutComments
    rw [List.take_append_drop, withoutComments_of_none (commentStart?_take hcut)] at hsplit
    have hends : codeEndsAtCut t = isBlankLine (withoutComments (t.drop cut)) := by
      simp [codeEndsAtCut, hcut]
    have hcode : (code (terminate t) = code t ∨ code (terminate t) = code t ++ [';']) ↔
        isBlankLine (withoutComments (t.drop cut)) = true := by
      rw [code, code, (read_terminate hcut h).2, hsplit, semicolon_between]
    rw [hends, hcode]
    refine ⟨.inr, ?_⟩
    rintro (heq | hblank)
    · exact hcode.mp (.inl (by rw [heq]))
    · exact hblank

/-- A semicolon in front of a comment that code follows: the code of `a: /* c */ string` changes. -/
theorem code_terminate_inner_comment :
    let t := "a: /* c */ string".toList
    terminate t = "a:; /* c */ string".toList ∧
      ¬(code (terminate t) = code t ∨ code (terminate t) = code t ++ [';']) := by
  decide +kernel

end SourceLayout.Member
