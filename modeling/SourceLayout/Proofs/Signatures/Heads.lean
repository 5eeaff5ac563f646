import SourceLayout.Proofs.Imports.Shape
import SourceLayout.Proofs.Signatures.Unfold

/-! Heads of call signatures in the form in which they are written. A head that was read is written
in that form, and what is written is read as the same head, also behind an indentation and with
spaces in front of the parenthesis. -/

namespace SourceLayout
open Text Scan

/-- Angle brackets stay around what is collapsed between them. -/
theorem collapse_angles {x : Text} (hx : Scan.Clean x) :
    ∃ y, collapse ('<' :: (x ++ ['>'])) = '<' :: (y ++ ['>']) ∧ Scan.Clean y ∧ word y = word x := by
  have hclean : Scan.Clean (['<'] ++ (x ++ ['>'])) :=
    ((hx.append_inert (a := ['>']) (by decide)).1.inert_append (by decide)).1
  have hword (y : Text) (hy : Scan.Clean y) :
      word ('<' :: (y ++ ['>'])) = ('<', .code) :: (word y ++ [('>', .code)]) := by
    rw [← List.nil_append (_ :: _), clean_nil.word_sign (by decide) rfl,
      hy.word_sign (by decide) rfl]
    rfl
  obtain ⟨y, hy⟩ : ∃ y, collapse ('<' :: (x ++ ['>'])) = '<' :: (y ++ ['>']) := by
    have hchars := map_char_marks ('<' :: (x ++ ['>'])) {}
    obtain ⟨m, ms, hms, hm, hrest⟩ := List.map_eq_cons_iff.mp hchars
    obtain ⟨inner, last, rfl, -, hlast⟩ := List.map_eq_append_iff.mp hrest
    obtain ⟨n, rfl, hn⟩ := List.map_eq_singleton_iff.mp hlast
    refine ⟨collapseFrom (some '<') inner, ?_⟩
    have hfrom : collapseFrom none (marks ('<' :: (x ++ ['>']))) =
        '<' :: (collapseFrom (some '<') inner ++ ['>']) := by
      have hopen : isBlank '<' = false := by decide
      have hclose : isBlank '>' = false := by decide
      rw [hms, collapseFrom, hm, hopen, Bool.and_false, if_neg (by simp), collapseFrom_append]
      simp [collapseFrom, hn, hclose]
    rw [collapse, hfrom]
    exact trim_eq_self (fun c hc => by cases hc; decide) fun c hc => by
      rw [← List.cons_append, List.getLast?_concat] at hc
      cases hc
      decide
  have hcollapsed := hclean.collapse.1
  rw [List.singleton_append, hy, ← List.singleton_append] at hcollapsed
  have hcut := ((parted_inert (a := ['<']) (by decide) (y ++ ['>'])).clean.mp hcollapsed).2
  have hinside := (hcut.concat (by decide) (by decide)).1
  refine ⟨y, hy, hinside, ?_⟩
  have hsame := hclean.word_collapse
  rw [List.singleton_append, hy, hword y hinside, hword x hx] at hsame
  exact List.append_cancel_right (List.cons.inj hsame).2

namespace MethodHead

private theorem cut_pair (x z : Text) :
    ('<' :: (x ++ '>' :: z)).take (x.length + 1 + 1) = '<' :: (x ++ ['>']) ∧
      ('<' :: (x ++ '>' :: z)).drop (x.length + 1 + 1) = z := by
  have hpair : '<' :: (x ++ '>' :: z) = '<' :: (x ++ ['>']) ++ z := by simp
  have hlength : ('<' :: (x ++ ['>'])).length = x.length + 1 + 1 := by simp
  rw [hpair]
  exact ⟨List.take_left' hlength, List.drop_left' hlength⟩

def IsGenerics (g : Text) : Prop :=
  g = [] ∨ ∃ x, g = '<' :: (x ++ ['>']) ∧ Scan.Clean x ∧ Closing '<' '>' (word x) ∧ Compact g

structure Standard (h : MethodHead) : Prop where
  named : h.name ≠ []
  letters : h.name.all isNameChar = true
  generics : IsGenerics h.generics

theorem isGenerics_of_generics? {t g r : Text} (h : generics? t = some (g, r))
    (ht : commentStart? t = none) : IsGenerics g := by
  unfold generics? at h
  split at h
  · next hh =>
    cases t with
    | nil => simp at hh
    | cons o u =>
      obtain rfl : o = '<' := by simpa using hh
      obtain ⟨i, hi, he⟩ := Option.map_eq_some_iff.mp h
      obtain ⟨rfl, rfl⟩ := Prod.mk.inj he
      obtain ⟨inner, c, s', rest, hm, rfl, hc, -, -⟩ := matching?_spec (by decide) hi
      obtain rfl := eq_of_openerOf hc (d := '>') rfl
      -- the text between the brackets and the text behind them
      obtain ⟨x, hx, rfl⟩ : ∃ x, x.length = inner.length ∧ u = x ++ '>' :: rest := by
        refine ⟨inner.map Mark.char, List.length_map _, ?_⟩
        have hchars := congrArg (List.map Mark.char) hm
        rw [map_char_marks] at hchars
        simpa using hchars
      rw [← hx] at hi ⊢
      have hat : (marks ('<' :: (x ++ '>' :: rest)))[0]? = some ⟨'<', 0, .code⟩ := by
        rw [hm]
        rfl
      obtain ⟨-, hclean, hclosing, -, -⟩ :=
        closing_of_aroundPair? (d := '>') ht hat rfl rfl rfl (aroundPair?_append [] hi)
      have htake := (cut_pair x rest).1
      obtain ⟨y, hy, hcleanY, hword⟩ := collapse_angles hclean
      have hquiet : commentStart? ('<' :: (x ++ ['>'])) = none :=
        ((hclean.append_inert (a := ['>']) (by decide)).1.inert_append (a := ['<'])
          (by decide)).1.commentStart?
      rw [htake]
      exact .inr ⟨y, hy, hcleanY, hword ▸ hclosing, compact_collapse hquiet⟩
  · obtain ⟨rfl, -⟩ := Prod.mk.inj (Option.some.inj h)
    exact .inl rfl

theorem standard_of_read? {t : Text} {h : MethodHead} (hr : read? t = some h)
    (ht : commentStart? t = none) : h.Standard := by
  rcases hq : questionMark (t.dropWhile isNameChar) with ⟨b, r₁⟩
  simp only [read?, hq] at hr
  obtain ⟨⟨g, r⟩, hg, hr⟩ := Option.bind_eq_some_iff.mp hr
  simp only [Option.ite_none_right_eq_some, Bool.and_eq_true, beq_iff_eq, Option.some.injEq] at hr
  obtain ⟨⟨hname, -⟩, rfl⟩ := hr
  refine ⟨by simpa using hname, List.all_takeWhile, isGenerics_of_generics? hg ?_⟩
  obtain ⟨a, ha, hinert⟩ := questionMark_inert hq
  have hlead : (t.takeWhile isNameChar ++ a).all isInert = true := by
    rw [List.all_append, hinert, Bool.and_true]
    exact List.all_eq_true.mpr fun c hc =>
      isInert_of_nameChar (List.all_eq_true.mp List.all_takeWhile c hc)
  rw [← quiet_inert hlead, List.append_assoc, ← ha, List.takeWhile_append_dropWhile]
  exact ht

/-- Behind a head the parameters begin. -/
theorem opens_rest {t : Text} {h : MethodHead} (hr : read? t = some h) :
    (marks h.rest)[0]? = some ⟨'(', 0, .code⟩ := by
  have hfirst := rest_read? hr
  cases hrest : h.rest with
  | nil => simp [hrest] at hfirst
  | cons c rest =>
    obtain rfl : c = '(' := by simpa [hrest] using hfirst
    rw [marks, marksFrom_opener (by decide) rfl]
    rfl

/-- The type parameters are read again in front of a space. -/
theorem IsGenerics.generics? {g : Text} (hg : IsGenerics g) (z : Text) :
    (trimLeft (g ++ ' ' :: '(' :: z)).head? ≠ some '?' ∧
      MethodHead.generics? (trimLeft (g ++ ' ' :: '(' :: z)) = some (g, '(' :: z) := by
  rcases hg with rfl | ⟨x, rfl, hx, hclosing, hcompact⟩
  · have hspace : trimLeft (' ' :: '(' :: z) = '(' :: z := rfl
    rw [List.nil_append, hspace]
    exact ⟨by simp, rfl⟩
  · have hangle : trimLeft ('<' :: (x ++ ['>']) ++ ' ' :: '(' :: z) =
        '<' :: (x ++ '>' :: ' ' :: '(' :: z) := by
      simp [trimLeft, isBlank]
    have hmatch := hx.matching? (o := '<') (c := '>') rfl hclosing (' ' :: '(' :: z)
    obtain ⟨htake, hdrop⟩ := cut_pair x (' ' :: '(' :: z)
    rw [hangle, MethodHead.generics?, hmatch, Option.map_some, htake, hdrop, hcompact.collapse]
    exact ⟨by simp, rfl⟩

/-- The head is read again in front of a space and a parenthesis. -/
theorem Standard.read?_token {h : MethodHead} (hh : h.Standard) (z : Text) :
    read? (h.token ++ ' ' :: '(' :: z) = some { h with rest := '(' :: z } := by
  obtain ⟨hmark, hgenerics⟩ := hh.generics.generics? z
  obtain ⟨name, optional, generics, rest⟩ := h
  have hletters : ∀ c ∈ name, isNameChar c = true := List.all_eq_true.mp hh.letters
  have htoken : token ⟨name, optional, generics, rest⟩ ++ ' ' :: '(' :: z =
      name ++ ((if optional then ['?'] else []) ++ (generics ++ ' ' :: '(' :: z)) := by
    simp [token]
  have hbehind : ∀ c, ((if optional then ['?'] else []) ++ (generics ++ ' ' :: '(' :: z)).head? =
    some c →
      isNameChar c = false := by
    intro c hc
    cases optional with
    | true =>
      cases hc
      decide
    | false =>
      rcases hh.generics with hnil | ⟨x, hx, -, -, -⟩
      · rw [show generics = [] from hnil] at hc
        cases hc
        decide
      · rw [show generics = _ from hx] at hc
        cases hc
        decide
  have hquestion : questionMark
    ((if optional then ['?'] else []) ++ (generics ++ ' ' :: '(' :: z)) =
      (optional, trimLeft (generics ++ ' ' :: '(' :: z)) := by
    cases optional with
    | true => rfl
    | false =>
      simp only [Bool.false_eq_true, ↓reduceIte, List.nil_append, questionMark]
      split
      · next r hr => simp [hr] at hmark
      · rfl
  obtain ⟨htake, hdrop⟩ := NamedImport.takeWhile_name hletters hbehind
  have hnamed : name.isEmpty = false := by simpa using hh.named
  rw [htoken, read?, htake, hdrop, hquestion]
  simp only [hgenerics, hnamed]
  rfl

theorem Standard.chunk_token {h : MethodHead} (hh : h.Standard) : Chunk h.token := by
  have hletters := List.all_eq_true.mp hh.letters
  have hname : h.name.all isGlyph = true := by
    refine glyphs_iff.mpr ⟨List.all_eq_true.mpr fun c hc => isInert_of_nameChar (hletters c hc),
      fun c hc => ?_⟩
    rw [Bool.eq_false_iff]
    intro hb
    have hnot := not_nameChar_of_blank hb
    rw [hletters c hc] at hnot
    cases hnot
  have hglyphs : (h.name ++ if h.optional then ['?'] else []).all isGlyph = true := by
    rw [List.all_append, hname]
    cases h.optional <;> rfl
  have hfront : Chunk (h.name ++ if h.optional then ['?'] else []) :=
    .signs hglyphs (by simp [hh.named])
  unfold token
  rcases hh.generics with hnil | ⟨x, hx, hclean, -, hcompact⟩
  · rw [hnil, List.append_nil]
    exact hfront
  · have hgenerics : Scan.Clean h.generics := by
      rw [hx]
      exact ((hclean.append_inert (a := ['>']) (by decide)).1.inert_append (a := ['<'])
        (by decide)).1
    exact hfront.append ⟨hgenerics, hcompact, by simp [hx]⟩
      (.inert_left (glyphs_iff.mp hglyphs).1 _)

/-- The first line of a signature that is written out. -/
theorem Standard.unfolds_line {h : MethodHead} (hh : h.Standard) (width : Nat) {indent : Text}
    (hi : isBlankLine indent = true) :
    Unfolds (' ' :: (h.token ++ [' ', '('])) [indent ++ padTo width ' ' h.token ++ [' ', '(']] := by
  have hopen : Chunk ['('] := .signs (by decide) (by simp)
  have hpad : isBlankLine (List.replicate (width - h.token.length) ' ' ++ [' ']) = true :=
    isBlankLine_append (isBlankLine_replicate_space _) rfl
  have hline : indent ++ padTo width ' ' h.token ++ [' ', '('] =
      indent ++ (h.token ++ ((List.replicate (width - h.token.length) ' ' ++ [' ']) ++ ['('])) := by
    simp [padTo]
  rw [hline]
  refine .single ?_ ?_ (by simp)
  · exact ((hh.chunk_token.clean.join (inert_blank hpad) (by simp) hopen.clean).1.inert_append
      (inert_blank hi)).1
  · rw [collapse_blank_append hi,
      collapse_gap hh.chunk_token.clean.closes hh.chunk_token.compact.trimmed hh.chunk_token.ne_nil
        hpad (by simp) hopen.compact.trimmed hopen.ne_nil, hh.chunk_token.compact.collapse,
      hopen.compact.collapse]

end MethodHead

end SourceLayout
