import SourceLayout.Proofs.Lines
import SourceLayout.Proofs.Stable.Scan

/-! Lines that are scanned one after the other: what they do to the state, and the code on them, by
which it is decided where a member may end. Nothing of this depends on the blanks around a line. -/

namespace SourceLayout.Scan
open Text

/-! ## Reading lines -/

def feedAll (s : State) (ls : List Text) : State := ls.foldl feed s

@[simp] theorem feedAll_nil (s : State) : feedAll s [] = s := rfl

@[simp] theorem feedAll_cons (s : State) (l : Text) (r : List Text) :
    feedAll s (l :: r) = feedAll (feed s l) r := rfl

@[simp] theorem feedAll_append (s : State) (a b : List Text) :
    feedAll s (a ++ b) = feedAll (feedAll s a) b := List.foldl_append

/-- Whether the next line begins inside a string or a comment. -/
def State.carries (s : State) : Bool := s.inBlock || s.quote.isSome

theorem State.carries_of_lex {s s' : State} (h : s.lex = s'.lex) : s.carries = s'.carries := by
  have hq : s.quote = s'.quote := congrArg Prod.fst h
  have hb : s.inBlock = s'.inBlock := congrArg Prod.snd h
  rw [State.carries, hq, hb, State.carries]

theorem feed_lex {s s' : State} (h : s.lex = s'.lex) (l : Text) :
    (feed s l).lex = (feed s' l).lex := by
  rw [feed_eq, feed_eq]
  exact (endFrom_lex h .free l).2.1

theorem State.Alike.lex {s s' : State} (h : s.Alike s') : s.lex = s'.lex := by
  rw [State.lex, State.lex, h.quote, h.inBlock]

/-! ## Blanks around a line -/

/-- The marks of a line are those of its trimmed text between marks of blanks. -/
theorem marks_around {s : State} (hq : s.quote = none) {a b t : Text} (ha : isBlankLine a = true)
    (hb : isBlankLine b = true) (he : (feed s t).quote = none) :
    ∃ A B, marks (a ++ t ++ b) s = A ++ marks t s ++ B ∧ (∀ m ∈ A, isBlank m.char = true) ∧
      ∀ m ∈ B, isBlank m.char = true := by
  obtain ⟨hs, hp⟩ := endFrom_blank hq ha .free
  have hblank (p : Phase) (s : State) {u : Text} (hu : isBlankLine u = true) :
      ∀ m ∈ marksFrom p s u, isBlank m.char = true := by
    intro m hm
    have hmem := List.mem_map_of_mem (f := Mark.char) hm
    rw [map_char_marksFrom] at hmem
    exact List.all_eq_true.mp hu _ hmem
  refine ⟨marksFrom .free s a, marksFrom (endFrom .free s t).1 (endFrom .free s t).2 b, ?_,
    hblank _ _ ha, hblank _ _ hb⟩
  rw [feed_eq] at he
  have hright : Cuts .free s t b := Cuts.blank_right (.of_none hq) he hb
  rw [marks, List.append_assoc, marksFrom_cut (Cuts.blank_left ha _), hs, hp rfl,
    marksFrom_cut hright, ← List.append_assoc]
  rfl

theorem feed_trim {s : State} (hq : s.quote = none) (l : Text) : feed s (trim l) = feed s l := by
  obtain ⟨b, hl, hb⟩ := trim_spec l
  have hbehind : feed s (indentOf l ++ trim l ++ b) = feed s (indentOf l ++ trim l) :=
    stateFrom_append_blank .free (.of_none hq) _ hb
  have hindent : feed s (indentOf l ++ trim l) = feed s (trim l) :=
    feed_blank_append hq (isBlankLine_indentOf l) (trim l)
  rw [← hl, hindent] at hbehind
  exact hbehind.symm

/-- A line that is indented anew does the same. -/
theorem feed_reindent {s : State} (hq : s.quote = none) {a : Text} (ha : isBlankLine a = true)
    (l : Text) : feed s (a ++ trim l) = feed s l := by
  rw [feed_blank_append hq ha (trim l), feed_trim hq]

/-! ## The code on lines -/

def codeOf (s : State) (l : Text) : Text := trim (withoutComments l s)

theorem step_newline {p : Phase} (hp : p.quiet = true) {s : State} (hq : s.quote = none)
    (next : Option Char) : ∃ k, step p s '\n' next = (⟨'\n', s.depth, k⟩, .free, s) := by
  have hfree : ∃ k, stepFree s '\n' next = (⟨'\n', s.depth, k⟩, .free, s) := by
    cases hb : s.inBlock with
    | true => exact ⟨.comment, by simp [stepFree, hb]⟩
    | false => exact ⟨.code, step_blank hq hb (by decide) next⟩
  cases p with
  | free => exact hfree
  | line => exact hfree
  | escaped => cases hp
  | sign => cases hp

theorem codeOf_reindent {s : State} (hq : s.quote = none) {a : Text} (ha : isBlankLine a = true)
    {l : Text} (he : (feed s l).quote = none) : codeOf s (a ++ trim l) = codeOf s l := by
  obtain ⟨b, hl, hb⟩ := trim_spec l
  have htrim : (feed s (trim l)).quote = none := by rw [feed_trim hq]; exact he
  -- the code of a line is the code of its trimmed text up to blanks
  have haround {a b : Text} (ha : isBlankLine a = true) (hb : isBlankLine b = true) :
      codeOf s (a ++ trim l ++ b) = codeOf s (trim l) := by
    obtain ⟨A, B, hmarks, hA, hB⟩ := marks_around hq ha hb htrim
    have hblank {M : List Mark} (hM : ∀ m ∈ M, isBlank m.char = true) :
        isBlankLine ((M.filter fun m => !m.isComment || m.char == '\n').map Mark.char) = true := by
      rw [isBlankLine, List.all_eq_true]
      intro c hc
      obtain ⟨m, hm, rfl⟩ := List.mem_map.mp hc
      exact hM m (List.mem_filter.mp hm).1
    rw [codeOf, withoutComments, hmarks, List.filter_append, List.filter_append, List.map_append,
      List.map_append, trim_append_blank _ (hblank hB), trim_blank_append (hblank hA)]
    rfl
  have hindent := haround (isBlankLine_indentOf l) hb
  have hnew := haround ha (b := []) rfl
  rw [← hl] at hindent
  rw [List.append_nil] at hnew
  rw [hnew, hindent]

/-! ## The last character of code -/

theorem getLast?_trim (t : Text) : (trim t).getLast? = (t.filter (!isBlank ·)).getLast? := by
  rw [← filter_trim]
  cases hlast : (trim t).getLast? with
  | none => rw [List.getLast?_eq_none_iff.mp hlast]; rfl
  | some c =>
    obtain ⟨u, hu⟩ := List.getLast?_eq_some_iff.mp hlast
    rw [hu, List.filter_append, List.filter_cons_of_pos (by simp [last_trim hlast])]
    simp

end SourceLayout.Scan

namespace SourceLayout.Member
open Text Scan

/-! ## Where a member may end -/

/-- What of the code of a member decides whether it may end there. -/
def ending (code : Text) : Bool × Bool × Bool := (code.isEmpty, endsSeparated code, endsOpen code)

theorem endsWith_arrow (x : Text) (d : Char) :
    endsWith (x ++ [d]) "=>" = (d == '>' && x.getLast? == some '=') := by
  rw [Bool.eq_iff_iff, Bool.and_eq_true, beq_iff_eq, beq_iff_eq, endsWith,
    List.isSuffixOf_iff_suffix]
  constructor
  · rintro ⟨y, hy⟩
    have happ : y ++ ['='] ++ ['>'] = x ++ [d] := by
      rw [List.append_assoc]
      exact hy
    obtain ⟨rfl, hd⟩ := List.append_inj' happ rfl
    exact ⟨(List.cons.inj hd).1.symm, List.getLast?_concat⟩
  · rintro ⟨rfl, hx⟩
    obtain ⟨y, rfl⟩ := List.getLast?_eq_some_iff.mp hx
    exact ⟨y, (List.append_assoc y ['='] ['>']).symm⟩

/-- Text in front that does not end in an equals sign does not change how code ends. -/
theorem ending_append {a code : Text} (hcode : code ≠ []) (ha : a.getLast? ≠ some '=') :
    ending (a ++ code) = ending code := by
  obtain ⟨u, d, rfl⟩ : ∃ u d, code = u ++ [d] :=
    ⟨code.dropLast, code.getLast hcode, (List.dropLast_concat_getLast hcode).symm⟩
  have hlast : ((a ++ u).getLast? == some '=') = (u.getLast? == some '=') := by
    rw [List.getLast?_append]
    cases hu : u.getLast? with
    | some c => rfl
    | none => simpa using ha
  have hempty : ((a ++ u) ++ [d]).isEmpty = (u ++ [d]).isEmpty := by cases a <;> cases u <;> rfl
  rw [← List.append_assoc]
  simp only [ending, endsSeparated, endsOpen, endsWith_arrow, hlast, hempty, List.getLast?_concat]

theorem ending_trim_append {a code : Text} (hcode : trim code ≠ []) (ha : a.getLast? ≠ some '=') :
    ending (trim (a ++ code)) = ending (trim code) := by
  cases hblank : isBlankLine a with
  | true => rw [trim_blank_append hblank]
  | false =>
    obtain ⟨e, hae, he⟩ := trim_spec a
    obtain ⟨f, hcf, hf⟩ := trim_spec code
    have hne : trim a ≠ [] := fun h => by rw [isBlankLine_of_trim h] at hblank; cases hblank
    have hsplit : a ++ code = indentOf a ++ (trim a ++ (e ++ indentOf code ++ trim code ++ f)) := by
      conv => lhs; rw [hae, hcf]
      simp
    rw [hsplit, trim_blank_append (isBlankLine_indentOf a), trim_append (trim_trim a) hne,
      trimRight_append_blank _ hf, trimRight_append_of_last hcode fun c => last_trim,
      ← List.append_assoc]
    refine ending_append hcode fun heq => ha ?_
    rw [← List.append_assoc, List.getLast?_append] at heq
    cases hi : (indentOf code).getLast? with
    | some c =>
      rw [hi, Option.some_or, Option.some.injEq] at heq
      subst heq
      exact absurd hi (getLast?_blank_ne (isBlankLine_indentOf code))
    | none =>
      rw [hi, Option.none_or] at heq
      rw [hae, List.append_assoc, List.getLast?_append, heq, Option.some_or]

theorem nextStarts_cons {l : Text} (h : isBlankLine l = false) (r : List Text) :
    nextStarts (l :: r) = starts (trim l) := by
  simp [nextStarts, h]

theorem isWhole_congr (ls : List Text) {r r' : List Text} (h : nextStarts r = nextStarts r') :
    isWhole ls r = isWhole ls r' := by
  rw [isWhole, isWhole, h]

theorem feed_blank {s : State} (hq : s.quote = none) {l : Text} (hl : isBlankLine l = true) :
    feed s l = s :=
  stateFrom_blank .free (.of_none hq) hl

end SourceLayout.Member
