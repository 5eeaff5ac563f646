import Mathlib.Data.List.Forall2
import SourceLayout.Proofs.Kept.Signature
import SourceLayout.Proofs.Spacing.Beads

/-! A call signature that is written out over several lines is respaced: its parameters and the
members of the object types in them are set apart where a separator stood, and nowhere else. -/

namespace SourceLayout
open Text Scan

namespace Text

def behindBreaks (ls : List Text) : Text := ls.flatMap ('\n' :: ·)

theorem behindBreaks_append (ls ks : List Text) :
    behindBreaks (ls ++ ks) = behindBreaks ls ++ behindBreaks ks :=
  List.flatMap_append ..

theorem unlines_cons (l : Text) (ls : List Text) : unlines (l :: ls) = l ++ behindBreaks ls := by
  induction ls generalizing l with
  | nil => exact (joinLines_singleton _ l).trans (List.append_nil l).symm
  | cons k ls ih =>
    rw [unlines, joinLines_cons_cons, ← unlines, ih]
    rfl

theorem behindBreaks_of_ne_nil {ls : List Text} (h : ls ≠ []) :
    behindBreaks ls = '\n' :: unlines ls := by
  cases ls with
  | nil => exact absurd rfl h
  | cons l ls =>
    rw [unlines_cons]
    rfl

/-- The first piece of a list that is cut is the whole list, or it ends at the first place
where the list is cut. -/
theorem splitWhen_eq_cons {α : Type} {p : α → Bool} {l q : List α} {qs : List (List α)}
    (h : splitWhen p l = q :: qs) :
    qs = [] ∧ l = q ∨ ∃ a r, p a = true ∧ l = q ++ a :: r ∧ splitWhen p r = qs := by
  induction l generalizing q with
  | nil =>
    cases h
    exact .inl ⟨rfl, rfl⟩
  | cons a l ih =>
    rw [splitWhen] at h
    split at h
    · next ha =>
      cases h
      exact .inr ⟨a, l, ha, rfl, rfl⟩
    · cases hl : splitWhen p l with
      | nil => exact absurd hl (splitWhen_ne_nil p l)
      | cons q' qs' =>
        rw [hl] at h
        cases h
        rcases ih hl with ⟨hnil, rfl⟩ | ⟨b, r, hb, rfl, hr⟩
        · exact .inl ⟨hnil, rfl⟩
        · exact .inr ⟨b, r, hb, rfl, hr⟩

/-- Lines that show a text, which may stand in a gap of its own, behind a line break. -/
def Lays (t : Text) (ls : List Text) : Prop :=
  ∃ g body g', letters g = [] ∧ letters g' = [] ∧ behindBreaks ls = g ++ body ++ g' ∧
    Respaces t body

/-- The pieces of marked characters, each of which is blank or on lines of its own, up to the
bracket that closes around them. -/
theorem respaces_split {separators : List Char} (hsep : ∀ c ∈ separators, isDivider c = true)
    {c : Char} (hc : isCloser c = true) {g : Text} (hg : letters g = []) {ms q : List Mark}
    {qs : List (List Mark)} {liness : List (List Text)}
    (hsplit : splitWhen (fun m => m.isTop && separators.contains m.char) ms = q :: qs)
    (hlays : List.Forall₂ Lays ((((q :: qs).map (·.map Mark.char)).map trim).filter (!·.isEmpty))
      liness) :
    RespacesBehind (ms.map Mark.char ++ [c]) (behindBreaks liness.flatten ++ (g ++ [c])) := by
  induction qs generalizing q ms liness with
  | nil =>
    obtain ⟨-, rfl⟩ | ⟨m, r, -, -, hr⟩ := splitWhen_eq_cons hsplit
    · rw [List.map_cons, List.map_nil, List.map_cons, List.map_nil, List.filter_cons,
        List.filter_nil] at hlays
      split at hlays
      · obtain ⟨ls, rest, ⟨g₁, body, g₂, hg₁, hg₂, hls, hbody⟩, hrest, rfl⟩ :=
          List.forall₂_cons_left_iff.mp hlays
        cases List.forall₂_nil_left_iff.mp hrest
        have hclose : Respaces ([] ++ [c]) (g₂ ++ g ++ [c]) :=
          .closer hc rfl (by rw [letters_append, hg₂, hg]; rfl)
        have hwhole := (((Respaces.trim _).trans hbody).append hclose).behind.gap_append hg₁
        simpa [hls] using hwhole
      · next hempty =>
        cases List.forall₂_nil_left_iff.mp hlays
        have hblank := isBlankLine_of_trim (List.isEmpty_iff.mp (by simpa using hempty))
        exact (Respaces.closer hc (letters_blank hblank) hg).behind
    · exact absurd hr (splitWhen_ne_nil _ _)
  | cons q' qs ih =>
    obtain ⟨hnil, -⟩ | ⟨m, r, hm, rfl, hr⟩ := splitWhen_eq_cons hsplit
    · cases hnil
    · simp only [Bool.and_eq_true, List.contains_iff_mem] at hm
      have hd := hsep _ hm.2
      rw [List.map_cons, List.map_cons, List.filter_cons] at hlays
      rw [List.map_append, List.map_cons, List.append_assoc, List.cons_append]
      split at hlays
      · obtain ⟨ls, rest, ⟨g₁, body, g₂, hg₁, hg₂, hls, hbody⟩, hrest, rfl⟩ :=
          List.forall₂_cons_left_iff.mp hlays
        have hpiece := ((Respaces.trim _).trans hbody).behind.gap_append hg₁
        have hwhole := hpiece.piece hd ((ih hr hrest).gap_append hg₂)
        simpa [behindBreaks_append, hls] using hwhole
      · next hempty =>
        have hblank := isBlankLine_of_trim (List.isEmpty_iff.mp (by simpa using hempty))
        have hwhole := (Respaces.drop_gap (letters_blank hblank)).behind.piece hd (ih hr hlays)
        rwa [List.nil_append] at hwhole

/-- Pieces between separators, each on lines of its own, up to the bracket
that closes around them. -/
theorem respaces_pieces {separators : List Char} (hsep : ∀ c ∈ separators, isDivider c = true)
    {c : Char} (hc : isCloser c = true) {inside g : Text} (hg : letters g = [])
    {liness : List (List Text)} (h : List.Forall₂ Lays (splitTop separators inside) liness) :
    RespacesBehind (inside ++ [c]) (behindBreaks liness.flatten ++ (g ++ [c])) := by
  cases hsplit : splitWhen (fun m => m.isTop && separators.contains m.char) (marks inside) with
  | nil => exact absurd hsplit (splitWhen_ne_nil _ _)
  | cons q qs =>
    have hwhole := respaces_split hsep hc hg hsplit (by rwa [splitTop, piecesTop, hsplit] at h)
    rwa [map_char_marks] at hwhole

end Text

namespace Parameter

/-- The colon in front of a type and the room for a mark set nothing apart. -/
theorem respaces_cell {a name : Text} {optional : Bool} (h : Respaces a name) {col : NameColumn}
    (hcol : optional = true → col.hasOptional = true) :
    Respaces (a ++ if optional then ['?'] else []) (col.cell name optional) := by
  have hpad : Respaces a (padTo col.width ' ' name) := by
    refine h.pad (letters_blank (isBlankLine_replicate_space _)) ?_
    simp [List.any_replicate, isDivider]
  rw [NameColumn.cell]
  cases optional with
  | true =>
    rw [if_pos (hcol rfl)]
    exact hpad.append ((Respaces.refl []).pad (g := [' ']) rfl rfl |>.append (.refl ['?']))
  | false =>
    simp only [Bool.false_eq_true, if_false, List.append_nil]
    split
    · exact hpad.pad rfl rfl
    · rwa [List.append_nil]

/-- A parameter is its cell, its type, and blanks and a colon around the type. -/
theorem read_respaced (t : Text) {col : NameColumn}
    (hcol : (read t).optional = true → col.hasOptional = true) :
    ∃ a b, t = a ++ (read t).type ++ b ∧ isBlankLine b = true ∧
      Respaces a (col.cell (read t).name (read t).optional) := by
  unfold read at hcol ⊢
  cases hf : findTop? [':'] t with
  | none =>
    simp only [hf] at hcol ⊢
    have hcell := respaces_cell (Respaces.trim t) hcol
    exact ⟨t, [], by simp, rfl, by simpa using hcell⟩
  | some colon =>
    simp only [hf] at hcol ⊢
    obtain ⟨c, hc, hi⟩ := findTop?_spec hf
    obtain rfl : c = ':' := by simpa using hc
    obtain ⟨hlt, hget⟩ := List.getElem?_eq_some_iff.mp hi
    obtain ⟨b, hb, hblank⟩ := trim_spec (t.drop (colon + 1))
    refine ⟨t.take colon ++ ':' :: indentOf (t.drop (colon + 1)), b, ?_, hblank, ?_⟩
    · conv => lhs; rw [← List.take_append_drop colon t, List.drop_eq_getElem_cons hlt, hget, hb]
      simp
    · have hgap : Respaces (':' :: indentOf (t.drop (colon + 1))) [] :=
        .drop_gap (show letters (indentOf _) = [] from letters_blank (isBlankLine_indentOf _))
      have hname := Respaces.trim (t.take colon)
      have hcell : Respaces (t.take colon)
          (col.cell (if (trim (t.take colon)).getLast? == some '?' then
            trim (trim (t.take colon)).dropLast
            else trim (t.take colon)) ((trim (t.take colon)).getLast? == some '?')) := by
        cases ho : (trim (t.take colon)).getLast? == some '?' with
        | false =>
          rw [ho] at hcol
          have hplain := respaces_cell hname hcol
          simpa using hplain
        | true =>
          rw [ho] at hcol
          obtain ⟨n, hn⟩ := List.getLast?_eq_some_iff.mp (beq_iff_eq.mp ho)
          have hmarked := respaces_cell (Respaces.trim n) hcol
          rw [hn] at hname ⊢
          simpa using hname.trans hmarked
      simpa using hcell.append hgap

/-- Behind blanks a text is trimmed as alone, but the blanks go too if it shows nothing. -/
theorem trimRight_behind {indent : Text} (hi : isBlankLine indent = true) (t : Text) :
    ∃ g, isBlankLine g = true ∧ trimRight (indent ++ t) = g ++ trimRight t := by
  obtain ⟨b, hb, hblank⟩ := trimRight_append t
  have hcut : trimRight (indent ++ t) = trimRight (indent ++ trimRight t) := by
    conv => lhs; rw [hb, ← List.append_assoc, trimRight_append_blank _ hblank]
  by_cases hnil : trimRight t = []
  · obtain ⟨e, he, -⟩ := trimRight_append indent
    refine ⟨trimRight indent, ?_, by rw [hcut, hnil, List.append_nil, List.append_nil]⟩
    rw [he, isBlankLine, List.all_append, Bool.and_eq_true] at hi
    exact hi.1
  · exact ⟨indent, hi, hcut.trans (trimRight_append_of_last hnil fun c => last_trimRight)⟩

/-- The lines of a parameter show it, if the lines of the object type in it show that. -/
theorem lines_respaced {t : Text} {col : NameColumn}
    (hcol : (read t).optional = true → col.hasOptional = true) {indent : Text}
    (hi : isBlankLine indent = true) (trailing : Text) {object? : Text → Option (List Text)}
    (ho : ∀ start ls, object? start = some ls →
      ∃ body, unlines ls = start ++ body ++ trailing ∧ Respaces (read t).type body) :
    ∃ g body, letters g = [] ∧ Respaces t body ∧
      unlines ((read t).lines col indent trailing object?) = g ++ body ++ trailing := by
  obtain ⟨a, b, ht, hb, hcell⟩ := read_respaced t hcol
  have hblank : Respaces b [] := .drop_gap (letters_blank hb)
  rw [lines]
  split
  · next hempty =>
    rw [List.isEmpty_iff.mp hempty, List.append_nil] at ht
    obtain ⟨g, hg, hcut⟩ := trimRight_behind hi (col.cell (read t).name (read t).optional)
    have hwhole := (hcell.trans (.trimRight _)).append hblank
    rw [← ht, List.append_nil] at hwhole
    exact ⟨g, _, letters_blank hg, hwhole, by simp [unlines, hcut]⟩
  · have hstart : Respaces a (col.cell (read t).name (read t).optional ++ [' ', ':', ' ']) :=
      hcell.pad rfl rfl
    cases hobject :
      object? (indent ++ col.cell (read t).name (read t).optional ++ [' ', ':', ' ']) with
    | none =>
      have hwhole := (hstart.append (.refl (read t).type)).append hblank
      rw [← ht] at hwhole
      refine ⟨indent, _, letters_blank hi, hwhole, ?_⟩
      simp only [hobject, Option.getD_none]
      simp [unlines]
    | some ls =>
      obtain ⟨body, hls, hbody⟩ := ho _ ls hobject
      have hwhole := (hstart.append hbody).append hblank
      rw [← ht] at hwhole
      refine ⟨indent, _, letters_blank hi, hwhole, ?_⟩
      simp only [hobject, Option.getD_some, hls]
      simp

/-- An object type in its parts. -/
theorem objectTexts?_parts {t before after : Text} {texts : List Text}
    (h : objectTexts? t = some (before, texts, after)) :
    ∃ b inside a, t = b ++ '{' :: inside ++ '}' :: a ∧ before = trim b ∧
      texts = splitTop [';', ','] inside ∧
      after = trim a := by
  obtain ⟨i, hi, h⟩ := Option.bind_eq_some_iff.mp h
  obtain ⟨⟨b, inside, a⟩, hp, h⟩ := Option.bind_eq_some_iff.mp h
  simp only [Option.ite_none_left_eq_some, Option.some.injEq, Prod.mk.injEq] at h
  obtain ⟨-, rfl, rfl, rfl⟩ := h
  exact ⟨b, inside, a, aroundPair?_spec (by decide) (d := '}') rfl (findCode?_spec hi) hp, rfl, rfl,
    rfl⟩

theorem respaces_openBrace (t : Text) : ∃ t', openBrace t = t' ++ ['{'] ∧ Respaces t t' := by
  unfold openBrace
  cases h : t.getLast? with
  | none => exact ⟨[], rfl, by rw [List.getLast?_eq_none_iff.mp h]; exact .refl []⟩
  | some c =>
    dsimp only
    split
    · exact ⟨t, rfl, .refl t⟩
    · exact ⟨t ++ [' '], by simp, (Respaces.refl t).pad rfl rfl⟩

theorem respaces_afterBrace (t : Text) : Respaces t (afterBrace t) := by
  unfold afterBrace
  cases t with
  | nil => exact .refl []
  | cons c t =>
    rw [List.head?_cons]
    dsimp only
    split
    · exact .refl _
    · exact ((Respaces.refl []).pad (g := [' ']) rfl rfl).append (.refl (c :: t))

/-- Lines that show a parameter, behind line breaks. -/
theorem lays_lines {t : Text} {ls : List Text} {g body trailing : Text} (hne : ls ≠ [])
    (hg : letters g = []) (ht : letters trailing = []) (hbody : Respaces t body)
    (h : unlines ls = g ++ body ++ trailing) : Lays t ls :=
  ⟨'\n' :: g, body, trailing, hg, ht, by rw [behindBreaks_of_ne_nil hne, h]; rfl, hbody⟩

theorem lines_ne_nil {p : Parameter} {col : NameColumn} {indent trailing : Text}
    {object? : Text → Option (List Text)} (h : ∀ start, object? start ≠ some []) :
    p.lines col indent trailing object? ≠ [] := by
  rw [lines]
  split
  · exact List.cons_ne_nil _ _
  · cases hobject : object? (indent ++ col.cell p.name p.optional ++ [' ', ':', ' ']) with
    | none =>
      simp only [hobject, Option.getD_none]
      exact List.cons_ne_nil _ _
    | some ls =>
      simp only [hobject, Option.getD_some]
      rintro rfl
      exact h _ hobject

theorem expandObject_ne_nil {unit : Text} {room : Nat} {type head indent trailing : Text} :
    expandObject unit room type head indent trailing ≠ some [] := by
  cases room with
  | zero => exact fun h => nomatch h
  | succ room => simp [expandObject]

/-- An object type that is written out over several lines is respaced. -/
theorem expandObject_respaced {unit : Text} (hu : isBlankLine unit = true) {room : Nat}
    {type head indent trailing : Text} {ls : List Text} (hi : isBlankLine indent = true)
    (he : expandObject unit room type head indent trailing = some ls) :
    ∃ body, unlines ls = head ++ body ++ trailing ∧ Respaces type body := by
  induction room generalizing type head indent trailing ls with
  | zero => cases he
  | succ room ih =>
    obtain ⟨⟨before, texts, after⟩, ho, rfl⟩ := Option.map_eq_some_iff.mp he
    obtain ⟨b, inside, a, rfl, rfl, rfl, rfl⟩ := objectTexts?_parts ho
    have hinner : isBlankLine (indent ++ unit) = true := by
      simp only [isBlankLine, List.all_append, Bool.and_eq_true]
      exact ⟨hi, hu⟩
    obtain ⟨b', hb', hbefore⟩ := respaces_openBrace (trim b)
    let members := (splitTop [';', ','] inside).map read
    let memberLines (m : Parameter) : List Text :=
      m.lines (column members) (indent ++ unit) [';'] fun start =>
        expandObject unit room m.type start (indent ++ unit) [';']
    have hlays : List.Forall₂ Lays (splitTop [';', ','] inside) (members.map memberLines) := by
      rw [List.map_map, List.forall₂_map_right_iff, List.forall₂_same]
      intro t ht
      have hcol := column_hasOptional (List.mem_map_of_mem (f := read) ht)
      obtain ⟨g, body, hg, hbody, hlines⟩ := lines_respaced hcol hinner [';']
        fun start ls hls => ih hinner hls
      exact lays_lines (lines_ne_nil fun start => expandObject_ne_nil) hg rfl hbody hlines
    have hgap : letters ('\n' :: indent) = [] := letters_blank (t := indent) hi
    have hpieces := respaces_pieces (c := '}') (by simp [isDivider]) (by decide) hgap hlays
    have hobject := hpieces.opener (o := '{') (by decide)
    have hwhole := (((Respaces.trim b).trans hbefore).append hobject).append
      ((Respaces.trim a).trans (respaces_afterBrace _))
    refine ⟨_, ?_, by simpa using hwhole⟩
    show unlines ((head ++ openBrace (trim b)) :: (members.flatMap memberLines ++
      [indent ++ '}' :: afterBrace (trim a) ++ trailing])) = _
    rw [unlines_cons, behindBreaks_append, hb', List.flatMap_def]
    simp [behindBreaks]

/-- A parameter list that is written out over several lines is respaced, up to the
parenthesis that closes it. -/
theorem expandAll_respaced {unit : Text} (hu : isBlankLine unit = true) (room : Nat)
    {indent g : Text} (hi : isBlankLine indent = true) (hg : letters g = []) (t : Text) :
    RespacesBehind (t ++ [')'])
      (behindBreaks (expandAll unit room indent (readAll t)) ++ (g ++ [')'])) := by
  let ps := readAll t
  let parameterLines (x : Parameter × Nat) : List Text :=
    let comma := if x.2 < ps.length - 1 then [','] else []
    x.1.lines (column ps) indent comma fun start =>
    expandObject unit room x.1.type start indent comma
  have hlays : List.Forall₂ Lays (splitTop [','] t) (ps.zipIdx.map parameterLines) := by
    rw [List.forall₂_iff_get]
    refine ⟨by simp [ps, readAll], fun i hi₁ hi₂ => ?_⟩
    have hmem : (splitTop [','] t)[i] ∈ splitTop [','] t := List.getElem_mem _
    have hcol := column_hasOptional (List.mem_map_of_mem (f := read) hmem)
    have hcomma : letters (if i < ps.length - 1 then [','] else []) = [] := by split <;> rfl
    obtain ⟨g, body, hg, hbody, hlines⟩ :=
      lines_respaced hcol hi (if i < ps.length - 1 then [','] else [])
        fun start ls hls => expandObject_respaced hu hi hls
    have hthis := lays_lines (lines_ne_nil fun start => expandObject_ne_nil) hg hcomma hbody hlines
    simpa [parameterLines, ps, readAll] using hthis
  have hpieces := respaces_pieces (c := ')') (by simp [isDivider]) (by decide) hg hlays
  rwa [← List.flatMap_def] at hpieces

end Parameter
end SourceLayout
