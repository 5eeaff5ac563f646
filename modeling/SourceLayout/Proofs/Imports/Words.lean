import SourceLayout.Proofs.Imports.Reread

/-! What breaking an import into lines keeps of it: the words between blanks, quotes, braces, commas
and semicolons, and the module, which stands between the only two quotes. -/

namespace SourceLayout
open Text

/-! ## Words -/

namespace Text

/-- Characters that end a word: blanks, quotes, braces, commas and semicolons. -/
def isBreak (c : Char) : Bool := isBlank c || [',', ';', '{', '}', '"', '\''].contains c

def wordsOf (t : Text) : List Text := (splitWhen isBreak t).filter (!·.isEmpty)

theorem isBreak_of_blank {c : Char} (h : isBlank c = true) : isBreak c = true := by
  simp [isBreak, h]

theorem wordsOf_append_cons (a : Text) {c : Char} (hc : isBreak c = true) (r : Text) :
    wordsOf (a ++ c :: r) = wordsOf a ++ wordsOf r := by
  rw [wordsOf, splitWhen_append_cons a hc, List.filter_append]
  rfl

theorem wordsOf_cons {c : Char} (hc : isBreak c = true) (r : Text) : wordsOf (c :: r) = wordsOf r :=
  wordsOf_append_cons [] hc r

theorem wordsOf_breaks_append {b : Text} (hb : ∀ c ∈ b, isBreak c = true) (r : Text) :
    wordsOf (b ++ r) = wordsOf r := by
  induction b with
  | nil => rfl
  | cons c b ih =>
    obtain ⟨hc, hb⟩ := List.forall_mem_cons.mp hb
    rw [List.cons_append, wordsOf_cons hc, ih hb]

/-- Breaks between two texts keep their words apart. -/
theorem wordsOf_append_breaks_append (a : Text) {b : Text} (hne : b ≠ [])
    (hb : ∀ c ∈ b, isBreak c = true) (r : Text) :
    wordsOf (a ++ (b ++ r)) = wordsOf a ++ wordsOf r := by
  obtain ⟨c, b, rfl⟩ := List.exists_cons_of_ne_nil hne
  obtain ⟨hc, hb⟩ := List.forall_mem_cons.mp hb
  rw [List.cons_append, wordsOf_append_cons a hc, wordsOf_breaks_append hb]

theorem wordsOf_append_breaks (a : Text) {b : Text} (hb : ∀ c ∈ b, isBreak c = true) :
    wordsOf (a ++ b) = wordsOf a := by
  cases b with
  | nil => rw [List.append_nil]
  | cons c b =>
    obtain ⟨hc, hb⟩ := List.forall_mem_cons.mp hb
    have hnil := wordsOf_breaks_append hb []
    rw [List.append_nil] at hnil
    rw [wordsOf_append_cons a hc, hnil]
    exact List.append_nil _

theorem isBreak_of_blankLine {b : Text} (hb : isBlankLine b = true) : ∀ c ∈ b, isBreak c = true :=
  fun c hc => isBreak_of_blank (List.all_eq_true.mp hb c hc)

theorem wordsOf_trim (t : Text) : wordsOf (trim t) = wordsOf t := by
  obtain ⟨b, ht, hb⟩ := trim_spec t
  conv => rhs; rw [ht, List.append_assoc]
  rw [wordsOf_breaks_append (isBreak_of_blankLine (isBlankLine_indentOf t)),
    wordsOf_append_breaks _ (isBreak_of_blankLine hb)]

/-- A text begins with what holds no break if and only if its first piece does. -/
theorem prefix_splitWhen {w : Text} (hw : ∀ c ∈ w, isBreak c = false) {t x : Text} {xs : List Text}
    (h : splitWhen isBreak t = x :: xs) : w <+: t ↔ w <+: x := by
  induction t generalizing w x xs with
  | nil =>
    cases h
    exact Iff.rfl
  | cons c t ih =>
    cases w with
    | nil => simp
    | cons d w =>
      obtain ⟨hd, hw⟩ := List.forall_mem_cons.mp hw
      rw [splitWhen] at h
      split at h
      · next hc =>
        cases h
        refine ⟨fun hstarts => ?_, fun hstarts => by simp at hstarts⟩
        obtain ⟨rfl, -⟩ := List.cons_prefix_cons.mp hstarts
        rw [hc] at hd
        cases hd
      · cases hsplit : splitWhen isBreak t with
        | nil => exact absurd hsplit (splitWhen_ne_nil _ _)
        | cons y ys =>
          rw [hsplit] at h
          cases h
          rw [List.cons_prefix_cons, List.cons_prefix_cons, ih hw hsplit]

theorem infix_splitWhen {w : Text} (hne : w ≠ []) (hw : ∀ c ∈ w, isBreak c = false) (t : Text) :
    w <:+: t ↔ ∃ x ∈ splitWhen isBreak t, w <:+: x := by
  induction t with
  | nil => simp [splitWhen]
  | cons c t ih =>
    rw [List.infix_cons_iff, ih]
    cases hsplit : splitWhen isBreak t with
    | nil => exact absurd hsplit (splitWhen_ne_nil _ _)
    | cons y ys =>
      by_cases hc : isBreak c = true
      · have hhere : splitWhen isBreak (c :: t) = [] :: y :: ys := by simp [splitWhen, hc, hsplit]
        have hstarts := prefix_splitWhen hw hhere
        simp [hhere, hstarts, hne]
      · have hhere : splitWhen isBreak (c :: t) = (c :: y) :: ys := by simp [splitWhen, hc, hsplit]
        have hstarts := prefix_splitWhen hw hhere
        simp only [hhere, hstarts, List.mem_cons, exists_eq_or_imp, List.infix_cons_iff]
        tauto

/-- What holds no break is found in a text if and only if it is found in one of its words. -/
theorem occursIn_wordsOf {w : Text} (hne : w ≠ []) (hw : ∀ c ∈ w, isBreak c = false) (t : Text) :
    occursIn w t = true ↔ ∃ x ∈ wordsOf t, occursIn w x = true := by
  simp only [occursIn_iff]
  rw [infix_splitWhen hne hw]
  constructor
  · rintro ⟨x, hx, hwx⟩
    refine ⟨x, List.mem_filter.mpr ⟨hx, ?_⟩, hwx⟩
    cases x with
    | nil => exact absurd (List.infix_nil.mp hwx) hne
    | cons c x => rfl
  · rintro ⟨x, hx, hwx⟩
    exact ⟨x, (List.mem_filter.mp hx).1, hwx⟩

end Text

/-! ## The words of an import -/

namespace NamedImport

theorem isBreak_of_stop {c : Char} (hc : Scan.isStop c = true) : isBreak c = true := by
  have hcases : c = ',' ∨ c = ';' := by simpa [Scan.isStop] using hc
  rcases hcases with rfl | rfl <;> decide

theorem isBreak_of_quote {q : Char} (hq : q = '"' ∨ q = '\'') : isBreak q = true := by
  rcases hq with rfl | rfl <;> decide

/-- Cutting a text apart keeps its words. -/
theorem wordsOf_splitTop {separators : List Char} (hseps : separators.all Scan.isStop = true)
    (t : Text) : (Scan.splitTop separators t).flatMap wordsOf = wordsOf t := by
  have hpieces : (Scan.piecesTop separators t).flatMap wordsOf = wordsOf t := by
    induction t using Scan.cut_induction hseps with
    | uncut t hno => rw [Scan.piecesTop_uncut hno, List.flatMap_singleton]
    | ended u c v hc hstop hended ih =>
      rw [hended.piecesTop_append hstop hc, List.flatMap_cons, ih,
        wordsOf_append_cons u (isBreak_of_stop hstop)]
  have htrimmed (ps : List Text) : ((ps.map trim).filter (!·.isEmpty)).flatMap wordsOf =
      ps.flatMap wordsOf := by
    induction ps with
    | nil => rfl
    | cons p ps ih =>
      rw [List.map_cons, List.flatMap_cons, List.filter_cons, ← wordsOf_trim p]
      cases hp : trim p with
      | nil => simpa [wordsOf, splitWhen] using ih
      | cons c r =>
        rw [if_pos (by simp), List.flatMap_cons, ih]
  rw [Scan.splitTop, htrimmed, hpieces]

theorem wordsOf_joinedNames (i : NamedImport) : wordsOf i.joinedNames = wordsOf i.names := by
  have hjoined (ps : List Text) :
      wordsOf (ps.flatMap (fun p => ' ' :: (p ++ [','])) ++ [' ']) = ps.flatMap wordsOf := by
    induction ps with
    | nil => rfl
    | cons p ps ih =>
      rw [List.flatMap_cons, List.cons_append, List.cons_append, wordsOf_cons rfl,
        List.append_assoc, List.append_assoc, List.singleton_append, wordsOf_append_cons p rfl, ih]
      rfl
  rw [joinedNames, hjoined, wordsOf_splitTop rfl]

theorem Lead.wordsOf {d : Option Text} {l : Text} (h : Lead d l) :
    wordsOf l = d.toList.flatMap Text.wordsOf := by
  cases h with
  | bare => rfl
  | @named name b b' hne hname hb hb' =>
    have hbreaks : ∀ c ∈ b ++ ',' :: b', isBreak c = true := by
      intro c hc
      rcases List.mem_append.mp hc with hc | hc
      · exact isBreak_of_blankLine hb c hc
      · rcases List.mem_cons.mp hc with rfl | hc
        · rfl
        · exact isBreak_of_blankLine hb' c hc
    rw [wordsOf_append_breaks name hbreaks]
    simp

/-- What stands before the opening brace has the same words in any spacing. -/
theorem Opening.wordsOf {k : Bool} {d : Option Text} {o : Text} (h : Opening k d o) :
    wordsOf o = ["import".toList] ++ (if k then ["type".toList] else []) ++
      d.toList.flatMap Text.wordsOf := by
  have himport : Text.wordsOf "import".toList = ["import".toList] := by decide
  have htype : Text.wordsOf "type".toList = ["type".toList] := by decide
  cases h with
  | @plain b d l hb hne hl =>
    rw [wordsOf_append_breaks_append _ hne (isBreak_of_blankLine hb), hl.wordsOf, himport]
    simp
  | @typed b b' d l hb hne hb' hne' hl =>
    rw [wordsOf_append_breaks_append _ hne (isBreak_of_blankLine hb),
      wordsOf_append_breaks_append _ hne' (isBreak_of_blankLine hb'), hl.wordsOf, himport, htype]
    simp

/-- What stands behind the closing brace has the same words in any spacing and with any quotes. -/
theorem Closing.wordsOf {m t : Text} {q : Char} (h : Closing m t q) :
    wordsOf t = ["from".toList] ++ Text.wordsOf m := by
  obtain ⟨b, b', e, hb, hb', he, rfl⟩ := h.shape
  have hq := isBreak_of_quote h.quote
  have hfrom : Text.wordsOf "from".toList = ["from".toList] := by decide
  have hend : ∀ c ∈ q :: e, isBreak c = true := by
    intro c hc
    rcases List.mem_cons.mp hc with rfl | hc
    · exact hq
    · rcases blank_or_semicolon he hc with hc | rfl
      · exact isBreak_of_blank hc
      · rfl
  have hquote : ∀ c ∈ b' ++ [q], isBreak c = true := by
    intro c hc
    rcases List.mem_append.mp hc with hc | hc
    · exact isBreak_of_blankLine hb' c hc
    · exact List.mem_singleton.mp hc ▸ hq
  have hjoin : b' ++ q :: (m ++ q :: e) = (b' ++ [q]) ++ (m ++ q :: e) := by simp
  rw [wordsOf_breaks_append (isBreak_of_blankLine hb), hjoin,
    wordsOf_append_breaks_append _ (by simp) hquote, wordsOf_append_breaks m hend, hfrom]

end NamedImport

/-! ## Modules and quotes -/

namespace Statement

open NamedImport

/-- A text that ends with the word `from` and the module `m` in quotes `q`, with
no quote before them. -/
structure Sourced (t m : Text) (q : Char) : Prop where
  quote : q = '"' ∨ q = '\''
  plain : ∀ c ∈ m, Scan.isQuote c = false
  shape : ∃ a b e, (∀ c ∈ a, Scan.isQuote c = false) ∧ (∀ c ∈ a.getLast?, isWord c = false) ∧
    isBlankLine b = true ∧ isEnd e = true ∧ t = a ++ ("from".toList ++ (b ++ q :: (m ++ q :: e)))

theorem Sourced.not_mem {t m : Text} {q : Char} (h : Sourced t m q) : q ∉ m := by
  intro hmem
  have hquote := h.plain q hmem
  rw [isQuote_of_quote h.quote] at hquote
  cases hquote

theorem quotedName?_spec {r x : Text} (h : quotedName? r = some x) :
    ∃ q u, (q = '"' ∨ q = '\'') ∧ r = indentOf r ++ q :: u ∧ x = u.takeWhile (· != q) := by
  unfold quotedName? at h
  split at h
  · cases h
  · next q u hr =>
    rw [Option.ite_none_right_eq_some] at h
    obtain ⟨hq, rfl⟩ := by simpa using h
    exact ⟨q, u, hq.1, by rw [← hr, indentOf_append_trimLeft], rfl⟩

theorem takeWhile_quote {q : Char} {m e : Text} (h : q ∉ m) :
    (m ++ q :: e).takeWhile (· != q) = m := by
  have hm : ∀ c ∈ m, (c != q) = true := by
    intro c hc
    rw [bne_iff_ne]
    rintro rfl
    exact h hc
  rw [List.takeWhile_append_of_pos hm]
  simp

theorem dropWhile_quote {a : Text} (ha : ∀ c ∈ a, Scan.isQuote c = false) {q : Char}
    (hq : q = '"' ∨ q = '\'') (r : Text) : (a ++ q :: r).dropWhile (!Scan.isQuote ·) = q :: r := by
  rw [List.dropWhile_append_of_pos fun c hc => by simp [ha c hc], List.dropWhile_cons_of_neg]
  simp [isQuote_of_quote hq]

/-- The module is named behind the first `from` that a quote follows: whichever it is, the quote is
the first one of the text. -/
theorem sourceName?_shape {a b m e : Text} {q : Char} (ha : ∀ c ∈ a, Scan.isQuote c = false)
    (hb : isBlankLine b = true) (hq : q = '"' ∨ q = '\'') (hm : q ∉ m) {before : Option Char}
    (hedge : ∀ c ∈ a.getLast?.or before, isWord c = false) :
    sourceName? before (a ++ ("from".toList ++ (b ++ q :: (m ++ q :: e)))) = some m := by
  have hfrom : ∀ c ∈ "from".toList, Scan.isQuote c = false := not_quote_of_all rfl
  induction a generalizing before with
  | nil =>
    have hname : quotedName? (b ++ q :: (m ++ q :: e)) = some m := by
      unfold quotedName?
      rw [trimLeft_blank_cons hb (isBlank_of_quote hq)]
      simp [hq, takeWhile_quote hm]
    have hword : isWordEdge before (some 'f') = true := by
      have hbefore : before.any isWord = false := by
        cases before with
        | none => rfl
        | some c => simpa using hedge c
      simp only [isWordEdge, hbefore]
      decide
    have hdrop := dropWord?_append "from" (b ++ q :: (m ++ q :: e))
    have hcons : "from".toList ++ (b ++ q :: (m ++ q :: e)) =
        'f' :: ("rom".toList ++ (b ++ q :: (m ++ q :: e))) := rfl
    rw [hcons] at hdrop
    rw [List.nil_append, hcons, sourceName?, if_pos hword, hdrop, Option.bind_some, hname]
    rfl
  | cons c a ih =>
    obtain ⟨hc, ha⟩ := List.forall_mem_cons.mp ha
    have hrest := @ih ha (some c) (by
      cases hlast : a.getLast? <;> simpa [List.getLast?_cons, hlast] using hedge)
    have hhere : ∀ x, (dropWord? "from"
      (c :: (a ++ ("from".toList ++ (b ++ q :: (m ++ q :: e)))))).bind quotedName? =
        some x → x = m := by
      intro x hx
      obtain ⟨r, hr, hx⟩ := Option.bind_eq_some_iff.mp hx
      obtain ⟨q', u, hq', hru, rfl⟩ := quotedName?_spec hx
      have htext : (c :: a ++ ("from".toList ++ b)) ++ q :: (m ++ q :: e) =
          ("from".toList ++ indentOf r) ++ q' :: u := by
        rw [List.append_assoc "from".toList, ← hru, ← dropWord?_spec hr]
        simp
      have hfirst := congrArg (List.dropWhile (!Scan.isQuote ·)) htext
      rw [dropWhile_quote _ hq, dropWhile_quote _ hq'] at hfirst
      · cases hfirst
        exact takeWhile_quote hm
      · simp only [List.forall_mem_append]
        exact ⟨hfrom, not_quote_of_blankLine (isBlankLine_indentOf r)⟩
      · simp only [List.forall_mem_append, List.forall_mem_cons]
        exact ⟨⟨hc, ha⟩, hfrom, not_quote_of_blankLine hb⟩
    rw [List.cons_append, sourceName?, hrest]
    split
    · cases hx : (dropWord? "from" (c :: (a ++ ("from".toList ++ (b ++ q :: (m ++ q :: e)))))).bind
        quotedName? with
      | none => rfl
      | some x =>
        rw [hhere x hx]
        rfl
    · rfl

theorem Sourced.moduleName {s : Statement} {m : Text} {q : Char} (h : Sourced s.normalized m q) :
    s.moduleName = m := by
  obtain ⟨a, b, e, ha, hedge, hb, -, ht⟩ := h.shape
  have hname : sourceName? none s.normalized = some m := by
    rw [ht]
    exact sourceName?_shape ha hb h.quote h.not_mem (by simpa using hedge)
  simp [Statement.moduleName, hname]

theorem infix_append_of_not_mem {c : Char} {x : Text} (hx : c ∉ x) (w y : Text) :
    c :: w <:+: x ++ y ↔ c :: w <:+: y := by
  induction x with
  | nil => rfl
  | cons d x ih =>
    have hd : c ≠ d := fun heq => hx (heq ▸ List.mem_cons_self)
    rw [List.cons_append, List.infix_cons_iff, ih fun hmem => hx (List.mem_cons_of_mem _ hmem),
      List.cons_prefix_cons]
    simp [hd]

/-- What holds neither blanks nor semicolons does not reach into the end of a statement. -/
theorem prefix_of_prefix_append_end {w x e : Text} (hw : ∀ c ∈ w, isBlank c = false ∧ c ≠ ';')
    (he : isEnd e = true) (h : w <+: x ++ e) : w <+: x := by
  rcases List.prefix_or_prefix_of_prefix h (List.prefix_append x e) with hwx | ⟨v, rfl⟩
  · exact hwx
  · have hv : v <+: e := (List.prefix_append_right_inj x).mp h
    cases v with
    | nil => simp
    | cons c v =>
      obtain ⟨hblank, hsemicolon⟩ := hw c (by simp)
      rcases blank_or_semicolon he (hv.subset List.mem_cons_self) with hc | hc
      · rw [hc] at hblank
        cases hblank
      · exact absurd hc hsemicolon

/-- A quote is found together with what follows it only where the module begins. -/
theorem Sourced.occursIn_quote {t m : Text} {q : Char} (h : Sourced t m q) {q' : Char}
    (hq' : q' = '"' ∨ q' = '\'') {w : Text} (hw : ∀ c ∈ w, isBlank c = false ∧ c ≠ ';') :
    occursIn (q' :: w) t = true ↔ q' = q ∧ w <+: m ++ [q] := by
  obtain ⟨a, b, e, ha, -, hb, he, rfl⟩ := h.shape
  -- before the module, in it and behind it there is no quote
  have hnot {x : Text} (hx : ∀ c ∈ x, Scan.isQuote c = false) : q' ∉ x := by
    intro hmem
    have hquote := hx q' hmem
    rw [isQuote_of_quote hq'] at hquote
    cases hquote
  have hbefore : q' ∉ a ++ ("from".toList ++ b) := by
    refine hnot ?_
    simp only [List.forall_mem_append]
    exact ⟨ha, not_quote_of_all rfl, not_quote_of_blankLine hb⟩
  have hend : ¬q' :: w <:+: e := fun hfound =>
    hnot (fun c hc => not_quote_of_isEnd he hc) (hfound.subset List.mem_cons_self)
  have hjoin : a ++ ("from".toList ++ (b ++ q :: (m ++ q :: e))) =
      (a ++ ("from".toList ++ b)) ++ q :: (m ++ q :: e) := by simp
  rw [occursIn_iff, hjoin, infix_append_of_not_mem hbefore, List.infix_cons_iff,
    infix_append_of_not_mem (hnot h.plain), List.infix_cons_iff, List.cons_prefix_cons,
    List.cons_prefix_cons]
  simp only [hend, or_false]
  constructor
  · rintro (⟨hq, hstarts⟩ | ⟨hq, hstarts⟩)
    · have hjoin : m ++ q :: e = (m ++ [q]) ++ e := by simp
      exact ⟨hq, prefix_of_prefix_append_end hw he (hjoin ▸ hstarts)⟩
    · have hnil := List.prefix_nil.mp (prefix_of_prefix_append_end hw he hstarts)
      exact ⟨hq, hnil ▸ List.nil_prefix⟩
  · rintro ⟨hq, hstarts⟩
    refine .inl ⟨hq, hstarts.trans ?_⟩
    exact ⟨e, by simp⟩

theorem not_quote_of_nameChar {c : Char} (h : isNameChar c = true) : Scan.isQuote c = false := by
  have hsign := Scan.not_sign_of_nameChar h
  simp_all [Scan.isQuote, Scan.signs]

theorem not_quote_of_opening {k : Bool} {d : Option Text} {o : Text} (h : Opening k d o) :
    ∀ c ∈ o, Scan.isQuote c = false := by
  have hlead {d : Option Text} {l : Text} (hl : Lead d l) : ∀ c ∈ l, Scan.isQuote c = false := by
    cases hl with
    | bare => simp
    | @named name b b' hne hname hb hb' =>
      simp only [List.forall_mem_append, List.forall_mem_cons]
      exact ⟨fun c hc => not_quote_of_nameChar (hname c hc), not_quote_of_blankLine hb, rfl,
        not_quote_of_blankLine hb'⟩
  cases h with
  | plain hb hne hl =>
    simp only [List.forall_mem_append]
    exact ⟨not_quote_of_all rfl, not_quote_of_blankLine hb, hlead hl⟩
  | typed hb hne hb' hne' hl =>
    simp only [List.forall_mem_append]
    exact ⟨not_quote_of_all rfl, not_quote_of_blankLine hb, not_quote_of_all rfl,
      not_quote_of_blankLine hb', hlead hl⟩

/-- An import of named bindings names its module between the only two quotes, if its names and
the module hold none. -/
theorem sourced_of_shape {k : Bool} {d : Option Text} {o names m r : Text} {q : Char}
    (ho : Opening k d o) (hr : Closing m r q) (hnames : ∀ c ∈ names, Scan.isQuote c = false)
    (hm : ∀ c ∈ m, Scan.isQuote c = false) : Sourced (o ++ '{' :: (names ++ '}' :: r)) m q := by
  obtain ⟨b, b', e, hb, hb', he, rfl⟩ := hr.shape
  refine ⟨hr.quote, hm, o ++ '{' :: (names ++ '}' :: b), b', e, ?_, fun c hc => ?_, hb',
    he, by simp⟩
  · simp only [List.forall_mem_append, List.forall_mem_cons]
    exact ⟨not_quote_of_opening ho, rfl, hnames, rfl, not_quote_of_blankLine hb⟩
  · have hlast : c ∈ ('}' :: b).getLast? := by
      simpa [List.getLast?_append, List.getLast?_cons] using hc
    rcases List.mem_cons.mp (List.mem_of_getLast? hlast) with rfl | hmem
    · decide
    · have hname := Scan.not_nameChar_of_blank (List.all_eq_true.mp hb c hmem)
      simp_all [isNameChar]

theorem wordsOf_shape {k : Bool} {d : Option Text} {o names m r : Text} {q : Char}
    (ho : Opening k d o) (hr : Closing m r q) : wordsOf (o ++ '{' :: (names ++ '}' :: r)) =
      ["import".toList] ++ (if k then ["type".toList] else []) ++ d.toList.flatMap wordsOf ++
        (wordsOf names ++ (["from".toList] ++ wordsOf m)) := by
  rw [wordsOf_append_cons o rfl, wordsOf_append_cons names rfl, ho.wordsOf, hr.wordsOf]

/-- A statement that is broken into lines keeps its module, which is printed in double
quotes, and its words. -/
theorem sourced_asPrinted {cfg : Settings} {s : Statement} {i : NamedImport}
    (h : s.broken? cfg = some i) (hplain : i.isPlain = true) :
    (∃ q, Sourced s.normalized i.moduleName q) ∧
      Sourced (s.asPrinted cfg).normalized i.moduleName '"' ∧
      wordsOf (s.asPrinted cfg).normalized = wordsOf s.normalized := by
  have hread : read? s.normalized = some i := by
    rw [broken?, Option.ite_none_right_eq_some] at h
    exact (Option.filter_eq_some_iff.mp h.2).1
  have hflat : (s.asPrinted cfg).normalized = i.flat := by rw [normalized_asPrinted, h]
  obtain ⟨hnames, hm, -⟩ := isPlain_iff.mp hplain
  obtain ⟨o, r, q, ho, hr, ht⟩ := read?_spec hread
  have hclosing := closing_trail hr.nonempty
  have hjoined : ∀ c ∈ i.joinedNames, Scan.isQuote c = false := by
    simp only [joinedNames, List.forall_mem_append, List.forall_mem_flatMap, List.forall_mem_cons]
    refine ⟨fun p hp => ⟨rfl, fun c hc => ?_, rfl, by simp⟩, rfl, by simp⟩
    exact hnames c ((Scan.mem_splitTop hp).2.2 c hc)
  rw [hflat, ht, flat]
  refine ⟨⟨q, sourced_of_shape ho hr hnames hm⟩, sourced_of_shape ho.printed hclosing hjoined hm,
    ?_⟩
  rw [wordsOf_shape ho hr, wordsOf_shape ho.printed hclosing, wordsOf_joinedNames]

end Statement

end SourceLayout
