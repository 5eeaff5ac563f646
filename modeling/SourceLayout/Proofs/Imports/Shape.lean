import SourceLayout.Import.Reflow
import SourceLayout.Proofs.Kept.Head

/-! The shape of an import of named bindings. Reading an import gives the parts it is made of; and a
text that is made of such parts is read as what it is, whatever stands between its braces, if its
module holds no quote. -/

namespace SourceLayout
open Text

namespace NamedImport

/-- What stands before the opening brace, behind the keywords: nothing, or a name and a comma. -/
inductive Lead : Option Text → Text → Prop
  | bare : Lead none []
  | named {name b b' : Text} (hne : name ≠ []) (hname : ∀ c ∈ name, isNameChar c = true)
      (hb : isBlankLine b = true) (hb' : isBlankLine b' = true) :
      Lead (some name) (name ++ (b ++ ',' :: b'))

inductive Opening : Bool → Option Text → Text → Prop
  | plain {b : Text} {d : Option Text} {l : Text} (hb : isBlankLine b = true) (hne : b ≠ [])
      (hl : Lead d l) : Opening false d ("import".toList ++ (b ++ l))
  | typed {b b' : Text} {d : Option Text} {l : Text} (hb : isBlankLine b = true) (hne : b ≠ [])
      (hb' : isBlankLine b' = true) (hne' : b' ≠ []) (hl : Lead d l) :
      Opening true d ("import".toList ++ (b ++ ("type".toList ++ (b' ++ l))))

/-- What stands behind the closing brace: the word `from` and the module in quotes. -/
structure Closing (m t : Text) (q : Char) : Prop where
  quote : q = '"' ∨ q = '\''
  nonempty : m ≠ []
  shape : ∃ b b' e, isBlankLine b = true ∧ isBlankLine b' = true ∧ isEnd e = true ∧
    t = b ++ ("from".toList ++ (b' ++ q :: (m ++ q :: e)))

theorem afterBlanks?_spec {t r : Text} (h : afterBlanks? t = some r) :
    ∃ b, isBlankLine b = true ∧ b ≠ [] ∧ t = b ++ r := by
  simp only [afterBlanks?, Option.ite_none_right_eq_some, Option.some.injEq,
    Option.any_eq_true] at h
  obtain ⟨⟨c, hc, hblank⟩, rfl⟩ := h
  refine ⟨indentOf t, isBlankLine_indentOf t, ?_, (indentOf_append_trimLeft t).symm⟩
  obtain ⟨u, rfl⟩ := List.head?_eq_some_iff.mp hc
  simp [indentOf, hblank]

theorem bindings?_spec {t rest : Text} {d : Option Text} (h : bindings? t = some (d, rest)) :
    ∃ l, Lead d l ∧ t = l ++ '{' :: rest := by
  unfold bindings? at h
  split at h
  · cases h
    exact ⟨[], .bare, rfl⟩
  · simp only at h
    split at h
    · next r hcomma =>
      split at h
      · next rest' hbrace =>
        split at h
        · cases h
        · next hne =>
          cases h
          refine ⟨_, .named (by simpa using hne) (List.all_eq_true.mp List.all_takeWhile)
            (isBlankLine_indentOf (t.dropWhile isNameChar)) (isBlankLine_indentOf r), ?_⟩
          have hr := indentOf_append_trimLeft r
          have ht := indentOf_append_trimLeft (t.dropWhile isNameChar)
          rw [hbrace] at hr
          rw [hcomma, ← hr] at ht
          conv => lhs; rw [← List.takeWhile_append_dropWhile (p := isNameChar) (l := t), ← ht]
          simp
      · cases h
    · cases h

theorem head?_spec {t rest : Text} {k : Bool} {d : Option Text} (h : head? t = some (k, d, rest)) :
    ∃ o, Opening k d o ∧ t = o ++ '{' :: rest := by
  obtain ⟨r, hr, h⟩ := Option.bind_eq_some_iff.mp h
  obtain ⟨u, hu, hr⟩ := Option.bind_eq_some_iff.mp hr
  obtain ⟨b, hb, hne, rfl⟩ := afterBlanks?_spec hr
  have ht := dropWord?_spec hu
  simp only at h
  split at h
  · next d' rest' htyped =>
    cases h
    obtain ⟨v, hv, hbindings⟩ := Option.bind_eq_some_iff.mp htyped
    obtain ⟨w, hw, hv⟩ := Option.bind_eq_some_iff.mp hv
    obtain ⟨b', hb', hne', rfl⟩ := afterBlanks?_spec hv
    obtain ⟨l, hl, rfl⟩ := bindings?_spec hbindings
    refine ⟨_, .typed hb hne hb' hne' hl, ?_⟩
    rw [ht, dropWord?_spec hw]
    simp
  · obtain ⟨⟨d', rest'⟩, hbindings, heq⟩ := Option.map_eq_some_iff.mp h
    cases heq
    obtain ⟨l, hl, rfl⟩ := bindings?_spec hbindings
    refine ⟨_, .plain hb hne hl, ?_⟩
    rw [ht]
    simp

theorem closeName?_spec {q : Char} {t m : Text} (h : closeName? q t = some m) :
    m ≠ [] ∧ ∃ e, isEnd e = true ∧ t = m ++ q :: e := by
  induction t generalizing m with
  | nil => cases h
  | cons c r ih =>
    rw [closeName?] at h
    split at h
    · next hend =>
      cases h
      simp only [Bool.and_eq_true, beq_iff_eq] at hend
      obtain ⟨e, rfl⟩ := List.head?_eq_some_iff.mp hend.1
      exact ⟨by simp, e, by simpa using hend.2, rfl⟩
    · obtain ⟨m', hm', rfl⟩ := Option.map_eq_some_iff.mp h
      obtain ⟨-, e, he, rfl⟩ := ih hm'
      exact ⟨by simp, e, he, rfl⟩

theorem tail?_spec {t m : Text} (h : tail? t = some m) : ∃ q, Closing m t q := by
  obtain ⟨r, hr, h⟩ := Option.bind_eq_some_iff.mp h
  split at h
  · next q rest hrest =>
    split at h
    · next hq =>
      obtain ⟨hne, e, he, rfl⟩ := closeName?_spec h
      refine ⟨q, by simpa using hq, hne, indentOf t, indentOf r, e, isBlankLine_indentOf t,
        isBlankLine_indentOf r, he, ?_⟩
      rw [← hrest, indentOf_append_trimLeft, ← dropWord?_spec hr, indentOf_append_trimLeft]
    · cases h
  · cases h

theorem body?_spec {t names m : Text} (h : body? t = some (names, m)) :
    ∃ r, t = names ++ '}' :: r ∧ tail? r = some m := by
  induction t generalizing names with
  | nil => cases h
  | cons c t ih =>
    rw [body?] at h
    split at h
    · next names' m' hbody =>
      cases h
      obtain ⟨r, rfl, hr⟩ := ih hbody
      exact ⟨r, rfl, hr⟩
    · split at h
      · next hc =>
        obtain ⟨m', hm', heq⟩ := Option.map_eq_some_iff.mp h
        cases heq
        exact ⟨t, by simpa using hc, hm'⟩
      · cases h

/-- An import that is read begins, names and ends as imports do. -/
theorem read?_spec {t : Text} {i : NamedImport} (h : read? t = some i) :
    ∃ o r q, Opening i.typeOnly i.default? o ∧ Closing i.moduleName r q ∧
      t = o ++ '{' :: (i.names ++ '}' :: r) := by
  obtain ⟨⟨k, d, rest⟩, hhead, h⟩ := Option.bind_eq_some_iff.mp h
  obtain ⟨⟨names, m⟩, hbody, h⟩ := Option.bind_eq_some_iff.mp h
  cases h
  obtain ⟨o, ho, rfl⟩ := head?_spec hhead
  obtain ⟨r, rfl, hr⟩ := body?_spec hbody
  obtain ⟨q, hq⟩ := tail?_spec hr
  exact ⟨o, r, q, ho, hq, rfl⟩

/-! ## Reading the shape -/

theorem trimLeft_blank_append {b r : Text} (hb : isBlankLine b = true)
    (hr : ∀ c ∈ r.head?, isBlank c = false) : trimLeft (b ++ r) = r := by
  have hdrop : trimLeft (b ++ r) = trimLeft r :=
    List.dropWhile_append_of_pos (List.all_eq_true.mp hb)
  rw [hdrop, trimLeft_eq_self hr]

theorem trimLeft_blank_cons {b : Text} (hb : isBlankLine b = true) {c : Char}
    (hc : isBlank c = false) (r : Text) : trimLeft (b ++ c :: r) = c :: r :=
  trimLeft_blank_append hb fun d hd => by
    cases hd
    exact hc

theorem afterBlanks?_append {b r : Text} (hb : isBlankLine b = true) (hne : b ≠ [])
    (hr : ∀ c ∈ r.head?, isBlank c = false) : afterBlanks? (b ++ r) = some r := by
  obtain ⟨c, u, rfl⟩ := List.exists_cons_of_ne_nil hne
  have hc : isBlank c = true := List.all_eq_true.mp hb c List.mem_cons_self
  rw [afterBlanks?, trimLeft_blank_append hb hr, if_pos]
  simp [hc]

/-- The run of name characters at the beginning of a text. -/
theorem takeWhile_name {name r : Text} (hname : ∀ c ∈ name, isNameChar c = true)
    (hr : ∀ c ∈ r.head?, isNameChar c = false) :
    (name ++ r).takeWhile isNameChar = name ∧ (name ++ r).dropWhile isNameChar = r := by
  rw [List.takeWhile_append_of_pos hname, List.dropWhile_append_of_pos hname]
  cases r with
  | nil => simp
  | cons c r => simp [hr c rfl]

theorem not_nameChar_of_lead {b r : Text} (hb : isBlankLine b = true) :
    ∀ c ∈ (b ++ ',' :: r).head?, isNameChar c = false := by
  intro c hc
  cases b with
  | nil =>
    cases hc
    decide
  | cons d b =>
    cases hc
    exact Scan.not_nameChar_of_blank (List.all_eq_true.mp hb c List.mem_cons_self)

theorem Lead.head {d : Option Text} {l : Text} (h : Lead d l) (r : Text) :
    ∀ c ∈ (l ++ '{' :: r).head?, isBlank c = false ∧ c ≠ ',' := by
  intro c hc
  cases h with
  | bare =>
    cases hc
    decide
  | @named name b b' hne hname hb hb' =>
    obtain ⟨e, u, rfl⟩ := List.exists_cons_of_ne_nil hne
    cases hc
    have hchar := hname c List.mem_cons_self
    constructor
    · rw [Bool.eq_false_iff]
      intro hblank
      rw [Scan.not_nameChar_of_blank hblank] at hchar
      cases hchar
    · rintro rfl
      revert hchar
      decide

theorem bindings?_lead {d : Option Text} {l : Text} (h : Lead d l) (rest : Text) :
    bindings? (l ++ '{' :: rest) = some (d, rest) := by
  cases h with
  | bare => rfl
  | @named name b b' hne hname hb hb' =>
    have hjoin : name ++ (b ++ ',' :: b') ++ '{' :: rest =
        name ++ (b ++ ',' :: (b' ++ '{' :: rest)) := by simp
    obtain ⟨htake, hdrop⟩ := takeWhile_name hname (not_nameChar_of_lead (r := b' ++ '{' :: rest) hb)
    rw [hjoin]
    unfold bindings?
    split
    · next r heq =>
      obtain ⟨e, u, rfl⟩ := List.exists_cons_of_ne_nil hne
      cases heq
      exact absurd (hname '{' List.mem_cons_self) (by decide)
    · simp only [htake, hdrop, trimLeft_blank_cons hb (c := ',') rfl,
        trimLeft_blank_cons hb' (c := '{') rfl]
      simp [hne]

/-- What stands before the opening brace of an import without the word `type` is
not read as one with it. -/
theorem typed_eq_none {d : Option Text} {l : Text} (h : Lead d l) (rest : Text) :
    ((dropWord? "type" (l ++ '{' :: rest)).bind afterBlanks?).bind bindings? = none := by
  rw [Option.eq_none_iff_forall_ne_some]
  rintro ⟨d', rest'⟩ htyped
  obtain ⟨v, hv, hbindings⟩ := Option.bind_eq_some_iff.mp htyped
  obtain ⟨w, hw, hv⟩ := Option.bind_eq_some_iff.mp hv
  obtain ⟨b₂, hb₂, hne₂, rfl⟩ := afterBlanks?_spec hv
  obtain ⟨l', hl', rfl⟩ := bindings?_spec hbindings
  have heq := dropWord?_spec hw
  cases h with
  | bare => cases heq
  | @named name b b' hne hname hb hb' =>
    -- the name is the word itself, and then a comma stands where a name or a brace has to
    have hjoin : name ++ (b ++ ',' :: b') ++ '{' :: rest =
        name ++ (b ++ ',' :: (b' ++ '{' :: rest)) := by simp
    have hblank : ∀ c ∈ (b₂ ++ (l' ++ '{' :: rest')).head?, isNameChar c = false := by
      obtain ⟨e, u, rfl⟩ := List.exists_cons_of_ne_nil hne₂
      intro c hc
      cases hc
      exact Scan.not_nameChar_of_blank (List.all_eq_true.mp hb₂ e List.mem_cons_self)
    obtain ⟨htake, hdrop⟩ := takeWhile_name hname (not_nameChar_of_lead (r := b' ++ '{' :: rest) hb)
    obtain ⟨htake', hdrop'⟩ := @takeWhile_name "type".toList _ (List.all_eq_true.mp rfl) hblank
    rw [hjoin] at heq
    rw [heq, hdrop'] at hdrop
    have htrim := congrArg trimLeft hdrop
    rw [trimLeft_blank_append hb₂ fun c hc => (hl'.head _ c hc).1, trimLeft_blank_cons hb rfl]
      at htrim
    exact (hl'.head rest' ',' (by rw [htrim]; rfl)).2 rfl

/-- Every opening is read as what it is. -/
theorem head?_opening {k : Bool} {d : Option Text} {o : Text} (h : Opening k d o) (rest : Text) :
    head? (o ++ '{' :: rest) = some (k, d, rest) := by
  cases h with
  | @plain b d l hb hne hl =>
    have hread : ((dropWord? "import" ("import".toList ++ (b ++ l) ++ '{' :: rest)).bind
      afterBlanks?) =
        some (l ++ '{' :: rest) := by
      rw [List.append_assoc, dropWord?_append, Option.bind_some, List.append_assoc,
        afterBlanks?_append hb hne fun c hc => (hl.head rest c hc).1]
    unfold head?
    rw [hread]
    simp [typed_eq_none hl, bindings?_lead hl]
  | @typed b b' d l hb hne hb' hne' hl =>
    have hread : ((dropWord? "import" ("import".toList ++ (b ++ ("type".toList ++ (b' ++ l))) ++
        '{' :: rest)).bind afterBlanks?) = some ("type".toList ++ (b' ++ (l ++ '{' :: rest))) := by
      simp only [List.append_assoc]
      rw [dropWord?_append, Option.bind_some, afterBlanks?_append hb hne]
      intro c hc
      cases hc
      rfl
    have htyped : ((dropWord? "type" ("type".toList ++ (b' ++ (l ++ '{' :: rest)))).bind
      afterBlanks?).bind
        bindings? = some (d, rest) := by
      rw [dropWord?_append, Option.bind_some, afterBlanks?_append hb' hne' fun c hc =>
        (hl.head rest c hc).1, Option.bind_some, bindings?_lead hl]
    unfold head?
    rw [hread]
    simp only [Option.bind_eq_bind, Option.bind_some, htyped]

theorem closeName?_append {q : Char} {m e : Text} (hm : m ≠ []) (hq : q ∉ m) (he : isEnd e = true) :
    closeName? q (m ++ q :: e) = some m := by
  induction m with
  | nil => exact absurd rfl hm
  | cons c m ih =>
    cases m with
    | nil => simp [closeName?, he]
    | cons c' m =>
      have hne : c' ≠ q := by
        rintro rfl
        simp at hq
      have hrest := ih (by simp) fun hmem => hq (List.mem_cons_of_mem _ hmem)
      rw [List.cons_append, closeName?, hrest]
      simp [hne]

theorem isBlank_of_quote {q : Char} (hq : q = '"' ∨ q = '\'') : isBlank q = false := by
  rcases hq with rfl | rfl <;> decide

/-- Every closing whose module holds no quote is read as what it is. -/
theorem Closing.tail? {m t : Text} {q : Char} (h : Closing m t q) (hm : q ∉ m) :
    tail? t = some m := by
  obtain ⟨b, b', e, hb, hb', he, rfl⟩ := h.shape
  have hfrom : trimLeft (b ++ ("from".toList ++ (b' ++ q :: (m ++ q :: e)))) =
      "from".toList ++ (b' ++ q :: (m ++ q :: e)) := trimLeft_blank_cons hb (c := 'f') rfl _
  unfold NamedImport.tail?
  rw [hfrom, dropWord?_append]
  simp only [Option.bind_eq_bind, Option.bind_some,
    trimLeft_blank_cons hb' (isBlank_of_quote h.quote)]
  rw [if_pos (by simpa using h.quote), closeName?_append h.nonempty hm he]

theorem isQuote_of_quote {q : Char} (hq : q = '"' ∨ q = '\'') : Scan.isQuote q = true := by
  rcases hq with rfl | rfl <;> rfl

/-- A text with at most one quote does not end as an import does. -/
theorem tail?_eq_none {t : Text} (h : t.countP Scan.isQuote ≤ 1) : tail? t = none := by
  rw [Option.eq_none_iff_forall_ne_some]
  intro m hm
  obtain ⟨q, hq, -, b, b', e, -, -, -, rfl⟩ := tail?_spec hm
  simp only [List.countP_append, List.countP_cons, isQuote_of_quote hq, if_true] at h
  omega

theorem body?_eq_none {t : Text} (h : t.countP Scan.isQuote ≤ 1) : body? t = none := by
  induction t with
  | nil => rfl
  | cons c t ih =>
    have ht : t.countP Scan.isQuote ≤ 1 := by
      rw [List.countP_cons] at h
      omega
    simp [body?, ih ht, tail?_eq_none ht]

theorem body?_append_of_no_brace {x y : Text} (hx : '}' ∉ x) (hy : body? y = none) :
    body? (x ++ y) = none := by
  induction x with
  | nil => exact hy
  | cons c x ih =>
    have hc : c ≠ '}' := fun heq => hx (heq ▸ List.mem_cons_self)
    rw [List.cons_append, body?, ih fun hmem => hx (List.mem_cons_of_mem _ hmem)]
    simp [hc]

theorem body?_append {r m : Text} (hr : body? r = none) (hm : tail? r = some m) (names : Text) :
    body? (names ++ '}' :: r) = some (names, m) := by
  induction names with
  | nil => simp [body?, hr, hm]
  | cons c names ih => rw [List.cons_append, body?, ih]

theorem blank_or_semicolon {e : Text} (he : isEnd e = true) {c : Char} (hc : c ∈ e) :
    isBlank c = true ∨ c = ';' := by
  rw [← indentOf_append_trimLeft e, List.mem_append] at hc
  simp only [isEnd, Bool.or_eq_true, beq_iff_eq] at he
  rcases hc with hc | hc
  · exact .inl (List.all_eq_true.mp (isBlankLine_indentOf e) c hc)
  · rcases he with he | he
    · rw [he] at hc
      cases hc
    · rw [he] at hc
      exact .inr (List.mem_singleton.mp hc)

theorem not_quote_of_blank {c : Char} (h : isBlank c = true) : Scan.isQuote c = false := by
  rw [Bool.eq_false_iff]
  intro hc
  have hcases : (c = '\'' ∨ c = '"') ∨ c = '`' := by simpa [Scan.isQuote] using hc
  rcases hcases with (rfl | rfl) | rfl <;> (revert h; decide)

theorem not_quote_of_blankLine {b : Text} (hb : isBlankLine b = true) :
    ∀ c ∈ b, Scan.isQuote c = false :=
  fun c hc => not_quote_of_blank (List.all_eq_true.mp hb c hc)

theorem not_quote_of_all {t : Text} (h : t.all (!Scan.isQuote ·) = true) :
    ∀ c ∈ t, Scan.isQuote c = false := by
  simpa using h

theorem not_quote_of_isEnd {e : Text} (he : isEnd e = true) {c : Char} (hc : c ∈ e) :
    Scan.isQuote c = false := by
  rcases blank_or_semicolon he hc with hc | rfl
  · exact not_quote_of_blank hc
  · rfl

theorem countP_quote {t : Text} (h : ∀ c ∈ t, Scan.isQuote c = false) : t.countP Scan.isQuote = 0 :=
  List.countP_eq_zero.mpr fun c hc => by simp [h c hc]

/-- An import of this shape is read as what it is, whatever its names are, if its
module holds no quote. -/
theorem read?_shape {k : Bool} {d : Option Text} {o m r : Text} {q : Char} (ho : Opening k d o)
    (hr : Closing m r q) (hm : ∀ c ∈ m, Scan.isQuote c = false) (names : Text) :
    read? (o ++ '{' :: (names ++ '}' :: r)) = some ⟨k, d, names, m⟩ := by
  have hqm : q ∉ m := by
    intro hmem
    have hquote := hm q hmem
    rw [isQuote_of_quote hr.quote] at hquote
    cases hquote
  have hbody : body? r = none := by
    obtain ⟨b, b', e, hb, hb', he, rfl⟩ := hr.shape
    have hbrace {a : Text} (ha : isBlankLine a = true) : '}' ∉ a := fun hmem =>
      absurd (List.all_eq_true.mp ha '}' hmem) (by decide)
    have hfew : (m ++ q :: e).countP Scan.isQuote ≤ 1 := by
      rw [List.countP_append, List.countP_cons, countP_quote hm,
        countP_quote fun c hc => not_quote_of_isEnd he hc, isQuote_of_quote hr.quote]
      simp
    have hq : '}' ∉ [q] := by
      rcases hr.quote with rfl | rfl <;> decide
    refine body?_append_of_no_brace (hbrace hb) (body?_append_of_no_brace (by decide) ?_)
    refine body?_append_of_no_brace (hbrace hb') (body?_append_of_no_brace (x := [q]) hq ?_)
    exact body?_eq_none hfew
  have hread := body?_append hbody (hr.tail? hqm) names
  simp [read?, head?_opening ho, hread]

end NamedImport

end SourceLayout
