import SourceLayout.Proofs.Literals.Clean
import SourceLayout.Proofs.Stable.Field

/-! The strings of a field. The name of a field is read without regard to escapes, so it may end in
the middle of a string; a text that shows no such end is called tame. Behind a name that ends
outside strings the blanks around the question mark and the colon belong to no string. -/

namespace SourceLayout
open Text Scan

/-! ## Tame texts -/

namespace Scan

/-- A closing bracket or an escaped quote, and behind it what makes the name of a field of it. -/
def endsName : Text → Bool
  | ']' :: r => Member.goesOn [':'] r
  | '\\' :: '\'' :: r => Member.goesOn [':'] r
  | '\\' :: '"' :: r => Member.goesOn [':'] r
  | _ => false

/-- No name of a field ends anywhere in the text, which is made of the characters of strings. -/
def tame : Text → Bool
  | [] => true
  | c :: r => !endsName (c :: r) && tame r

theorem goesOn_append {r : Text} (h : Member.goesOn [':'] r = true) (y : Text) :
    Member.goesOn [':'] (r ++ y) = true := by
  rcases hq : MethodHead.questionMark r with ⟨optional, u⟩
  rw [Member.goesOn, hq] at h
  obtain ⟨r', rfl⟩ : ∃ r', u = ':' :: r' := by
    cases u with
    | nil => cases h
    | cons c r' => exact ⟨r', by simpa using h⟩
  obtain ⟨a, b, ha, hb, rfl⟩ := FieldHead.exists_mark hq
  have hmark := FieldHead.questionMark_mark optional ha hb [] (r' ++ y)
  rw [FieldHead.mark, List.append_assoc, List.singleton_append] at hmark
  rw [Member.goesOn, List.append_assoc, List.cons_append, hmark]
  rfl

theorem endsName_append {t : Text} (h : endsName t = true) (y : Text) :
    endsName (t ++ y) = true := by
  unfold endsName at h
  split at h
  · exact goesOn_append h y
  · exact goesOn_append h y
  · exact goesOn_append h y
  · cases h

theorem tame_suffix {x y : Text} (h : tame (x ++ y) = true) : tame y = true := by
  induction x with
  | nil => exact h
  | cons c x ih =>
    rw [List.cons_append, tame, Bool.and_eq_true] at h
    exact ih h.2

theorem tame_append {x y : Text} (h : tame (x ++ y) = true) : tame x = true ∧ tame y = true := by
  refine ⟨?_, tame_suffix h⟩
  induction x with
  | nil => rfl
  | cons c x ih =>
    rw [List.cons_append, tame, Bool.and_eq_true] at h
    rw [tame, ih h.2, Bool.and_true, Bool.not_eq_true', Bool.eq_false_iff]
    intro hends
    have hlonger := endsName_append hends y
    rw [List.cons_append] at hlonger
    rw [hlonger] at h
    cases h.1

theorem not_endsName {x t : Text} (h : tame (x ++ t) = true) : endsName t = false := by
  have ht := tame_suffix h
  cases t with
  | nil => rfl
  | cons c t =>
    rw [tame, Bool.and_eq_true, Bool.not_eq_true'] at ht
    exact ht.1

/-! ## Inside a string -/

/-- In a string without its quote everything belongs to it; it is left behind a
backslash or between tokens. -/
theorem string_read {q : Char} {p : Phase} {s : State} (hp : p = .free ∨ p = .escaped)
    (hq : s.quote = some q) (hb : s.inBlock = false) {u : Text} (hu : q ∉ u) (v : Text) :
    stringChars (marksFrom p s (u ++ v)) =
        u ++ stringChars (marksFrom (endBefore v p s u).1 (endBefore v p s u).2 v) ∧
      (endBefore v p s u).2.quote = some q ∧ (endBefore v p s u).2.inBlock = false ∧
      ((endBefore v p s u).1 = .free ∨ (endBefore v p s u).1 = .escaped ∧
        (u = [] ∧ p = .escaped ∨ u.getLast? = some '\\')) := by
  induction u generalizing p s with
  | nil => exact ⟨rfl, hq, hb, hp.imp_right fun he => ⟨he, .inl ⟨rfl, he⟩⟩⟩
  | cons c u ih =>
    rw [List.mem_cons, not_or] at hu
    have hne : (c == q) = false := by simpa using Ne.symm hu.1
    -- one character: it is part of the string, and only a backslash leads into an escape
    obtain ⟨hkind, hphase, hstate⟩ : (step p s c (u ++ v).head?).1 = ⟨c, s.depth, .string⟩ ∧
        ((step p s c (u ++ v).head?).2.1 = .free ∨
          (step p s c (u ++ v).head?).2.1 = .escaped ∧ c = '\\') ∧ (step p s c (u ++ v).head?).2.2 =
          s := by
      rcases hp with rfl | rfl
      · simp only [step, stepFree, hb, hq, hne, Bool.false_eq_true, ↓reduceIte]
        split
        · next hescape =>
          rw [Bool.and_eq_true, beq_iff_eq] at hescape
          exact ⟨trivial, .inr ⟨rfl, hescape.1⟩, rfl⟩
        · exact ⟨trivial, .inl rfl, rfl⟩
      · exact ⟨rfl, .inl rfl, rfl⟩
    obtain ⟨hchars, hquote, hblock, hend⟩ :=
      ih (p := (step p s c (u ++ v).head?).2.1) (hphase.imp_right And.left) hq hb hu.2
    rw [List.cons_append, marksFrom_cons, endBefore, hstate, hkind]
    refine ⟨?_, hquote, hblock, ?_⟩
    · rw [stringChars, List.filter_cons_of_pos rfl, List.map_cons]
      exact congrArg _ hchars
    · rcases hend with hend | ⟨hend, hlast⟩
      · exact .inl hend
      · refine .inr ⟨hend, .inr ?_⟩
        rcases hlast with ⟨rfl, hescaped⟩ | hlast
        · rcases hphase with hfree | ⟨-, rfl⟩
          · rw [hfree] at hescaped
            cases hescaped
          · rfl
        · rw [List.getLast?_cons, hlast]
          rfl

theorem marksFrom_before (p : Phase) (s : State) (u v : Text) :
    ∃ ms, marksFrom p s (u ++ v) =
      ms ++ marksFrom (endBefore v p s u).1 (endBefore v p s u).2 v := by
  induction u generalizing p s with
  | nil => exact ⟨[], rfl⟩
  | cons c u ih =>
    obtain ⟨ms, hms⟩ := ih (step p s c (u ++ v).head?).2.1 (step p s c (u ++ v).head?).2.2
    exact ⟨_ :: ms, by rw [List.cons_append, marksFrom_cons, hms]; rfl⟩

end Scan

/-! ## Where a name ends -/

namespace FieldHead

/-- The end of a name that is still in a string. -/
def CutsString (k : Text) : Prop :=
  ∃ x, literals k = x ++ [']'] ∨ ∃ q, (q = '\'' ∨ q = '"') ∧ literals k = x ++ ['\\', q]

/-- A bracket belongs to a string or ends outside strings. -/
theorem outside_of_bracket (u : Text) :
    (endFrom .free {} (u ++ [']'])).2.quote = none ∨ CutsString (u ++ [']']) := by
  obtain ⟨ms, hms⟩ := marksFrom_before .free {} u [']']
  have hsane := sane_start.endBefore u [']']
  rw [endFrom_concat]
  rw [CutsString, literals, marks, hms]
  generalize endBefore [']'] .free {} u = y at hsane
  cases hq : y.2.quote with
  | none =>
    have hphase : y.1 ≠ .escaped := hsane.not_escaped hq
    exact .inl (step_no_quote hphase hq (by decide) none).2.2
  | some q =>
    obtain ⟨hb, hp⟩ := hsane.quote (by rw [hq]; rfl)
    refine .inr ⟨stringChars ms, .inl ?_⟩
    have hkind : (step y.1 y.2 ']' none).1 = ⟨']', y.2.depth, .string⟩ := by
      rcases hp with hp | hp <;> rw [hp] <;> simp [step, stepFree, hb, hq]
    rw [stringChars_append, marksFrom_cons, List.head?_nil, hkind]
    rfl

/-- A quoted name ends at its quote, unless that quote is escaped. -/
theorem outside_of_quoted {q : Char} (hq : q = '\'' ∨ q = '"') {lead inner : Text}
    (hlead : lead.all isInert = true) (hinner : q ∉ inner) :
    (endFrom .free {} (lead ++ q :: inner ++ [q])).2.quote = none ∨
    CutsString (lead ++ q :: inner ++ [q]) := by
  have hquote : isQuote q = true := by rcases hq with rfl | rfl <;> rfl
  have hcode := (inert_read inCode_start hlead).2
  have hcut : Cuts .free {} lead (q :: (inner ++ [q])) :=
    .inl fun c hc => not_joins_of_inert (List.all_eq_true.mp hlead c (List.mem_of_mem_getLast? hc))
  have hopen (s : State) (hs : InCode (.free, s)) (next : Option Char) :
      step .free s q next =
        (⟨q, s.depth, .string⟩, .free, { s with quote := some q, previous := some q }) := by
    have hb : s.inBlock = false := hs.inBlock
    have hnone : s.quote = none := hs.quote
    simp only [step, stepFree, hb, hnone, hquote, Bool.false_eq_true, ↓reduceIte]
  have htext : lead ++ q :: inner ++ [q] = lead ++ q :: (inner ++ [q]) := by simp
  rw [htext, CutsString, literals, marks, marksFrom_cut hcut, endFrom_append hcut,
    stringChars_append, ← marks, ← literals, literals_inert hlead, List.nil_append]
  obtain ⟨hphase, hlex⟩ := hcode
  generalize endFrom .free {} lead = x at hphase hlex
  rw [hphase, marksFrom_cons, endFrom, hopen x.2 ⟨rfl, hlex⟩]
  have hb : x.2.inBlock = false := congrArg Prod.snd hlex
  obtain ⟨hchars, hq', hb', hend⟩ :=
    string_read (p := .free) (s := { x.2 with quote := some q, previous := some q })
      (.inl rfl) rfl hb hinner [q]
  simp only
  rw [endFrom_concat]
  generalize endBefore [q] .free _ inner = y at hchars hq' hb' hend
  rcases hend with hfree | ⟨hescaped, hlast⟩
  · left
    have hslash : (q == '\\') = false := by rcases hq with rfl | rfl <;> rfl
    simp [hfree, step, stepFree, hb', hq', hslash]
  · right
    obtain ⟨front, rfl⟩ : ∃ front, inner = front ++ ['\\'] := by
      rcases hlast with ⟨-, hfree⟩ | hlast
      · cases hfree
      · exact List.getLast?_eq_some_iff.mp hlast
    refine ⟨q :: front, .inr ⟨q, hq, ?_⟩⟩
    rw [hescaped] at hchars
    rw [stringChars, List.filter_cons_of_pos rfl, List.map_cons, ← stringChars, hchars]
    simp [marksFrom, step, stringChars]

theorem enclosed?_eq {o close : Char} {allowEmpty : Bool} {t n r : Text} (ho : t.head? = some o)
    (h : enclosed? close allowEmpty t = some (n, r)) :
    ∃ inner, n = o :: inner ++ [close] ∧ close ∉ inner := by
  cases t with
  | nil => cases ho
  | cons d t =>
    obtain rfl : d = o := Option.some.inj ho
    unfold enclosed? at h
    simp only at h
    split at h
    · cases h
    · next c rest hc =>
      simp only [Option.ite_none_left_eq_some, Option.some.injEq, Prod.mk.injEq] at h
      obtain ⟨-, rfl, -⟩ := h
      obtain rfl : c = close := by
        have hfirst := List.head?_dropWhile_not (· != close) t
        rw [hc] at hfirst
        simpa using hfirst
      exact ⟨t.takeWhile (· != c), rfl, fun hmem => by
        simpa using List.all_eq_true.mp (List.all_takeWhile (p := (· != c))) c hmem⟩

theorem outside_of_name {n t r : Text} (h : name? t = some (n, r)) {lead : Text}
    (hlead : lead.all isInert = true) :
    (endFrom .free {} (lead ++ n)).2.quote = none ∨ CutsString (lead ++ n) := by
  unfold name? at h
  split at h
  · cases h
  · next ht =>
    obtain ⟨inner, rfl, -⟩ := enclosed?_eq ht h
    rw [← List.append_assoc]
    exact outside_of_bracket _
  · next ht =>
    obtain ⟨inner, rfl, hinner⟩ := enclosed?_eq ht h
    rw [← List.append_assoc]
    exact outside_of_quoted (.inr rfl) hlead hinner
  · next ht =>
    obtain ⟨inner, rfl, hinner⟩ := enclosed?_eq ht h
    rw [← List.append_assoc]
    exact outside_of_quoted (.inl rfl) hlead hinner
  · next c _ _ _ _ =>
    simp only [Option.ite_none_right_eq_some, Option.some.injEq, Prod.mk.injEq] at h
    obtain ⟨-, rfl, -⟩ := h
    have hname : (lead ++ t.takeWhile isNameChar).all isInert = true := by
      rw [List.all_append, hlead, Bool.true_and]
      exact List.all_eq_true.mpr fun c hc =>
        isInert_of_nameChar (List.all_eq_true.mp List.all_takeWhile c hc)
    exact .inl (clean_inert hname).closes.quote

theorem outside_of_key {t : Text} {h : FieldHead} (hr : read? t = some h) :
    (endFrom .free {} h.key).2.quote = none ∨ CutsString h.key := by
  have hafter {lead t : Text} (hlead : lead.all isInert = true) (ha : after? lead t = some h) :
      (endFrom .free {} h.key).2.quote = none ∨ CutsString h.key := by
    obtain ⟨⟨n, r⟩, hname, hrest⟩ := Option.bind_eq_some_iff.mp ha
    rcases hq : MethodHead.questionMark r with ⟨optional, r₁⟩
    simp only [hq] at hrest
    split at hrest
    · obtain ⟨v, -, rfl⟩ := Option.map_eq_some_iff.mp hrest
      exact outside_of_name hname hlead
    · cases hrest
  simp only [read?, Option.orElse_eq_orElse, Option.orElse_eq_or, Option.or_eq_some_iff] at hr
  rcases hr with hr | ⟨-, hr⟩
  · obtain ⟨⟨lead, rest⟩, hl, ha⟩ := Option.bind_eq_some_iff.mp hr
    obtain ⟨r, -, -, rfl, -⟩ := readonly?_iff.mp hl
    refine hafter ?_ ha
    rw [List.all_append, inert_blank (isBlankLine_indentOf r)]
    decide
  · exact hafter rfl hr

/-- A head on one line: its key, what stands between the key and the value, and the value. -/
theorem read?_soft {t : Text} {h : FieldHead} (hr : read? t = some h) (hn : '\n' ∉ t) :
    (∀ c ∈ h.key.getLast?, joins c = false) ∧ ∃ m, m.all isSoft = true ∧
      (∀ r, Member.goesOn [':'] (m ++ r) = true) ∧ t = h.key ++ (m ++ h.value) := by
  obtain ⟨hkey, a, b, c, ha, hb, hc, rfl, -⟩ := isKey_of_read? hr hn
  refine ⟨fun d hd => (hkey.last d hd).1, mark h.optional a b c, ?_, fun r => ?_, rfl⟩
  · exact mark_soft ha hb hc fun hmem => hn (by simp [hmem])
  · rw [Member.goesOn, questionMark_mark h.optional ha hb]
    rfl

/-- The name of a field ends outside strings if the strings of its line are tame. -/
theorem quote_key {t : Text} {h : FieldHead} (hr : read? t = some h) (hn : '\n' ∉ t)
    (ht : tame (literals t) = true) : (endFrom .free {} h.key).2.quote = none := by
  obtain ⟨hlast, m, hm, hgoes, htext⟩ := read?_soft hr hn
  have hsane := sane_start.endBefore h.key []
  rw [endBefore_nil] at hsane
  cases hq : (endFrom .free {} h.key).2.quote with
  | none => rfl
  | some q =>
    -- what makes a field of it would belong to the string that goes on behind the key
    obtain ⟨hblock, hphase⟩ := hsane.quote (by rw [hq]; rfl)
    have hmark : q ∉ m := fun hmem => by
      have hno := not_quote_of_inert (isInert_of_soft (List.all_eq_true.mp hm q hmem))
      rw [hsane.quoted q hq] at hno
      cases hno
    obtain ⟨rest, hrest⟩ : ∃ rest,
      stringChars (marksFrom (endFrom .free {} h.key).1 (endFrom .free {} h.key).2
        (m ++ h.value)) = m ++ rest := ⟨_, (string_read hphase hq hblock hmark h.value).1⟩
    have hstrings : literals t = literals h.key ++ (m ++ rest) := by
      rw [htext, literals, marks, marksFrom_cut (.inl hlast), stringChars_append, hrest]
      rfl
    rw [hstrings] at ht
    obtain ⟨x, hcut⟩ := (outside_of_key hr).resolve_left (by simp [hq])
    rcases hcut with hcut | ⟨q', hq', hcut⟩
    · rw [hcut, List.append_assoc] at ht
      have hno := not_endsName ht
      rw [List.singleton_append, endsName, hgoes] at hno
      cases hno
    · rw [hcut, List.append_assoc] at ht
      have hno := not_endsName ht
      rcases hq' with rfl | rfl <;>
      · rw [List.cons_append, List.singleton_append, endsName, hgoes] at hno
        cases hno

/-! ## Another spacing -/

/-- Behind a key that ends outside strings the blanks, the question mark and
the colon say nothing. -/
theorem read_respaced {k m m' : Text} (hk : ∀ c ∈ k.getLast?, joins c = false)
    (hq : (endFrom .free {} k).2.quote = none) (hm : m.all isSoft = true)
    (hm' : m'.all isSoft = true) (v : Text) :
    literals (k ++ (m ++ v)) = literals (k ++ (m' ++ v)) ∧
    ending (k ++ (m ++ v)) = ending (k ++ (m' ++ v)) := by
  have hquiet := endFrom_quiet (p := .free) {} (t := k) (.inl rfl)
  have hquoted : (endFrom .free {} k).2.Quoted := .of_none hq
  have hread {m : Text} (hm : m.all isSoft = true) :
      literals (k ++ (m ++ v)) =
          literals k ++ stringChars (marksFrom (endFrom .free {} k).1 (endFrom .free {} k).2 v) ∧
        ending (k ++ (m ++ v)) = ((endFrom (endFrom .free {} k).1 (endFrom .free {} k).2 v).1,
          (endFrom (endFrom .free {} k).1 (endFrom .free {} k).2 v).2.lex) := by
    have hinert := List.all_eq_true.mp (inert_soft hm)
    have hcutKey (u : Text) : Cuts .free {} k u := .inl hk
    have hcutMark (p : Phase) (s : State) : Cuts p s m v :=
      .inl fun c hc => not_joins_of_inert (hinert c (List.mem_of_mem_getLast? hc))
    obtain ⟨-, -, -, hphase, hlex⟩ := endFrom_soft hquiet hquoted hm
    have hnone := (no_strings (not_escaped_at_end {} k) hq fun c hc =>
      not_quote_of_inert (hinert c hc)).1
    obtain ⟨hend, hendLex, -⟩ := endFrom_lex hlex (endFrom .free {} k).1 v
    constructor
    · rw [literals, marks, marksFrom_cut (hcutKey _), marksFrom_cut (hcutMark _ _),
        stringChars_append, stringChars_append, hnone, List.nil_append, hphase,
        stringChars_lex hlex]
      rfl
    · rw [ending, endFrom_append (hcutKey _), endFrom_append (hcutMark _ _), hphase, hend, hendLex]
  exact ⟨(hread hm).1.trans (hread hm').1.symm, (hread hm).2.trans (hread hm').2.symm⟩

theorem lineLiterals?_respaced {k m m' : Text} (hk : ∀ c ∈ k.getLast?, joins c = false)
    (hq : (endFrom .free {} k).2.quote = none) (hm : m.all isSoft = true)
    (hm' : m'.all isSoft = true) (v : Text) :
    lineLiterals? false (k ++ (m ++ v)) = lineLiterals? false (k ++ (m' ++ v)) := by
  obtain ⟨hliterals, hending⟩ := read_respaced hk hq hm hm' v
  rw [lineLiterals?_false, lineLiterals?_false, hliterals, hending]

end FieldHead

end SourceLayout
