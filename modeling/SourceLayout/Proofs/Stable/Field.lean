import SourceLayout.Proofs.Kept.Head
import SourceLayout.Proofs.Stable.Pieces

/-! Fields are read back from another spacing: the head of a field says the same whatever blanks
stand around its question mark and its colon, and the line is scanned in the same way. -/

namespace SourceLayout
open Text Scan

namespace FieldHead

/-! ## Names -/

/-- A text that is read as a name wherever no character of a name follows. -/
structure IsName (n : Text) : Prop where
  read : ∀ r, (∀ c ∈ r.head?, isNameChar c = false) → name? (n ++ r) = some (n, r)
  head : ∃ c, n.head? = some c ∧ isBlank c = false
  last : ∀ c ∈ n.getLast?, joins c = false ∧ c ≠ '='

private theorem isName_enclosed {o close : Char} {allowEmpty : Bool} {t n r : Text}
    (hname : ∀ t, t.head? = some o → name? t = enclosed? close allowEmpty t)
    (hclose : joins close = false ∧ close ≠ '=') (hopen : isBlank o = false) (ht : t.head? = some o)
    (h : enclosed? close allowEmpty t = some (n, r)) : IsName n ∧ t = n ++ r := by
  cases t with
  | nil => cases ht
  | cons d t =>
    obtain rfl : d = o := Option.some.inj ht
    have hsplit := List.takeWhile_append_dropWhile (p := (· != close)) (l := t)
    unfold enclosed? at h
    simp only at h
    split at h
    · cases h
    · next c rest hc =>
      simp only [Option.ite_none_left_eq_some, Option.some.injEq, Prod.mk.injEq] at h
      obtain ⟨hempty, rfl, rfl⟩ := h
      obtain rfl : c = close := by
        have hfirst := List.head?_dropWhile_not (· != close) t
        rw [hc] at hfirst
        simpa using hfirst
      rw [hc] at hsplit
      refine ⟨⟨fun r hr => ?_, ⟨d, rfl, hopen⟩, fun e he => ?_⟩, by simp [hsplit]⟩
      · rw [hname _ rfl]
        have htake : (t.takeWhile (· != c) ++ [c] ++ r).takeWhile (· != c) =
            t.takeWhile (· != c) := by
          rw [List.append_assoc, List.takeWhile_append_of_pos
            (List.all_eq_true.mp List.all_takeWhile)]
          simp
        have hdrop : (t.takeWhile (· != c) ++ [c] ++ r).dropWhile (· != c) = c :: r := by
          rw [List.append_assoc, List.dropWhile_append_of_pos
            (List.all_eq_true.mp List.all_takeWhile)]
          simp
        simp only [enclosed?, List.cons_append, htake, hdrop, if_neg hempty]
      · rw [List.getLast?_concat] at he
        cases he
        exact hclose

theorem name?_plain {t : Text} {c : Char} (ht : t.head? = some c) (hc : isNameChar c = true) :
    name? t = some (t.takeWhile isNameChar, t.dropWhile isNameChar) := by
  unfold name?
  split
  · next h => simp [ht] at h
  · next h => rw [ht] at h; cases h; exact absurd hc (by decide)
  · next h => rw [ht] at h; cases h; exact absurd hc (by decide)
  · next h => rw [ht] at h; cases h; exact absurd hc (by decide)
  · next d _ _ _ h =>
    obtain rfl : c = d := Option.some.inj (ht.symm.trans h)
    rw [if_pos hc]

theorem isName_of_name? {t n r : Text} (h : name? t = some (n, r)) : IsName n ∧ t = n ++ r := by
  unfold name? at h
  split at h
  · cases h
  · next ht => exact isName_enclosed (fun t ht => by simp [name?, ht]) (by decide) (by decide) ht h
  · next ht => exact isName_enclosed (fun t ht => by simp [name?, ht]) (by decide) (by decide) ht h
  · next ht => exact isName_enclosed (fun t ht => by simp [name?, ht]) (by decide) (by decide) ht h
  · next c h₁ h₂ h₃ ht =>
    simp only [Option.ite_none_right_eq_some, Option.some.injEq, Prod.mk.injEq] at h
    obtain ⟨hc, rfl, rfl⟩ := h
    have hall := List.all_eq_true.mp (List.all_takeWhile (p := isNameChar) (l := t))
    have hhead : (t.takeWhile isNameChar).head? = some c := by
      rw [List.head?_takeWhile, ht, Option.filter_some, if_pos hc]
    have hshown : isBlank c = false := by
      rw [Bool.eq_false_iff]
      intro hblank
      rw [not_nameChar_of_blank hblank] at hc
      cases hc
    refine ⟨⟨fun r hr => ?_, ⟨c, hhead, hshown⟩, fun e he => ?_⟩,
      List.takeWhile_append_dropWhile.symm⟩
    · have hstop : r.takeWhile isNameChar = [] ∧ r.dropWhile isNameChar = r := by
        cases r with
        | nil => exact ⟨rfl, rfl⟩
        | cons d r => simp [hr d rfl]
      rw [name?_plain (c := c) (by rw [List.head?_append, hhead, Option.some_or]) hc,
        List.takeWhile_append_of_pos hall, List.dropWhile_append_of_pos hall, hstop.1, hstop.2,
        List.append_nil]
    · have hname := hall e (List.mem_of_mem_getLast? he)
      constructor
      · simp only [joins, Bool.or_eq_false_iff, beq_eq_false_iff_ne]
        refine ⟨⟨?_, ?_⟩, ?_⟩ <;> (rintro rfl; revert hname; decide)
      · rintro rfl
        revert hname
        decide

/-! ## Heads -/

/-- What stands between the name and the value of a field, with the given blanks around the
question mark and the colon. -/
def mark (optional : Bool) (a b c : Text) : Text :=
  a ++ (if optional then '?' :: b else []) ++ ':' :: c

theorem mark_head {optional : Bool} {a : Text} (ha : isBlankLine a = true) (b c v : Text) :
    ∀ d ∈ (mark optional a b c ++ v).head?, isNameChar d = false := by
  intro d hd
  cases a with
  | nil => cases optional <;> (cases hd; decide)
  | cons e a =>
    cases hd
    exact not_nameChar_of_blank (List.all_eq_true.mp ha d List.mem_cons_self)

theorem trimLeft_mark (optional : Bool) {a : Text} (ha : isBlankLine a = true) (b c v : Text) :
    trimLeft (mark optional a b c ++ v) = (if optional then '?' :: b else []) ++ ':' ::
    (c ++ v) := by
  have hleft (y : Text) : trimLeft (a ++ y) = trimLeft y :=
    List.dropWhile_append_of_pos (List.all_eq_true.mp ha)
  cases optional with
  | true => simp only [mark, ↓reduceIte, List.append_assoc, List.cons_append, hleft]; rfl
  | false =>
    simp only [mark, Bool.false_eq_true, ↓reduceIte, List.append_assoc, List.nil_append, hleft]; rfl

theorem questionMark_mark (optional : Bool) {a b : Text} (ha : isBlankLine a = true)
    (hb : isBlankLine b = true) (c v : Text) :
    MethodHead.questionMark (mark optional a b c ++ v) = (optional, ':' :: (c ++ v)) := by
  unfold MethodHead.questionMark
  rw [trimLeft_mark optional ha]
  cases optional with
  | true =>
    have hleft : trimLeft (b ++ ':' :: (c ++ v)) = trimLeft (':' :: (c ++ v)) :=
      List.dropWhile_append_of_pos (List.all_eq_true.mp hb)
    simp only [↓reduceIte, List.cons_append, hleft]
    rfl
  | false => rfl

theorem value?_blank {c v : Text} (hc : isBlankLine c = true)
    (hv : ∀ d ∈ v.head?, isBlank d = false) (hn : '\n' ∉ v) : value? (c ++ v) = some v := by
  have hleft : trimLeft (c ++ v) = v := by
    have hdrop : trimLeft (c ++ v) = trimLeft v :=
      List.dropWhile_append_of_pos (List.all_eq_true.mp hc)
    rw [hdrop, trimLeft_eq_self hv]
  have hall : ∀ d ∈ v, (d != '\n') = true := by
    intro d hd
    rw [bne_iff_ne]
    rintro rfl
    exact hn hd
  have htake : v.takeWhile (· != '\n') = v := by
    have h := @List.takeWhile_append_of_pos _ (· != '\n') v [] hall
    simpa using h
  have hdrop : v.dropWhile (· != '\n') = [] := by
    have h := @List.dropWhile_append_of_pos _ (· != '\n') v [] hall
    simpa using h
  simp [value?, hleft, htake, hdrop]

/-- A head is read back from any blanks around its question mark and its colon. -/
theorem after?_mark {n : Text} (h : IsName n) (lead : Text) (optional : Bool) {a b c v : Text}
    (ha : isBlankLine a = true) (hb : isBlankLine b = true) (hc : isBlankLine c = true)
    (hv : ∀ d ∈ v.head?, isBlank d = false) (hn : '\n' ∉ v) :
    after? lead (n ++ (mark optional a b c ++ v)) = some ⟨lead ++ n, optional, v⟩ := by
  have hstop := @mark_head optional a ha b c v
  simp only [after?, h.read _ hstop, questionMark_mark optional ha hb, value?_blank hc hv hn,
    Option.bind_eq_bind, Option.bind_some, Option.map_some]

theorem exists_mark {r r' : Text} {optional : Bool}
    (h : MethodHead.questionMark r = (optional, ':' :: r')) :
    ∃ a b, isBlankLine a = true ∧ isBlankLine b = true ∧
      r = a ++ (if optional then '?' :: b else []) ++ ':' :: r' := by
  have hr := indentOf_append_trimLeft r
  unfold MethodHead.questionMark at h
  split at h
  · next u hu =>
    simp only [Prod.mk.injEq] at h
    obtain ⟨rfl, hr'⟩ := h
    refine ⟨indentOf r, indentOf u, isBlankLine_indentOf r, isBlankLine_indentOf u, ?_⟩
    have hsplit := indentOf_append_trimLeft u
    rw [hr'] at hsplit
    rw [if_pos rfl, List.append_assoc, List.cons_append, hsplit, ← hu, hr]
  · simp only [Prod.mk.injEq] at h
    obtain ⟨rfl, hr'⟩ := h
    refine ⟨indentOf r, [], isBlankLine_indentOf r, rfl, ?_⟩
    rw [← hr']
    simp

theorem after?_shape {lead t : Text} {h : FieldHead} (ha : after? lead t = some h) (hn : '\n' ∉ t) :
    ∃ n a b c, IsName n ∧ isBlankLine a = true ∧ isBlankLine b = true ∧ isBlankLine c = true ∧
      h.key = lead ++ n ∧ t = n ++ (mark h.optional a b c ++ h.value) ∧
      ∀ d ∈ h.value.head?, isBlank d = false := by
  obtain ⟨⟨n, r⟩, hname, hrest⟩ := Option.bind_eq_some_iff.mp ha
  obtain ⟨hisName, rfl⟩ := isName_of_name? hname
  rcases hq : MethodHead.questionMark r with ⟨optional, r₁⟩
  simp only [hq] at hrest
  split at hrest
  · next r₂ =>
    obtain ⟨v, hv, rfl⟩ := Option.map_eq_some_iff.mp hrest
    obtain ⟨a, b, hblank, hblank', rfl⟩ := exists_mark hq
    obtain ⟨rest, hr₂, hend, hhead⟩ := value?_spec hv
    obtain rfl : rest = [] := by
      rcases hend with rfl | rfl
      · rfl
      · refine absurd ?_ hn
        rw [hr₂]
        simp
    rw [List.append_nil] at hr₂
    refine ⟨n, a, b, indentOf r₂, hisName, hblank, hblank', isBlankLine_indentOf r₂, rfl, ?_, hhead⟩
    conv => lhs; rw [hr₂]
    simp [mark]
  · cases hrest

/-- A key that is read back from any blanks around the question mark and the colon. -/
structure IsKey (k : Text) : Prop where
  read : ∀ optional {a b c v : Text}, isBlankLine a = true → isBlankLine b = true →
    isBlankLine c = true → (∀ d ∈ v.head?, isBlank d = false) → '\n' ∉ v →
    read? (k ++ (mark optional a b c ++ v)) = some ⟨k, optional, v⟩
  ne : k ≠ []
  last : ∀ c ∈ k.getLast?, joins c = false ∧ c ≠ '='

theorem readonly?_iff {t lead rest : Text} :
    readonly? t = some (lead, rest) ↔ ∃ r, t = "readonly".toList ++ r ∧ r.head?.any isBlank = true ∧
      lead = "readonly".toList ++ indentOf r ∧ rest = trimLeft r := by
  constructor
  · intro h
    obtain ⟨r, hr, h⟩ := Option.bind_eq_some_iff.mp h
    simp only [Option.ite_none_right_eq_some, Option.some.injEq, Prod.mk.injEq] at h
    exact ⟨r, dropWord?_spec hr, h.1, h.2.1.symm, h.2.2.symm⟩
  · rintro ⟨r, rfl, hblank, rfl, rfl⟩
    have hdrop : dropWord? "readonly" ("readonly".toList ++ r) = some r := by
      simp only [dropWord?, startsWith, List.isPrefixOf_iff_prefix.mpr (List.prefix_append _ r),
        ↓reduceIte]
      exact congrArg some (List.drop_left' rfl)
    rw [readonly?, hdrop, Option.bind_some, if_pos hblank]

/-- A name alone is a key, also the word `readonly`. -/
theorem IsName.isKey {n : Text} (h : IsName n) : IsKey n := by
  obtain ⟨e, he, hshown⟩ := h.head
  have hne : n ≠ [] := by
    rintro rfl
    cases he
  refine ⟨fun optional {a b c v} ha hb hc hv hn => ?_, hne, h.last⟩
  have hafter := after?_mark h [] optional ha hb hc hv hn
  have hnone : (readonly? (n ++ (mark optional a b c ++ v))).bind (fun x => after? x.1 x.2) =
      none := by
    cases hread : readonly? (n ++ (mark optional a b c ++ v)) with
    | none => rfl
    | some x =>
      obtain ⟨lead, rest⟩ := x
      obtain ⟨r, ht, hblank, -, rfl⟩ := readonly?_iff.mp hread
      -- the name is the word itself, and a mark follows where a second name would stand
      have hname := h.read _ (@mark_head optional a ha b c v)
      have hword : ∀ c ∈ "readonly".toList, isNameChar c = true :=
        List.all_eq_true.mp (show "readonly".toList.all isNameChar = true by decide)
      have hstop : r.dropWhile isNameChar = r := by
        cases r with
        | nil => rfl
        | cons d r =>
          have hd : isBlank d = true := by simpa using hblank
          simp [not_nameChar_of_blank hd]
      rw [ht, name?_plain (c := 'r') rfl (by decide), List.dropWhile_append_of_pos hword, hstop,
        Option.some.injEq, Prod.mk.injEq] at hname
      simp only [Option.bind_some]
      rw [hname.2, trimLeft_mark optional ha]
      cases optional <;> rfl
  rw [read?, hnone]
  exact hafter

theorem indentOf_append_of_head {a t : Text} (ha : isBlankLine a = true)
    (ht : ∃ c, t.head? = some c ∧ isBlank c = false) :
    indentOf (a ++ t) = a ∧ trimLeft (a ++ t) = t := by
  obtain ⟨c, hc, hshown⟩ := ht
  have hall := List.all_eq_true.mp ha
  cases t with
  | nil => cases hc
  | cons d t =>
    cases hc
    constructor
    · rw [indentOf, List.takeWhile_append_of_pos hall]
      simp [hshown]
    · rw [trimLeft, List.dropWhile_append_of_pos hall]
      simp [hshown]

/-- A name behind the word `readonly` is a key with it. -/
theorem IsName.isKey_readonly {n : Text} (h : IsName n) {r : Text}
    (hr : r.head?.any isBlank = true) : IsKey ("readonly".toList ++ indentOf r ++ n) := by
  obtain ⟨e, he, hshown⟩ := h.head
  have hlast : ("readonly".toList ++ indentOf r ++ n).getLast? = n.getLast? := by
    rw [List.getLast?_append]
    cases hn : n.getLast? with
    | none => rw [List.getLast?_eq_none_iff.mp hn] at he; cases he
    | some c => rfl
  refine ⟨fun optional {a b c v} ha hb hc hv hn => ?_, by simp, fun c hc => h.last c (hlast ▸ hc)⟩
  have hhead : ∃ d, (n ++ (mark optional a b c ++ v)).head? = some d ∧ isBlank d = false :=
    ⟨e, by rw [List.head?_append, he, Option.some_or], hshown⟩
  obtain ⟨hindent, hrest⟩ := indentOf_append_of_head (isBlankLine_indentOf r) hhead
  have hread : readonly? ("readonly".toList ++ indentOf r ++ n ++ (mark optional a b c ++ v)) =
      some ("readonly".toList ++ indentOf r, n ++ (mark optional a b c ++ v)) := by
    refine readonly?_iff.mpr ⟨indentOf r ++ (n ++ (mark optional a b c ++ v)), by simp, ?_, ?_,
      hrest.symm⟩
    · cases r with
      | nil => cases hr
      | cons d r =>
        have hd : isBlank d = true := by simpa using hr
        simp [indentOf, hd]
    · rw [hindent]
  simp only [read?, hread, Option.bind_some, after?_mark h _ optional ha hb hc hv hn]
  rfl

/-- A head that was read is its key, its mark and its value, and is read back
from any other blanks. -/
theorem isKey_of_read? {t : Text} {h : FieldHead} (hr : read? t = some h) (hn : '\n' ∉ t) :
    IsKey h.key ∧ ∃ a b c, isBlankLine a = true ∧ isBlankLine b = true ∧ isBlankLine c = true ∧
      t = h.key ++ (mark h.optional a b c ++ h.value) ∧ ∀ d ∈ h.value.head?, isBlank d = false := by
  simp only [read?, Option.orElse_eq_orElse, Option.orElse_eq_or, Option.or_eq_some_iff] at hr
  rcases hr with hr | ⟨-, hr⟩
  · obtain ⟨⟨lead, rest⟩, hl, ha⟩ := Option.bind_eq_some_iff.mp hr
    obtain ⟨r, rfl, hblank, rfl, rfl⟩ := readonly?_iff.mp hl
    have hnr : '\n' ∉ trimLeft r := fun hmem =>
      hn (List.mem_append_right _ (List.dropWhile_subset _ hmem))
    obtain ⟨n, a, b, c, hname, hab, hbb, hcb, hkey, hrest, hhead⟩ := after?_shape ha hnr
    rw [hkey]
    refine ⟨hname.isKey_readonly hblank, a, b, c, hab, hbb, hcb, ?_, hhead⟩
    rw [List.append_assoc, List.append_assoc, ← hrest, indentOf_append_trimLeft]
  · obtain ⟨n, a, b, c, hname, hab, hbb, hcb, hkey, ht, hhead⟩ := after?_shape hr hn
    rw [List.nil_append] at hkey
    rw [hkey]
    exact ⟨hname.isKey, a, b, c, hab, hbb, hcb, ht, hhead⟩

/-! ## A field is no signature -/

theorem name?_cases {t n r : Text} (h : name? t = some (n, r)) :
    (∃ o close e, (o = '[' ∨ o = '"' ∨ o = '\'') ∧ t.head? = some o ∧
      enclosed? close e t = some (n, r) ∧ (o ≠ '[' → close = o ∧ e = true)) ∨
    ∃ c, t.head? = some c ∧ isNameChar c = true ∧ n = t.takeWhile isNameChar ∧
    r = t.dropWhile isNameChar := by
  unfold name? at h
  split at h
  · cases h
  · next ht => exact .inl ⟨'[', ']', false, by simp, ht, h, by simp⟩
  · next ht => exact .inl ⟨'"', '"', true, by simp, ht, h, by simp⟩
  · next ht => exact .inl ⟨'\'', '\'', true, by simp, ht, h, by simp⟩
  · next c _ _ _ ht =>
    simp only [Option.ite_none_right_eq_some, Option.some.injEq, Prod.mk.injEq] at h
    exact .inr ⟨c, ht, h.1, h.2.1.symm, h.2.2.symm⟩

theorem startsPlain_of_after? {lead t : Text} {h : FieldHead} (ha : after? lead t = some h) :
    Member.startsPlain t = true := by
  obtain ⟨⟨n, r⟩, hname, hrest⟩ := Option.bind_eq_some_iff.mp ha
  have hcolon : (MethodHead.questionMark r).2.head? = some ':' := by
    rcases hq : MethodHead.questionMark r with ⟨optional, r₁⟩
    simp only [hq] at hrest
    split at hrest
    · rfl
    · cases hrest
  rcases name?_cases hname with ⟨o, close, e, ho, ht, hclosed, hsame⟩ | ⟨c, ht, hc, -, rfl⟩
  · rcases ho with rfl | rfl | rfl
    · simp [Member.startsPlain, ht]
    · obtain ⟨rfl, rfl⟩ := hsame (by decide)
      simp [Member.startsPlain, ht, hclosed, Member.goesOn, hcolon]
    · obtain ⟨rfl, rfl⟩ := hsame (by decide)
      simp [Member.startsPlain, ht, hclosed, Member.goesOn, hcolon]
  · unfold Member.startsPlain
    split
    · next h => simp [ht] at h
    · rfl
    · next h => rw [ht] at h; cases h; exact absurd hc (by decide)
    · next h => rw [ht] at h; cases h; exact absurd hc (by decide)
    · next h => rw [ht] at h; cases h; exact absurd hc (by decide)
    · next d _ _ _ _ h =>
      obtain rfl : c = d := Option.some.inj (ht.symm.trans h)
      simp [hc, Member.goesOn, hcolon]

theorem starts_of_read? {t : Text} {h : FieldHead} (hr : read? t = some h) :
    Member.starts t = true := by
  simp only [read?, Option.orElse_eq_orElse, Option.orElse_eq_or, Option.or_eq_some_iff] at hr
  rw [Member.starts, Bool.or_eq_true]
  rcases hr with hr | ⟨-, hr⟩
  · obtain ⟨⟨lead, rest⟩, hl, ha⟩ := Option.bind_eq_some_iff.mp hr
    left
    rw [hl]
    exact startsPlain_of_after? ha
  · exact .inr (startsPlain_of_after? hr)

theorem methodHead_eq_none {t : Text}
    (h : t.takeWhile isNameChar = [] ∨
      ∃ c, (MethodHead.questionMark (t.dropWhile isNameChar)).2.head? = some c ∧
      c ≠ '<' ∧ c ≠ '(') : MethodHead.read? t = none := by
  rcases hq : MethodHead.questionMark (t.dropWhile isNameChar) with ⟨optional, u⟩
  simp only [hq] at h
  simp only [MethodHead.read?, hq]
  rcases h with hnil | ⟨c, hc, hangle, hparen⟩
  · cases MethodHead.generics? u <;> simp [hnil]
  · simp [MethodHead.generics?, hc, hangle, hparen]

theorem name?_head {t n r : Text} (h : name? t = some (n, r)) :
    ∃ c, t.head? = some c ∧ c ≠ '?' ∧ c ≠ '<' ∧ c ≠ '(' := by
  rcases name?_cases h with ⟨o, close, e, ho, ht, -, -⟩ | ⟨c, ht, hc, -, -⟩
  · refine ⟨o, ht, ?_⟩
    rcases ho with rfl | rfl | rfl <;> decide
  · refine ⟨c, ht, ?_, ?_, ?_⟩ <;> (rintro rfl; exact absurd hc (by decide))

theorem methodHead_of_read? {t : Text} {h : FieldHead} (hr : read? t = some h) :
    MethodHead.read? t = none := by
  simp only [read?, Option.orElse_eq_orElse, Option.orElse_eq_or, Option.or_eq_some_iff] at hr
  apply methodHead_eq_none
  rcases hr with hr | ⟨-, hr⟩
  · obtain ⟨⟨lead, rest⟩, hl, ha⟩ := Option.bind_eq_some_iff.mp hr
    obtain ⟨r, rfl, hblank, -, rfl⟩ := readonly?_iff.mp hl
    obtain ⟨⟨n, r'⟩, hname, -⟩ := Option.bind_eq_some_iff.mp ha
    obtain ⟨c, hc, hquestion, hangle, hparen⟩ := name?_head hname
    have hword : ∀ c ∈ "readonly".toList, isNameChar c = true :=
      List.all_eq_true.mp (show "readonly".toList.all isNameChar = true by decide)
    have hdrop : ("readonly".toList ++ r).dropWhile isNameChar = r := by
      rw [List.dropWhile_append_of_pos hword]
      cases r with
      | nil => rfl
      | cons d r =>
        have hd : isBlank d = true := by simpa using hblank
        simp [not_nameChar_of_blank hd]
    refine .inr ⟨c, ?_, hangle, hparen⟩
    rw [hdrop, MethodHead.questionMark]
    split
    · next u hu =>
      rw [hu] at hc
      exact absurd (Option.some.inj hc).symm hquestion
    · exact hc
  · obtain ⟨⟨n, r⟩, hname, hrest⟩ := Option.bind_eq_some_iff.mp hr
    rcases name?_cases hname with ⟨o, close, e, ho, ht, -, -⟩ | ⟨c, ht, hc, -, rfl⟩
    · left
      cases t with
      | nil => rfl
      | cons d t =>
        obtain rfl : d = o := Option.some.inj ht
        rw [List.takeWhile_cons_of_neg]
        rcases ho with rfl | rfl | rfl <;> decide
    · right
      rcases hq : MethodHead.questionMark (t.dropWhile isNameChar) with ⟨optional, r₁⟩
      simp only [hq] at hrest
      split at hrest
      · exact ⟨':', rfl, by decide, by decide⟩
      · cases hrest

/-! ## Another spacing -/

theorem mark_soft {optional : Bool} {a b c : Text} (ha : isBlankLine a = true)
    (hb : isBlankLine b = true) (hc : isBlankLine c = true) (hn : '\n' ∉ mark optional a b c) :
    (mark optional a b c).all isSoft = true := by
  have hblank {x : Text} (hx : isBlankLine x = true) {d : Char} (hd : d ∈ x) : isBlank d = true :=
    List.all_eq_true.mp hx d hd
  rw [List.all_eq_true]
  intro d hd
  have hchar : isBlank d = true ∨ d = '?' ∨ d = ':' := by
    rw [mark, List.mem_append, List.mem_append, List.mem_cons] at hd
    rcases hd with (hd | hd) | rfl | hd
    · exact .inl (hblank ha hd)
    · cases optional with
      | true =>
        rcases List.mem_cons.mp hd with rfl | hd
        · exact .inr (.inl rfl)
        · exact .inl (hblank hb hd)
      | false => cases hd
    · exact .inr (.inr rfl)
    · exact .inl (hblank hc hd)
  rcases hchar with hd' | rfl | rfl
  · have hne : d ≠ '\n' := by rintro rfl; exact hn hd
    simp [isSoft, hd', hne]
  · decide
  · decide

theorem mark_ink (optional : Bool) {a b c : Text} (ha : isBlankLine a = true)
    (hb : isBlankLine b = true) (hc : isBlankLine c = true) :
    (mark optional a b c).filter (!isBlank ·) = (if optional then ['?'] else []) ++ [':'] := by
  have hcolon : isBlank ':' = false := by decide
  have hquestion : isBlank '?' = false := by decide
  cases optional <;> simp [mark, filter_blank ha, filter_blank hb, filter_blank hc, hcolon,
    hquestion]

theorem mark_last {optional : Bool} {a b c : Text} (hc : isBlankLine c = true) :
    ∃ d, (mark optional a b c).getLast? = some d ∧ joins d = false ∧ d ≠ '=' := by
  rw [mark, List.getLast?_append]
  cases hlast : c.getLast? with
  | none =>
    rw [List.getLast?_eq_none_iff.mp hlast]
    exact ⟨':', rfl, by decide, by decide⟩
  | some d =>
    have hblank := List.all_eq_true.mp hc d (List.mem_of_getLast? hlast)
    refine ⟨d, by rw [List.getLast?_cons, hlast]; rfl, not_joins_of_blank hblank, ?_⟩
    rintro rfl
    cases hblank

/-- The scan of a field in its parts: the key, the mark and the value. The blanks of
the mark say nothing. -/
theorem scan_mark {s : State} (hq : s.quote = none) {k : Text}
    (hk : ∀ d ∈ k.getLast?, joins d = false ∧ d ≠ '=') {optional : Bool} {a b c : Text}
    (ha : isBlankLine a = true) (hb : isBlankLine b = true) (hc : isBlankLine c = true)
    (hsoft : (mark optional a b c).all isSoft = true) (v : Text) :
    ∃ ms p s', (p, s') = endFrom (endFrom .free s k).1 (endFrom .free s k).2
      (mark optional [] [] []) ∧
      endFrom .free s (k ++ (mark optional a b c ++ v)) = endFrom p s' v ∧
      marks (k ++ (mark optional a b c ++ v)) s = marks k s ++ (ms ++ marksFrom p s' v) ∧
      ms.filter (!isBlank ·.char) =
        marksFrom (endFrom .free s k).1 (endFrom .free s k).2 (mark optional [] [] []) ∧
      ms.map Mark.char = mark optional a b c ∧
      ∀ m ∈ ms, m.isComment =
        ((endFrom .free s k).1 == .line || (endFrom .free s k).2.inBlock) := by
  have hquoted : (endFrom .free s k).2.Quoted := (State.Quoted.of_none hq).endFrom .free k
  have hink : (mark optional a b c).filter (!isBlank ·) = mark optional [] [] [] := by
    rw [mark_ink optional ha hb hc]
    cases optional <;> rfl
  obtain ⟨hend, hfirm, hcomment, -⟩ :=
    endFrom_soft (endFrom_quiet (p := .free) s (.inl rfl)) hquoted hsoft
  obtain ⟨d, hd, hjoins, hequals⟩ := @mark_last optional a b c hc
  have hcutKey (u : Text) : Cuts .free s k u := .inl fun d hd => (hk d hd).1
  have hcutMark : Cuts (endFrom .free s k).1 (endFrom .free s k).2 (mark optional a b c) v := by
    refine .inl fun e he => ?_
    rw [hd] at he
    cases he
    exact hjoins
  rw [hink] at hend hfirm
  refine ⟨marksFrom (endFrom .free s k).1 (endFrom .free s k).2 (mark optional a b c), _, _, rfl,
    ?_, ?_, hfirm, map_char_marksFrom .., hcomment⟩
  · rw [endFrom_append (hcutKey _), endFrom_append hcutMark, hend]
  · rw [marks, marksFrom_cut (hcutKey _), marksFrom_cut hcutMark, hend]
    rfl

/-- Two texts that are scanned to the same end: they show the same characters
and end in the same way. -/
structure Respaced (s : State) (t t' : Text) : Prop where
  feed : feed s t = feed s t'
  ink : (marks t s).filter (!isBlank ·.char) = (marks t' s).filter (!isBlank ·.char)
  ending : Member.ending (codeOf s t) = Member.ending (codeOf s t')

private def codeChars (ms : List Mark) : Text :=
  (ms.filter fun m => !m.isComment || m.char == '\n').map Mark.char

/-- How a field ends: its mark is a comment, or nothing but the mark is code,
or the value ends it. -/
private theorem ending_mark {s : State} {k v : Text} {optional : Bool} {a b c : Text}
    {ms : List Mark} {p : Phase} {s' : State} {comment : Bool} (ha : isBlankLine a = true)
    (hb : isBlankLine b = true) (hc : isBlankLine c = true)
    (hsoft : (mark optional a b c).all isSoft = true)
    (hmarks : marks (k ++ (mark optional a b c ++ v)) s = marks k s ++ (ms ++ marksFrom p s' v))
    (hchars : ms.map Mark.char = mark optional a b c) (hcomment : ∀ m ∈ ms, m.isComment = comment) :
    Member.ending (codeOf s (k ++ (mark optional a b c ++ v))) =
      if comment then Member.ending (trim (codeChars (marks k s) ++ codeChars (marksFrom p s' v)))
      else if trim (codeChars (marksFrom p s' v)) = [] then (false, false, true)
      else Member.ending (trim (codeChars (marksFrom p s' v))) := by
  have hcode : withoutComments (k ++ (mark optional a b c ++ v)) s =
      codeChars (marks k s) ++ (codeChars ms ++ codeChars (marksFrom p s' v)) := by
    rw [withoutComments, hmarks, List.filter_append, List.filter_append, List.map_append,
      List.map_append]
    rfl
  rw [codeOf, hcode]
  cases comment with
  | true =>
    have hnil : codeChars ms = [] := by
      rw [codeChars, List.map_eq_nil_iff, List.filter_eq_nil_iff]
      intro m hm
      have hmem : m.char ∈ mark optional a b c := hchars ▸ List.mem_map_of_mem hm
      have hchar := List.all_eq_true.mp hsoft m.char hmem
      have hne : m.char ≠ '\n' := by
        intro heq
        rw [heq] at hchar
        exact absurd hchar (by decide)
      simp [hcomment m hm, hne]
    rw [hnil]
    rfl
  | false =>
    have hall : codeChars ms = mark optional a b c := by
      rw [codeChars, List.filter_eq_self.mpr (fun m hm => by simp [hcomment m hm]), hchars]
    rw [hall, ← List.append_assoc, if_neg (by simp)]
    obtain ⟨d, hd, -, hequals⟩ := @mark_last optional a b c hc
    split
    · next hnil =>
      have hlast : (trim (codeChars (marks k s) ++ mark optional a b c)).getLast? = some ':' := by
        rw [getLast?_trim, List.filter_append, mark_ink optional ha hb hc, ← List.append_assoc,
          List.getLast?_concat]
      rw [trim_append_blank _ (isBlankLine_of_trim hnil)]
      obtain ⟨u, hu⟩ := List.getLast?_eq_some_iff.mp hlast
      rw [hu]
      simp [Member.ending, Member.endsSeparated, Member.endsOpen]
    · next hne =>
      refine Member.ending_trim_append hne ?_
      rw [List.getLast?_append, hd]
      simpa using hequals

/-- The blanks around the question mark and the colon of a field say nothing. -/
theorem respaced_mark {s : State} (hq : s.quote = none) {k : Text}
    (hk : ∀ d ∈ k.getLast?, joins d = false ∧ d ≠ '=') {optional : Bool} {a b c a' b' c' : Text}
    (ha : isBlankLine a = true) (hb : isBlankLine b = true) (hc : isBlankLine c = true)
    (hsoft : (mark optional a b c).all isSoft = true) (ha' : isBlankLine a' = true)
    (hb' : isBlankLine b' = true) (hc' : isBlankLine c' = true)
    (hsoft' : (mark optional a' b' c').all isSoft = true) (v : Text) :
    Respaced s (k ++ (mark optional a b c ++ v)) (k ++ (mark optional a' b' c' ++ v)) := by
  obtain ⟨ms, p, t, hend, hfeed, hmarks, hink, hchars, hcomment⟩ := scan_mark hq hk ha hb hc hsoft v
  obtain ⟨ms', p', t', hend', hfeed', hmarks', hink', hchars', hcomment'⟩ :=
    scan_mark hq hk ha' hb' hc' hsoft' v
  obtain ⟨rfl, rfl⟩ : p = p' ∧ t = t' := by
    have h := hend.trans hend'.symm
    simpa using h
  refine ⟨?_, ?_, ?_⟩
  · rw [feed_eq, feed_eq, hfeed, hfeed']
  · rw [hmarks, hmarks', List.filter_append, List.filter_append, List.filter_append,
      List.filter_append, hink, hink']
  · rw [ending_mark ha hb hc hsoft hmarks hchars hcomment,
      ending_mark ha' hb' hc' hsoft' hmarks' hchars' hcomment']

end FieldHead

end SourceLayout
