import SourceLayout.Proofs.Kept.Signature
import SourceLayout.Proofs.Literals.Clean

/-! The strings of call signatures. A signature that is written out has no comments but at its end;
its head, its parameters, the object types in them and its result are cut out at signs of code, so
they keep their strings. -/

namespace SourceLayout
open Text Scan

/-! ## Braces and cells -/

theorem openBrace_eq (t : Text) : ∃ a, openBrace t = t ++ a ∧ a.all isInert = true := by
  unfold openBrace
  split
  · next h => exact ⟨['{'], by rw [List.getLast?_eq_none_iff.mp h]; rfl, by decide⟩
  · split
    · exact ⟨['{'], rfl, by decide⟩
    · exact ⟨[' ', '{'], rfl, by decide⟩

theorem afterBrace_eq (t : Text) : ∃ a, afterBrace t = a ++ t ∧ a.all isInert = true := by
  unfold afterBrace
  split
  · next h => exact ⟨[], by rw [List.head?_eq_none_iff.mp h]; rfl, rfl⟩
  · split
    · exact ⟨[], rfl, rfl⟩
    · exact ⟨[' '], rfl, by decide⟩

theorem NameColumn.cell_eq (col : NameColumn) (name : Text) (optional : Bool) :
    ∃ a, col.cell name optional = name ++ a ∧ a.all isSoft = true := by
  have hpad : (List.replicate (col.width - name.length) ' ').all isSoft = true := by
    rw [List.all_replicate]
    split <;> rfl
  unfold NameColumn.cell padTo
  refine ⟨_, List.append_assoc .., ?_⟩
  rw [List.all_append, hpad, Bool.true_and]
  split
  · split <;> decide
  · rfl

namespace Parameter

/-- A parameter without comments, whose parts end in code. -/
structure Clean (p : Parameter) : Prop where
  name : Scan.Clean p.name
  type : Scan.Clean p.type

def literalsOf (p : Parameter) : Text := literals p.name ++ literals p.type

theorem clean_read {t : Text} (h : Scan.Clean t) :
    (read t).Clean ∧ literals t = (read t).literalsOf := by
  unfold read literalsOf
  cases hf : findTop? [':'] t with
  | none => exact ⟨⟨h.trim.1, clean_nil⟩, by rw [h.trim.2]; exact (List.append_nil _).symm⟩
  | some colon =>
    obtain ⟨m, hm, hcode, hchar⟩ := findTop?_mark hf
    have hget := getElem?_of_marks hm
    rw [hchar] at hget
    obtain ⟨hlt, hat⟩ := List.getElem?_eq_some_iff.mp hget
    have ht : t = t.take colon ++ ':' :: t.drop (colon + 1) := by
      rw [← hat, ← List.drop_eq_getElem_cons hlt, List.take_append_drop]
    have hlen : (t.take colon).length = colon := by
      rw [List.length_take]
      omega
    obtain ⟨hname, htype, hliterals⟩ : Scan.Clean (t.take colon) ∧ Scan.Clean (t.drop (colon + 1)) ∧
        literals t = literals (t.take colon) ++ literals (t.drop (colon + 1)) := by
      have hcut := Scan.Clean.cut (u := t.take colon) (c := ':') (v := t.drop (colon + 1)) (ht ▸ h)
        (by rw [← ht, hlen]; exact hm) hcode (by decide) (by decide)
      rw [← ht] at hcut
      exact hcut
    rw [hliterals, ← hname.trim.2, ← htype.trim.2]
    simp only
    split
    · next hopt =>
      obtain ⟨a, ha⟩ := List.getLast?_eq_some_iff.mp (beq_iff_eq.mp hopt)
      have hmark := hname.trim.1
      rw [ha] at hmark
      obtain ⟨hclean, hsame⟩ := hmark.concat (by decide) (by decide)
      rw [ha, List.dropLast_concat, hsame, ← hclean.trim.2]
      exact ⟨⟨hclean.trim.1, htype.trim.1⟩, rfl⟩
    · exact ⟨⟨hname.trim.1, htype.trim.1⟩, rfl⟩

/-! ## Object types -/

theorem clean_objectTexts? {t before after : Text} {members : List Text} (h : Scan.Clean t)
    (ho : objectTexts? t = some (before, members, after)) :
    Scan.Clean before ∧ (∀ m ∈ members, Scan.Clean m) ∧ Scan.Clean after ∧
      literals t = literals before ++ ((members.map literals).flatten ++ literals after) := by
  obtain ⟨i, hi, ho⟩ := Option.bind_eq_some_iff.mp ho
  obtain ⟨⟨b, inside, a⟩, hp, ho⟩ := Option.bind_eq_some_iff.mp ho
  simp only [Option.ite_none_left_eq_some, Option.some.injEq, Prod.mk.injEq] at ho
  obtain ⟨-, rfl, rfl, rfl⟩ := ho
  obtain ⟨m, hm, hcode, hchar⟩ := findCode?_mark hi
  obtain ⟨hbefore, hinside, hafter, hliterals⟩ :=
    h.aroundPair (d := '}') hm hcode (by rw [hchar]; decide)
      (by rw [hchar]; rfl) hp
  obtain ⟨hmembers, hflat⟩ := hinside.splitTop (show [';', ','].all isStop = true by decide)
  refine ⟨hbefore.trim.1, hmembers, hafter.trim.1, ?_⟩
  rw [hliterals, hflat, hbefore.trim.2, hafter.trim.2]

theorem literals?_flatMap {α : Type} {l : List α} {f : α → List Text} {g : α → Text}
    (h : ∀ a ∈ l, literals? false (f a) = some (g a, false)) :
    literals? false (l.flatMap f) = some ((l.map g).flatten, false) := by
  induction l with
  | nil => rfl
  | cons a l ih =>
    obtain ⟨ha, hl⟩ := List.forall_mem_cons.mp h
    rw [List.flatMap_cons, literals?_append_eq_some]
    exact ⟨g a, false, _, ha, ih hl, rfl⟩

structure Starts (start : Text) : Prop where
  clean : Scan.Clean start
  last : ∀ c ∈ start.getLast?, joins c = false

theorem Starts.append {start u : Text} (h : Starts start) (hu : Scan.Clean u) :
    Scan.Clean (start ++ u) ∧ literals (start ++ u) = literals start ++ literals u := by
  have hparted := h.clean.closes.parted (v := u) (.inl h.last)
  exact ⟨hparted.clean.mpr ⟨h.clean, hu⟩, hparted.literals⟩

/-- The lines of a parameter hold the strings of its name and of its type. -/
theorem literals?_lines {p : Parameter} (hp : p.Clean) (col : NameColumn) {indent trailing : Text}
    (hi : isBlankLine indent = true) (ht : trailing.all isInert = true)
    {object? : Text → Option (List Text)} (ho : ∀ start ls, Starts start → object? start = some ls →
      literals? false ls = some (literals start ++ literals p.type, false)) :
    literals? false (p.lines col indent trailing object?) = some (p.literalsOf, false) := by
  obtain ⟨a, hcell, ha⟩ := col.cell_eq p.name p.optional
  obtain ⟨hpadded, hpad⟩ := hp.name.append_inert (inert_soft ha)
  obtain ⟨hclean, hname⟩ := hpadded.inert_append (inert_blank hi)
  rw [hpad] at hname
  rw [← hcell] at hclean hname
  unfold lines literalsOf
  split
  · next hempty =>
    obtain ⟨hline, hstrings⟩ := hclean.trimRight.1.append_inert ht
    rw [literals?_singleton, hline.closes.lineLiterals?, hstrings, hclean.trimRight.2, hname,
      List.isEmpty_iff.mp hempty]
    simp [literals, marks, marksFrom]
  · obtain ⟨hcolon, hcolons⟩ := hclean.append_inert (a := [' ', ':', ' ']) (by decide)
    have hstart : Starts (indent ++ col.cell p.name p.optional ++ [' ', ':', ' ']) :=
      ⟨hcolon, by simp [List.getLast?_append, joins]⟩
    simp only
    cases hobj : object? (indent ++ col.cell p.name p.optional ++ [' ', ':', ' ']) with
    | none =>
      obtain ⟨hjoined, hstrings⟩ := hstart.append hp.type
      obtain ⟨hline, hend⟩ := hjoined.append_inert ht
      rw [Option.getD_none, literals?_singleton, hline.closes.lineLiterals?, hend, hstrings,
        hcolons, hname]
    | some ls => rw [Option.getD_some, ho _ ls hstart hobj, hcolons, hname]

/-- Writing an object type out over several lines leaves its strings alone. -/
theorem literals?_expandObject {unit : Text} (hu : isBlankLine unit = true) {room : Nat}
    {type head indent trailing : Text} {ls : List Text} (hi : isBlankLine indent = true)
    (ht : trailing.all isInert = true) (htype : Scan.Clean type) (hhead : Starts head)
    (he : expandObject unit room type head indent trailing = some ls) :
    literals? false ls = some (literals head ++ literals type, false) := by
  induction room generalizing type head indent trailing ls with
  | zero => simp [expandObject] at he
  | succ room ih =>
    obtain ⟨⟨before, texts, after⟩, ho, rfl⟩ := Option.map_eq_some_iff.mp he
    obtain ⟨hbefore, htexts, hafter, hliterals⟩ := clean_objectTexts? htype ho
    have hinner := isBlankLine_append hi hu
    obtain ⟨a, hopen, ha⟩ := openBrace_eq before
    obtain ⟨hbrace, hbraces⟩ := hbefore.append_inert ha
    obtain ⟨hfirst, hfirsts⟩ := hhead.append hbrace
    rw [← hopen] at hfirst hfirsts
    have hmembers : literals? false ((texts.map read).flatMap fun m =>
        m.lines (column (texts.map read)) (indent ++ unit) [';'] fun start =>
          expandObject unit room m.type start (indent ++ unit) [';']) =
            some ((texts.map literals).flatten, false) := by
      rw [List.flatMap_map]
      refine literals?_flatMap fun t hmem => ?_
      obtain ⟨hp, hparts⟩ := clean_read (htexts t hmem)
      rw [hparts]
      exact literals?_lines hp _ hinner (by decide) fun start ls hstart hls =>
        ih hinner (by decide) hp.type hstart hls
    obtain ⟨c, hclose, hc⟩ := afterBrace_eq after
    have hlead : (indent ++ '}' :: c).all isInert = true := by
      rw [List.all_append, inert_blank hi, List.all_cons, hc]
      decide
    obtain ⟨htail, htails⟩ := hafter.append_inert ht
    obtain ⟨hlast, hlasts⟩ := htail.inert_append hlead
    have hclosing : indent ++ '}' :: afterBrace after ++ trailing =
        indent ++ '}' :: c ++ (after ++ trailing) := by
      rw [hclose]
      simp
    rw [literals?_append_eq_some]
    refine ⟨_, false, literals after,
      literals?_cons_eq_some.mpr ⟨_, false, _, hfirst.closes.lineLiterals?, hmembers, rfl⟩, ?_, ?_⟩
    · rw [literals?_singleton, hclosing, hlast.closes.lineLiterals?, hlasts, htails]
    · rw [hfirsts, hopen, hbraces, hliterals]
      simp

theorem literals?_expandAll {unit : Text} (hu : isBlankLine unit = true) (room : Nat)
    {indent : Text} (hi : isBlankLine indent = true) {ts : List Text} (h : ∀ t ∈ ts, Scan.Clean t) :
    literals? false (expandAll unit room indent (ts.map read)) =
      some ((ts.map literals).flatten, false) := by
  have hps : ∀ x ∈ (ts.map read).zipIdx, ∀ trailing : Text, trailing.all isInert = true →
      literals? false (x.1.lines (column (ts.map read)) indent trailing fun start =>
        expandObject unit room x.1.type start indent trailing) = some (x.1.literalsOf, false) := by
    intro x hx trailing ht
    have hmem : x.1 ∈ ts.map read := List.mem_of_getElem? (List.mem_zipIdx_iff_getElem?.mp hx)
    obtain ⟨t, htmem, hread⟩ := List.mem_map.mp hmem
    have hp : x.1.Clean := hread ▸ (clean_read (h t htmem)).1
    exact literals?_lines hp _ hi ht fun start ls hstart hls =>
      literals?_expandObject hu hi ht hp.type hstart hls
  have hstrings : (ts.map read).map literalsOf = ts.map literals := by
    rw [List.map_map]
    exact List.map_congr_left fun t ht => (clean_read (h t ht)).2.symm
  unfold expandAll
  rw [literals?_flatMap (g := literalsOf ∘ Prod.fst) fun x hx => hps x hx _ (by split <;> decide),
    ← List.map_map, List.zipIdx_map_fst, hstrings]

end Parameter

/-! ## Heads -/

namespace MethodHead

theorem questionMark_inert {t r : Text} {b : Bool} (h : questionMark t = (b, r)) :
    ∃ a, t = a ++ r ∧ a.all isInert = true := by
  have hindent (u : Text) : (indentOf u).all isInert = true := inert_blank (isBlankLine_indentOf u)
  have ht := indentOf_append_trimLeft t
  unfold questionMark at h
  split at h
  · next r' hr =>
    simp only [Prod.mk.injEq] at h
    obtain ⟨-, rfl⟩ := h
    refine ⟨indentOf t ++ '?' :: indentOf r', ?_, ?_⟩
    · rw [List.append_assoc, List.cons_append, indentOf_append_trimLeft, ← hr, ht]
    · rw [List.all_append, List.all_cons, hindent, hindent]
      decide
  · simp only [Prod.mk.injEq] at h
    obtain ⟨-, rfl⟩ := h
    exact ⟨indentOf t, ht.symm, hindent t⟩

theorem generics?_strings {t g r : Text} (h : generics? t = some (g, r)) :
    ∃ u, t = u ++ r ∧ Parted u r ∧ (comments u = [] → Scan.Clean g ∧ literals g = literals u) := by
  unfold generics? at h
  split at h
  · next hh =>
    cases t with
    | nil => simp at hh
    | cons o r₀ =>
      obtain rfl : o = '<' := by simpa using hh
      obtain ⟨i, hi, he⟩ := Option.map_eq_some_iff.mp h
      simp only [Prod.mk.injEq] at he
      obtain ⟨rfl, rfl⟩ := he
      obtain ⟨inner, c, s', rest, hm, hl, hc, -, -⟩ := matching?_spec (by decide) hi
      have hat : (marks ('<' :: r₀))[i]? = some ⟨c, 0, .code⟩ := by
        rw [hm, ← hl, List.cons_append, List.getElem?_cons_succ,
          List.getElem?_append_right (Nat.le_refl _), Nat.sub_self, List.getElem?_cons_zero]
      have hget := getElem?_of_marks hat
      obtain ⟨hlt, hchar⟩ := List.getElem?_eq_some_iff.mp hget
      have hbracket := inert_closer hc
      have hcut : Parted (('<' :: r₀).take i) ([c] ++ ('<' :: r₀).drop (i + 1)) := by
        have hcode := parted_code hat rfl hbracket.2
        rw [List.drop_eq_getElem_cons hlt, hchar] at hcode
        exact hcode
      -- the closing bracket belongs to the type parameters, and the blanks behind it
      -- to neither side
      obtain ⟨hpair, -, -⟩ := hcut.extend (by simp [hbracket.1])
      have htake : ('<' :: r₀).take i ++ [c] = ('<' :: r₀).take (i + 1) := by
        rw [List.take_add_one, hget]
        rfl
      rw [htake] at hpair
      have hclean (hno : comments (('<' :: r₀).take (i + 1)) = []) :
          Scan.Clean (('<' :: r₀).take (i + 1)) :=
        ⟨hpair.closes, hno⟩
      rw [← indentOf_append_trimLeft (('<' :: r₀).drop (i + 1))] at hpair
      obtain ⟨hparted, hcomments, hliterals⟩ := hpair.extend (inert_blank (isBlankLine_indentOf _))
      refine ⟨_, ?_, hparted, fun hno => ?_⟩
      · rw [List.append_assoc, indentOf_append_trimLeft, List.take_append_drop]
      · rw [hcomments] at hno
        exact ⟨(hclean hno).collapse.1, by rw [(hclean hno).literals_collapse, hliterals]⟩
  · simp only [Option.some.injEq, Prod.mk.injEq] at h
    obtain ⟨rfl, rfl⟩ := h
    exact ⟨[], rfl, parted_inert rfl t, fun _ => ⟨clean_nil, rfl⟩⟩

/-- The text in front of the parameters: it is read by itself, up to the first parenthesis outside
brackets, and has the strings of the head. -/
theorem read?_strings {t : Text} {h : MethodHead} (hr : read? t = some h) :
    ∃ lead, t = lead ++ h.rest ∧ Parted lead h.rest ∧ (marks t).takeWhile (!opens ·) = marks lead ∧
      (∃ m ∈ marks t, opens m = true) ∧
      (comments lead = [] → Scan.Clean h.token ∧ literals h.token = literals lead) := by
  obtain ⟨ms, s', hmarks, hs', hno, -, hhead⟩ := read?_marks hr
  rcases hq : questionMark (t.dropWhile isNameChar) with ⟨b, r₁⟩
  simp only [read?, hq] at hr
  obtain ⟨⟨g, r⟩, hg, hr⟩ := Option.bind_eq_some_iff.mp hr
  simp only [Option.ite_none_right_eq_some, Bool.and_eq_true, beq_iff_eq, Option.some.injEq] at hr
  obtain ⟨-, rfl⟩ := hr
  have hname : (t.takeWhile isNameChar).all isInert = true :=
    List.all_eq_true.mpr fun c hc =>
      isInert_of_nameChar (List.all_eq_true.mp List.all_takeWhile c hc)
  obtain ⟨a, ha, hgap⟩ := questionMark_inert hq
  obtain ⟨u, hu, hparted, htoken⟩ := generics?_strings hg
  have hsigns : (t.takeWhile isNameChar ++ a).all isInert = true := by
    rw [List.all_append, hname, hgap]
    rfl
  obtain ⟨hwhole, hcomments, hliterals⟩ := hparted.lead hsigns
  have ht : t = t.takeWhile isNameChar ++ a ++ u ++ r := by
    rw [List.append_assoc, List.append_assoc, ← hu, ← ha, List.takeWhile_append_dropWhile]
  -- the marks in front of the parenthesis are those of the text in front of it
  obtain ⟨rest, hrest⟩ : ∃ rest, r = '(' :: rest := by
    cases r with
    | nil => simp at hhead
    | cons c rest => exact ⟨rest, by simpa using hhead⟩
  have hmarks' := hmarks
  rw [hrest, marksFrom_opener (by decide) hs'] at hmarks'
  have hms : ms = marks (t.takeWhile isNameChar ++ a ++ u) := by
    obtain ⟨ns, hns⟩ := marksFrom_append .free {} (t.takeWhile isNameChar ++ a ++ u) r
      (.inl (by simp [hrest]))
    rw [← ht, ← marks, hmarks] at hns
    refine (List.append_inj hns ?_).1
    have hlen := congrArg List.length hmarks
    have hlen' := congrArg List.length ht
    simp only [length_marks, List.length_append, length_marksFrom] at hlen hlen' ⊢
    omega
  refine ⟨t.takeWhile isNameChar ++ a ++ u, ht, hwhole, ?_, ?_, fun hnone => ?_⟩
  · rw [hmarks', List.takeWhile_append_of_pos (by simpa using hno), ← hms]
    simp [opens, Mark.isTop, Mark.isCode]
  · exact ⟨⟨'(', 0, .code⟩, by rw [hmarks']; simp, by decide⟩
  · rw [hcomments] at hnone
    obtain ⟨hclean, hstrings⟩ := htoken hnone
    have hmark : (t.takeWhile isNameChar ++ if b then ['?'] else []).all isInert = true := by
      rw [List.all_append, hname]
      cases b <;> decide
    obtain ⟨htokenClean, htokenStrings⟩ := hclean.inert_append hmark
    exact ⟨htokenClean, by rw [hliterals, ← hstrings]; exact htokenStrings⟩

/-- Marks up to the first parenthesis are found in any longer list of marks. -/
private theorem takeWhile_of_begins {A B : List Mark} (h : A <+: B) (hA : ∃ m ∈ A, opens m = true) :
    B.takeWhile (!opens ·) = A.takeWhile (!opens ·) := by
  obtain ⟨C, rfl⟩ := h
  obtain ⟨m, hm, hopens⟩ := hA
  have hne : (A.takeWhile (!opens ·)).length ≠ A.length := by
    intro hl
    rw [← (List.takeWhile_prefix _).eq_of_length hl] at hm
    have hnot := List.all_eq_true.mp List.all_takeWhile m hm
    simp [hopens] at hnot
  rw [List.takeWhile_append, if_neg hne]

private theorem stringChars_takeWhile_firm (ms : List Mark) :
    stringChars ((ms.filter Mark.isFirm).takeWhile (!opens ·)) =
      stringChars (ms.takeWhile (!opens ·)) := by
  induction ms with
  | nil => rfl
  | cons m ms ih =>
    have hcons (ns : List Mark) : stringChars (m :: ns) = stringChars [m] ++ stringChars ns :=
      stringChars_append [m] ns
    cases hm : m.isFirm with
    | true =>
      rw [List.filter_cons_of_pos hm, List.takeWhile_cons, List.takeWhile_cons]
      cases opens m with
      | true => rfl
      | false => rw [Bool.not_false, if_pos rfl, if_pos rfl, hcons, ih, ← hcons]
    | false =>
      simp only [Mark.isFirm, Bool.or_eq_false_iff, Bool.not_eq_false'] at hm
      have hopens : opens m = false := by
        have hne : m.char ≠ '(' := by
          intro he
          rw [he] at hm
          exact absurd hm.2 (by decide)
        simp [opens, hne]
      rw [List.filter_cons_of_neg (by simp [Mark.isFirm, hm]), ih, List.takeWhile_cons, hopens,
        Bool.not_false, if_pos rfl, hcons (ms.takeWhile _)]
      simp [stringChars, hm.1]

/-- The head of a signature is read from its first line and from its collapsed lines
with the same strings. -/
theorem token_strings {t joined : Text} {h k : MethodHead} (hh : read? t = some h)
    (hk : read? (collapse joined) = some k) (hj : Scan.Clean joined)
    (hmarks : marks t <+: marks joined ∨ marks joined <+: marks t) :
    Scan.Clean h.token ∧ ∃ lead, collapse joined = lead ++ k.rest ∧ Parted lead k.rest ∧
      literals lead = literals h.token := by
  obtain ⟨lead, -, -, htake, hopens, htoken⟩ := read?_strings hh
  obtain ⟨lead', hsplit, hparted, htake', ⟨m, hm, hm'⟩, -⟩ := read?_strings hk
  have hjoined : ∃ m ∈ marks joined, opens m = true := by
    have hfirm : m.isFirm = true := by
      simp only [opens, Bool.and_eq_true, beq_iff_eq] at hm'
      rw [Mark.isFirm, hm'.2]
      simp [show isBlank '(' = false from rfl]
    refine ⟨m, (List.mem_filter (p := Mark.isFirm).mp ?_).1, hm'⟩
    rw [← hj.collapse.2]
    exact List.mem_filter.mpr ⟨hm, hfirm⟩
  have hsame : (marks t).takeWhile (!opens ·) = (marks joined).takeWhile (!opens ·) := by
    rcases hmarks with hpre | hpre
    · exact (takeWhile_of_begins hpre hopens).symm
    · exact takeWhile_of_begins hpre hjoined
  have hno : comments lead = [] := by
    rw [comments_eq_nil, commentStart?, List.findIdx?_eq_none_iff, ← htake, hsame]
    intro m hm
    exact List.findIdx?_eq_none_iff.mp hj.commentStart? m ((List.takeWhile_prefix _).subset hm)
  obtain ⟨hclean, hstrings⟩ := htoken hno
  refine ⟨hclean, lead', hsplit, hparted, ?_⟩
  rw [hstrings, literals, literals, ← htake', ← htake, hsame, ← stringChars_takeWhile_firm,
    hj.collapse.2, stringChars_takeWhile_firm]

end MethodHead

/-! ## Signatures -/

namespace Scan

theorem clean_of_line {l x : Text} {c : Bool} (h : lineLiterals? false l = some (x, c))
    (hno : Scan.commentStart? l = none) : Scan.Clean l ∧ x = literals l ∧ c = false := by
  obtain ⟨hlex, hx⟩ := lineLiterals?_eq_some h
  obtain ⟨hphase, hblock⟩ := outside_of_no_comment hno
  have hc : c = false := (congrArg Prod.snd hlex).symm.trans hblock
  exact ⟨⟨⟨hphase, hc ▸ hlex⟩, comments_eq_nil.mpr hno⟩, hx.symm, hc⟩

theorem clean_of_lines {ls : List Text} {w : Text} {b : Bool} (h : literals? false ls = some (w, b))
    (hno : ls.any hasComment = false) :
    (∀ l ∈ ls, Scan.Clean l) ∧ w = (ls.map literals).flatten ∧ b = false := by
  induction ls generalizing w with
  | nil =>
    cases h
    exact ⟨by simp, rfl, rfl⟩
  | cons l r ih =>
    obtain ⟨x, c, y, hl, hr, rfl⟩ := literals?_cons_eq_some.mp h
    rw [List.any_cons, Bool.or_eq_false_iff, hasComment, Option.isSome_eq_false_iff,
      Option.isNone_iff_eq_none] at hno
    obtain ⟨hclean, rfl, rfl⟩ := clean_of_line hl hno.1
    obtain ⟨hrest, rfl, rfl⟩ := ih hr hno.2
    exact ⟨List.forall_mem_cons.mpr ⟨hclean, hrest⟩, by simp, rfl⟩

/-- A line is cut in front of the comment at its end. -/
theorem lineLiterals?_cut {l x : Text} {c : Bool} (h : lineLiterals? false l = some (x, c)) :
    Scan.Clean (l.take ((Scan.commentStart? l).getD l.length)) ∧
      ∃ v, lineLiterals? false (l.drop ((Scan.commentStart? l).getD l.length)) = some (v, c) ∧
        x = literals (l.take ((Scan.commentStart? l).getD l.length)) ++ v := by
  cases hcut : Scan.commentStart? l with
  | none =>
    obtain ⟨hclean, rfl, rfl⟩ := clean_of_line h hcut
    rw [Option.getD_none, List.take_length, List.drop_length]
    exact ⟨hclean, [], rfl, (List.append_nil _).symm⟩
  | some cut =>
    have hparted := parted_comment hcut
    have hwhole := hparted.lineLiterals?
    rw [List.take_append_drop, h] at hwhole
    obtain ⟨⟨v, c'⟩, hv, he⟩ := Option.map_eq_some_iff.mp hwhole.symm
    cases he
    exact ⟨⟨hparted.closes, comments_eq_nil.mpr (commentStart?_take hcut)⟩, v, hv, rfl⟩

end Scan

namespace Signature

/-- The first line of a signature and its joined lines begin alike. -/
theorem marks_joined {l last : Text} {r : List Text} (hlast : (l :: r).getLast? = some last)
    {k : MethodHead} (hk :
      MethodHead.read? (collapse ([' '].intercalate ((l :: r).dropLast.map trim ++
      [trim (last.take ((commentStart? last).getD last.length))]))) = some k) :
    marks (trim l) <+: marks ([' '].intercalate ((l :: r).dropLast.map trim ++
        [trim (last.take ((commentStart? last).getD last.length))])) ∨
      marks ([' '].intercalate ((l :: r).dropLast.map trim ++
        [trim (last.take ((commentStart? last).getD last.length))])) <+: marks (trim l) := by
  cases r with
  | nil =>
    obtain rfl : l = last := by simpa using hlast
    have hone (t : Text) : [' '].intercalate ([l].dropLast.map trim ++ [t]) = t := by
      simp [List.intercalate]
    rw [hone] at hk ⊢
    refine .inr (marks_trim_cut ?_).1
    intro he
    have hnone : MethodHead.read? (collapse []) = none := rfl
    rw [he, hnone] at hk
    cases hk
  | cons l' r =>
    simp only [List.dropLast_cons_cons, List.map_cons, List.cons_append]
    obtain ⟨x, hx⟩ := intercalate_space_cons (trim l) ((l' :: r).dropLast.map trim)
      (trim (last.take ((commentStart? last).getD last.length)))
    obtain ⟨ms, hms⟩ := marksFrom_append .free {} (trim l) (' ' :: x) (.inl (by simp))
    rw [hx]
    exact .inl ⟨ms, hms.symm⟩

private theorem clean_dropSeparator {t : Text} (h : Scan.Clean t) :
    Scan.Clean
        (if t.getLast? == some ';' || t.getLast? == some ',' then trimRight t.dropLast else t) ∧
      literals
        (if t.getLast? == some ';' || t.getLast? == some ',' then trimRight t.dropLast else t) =
        literals t := by
  split
  · next hsep =>
    obtain ⟨a, c, rfl, hc, hn⟩ : ∃ a c, t = a ++ [c] ∧ isInert c = true ∧ c ≠ '\n' := by
      simp only [Bool.or_eq_true, beq_iff_eq, List.getLast?_eq_some_iff] at hsep
      rcases hsep with ⟨a, ha⟩ | ⟨a, ha⟩
      · exact ⟨a, ';', ha, by decide, by decide⟩
      · exact ⟨a, ',', ha, by decide, by decide⟩
    obtain ⟨hclean, hsame⟩ := h.concat hc hn
    rw [List.dropLast_concat, hsame]
    exact hclean.trimRight
  · exact ⟨h, rfl⟩

/-- The strings of a signature in its parts. -/
theorem read?_strings {l : Text} {r : List Text} {h : MethodHead}
    (hh : MethodHead.read? (trim l) = some h) {sig : Signature} (hs : read? (l :: r) = some sig)
    {w : Text} {b : Bool} (hw : literals? false (l :: r) = some (w, b)) :
    Scan.Clean h.token ∧ Scan.Clean sig.parameters ∧ Scan.Clean sig.result ∧
      ∃ v, lineLiterals? false sig.comment = some (v, b) ∧
        w = literals h.token ++ (literals sig.parameters ++ (literals sig.result ++ v)) := by
  unfold read? at hs
  obtain ⟨last, hlast, hs⟩ := Option.bind_eq_some_iff.mp hs
  split at hs
  · simp at hs
  next hcom =>
  obtain ⟨k, hk, hs⟩ := Option.bind_eq_some_iff.mp hs
  obtain ⟨⟨front, parameters, after⟩, hp, hs⟩ := Option.bind_eq_some_iff.mp hs
  have hprefix := marks_joined hlast hk
  -- the lines but the last hold no comments, and the last is cut in front of its comment
  obtain ⟨ys, hys⟩ := List.getLast?_eq_some_iff.mp hlast
  rw [hys, literals?_append_eq_some] at hw
  obtain ⟨x, c, y, hx, hy, rfl⟩ := hw
  rw [hys, List.dropLast_concat] at hcom hk hprefix
  obtain ⟨hlines, rfl, rfl⟩ := clean_of_lines hx (by simpa using hcom)
  rw [literals?_singleton] at hy
  obtain ⟨hcut, v, hv, rfl⟩ := lineLiterals?_cut hy
  have htexts : ∀ t ∈ ys.map trim ++ [trim (last.take ((commentStart? last).getD last.length))],
      Scan.Clean t := by
    intro t ht
    rcases List.mem_append.mp ht with ht | ht
    · obtain ⟨u, hu, rfl⟩ := List.mem_map.mp ht
      exact (hlines u hu).trim.1
    · rw [List.mem_singleton.mp ht]
      exact hcut.trim.1
  obtain ⟨hjoined, hjoin⟩ := Scan.Clean.intercalate htexts
  have htrims : (ys.map trim).map literals = ys.map literals := by
    rw [List.map_map]
    exact List.map_congr_left fun u hu => (hlines u hu).trim.2
  rw [List.map_append, List.flatten_append, htrims, List.map_singleton, List.flatten_singleton,
    hcut.trim.2] at hjoin
  obtain ⟨htoken, lead, hlead, hparted, hleads⟩ := MethodHead.token_strings hh hk hjoined hprefix
  have hcollapsed := hjoined.collapse.1
  have hstrings := hjoined.literals_collapse
  rw [hlead] at hcollapsed hstrings
  rw [hparted.literals, hleads, hjoin] at hstrings
  have hrest := (hparted.clean.mp hcollapsed).2
  -- behind the head stand the parameters between their parentheses
  have hopen : (marks k.rest)[0]? = some ⟨'(', 0, .code⟩ := by
    have hhead := MethodHead.rest_read? hk
    cases hr : k.rest with
    | nil => simp [hr] at hhead
    | cons c rest =>
      obtain rfl : c = '(' := by simpa [hr] using hhead
      rw [marks, marksFrom_opener (by decide) rfl]
      rfl
  obtain ⟨-, hparameters, hafter, hpair⟩ := hrest.aroundPair (d := ')') hopen rfl rfl rfl hp
  have hfront : front = [] := by
    obtain ⟨i, -, he⟩ := Option.map_eq_some_iff.mp hp
    simpa using (congrArg Prod.fst he).symm
  subst hfront
  simp only at hs
  split at hs
  · next r' hcolon =>
    have hresult := hafter.trim
    rw [hcolon, ← List.singleton_append] at hresult
    have hfirst := parted_inert (a := [':']) rfl r'
    have hr' := (hfirst.clean.mp hresult.1).2
    rw [hfirst.literals, literals_inert (a := [':']) rfl, List.nil_append, ← hr'.trim.2] at hresult
    obtain ⟨hclean, hsame⟩ := clean_dropSeparator hr'.trim.1
    simp only [Option.ite_none_left_eq_some, Option.some.injEq] at hs
    obtain ⟨-, rfl⟩ := hs
    refine ⟨htoken, hparameters, hclean, v, ?_, ?_⟩
    · rw [lineLiterals?_trim, hv]
    · rw [hsame, hresult.2, ← List.append_assoc, ← hstrings, hpair]
      simp [literals, marks, marksFrom]
  · cases hs

theorem literals?_expand (cfg : Settings) (room : Nat) {indent head comments : Text} {b : Bool}
    (sig : Signature) (hi : isBlankLine indent = true) (hhead : Scan.Clean head)
    (hparameters : Scan.Clean sig.parameters) (hresult : Scan.Clean sig.result)
    (hcomment : lineLiterals? false sig.comment = some (comments, b)) :
    literals? false (sig.expand cfg room indent head) =
      some (literals head ++ (literals sig.parameters ++ (literals sig.result ++ comments)),
        b) := by
  have hinner := isBlankLine_append hi (isBlankLine_unit cfg)
  -- the three parts: the head, the parameters, and the result with the comment behind it
  have hfirst : lineLiterals? false (indent ++ head ++ [' ', '(']) =
      some (literals head, false) := by
    obtain ⟨hclean, hsame⟩ := hhead.inert_append (inert_blank hi)
    obtain ⟨hline, hstrings⟩ := hclean.append_inert (a := [' ', '(']) (by decide)
    rw [hline.closes.lineLiterals?, hstrings, hsame]
  obtain ⟨hpieces, hflat⟩ := hparameters.splitTop (show [','].all isStop = true by decide)
  have hmiddle := Parameter.literals?_expandAll (isBlankLine_unit cfg) room hinner hpieces
  rw [hflat] at hmiddle
  have hlast : lineLiterals? false (indent ++ [')', ':', ' '] ++ sig.result ++ [';'] ++
      (if sig.comment.isEmpty then [] else ' ' :: sig.comment)) =
      some (literals sig.result ++ comments, b) := by
    have hlead : (indent ++ [')', ':', ' ']).all isInert = true := by
      rw [List.all_append, inert_blank hi]
      decide
    obtain ⟨hclean, hsame⟩ := hresult.inert_append hlead
    obtain ⟨hline, hstrings⟩ := hclean.append_inert (a := [';']) (by decide)
    have htail : lineLiterals? false (if sig.comment.isEmpty then [] else ' ' :: sig.comment) =
        some (comments, b) := by
      split
      · next hempty => rw [← hcomment, List.isEmpty_iff.mp hempty]
      · have hspace := lineLiterals?_around false (a := [' ']) (t := sig.comment) (c := []) rfl rfl
        rw [List.append_nil, List.singleton_append] at hspace
        rw [hspace, hcomment]
    have hend : ∀ c ∈ (indent ++ [')', ':', ' '] ++ sig.result ++ [';']).getLast?,
        joins c = false := by
      intro c hc
      rw [List.getLast?_concat] at hc
      cases hc
      rfl
    rw [(hline.closes.parted (.inl hend)).lineLiterals?, htail, hstrings, hsame]
    rfl
  rw [expand, Parameter.readAll, List.cons_append, literals?_cons_eq_some]
  refine ⟨_, false, _, hfirst, literals?_append_eq_some.mpr ⟨_, false, _, hmiddle, ?_, rfl⟩, rfl⟩
  rw [literals?_singleton, hlast]

/-- Laying out a call signature leaves its strings alone. -/
theorem literals?_format (cfg : Settings) (room width : Nat) {indent : Text} {ls : List Text}
    {h : MethodHead} (hh : MethodHead.read? (trim (ls.headD [])) = some h)
    (hi : isBlankLine indent = true) {w : Text} {b : Bool} (hw : literals? false ls = some (w, b)) :
    literals? false (format cfg room indent (padTo width ' ' h.token) ls) = some (w, b) := by
  obtain ⟨r, hbody⟩ := nonblank_of_head fun he => by
    rw [he] at hh
    cases hh
  rw [← literals?_shown, hbody] at hw
  generalize ls.headD [] = l at hh hbody hw
  have hkept : literals? false (keepLines cfg indent (indent ++ trim l) (l :: r)) =
      some (w, b) := by
    rw [literals?_keepLines cfg hi (lineLiterals?_reindent false hi l), hw]
  unfold format
  simp only [hbody, List.headD_cons]
  split
  · exact hkept
  · cases hs : read? (l :: r) with
    | none => exact hkept
    | some sig =>
      obtain ⟨htoken, hparameters, hresult, v, hcomment, rfl⟩ := read?_strings hh hs hw
      have hpad : (List.replicate (width - h.token.length) ' ').all isInert = true :=
        inert_blank (isBlankLine_replicate_space _)
      obtain ⟨hpadded, hsame⟩ := htoken.append_inert hpad
      have hexpand := literals?_expand cfg room sig hi hpadded hparameters hresult hcomment
      rw [hsame] at hexpand
      exact hexpand

end Signature

end SourceLayout
