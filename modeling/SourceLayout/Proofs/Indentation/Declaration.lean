import SourceLayout.Proofs.Indentation.Leads
import SourceLayout.Proofs.Stable.Field

/-! What the lines of a declaration are indented with after layout. A line that is written anew
begins at the margin of the declaration, some whole units deeper, with a character that is not
blank; a line that stays has the same blanks in front of that character as before. So all lines are
indented with whole units if those that stay are and the margin is. The one exception are parameters
without a name: what they begin with is the gap that the column leaves for it. -/

namespace SourceLayout
open Text Scan IndentStyle

/-! ## First characters -/

/-- The head of a call signature begins as the text does that it is read from. -/
theorem MethodHead.cons_of_read? {t : Text} {h : MethodHead} (hr : read? t = some h) :
    ∃ c x r, t = c :: x ∧ h.token = c :: r ∧ isBlank c = false ∧ c ≠ '*' := by
  obtain ⟨⟨g, r⟩, -, hr⟩ := Option.bind_eq_some_iff.mp hr
  simp only [Option.ite_none_right_eq_some, Option.some.injEq, Bool.and_eq_true,
    Bool.not_eq_true'] at hr
  obtain ⟨⟨hname, -⟩, rfl⟩ := hr
  obtain ⟨c, n, hn⟩ := List.exists_cons_of_ne_nil (List.isEmpty_eq_false_iff.mp hname)
  have ht := List.takeWhile_append_dropWhile (p := isNameChar) (l := t)
  have hc : isNameChar c = true := by
    have hall := List.all_takeWhile (p := isNameChar) (l := t)
    rw [hn, List.all_cons, Bool.and_eq_true] at hall
    exact hall.1
  rw [hn, List.cons_append] at ht
  refine ⟨c, _, _, ht.symm, by simp only [token, hn]; rfl, Bool.eq_false_iff.mpr fun hb => ?_, ?_⟩
  · rw [not_nameChar_of_blank hb] at hc
    cases hc
  · rintro rfl
    exact absurd hc (by decide)

namespace FieldHead

theorem head_of_name? {t n r : Text} (h : name? t = some (n, r)) :
    ∃ c k, n = c :: k ∧ isBlank c = false ∧ c ≠ '*' := by
  obtain ⟨hname, rfl⟩ := isName_of_name? h
  obtain ⟨c, hc, hb⟩ := hname.head
  obtain ⟨k, rfl⟩ := List.head?_eq_some_iff.mp hc
  refine ⟨c, k, rfl, hb, ?_⟩
  rintro rfl
  have hnot : isNameChar '*' = false := by decide
  simp [name?, hnot] at h

theorem key_of_read? {t : Text} {h : FieldHead} (hr : read? t = some h) :
    ∃ c r, h.key = c :: r ∧ isBlank c = false ∧ c ≠ '*' := by
  have hafter : ∀ {lead t : Text} {h : FieldHead}, after? lead t = some h → ∃ n r,
    name? t = some (n, r) ∧
      h.key = lead ++ n := by
    intro lead t h ha
    obtain ⟨⟨n, r⟩, hn, ha⟩ := Option.bind_eq_some_iff.mp ha
    simp only at ha
    split at ha
    · obtain ⟨v, -, rfl⟩ := Option.map_eq_some_iff.mp ha
      exact ⟨n, r, hn, rfl⟩
    · cases ha
  simp only [read?, Option.orElse_eq_orElse, Option.orElse_eq_or, Option.or_eq_some_iff] at hr
  rcases hr with hr | ⟨-, hr⟩
  · obtain ⟨⟨lead, rest⟩, hlead, ha⟩ := Option.bind_eq_some_iff.mp hr
    obtain ⟨n, r, -, hkey⟩ := hafter ha
    obtain ⟨w, -, hlead⟩ := Option.bind_eq_some_iff.mp hlead
    simp only [Option.ite_none_right_eq_some, Option.some.injEq, Prod.mk.injEq] at hlead
    obtain ⟨-, rfl, -⟩ := hlead
    exact ⟨'r', _, by rw [hkey]; rfl, by decide, by decide⟩
  · obtain ⟨n, r, hn, hkey⟩ := hafter hr
    rw [hkey]
    exact head_of_name? hn

end FieldHead

theorem NameColumn.cell_cons (col : NameColumn) (c : Char) (name : Text) (optional : Bool) :
    ∃ r, col.cell (c :: name) optional = c :: r := by
  rw [cell, padTo, List.append_assoc]
  exact ⟨_, rfl⟩

theorem Parameter.name_cons {t : Text} (h : (read t).name ≠ []) :
    ∃ c r, (read t).name = c :: r ∧ isBlank c = false := by
  have htrim : trim (read t).name = (read t).name := by
    unfold read
    split
    · exact trim_trim _
    · simp only
      split <;> exact trim_trim _
  obtain ⟨c, r, hc⟩ := List.exists_cons_of_ne_nil h
  refine ⟨c, r, hc, ?_⟩
  rw [hc] at htrim
  exact head_trim (t := c :: r) (by rw [htrim]; rfl)

theorem prefix_of_getElem? {t : Text} {i : Nat} {c : Char} (h : t[i]? = some c) :
    t.take i ++ [c] <+: t := by
  have htake : t.take (i + 1) = t.take i ++ [c] := by rw [List.take_add_one, h, Option.toList_some]
  rw [← htake]
  exact List.take_prefix _ _

variable {P : Text → Prop} {cfg : Settings}

/-! ## Signatures -/

theorem led_keepLines (hs : Scale cfg.indentUnit P) {indent first : Text} (hi : Margin P indent)
    (hfirst : Led P first) (ls : List Text) : ∀ l ∈ keepLines cfg indent first ls, Led P l := by
  intro l hl
  rcases List.mem_cons.mp hl with rfl | hl
  · exact hfirst.trimRight
  · obtain ⟨k, -, rfl⟩ := List.mem_map.mp hl
    exact (hi.step hs).led_trim k

namespace Parameter

/-- Every parameter that is read when a parameter list is written out has a name. -/
def Named (room : Nat) (ts : List Text) : Prop := ∀ t ∈ allTexts room ts, (read t).name ≠ []

theorem led_lines {t : Text} (hname : (read t).name ≠ []) {indent : Text} (hi : Margin P indent)
    {col : NameColumn} {trailing : Text} {object? : Text → Option (List Text)}
    (ho : ∀ start ls, Fronted P start → object? start = some ls → ∀ l ∈ ls, Led P l) :
    ∀ l ∈ (read t).lines col indent trailing object?, Led P l := by
  obtain ⟨c, r, hr, hc⟩ := name_cons hname
  obtain ⟨cell, hcell⟩ := col.cell_cons c r (read t).optional
  have hfront : Fronted P (indent ++ col.cell (read t).name (read t).optional) := by
    rw [hr, hcell]
    exact hi.fronted hc cell
  have hstart := hfront.append [' ', ':', ' ']
  unfold lines
  simp only
  split
  · simpa using (hfront.trimRight.append trailing).1
  · cases hobj :
      object? (indent ++ col.cell (read t).name (read t).optional ++ [' ', ':', ' ']) with
    | none => simpa using ((hstart.append _).append trailing).1
    | some ls =>
      rw [Option.getD_some]
      exact ho _ ls hstart hobj

/-- Writing an object type out keeps to the margin and goes one unit deeper. -/
theorem led_expandObject {unit : Text} (hs : Scale unit P) {room : Nat}
    {type head indent trailing : Text} {ls : List Text} (hhead : Fronted P head)
    (hi : Margin P indent)
    (hnamed : ∀ before members after, objectTexts? type = some (before, members, after) →
      Named (room - 1) members) (he : expandObject unit room type head indent trailing = some ls) :
    ∀ l ∈ ls, Led P l := by
  induction room generalizing type head indent trailing ls with
  | zero => simp [expandObject] at he
  | succ room ih =>
    obtain ⟨⟨before, texts, after⟩, ho, rfl⟩ := Option.map_eq_some_iff.mp he
    have hnamed : Named room texts := hnamed _ _ _ ho
    intro l hl
    simp only [List.cons_append, List.mem_cons, List.mem_append, List.not_mem_nil, or_false] at hl
    rcases hl with rfl | hl | rfl
    · exact (hhead.append _).1
    · obtain ⟨m, hm, hl⟩ := List.mem_flatMap.mp hl
      obtain ⟨t, ht, rfl⟩ := List.mem_map.mp hm
      refine led_lines (hnamed t (mem_allTexts ht)) (hi.step hs) ?_ l hl
      intro start ls hstart hls
      refine ih hstart (hi.step hs) ?_ hls
      intro b ms a hobj
      cases room with
      | zero => simp [expandObject] at hls
      | succ room => exact fun u hu => hnamed u (allTexts_inner ht hobj hu)
    · rw [List.append_assoc, List.cons_append]
      exact hi.led_cons (by decide) _

theorem led_expandAll {unit : Text} (hs : Scale unit P) {room : Nat} {indent : Text}
    (hi : Margin P indent) {ts : List Text} (hnamed : Named room ts) :
    ∀ l ∈ expandAll unit room indent (ts.map read), Led P l := by
  intro l hl
  obtain ⟨x, hx, hl⟩ := List.mem_flatMap.mp hl
  obtain ⟨t, ht, hread⟩ := List.mem_map.mp
    (List.mem_of_getElem? (List.mem_zipIdx_iff_getElem?.mp hx))
  simp only [← hread] at hl
  refine led_lines (hnamed t (mem_allTexts ht)) hi ?_ l hl
  intro start ls hstart hls
  refine led_expandObject hs hstart hi ?_ hls
  intro b ms a hobj
  cases room with
  | zero => simp [expandObject] at hls
  | succ room => exact fun u hu => hnamed u (allTexts_inner ht hobj hu)

end Parameter

/-- A call signature is led if the head in front of it begins with a character that is not blank. -/
theorem Signature.led_format (hs : Scale cfg.indentUnit P) {room : Nat} {indent : Text}
    (hi : Margin P indent) {c : Char} (hc : isBlank c = false) (head : Text) {ls : List Text}
    (hnamed : ∀ t ∈ parameterTexts cfg room ls, (Parameter.read t).name ≠ []) :
    ∀ l ∈ format cfg room indent (c :: head) ls, Led P l := by
  have hkept := led_keepLines hs hi (hi.led_trim ((ls.filter (!isBlankLine ·)).headD []))
    (ls.filter (!isBlankLine ·))
  unfold format
  simp only
  split
  · exact hkept
  · next hexpand =>
    cases hr : read? (ls.filter (!isBlankLine ·)) with
    | none => exact hkept
    | some sig =>
      have hparams : Parameter.Named room (splitTop [','] sig.parameters) := by
        simpa [Parameter.Named, parameterTexts, hexpand, hr] using hnamed
      intro l hl
      simp only [expand, List.cons_append, List.append_assoc, List.mem_cons, List.mem_append,
        List.not_mem_nil, or_false] at hl
      rcases hl with rfl | hl | rfl
      · exact hi.led_cons hc _
      · exact Parameter.led_expandAll hs (hi.step hs) hparams l hl
      · exact hi.led_cons (by decide) _

/-! ## Members -/

theorem ObjectSpan.closing_trimmed {ls : List Text} {o : ObjectSpan} (h : read? ls = some o) :
    trim o.closing = o.closing := by
  obtain ⟨first, -, h⟩ := Option.bind_eq_some_iff.mp h
  obtain ⟨last, -, h⟩ := Option.bind_eq_some_iff.mp h
  obtain ⟨⟨opener, depth⟩, -, h⟩ := Option.bind_eq_some_iff.mp h
  obtain ⟨s, -, h⟩ := Option.bind_eq_some_iff.mp h
  obtain ⟨closer, -, h⟩ := Option.bind_eq_some_iff.mp h
  cases h
  exact trim_trim _

namespace Member

/-- The inner lines of a block comment, which are set off by a space, do not count. -/
theorem led_commentLines {indent : Text} (hi : Margin P indent) (ls : List Text) :
    ∀ l ∈ commentLines indent ls, Led P l := by
  intro l hl
  obtain ⟨x, -, rfl⟩ := List.mem_map.mp hl
  unfold commentLine
  simp only
  split
  · next hstar =>
    simp only [Bool.and_eq_true, beq_iff_eq] at hstar
    obtain ⟨r, hr⟩ := List.head?_eq_some_iff.mp hstar.2
    have hleads : ∀ c ∈ indent ++ [' '], isLead c = true :=
      List.forall_mem_append.mpr ⟨hi.1, List.forall_mem_singleton.mpr rfl⟩
    rw [hr, ← List.singleton_append, ← List.append_assoc, Led, evidence_leads hleads (by decide)]
    simp
  · exact hi.led_trim x.1

theorem led_plainLines {indent : Text} (hi : Margin P indent) (ls : List Text) :
    ∀ l ∈ plainLines indent ls, Led P l := by
  intro l hl
  obtain ⟨k, -, rfl⟩ := List.mem_map.mp hl
  exact hi.led_trim k

theorem led_fieldLines (hs : Scale cfg.indentUnit P) {inner : Text → List Text → List Text}
    {indent : Text} (hi : Margin P indent) {col : NameColumn} {head : FieldHead} {c : Char}
    {r : Text} (hkey : head.key = c :: r) (hc : isBlank c = false) {ls : List Text}
    (hinner : ∀ before span, (ls.filter (!isBlankLine ·)).length ≠ 1 →
      nestedSpan? head (ls.filter (!isBlankLine ·)) = some (before, span) →
      ∀ l ∈ inner indent (span.content (indent ++ cfg.indentUnit)), Led P l) :
    ∀ l ∈ fieldLines cfg inner indent col head ls, Led P l := by
  obtain ⟨cell, hcell⟩ := col.cell_cons c r head.optional
  have hlabel : Fronted P (indent ++ col.cell head.key head.optional ++ [' ', ':']) := by
    rw [hkey, hcell]
    exact (hi.fronted hc cell).append _
  have hfirst := hlabel.append (' ' :: head.value)
  unfold fieldLines
  simp only
  split
  · simpa using hfirst.trimRight.1
  · next hmany =>
    unfold nestedField?
    cases hn : nestedSpan? head (ls.filter (!isBlankLine ·)) with
    | none => exact led_keepLines hs hi hfirst.1 _
    | some x =>
      obtain ⟨before, span⟩ := x
      have hclosing : trim span.closing = span.closing := by
        obtain ⟨o, ho, hn⟩ := Option.bind_eq_some_iff.mp hn
        simp only [Option.ite_none_left_eq_some, Option.some.injEq, Prod.mk.injEq] at hn
        obtain ⟨-, -, rfl⟩ := hn
        exact ObjectSpan.closing_trimmed ho
      intro l hl
      simp only [Option.map_some, Option.getD_some, List.cons_append, List.mem_cons,
        List.mem_append, List.not_mem_nil, or_false] at hl
      rcases hl with rfl | hl | rfl
      · exact ((hlabel.append _).append _).1
      · exact hinner before span hmany hn l hl
      · rw [← hclosing]
        exact hi.led_trim _

theorem led_setOff {done : List Text} (h : ∀ l ∈ done, Led P l) : ∀ l ∈ setOff done, Led P l := by
  unfold setOff
  split
  · simp
  · split
    · exact h
    · exact List.forall_mem_append.mpr ⟨h, by simpa using led_nil⟩

def Layout.Led (P : Text → Prop) (out : Layout) : Prop :=
  ∀ l ∈ out.done ++ out.comments, IndentStyle.Led P l

section Place

variable {room : Nat} {inner : Text → List Text → List Text} {indent : Text} {col : NameColumn}
  (texts : Text → List Text → List Text)

theorem led_place (hs : Scale cfg.indentUnit P) (hi : Margin P indent)
    (hinner : ∀ ls, (∀ t ∈ texts indent ls, (Parameter.read t).name ≠ []) → ∀ l ∈ inner indent ls,
      Led P l)
    {m : Member} (hk : m.kind = kindOf m.lines)
    (hnamed : ∀ t ∈ parameterTexts cfg room texts indent m, (Parameter.read t).name ≠ [])
    {out : Layout} (hout : out.Led P) : (place cfg room inner indent col out m).Led P := by
  obtain ⟨hdone, hcomments⟩ := List.forall_mem_append.mp hout
  unfold place Layout.Led
  cases hkind : m.kind with
  | comment =>
    simp only [List.forall_mem_append]
    exact ⟨hdone, hcomments, led_commentLines hi m.lines⟩
  | method head =>
    obtain ⟨c, -, r, -, htoken, hc, -⟩ := MethodHead.cons_of_read? (kindOf_method (hk ▸ hkind))
    have hsig := Signature.led_format hs hi hc
      (r ++ List.replicate (col.cellWidth - head.token.length) ' ')
      (by simpa [parameterTexts, hkind] using hnamed)
    simp only [List.append_nil, List.forall_mem_append]
    refine ⟨⟨led_setOff hdone, hcomments⟩, ?_⟩
    rw [padTo, htoken] at *
    exact hsig
  | field head =>
    obtain ⟨k, hread, rfl⟩ := kindOf_field (hk ▸ hkind)
    obtain ⟨c, r, hkey, hc, -⟩ := FieldHead.key_of_read? hread
    have hfield := @led_fieldLines P cfg hs inner indent hi col { k with value := trim k.value } c r
      hkey hc m.lines fun before span hmany hspan =>
      hinner _ (by simpa [parameterTexts, hkind, hmany, hspan] using hnamed)
    simp only [List.append_nil, List.forall_mem_append]
    exact ⟨⟨hdone, hcomments⟩, hfield⟩
  | unknown =>
    simp only [List.append_nil, List.forall_mem_append]
    exact ⟨⟨hdone, hcomments⟩, led_plainLines hi m.lines⟩

theorem led_foldl_place (hs : Scale cfg.indentUnit P) (hi : Margin P indent)
    (hinner : ∀ ls, (∀ t ∈ texts indent ls, (Parameter.read t).name ≠ []) → ∀ l ∈ inner indent ls,
      Led P l)
    {ms : List Member} (hk : ∀ m ∈ ms, m.kind = kindOf m.lines)
    (hnamed : ∀ m ∈ ms, ∀ t ∈ parameterTexts cfg room texts indent m, (Parameter.read t).name ≠ [])
    {out : Layout} (hout : out.Led P) : (ms.foldl (place cfg room inner indent col) out).Led P := by
  induction ms generalizing out with
  | nil => exact hout
  | cons m ms ih =>
    simp only [List.forall_mem_cons] at hk hnamed
    exact ih hk.2 hnamed.2 (led_place texts hs hi hinner hk.1 hnamed.1 hout)

end Place

end Member

namespace Block

/-- The lines between a pair of braces are led whatever they were indented with before. -/
theorem led_format (hs : Scale cfg.indentUnit P) {room : Nat} {base : Text} {ls : List Text}
    (hb : Margin P base) (hnamed : ∀ t ∈ parameterTexts cfg room base ls, (Parameter.read t).name ≠
      []) :
    ∀ l ∈ format cfg room base ls, Led P l := by
  induction room generalizing base ls with
  | zero => exact Member.led_plainLines (hb.step hs) ls
  | succ room ih =>
    exact Member.led_foldl_place (parameterTexts cfg room) hs (hb.step hs)
      (fun _ => ih (hb.step hs)) (fun m hm => by obtain ⟨l, -, rfl⟩ := List.mem_map.mp hm; rfl)
      (fun m hm t h => hnamed t (List.mem_flatMap.mpr ⟨m, hm, h⟩)) (by simp [Member.Layout.Led])

theorem led_formatOneLine (hs : Scale cfg.indentUnit P) {room : Nat} {base line : Text}
    (hb : Margin P base) (hline : Led P line)
    (hnamed : ∀ t ∈ oneLineTexts cfg room base line, (Parameter.read t).name ≠ []) :
    ∀ l ∈ formatOneLine cfg room base line, Led P l := by
  unfold formatOneLine
  unfold oneLineTexts at hnamed
  split
  · simpa using hline
  · next before content after h =>
    simp only [h] at hnamed
    obtain ⟨i, hi, hp⟩ := Option.bind_eq_some_iff.mp h
    obtain ⟨c, hc, hget⟩ := findTop?_spec hi
    obtain rfl : c = '{' := by simpa using hc
    -- the first line is the old one up to its brace
    have hbefore : before = line.take i := by
      obtain ⟨⟨b, inside, a⟩, hpair, hp⟩ := Option.bind_eq_some_iff.mp hp
      simp only [Option.ite_none_left_eq_some, Option.some.injEq, Prod.mk.injEq] at hp
      obtain ⟨-, rfl, -⟩ := hp
      obtain ⟨j, -, he⟩ := Option.map_eq_some_iff.mp hpair
      exact (congrArg Prod.fst he).symm
    intro l hl
    simp only [List.cons_append, List.mem_cons, List.mem_append, List.not_mem_nil, or_false] at hl
    rcases hl with rfl | hl | rfl
    · exact (hline.of_isPrefix (hbefore ▸ prefix_of_getElem? hget)).trimRight
    · exact led_format hs hb hnamed l hl
    · exact hb.led_cons (by decide) _

end Block

/-! ## Declarations -/

namespace Union

theorem led_cut? {base : Text} {ls head rest : List Text} (hls : ∀ l ∈ ls, Led P l)
    (h : cut? base ls = some (head, rest)) : ∀ l ∈ head, Led P l := by
  obtain ⟨⟨before, line, i, after⟩, ha, h⟩ := Option.map_eq_some_iff.mp h
  rw [(assignmentLine?_spec ha).1] at hls
  obtain ⟨hbefore, hafter⟩ := List.forall_mem_append.mp hls
  have hline : Led P line := hafter line List.mem_cons_self
  simp only at h
  split at h
  · cases h
    exact List.forall_mem_append.mpr
      ⟨hbefore, by simpa using (hline.of_isPrefix (List.take_prefix _ _)).trimRight⟩
  · cases h
    exact List.forall_mem_append.mpr ⟨hbefore, by simpa using hline.trimRight⟩

theorem closing_head {deeper : Text} {ls content : List Text} {before closing : Text}
    (h : object? deeper ls = some (before, content, closing)) :
    ∀ c ∈ closing.head?, isBlank c = false := by
  unfold object? at h
  split at h
  · obtain ⟨⟨b, c, a⟩, -, h⟩ := Option.map_eq_some_iff.mp h
    cases h
    exact fun c hc => Option.some.inj hc ▸ by decide
  · obtain ⟨span, hspan, h⟩ := Option.map_eq_some_iff.mp h
    cases h
    rw [← ObjectSpan.closing_trimmed hspan]
    exact fun c hc => head_trim hc

theorem led_openBrace {indent : Text} (hi : Margin P indent) (t : Text) :
    Led P (indent ++ openBrace (trim t)) := by
  refine hi.led fun c hc => ?_
  cases ht : trim t with
  | nil =>
    rw [ht] at hc
    cases hc
    decide
  | cons d r =>
    have hd : isBlank d = false := head_trim (t := t) (by rw [ht]; rfl)
    have hhead : (openBrace (trim t)).head? = some d := by
      rw [ht, openBrace]
      split
      · next he => simp at he
      · split <;> rfl
    rw [hhead] at hc
    cases hc
    exact hd

theorem led_memberLines (hs : Scale cfg.indentUnit P) {room : Nat} {indent : Text} {ls : List Text}
    (hi : Margin P indent)
    (hnamed : ∀ t ∈ memberTexts cfg room indent ls, (Parameter.read t).name ≠ []) :
    ∀ l ∈ memberLines cfg room indent ls, Led P l := by
  unfold memberLines
  unfold memberTexts at hnamed
  simp only
  split
  · next before content closing h =>
    simp only [h] at hnamed
    simp only [Option.ite_none_right_eq_some] at h
    intro l hl
    simp only [List.cons_append, List.mem_cons, List.mem_append, List.not_mem_nil, or_false] at hl
    rcases hl with rfl | hl | rfl
    · exact led_openBrace hi before
    · exact Block.led_format hs hi hnamed l hl
    · exact hi.led (closing_head h.2)
  · split
    · simpa using hi.led_trim (ls.headD [])
    · exact led_keepLines hs hi (hi.led_trim _) ls

theorem led_format (hs : Scale cfg.indentUnit P) {room : Nat} {base : Text} {ls : List Text}
    (hb : Margin P base) (hls : ∀ l ∈ ls, Led P l)
    (hnamed : ∀ t ∈ parameterTexts cfg room base ls, (Parameter.read t).name ≠ []) :
    ∀ l ∈ format cfg room base ls, Led P l := by
  unfold format
  unfold parameterTexts at hnamed
  split
  · exact hls
  · next head rest h =>
    simp only [h] at hnamed
    refine List.forall_mem_append.mpr ⟨led_cut? hls h, ?_⟩
    intro l hl
    obtain ⟨m, hm, hl⟩ := List.mem_flatMap.mp hl
    exact led_memberLines hs (hb.step hs) (fun t ht => hnamed t (List.mem_flatMap.mpr ⟨m, hm, ht⟩))
      l hl

end Union

namespace Declaration

/-- The lines of a declaration are led after layout if they were before. -/
theorem led_format (hs : Scale cfg.indentUnit P) {ls : List Text}
    (hb : Margin P (indentOf (ls.headD []))) (hls : ∀ l ∈ ls, Led P l)
    (hnamed : ∀ t ∈ parameterTexts cfg ls, (Parameter.read t).name ≠ []) :
    ∀ l ∈ format cfg ls, Led P l := by
  obtain ⟨-, hbody⟩ := shape_spec ls
  unfold format
  unfold parameterTexts at hnamed
  cases hshape : shape ls with
  | union =>
    rw [hshape] at hnamed
    exact Union.led_format hs hb hls hnamed
  | plain => exact hls
  | unclosed => exact hls
  | oneLine row =>
    rw [hshape] at hnamed
    exact List.forall_mem_append.mpr ⟨fun l hl => hls l (List.mem_of_mem_take hl),
      Block.led_formatOneLine hs hb (led_getD hls row) hnamed⟩
  | body row col close =>
    rw [hshape] at hnamed
    have hopening : (bodySpan ls row col close).before ++ ['{'] <+: ls.getD row [] :=
      prefix_of_getElem? (hbody row col close hshape).2
    intro l hl
    simp only [formatBody, List.mem_append, List.mem_cons, List.not_mem_nil, or_false] at hl
    rcases hl with (hl | rfl | hl) | rfl
    · exact hls l (List.mem_of_mem_take hl)
    · exact ((led_getD hls row).of_isPrefix hopening).trimRight
    · exact Block.led_format hs hb hnamed l hl
    · exact hb.led_trim _

end Declaration

/-! ## What a body shows

A field and a call signature begin with a name, so that the line they begin on counts. -/

def IndentStyle.Shows (i : Text) (ls : List Text) : Prop := ∃ l ∈ ls, evidence l = some i

theorem IndentStyle.Shows.mono {i : Text} {ls ls' : List Text} (h : Shows i ls) (hsub : ls ⊆ ls') :
    Shows i ls' := by
  obtain ⟨l, hl, he⟩ := h
  exact ⟨l, hsub hl, he⟩

section Shows

variable {room : Nat} {inner : Text → List Text → List Text} {indent : Text}
    (hi : ∀ c ∈ indent, isLead c = true)
  (hne : indent ≠ []) {col : NameColumn}

include hi hne

theorem Signature.shows_format {width : Nat} {ls : List Text} {h : MethodHead}
    (hh : MethodHead.read? (trim (ls.headD [])) = some h) :
    Shows indent (format cfg room indent (padTo width ' ' h.token) ls) := by
  obtain ⟨c, x, t, hx, htoken, hc, hstar⟩ := MethodHead.cons_of_read? hh
  obtain ⟨r, hbody⟩ := nonblank_of_head (by rw [hx]; exact List.cons_ne_nil _ _)
  have hfirst : evidence (indent ++ trim (ls.headD [])) = some indent := by
    rw [hx]
    exact evidence_front hi hne hc hstar x
  have hkept : Shows indent
      (keepLines cfg indent (indent ++ trim (ls.headD [])) (ls.headD [] :: r)) :=
    ⟨_, List.mem_cons_self, by rw [evidence_trimRight, hfirst]⟩
  unfold format
  simp only [hbody, List.headD_cons]
  split
  · exact hkept
  · split
    · exact hkept
    · refine ⟨_, List.mem_cons_self, ?_⟩
      rw [htoken, padTo, List.append_assoc, List.append_assoc]
      exact evidence_front hi hne hc hstar _

namespace Member

def isEntry (m : Member) : Bool :=
  match m.kind with
  | .field _ => true
  | .method _ => true
  | _ => false

theorem shows_fieldLines {head : FieldHead} {c : Char} {r : Text} (hkey : head.key = c :: r)
    (hc : isBlank c = false) (hstar : c ≠ '*') (ls : List Text) :
    Shows indent (fieldLines cfg inner indent col head ls) := by
  obtain ⟨cell, hcell⟩ := col.cell_cons c r head.optional
  have hlabel : ∀ x, evidence (indent ++ col.cell head.key head.optional ++ [' ', ':'] ++ x) =
      some indent := by
    intro x
    rw [hkey, hcell, List.append_assoc, List.append_assoc]
    exact evidence_front hi hne hc hstar _
  unfold fieldLines nestedField?
  simp only
  split
  · exact ⟨_, List.mem_cons_self, by rw [evidence_trimRight, hlabel]⟩
  · cases nestedSpan? head (ls.filter (!isBlankLine ·)) with
    | none => exact ⟨_, List.mem_cons_self, by rw [evidence_trimRight, hlabel]⟩
    | some x => exact ⟨_, List.mem_cons_self, by rw [List.append_assoc, hlabel]⟩

theorem shows_place {m : Member} (hk : m.kind = kindOf m.lines) (hentry : m.isEntry = true)
    (out : Layout) : Shows indent (place cfg room inner indent col out m).done := by
  unfold place
  unfold isEntry at hentry
  cases hkind : m.kind with
  | comment => simp [hkind] at hentry
  | unknown => simp [hkind] at hentry
  | method head =>
    exact (Signature.shows_format hi hne (kindOf_method (hk ▸ hkind))).mono
      (List.subset_append_right _ _)
  | field head =>
    obtain ⟨k, hread, rfl⟩ := kindOf_field (hk ▸ hkind)
    obtain ⟨c, r, hkey, hc, hstar⟩ := FieldHead.key_of_read? hread
    refine IndentStyle.Shows.mono ?_ (List.subset_append_right _ _)
    exact @shows_fieldLines cfg inner indent hi hne col { k with value := trim k.value } c r hkey hc
      hstar m.lines

end Member

end Shows

namespace Member

theorem subset_setOff (done : List Text) : done ⊆ setOff done := by
  unfold setOff
  cases h : done.getLast? with
  | none => simp [List.getLast?_eq_none_iff.mp h]
  | some l =>
    simp only
    split
    · exact List.Subset.refl _
    · exact List.subset_append_left _ _

/-- What has been written stays. -/
theorem subset_place {room : Nat} {inner : Text → List Text → List Text} {indent : Text}
    {col : NameColumn} (out : Layout) (m : Member) :
    out.done ⊆ (place cfg room inner indent col out m).done := by
  unfold place
  cases m.kind with
  | comment => exact List.Subset.refl _
  | method head =>
    refine List.Subset.trans (subset_setOff _) ?_
    exact List.Subset.trans (List.subset_append_left _ _) (List.subset_append_left _ _)
  | field head =>
    exact List.Subset.trans (List.subset_append_left _ _) (List.subset_append_left _ _)
  | unknown => exact List.Subset.trans (List.subset_append_left _ _) (List.subset_append_left _ _)

theorem subset_foldl_place {room : Nat} {inner : Text → List Text → List Text} {indent : Text}
    {col : NameColumn} (ms : List Member) (out : Layout) :
    out.done ⊆ (ms.foldl (place cfg room inner indent col) out).done := by
  induction ms generalizing out with
  | nil => exact List.Subset.refl _
  | cons m ms ih => exact List.Subset.trans (subset_place out m) (ih _)

end Member

/-- The lines between a pair of braces show one level more than their base if a
member begins with a name. -/
theorem Block.shows_format {room : Nat} {base : Text}
    (hi : ∀ c ∈ base ++ cfg.indentUnit, isLead c = true) (hne : base ++ cfg.indentUnit ≠ [])
    {ls : List Text} {m : Member} (hm : m ∈ members ls) (hentry : m.isEntry = true) :
    Shows (base ++ cfg.indentUnit) (format cfg (room + 1) base ls) := by
  have hk : m.kind = Member.kindOf m.lines := by
    obtain ⟨l, -, rfl⟩ := List.mem_map.mp hm
    rfl
  obtain ⟨before, after, hms⟩ := List.append_of_mem hm
  unfold format
  simp only
  refine IndentStyle.Shows.mono ?_ (List.subset_append_left _ _)
  conv => arg 2; arg 1; arg 3; rw [hms]
  rw [List.foldl_append, List.foldl_cons]
  exact (Member.shows_place hi hne hk hentry _).mono (Member.subset_foldl_place after _)

namespace Declaration

/-- The lines between the braces of a declaration; none if its body stays as it is. -/
def bodyLines (cfg : Settings) (ls : List Text) : List Text :=
  let base := indentOf (ls.headD [])
  match shape ls with
  | .oneLine row =>
    match (findTop? ['{'] (ls.getD row [])).bind (Block.braceParts? (ls.getD row [])) with
    | none => []
    | some (_, content, _) => [base ++ cfg.indentUnit ++ Member.terminate content]
  | .body row col close => (bodySpan ls row col close).content (base ++ cfg.indentUnit)
  | _ => []

theorem subset_format {ls : List Text} (h : bodyLines cfg ls ≠ []) :
    Block.format cfg (roomAt 0) (indentOf (ls.headD [])) (bodyLines cfg ls) ⊆ format cfg ls := by
  unfold format
  unfold bodyLines at h ⊢
  cases hshape : shape ls with
  | union => simp [hshape] at h
  | plain => simp [hshape] at h
  | unclosed => simp [hshape] at h
  | oneLine row =>
    simp only [hshape] at h ⊢
    refine List.Subset.trans ?_ (List.subset_append_right _ _)
    unfold Block.formatOneLine
    cases hparts : (findTop? ['{'] (ls.getD row [])).bind (Block.braceParts? (ls.getD row [])) with
    | none => simp only [hparts, ne_eq, not_true_eq_false] at h
    | some parts =>
      exact List.Subset.trans (List.subset_append_left _ _) (List.subset_cons_self _ _)
  | body row col close =>
    simp only [formatBody]
    refine List.Subset.trans ?_ (List.subset_append_left _ _)
    exact List.Subset.trans (List.subset_cons_self _ _) (List.subset_append_right _ _)

/-- A declaration shows one level more than its margin if a member of its
body begins with a name. -/
theorem shows_format {ls : List Text}
    (hi : ∀ c ∈ indentOf (ls.headD []) ++ cfg.indentUnit, isLead c = true)
    (hne : indentOf (ls.headD []) ++ cfg.indentUnit ≠ []) {m : Member}
    (hm : m ∈ Block.members (bodyLines cfg ls)) (hentry : m.isEntry = true) :
    Shows (indentOf (ls.headD []) ++ cfg.indentUnit) (format cfg ls) := by
  have hbody : bodyLines cfg ls ≠ [] := by
    intro hnil
    rw [hnil] at hm
    cases hm
  have hshows : Shows (indentOf (ls.headD []) ++ cfg.indentUnit)
      (Block.format cfg (roomAt 0) (indentOf (ls.headD [])) (bodyLines cfg ls)) :=
    @Block.shows_format cfg nestingLimit _ hi hne _ m hm hentry
  exact hshows.mono (subset_format hbody)

end Declaration

end SourceLayout
