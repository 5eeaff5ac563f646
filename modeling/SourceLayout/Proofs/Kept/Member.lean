import SourceLayout.Proofs.Kept.Signature

/-! Members lose no ink: neither when the lines between a pair of braces are cut into members, nor
when the members are laid out again, at every depth of nesting. -/

namespace SourceLayout
open Text Scan

namespace Member

@[simp] theorem ink_terminate (t : Text) : ink (terminate t) = ink t := by
  unfold terminate
  simp only
  split
  · rfl
  split
  · rfl
  split
  · rfl
  split
  · simp
  · simp

end Member

namespace ObjectSpan

/-- A brace that is still open at the end of a line is a character of its code. -/
theorem mark_of_openBraces {t : Text} {i depth : Nat} (h : (openBraces t).head? = some (i, depth)) :
    ∃ m, (marks t)[i]? = some m ∧ m.isCode = true ∧ m.char = '{' := by
  have hstack : ∀ (ms : List (Mark × Nat)) (stack : List (Nat × Nat)),
      (∀ x ∈ ms, (marks t)[x.2]? = some x.1 ∧ x.1.isCode = true) →
      (∀ x ∈ stack, ∃ m, (marks t)[x.1]? = some m ∧ m.isCode = true ∧ m.char = '{') →
      ∀ x ∈ ms.foldl braceStep stack, ∃ m, (marks t)[x.1]? = some m ∧ m.isCode = true ∧
      m.char = '{' := by
    intro ms
    induction ms with
    | nil => exact fun stack _ hs => hs
    | cons m ms ih =>
      intro stack hms hs
      refine ih _ (fun x hx => hms x (List.mem_cons_of_mem _ hx)) ?_
      intro x hx
      unfold braceStep at hx
      split at hx
      · next ho =>
        rcases List.mem_cons.mp hx with rfl | hx
        · obtain ⟨hm, hcode⟩ := hms m List.mem_cons_self
          exact ⟨m.1, hm, hcode, beq_iff_eq.mp ho⟩
        · exact hs x hx
      · split at hx
        · exact hs x (List.mem_of_mem_tail hx)
        · exact hs x hx
  refine hstack (codeMarks t) [] ?_ (by simp) (i, depth) (List.mem_of_mem_head? h)
  intro x hx
  obtain ⟨hmem, hcode⟩ := List.mem_filter.mp hx
  exact ⟨List.mem_zipIdx_iff_getElem?.mp hmem, hcode⟩

/-- The lines of an object type are put together again from its parts. -/
theorem read?_spec {ls : List Text} {o : ObjectSpan} (h : read? ls = some o) :
    ∃ opener, o.before = (trim (ls.headD [])).take opener ∧
      ink ls.flatten = ink o.before ++ '{' :: ink o.afterOpen ++ ink o.middle.flatten ++
        ink o.beforeClose ++ ink o.closing := by
  obtain ⟨first, hfirst, h⟩ := Option.bind_eq_some_iff.mp h
  obtain ⟨last, hlast, h⟩ := Option.bind_eq_some_iff.mp h
  obtain ⟨⟨opener, depth⟩, hopen, h⟩ := Option.bind_eq_some_iff.mp h
  obtain ⟨s, -, h⟩ := Option.bind_eq_some_iff.mp h
  obtain ⟨closer, -, h⟩ := Option.bind_eq_some_iff.mp h
  cases h
  cases ls with
  | nil => cases hfirst
  | cons l r =>
    obtain rfl : l = first := by simpa using hfirst
    obtain ⟨middle, hr⟩ := List.getLast?_eq_some_iff.mp hlast
    obtain rfl : r = middle ++ [last] := hr
    obtain ⟨m, hm, -, hchar⟩ := mark_of_openBraces hopen
    have hf := ink_at (hchar ▸ getElem?_of_marks hm)
    rw [ink_trim] at hf
    refine ⟨opener, rfl, ?_⟩
    simp [hf]

@[simp] theorem ink_loose {indent : Text} (hi : ink indent = []) (t : Text) :
    ink (loose indent t).flatten = ink t := by
  unfold loose
  split
  · next he => rw [List.isEmpty_iff.mp he]; rfl
  · simp [hi]

theorem ink_content (o : ObjectSpan) {indent : Text} (hi : ink indent = []) :
    ink (o.content indent).flatten = ink o.afterOpen ++ ink o.middle.flatten ++
      ink o.beforeClose := by
  simp [content, hi]

end ObjectSpan

namespace Member

theorem flatten_pieces (ms : List Mark) : (semicolonPieces.go ms).flatten = ms.map Mark.char := by
  induction ms with
  | nil => rfl
  | cons m ms ih =>
    unfold semicolonPieces.go
    split
    · simp [ih]
    · cases hg : semicolonPieces.go ms with
      | nil => rw [hg] at ih; simp [← ih]
      | cons p ps => rw [hg] at ih; simp [← ih]

theorem ink_onLine (t : Text) : ink (onLine t).flatten = ink t := by
  have hpieces : ink ((semicolonPieces t).map trim).flatten = ink t := by
    rw [ink_flatten_map (fun _ _ => ink_trim _), semicolonPieces, flatten_pieces, map_char_marks]
  unfold onLine
  rw [ink_flatten_filter]
  · rw [← hpieces]
    generalize (semicolonPieces t).map trim = pieces
    rcases List.eq_nil_or_concat pieces with rfl | ⟨closed, rest, rfl⟩
    · rfl
    · rw [List.concat_eq_append]
      simp only [List.dropLast_concat, List.getLast?_concat, Option.getD_some]
      split
      · next he => simp [List.isEmpty_iff.mp he]
      split
      · cases hc : closed.getLast? with
        | none => simp [List.getLast?_eq_none_iff.mp hc]
        | some l =>
          obtain ⟨ys, rfl⟩ := List.getLast?_eq_some_iff.mp hc
          simp
      · rfl
  · intro p _ hp
    simp only [Bool.and_eq_false_iff, Bool.not_eq_false', bne_eq_false_iff_eq,
      List.isEmpty_iff] at hp
    rcases hp with rfl | rfl <;> rfl

theorem ink_expandLines (ls : List Text) : ink (expandLines ls).flatten = ink ls.flatten := by
  have hline : ∀ carried l, ink (expandLine carried l).flatten = ink l := by
    intro carried l
    unfold expandLine
    simp only
    split
    · simp
    split
    · simp
    · rw [ink_flatten_map (by simp), ink_onLine, ink_trim]
  have hfrom : ∀ s, ink (expandFrom s ls).flatten = ink ls.flatten := by
    induction ls with
    | nil => exact fun _ => rfl
    | cons l r ih => intro s; simp [expandFrom, hline, ih]
  exact hfrom {}

theorem ink_delimitFrom (s : State) (current ls : List Text) :
    ink (delimitFrom s current ls).flatten.flatten = ink current.reverse.flatten ++
      ink ls.flatten := by
  induction ls generalizing s current with
  | nil =>
    unfold delimitFrom
    split
    · next he => simp [List.isEmpty_iff.mp he]
    · simp
  | cons l r ih =>
    unfold delimitFrom
    split
    · next hb =>
      rw [Bool.and_eq_true] at hb
      simp [ih, ink_blank hb.1]
    · simp only
      split <;> simp [ih]

theorem ink_commentLines {indent : Text} (hi : ink indent = []) (ls : List Text) :
    ink (commentLines indent ls).flatten = ink ls.flatten := by
  have hline : ∀ x : Text × Nat, ink (commentLine indent x) = ink x.1 := by
    intro x
    unfold commentLine
    simp only
    split <;> simp [hi]
  have hmap : ∀ xs : List (Text × Nat),
      ink ((xs.filter (!isBlankLine ·.1)).map (commentLine indent)).flatten =
        ink (xs.map Prod.fst).flatten := by
    intro xs
    induction xs with
    | nil => rfl
    | cons x xs ih =>
      cases hb : isBlankLine x.1 with
      | true => simpa [hb, ink_blank hb] using ih
      | false =>
        rw [List.filter_cons_of_pos (by simp [hb]), List.map_cons, List.flatten_cons, ink_append,
          ih, hline]
        simp
  rw [commentLines, hmap, List.zipIdx_map_fst]

/-- The head of a field member, read off its first line: the value is the end of that line. -/
private theorem field_spec {l : Text} {h : FieldHead} (hr : FieldHead.read? (trim l) = some h) :
    ∃ a, trim l = a ++ trim h.value ∧
      ink a = ink h.key ++ (if h.optional then ['?'] else []) ++ [':'] := by
  obtain ⟨a, rest, ht, hrest, hhead, hink⟩ := FieldHead.read?_spec hr
  have hlast : ∀ c, (a ++ h.value ++ rest).getLast? = some c → isBlank c = false := by
    rw [← ht]
    exact fun c => last_trim
  obtain rfl : rest = [] := by
    rcases hrest with rfl | rfl
    · rfl
    · have hb := hlast '\n' (by simp)
      exact absurd hb (by decide)
  rw [List.append_nil] at ht hlast
  refine ⟨a, ?_, hink⟩
  rw [ht, trim_eq_self hhead]
  intro c hc
  apply hlast
  rw [List.getLast?_append, hc, Option.some_or]

/-- The texts that are read as parameters when a member is laid out; `inner` gives those of the
lines between the braces of a field. -/
def parameterTexts (cfg : Settings) (room : Nat) (inner : Text → List Text → List Text)
    (indent : Text) (m : Member) : List Text :=
  match m.kind with
  | .method _ => Signature.parameterTexts cfg room m.lines
  | .field head =>
    let body := m.lines.filter (!isBlankLine ·)
    if body.length = 1 then []
    else match nestedSpan? head body with
      | none => []
      | some (_, span) => inner indent (span.content (indent ++ cfg.indentUnit))
  | _ => []

/-- The brace of a nested object type stands behind the head of its field. -/
theorem nestedSpan?_eq {l a before : Text} {r : List Text} {head : FieldHead} {span : ObjectSpan}
    (hl : trim l = a ++ head.value) (h : nestedSpan? head (l :: r) = some (before, span)) :
    ObjectSpan.read? (l :: r) = some span ∧ ∃ x, span.before = a ++ x ∧ before = trim x := by
  obtain ⟨o, ho, h⟩ := Option.bind_eq_some_iff.mp h
  simp only [Option.ite_none_left_eq_some, Option.some.injEq, Prod.mk.injEq] at h
  obtain ⟨hlen, rfl, rfl⟩ := h
  obtain ⟨opener, hbefore, -⟩ := ObjectSpan.read?_spec ho
  rw [List.headD_cons] at hbefore hlen
  have hstart : (trim l).length - head.value.length = a.length := by rw [hl]; simp
  rw [hstart] at hlen
  refine ⟨ho, o.before.drop a.length, ?_, by rw [List.headD_cons, hstart]⟩
  have htake : o.before.take a.length = a := by
    rw [hbefore, hl, List.length_take] at hlen
    rw [hbefore, hl, List.take_take, Nat.min_eq_left (by omega), List.take_left]
  conv => lhs; rw [← List.take_append_drop a.length o.before, htake]

private theorem nestedSpan?_spec {l a before : Text} {r : List Text} {head : FieldHead}
    {span : ObjectSpan} (hl : trim l = a ++ head.value)
    (h : nestedSpan? head (l :: r) = some (before, span)) :
    ink (l :: r).flatten = ink a ++ ink before ++ '{' :: ink span.afterOpen ++
      ink span.middle.flatten ++ ink span.beforeClose ++ ink span.closing := by
  obtain ⟨ho, x, hbefore, rfl⟩ := nestedSpan?_eq hl h
  obtain ⟨-, -, hink⟩ := ObjectSpan.read?_spec ho
  rw [hink, hbefore, ink_trim]
  simp

theorem ink_fieldLines (cfg : Settings) (inner : Text → List Text → List Text) {indent : Text}
    {col : NameColumn} {ls : List Text} {h : FieldHead}
    (hr : FieldHead.read? (trim (ls.headD [])) = some h) (hi : ink indent = [])
    (hcol : h.optional = true → col.hasOptional = true)
    (hinner : ∀ before span,
      (ls.filter (!isBlankLine ·)).length ≠ 1 →
      nestedSpan? { h with value := trim h.value } (ls.filter (!isBlankLine ·)) =
        some (before, span) →
      ink (inner indent (span.content (indent ++ cfg.indentUnit))).flatten =
        ink (span.content (indent ++ cfg.indentUnit)).flatten) :
    ink (fieldLines cfg inner indent col { h with value := trim h.value } ls).flatten =
      ink ls.flatten := by
  obtain ⟨a, hl, hink⟩ := field_spec hr
  obtain ⟨r, hbody⟩ := nonblank_of_head fun he => by
    rw [he] at hr
    cases hr
  generalize ls.headD [] = l at hl hbody
  rw [← ink_flatten_nonblank ls]
  unfold fieldLines
  simp only [hbody] at hinner ⊢
  have hlabel : ink (indent ++ col.cell h.key h.optional ++ [' ', ':']) = ink a := by
    rw [hink]
    simp [hi, ink_cell col h.key h.optional hcol]
  have hfirst : ink (indent ++ col.cell h.key h.optional ++ [' ', ':'] ++ ' ' :: trim h.value) =
      ink l := by
    rw [ink_append, hlabel, ← ink_trim l, hl]
    simp
  split
  · next hone =>
    obtain rfl : r = [] := by simpa using hone
    simp only [List.flatten_cons, List.flatten_nil, List.append_nil, ink_trimRight]
    exact hfirst
  · next hmany =>
    unfold nestedField?
    cases hn : nestedSpan? { h with value := trim h.value } (l :: r) with
    | none => exact ink_keepLines cfg hi hfirst
    | some x =>
      obtain ⟨before, span⟩ := x
      have hin := hinner before span hmany hn
      rw [ObjectSpan.ink_content _ (by simp [hi])] at hin
      rw [nestedSpan?_spec hl hn]
      simp only [Option.map_some, Option.getD_some, List.cons_append, List.flatten_cons,
        List.flatten_append, ink_append, hin]
      simp [← hlabel, hi]

theorem kindOf_method {ls : List Text} {head : MethodHead} (h : kindOf ls = .method head) :
    MethodHead.read? (trim (ls.headD [])) = some head := by
  unfold kindOf at h
  simp only at h
  split at h
  · cases h
  split at h
  · next k hk =>
    cases h
    exact hk
  · split at h <;> cases h

theorem kindOf_field {ls : List Text} {head : FieldHead} (h : kindOf ls = .field head) :
    ∃ k, FieldHead.read? (trim (ls.headD [])) = some k ∧
    head = { k with value := trim k.value } := by
  unfold kindOf at h
  simp only at h
  split at h
  · cases h
  split at h
  · cases h
  split at h
  · next k hk =>
    cases h
    exact ⟨k, hk, rfl⟩
  · cases h

def Layout.inkOf (out : Layout) : Text := ink out.done.flatten ++ ink out.comments.flatten

theorem ink_setOff (done : List Text) : ink (setOff done).flatten = ink done.flatten := by
  unfold setOff
  cases h : done.getLast? with
  | none => simp [List.getLast?_eq_none_iff.mp h]
  | some l => simp only; split <;> simp

theorem column_hasOptional {ms : List Member} {m : Member} {head : FieldHead} (hm : m ∈ ms)
    (hk : m.kind = .field head) (ho : head.optional = true) : (column ms).hasOptional = true := by
  simp only [column, NameColumn.of, List.any_map, List.any_eq_true, List.mem_filterMap]
  exact ⟨head, ⟨m, hm, by simp [field?, hk]⟩, ho⟩

section Place

variable {cfg : Settings} {room : Nat} {inner : Text → List Text → List Text} {indent : Text}
  {ms : List Member} (texts : Text → List Text → List Text)

/-- Adding a member adds its ink. -/
theorem inkOf_place (hi : ink indent = [])
    (hinner : ∀ ls, (∀ t ∈ texts indent ls, Parameter.lacksType t = false) →
      ink (inner indent ls).flatten = ink ls.flatten)
    {m : Member} (hm : m ∈ ms) (hk : m.kind = kindOf m.lines)
    (ht : ∀ t ∈ parameterTexts cfg room texts indent m, Parameter.lacksType t = false)
    (out : Layout) :
    (place cfg room inner indent (column ms) out m).inkOf = out.inkOf ++ ink m.lines.flatten := by
  unfold place
  cases hkind : m.kind with
  | comment => simp [Layout.inkOf, ink_commentLines hi]
  | method head =>
    have hhead : ink (padTo (column ms).cellWidth ' ' head.token) = ink head.token := by simp
    have hsig := Signature.ink_format cfg (kindOf_method (hk ▸ hkind)) hi hhead
      (by simpa [parameterTexts, hkind] using ht)
    simp [Layout.inkOf, ink_setOff, hsig]
  | field head =>
    obtain ⟨k, hread, rfl⟩ := kindOf_field (hk ▸ hkind)
    have hfield := ink_fieldLines cfg inner hread hi
      (fun ho => column_hasOptional hm hkind ho) (by
        intro before span hmany hspan
        apply hinner
        simpa [parameterTexts, hkind, hmany, hspan] using ht)
    simp [Layout.inkOf, hfield]
  | unknown =>
    have hplain : ink (plainLines indent m.lines).flatten = ink m.lines.flatten :=
      ink_reindent hi m.lines
    simp [Layout.inkOf, hplain]

theorem inkOf_foldl_place (hi : ink indent = [])
    (hinner : ∀ ls, (∀ t ∈ texts indent ls, Parameter.lacksType t = false) →
      ink (inner indent ls).flatten = ink ls.flatten)
    {xs : List Member} (hsub : ∀ m ∈ xs, m ∈ ms) (hk : ∀ m ∈ xs, m.kind = kindOf m.lines)
    (ht : ∀ m ∈ xs, ∀ t ∈ parameterTexts cfg room texts indent m, Parameter.lacksType t = false)
    (out : Layout) :
    (xs.foldl (place cfg room inner indent (column ms)) out).inkOf =
      out.inkOf ++ ink (xs.map lines).flatten.flatten := by
  induction xs generalizing out with
  | nil => simp
  | cons m xs ih =>
    simp only [List.forall_mem_cons] at hsub hk ht
    rw [List.foldl_cons, ih hsub.2 hk.2 ht.2, inkOf_place texts hi hinner hsub.1 hk.1 ht.1]
    simp

end Place

end Member

namespace Block

def parameterTexts (cfg : Settings) : Nat → (base : Text) → List Text → List Text
  | 0, _, _ => []
  | room + 1, base, ls =>
    (members ls).flatMap
      (Member.parameterTexts cfg room (parameterTexts cfg room) (base ++ cfg.indentUnit))

theorem ink_members (ls : List Text) :
    ink ((members ls).map Member.lines).flatten.flatten = ink ls.flatten := by
  have hlines : (members ls).map Member.lines = Member.delimit (Member.expandLines ls) := by
    simp [members, Member.ofLines, Function.comp_def]
  rw [hlines, Member.delimit, Member.ink_delimitFrom, Member.ink_expandLines]
  rfl

/-- Laying out the lines between a pair of braces keeps their ink. -/
theorem ink_format {cfg : Settings} {room : Nat} {base : Text} {ls : List Text} (hb : ink base = [])
    (ht : ∀ t ∈ parameterTexts cfg room base ls, Parameter.lacksType t = false) :
    ink (format cfg room base ls).flatten = ink ls.flatten := by
  induction room generalizing base ls with
  | zero => exact ink_reindent (by simp [hb]) ls
  | succ room ih =>
    have hi : ink (base ++ cfg.indentUnit) = [] := by simp [hb]
    have hout := Member.inkOf_foldl_place (parameterTexts cfg room) hi (fun _ => ih hi)
      (fun m hm => hm)
      (fun m hm => by obtain ⟨l, -, rfl⟩ := List.mem_map.mp hm; rfl)
      (fun m hm t h => ht t (List.mem_flatMap.mpr ⟨m, hm, h⟩)) {}
    rw [ink_members] at hout
    unfold format
    rw [List.flatten_append, ink_append]
    exact hout

end Block

end SourceLayout
