import SourceLayout.Proofs.Kept.Head

/-! Call signatures lose no ink: neither their parameters, however deep the object types in them are
written out, nor their heads, results and comments. -/

namespace SourceLayout
open Text Scan

namespace Parameter

/-- The texts that are read as parameters when a parameter list is written out: `ts` and the members
of the object types in them, at most `room` levels deep. -/
def allTexts : Nat → List Text → List Text
  | 0, ts => ts
  | room + 1, ts => ts.flatMap fun t =>
    t :: match objectTexts? (read t).type with
      | none => []
      | some (_, members, _) => allTexts room members

/-- No parameter has a colon without a type behind it. -/
def Typed (room : Nat) (ts : List Text) : Prop := ∀ t ∈ allTexts room ts, lacksType t = false

theorem mem_allTexts {room : Nat} {ts : List Text} {t : Text} (ht : t ∈ ts) :
    t ∈ allTexts room ts := by
  cases room with
  | zero => exact ht
  | succ room => exact List.mem_flatMap.mpr ⟨t, ht, List.mem_cons_self⟩

theorem allTexts_inner {room : Nat} {ts : List Text} {t before after : Text} {members : List Text}
    (ht : t ∈ ts) (ho : objectTexts? (read t).type = some (before, members, after)) :
    allTexts room members ⊆ allTexts (room + 1) ts := by
  intro u hu
  refine List.mem_flatMap.mpr ⟨t, ht, List.mem_cons_of_mem _ ?_⟩
  rw [ho]
  exact hu

theorem Typed.mem {room : Nat} {ts : List Text} (h : Typed room ts) {t : Text} (ht : t ∈ ts) :
    lacksType t = false := h t (mem_allTexts ht)

theorem Typed.inner {room : Nat} {ts : List Text} (h : Typed (room + 1) ts) {t before after : Text}
    {members : List Text} (ht : t ∈ ts)
    (ho : objectTexts? (read t).type = some (before, members, after)) : Typed room members :=
  fun u hu => h u (allTexts_inner ht ho hu)

theorem objectTexts?_spec {t before after : Text} {members : List Text}
    (h : objectTexts? t = some (before, members, after)) :
    ink t = ink before ++ '{' :: ink members.flatten ++ '}' :: ink after := by
  obtain ⟨i, hi, h⟩ := Option.bind_eq_some_iff.mp h
  obtain ⟨⟨b, inside, a⟩, hp, h⟩ := Option.bind_eq_some_iff.mp h
  simp only [Option.ite_none_left_eq_some, Option.some.injEq, Prod.mk.injEq] at h
  obtain ⟨-, rfl, rfl, rfl⟩ := h
  rw [aroundPair?_spec (by decide) (d := '}') rfl (findCode?_spec hi) hp, ink_splitTop (by decide)]
  simp

theorem column_hasOptional {ps : List Parameter} {p : Parameter} (h : p ∈ ps)
    (ho : p.optional = true) : (column ps).hasOptional = true := by
  simp only [column, NameColumn.of, List.any_map, List.any_eq_true]
  exact ⟨p, h, ho⟩

private theorem ink_lines {p : Parameter} {col : NameColumn}
    (hcol : p.optional = true → col.hasOptional = true) {indent trailing : Text}
    (hi : ink indent = []) (ht : ink trailing = []) {object? : Text → Option (List Text)}
    (ho : ∀ start ls, object? start = some ls → ink ls.flatten = ink start ++ ink p.type) :
    ink (p.lines col indent trailing object?).flatten = p.inkOf := by
  have hcell := ink_cell col p.name p.optional hcol
  unfold lines
  split
  · next he => simp [inkOf, he, hi, ht, hcell]
  · next he =>
    cases hobj : object? (indent ++ col.cell p.name p.optional ++ [' ', ':', ' ']) with
    | none =>
      simp only [hobj, Option.getD_none]
      simp [inkOf, he, hi, ht, hcell]
    | some ls =>
      simp only [hobj, Option.getD_some]
      simp [inkOf, he, hi, hcell, ho _ ls hobj]

/-- Writing an object type out over several lines keeps its ink. -/
theorem ink_expandObject {unit : Text} (hu : ink unit = []) {room : Nat}
    {type head indent trailing : Text} {ls : List Text} (hi : ink indent = [])
    (ht : ink trailing = [])
    (h : ∀ before members after, objectTexts? type = some (before, members, after) →
      Typed (room - 1) members)
    (he : expandObject unit room type head indent trailing = some ls) :
    ink ls.flatten = ink head ++ ink type := by
  induction room generalizing type head indent trailing ls with
  | zero => simp [expandObject] at he
  | succ room ih =>
    obtain ⟨⟨before, texts, after⟩, ho, rfl⟩ := Option.map_eq_some_iff.mp he
    have htyped : Typed room texts := h _ _ _ ho
    have hmember : ∀ t ∈ texts,
        ink ((read t).lines (column (texts.map read)) (indent ++ unit) [';'] fun start =>
          expandObject unit room (read t).type start (indent ++ unit) [';']).flatten = ink t := by
      intro t hmem
      rw [← inkOf_read (htyped.mem hmem)]
      refine ink_lines (column_hasOptional (List.mem_map_of_mem hmem)) (by simp [hi, hu]) rfl ?_
      intro start ls hls
      refine ih (by simp [hi, hu]) rfl ?_ hls
      intro b ms a hobj
      cases room with
      | zero => simp [expandObject] at hls
      | succ room => exact htyped.inner hmem hobj
    have hmembers := ink_flatMap hmember
    rw [← ink_flatten] at hmembers
    simp only [List.flatMap_map, List.flatten_append, List.flatten_cons, ink_append, hmembers,
      objectTexts?_spec ho]
    simp [hi, ht]

theorem ink_expandAll {unit : Text} (hu : ink unit = []) {room : Nat} {indent : Text}
    (hi : ink indent = []) {ts : List Text} (h : Typed room ts) :
    ink (expandAll unit room indent (ts.map read)).flatten = ink ts.flatten := by
  have hps : ∀ x ∈ (ts.map read).zipIdx, ∀ trailing, ink trailing = [] →
      ink (x.1.lines (column (ts.map read)) indent trailing fun start =>
        expandObject unit room x.1.type start indent trailing).flatten = x.1.inkOf := by
    intro x hx trailing ht
    have hmem : x.1 ∈ ts.map read := List.mem_of_getElem? (List.mem_zipIdx_iff_getElem?.mp hx)
    refine ink_lines (column_hasOptional hmem) hi ht ?_
    intro start ls hls
    obtain ⟨t, htmem, hread⟩ := List.mem_map.mp hmem
    rw [← hread] at hls ⊢
    refine ink_expandObject hu hi ht ?_ hls
    intro b ms a hobj
    cases room with
    | zero => simp [expandObject] at hls
    | succ room => exact h.inner htmem hobj
  have hinks : (ts.map read).map inkOf = ts.map ink := by
    rw [List.map_map]
    exact List.map_congr_left fun t ht => inkOf_read (h.mem ht)
  unfold expandAll
  rw [ink_flatMap (g := inkOf ∘ Prod.fst) fun x hx => hps x hx _ (by split <;> rfl), ← List.map_map,
    List.zipIdx_map_fst, hinks, ink_flatten]

end Parameter

theorem ink_keepLines (cfg : Settings) {indent first : Text} (hi : ink indent = []) {ls : List Text}
    (hf : ink first = ink (ls.headD [])) :
    ink (keepLines cfg indent first ls).flatten = ink ls.flatten := by
  have hdeeper : ink (indent ++ cfg.indentUnit) = [] := by simp [hi]
  have hrest := ink_reindent hdeeper (ls.drop 1)
  cases ls with
  | nil => simpa [keepLines] using hf
  | cons l ls =>
    rw [keepLines, List.flatten_cons, ink_append, ink_trimRight, hrest, hf]
    simp

namespace Signature

def parameterTexts (cfg : Settings) (room : Nat) (ls : List Text) : List Text :=
  if !cfg.expandMethods then []
  else match read? (ls.filter (!isBlankLine ·)) with
    | none => []
    | some sig => Parameter.allTexts room (splitTop [','] sig.parameters)

private theorem no_comment_before {l : Text} :
    ∀ m ∈ (marks l).take ((commentStart? l).getD l.length), m.isComment = false := by
  cases hc : commentStart? l with
  | none =>
    intro m hm
    exact List.findIdx?_eq_none_iff.mp hc m (List.mem_of_mem_take hm)
  | some i =>
    obtain ⟨hi, -, hbefore⟩ := List.findIdx?_eq_some_iff_getElem.mp hc
    intro m hm
    obtain ⟨j, hj, rfl⟩ := List.mem_take_iff_getElem.mp hm
    simpa using hbefore j (by simp at hj; omega)

private theorem marks_prefix {w x : Text} (hne : w ≠ []) (hw : trim w = w)
    (hno : ∀ m ∈ (marks (w ++ x)).take w.length, m.isComment = false) :
    marks w <+: marks (trim (w ++ x)) ∧ ∀ m ∈ marks w, m.isComment = false := by
  obtain ⟨ms, hms⟩ := marksFrom_append .free {} w x (.inr hno)
  have hindent : indentOf (w ++ x) = [] := by
    cases w with
    | nil => exact absurd rfl hne
    | cons c w =>
      have hc : isBlank c = false := head_trim (t := c :: w) (by rw [hw]; rfl)
      simp [indentOf, hc]
  -- the marks of `w` and of the trimmed text both begin the marks of the whole
  obtain ⟨ns, hns, -⟩ := marks_trim (w ++ x)
  rw [hindent, List.map_nil, List.nil_append] at hns
  constructor
  · refine List.prefix_of_prefix_length_le ⟨ms, hms.symm⟩ ⟨ns, hns.symm⟩ ?_
    rw [length_marks, length_marks, trim_append hw hne, List.length_append]
    exact Nat.le_add_right _ _
  · intro m hm
    apply hno
    rw [marks, hms, List.take_left' (by simp)]
    exact hm

/-- A line is read alike with and without the comment behind it. -/
theorem marks_trim_cut {l : Text} (hne : trim (l.take ((commentStart? l).getD l.length)) ≠ []) :
    marks (trim (l.take ((commentStart? l).getD l.length))) <+: marks (trim l) ∧
      ∀ m ∈ marks (trim (l.take ((commentStart? l).getD l.length))), m.isComment = false := by
  have hno := no_comment_before (l := l)
  revert hne hno
  generalize (commentStart? l).getD l.length = cut
  intro hne hno
  obtain ⟨b, hb, -⟩ := trim_spec (l.take cut)
  have hblank : isBlankLine (indentOf (l.take cut)) = true := List.all_takeWhile
  have hl : l = indentOf (l.take cut) ++ (trim (l.take cut) ++ (b ++ l.drop cut)) := by
    conv => lhs; rw [← List.take_append_drop cut l]
    conv => lhs; lhs; rw [hb]
    simp
  have hmarks := marks_blank_append hblank (s := {}) rfl rfl
    (trim (l.take cut) ++ (b ++ l.drop cut))
  have htrim := trim_blank_append hblank (trim (l.take cut) ++ (b ++ l.drop cut))
  rw [← hl] at hmarks htrim
  have hlen : (indentOf (l.take cut)).length + (trim (l.take cut)).length ≤ cut := by
    have h := congrArg List.length hb
    simp only [List.length_take, List.length_append] at h
    omega
  rw [htrim]
  refine marks_prefix hne (trim_trim _) ?_
  intro m hm
  apply hno
  rw [hmarks, List.take_append, List.length_map]
  exact List.mem_append_right _ (List.take_subset_take_left _ (by omega) hm)

/-- The head of a signature on one line is read alike with and without the comment behind it. -/
private theorem token_ink_cut {l : Text} {h k : MethodHead}
    (hh : MethodHead.read? (trim l) = some h)
    (hk : MethodHead.read? (collapse (trim (l.take ((commentStart? l).getD l.length)))) = some k) :
    ink h.token = ink k.token := by
  have hne : trim (l.take ((commentStart? l).getD l.length)) ≠ [] := by
    intro he
    have hnone : MethodHead.read? (collapse []) = none := rfl
    rw [he, hnone] at hk
    cases hk
  obtain ⟨hbegins, hfree⟩ := marks_trim_cut hne
  obtain ⟨rest, hrest⟩ := hbegins.filter Mark.isFirm
  obtain ⟨none, hcollapse, hnone⟩ := firm_collapse (x := []) hne (trim_trim _) hfree (.inl rfl)
  rw [List.append_nil, hnone rfl, List.append_nil] at hcollapse
  exact (MethodHead.token_ink_eq hk hh (by rw [hcollapse, hrest])).symm

/-- The head of a signature over several lines is read alike from its first line
and from all of them. -/
private theorem token_ink_joined {l x : Text} {h k : MethodHead} (hl : hasComment l = false)
    (hh : MethodHead.read? (trim l) = some h)
    (hk : MethodHead.read? (collapse (trim l ++ ' ' :: x)) = some k) :
    ink h.token = ink k.token := by
  have hne : trim l ≠ [] := by
    intro he
    have hnone : MethodHead.read? [] = none := rfl
    rw [he, hnone] at hh
    cases hh
  have hfree : ∀ m ∈ marks (trim l), m.isComment = false := by
    intro m hm
    obtain ⟨ms, hms, -⟩ := marks_trim l
    have hnone : commentStart? l = none := by simpa [hasComment] using hl
    refine List.findIdx?_eq_none_iff.mp hnone m ?_
    rw [hms]
    simp [hm]
  obtain ⟨ms, hms, -⟩ := firm_collapse (x := ' ' :: x) hne (trim_trim l) hfree (.inr rfl)
  exact MethodHead.token_ink_eq hh hk hms

theorem intercalate_space_cons (a : Text) (ts : List Text) (b : Text) :
    ∃ x, [' '].intercalate (a :: (ts ++ [b])) = a ++ ' ' :: x := by
  cases ts <;> simp [List.intercalate]

theorem token_ink_read {l last : Text} {r : List Text} {h k : MethodHead}
    (hh : MethodHead.read? (trim l) = some h) (hlast : (l :: r).getLast? = some last)
    (hcom : (l :: r).dropLast.any hasComment = false)
    (hk : MethodHead.read? (collapse ([' '].intercalate ((l :: r).dropLast.map trim ++
      [trim (last.take ((commentStart? last).getD last.length))]))) = some k) :
    ink h.token = ink k.token := by
  cases r with
  | nil =>
    obtain rfl : l = last := by simpa using hlast
    exact token_ink_cut hh (by simpa [List.intercalate] using hk)
  | cons l' r =>
    simp only [List.dropLast_cons_cons, List.any_cons, Bool.or_eq_false_iff] at hcom
    simp only [List.dropLast_cons_cons, List.map_cons, List.cons_append] at hk
    obtain ⟨x, hx⟩ := intercalate_space_cons (trim l) ((l' :: r).dropLast.map trim)
      (trim (last.take ((commentStart? last).getD last.length)))
    rw [hx] at hk
    exact token_ink_joined hcom.1 hh hk

private theorem ink_dropSeparator (t : Text) :
    ink (if t.getLast? == some ';' || t.getLast? == some ',' then trimRight t.dropLast else t) =
      ink t := by
  split
  · next h =>
    simp only [Bool.or_eq_true, beq_iff_eq, List.getLast?_eq_some_iff] at h
    rcases h with ⟨a, rfl⟩ | ⟨a, rfl⟩ <;> simp
  · rfl

/-- The ink of a signature in its parts. -/
theorem read?_spec {l : Text} {r : List Text} {h : MethodHead}
    (hh : MethodHead.read? (trim l) = some h) {sig : Signature} (hs : read? (l :: r) = some sig) :
    ink (l :: r).flatten = ink h.token ++ '(' :: ink sig.parameters ++ ')' :: ':' ::
    ink sig.result ++
      ink sig.comment := by
  unfold read? at hs
  obtain ⟨last, hlast, hs⟩ := Option.bind_eq_some_iff.mp hs
  split at hs
  · simp at hs
  next hcom =>
  obtain ⟨k, hk, hs⟩ := Option.bind_eq_some_iff.mp hs
  obtain ⟨⟨b, parameters, after⟩, hp, hs⟩ := Option.bind_eq_some_iff.mp hs
  have htoken := token_ink_read hh hlast (by simpa using hcom) hk
  have hlines : ink (l :: r).flatten =
      ink k.token ++ ink k.rest ++ ink (last.drop ((commentStart? last).getD last.length)) := by
    rw [← MethodHead.ink_read? hk, ink_collapse, ink_intercalate_space, List.flatten_append,
      ink_append, ink_flatten_map (fun _ _ => ink_trim _), List.append_assoc]
    obtain ⟨ys, hys⟩ := List.getLast?_eq_some_iff.mp hlast
    rw [hys, List.dropLast_concat, List.flatten_append, ink_append]
    congr 1
    simp
  have hrest : ink k.rest = '(' :: ink parameters ++ ')' :: ink (trim after) := by
    have hopen : k.rest[0]? = some '(' := by
      rw [← MethodHead.rest_read? hk, List.head?_eq_getElem?]
    have hb : b = [] := by
      obtain ⟨i, -, he⟩ := Option.map_eq_some_iff.mp hp
      simpa using (congrArg Prod.fst he).symm
    rw [aroundPair?_spec (by decide) (d := ')') rfl hopen hp, hb]
    simp
  simp only at hs
  split at hs
  · next r' hafter =>
    simp only [Option.ite_none_left_eq_some, Option.some.injEq] at hs
    obtain ⟨-, rfl⟩ := hs
    rw [hlines, htoken, hrest, hafter, ink_dropSeparator]
    simp
  · cases hs

/-- Laying out a call signature keeps its ink, whatever head of the same ink is put in front. -/
theorem ink_format (cfg : Settings) {room : Nat} {indent head : Text} {ls : List Text}
    {h : MethodHead} (hh : MethodHead.read? (trim (ls.headD [])) = some h) (hi : ink indent = [])
    (hhead : ink head = ink h.token)
    (ht : ∀ t ∈ parameterTexts cfg room ls, Parameter.lacksType t = false) :
    ink (format cfg room indent head ls).flatten = ink ls.flatten := by
  obtain ⟨r, hbody⟩ := nonblank_of_head fun he => by
    rw [he] at hh
    cases hh
  generalize ls.headD [] = l at hh hbody
  have hkept : ink (keepLines cfg indent (indent ++ trim l) (l :: r)).flatten = ink ls.flatten := by
    rw [ink_keepLines cfg hi (by simp [hi]), ← hbody, ink_flatten_nonblank]
  unfold format
  simp only [hbody, List.headD_cons]
  split
  · exact hkept
  · next he =>
    cases hs : read? (l :: r) with
    | none => exact hkept
    | some sig =>
      have htyped : Parameter.Typed room (splitTop [','] sig.parameters) := by
        simpa [Parameter.Typed, parameterTexts, he, hbody, hs] using ht
      have hparams : ink (Parameter.expandAll cfg.indentUnit room (indent ++ cfg.indentUnit)
          (Parameter.readAll sig.parameters)).flatten = ink sig.parameters := by
        rw [Parameter.readAll, Parameter.ink_expandAll (by simp) (by simp [hi]) htyped,
          ink_splitTop (by decide)]
      have hcomment : ink (if sig.comment.isEmpty then [] else ' ' :: sig.comment) =
          ink sig.comment := by
        split
        · next he => rw [List.isEmpty_iff.mp he]
        · simp
      rw [← ink_flatten_nonblank ls, hbody, read?_spec hh hs]
      simp only [expand, List.cons_append, List.flatten_append, List.flatten_cons, ink_append,
        hparams, hcomment]
      simp [hi, hhead]

end Signature

end SourceLayout
