import SourceLayout.Proofs.Signatures.Inline

/-! Lines that are one line again when they are collapsed and joined by spaces: those of a parameter
and of an object type written out are the parameter and the type on one line. -/

namespace SourceLayout
open Text Scan

/-- Lines without comments and open strings which, collapsed and with a space in front of
each, make up a text. -/
structure Unfolds (x : Text) (ls : List Text) : Prop where
  clean : ∀ l ∈ ls, Scan.Clean l
  shown : ∀ l ∈ ls, isBlankLine l = false
  text : ls.flatMap (fun l => ' ' :: collapse l) = x

theorem isBlankLine_of_collapse {l : Text} (h : collapse l ≠ []) : isBlankLine l = false := by
  rw [Bool.eq_false_iff]
  intro hb
  have hnil := collapse_blank_append hb []
  rw [List.append_nil] at hnil
  exact h hnil

namespace Unfolds

theorem nil : Unfolds [] [] := ⟨by simp, by simp, rfl⟩

theorem single {l x : Text} (hl : Scan.Clean l) (hx : collapse l = x) (hne : x ≠ []) :
    Unfolds (' ' :: x) [l] :=
  ⟨by simpa using hl, by simpa using isBlankLine_of_collapse (hx ▸ hne), by simp [hx]⟩

theorem append {x y : Text} {ls ls' : List Text} (h : Unfolds x ls) (h' : Unfolds y ls') :
    Unfolds (x ++ y) (ls ++ ls') :=
  ⟨List.forall_mem_append.mpr ⟨h.clean, h'.clean⟩, List.forall_mem_append.mpr ⟨h.shown, h'.shown⟩,
    by rw [List.flatMap_append, h.text, h'.text]⟩

theorem flatMap {α : Type} {l : List α} {f : α → List Text} {g : α → Text}
    (h : ∀ a ∈ l, Unfolds (g a) (f a)) : Unfolds (l.flatMap g) (l.flatMap f) := by
  induction l with
  | nil => exact .nil
  | cons a l ih =>
    obtain ⟨ha, hl⟩ := List.forall_mem_cons.mp h
    exact ha.append (ih hl)

end Unfolds

/-- A text in front of another that collapses to `front`. -/
def Leads (head front : Text) : Prop :=
  ∀ x, Chunk x → Scan.Clean (head ++ x) ∧ collapse (head ++ x) = front ++ x

theorem leads_blank {b : Text} (hb : isBlankLine b = true) : Leads b [] := fun _ hx =>
  ⟨(hx.clean.inert_append (inert_blank hb)).1,
    (collapse_blank_append hb _).trans hx.compact.collapse⟩

namespace Parameter

/-- What stands between a name in its column and its type. -/
theorem cell_behindName (col : NameColumn) (name : Text) {optional : Bool}
    (hcol : optional = true → col.hasOptional = true) :
    ∃ b, isBlankLine b = true ∧ b ≠ [] ∧
      ∀ x, col.cell name optional ++ [' ', ':', ' '] ++ x =
        name ++ (b ++ behindName optional x) := by
  have hpad := isBlankLine_replicate_space (col.width - name.length)
  unfold NameColumn.cell padTo
  cases optional with
  | true =>
    refine ⟨List.replicate (col.width - name.length) ' ' ++ [' '],
      isBlankLine_append hpad rfl, by simp, fun x => ?_⟩
    simp [hcol rfl, behindName]
  | false =>
    cases col.hasOptional with
    | true =>
      refine ⟨List.replicate (col.width - name.length) ' ' ++ [' ', ' ', ' '],
        isBlankLine_append hpad rfl, by simp, fun x => ?_⟩
      simp [behindName]
    | false =>
      refine ⟨List.replicate (col.width - name.length) ' ' ++ [' '],
        isBlankLine_append hpad rfl, by simp, fun x => ?_⟩
      simp [behindName]

theorem Fits.leads {p : Parameter} (hp : p.Fits) {col : NameColumn}
    (hcol : p.optional = true → col.hasOptional = true) {indent : Text}
    (hi : isBlankLine indent = true) :
    Leads (indent ++ col.cell p.name p.optional ++ [' ', ':', ' ']) p.label := by
  intro x hx
  obtain ⟨b, hb, hne, hcell⟩ := cell_behindName col p.name hcol
  have hbehind := chunk_behindName p.optional hx
  have hline : indent ++ col.cell p.name p.optional ++ [' ', ':', ' '] ++ x =
      indent ++ (p.name ++ (b ++ behindName p.optional x)) := by
    rw [← hcell]
    simp
  rw [hline]
  refine ⟨((hp.name.clean.join (inert_blank hb) hne hbehind.clean).1.inert_append
    (inert_blank hi)).1, ?_⟩
  rw [collapse_blank_append hi, label_append]
  split
  · next hname =>
    rw [List.isEmpty_iff.mp hname, List.nil_append, collapse_blank_append hb,
      hbehind.compact.collapse]
  · next hname =>
    rw [collapse_gap hp.name.clean.closes hp.name.trimmed (by simpa using hname) hb hne
      hbehind.compact.trimmed hbehind.ne_nil, hp.name.toCompact.collapse, hbehind.compact.collapse]

/-- The lines of a parameter are the parameter on one line, if those of its type are its type. -/
theorem Fits.unfolds_lines {p : Parameter} (hp : p.Fits) {col : NameColumn}
    (hcol : p.optional = true → col.hasOptional = true) {indent trailing type : Text}
    (hi : isBlankLine indent = true) (ht : trailing.all isGlyph = true)
    {object? : Text → Option (List Text)}
    (hobject : ∀ start ls, Leads start p.label → object? start = some ls →
      Unfolds (' ' :: (p.label ++ type ++ trailing)) ls)
    (hnone : ∀ start, object? start = none → type = p.type) :
    Unfolds (' ' :: (p.flat type ++ trailing)) (p.lines col indent trailing object?) := by
  simp only [lines, flat]
  split
  · next hempty =>
    obtain ⟨hopt, hname⟩ := hp.bare (List.isEmpty_iff.mp hempty)
    obtain ⟨b, hb, hcell⟩ : ∃ b, isBlankLine b = true ∧
        col.cell p.name p.optional = p.name ++ b := by
      unfold NameColumn.cell padTo
      rw [hopt]
      refine ⟨List.replicate (col.width - p.name.length) ' ' ++
        (if col.hasOptional then [' ', ' '] else []), ?_, ?_⟩
      · refine isBlankLine_append (isBlankLine_replicate_space _) ?_
        split <;> rfl
      · simp
    have hline : trimRight (indent ++ col.cell p.name p.optional) = indent ++ p.name := by
      rw [hcell, ← List.append_assoc, trimRight_append_blank _ hb,
        trimRight_append_of_last hname fun c hc => hp.name.toCompact.last hc]
    have hchunk := (hp.name.chunk hname).append_signs ht
    obtain ⟨hclean, hcollapse⟩ := leads_blank hi _ hchunk
    rw [hline]
    rw [List.append_assoc]
    exact .single hclean hcollapse hchunk.ne_nil
  · next hne =>
    have hleads := hp.leads hcol hi
    generalize indent ++ col.cell p.name p.optional ++ [' ', ':', ' '] = start at hleads
    cases hlines : object? start with
    | some ls => exact hobject start ls hleads hlines
    | none =>
      rw [hnone start hlines, Option.getD_none, List.append_assoc, List.append_assoc]
      have hchunk := (hp.type.chunk (by simpa using hne)).append_signs ht
      obtain ⟨hclean, hcollapse⟩ := hleads _ hchunk
      exact .single hclean hcollapse (by simp [hchunk.ne_nil])

/-- The lines of one of the parameters `ts` are the parameter on one line, if those of
its type are its type. -/
theorem unfolds_inline {unit : Text} {room : Nat} {separators : List Char} {ts : List Text}
    (h : ∀ t ∈ ts, Piece separators t) (ht : Typed room ts) {t : Text} (hmem : t ∈ ts)
    {indent trailing : Text} (hi : isBlankLine indent = true) (htr : trailing.all isGlyph = true)
    (hobject : ∀ start ls, Leads start (read t).label →
      expandObject unit room (read t).type start indent trailing = some ls →
      Unfolds (' ' :: ((read t).label ++ flatType room (read t).type ++ trailing)) ls) :
    Unfolds (' ' :: (inline room t ++ trailing))
      ((read t).lines (column (ts.map read)) indent trailing fun start =>
      expandObject unit room (read t).type start indent trailing) :=
  (piece_inline h ht hmem).1.unfolds_lines (column_hasOptional (List.mem_map_of_mem hmem)) hi htr
    hobject fun _ hnone => flatType_of_none hnone

/-- The lines of an object type that is written out are the type on one line. -/
theorem unfolds_expandObject {unit : Text} (hu : isBlankLine unit = true) {room : Nat}
    {type head front indent trailing : Text} {ls : List Text} (hi : isBlankLine indent = true)
    (ht : trailing.all isGlyph = true) (htype : Segment type) (htyped : TypedIn room type)
    (hhead : Leads head front) (he : expandObject unit room type head indent trailing = some ls) :
    Unfolds (' ' :: (front ++ flatType room type ++ trailing)) ls := by
  induction room generalizing type head front indent trailing ls with
  | zero => cases he
  | succ room ih =>
    obtain ⟨⟨before, texts, after⟩, hobj, rfl⟩ := Option.map_eq_some_iff.mp he
    obtain ⟨inside, ho, -, -⟩ := exists_object htype.toNeat hobj
    have hpieces := piece_of_objectTexts? htype.toNeat hobj
    have hmembers := htyped _ _ _ hobj
    have hinner := isBlankLine_append hi hu
    have hopen := chunk_openBrace ho.before.1 ho.before.2
    have hclose := (chunk_afterBrace ho.after.1 ho.after.2).append_signs ht
    obtain ⟨hcleanOpen, hcollapseOpen⟩ := hhead _ hopen
    obtain ⟨hcleanClose, hcollapseClose⟩ := leads_blank hi _ hclose
    have hlines : Unfolds (texts.flatMap fun m => ' ' :: (inline room m ++ [';']))
        ((texts.map read).flatMap fun m =>
          m.lines (column (texts.map read)) (indent ++ unit) [';'] fun start =>
          expandObject unit room m.type start (indent ++ unit) [';']) := by
      rw [List.flatMap_map]
      refine .flatMap fun m hm => unfolds_inline hpieces hmembers hm hinner (by decide) ?_
      intro start ls hstart hls
      exact ih hinner (by decide) (piece_inline hpieces hmembers hm).1.type (hmembers.typedIn hm)
        hstart hls
    have hall := ((Unfolds.single hcleanOpen hcollapseOpen (by simp [hopen.ne_nil])).append
      hlines).append (.single hcleanClose hcollapseClose hclose.ne_nil)
    rw [flatType_eq hobj, braces, List.flatMap_map]
    simpa using hall

/-! ## Parameter lists -/

/-- Texts with a space in front of each and a comma behind each but the last. -/
def row (ts : List Text) : Text :=
  ts.dropLast.flatMap (fun t => ' ' :: (t ++ [','])) ++ ts.getLast?.toList.flatMap (' ' :: ·)

theorem row_concat (ts : List Text) (t : Text) :
    row (ts ++ [t]) = ts.flatMap (fun t => ' ' :: (t ++ [','])) ++ ' ' :: t := by
  simp [row]

theorem expandAll_concat (unit : Text) (room : Nat) (indent : Text) (ps : List Parameter)
    (q : Parameter) :
    expandAll unit room indent (ps ++ [q]) =
      ps.flatMap (fun p => p.lines (column (ps ++ [q])) indent [','] fun start =>
        expandObject unit room p.type start indent [',']) ++
      q.lines (column (ps ++ [q])) indent [] fun start =>
      expandObject unit room q.type start indent [] := by
  simp only [expandAll, List.zipIdx_append, List.flatMap_append, List.zipIdx_singleton,
    List.flatMap_singleton, List.length_append, List.length_singleton, Nat.add_sub_cancel,
    Nat.zero_add, Nat.lt_irrefl, ↓reduceIte]
  congr 1
  rw [← List.zipIdx_map_fst 0 ps, List.flatMap_map]
  simp only [List.zipIdx_map_fst, List.flatMap_def]
  refine congrArg List.flatten (List.map_congr_left fun x hx => ?_)
  obtain ⟨hlt, -⟩ := List.getElem?_eq_some_iff.mp (List.mem_zipIdx_iff_getElem?.mp hx)
  rw [if_pos hlt]

/-- The lines of a parameter list are the parameters on one line. -/
theorem unfolds_expandAll {unit : Text} (hu : isBlankLine unit = true) {room : Nat}
    {separators : List Char} {ts : List Text} (h : ∀ t ∈ ts, Piece separators t)
    (ht : Typed room ts) {indent : Text} (hi : isBlankLine indent = true) :
    Unfolds (row (ts.map (inline room))) (expandAll unit room indent (ts.map read)) := by
  have hline {t : Text} (hmem : t ∈ ts) (trailing : Text) (htr : trailing.all isGlyph = true) :=
    unfolds_inline h ht hmem hi htr fun _ _ hstart hls =>
      unfolds_expandObject hu hi htr (piece_inline h ht hmem).1.type (ht.typedIn hmem) hstart hls
  rcases List.eq_nil_or_concat ts with rfl | ⟨ini, last, rfl⟩
  · exact .nil
  · rw [List.concat_eq_append] at *
    rw [List.map_append, List.map_append, List.map_singleton, List.map_singleton, row_concat,
      expandAll_concat, List.flatMap_map, List.flatMap_map]
    refine .append (.flatMap fun t hmem => ?_) ?_
    · simpa using hline (List.mem_append_left _ hmem) [','] (by decide)
    · simpa using hline (List.mem_append_right _ List.mem_cons_self) [] rfl

end Parameter

/-! ## Lines joined to one -/

/-- The lines as one, trimmed and with a space between them. -/
def merged (ls : List Text) : Text := [' '].intercalate (ls.map trim)

/-- Lines that show something, without comments, and without open strings except on the last one. -/
structure Legible (ls : List Text) : Prop where
  shown : ∀ l ∈ ls, isBlankLine l = false
  quiet : ∀ l ∈ ls, commentStart? l = none
  closes : ∀ l ∈ ls.dropLast, Closes l

theorem trim_ne_nil {l : Text} (h : isBlankLine l = false) : trim l ≠ [] := by
  intro hnil
  rw [isBlankLine_of_trim hnil] at h
  cases h

theorem commentStart?_trim {l : Text} (h : commentStart? l = none) :
    commentStart? (trim l) = none := by
  obtain ⟨ms, hms, -⟩ := marks_trim l
  rw [commentStart?, List.findIdx?_eq_none_iff, hms] at h
  rw [commentStart?, List.findIdx?_eq_none_iff]
  exact fun m hm => h m (List.mem_append_left _ (List.mem_append_right _ hm))

namespace Legible

theorem merged_cons (l l' : Text) (ls : List Text) :
    merged (l :: l' :: ls) = trim l ++ ([' '] ++ merged (l' :: ls)) :=
  intercalate_cons_cons [' '] (trim l) (trim l') (ls.map trim)

theorem tail {l l' : Text} {ls : List Text} (h : Legible (l :: l' :: ls)) :
    Scan.Clean (trim l) ∧ trim l ≠ [] ∧ Legible (l' :: ls) := by
  obtain ⟨hl, hshown⟩ := List.forall_mem_cons.mp h.shown
  obtain ⟨hq, hquiet⟩ := List.forall_mem_cons.mp h.quiet
  obtain ⟨hc, hcloses⟩ := List.forall_mem_cons.mp h.closes
  have hclean : Scan.Clean l := ⟨hc, comments_eq_nil.mpr hq⟩
  exact ⟨hclean.trim.1, trim_ne_nil hl, hshown, hquiet, hcloses⟩

/-- Reading legible lines that are joined. -/
theorem merged_spec {l : Text} {ls : List Text} (h : Legible (l :: ls)) :
    merged (l :: ls) ≠ [] ∧ trim (merged (l :: ls)) = merged (l :: ls) ∧
      commentStart? (merged (l :: ls)) = none ∧
      (l :: ls).flatMap (fun l => ' ' :: collapse l) = ' ' :: collapse (merged (l :: ls)) := by
  induction ls generalizing l with
  | nil =>
    have hone : merged [l] = trim l := intercalate_singleton [' '] (trim l)
    rw [hone]
    refine ⟨trim_ne_nil (h.shown l List.mem_cons_self), trim_trim l,
      commentStart?_trim (h.quiet l List.mem_cons_self), ?_⟩
    simp [collapse_trim]
  | cons l' ls ih =>
    obtain ⟨hclean, hne, htail⟩ := h.tail
    obtain ⟨hnil, htrim, hquiet, hcollapse⟩ := ih htail
    rw [merged_cons]
    refine ⟨by simp, ?_, ?_, ?_⟩
    · rw [trim_append (trim_trim l) hne, trimRight_append_of_last hnil fun c hc =>
        last_trim (htrim.symm ▸ hc)]
    · exact (hclean.quiet_sign (by decide) _).mpr hquiet
    · rw [collapse_gap hclean.closes (trim_trim l) hne rfl (by simp) htrim hnil, collapse_trim,
        List.flatMap_cons, hcollapse, List.cons_append]

end Legible

end SourceLayout
