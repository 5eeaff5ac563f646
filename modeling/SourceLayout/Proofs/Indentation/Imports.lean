import SourceLayout.Proofs.Imports.Comments
import SourceLayout.Proofs.Imports.Reread
import SourceLayout.Proofs.Indentation.Leads

/-! What the lines of an import block are indented with after layout. A header and the first line of
a statement begin with a character that is not blank, the names of a broken import are one unit
deep, and all other lines are rows of the file or the beginnings of such rows. -/

namespace SourceLayout
open Text IndentStyle

variable {P : Text → Prop}

namespace IndentStyle

/-! ## Texts of several lines -/

def Inline (c : Char) : Prop := isLineBoundary c = false

instance : DecidablePred Inline := fun c => inferInstanceAs (Decidable (isLineBoundary c = false))

/-- A text that only line feeds cut into lines, all of them led. -/
structure Inset (P : Text → Prop) (t : Text) : Prop where
  led : ∀ l ∈ lines t, Led P l
  flat : Over Flat t

theorem flat_of_inline {t : Text} (h : Over Inline t) : Over Flat t := by
  intro c hc hb
  rw [h c hc] at hb
  cases hb

theorem not_mem_of_inline {t : Text} (h : Over Inline t) : '\n' ∉ t :=
  fun hmem => absurd (h _ hmem) (by decide)

theorem inline_of_flat {t : Text} (h : Over Flat t) (hn : '\n' ∉ t) : Over Inline t :=
  fun c hc => Bool.eq_false_iff.mpr fun hb => hn (h c hc hb ▸ hc)

theorem inline_of_mem_lines {t l : Text} (h : Over Flat t) (hl : l ∈ lines t) : Over Inline l :=
  inline_of_flat (h.of_subset (subset_of_mem_lines hl)) (not_mem_of_mem_lines hl)

theorem inset_line {l : Text} (h : Led P l) (hl : Over Inline l) : Inset P l where
  led := by
    rw [lines_of_not_mem (not_mem_of_inline hl)]
    simpa using h
  flat := flat_of_inline hl

theorem inset_nil : Inset P [] := inset_line led_nil over_nil

theorem Inset.line {t l : Text} (h : Inset P t) (hl : l ∈ lines t) : Inset P l :=
  inset_line (h.led l hl) (inline_of_mem_lines h.flat hl)

/-- A text is inset if it begins with a line that is and goes on with a text that is. -/
theorem Inset.append_newline {a b : Text} (ha : Inset P a) (hb : Inset P b) :
    Inset P (a ++ '\n' :: b) where
  led := by
    have hlines : lines (a ++ '\n' :: b) = lines a ++ lines b := splitWhen_append_cons a rfl b
    rw [hlines]
    exact List.forall_mem_append.mpr ⟨ha.led, hb.led⟩
  flat := over_append.mpr ⟨ha.flat, over_cons.mpr ⟨fun _ => rfl, hb.flat⟩⟩

theorem inset_unlines {ls : List Text} (h : ∀ l ∈ ls, Inset P l) : Inset P (unlines ls) := by
  induction ls with
  | nil => exact inset_nil
  | cons l r ih =>
    obtain ⟨hl, hr⟩ := List.forall_mem_cons.mp h
    cases r with
    | nil => simpa [unlines] using hl
    | cons k r =>
      rw [unlines, joinLines_cons_cons, List.singleton_append]
      exact hl.append_newline (ih hr)

/-- Behind a line that shows something a text may follow: only its further lines
are lines of their own. -/
theorem Inset.behind {a t : Text} (ht : Inset P t) (ha : Fronted P a) (hi : Over Inline a) :
    Inset P (a ++ ' ' :: t) where
  led := by
    obtain ⟨l, r, hl, hspace⟩ := lines_cons ' ' t
    rw [if_neg (by decide)] at hspace
    have hlines : lines (a ++ ' ' :: t) = (a ++ ' ' :: l) :: r := by
      have hn := not_mem_of_inline hi
      clear ha hi
      induction a with
      | nil => exact hspace
      | cons c a ih =>
        rw [List.mem_cons, not_or] at hn
        obtain ⟨k, q, hk, hc⟩ := lines_cons c (a ++ ' ' :: t)
        rw [ih hn.2] at hk
        cases hk
        rw [List.cons_append, hc, if_neg (Ne.symm hn.1)]
        rfl
    rw [hlines, List.forall_mem_cons]
    refine ⟨(ha.append _).1, fun k hk => ht.led k ?_⟩
    rw [hl]
    exact List.mem_cons_of_mem _ hk
  flat := over_append.mpr ⟨flat_of_inline hi,
    over_cons.mpr ⟨fun h => absurd h (by decide), ht.flat⟩⟩

/-- A line that begins with a character that is not blank is not indented. -/
theorem led_of_head {t : Text} (h : ∀ c ∈ t.head?, isBlank c = false) : Led P t := Margin.nil.led h

end IndentStyle

/-! ## Nodes -/

/-- The text of a node that begins with a character that is not blank: its first line is not
indented, the others are rows or the beginning of one. -/
theorem Node.inset_textIn {rows : List Text} (hled : ∀ l ∈ rows, Led P l)
    (hrows : ∀ l ∈ rows, Over Inline l) {n : Node}
    (hhead : ∀ c ∈ (n.textIn rows).head?, isBlank c = false) : Inset P (n.textIn rows) := by
  have hinline : ∀ i, Over Inline (rows.getD i []) := over_getD hrows
  unfold textIn at hhead ⊢
  simp only at hhead ⊢
  split
  · next hrow =>
    rw [if_pos hrow] at hhead
    refine inset_line (led_of_head hhead) ((hinline n.start.row).of_subset ?_)
    exact List.Subset.trans (dropBytes_isSuffix _ _).subset (takeBytes_isPrefix _ _).subset
  · next hrow =>
    rw [if_neg hrow] at hhead
    refine inset_unlines ?_
    rw [List.cons_append, List.forall_mem_cons, List.forall_mem_append]
    refine ⟨inset_line (led_of_head ?_) ((hinline _).of_subset (dropBytes_isSuffix _ _).subset), ?_,
      ?_⟩
    · intro c hc
      refine hhead c ?_
      obtain ⟨a, ha⟩ := List.head?_eq_some_iff.mp hc
      obtain ⟨k, q, hq⟩ : ∃ k q,
        (rows.drop (n.start.row + 1)).take (n.stop.row - n.start.row - 1) ++
          [takeBytes n.stop.col (rows.getD n.stop.row [])] = k :: q :=
          List.exists_cons_of_ne_nil (by simp)
      rw [ha, List.cons_append, hq, unlines, joinLines_cons_cons]
      rfl
    · intro l hl
      have hl : l ∈ rows := List.mem_of_mem_drop (List.mem_of_mem_take hl)
      exact inset_line (hled l hl) (hrows l hl)
    · have hprefix := takeBytes_isPrefix n.stop.col (rows.getD n.stop.row [])
      simpa using inset_line ((led_getD hled _).of_isPrefix hprefix)
        ((hinline _).of_subset hprefix.subset)

/-! ## Statements -/

theorem over_joinWrapped {Q : Char → Prop} (hspace : Q ' ') {t : Text} (h : Over Q t) :
    Over Q (joinWrapped t) := by
  have hrelease : ∀ run : Text, Over Q run → Over Q (joinWrapped.release run) := by
    intro run hrun
    unfold joinWrapped.release
    split
    · simpa using hspace
    · exact hrun.of_subset fun c hc => List.mem_reverse.mp hc
  have hgo : ∀ run : Text, Over Q run → Over Q (joinWrapped.go run t) := by
    induction t with
    | nil => exact hrelease
    | cons c t ih =>
      obtain ⟨hc, ht⟩ := over_cons.mp h
      intro run hrun
      rw [joinWrapped.go]
      split
      · exact ih ht _ (over_cons.mpr ⟨hc, hrun⟩)
      · exact over_append.mpr ⟨hrelease run hrun, over_cons.mpr ⟨hc, ih ht _ over_nil⟩⟩
  exact hgo [] over_nil

namespace NamedImport

theorem over_read? {Q : Char → Prop} {t : Text} {i : NamedImport} (h : Over Q t)
    (hr : read? t = some i) :
    Over Q (i.default?.getD []) ∧ Over Q i.names ∧ Over Q i.moduleName := by
  obtain ⟨o, r, q, ho, hclosing, rfl⟩ := read?_spec hr
  obtain ⟨b, b', e, -, -, -, rfl⟩ := hclosing.shape
  have hlead : ∀ {d : Option Text} {l : Text}, Lead d l → Over Q l → Over Q (d.getD []) := by
    intro d l hl hover
    cases hl with
    | bare => exact over_nil
    | named => exact (over_append.mp hover).1
  simp only [over_append, over_cons] at h
  obtain ⟨ho', -, hnames, -, -, -, -, -, hm, -⟩ := h
  refine ⟨?_, hnames, hm⟩
  obtain ⟨k, d, names, m⟩ := i
  cases ho with
  | plain hb hne hl =>
    simp only [over_append] at ho'
    exact hlead hl ho'.2.2
  | typed hb hne hb' hne' hl =>
    simp only [over_append] at ho'
    exact hlead hl ho'.2.2.2.2

theorem inline_opening {i : NamedImport} (hdefault : Over Inline (i.default?.getD [])) :
    Over Inline (i.lead ++ ['{']) := by
  have hkeyword : ∀ b : Bool, Over Inline (if b then "import type " else "import ").toList := by
    intro b
    cases b <;> decide
  have hname : Over Inline (leadOf i.default?) := by
    cases hd : i.default? with
    | none => exact over_nil
    | some d =>
      rw [hd] at hdefault
      exact over_append.mpr ⟨hdefault, by decide⟩
  simp only [lead, over_append]
  exact ⟨⟨hkeyword _, hname⟩, by decide⟩

theorem inline_closing {i : NamedImport} (hm : Over Inline i.moduleName) :
    Over Inline ('}' :: i.trail) := by
  have hfrom : Over Inline ('}' :: ' ' :: ("from".toList ++ [' ', '"'])) := by decide
  have hend : Over Inline ['"', ';'] := by decide
  have hsplit : '}' :: i.trail = '}' :: ' ' :: ("from".toList ++ [' ', '"']) ++
      (i.moduleName ++ ['"', ';']) := by
    simp [trail]
  rw [hsplit]
  exact over_append.mpr ⟨hfrom, over_append.mpr ⟨hm, hend⟩⟩

/-- The lines of a broken import: its names are one unit deep. -/
theorem inset_render {unit : Text} (hs : Scale unit P) {t : Text} {i : NamedImport}
    (ht : Over Inline t) (hr : read? t = some i) : ∀ l ∈ i.render unit, Inset P l := by
  obtain ⟨hdefault, hnames, hm⟩ := over_read? ht hr
  have hunit : Over Inline unit := by
    intro c hc
    have hlead := hs.lead c hc
    simp only [isLead, Bool.or_eq_true, beq_iff_eq] at hlead
    rcases hlead with rfl | rfl <;> decide
  intro l hl
  rw [render_eq, List.cons_append, List.mem_cons, List.mem_append, List.mem_map,
    List.mem_singleton] at hl
  rcases hl with rfl | ⟨p, hp, rfl⟩ | rfl
  · refine inset_line (led_of_head fun c hc => ?_) (inline_opening hdefault)
    rw [← trim_lead] at hc
    exact head_trim hc
  · obtain ⟨htrim, hne, hsub⟩ := Scan.mem_splitTop hp
    have hcomma : Over Inline [','] := by decide
    have hdeep : Margin P unit := Margin.nil.step hs
    refine inset_line ?_ (over_append.mpr ⟨over_append.mpr ⟨hunit, hnames.of_subset hsub⟩, hcomma⟩)
    rw [List.append_assoc]
    refine hdeep.led fun c hc => ?_
    obtain ⟨d, r, hr⟩ := List.exists_cons_of_ne_nil hne
    rw [hr, List.cons_append] at hc
    cases hc
    exact head_trim (t := p) (by rw [htrim, hr]; rfl)
  · exact inset_line (led_of_head fun c hc => Option.some.inj hc ▸ by decide) (inline_closing hm)

end NamedImport

namespace Statement

/-- The texts of a statement are inset, and its own text begins and ends with
characters that are not blank. -/
structure InsetIn (P : Text → Prop) (s : Statement) : Prop where
  text : Inset P s.text
  trimmed : trim s.text = s.text
  nonempty : s.text ≠ []
  leading : ∀ t ∈ s.leading, Inset P t
  trailing : Inset P s.trailing

theorem InsetIn.rendered {cfg : Settings} (hs : Scale cfg.indentUnit P) {s : Statement}
    (h : s.InsetIn P) :
    Inset P (s.rendered cfg) ∧ trim (s.rendered cfg) = s.rendered cfg ∧ s.rendered cfg ≠ [] := by
  rw [rendered_eq]
  cases hb : s.broken? cfg with
  | none =>
    simp only
    rw [h.trimmed]
    exact ⟨h.text, h.trimmed, h.nonempty⟩
  | some i =>
    simp only
    rw [broken?, Option.ite_none_right_eq_some] at hb
    have hread := (Option.filter_eq_some_iff.mp hb.2).1
    have hinline : Over Inline s.normalized := by
      have hflat : Over Flat s.normalized :=
        (over_joinWrapped (fun hspace => absurd hspace (by decide)) h.text.flat).trim
      exact inline_of_flat hflat fun hmem => not_mem_joinWrapped s.text (mem_of_mem_trim hmem)
    refine ⟨inset_unlines (NamedImport.inset_render hs hinline hread), NamedImport.trim_render i _,
      ?_⟩
    rw [NamedImport.render_eq, unlines, joinLines_concat _ (List.cons_ne_nil _ _)]
    simp

theorem InsetIn.outputLines {cfg : Settings} (hs : Scale cfg.indentUnit P) {s : Statement}
    (h : s.InsetIn P) : ∀ l ∈ s.outputLines cfg, Inset P l := by
  obtain ⟨hrendered, htrim, hne⟩ := h.rendered hs
  obtain ⟨above, last, hlines⟩ := lines_eq_concat (s.rendered cfg)
  have hall : ∀ l ∈ above ++ [last], Inset P l := fun l hl => hrendered.line (hlines ▸ hl)
  obtain ⟨habove, hlast⟩ := List.forall_mem_append.mp hall
  have hlast : Inset P last := hlast last List.mem_cons_self
  have hmem : last ∈ lines (s.rendered cfg) := by simp [hlines]
  -- the text ends in a character that is not blank, so its last line shows it
  have hshown : isBlankLine last = false := by
    obtain ⟨c, hc⟩ := Option.isSome_iff_exists.mp (List.getLast?_isSome.mpr hne)
    have hcb : isBlank c = false := last_trim (t := s.rendered cfg) (by rw [htrim, hc])
    obtain ⟨l, hl, hlc⟩ := getLast?_lines hc
      (fun he => by rw [he] at hcb; exact absurd hcb (by decide))
    rw [hlines, List.getLast?_concat] at hl
    cases hl
    exact isBlankLine_of_mem (List.mem_of_getLast? hlc) hcb
  rw [Statement.outputLines, hlines, withTrailing_concat]
  simp only [List.forall_mem_append, List.forall_mem_singleton]
  refine ⟨?_, habove, ?_⟩
  · intro l hl
    obtain ⟨t, ht, hl⟩ := List.mem_flatMap.mp hl
    exact (h.leading t ht).line hl
  · split
    · rwa [List.append_nil]
    · exact h.trailing.behind ⟨hrendered.led last hmem, hshown⟩
        (inline_of_mem_lines hrendered.flat hmem)

end Statement

/-! ## Import blocks -/

/-- A label that shows something and is written on one line. -/
def Group.OneLine (g : Group) : Prop := trim g.label ≠ [] ∧ Over Inline (trim g.label)

instance (g : Group) : Decidable g.OneLine := inferInstanceAs (Decidable (_ ∧ _))

theorem isBlank_of_isLineBoundary {c : Char} (h : isLineBoundary c = true) : isBlank c = true := by
  simp only [isLineBoundary, Bool.or_eq_true, Bool.and_eq_true, decide_eq_true_eq, beq_iff_eq] at h
  simp only [isBlank, Bool.or_eq_true, Bool.and_eq_true, decide_eq_true_eq, beq_iff_eq]
  omega

theorem Header.inset_ofGroup {cfg : Settings} {g : Group} (hg : g.OneLine)
    (hfill : isBlank cfg.headerChar = false) : Inset P (ofGroup cfg g) := by
  obtain ⟨c, r, hr⟩ := List.exists_cons_of_ne_nil hg.1
  have hc : isBlank c = false := head_trim (t := g.label) (by rw [hr]; rfl)
  have hfill : Inline cfg.headerChar := by
    refine Bool.eq_false_iff.mpr fun hb => ?_
    rw [isBlank_of_isLineBoundary hb] at hfill
    cases hfill
  unfold ofGroup render
  split
  · refine inset_line (led_of_head ?_) ?_
    · rw [hr]
      exact fun d hd => Option.some.inj hd ▸ hc
    · rw [padTo]
      refine over_append.mpr ⟨over_append.mpr ⟨hg.2, by decide⟩, over_replicate hfill _⟩
  · refine inset_line (led_of_head ?_) hg.2
    rw [hr]
    exact fun d hd => Option.some.inj hd ▸ hc

theorem Grouping.inset_layout {cfg : Settings} (hs : Scale cfg.indentUnit P)
    (hfill : isBlank cfg.headerChar = false) (hgroups : ∀ g ∈ cfg.groups, g.OneLine)
    {statements : List Statement} (h : ∀ s ∈ statements, s.InsetIn P) :
    ∀ l ∈ layout cfg statements, Inset P l := by
  rw [forall_mem_layout inset_nil]
  intro p hp
  obtain ⟨hg, -, hmem⟩ := mem_printedGroups hp
  exact ⟨Header.inset_ofGroup (hgroups _ hg) hfill, fun s hsmem =>
    (h s (hmem s hsmem)).outputLines hs⟩

namespace ImportBlock

theorem insetIn_statements {isHeader : Text → Bool} {rows content : List Text} {nodes : List Node}
    {b : ImportBlock} (hn : Outline.Placed isHeader rows nodes) (hled : ∀ l ∈ rows, Led P l)
    (hrows : ∀ l ∈ rows, Over Inline l)
    (h : locate isHeader (·.textIn rows) content nodes = .found b) :
    ∀ s ∈ b.statements, s.InsetIn P := by
  have hfirst : ∀ n ∈ nodes, ∀ c ∈ (n.textIn rows).head?, isBlank c = false := by
    intro n hmem c hc
    obtain ⟨d, hd, hb⟩ := hn.first_char hmem
    rw [hd] at hc
    cases hc
    exact hb
  have hne : ∀ n ∈ nodes, n.textIn rows ≠ [] := by
    intro n hmem hnil
    obtain ⟨d, hd, -⟩ := hn.first_char hmem
    rw [hnil] at hd
    cases hd
  obtain ⟨hstatements, before, init, last, behind, hlaid⟩ :=
    laid_of_found h hn.ordered hn.forward hne
  have hsub : ∀ o ∈ origins isHeader (·.textIn rows) nodes, ∀ n ∈ o.nodes, n ∈ nodes := by
    intro o ho n hmem
    have horigins := @originsFrom_sublist isHeader (·.textIn rows) [] (init ++ [last])
    rw [origins, hlaid.stretches_eq] at ho
    exact hlaid.block_sublist.subset (horigins.subset (List.mem_flatMap.mpr ⟨o, ho, hmem⟩))
  have hinset : ∀ n ∈ nodes, Inset P (n.textIn rows) :=
    fun n hmem => Node.inset_textIn hled hrows (hfirst n hmem)
  rw [hstatements]
  intro s hs
  obtain ⟨o, ho, rfl⟩ := List.mem_map.mp hs
  have hsub := hsub o ho
  have hnode : o.node ∈ nodes := hsub _ (by simp [Origin.nodes])
  refine ⟨hinset _ hnode, trim_eq_self (hfirst _ hnode) fun c hc => ?_, hne _ hnode, ?_, ?_⟩
  · obtain ⟨d, hd, hb⟩ := hn.last_char hnode
    rw [show (o.node.textIn rows).getLast? = some c from hc] at hd
    cases hd
    exact hb
  · intro t ht
    obtain ⟨n, hmem, rfl⟩ := List.mem_map.mp ht
    exact hinset n (hsub n (List.mem_append_left _ hmem))
  · cases htrailing : o.trailing with
    | none =>
      simp only [Origin.statement, htrailing]
      exact inset_nil
    | some n =>
      simp only [Origin.statement, htrailing]
      exact hinset n (hsub n (by simp [Origin.nodes, htrailing]))

end ImportBlock

end SourceLayout
