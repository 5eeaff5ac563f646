import SourceLayout.Proofs.ImportReadBack
import SourceLayout.Proofs.Imports.OneLine
import SourceLayout.Proofs.Imports.Shape
import SourceLayout.Proofs.Stable.Separators

/-! An import that is broken into one name a line is read again. On one line the printed
text has one spacing, its names are cut apart where they were, and so breaking it again
prints the same lines. -/

namespace SourceLayout
open Text

namespace NamedImport

/-! ## The printed import on one line -/

def leadOf : Option Text → Text
  | some name => name ++ [',', ' ']
  | none => []

def lead (i : NamedImport) : Text :=
  (if i.typeOnly then "import type " else "import ").toList ++ leadOf i.default?

def trail (i : NamedImport) : Text :=
  ' ' :: ("from".toList ++ ' ' :: '"' :: (i.moduleName ++ ['"', ';']))

def joinedNames (i : NamedImport) : Text :=
  (Scan.splitTop [','] i.names).flatMap (fun name => ' ' :: (name ++ [','])) ++ [' ']

def flat (i : NamedImport) : Text := i.lead ++ '{' :: (i.joinedNames ++ '}' :: i.trail)

structure FromLine (i : NamedImport) : Prop where
  opening : ∃ o, Opening i.typeOnly i.default? o
  nonempty : i.moduleName ≠ []
  names : '\n' ∉ i.names
  moduleName : '\n' ∉ i.moduleName

theorem fromLine_of_read? {t : Text} {i : NamedImport} (h : read? t = some i) (ht : '\n' ∉ t) :
    i.FromLine := by
  obtain ⟨o, r, q, ho, hr, rfl⟩ := read?_spec h
  obtain ⟨b, b', e, -, -, -, rfl⟩ := hr.shape
  refine ⟨⟨o, ho⟩, hr.nonempty, fun hmem => ht ?_, fun hmem => ht ?_⟩
  · simp [hmem]
  · simp [hmem]

theorem Lead.printed {d : Option Text} {l : Text} (h : Lead d l) : Lead d (leadOf d) := by
  cases h with
  | bare => exact .bare
  | @named name b b' hne hname hb hb' => exact @Lead.named name [] [' '] hne hname rfl rfl

theorem Opening.printed {i : NamedImport} {o : Text} (h : Opening i.typeOnly i.default? o) :
    Opening i.typeOnly i.default? i.lead := by
  obtain ⟨k, d, names, m⟩ := i
  cases h with
  | @plain b d l hb hne hl =>
    have hlead : lead ⟨false, d, names, m⟩ = "import".toList ++ ([' '] ++ leadOf d) := by
      simp [lead]
    rw [hlead]
    exact .plain rfl (by simp) hl.printed
  | @typed b b' d l hb hne hb' hne' hl =>
    have hlead : lead ⟨true, d, names, m⟩ =
        "import".toList ++ ([' '] ++ ("type".toList ++ ([' '] ++ leadOf d))) := by simp [lead]
    rw [hlead]
    exact .typed rfl (by simp) rfl (by simp) hl.printed

theorem closing_trail {i : NamedImport} (h : i.moduleName ≠ []) :
    Closing i.moduleName i.trail '"' :=
  ⟨.inl rfl, h, [' '], [' '], [';'], rfl, rfl, by decide, rfl⟩

/-- Whether an import is printed so that it is read again: neither its names nor its module hold a
quote, and a comma behind the last name would separate. -/
def isPlain (i : NamedImport) : Bool :=
  i.names.all (!Scan.isQuote ·) && i.moduleName.all (!Scan.isQuote ·) &&
    (Scan.marks (i.names ++ [','])).getLast? == some ⟨',', 0, .code⟩

theorem isPlain_iff {i : NamedImport} :
    i.isPlain = true ↔ (∀ c ∈ i.names, Scan.isQuote c = false) ∧
      (∀ c ∈ i.moduleName, Scan.isQuote c = false) ∧
      (Scan.marks (i.names ++ [','])).getLast? = some ⟨',', 0, .code⟩ := by
  simp [isPlain, and_assoc]

/-- The printed names are cut apart where they were. -/
theorem splitTop_joinedNames {i : NamedImport} (h : i.isPlain = true) (hi : i.FromLine) :
    Scan.splitTop [','] i.joinedNames = Scan.splitTop [','] i.names := by
  obtain ⟨hquote, -, hcloses⟩ := isPlain_iff.mp h
  refine Scan.splitTop_joined rfl List.mem_cons_self fun p hp => ?_
  obtain ⟨htrim, hne, -⟩ := Scan.mem_splitTop hp
  obtain ⟨d, hd, hended⟩ :=
    @Scan.ended_of_mem_splitTop [','] rfl ',' List.mem_cons_self _ hcloses hquote
      hi.names p hp
  obtain rfl : d = ',' := List.mem_singleton.mp hd
  exact ⟨hended, htrim, hne⟩

/-- The printed import is read with the names as they are printed. -/
theorem read?_flat {i : NamedImport} (h : i.isPlain = true) (hi : i.FromLine) :
    read? i.flat = some { i with names := i.joinedNames } := by
  obtain ⟨o, ho⟩ := hi.opening
  exact read?_shape ho.printed (closing_trail hi.nonempty) (isPlain_iff.mp h).2.1 i.joinedNames

theorem render_eq (i : NamedImport) (unit : Text) :
    i.render unit = (i.lead ++ ['{']) ::
    (Scan.splitTop [','] i.names).map (fun name => unit ++ name ++ [',']) ++
      ['}' :: i.trail] := by
  unfold render lead trail
  cases i.default? <;> simp [leadOf]

theorem intercalate_render {α : Type} (sep a z : List α) (ps : List (List α)) :
    sep.intercalate (a :: ps ++ [z]) = a ++ (ps.flatMap (sep ++ ·) ++ (sep ++ z)) := by
  induction ps generalizing a with
  | nil => simp [List.intercalate]
  | cons p ps ih =>
    rw [List.cons_append, List.cons_append, intercalate_cons_cons, ← List.cons_append, ih]
    simp

theorem trim_lead (i : NamedImport) : trim (i.lead ++ ['{']) = i.lead ++ ['{'] := by
  refine trim_eq_self (fun c hc => ?_) fun c hc => ?_
  · have hhead : (i.lead ++ ['{']).head? = some 'i' := by
      cases hk : i.typeOnly <;> simp [lead, hk]
    rw [hhead] at hc
    cases hc
    rfl
  · rw [List.getLast?_concat] at hc
    cases hc
    rfl

theorem trim_trail (i : NamedImport) : trim ('}' :: i.trail) = '}' :: i.trail := by
  refine trim_eq_self (fun c hc => ?_) fun c hc => ?_
  · cases hc
    rfl
  · have hlast : ('}' :: i.trail).getLast? = some ';' := by
      simp [trail, List.getLast?_append, List.getLast?_cons]
    rw [hlast] at hc
    cases hc
    rfl

theorem trim_name {unit name : Text} (hunit : isBlankLine unit = true) (hname : trim name = name)
    (hne : name ≠ []) : trim (unit ++ name ++ [',']) = name ++ [','] := by
  rw [List.append_assoc, trim_blank_append hunit, trim_append hname hne]
  rfl

theorem Lead.not_mem {d : Option Text} {l : Text} (h : Lead d l) : '\n' ∉ leadOf d := by
  cases h with
  | bare => exact List.not_mem_nil
  | @named name b b' hne hname hb hb' =>
    intro hmem
    rcases List.mem_append.mp hmem with hmem | hmem
    · exact absurd (hname _ hmem) (by decide)
    · revert hmem
      decide

theorem FromLine.lead {i : NamedImport} (hi : i.FromLine) : '\n' ∉ i.lead := by
  obtain ⟨o, ho⟩ := hi.opening
  have hlead : '\n' ∉ leadOf i.default? := by
    obtain ⟨k, d, names, m⟩ := i
    cases ho with
    | plain hb hne hl => exact hl.not_mem
    | typed hb hne hb' hne' hl => exact hl.not_mem
  cases hk : i.typeOnly <;> simp [NamedImport.lead, hk, hlead]

/-- On one line the printed import has one spacing, whatever its names are indented with. -/
theorem flatten_render {i : NamedImport} (hi : i.FromLine) {unit : Text}
    (hunit : isBlankLine unit = true) (hn : '\n' ∉ unit) :
    Statement.flatten (unlines (i.render unit)) = i.flat := by
  have hnames : ∀ p ∈ Scan.splitTop [','] i.names, trim (unit ++ p ++ [',']) = p ++ [','] ∧
      '\n' ∉ p := by
    intro p hp
    obtain ⟨htrim, hne, hsub⟩ := Scan.mem_splitTop hp
    exact ⟨trim_name hunit htrim hne, fun hmem => hi.names (hsub _ hmem)⟩
  have hlines : ∀ l ∈ i.render unit, trim l ≠ [] ∧ '\n' ∉ l := by
    intro l hl
    rw [render_eq, List.cons_append, List.mem_cons, List.mem_append, List.mem_map,
      List.mem_singleton] at hl
    rcases hl with rfl | ⟨p, hp, rfl⟩ | rfl
    · rw [trim_lead]
      simp [hi.lead]
    · obtain ⟨htrim, hp⟩ := hnames p hp
      rw [htrim]
      simp [hn, hp]
    · rw [trim_trail]
      simp [trail, hi.moduleName]
  have hmap : (Scan.splitTop [','] i.names).map (fun p => trim (unit ++ p ++ [','])) =
      (Scan.splitTop [','] i.names).map (· ++ [',']) :=
      List.map_congr_left fun p hp => (hnames p hp).1
  rw [Statement.flatten_unlines hlines, render_eq, List.map_append, List.map_cons, List.map_map,
    Function.comp_def, hmap, List.map_singleton, trim_lead, trim_trail, intercalate_render,
    List.flatMap_map]
  simp [flat, joinedNames]

theorem render_joinedNames {i : NamedImport} (h : i.isPlain = true) (hi : i.FromLine)
    (unit : Text) : render { i with names := i.joinedNames } unit = i.render unit := by
  rw [render_eq, render_eq, splitTop_joinedNames h hi]
  rfl

/-- A printed import is not broken anew. -/
theorem reflow_render {i : NamedImport} (h : i.isPlain = true) (hi : i.FromLine) {unit : Text}
    (hunit : isBlankLine unit = true) (hn : '\n' ∉ unit) (width : Nat) :
    Statement.reflow (unlines (i.render unit)) width unit = unlines (i.render unit) := by
  rw [Statement.reflow, flatten_render hi hunit hn, read?_flat h hi]
  split
  · rfl
  · simp only
    split
    · rfl
    · rw [render_joinedNames h hi]

theorem trim_render (i : NamedImport) (unit : Text) :
    trim (unlines (i.render unit)) = unlines (i.render unit) := by
  refine trim_eq_self (fun c hc => ?_) fun c hc => ?_
  · obtain ⟨k, r, hrest⟩ : ∃ k r,
      (Scan.splitTop [','] i.names).map (fun name => unit ++ name ++ [',']) ++
        ['}' :: i.trail] = k :: r := List.exists_cons_of_ne_nil (by simp)
    have hhead : (unlines (i.render unit)).head? = (i.lead ++ ['{']).head? := by
      rw [render_eq, List.cons_append, hrest, unlines, joinLines_cons_cons, List.head?_append]
      cases h : (i.lead ++ ['{']).head? with
      | none => simp at h
      | some d => rfl
    rw [hhead, ← trim_lead] at hc
    exact head_trim hc
  · have hlast := @getLast?_joinLines ['\n'] (i.render unit) ('}' :: i.trail) ';'
      (by rw [render_eq, List.getLast?_concat])
      (by simp [trail, List.getLast?_append, List.getLast?_cons])
    rw [unlines, hlast] at hc
    cases hc
    rfl

end NamedImport

namespace Statement

/-- The import that is broken into lines when a statement is printed. -/
def broken? (cfg : Settings) (s : Statement) : Option NamedImport :=
  if cfg.reflowImports = true ∧ cfg.columnWidth < s.normalized.length then
    (NamedImport.read? s.normalized).filter fun i => !(Scan.splitTop [','] i.names).isEmpty
  else none

/-- A statement is printed as it is, or broken into lines. -/
theorem rendered_eq (cfg : Settings) (s : Statement) :
    s.rendered cfg = match s.broken? cfg with
      | none => trim s.text
      | some i => unlines (i.render cfg.indentUnit) := by
  have hflat : flatten (trim s.text) = s.normalized := flatten_trim s.text
  rw [rendered, broken?]
  cases cfg.reflowImports with
  | false => simp
  | true =>
    simp only [if_true, reflow, hflat, true_and]
    by_cases hwidth : s.normalized.length ≤ cfg.columnWidth
    · rw [if_pos hwidth, if_neg (by omega)]
    · rw [if_neg hwidth, if_pos (by omega)]
      cases NamedImport.read? s.normalized with
      | none => rfl
      | some i =>
        cases hnames : (Scan.splitTop [','] i.names).isEmpty with
        | true => simp [Option.filter, hnames]
        | false => simp [Option.filter, hnames]

theorem fromLine_of_broken? {cfg : Settings} {s : Statement} {i : NamedImport}
    (h : s.broken? cfg = some i) : i.FromLine := by
  rw [broken?, Option.ite_none_right_eq_some] at h
  obtain ⟨-, hread⟩ := h
  exact NamedImport.fromLine_of_read? (Option.filter_eq_some_iff.mp hread).1 fun hmem =>
    not_mem_joinWrapped s.text (mem_of_mem_trim hmem)

theorem isBlankLine_indentUnit (cfg : Settings) :
    isBlankLine cfg.indentUnit = true ∧ '\n' ∉ cfg.indentUnit := by
  unfold Settings.indentUnit
  split
  · decide
  · exact ⟨isBlankLine_replicate_space _, by simp⟩

/-- The import that a printed statement is on one line. -/
theorem normalized_asPrinted (cfg : Settings) (s : Statement) :
    (s.asPrinted cfg).normalized = match s.broken? cfg with
      | none => s.normalized
      | some i => i.flat := by
  rw [normalized, asPrinted, rendered_eq]
  cases hbroken : s.broken? cfg with
  | none => exact flatten_trim s.text
  | some i =>
    obtain ⟨hunit, hn⟩ := isBlankLine_indentUnit cfg
    exact NamedImport.flatten_render (fromLine_of_broken? hbroken) hunit hn

/-- A printed statement is printed as it is. -/
theorem rendered_asPrinted {cfg : Settings} {s : Statement}
    (h : ∀ i ∈ s.broken? cfg, i.isPlain = true) :
    (s.asPrinted cfg).rendered cfg = s.rendered cfg := by
  cases hbroken : s.broken? cfg with
  | none =>
    have hrendered : s.rendered cfg = trim s.text := by rw [rendered_eq, hbroken]
    rw [rendered, asPrinted]
    simp only [hrendered, trim_trim]
    exact hrendered
  | some i =>
    have hrendered : s.rendered cfg = unlines (i.render cfg.indentUnit) := by
      rw [rendered_eq, hbroken]
    obtain ⟨hunit, hn⟩ := isBlankLine_indentUnit cfg
    rw [rendered, asPrinted]
    simp only [hrendered, NamedImport.trim_render]
    split
    · exact NamedImport.reflow_render (h i hbroken) (fromLine_of_broken? hbroken) hunit hn
        cfg.columnWidth
    · rfl

end Statement

end SourceLayout
