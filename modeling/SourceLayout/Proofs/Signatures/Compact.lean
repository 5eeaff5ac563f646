import SourceLayout.Proofs.Signatures.Words

/-! Collapsed texts. A text is tight if its blanks of code are single spaces. Collapsing makes a
text tight and leaves a tight text as it is, so texts that are put together from tight parts may be
collapsed part by part. -/

namespace SourceLayout.Scan
open Text

/-- Blanks of code are single spaces. -/
def tight : List (Char × Kind) → Bool
  | [] => true
  | x :: w => (isFirmTag x || x.1 == ' ') && (w.head?.all isFirmTag || x.1 != ' ') && tight w

theorem tight_cons {x : Char × Kind} {w : List (Char × Kind)} :
    tight (x :: w) = true ↔
      (isFirmTag x = true ∨ x.1 = ' ') ∧ (w.head?.all isFirmTag = true ∨ x.1 ≠ ' ') ∧
      tight w = true := by
  simp [tight, and_assoc]

theorem firm_or_space_of_tight {w : List (Char × Kind)} (h : tight w = true) :
    ∀ x ∈ w, isFirmTag x = true ∨ x.1 = ' ' := by
  induction w with
  | nil => simp
  | cons x w ih =>
    obtain ⟨hx, -, hw⟩ := tight_cons.mp h
    exact List.forall_mem_cons.mpr ⟨hx, ih hw⟩

theorem tight_of_append {w v : List (Char × Kind)} (h : tight (w ++ v) = true) :
    tight w = true ∧ tight v = true := by
  induction w with
  | nil => exact ⟨rfl, h⟩
  | cons x w ih =>
    rw [List.cons_append, tight_cons] at h
    obtain ⟨hfirst, hnext, hrest⟩ := h
    obtain ⟨hw, hv⟩ := ih hrest
    refine ⟨tight_cons.mpr ⟨hfirst, ?_, hw⟩, hv⟩
    cases w with
    | nil => exact .inl rfl
    | cons y w => exact hnext

theorem tight_append {w v : List (Char × Kind)} (hw : tight w = true) (hv : tight v = true)
    (h : (∀ x ∈ w.getLast?, x.1 ≠ ' ') ∨ ∀ y ∈ v.head?, isFirmTag y = true) :
    tight (w ++ v) = true := by
  induction w with
  | nil => exact hv
  | cons x w ih =>
    obtain ⟨hfirst, hnext, hrest⟩ := tight_cons.mp hw
    rw [List.cons_append, tight_cons]
    cases w with
    | nil =>
      refine ⟨hfirst, ?_, hv⟩
      rcases h with h | h
      · exact .inr (h x rfl)
      · refine .inl ?_
        cases hv : v.head? with
        | none => simp [hv]
        | some y => simpa [hv] using h y hv
    | cons y w => exact ⟨hfirst, hnext, ih hrest h⟩

/-! ## Collapsing -/

theorem collapseFrom_tight {last : Option Char} {ms : List Mark}
    (h : tight (ms.map Mark.tag) = true)
    (hfirst : (∀ m ∈ ms.head?, m.isFirm = true) ∨ last ≠ none ∧ last ≠ some ' ') :
    collapseFrom last ms = ms.map Mark.char := by
  induction ms generalizing last with
  | nil => rfl
  | cons m ms ih =>
    rw [List.map_cons, tight_cons] at h
    obtain ⟨hm, hnext, hrest⟩ := h
    -- behind a space stands no blank of code
    have hbehind : (∀ m' ∈ ms.head?, m'.isFirm = true) ∨ some m.char ≠ none ∧
        some m.char ≠ some ' ' := by
      refine hnext.imp (fun hfirm m' hm' => ?_) fun hne => ⟨by simp, by simpa [Mark.tag] using hne⟩
      rw [List.head?_map, show ms.head? = some m' from hm'] at hfirm
      exact hfirm
    rw [collapseFrom_cons, List.map_cons]
    cases hfirm : m.isFirm with
    | true => rw [if_pos rfl, ih hrest hbehind]
    | false =>
      have hspace : m.char = ' ' :=
        hm.resolve_left (by rw [show isFirmTag m.tag = m.isFirm from rfl, hfirm]; simp)
      have hlast : last ≠ none ∧ last ≠ some ' ' := hfirst.resolve_left fun hall => by
        have hfirst := hall m rfl
        rw [hfirm] at hfirst
        cases hfirst
      rw [hspace] at hbehind
      rw [if_neg (by simp), if_neg (by simpa using hlast), hspace, ih hrest hbehind]

/-- Collapsing depends on what the characters belong to, not on their depths. -/
theorem collapseFrom_congr (last : Option Char) {ms ns : List Mark}
    (h : ms.map Mark.tag = ns.map Mark.tag) : collapseFrom last ms = collapseFrom last ns := by
  induction ms generalizing last ns with
  | nil =>
    obtain rfl : ns = [] := List.map_eq_nil_iff.mp h.symm
    rfl
  | cons m ms ih =>
    cases ns with
    | nil => cases h
    | cons n ns =>
      rw [List.map_cons, List.map_cons, List.cons.injEq] at h
      have hfirm : m.isFirm = n.isFirm := congrArg isFirmTag h.1
      have hchar : m.char = n.char := congrArg Prod.fst h.1
      rw [collapseFrom_cons, collapseFrom_cons, hfirm, hchar, ih _ h.2, ih _ h.2, ih _ h.2]

/-- At the beginning of a text and behind a space blanks are dropped. -/
theorem collapseFrom_space (ms : List Mark) :
    collapseFrom (some ' ') ms = collapseFrom none ms := by
  induction ms with
  | nil => rfl
  | cons m ms ih =>
    rw [collapseFrom_cons, collapseFrom_cons]
    split
    · rfl
    · exact ih

theorem collapseFrom_blank {last : Option Char} {ms : List Mark} (h : ∀ m ∈ ms, m.isFirm = false) :
    collapseFrom last ms = if ms = [] ∨ last = none ∨ last = some ' ' then [] else [' '] := by
  induction ms generalizing last with
  | nil => rfl
  | cons m ms ih =>
    obtain ⟨hm, hms⟩ := List.forall_mem_cons.mp h
    rw [collapseFrom_cons, if_neg (by simp [hm])]
    by_cases hl : last = none ∨ last = some ' '
    · rw [if_pos (by simpa using hl), ih hms, if_pos (.inr hl), if_pos (.inr hl)]
    · rw [if_neg (by simpa using hl), ih hms, if_pos (.inr (.inr rfl)), if_neg (by simpa using hl)]

theorem isBlankLine_collapseFrom (last : Option Char) {ms : List Mark}
    (h : ∀ m ∈ ms, isBlank m.char = true) : isBlankLine (collapseFrom last ms) = true := by
  induction ms generalizing last with
  | nil => rfl
  | cons m ms ih =>
    obtain ⟨hm, hms⟩ := List.forall_mem_cons.mp h
    rw [collapseFrom_cons]
    split
    · simpa [isBlankLine, hm] using ih (some m.char) hms
    · split
      · exact ih last hms
      · exact ih (some ' ') hms

theorem not_firm_blank {b : Text} (hb : isBlankLine b = true) :
    ∀ m ∈ b.map (fun c => (⟨c, 0, .code⟩ : Mark)), m.isFirm = false := by
  intro m hm
  obtain ⟨c, hc, rfl⟩ := List.mem_map.mp hm
  simp [Mark.isFirm, List.all_eq_true.mp hb c hc]

/-- Blanks at the ends of a text are dropped. -/
theorem collapse_trim (t : Text) : collapse (trim t) = collapse t := by
  obtain ⟨ms, hms, hblank⟩ := marks_trim t
  have hindent : collapseFrom none ((indentOf t).map fun c => (⟨c, 0, .code⟩ : Mark)) = [] := by
    rw [collapseFrom_blank (not_firm_blank (isBlankLine_indentOf t)), if_pos (.inr (.inl rfl))]
  have hwhole : collapseFrom none (marks t) = collapseFrom none (marks (trim t)) ++
      collapseFrom ((collapseFrom none (marks (trim t))).getLast?.or none) ms := by
    rw [hms, collapseFrom_append, collapseFrom_append, hindent]
    rfl
  rw [collapse, collapse, hwhole, trim_append_blank _ (isBlankLine_collapseFrom _ hblank)]

theorem collapse_blank_append {b : Text} (hb : isBlankLine b = true) (t : Text) :
    collapse (b ++ t) = collapse t := by
  rw [← collapse_trim, trim_blank_append hb, collapse_trim]

/-! ## Compact texts -/

structure Compact (t : Text) : Prop where
  tight : tight (tags t) = true
  trimmed : trim t = t

theorem compact_nil : Compact [] := ⟨rfl, rfl⟩

theorem tags_head? (t : Text) : (tags t).head?.map Prod.fst = t.head? := by
  rw [tags, List.head?_map, Option.map_map]
  have hhead := congrArg List.head? (map_char_marks t {})
  rw [List.head?_map] at hhead
  exact hhead

theorem tags_getLast? (t : Text) : (tags t).getLast?.map Prod.fst = t.getLast? := by
  rw [tags, List.getLast?_map, Option.map_map]
  have hlast := congrArg List.getLast? (map_char_marks t {})
  rw [List.getLast?_map] at hlast
  exact hlast

/-- A text that begins with ink. -/
theorem firm_head {t : Text} (h : ∀ c, t.head? = some c → isBlank c = false) :
    ∀ x ∈ (tags t).head?, isFirmTag x = true := by
  intro x hx
  have hchar := tags_head? t
  rw [show (tags t).head? = some x from hx, Option.map_some] at hchar
  simp [isFirmTag, h _ hchar.symm]

theorem ne_space_last {t : Text} (h : ∀ c, t.getLast? = some c → isBlank c = false) :
    ∀ x ∈ (tags t).getLast?, x.1 ≠ ' ' := by
  intro x hx hspace
  have hchar := tags_getLast? t
  rw [show (tags t).getLast? = some x from hx, Option.map_some, hspace] at hchar
  exact absurd (h _ hchar.symm) (by decide)

def isGlyph (c : Char) : Bool := isInert c && !isBlank c

theorem glyphs_iff {a : Text} :
    a.all isGlyph = true ↔ a.all isInert = true ∧ ∀ c ∈ a, isBlank c = false := by
  simp [isGlyph, forall_and]

namespace Compact

theorem head {t : Text} (h : Compact t) {c : Char} (hc : t.head? = some c) : isBlank c = false :=
  head_trim (t := t) (by rw [h.trimmed]; exact hc)

theorem last {t : Text} (h : Compact t) {c : Char} (hc : t.getLast? = some c) : isBlank c = false :=
  last_trim (t := t) (by rw [h.trimmed]; exact hc)

theorem collapse {t : Text} (h : Compact t) : collapse t = t := by
  have hfirst : ∀ m ∈ (marks t).head?, m.isFirm = true := by
    intro m hm
    refine firm_head (t := t) (fun c hc => h.head hc) m.tag ?_
    rw [tags, List.head?_map, show (marks t).head? = some m from hm]
    rfl
  rw [Scan.collapse, collapseFrom_tight h.tight (.inl hfirst), map_char_marks, h.trimmed]

theorem trim_append {u v : Text} (hu : Compact u) (hne : u ≠ [])
    (hv : ∀ c, v.getLast? = some c → isBlank c = false) : trim (u ++ v) = u ++ v := by
  rw [Text.trim_append hu.trimmed hne, trimRight_eq_self hv]

/-- Two texts that meet in ink. -/
theorem append {u v : Text} (hu : Compact u) (hv : Compact v) (h : Parted u v) :
    Compact (u ++ v) := by
  refine ⟨?_, ?_⟩
  · rw [h.tags]
    exact tight_append hu.tight hv.tight (.inl (ne_space_last fun c hc => hu.last hc))
  · by_cases hne : u = []
    · rw [hne, List.nil_append, hv.trimmed]
    · exact hu.trim_append hne fun c hc => hv.last hc

/-- Two texts with a space between them. -/
theorem gap {u v : Text} (hu : Compact u) (hv : Compact v) (hclosed : Closes u) (hne : u ≠ [])
    (hne' : v ≠ []) : Compact (u ++ ' ' :: v) := by
  have hparted := hclosed.parted (.sign u (c := ' ') (by decide) v)
  have hspace : tags (' ' :: v) = (' ', .code) :: tags v := (parted_inert (a := [' ']) rfl v).tags
  refine ⟨?_, hu.trim_append hne fun c hc => ?_⟩
  · rw [hparted.tags, hspace]
    refine tight_append hu.tight ?_ (.inl (ne_space_last fun c hc => hu.last hc))
    refine tight_cons.mpr ⟨.inr rfl, .inl ?_, hv.tight⟩
    cases hhead : (tags v).head? with
    | none => rfl
    | some x => exact firm_head (fun c hc => hv.head hc) x hhead
  · obtain ⟨d, v, rfl⟩ := List.exists_cons_of_ne_nil hne'
    rw [List.getLast?_cons_cons] at hc
    exact hv.last hc

/-- Signs without blanks between them. -/
theorem signs {a : Text} (ha : a.all isGlyph = true) : Compact a := by
  obtain ⟨hi, hb⟩ := glyphs_iff.mp ha
  refine ⟨?_, trim_eq_self (fun c hc => hb c (List.mem_of_mem_head? hc)) fun c hc =>
    hb c (List.mem_of_getLast? hc)⟩
  rw [tags_inert hi]
  clear ha hi
  induction a with
  | nil => rfl
  | cons c a ih =>
    obtain ⟨hc, ha⟩ := List.forall_mem_cons.mp hb
    have hne : c ≠ ' ' := by
      rintro rfl
      cases hc
    exact tight_cons.mpr ⟨.inl (by simp [isFirmTag, hc]), .inr hne, ih ha⟩

end Compact

/-! ## Texts that are collapsed part by part -/

/-- Where a run of blanks of code is one space, the marks are tight. -/
theorem tight_squeezeFrom (last : Option Char) (ms : List Mark) :
    tight ((squeezeFrom last ms).map Mark.tag) = true ∧
      (last = none ∨ last = some ' ' → ((squeezeFrom last ms).map Mark.tag).head?.all isFirmTag =
        true) := by
  induction ms generalizing last with
  | nil => exact ⟨rfl, fun _ => rfl⟩
  | cons m ms ih =>
    rw [squeezeFrom]
    cases hfirm : m.isFirm with
    | false =>
      simp only [Bool.false_eq_true, ↓reduceIte]
      split
      · exact ih last
      · next hlast =>
        -- no blank follows the space that is written
        obtain ⟨htight, hhead⟩ := ih (some ' ')
        exact ⟨tight_cons.mpr ⟨.inr rfl, .inl (hhead (.inr rfl)), htight⟩,
          fun h => absurd (by simpa using h) hlast⟩
    | true =>
      obtain ⟨htight, hhead⟩ := ih (some m.char)
      simp only [↓reduceIte, List.map_cons]
      refine ⟨tight_cons.mpr ⟨.inl hfirm, ?_, htight⟩, fun _ => hfirm⟩
      by_cases hc : m.char = ' '
      · exact .inl (hhead (.inr (by rw [hc])))
      · exact .inr hc

theorem tight_trim {t : Text} (h : tight (tags t) = true) : tight (tags (trim t)) = true := by
  obtain ⟨ms, hms, -⟩ := marks_trim t
  rw [tags, hms, List.map_append, List.map_append] at h
  exact (tight_of_append (tight_of_append h).1).2

/-- What collapsing gives. -/
theorem compact_collapse {t : Text} (h : commentStart? t = none) : Compact (collapse t) := by
  refine ⟨tight_trim ?_, trim_trim _⟩
  rw [tags, marks_collapseFrom (List.findIdx?_eq_none_iff.mp h)]
  exact (tight_squeezeFrom none _).1

theorem compact_trim {t : Text} (h : tight (tags t) = true) : Compact (trim t) :=
  ⟨tight_trim h, trim_trim t⟩

/-- Two texts with blanks between them are collapsed apart. -/
theorem collapse_gap {u b v : Text} (hu : Closes u) (htu : trim u = u) (hnu : u ≠ [])
    (hb : isBlankLine b = true) (hne : b ≠ []) (htv : trim v = v) (hnv : v ≠ []) :
    collapse (u ++ (b ++ v)) = collapse u ++ ' ' :: collapse v := by
  obtain ⟨c, hlast, hc, htrim⟩ := collapseFrom_trimmed hnu htu
  obtain ⟨d, hlastV, hd, htrimV⟩ := collapseFrom_trimmed hnv htv
  have htags : (marks (u ++ (b ++ v))).map Mark.tag =
      (marks u ++ (b.map (fun c => (⟨c, 0, .code⟩ : Mark)) ++ marks v)).map Mark.tag := by
    have hparted := hu.parted (.inert_right u (inert_blank hb) v hne)
    rw [← tags, hparted.tags, (parted_inert (inert_blank hb) v).tags, tags_blank hb]
    simp [tags, Mark.tag, Function.comp_def]
  have hspace : collapseFrom (some c) (b.map fun c => (⟨c, 0, .code⟩ : Mark)) = [' '] := by
    have hblank : c ≠ ' ' := by
      rintro rfl
      cases hc
    rw [collapseFrom_blank (not_firm_blank hb), if_neg (by simp [hne, hblank])]
  have hwhole : collapseFrom none (marks (u ++ (b ++ v))) =
      collapseFrom none (marks u) ++ ' ' :: collapseFrom none (marks v) := by
    rw [collapseFrom_congr none htags, collapseFrom_append, hlast, Option.some_or,
      collapseFrom_append, hspace]
    exact congrArg (_ ++ ' ' :: ·) (collapseFrom_space (marks v))
  have hnil : collapseFrom none (marks u) ≠ [] := by
    intro h
    rw [h] at hlast
    cases hlast
  have hend : trimRight (' ' :: collapseFrom none (marks v)) =
      ' ' :: collapseFrom none (marks v) := by
    refine trimRight_eq_self fun e he => ?_
    rw [List.getLast?_cons, hlastV, Option.getD_some, Option.some.injEq] at he
    exact he ▸ hd
  rw [collapse, hwhole, trim_append htrim hnil, hend, collapse, htrim, collapse, htrimV]

/-! ## Putting texts together -/

/-- A text that shows something, may be followed by others, and is left as it is by collapsing. -/
structure Chunk (t : Text) : Prop where
  clean : Clean t
  compact : Compact t
  ne_nil : t ≠ []

namespace Chunk

theorem signs {a : Text} (ha : a.all isGlyph = true) (hne : a ≠ []) : Chunk a :=
  ⟨clean_inert (glyphs_iff.mp ha).1, .signs ha, hne⟩

theorem append {u v : Text} (hu : Chunk u) (hv : Chunk v) (h : Meets u v) : Chunk (u ++ v) := by
  have hparted := hu.clean.closes.parted h
  exact ⟨hparted.clean.mpr ⟨hu.clean, hv.clean⟩,
    hu.compact.append hv.compact hparted, by simp [hu.ne_nil]⟩

theorem gap {u v : Text} (hu : Chunk u) (hv : Chunk v) : Chunk (u ++ ' ' :: v) :=
  ⟨(hu.clean.join (a := [' ']) (by decide) (by simp) hv.clean).1,
    hu.compact.gap hv.compact hu.clean.closes hu.ne_nil hv.ne_nil, by simp⟩

/-- Signs behind a text. -/
theorem append_signs {u a : Text} (hu : Chunk u) (ha : a.all isGlyph = true) : Chunk (u ++ a) := by
  by_cases hne : a = []
  · rw [hne, List.append_nil]
    exact hu
  · have hmeets := Meets.inert_right u (glyphs_iff.mp ha).1 [] hne
    rw [List.append_nil] at hmeets
    exact hu.append (signs ha hne) hmeets

/-- Texts with a space in front of each. -/
theorem gaps {u : Text} (hu : Chunk u) {xs : List Text} (h : ∀ x ∈ xs, Chunk x) :
    Chunk (u ++ xs.flatMap (' ' :: ·)) := by
  induction xs generalizing u with
  | nil => simpa using hu
  | cons x xs ih =>
    obtain ⟨hx, hxs⟩ := List.forall_mem_cons.mp h
    rw [List.flatMap_cons, ← List.append_assoc]
    exact ih (hu.gap hx) hxs

end Chunk

end SourceLayout.Scan
