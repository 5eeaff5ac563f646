import SourceLayout.Proofs.Imports.Folding

/-! Names as they are printed, one a line, each with a comma behind it. Cut apart and printed a
list of names is the same list; the last name may end in a line comment, of which the comma
behind it becomes part. -/

namespace SourceLayout.Scan
open Text

def lay (unit : Text) (ps : List Text) : Text :=
  ps.flatMap (fun p => '\n' :: (unit ++ p ++ [','])) ++ ['\n']

theorem streamFrom_blank {ts : List (Char × Kind)}
    (h : ∀ x ∈ ts, isBlank x.1 = true ∧ x.2 ≠ .string) (gap : Option Bool) :
    streamFrom gap ts = [] := by
  induction ts generalizing gap with
  | nil => rfl
  | cons x ts ih =>
    obtain ⟨⟨hblank, hk⟩, hts⟩ := List.forall_mem_cons.mp h
    rw [streamFrom]
    cases hx : partOf x with
    | nothing => exact ih hts gap
    | gap => exact ih hts _
    | comma =>
      rw [eq_comma hx] at hblank
      cases hblank
    | letter =>
      rcases letter_iff.mp hx with hstring | hidle
      · exact absurd hstring hk
      · simp [isIdle, hblank] at hidle

theorem stream_blank_append {b : Text} (hb : isBlankLine b = true) (t : Text) :
    stream (b ++ t) = stream t := by
  rw [stream, (parted_inert (inert_blank hb) t).tags, tags_blank hb, streamFrom_run hb (by decide)]
  split <;> rfl

/-- The letters of a name stay if the blanks around it are left out. -/
theorem stream_trim {t : Text} (hlex : (endFrom .free {} t).2.lex = (none, false)) :
    stream (trim t) = stream t ∧ (isFlat (tags t) = true → isFlat (tags (trim t)) = true) ∧
      (endFrom .free {} (trim t)).2.lex = (none, false) := by
  obtain ⟨b, ht, hb⟩ := trim_spec t
  have hwhole : indentOf t ++ (trim t ++ b) = t := by
    rw [← List.append_assoc]
    exact ht.symm
  have hindent := parted_inert (inert_blank (isBlankLine_indentOf t)) (trim t ++ b)
  have hending := hindent.ending
  rw [hwhole] at hending
  have hend : (endFrom .free {} (trim t)).2.lex = (none, false) := by
    have hstate := stateFrom_append_blank .free (.of_none rfl) (s := {}) (trim t) hb
    rw [stateFrom_eq, stateFrom_eq] at hstate
    rw [← hstate, ← hlex]
    exact (Prod.mk.inj hending).2.symm
  have hquote : (endFrom .free {} (trim t)).2.quote = none := congrArg Prod.fst hend
  have hcut : Cuts .free {} (trim t) b := .blank_right (.of_none rfl) hquote hb
  have htags : tags (trim t ++ b) = tags (trim t) ++
      tagsFrom (endFrom .free {} (trim t)).1 (endFrom .free {} (trim t)).2 b := by
    rw [tags, marks, marksFrom_cut hcut, List.map_append]
    rfl
  have hblank : ∀ x ∈ tagsFrom (endFrom .free {} (trim t)).1 (endFrom .free {} (trim t)).2 b,
      isBlank x.1 = true ∧ x.2 ≠ .string := by
    intro x hx
    have hnone := (no_strings (not_escaped_at_end {} (trim t)) hquote (not_quotes_of_blank hb)).1
    obtain ⟨m, hm, rfl⟩ := List.mem_map.mp hx
    refine ⟨?_, fun hk => ?_⟩
    · have hmem := List.mem_map_of_mem (f := Mark.char) hm
      rw [map_char_marksFrom] at hmem
      exact List.all_eq_true.mp hb _ hmem
    · have hmem : m.char ∈ stringChars
          (marksFrom (endFrom .free {} (trim t)).1 (endFrom .free {} (trim t)).2 b) :=
        List.mem_map_of_mem (List.mem_filter.mpr ⟨hm, beq_iff_eq.mpr hk⟩)
      rw [hnone] at hmem
      cases hmem
  refine ⟨?_, fun hflat => ?_, hend⟩
  · obtain ⟨g, hg⟩ := streamFrom_append none (tags (trim t))
    conv => rhs; rw [← hwhole]
    rw [stream_blank_append (isBlankLine_indentOf t), stream, stream, htags, hg,
      streamFrom_blank hblank, List.append_nil]
  · rw [← hwhole, hindent.tags, htags, isFlat_append, isFlat_append, Bool.and_eq_true,
      Bool.and_eq_true] at hflat
    exact hflat.2.1

theorem isFlat_blank {b : Text} (hb : isBlankLine b = true) : isFlat (tags b) = true := by
  rw [tags_blank hb, isFlat, List.all_map, List.all_eq_true]
  intro c hc
  have hsign := not_sign_of_blank (List.all_eq_true.mp hb c hc)
  have ho : isOpener c = false := by simp_all [isOpener, signs]
  simp [ho, isCloser, openerOf_blank (List.all_eq_true.mp hb c hc)]

/-- A name that ends in code, on a line of its own. -/
theorem Closes.laid {unit p : Text} (hunit : isBlankLine unit = true) (hp : Closes p)
    (rest : Text) :
    stream ('\n' :: (unit ++ p ++ [',']) ++ rest) = stream p ++ none :: stream rest ∧
      (Closes ('\n' :: (unit ++ p ++ [',']) ++ rest) ↔ Closes rest) ∧
      isFlat (tags ('\n' :: (unit ++ p ++ [',']) ++ rest)) =
        (isFlat (tags p) && isFlat (tags rest)) := by
  have hlead : isBlankLine ('\n' :: unit) = true := hunit
  have hjoin : '\n' :: (unit ++ p ++ [',']) ++ rest = ('\n' :: unit) ++ (p ++ ([','] ++ rest)) := by
    simp
  have hfirst := parted_inert (inert_blank hlead) (p ++ ([','] ++ rest))
  have hname : Parted p ([','] ++ rest) := hp.parted (.inert_right p rfl rest (by simp))
  have hcomma : Parted [','] rest := parted_inert rfl rest
  have htags : tags (p ++ ([','] ++ rest)) = tags p ++ (',', .code) :: tags rest := by
    rw [hname.tags, hcomma.tags]
    rfl
  rw [hjoin]
  refine ⟨?_, ?_, ?_⟩
  · rw [stream_blank_append hlead, stream, htags, streamFrom_append_comma]
    rfl
  · rw [hfirst.closes_append, hname.closes_append, hcomma.closes_append]
  · rw [hfirst.tags, htags, isFlat_append, isFlat_append, isFlat_blank hlead, Bool.true_and]
    rfl

/-- The comma behind a name ends it or is part of its line comment, and the line
break ends that comment. -/
theorem tags_append_comma {p : Text} (hlex : (endFrom .free {} p).2.lex = (none, false)) :
    ∃ k, k ≠ .string ∧ tags (p ++ [',', '\n']) = tags p ++ [(',', k), ('\n', .code)] ∧
    Closes (p ++ [',', '\n']) := by
  have hquiet := endFrom_quiet (p := .free) {} (t := p) (.inl rfl)
  cases hphase : (endFrom .free {} p).1 with
  | free =>
    have hparted : Parted p [',', '\n'] :=
      Closes.parted ⟨hphase, hlex⟩ (.inert_right p (a := [',', '\n']) rfl [] (by simp))
    exact ⟨.code, by decide, hparted.tags, hparted.closes_append.mpr (clean_inert rfl).closes⟩
  | line =>
    have hquote : (endFrom .free {} p).2.quote = none := congrArg Prod.fst hlex
    have hblock : (endFrom .free {} p).2.inBlock = false := congrArg Prod.snd hlex
    have hcut : Cuts .free {} p [',', '\n'] := .inr ⟨by simp, .of_none rfl, hquote⟩
    have hbreak : stepFree (endFrom .free {} p).2 '\n' none =
        (⟨'\n', (endFrom .free {} p).2.depth, .code⟩, .free, (endFrom .free {} p).2) :=
      @step_blank _ hquote hblock '\n' rfl none
    refine ⟨.comment, by decide, ?_, ?_⟩
    · rw [tags, marks, marksFrom_cut hcut, hphase, List.map_append]
      simp [marksFrom, step, hbreak, Mark.tag, tags, marks]
    · rw [Closes, endFrom_append hcut, hphase]
      simp only [endFrom, step, List.head?_nil, show (',' == '\n') = false from rfl,
        Bool.false_eq_true, ↓reduceIte, beq_self_eq_true, hbreak]
      exact ⟨rfl, hlex⟩
  | escaped =>
    rw [hphase] at hquiet
    cases hquiet
  | sign =>
    rw [hphase] at hquiet
    cases hquiet

/-- A text that a comma ends, in front of the comma and behind it. -/
theorem Ended.parted {u : Text} (h : Ended [','] ',' u) (v : Text) : Parted u (',' :: v) := by
  have hat : (marks (u ++ ',' :: v))[u.length]? = some ⟨',', 0, .code⟩ := by
    rw [marks_append_stop rfl h.closes, List.getElem?_append_right (by simp)]
    simp
  simpa using parted_code hat rfl (by decide)

/-- The last name may end in a line comment. -/
theorem laid_last {unit p : Text} (hunit : isBlankLine unit = true)
    (hlex : (endFrom .free {} p).2.lex = (none, false)) (hflat : isFlat (tags p) = true) :
    namesIn (stream (lay unit [p])) = namesIn (stream p) ∧ isFlat (tags (lay unit [p])) = true ∧
      Closes (lay unit [p]) := by
  have hlead : isBlankLine ('\n' :: unit) = true := hunit
  have hjoin : lay unit [p] = ('\n' :: unit) ++ (p ++ [',', '\n']) := by simp [lay]
  have hfirst := parted_inert (inert_blank hlead) (p ++ [',', '\n'])
  obtain ⟨k, hk, htags, hcloses⟩ := tags_append_comma hlex
  rw [hjoin, hfirst.closes_append, hfirst.tags, isFlat_append, isFlat_blank hlead, Bool.true_and,
    htags, isFlat_append, hflat, Bool.true_and, stream_blank_append hlead, stream, htags]
  refine ⟨?_, by cases k <;> rfl, hcloses⟩
  obtain ⟨g, hg⟩ := streamFrom_append none (tags p)
  rw [hg]
  refine namesIn_append_commas _ ?_
  cases k with
  | string => exact absurd rfl hk
  | code => simp [streamFrom, partOf, isBlank]
  | comment => simp [streamFrom, partOf, isBlank]

theorem lay_cons (unit p : Text) (ps : List Text) :
    lay unit (p :: ps) = '\n' :: (unit ++ p ++ [',']) ++ lay unit ps := by
  simp [lay]

/-- Names that are cut apart and printed one a line are the same names. -/
theorem lay_splitTop {unit : Text} (hunit : isBlankLine unit = true) {x : Text} (hn : '\n' ∉ x)
    (hlex : (endFrom .free {} x).2.lex = (none, false)) (hflat : isFlat (tags x) = true) :
    namesIn (stream (lay unit (splitTop [','] x))) = namesIn (stream x) ∧
      isFlat (tags (lay unit (splitTop [','] x))) = true ∧
      Closes (lay unit (splitTop [','] x)) := by
  induction x using cut_induction (show [','].all isStop = true from rfl) with
  | uncut x hno =>
    obtain ⟨hstream, hflat', hlex'⟩ := stream_trim hlex
    by_cases hnil : trim x = []
    · have hnone : splitTop [','] x = [] := by rw [splitTop_uncut hno, hnil]; rfl
      rw [hnone, ← hstream, hnil]
      exact ⟨rfl, rfl, (clean_inert (a := ['\n']) rfl).closes⟩
    · have hone : splitTop [','] x = [trim x] := by rw [splitTop_uncut hno]; simp [hnil]
      rw [hone, ← hstream]
      exact laid_last hunit hlex' (hflat' hflat)
  | ended u c v hc hstop hended ih =>
    obtain rfl : c = ',' := List.mem_singleton.mp hc
    have hparted := hended.parted v
    have hcomma : Parted [','] v := parted_inert rfl v
    have htags : tags (u ++ ',' :: v) = tags u ++ (',', .code) :: tags v := by
      rw [hparted.tags]
      exact congrArg (tags u ++ ·) hcomma.tags
    rw [List.mem_append, List.mem_cons, not_or, not_or] at hn
    rw [htags, isFlat_append, isFlat_comma, Bool.and_eq_true] at hflat
    have hlex' : (endFrom .free {} v).2.lex = (none, false) := by
      rw [← hlex]
      exact (Prod.mk.inj (hcomma.ending.symm.trans hparted.ending.symm)).2
    obtain ⟨hnames, hflat', hcloses⟩ := ih hn.2.2 hlex' hflat.2
    have hwhole : namesIn (stream (u ++ ',' :: v)) = namesIn (stream u) ++ namesIn (stream v) := by
      rw [stream, htags, streamFrom_append_comma, namesIn_append_none]
      rfl
    obtain ⟨hstream, hflatu, -⟩ := stream_trim hparted.closes.lex
    have hsplit := hended.splitTop_append hstop hc v
    by_cases hnil : trim u = []
    · have hrest : splitTop [','] (u ++ ',' :: v) = splitTop [','] v := by rw [hsplit, hnil]; rfl
      rw [hrest, hwhole, ← hstream, hnil]
      exact ⟨hnames, hflat', hcloses⟩
    · have hrest : splitTop [','] (u ++ ',' :: v) = trim u :: splitTop [','] v := by
        rw [hsplit]; simp [hnil]
      obtain ⟨hlaid, hends, hflats⟩ :=
        (hparted.closes.trim hn.1).1.laid hunit (lay unit (splitTop [','] v))
      rw [hrest, lay_cons, hlaid, hends, hflats, hwhole, namesIn_append_none, hnames, hstream,
        hflatu hflat.1, hflat']
      exact ⟨rfl, rfl, hcloses⟩

end SourceLayout.Scan
