import SourceLayout.Proofs.Indentation.Leads
import SourceLayout.Proofs.Loading

/-! Settings are sound however they come about: from values that are checked together, from values
of which the refused ones are left out, and with the indentation of a source filled in. The values
that are left in are checked together again, and give each field what its own value gives alone. -/

namespace SourceLayout.Settings
open Text

/-! ## Values that are checked together -/

def named (values : FieldValues) : List (Text × Value) :=
  values.map fun (f, v) => (f.name.toList, v)

def alone (f : Field) (v : Value) : Except (List Problem) Settings := ofValues (named [(f, v)])

theorem Field.name_injective {f g : Field} (h : f.name.toList = g.name.toList) : f = g := by
  revert h
  cases f <;> cases g <;> decide

theorem lookup_named (values : FieldValues) (f : Field) :
    (named values).lookup f.name.toList = values.lookup f := by
  induction values with
  | nil => rfl
  | cons p rest ih =>
    obtain ⟨g, v⟩ := p
    rw [named, List.map_cons, List.lookup_cons, List.lookup_cons, ← named, ih]
    have hkey : (f.name.toList == g.name.toList) = (f == g) := by
      rw [Bool.eq_iff_iff, beq_iff_eq, beq_iff_eq]
      exact ⟨Field.name_injective, fun h => by rw [h]⟩
    rw [hkey]

theorem eq_of_agree {s t : Settings} (h : ∀ f, Agree f s t) : s = t := by
  have h₁ := h .headerChar
  have h₂ := h .columnWidth
  have h₃ := h .indentKind
  have h₄ := h .indentSize
  have h₅ := h .expandMethods
  have h₆ := h .reflowImports
  have h₇ := h .groups
  cases s
  cases t
  simp only [Agree] at h₁ h₂ h₃ h₄ h₅ h₆ h₇
  subst h₁ h₂ h₃ h₄ h₅ h₆ h₇
  rfl

theorem not_refused_iff {f : Field} {v : Value} : ¬Refused f v ↔ ∃ t, setField {} f v = .ok t := by
  unfold Refused
  cases setField {} f v <;> simp

/-- Values are accepted together if and only if each of them is accepted. -/
theorem exists_go_iff (entries : List (Text × Value)) (s : Settings) (fields : List Field) :
    (∃ s', ofValues.go entries s fields = .ok s') ↔
      ∀ f ∈ fields, ∀ v, entries.lookup f.name.toList = some v → ¬Refused f v := by
  induction fields generalizing s with
  | nil => simp [ofValues.go]
  | cons f rest ih =>
    rw [List.forall_mem_cons]
    unfold ofValues.go
    split
    · next hnone => simp [hnone, ih]
    · next v hsome =>
      simp only [hsome, Option.some.injEq, forall_eq']
      split
      · next s₁ hset =>
        obtain ⟨⟨t, ht, -⟩, -⟩ := setField_ok hset {}
        rw [ih]
        exact (and_iff_right (not_refused_iff.mpr ⟨t, ht⟩)).symm
      · next ps hset =>
        refine iff_of_false ?_ fun h => h.1 (setField_error hset {})
        rintro ⟨s', h⟩
        split at h <;> cases h

/-- Of values that are accepted together each sets its own field, and the other
fields are as they were. -/
theorem agree_go {entries : List (Text × Value)} {s s' : Settings} {fields : List Field}
    (hnodup : fields.Nodup) (h : ofValues.go entries s fields = .ok s') (f : Field) :
    Agree f s' (if f ∈ fields then
      ((entries.lookup f.name.toList).bind fun v => (setField {} f v).toOption).getD s else s) := by
  induction fields generalizing s with
  | nil =>
    cases h
    exact .refl f _
  | cons g rest ih =>
    obtain ⟨hg, hrest⟩ := List.nodup_cons.mp hnodup
    unfold ofValues.go at h
    split at h
    · next hnone =>
      have hf := ih hrest h
      by_cases hfg : f = g
      · subst hfg
        simpa [hg, hnone] using hf
      · simpa [hfg] using hf
    · next v hsome =>
      split at h
      · next s₁ hset =>
        obtain ⟨⟨t, ht, hown⟩, hother⟩ := setField_ok hset {}
        have hf := ih hrest h
        by_cases hfg : f = g
        · subst hfg
          rw [if_neg hg] at hf
          simpa [hsome, ht, Except.toOption] using hf.trans hown
        · have hs := hother f hfg
          simp only [List.mem_cons, hfg, false_or]
          refine hf.trans ?_
          split
          · cases (entries.lookup f.name.toList).bind fun v => (setField {} f v).toOption with
            | none => exact hs
            | some t => exact .refl f t
          · exact hs
      · split at h <;> cases h

theorem Field.nodup_all : Field.all.Nodup := by decide

theorem Field.mem_all (f : Field) : f ∈ Field.all := by cases f <;> decide

theorem exists_ofValues_iff (entries : List (Text × Value)) :
    (∃ s, ofValues entries = .ok s) ↔ ∀ f v, entries.lookup f.name.toList = some v →
    ¬Refused f v := by
  rw [ofValues, exists_go_iff]
  exact ⟨fun h f => h f f.mem_all, fun h f _ => h f⟩

theorem agree_ofValues {entries : List (Text × Value)} {s : Settings} (h : ofValues entries = .ok s)
    (f : Field) :
    Agree f s (((entries.lookup f.name.toList).bind fun v => (setField {} f v).toOption).getD
      {}) := by
  have hf := agree_go Field.nodup_all h f
  rwa [if_pos f.mem_all] at hf

theorem lookup_singleton (f g : Field) (v : Value) :
    (named [(f, v)]).lookup g.name.toList = if g = f then some v else none := by
  rw [lookup_named]
  by_cases h : g = f
  · simp [h]
  · simp [h, List.lookup_cons, beq_false_of_ne h]

/-- A value alone is accepted or refused as in any other company, and it sets its field alike. -/
theorem toOption_alone (f : Field) (v : Value) :
    (alone f v).toOption = (setField {} f v).toOption := by
  have hexists : (∃ s, alone f v = .ok s) ↔ ¬Refused f v := by
    rw [alone, exists_ofValues_iff]
    simp only [lookup_singleton]
    constructor
    · exact fun h => h f v (by simp)
    · intro h g w hw
      split at hw
      · next hg =>
        cases hw
        exact hg ▸ h
      · cases hw
  cases hset : setField {} f v with
  | error ps =>
    cases halone : alone f v with
    | error qs => rfl
    | ok s => exact absurd ⟨ps, hset⟩ (hexists.mp ⟨s, halone⟩)
  | ok t =>
    obtain ⟨s, hs⟩ := hexists.mpr (not_refused_iff.mpr ⟨t, hset⟩)
    obtain rfl : s = t := by
      refine eq_of_agree fun g => ?_
      have hg := agree_ofValues hs g
      rw [lookup_singleton] at hg
      by_cases hgf : g = f
      · subst hgf
        simpa [hset, Except.toOption] using hg
      · obtain ⟨-, hother⟩ := setField_ok hset {}
        simp only [hgf, if_false, Option.bind_none, Option.getD_none] at hg
        exact hg.trans (hother g hgf).symm
    rw [hs]

/-! ## Values of which the refused ones are left out -/

def acceptedAlone (values : FieldValues) : FieldValues :=
  values.filter fun p => (alone p.1 p.2).toOption.isSome

theorem acceptedFor_of_nodup {values : FieldValues} (h : (values.map Prod.fst).Nodup) (f : Field) :
    acceptedFor f values = ((values.lookup f).bind fun v => (alone f v).toOption).toList := by
  induction values with
  | nil => rfl
  | cons p rest ih =>
    obtain ⟨g, v⟩ := p
    obtain ⟨hg, hrest⟩ := List.nodup_cons.mp h
    by_cases hfg : g = f
    · subst hfg
      have hnone : acceptedFor g rest = [] := by
        rw [acceptedFor, List.filterMap_eq_nil_iff]
        intro p hp
        exact if_neg fun hkey => hg (List.mem_map.mpr ⟨p, hp, hkey⟩)
      have hcons : acceptedFor g ((g, v) :: rest) = (setField {} g v).toOption.toList ++
          acceptedFor g rest := by
        cases hset : (setField {} g v).toOption <;> simp [acceptedFor, hset]
      rw [hcons, hnone, ← toOption_alone]
      simp
    · have hcons : acceptedFor f ((g, v) :: rest) = acceptedFor f rest := by simp [acceptedFor, hfg]
      rw [hcons, ih hrest, List.lookup_cons, beq_false_of_ne (Ne.symm hfg)]

theorem lookup_acceptedAlone {values : FieldValues} (h : (values.map Prod.fst).Nodup) (f : Field) :
    (acceptedAlone values).lookup f = (values.lookup f).filter fun v =>
    (alone f v).toOption.isSome := by
  induction values with
  | nil => rfl
  | cons p rest ih =>
    obtain ⟨g, v⟩ := p
    obtain ⟨hg, hrest⟩ := List.nodup_cons.mp h
    have hrest := ih hrest
    rw [acceptedAlone] at hrest ⊢
    by_cases hfg : f = g
    · subst hfg
      have hnone : rest.lookup f = none := by
        rw [List.lookup_eq_none_iff]
        intro p hp
        rw [bne_iff_ne]
        exact fun hkey => hg (List.mem_map.mpr ⟨p, hp, hkey.symm⟩)
      rw [hnone] at hrest
      cases ha : (alone f v).toOption.isSome with
      | true => simp [Option.filter, ha]
      | false => simp [Option.filter, ha, hrest]
    · rw [List.lookup_cons, beq_false_of_ne hfg, ← hrest, List.filter_cons]
      split
      · rw [List.lookup_cons, beq_false_of_ne hfg]
      · rfl

/-- What is built from values, each field from its own value. -/
theorem agree_build_alone {shownPath : String} {values : FieldValues}
    (hkeys : (values.map Prod.fst).Nodup) {s : Settings} {notes : List Note}
    (h : build shownPath {} values = .ok (s, notes)) (f : Field) :
    Agree f s (((values.lookup f).bind fun v => (alone f v).toOption).getD {}) := by
  have hf := agree_build h (.refl f {})
  rw [acceptedFor_of_nodup hkeys] at hf
  cases ha : (values.lookup f).bind fun v => (alone f v).toOption with
  | none => simpa [ha] using hf
  | some t => simpa [ha] using hf

/-- What is built from values is what those give that are accepted alone, checked together. -/
theorem ofValues_acceptedAlone {shownPath : String} {values : FieldValues}
    (hkeys : (values.map Prod.fst).Nodup) {s : Settings} {notes : List Note}
    (h : build shownPath {} values = .ok (s, notes)) :
    ofValues (named (acceptedAlone values)) = .ok s := by
  have hall : ∀ f v, (named (acceptedAlone values)).lookup f.name.toList = some v →
      ¬Refused f v := by
    intro f v hv
    rw [lookup_named, lookup_acceptedAlone hkeys, Option.filter_eq_some_iff, toOption_alone] at hv
    rw [not_refused_iff]
    cases hset : setField {} f v with
    | ok t => exact ⟨t, rfl⟩
    | error ps => simp [hset, Except.toOption] at hv
  obtain ⟨t, ht⟩ := (exists_ofValues_iff _).mpr hall
  obtain rfl : t = s := by
    refine eq_of_agree fun f => ?_
    have hown := agree_build_alone hkeys h f
    have htogether := agree_ofValues ht f
    rw [lookup_named, lookup_acceptedAlone hkeys] at htogether
    have hsame : ((values.lookup f).filter fun v => (alone f v).toOption.isSome).bind
        (fun v => (setField {} f v).toOption) = (values.lookup f).bind fun v =>
        (alone f v).toOption := by
      cases values.lookup f with
      | none => rfl
      | some v =>
        cases hset : (setField {} f v).toOption <;> simp [Option.filter, toOption_alone, hset]
    rw [hsame] at htogether
    exact htogether.trans hown.symm
  exact ht

/-! ## Settings however they come about -/

theorem Sound.build {shownPath : String} {s s' : Settings} {values : FieldValues}
    {notes : List Note} (hs : s.Sound) (h : build shownPath s values = .ok (s', notes)) :
    s'.Sound := by
  induction values generalizing s notes with
  | nil =>
    cases h
    exact hs
  | cons p rest ih =>
    obtain ⟨f, v⟩ := p
    unfold Settings.build at h
    split at h
    · next s₁ hset => exact ih (hs.setField hset) h
    · split at h
      · obtain ⟨r, hr, h⟩ := bind_eq_ok h
        cases h
        exact ih hs hr
      · cases h

/-- The indentation of a source, which is not checked, keeps settings sound. -/
theorem Sound.resolveIndent {s : Settings} (hs : s.Sound) (source : Text) :
    (s.resolveIndent source).Sound := by
  unfold Settings.resolveIndent
  split
  · exact hs
  · refine { hs with indentSize := fun n hn => ?_ }
    obtain rfl := Option.some.inj hn
    cases hsize : s.indentSize with
    | some n => exact hs.indentSize n hsize
    | none =>
      have hmem : (IndentStyle.detect source).kind = .spaces →
          (IndentStyle.detect source).size ∈ [2, 3, 4, 8] := by
        unfold IndentStyle.detect IndentStyle.ofLeads
        simp only
        split
        · exact fun h => nomatch h
        · exact fun _ => IndentStyle.sizeOf_mem _
      rw [Option.getD_none]
      split
      · next hspaces =>
        have := hmem (by simpa using hspaces)
        simp only [List.mem_cons, List.not_mem_nil, or_false] at this
        omega
      · decide

/-- Settings that a run can get: checked values, values of which the refused ones are left out, or
one of these with the indentation of a source filled in. -/
inductive Obtained : Settings → Prop where
  | checked {entries : List (Text × Value)} {s : Settings} (h : ofValues entries = .ok s) :
    Obtained s
  | built {shownPath : String} {values : FieldValues} {s : Settings} {notes : List Note}
      (h : build shownPath {} values = .ok (s, notes)) : Obtained s
  | resolved {s : Settings} (h : Obtained s) (source : Text) : Obtained (s.resolveIndent source)

theorem Obtained.sound {s : Settings} (h : Obtained s) : s.Sound := by
  induction h with
  | checked h => exact Accepted.sound ⟨_, h⟩
  | built h => exact sound_default.build h
  | resolved _ source ih => exact ih.resolveIndent source

/-- However settings come about, they are sound. Values for different fields give settings unless
one that is refused cannot be shown. What they give is what those accepted alone give together, and
each field is as its own value has it alone, or the default. -/
theorem sound_and_built_field_by_field (shownPath : String) (values : FieldValues)
    (hkeys : (values.map Prod.fst).Nodup) :
    (∀ s, Obtained s → s.Sound) ∧
    ((∃ r, build shownPath {} values = .ok r) ↔
      ∀ p ∈ values, (alone p.1 p.2).toOption = none → p.2.isShowable = true) ∧
    ∀ s notes, build shownPath {} values = .ok (s, notes) →
      ofValues (named (acceptedAlone values)) = .ok s ∧
      ∀ f, Agree f s (((values.lookup f).bind fun v => (alone f v).toOption).getD {}) := by
  refine ⟨fun s => Obtained.sound, ?_, fun s notes h =>
    ⟨ofValues_acceptedAlone hkeys h, agree_build_alone hkeys h⟩⟩
  have hrefused : ∀ p : Field × Value, (alone p.1 p.2).toOption = none ↔ Refused p.1 p.2 := by
    intro p
    rw [toOption_alone]
    cases hset : setField {} p.1 p.2 <;> simp [Refused, hset, Except.toOption]
  simp only [exists_build_iff, hrefused]

/-- A width, a size that is out of range and a fill: the size is left out. -/
theorem sound_and_built_field_by_field_refused_size :
    ∃ s notes, build "p" {}
      [(.columnWidth, .int 40), (.indentSize, .int 9), (.headerChar, .text ['-'])] =
        .ok (s, notes) ∧ (s.resolveIndent "  x".toList).Sound ∧
      s.columnWidth = 40 ∧ s.indentSize = none ∧ s.headerChar = '-' := by
  obtain ⟨hsound, hbuild, hfields⟩ := sound_and_built_field_by_field "p"
    [(.columnWidth, .int 40), (.indentSize, .int 9), (.headerChar, .text ['-'])] (by decide)
  obtain ⟨⟨s, notes⟩, h⟩ := hbuild.mpr (by decide +kernel)
  obtain ⟨-, hfields⟩ := hfields s notes h
  exact ⟨s, notes, h, hsound _ (.resolved (.built h) _), hfields .columnWidth, hfields .indentSize,
    hfields .headerChar⟩

/-- A size of more digits than a warning can show is refused, and no settings are built at all. -/
theorem build_huge_size :
    (alone .indentSize (.int (Nat.pow 16 3600))).toOption = none ∧
      build "p" {} [(.indentSize, .int (Nat.pow 16 3600))] = .error .hugeNumber := by
  have hsize : (Nat.pow 16 3600 : Int) > 8 := by decide +kernel
  have hshow : (Value.int (Nat.pow 16 3600)).isShowable = false := by decide +kernel
  generalize (Nat.pow 16 3600 : Int) = i at hsize hshow
  have hset : setField {} .indentSize (.int i) =
      .error [⟨[.field "indent_size"], .notAtMost 8⟩] := by
    have hcheck : checkIndentSize (.int i) = .error (.notAtMost 8) := if_pos hsize
    rw [setField, hcheck]
    rfl
  constructor
  · rw [toOption_alone, hset]
    rfl
  · rw [build, hset]
    simp [hshow]

end SourceLayout.Settings
