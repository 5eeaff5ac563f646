import SourceLayout.Proofs.Accepted
import SourceLayout.Proofs.Files.Tree
import SourceLayout.Proofs.Lines
import SourceLayout.Settings.Load

/-! When settings can be loaded, and what is loaded. The values in a file are checked one by
one: each sets its own field or leaves it, so a field depends on its own values only. A settings
file never keeps a run from its settings. A project file does if it is not text, if it has a
number of too many digits, or if a value that is gone through on the way to the settings is of
another kind than expected. -/

namespace SourceLayout
open Text

namespace Settings

/-! ## Field by field -/

def Agree (f : Field) (s t : Settings) : Prop :=
  match f with
  | .headerChar => s.headerChar = t.headerChar
  | .columnWidth => s.columnWidth = t.columnWidth
  | .indentKind => s.indentKind = t.indentKind
  | .indentSize => s.indentSize = t.indentSize
  | .expandMethods => s.expandMethods = t.expandMethods
  | .reflowImports => s.reflowImports = t.reflowImports
  | .groups => s.groups = t.groups

namespace Agree

variable {f : Field} {s t u : Settings}

theorem refl (f : Field) (s : Settings) : Agree f s s := by cases f <;> rfl

theorem symm (h : Agree f s t) : Agree f t s := by
  cases f <;> exact Eq.symm h

theorem trans (h : Agree f s t) (h' : Agree f t u) : Agree f s u := by
  cases f <;> exact Eq.trans h h'

end Agree

/-- An accepted value is accepted whatever the other fields are, and sets its own field only. -/
theorem setField_ok {s s' : Settings} {f : Field} {v : Value} (h : setField s f v = .ok s')
    (t : Settings) :
    (∃ t', setField t f v = .ok t' ∧ Agree f s' t') ∧ ∀ g, g ≠ f → Agree g s' s := by
  cases f with
  | _ =>
    obtain ⟨a, ha, h⟩ := bind_eq_ok h
    cases h
    constructor
    · rw [setField, ha]
      exact ⟨_, rfl, rfl⟩
    · intro g hg
      cases g <;> first | exact absurd rfl hg | rfl

/-- A value is refused whatever the other fields are. -/
theorem setField_error {s : Settings} {f : Field} {v : Value} {ps : List Problem}
    (h : setField s f v = .error ps) (t : Settings) : ∃ qs, setField t f v = .error qs := by
  cases ht : setField t f v with
  | error qs => exact ⟨qs, rfl⟩
  | ok t' =>
    obtain ⟨⟨s', hs', -⟩, -⟩ := setField_ok ht s
    rw [h] at hs'
    cases hs'

def Refused (f : Field) (v : Value) : Prop := ∃ ps, setField {} f v = .error ps

/-- The values for a field that are accepted, in order, each in settings that
have defaults otherwise. -/
def acceptedFor (f : Field) (values : FieldValues) : List Settings :=
  values.filterMap fun p => if p.1 = f then (setField {} f p.2).toOption else none

/-- A field has the last of its values that is accepted, or what it had before. -/
theorem agree_build {shownPath : String} {f : Field} {s s' t : Settings} {values : FieldValues}
    {notes : List Note} (h : build shownPath s values = .ok (s', notes)) (hs : Agree f s t) :
    Agree f s' ((acceptedFor f values).getLast?.getD t) := by
  induction values generalizing s t notes with
  | nil =>
    cases h
    exact hs
  | cons p rest ih =>
    obtain ⟨g, v⟩ := p
    unfold build at h
    split at h
    · next s₁ hset =>
      obtain ⟨⟨t₁, ht₁, hown⟩, hother⟩ := setField_ok hset {}
      by_cases hg : g = f
      · subst hg
        have hfirst : acceptedFor g ((g, v) :: rest) = t₁ :: acceptedFor g rest := by
          simp [acceptedFor, ht₁, Except.toOption]
        rw [hfirst, List.getLast?_cons]
        exact ih h hown
      · have hskip : acceptedFor f ((g, v) :: rest) = acceptedFor f rest := by
          simp [acceptedFor, hg]
        rw [hskip]
        exact ih h ((hother f fun hf => hg hf.symm).trans hs)
    · next ps hset =>
      obtain ⟨qs, hqs⟩ := setField_error hset {}
      have hskip : acceptedFor f ((g, v) :: rest) = acceptedFor f rest := by
        by_cases hg : g = f
        · subst hg
          simp [acceptedFor, hqs, Except.toOption]
        · simp [acceptedFor, hg]
      split at h
      · obtain ⟨r, hr, h⟩ := bind_eq_ok h
        cases h
        rw [hskip]
        exact ih hr hs
      · cases h

/-- Values give settings if and only if each that is refused can be shown. -/
theorem exists_build_iff (shownPath : String) (s : Settings) (values : FieldValues) :
    (∃ r, build shownPath s values = .ok r) ↔
      ∀ p ∈ values, Refused p.1 p.2 → p.2.isShowable = true := by
  induction values generalizing s with
  | nil => simp [build]
  | cons p rest ih =>
    obtain ⟨f, v⟩ := p
    rw [List.forall_mem_cons]
    unfold build
    split
    · next s₁ hset =>
      have haccepted : ¬Refused f v := by
        rintro ⟨ps, hps⟩
        obtain ⟨⟨t, ht, -⟩, -⟩ := setField_ok hset {}
        rw [hps] at ht
        cases ht
      rw [ih s₁]
      exact (and_iff_right fun h => absurd h haccepted).symm
    · next ps hset =>
      have hrefused : Refused f v := setField_error hset {}
      rw [← ih s]
      split
      · next hshow =>
        constructor
        · rintro ⟨r, hr⟩
          obtain ⟨a, ha, -⟩ := bind_eq_ok hr
          exact ⟨fun _ => hshow, a, ha⟩
        · rintro ⟨-, r, hr⟩
          rw [hr]
          exact ⟨_, rfl⟩
      · next hshow =>
        refine iff_of_false ?_ fun h => hshow (h.1 hrefused)
        rintro ⟨r, hr⟩
        cases hr

/-! ## Settings files -/

theorem showable_groupValue (name : Text) (ts : List Text) :
    (groupValue name (ts.map Value.text)).isShowable = true := by
  have hts : Value.areShowable (ts.map Value.text) = true := by
    induction ts with
    | nil => rfl
    | cons t ts ih => rw [List.map_cons, Value.areShowable, ih]; rfl
  simp [groupValue, Value.isShowable, Value.entriesShowable, hts]

theorem showable_putValue {f : Field} {v : Value} (hv : v.isShowable = true) {values : FieldValues}
    (h : ∀ p ∈ values, p.2.isShowable = true) :
    ∀ p ∈ putValue f v values, p.2.isShowable = true := by
  induction values with
  | nil => simpa [putValue] using hv
  | cons p rest ih =>
    obtain ⟨hp, hrest⟩ := List.forall_mem_cons.mp h
    rw [putValue]
    split
    · exact List.forall_mem_cons.mpr ⟨hv, hrest⟩
    · exact List.forall_mem_cons.mpr ⟨hp, ih hrest⟩

theorem showable_optionValues {done : FieldValues} (h : ∀ p ∈ done, p.2.isShowable = true)
    (options : List (Text × Text)) :
    ∀ p ∈ (optionValues done options).1, p.2.isShowable = true := by
  induction options generalizing done with
  | nil => exact h
  | cons o rest ih =>
    rw [optionValues]
    split
    · exact ih (showable_putValue rfl h)
    · exact ih h

/-- The values in a settings file are texts and lists of groups of texts, which can be shown. -/
theorem showable_sectionValues (sections : List Ini.Section) :
    ∀ p ∈ (sectionValues sections).1, p.2.isShowable = true := by
  have hoptions := @showable_optionValues [] (by simp)
    ((sections.filter fun s => s.name == Ini.firstName).flatMap (·.options))
  have hgroup : ∀ name value, (optionGroup name value).isShowable = true :=
    fun name value => showable_groupValue name _
  have hgroups : ∀ items : List (Text × Text),
      Value.areShowable (items.map fun item => optionGroup item.1 item.2) = true := by
    intro items
    induction items with
    | nil => rfl
    | cons o rest ih =>
      simp only [List.map_cons, Value.areShowable, ih, hgroup, Bool.and_self]
  simp only [sectionValues]
  split
  · exact hoptions
  · refine List.forall_mem_append.mpr ⟨hoptions, ?_⟩
    rw [List.forall_mem_singleton, ← List.map_flatMap]
    exact hgroups _

/-! ## Project files -/

end Settings

namespace Value

/-- A value in which a word is found: a table with that key, a list with that
text, or a longer text. -/
inductive Mentions (w : Text) : Value → Prop where
  | key {entries : List (Text × Value)} (v : Value) (h : (w, v) ∈ entries) :
    Mentions w (.table entries)
  | item {items : List Value} (h : .text w ∈ items) : Mentions w (.list items)
  | part {t : Text} (h : w <:+: t) : Mentions w (.text t)

def IsPlain (v : Value) : Prop := (∀ items, v ≠ .list items) ∧ ∀ entries, v ≠ .table entries

/-- A value with two members, the first of which can be a key. -/
def IsPair (v : Value) : Prop := ∃ k w, v.members? = some [k, w] ∧ k.IsPlain

/-- A value that entries can be made of. -/
inductive IsEntries : Value → Prop where
  | table (entries : List (Text × Value)) : IsEntries (.table entries)
  | pairs {items : List Value} (h : ∀ v ∈ items, v.IsPair) : IsEntries (.list items)
  | empty : IsEntries (.text [])

end Value

namespace Settings

theorem mentionsTool_eq_ok {v : Value} {b : Bool} :
    mentionsTool (some v) = .ok b ↔ v.members?.isSome = true ∧
    (b = true ↔ v.Mentions toolName) := by
  have hiff : ∀ {c : Bool} {p : Prop}, (c = true ↔ p) → (c = b ↔ (b = true ↔ p)) := by
    intro c p h
    rw [← h, Bool.eq_iff_iff]
    exact iff_comm
  cases v with
  | table entries =>
    simp only [mentionsTool, Except.ok.injEq, Value.members?, Option.isSome_some, true_and]
    refine hiff ?_
    rw [List.any_eq_true]
    constructor
    · rintro ⟨⟨k, v⟩, hmem, hk⟩
      obtain rfl : k = toolName := by simpa using hk
      exact .key v hmem
    · rintro ⟨v, hmem⟩
      exact ⟨_, hmem, by simp⟩
  | list items =>
    simp only [mentionsTool, Except.ok.injEq, Value.members?, Option.isSome_some, true_and]
    refine hiff ?_
    rw [List.any_eq_true]
    constructor
    · rintro ⟨v, hmem, hv⟩
      split at hv
      · next t =>
        obtain rfl : t = toolName := by simpa using hv
        exact .item hmem
      · cases hv
    · intro h
      cases h with
      | item hmem => exact ⟨_, hmem, by simp⟩
  | text t =>
    simp only [mentionsTool, Except.ok.injEq, Value.members?, Option.isSome_some, true_and]
    refine hiff ?_
    rw [occursIn_iff]
    constructor
    · exact .part
    · intro h
      cases h with
      | part h => exact h
  | _ => simp [mentionsTool, Value.members?]

theorem exists_pair_iff {v : Value} :
    (∃ k w, pair v = .ok (k, w) ∧ ∃ n, nameOf k = .ok n) ↔ v.IsPair := by
  have hpair : ∀ k w, pair v = .ok (k, w) ↔ v.members? = some [k, w] := by
    intro k w
    unfold pair
    split
    · next h => simp [h]
    · next ms hother h =>
      rw [h]
      refine iff_of_false (fun h => nomatch h) fun h => ?_
      exact hother k w (Option.some.inj h)
    · next h => simp [h]
  have hname : ∀ k, (∃ n, nameOf k = .ok n) ↔ k.IsPlain := by
    intro k
    cases k <;> simp [nameOf, Value.IsPlain]
  simp only [hpair, hname, Value.IsPair]

theorem exists_pairEntries_iff {done : List (Text × Value)} {items : List Value} :
    (∃ own, pairEntries done items = .ok own) ↔ ∀ v ∈ items, v.IsPair := by
  induction items generalizing done with
  | nil => simp [pairEntries]
  | cons v rest ih =>
    rw [List.forall_mem_cons, ← exists_pair_iff, pairEntries]
    constructor
    · rintro ⟨own, h⟩
      obtain ⟨⟨k, w⟩, hpair, h⟩ := bind_eq_ok h
      obtain ⟨n, hname, h⟩ := bind_eq_ok h
      refine ⟨⟨k, w, hpair, n, hname⟩, ?_⟩
      split at h
      · exact ih.mp ⟨own, h⟩
      · split at h
        · exact ih.mp ⟨own, h⟩
        · exact ih.mp ⟨own, h⟩
    · rintro ⟨⟨k, w, hpair, n, hname⟩, hrest⟩
      simp only [hpair, hname, bind, Except.bind]
      split
      · exact ih.mpr hrest
      · split
        · exact ih.mpr hrest
        · exact ih.mpr hrest

theorem exists_toolEntries_iff {tools : Option Value} :
    (∃ own, toolEntries tools = .ok own) ↔
      ∀ v, tools = some v → ∃ entries, v = .table entries ∧
        ∀ own, entries.lookup toolName = some own → own.IsEntries := by
  have hown : ∀ entries : List (Text × Value),
    (∃ own, toolEntries (some (.table entries)) = .ok own) ↔
      ∀ own, entries.lookup toolName = some own → own.IsEntries := by
    intro entries
    rw [toolEntries]
    cases hlookup : entries.lookup toolName with
    | none => simp
    | some v =>
      simp only [Option.some.injEq, forall_eq']
      cases v with
      | table own => exact iff_of_true ⟨own, rfl⟩ (.table own)
      | list items =>
        rw [exists_pairEntries_iff]
        exact ⟨.pairs, fun h => by cases h with | pairs h => exact h⟩
      | text t =>
        cases t with
        | nil => exact iff_of_true ⟨[], rfl⟩ .empty
        | cons c t => exact iff_of_false (fun ⟨_, h⟩ => nomatch h) (fun h => nomatch h)
      | _ => exact iff_of_false (fun ⟨_, h⟩ => nomatch h) (fun h => nomatch h)
  cases tools with
  | none => simp [toolEntries]
  | some v =>
    cases v with
    | table entries => simp [hown]
    | _ => simp [toolEntries]

theorem exists_mapM_iff {α β ε : Type} {f : α → Except ε β} {l : List α} :
    (∃ r, l.mapM f = .ok r) ↔ ∀ a ∈ l, ∃ b, f a = .ok b := by
  induction l with
  | nil => simp [pure, Except.pure]
  | cons a l ih =>
    rw [List.forall_mem_cons, ← ih, List.mapM_cons]
    constructor
    · rintro ⟨r, h⟩
      obtain ⟨b, hb, h⟩ := bind_eq_ok h
      obtain ⟨bs, hbs, h⟩ := bind_eq_ok h
      exact ⟨⟨b, hb⟩, bs, hbs⟩
    · rintro ⟨⟨b, hb⟩, bs, hbs⟩
      exact ⟨b :: bs, by rw [hb, hbs]; rfl⟩

theorem exists_tableValues_iff {own : List (Text × Value)} :
    (∃ values, tableValues own = .ok values) ↔
      ∀ groups, own.lookup "groups".toList = some (.table groups) → ∀ p ∈ groups,
      p.2.members?.isSome = true := by
  have hmatchers : ∀ v, (∃ items, matcherItems v = .ok items) ↔ v.members?.isSome = true := by
    intro v
    unfold matcherItems
    cases v.members? <;> simp
  have hgroup : ∀ p : Text × Value,
    (∃ b, (do return groupValue p.1 (← matcherItems p.2)) = Except.ok b) ↔
      p.2.members?.isSome = true := by
    intro p
    rw [← hmatchers]
    constructor
    · rintro ⟨b, h⟩
      obtain ⟨items, hitems, -⟩ := bind_eq_ok h
      exact ⟨items, hitems⟩
    · rintro ⟨items, hitems⟩
      rw [hitems]
      exact ⟨_, rfl⟩
  unfold tableValues
  split
  · next groups hlookup =>
    simp only [hlookup, Option.some.injEq, Value.table.injEq, forall_eq']
    split
    · next hempty =>
      rw [List.isEmpty_iff.mp hempty]
      exact iff_of_true ⟨_, rfl⟩ fun _ h => nomatch h
    · rw [← forall₂_congr fun p _ => hgroup p, ← exists_mapM_iff]
      constructor
      · rintro ⟨values, h⟩
        obtain ⟨r, hr, -⟩ := bind_eq_ok h
        exact ⟨r, hr⟩
      · rintro ⟨r, hr⟩
        rw [hr]
        exact ⟨_, rfl⟩
  · next hother =>
    refine iff_of_true ⟨_, rfl⟩ fun groups hlookup => ?_
    exact absurd hlookup (hother groups)

/-! ## Documents -/

/-- A document that settings can be taken from: the entry for tools has members, the one of
this program in it stands for entries, every group has members as its matchers, and a
refused value can be shown. -/
structure Fit (doc : List (Text × Value)) : Prop where
  tools : ∀ v, tools? doc = some v → v.members?.isSome = true
  own : ∀ v, tools? doc = some v → v.Mentions toolName →
    ∃ entries, v = .table entries ∧ ∀ own, entries.lookup toolName = some own → own.IsEntries
  groups : ∀ own groups, toolEntries (tools? doc) = .ok own →
    own.lookup "groups".toList = some (.table groups) → ∀ p ∈ groups, p.2.members?.isSome = true
  shown : ∀ own values, toolEntries (tools? doc) = .ok own → tableValues own = .ok values →
    ∀ p ∈ values, Refused p.1 p.2 → p.2.isShowable = true

/-- The bytes are text in which every number can be read. -/
def Legible (bytes : Bytes) : Prop :=
  ∃ t, decodeText? bytes = some t ∧ Toml.read t ≠ .error .hugeNumber

def IsDocument (bytes : Bytes) (doc : List (Text × Value)) : Prop :=
  ∃ t, decodeText? bytes = some t ∧ Toml.read t = .ok doc

/-- No document at the path mentions this program. -/
def Silent (tree : FileTree) (p : Path) : Prop :=
  ∀ bytes, tree.readBytes p = .ok bytes → ∀ doc, IsDocument bytes doc →
    ∀ v, tools? doc = some v → ¬v.Mentions toolName

/-- Nothing in a file at the path keeps its settings from being taken. -/
def FitFile (tree : FileTree) (p : Path) : Prop :=
  ∀ bytes, tree.readBytes p = .ok bytes → Legible bytes ∧ ∀ doc, IsDocument bytes doc → Fit doc

/-- The project files that a search along directories looks into: the first, and others if those
before them are silent. -/
inductive Asked (tree : FileTree) : List Path → Path → Prop where
  | here (dir : Path) (rest : List Path) : Asked tree (dir :: rest) (dir.child projectFileName)
  | beyond {dir : Path} {rest : List Path} {p : Path} (h : Silent tree (dir.child projectFileName))
      (hp : Asked tree rest p) : Asked tree (dir :: rest) p

/-- Nothing in a file at the path keeps a search from going through it. -/
def Searchable (tree : FileTree) (p : Path) : Prop :=
  ∀ bytes, tree.readBytes p = .ok bytes → Legible bytes ∧ ∀ doc, IsDocument bytes doc →
    ∀ v, tools? doc = some v → v.members?.isSome = true

section

variable {tree : FileTree} {p : Path}

theorem hasFile_iff : tree.hasFile p = true ↔ ∃ bytes, tree.readBytes p = .ok bytes := by
  rw [FileTree.hasFile, FileTree.readBytes]
  cases tree.entry p with
  | error e => simp [Except.toOption, bind, Except.bind]
  | ok e => cases e <;> simp [Except.toOption, bind, Except.bind, Entry.isFile]

theorem IsDocument.unique {bytes : Bytes} {doc doc' : List (Text × Value)}
    (h : IsDocument bytes doc) (h' : IsDocument bytes doc') : doc = doc' := by
  obtain ⟨t, ht, hdoc⟩ := h
  obtain ⟨t', ht', hdoc'⟩ := h'
  obtain rfl := Option.some.inj (ht.symm.trans ht')
  exact Except.ok.inj (hdoc.symm.trans hdoc')

theorem projectEntries?_spec {bytes : Bytes} (hb : tree.readBytes p = .ok bytes) :
    (¬Legible bytes ∧ ∃ why, projectEntries? tree p = .error why) ∨
      Legible bytes ∧ ∃ r, projectEntries? tree p = .ok r ∧ ∀ doc, IsDocument bytes doc ↔
        r = some doc := by
  simp only [projectEntries?, hb, Legible, IsDocument]
  cases decodeText? bytes with
  | none => simp
  | some t =>
    simp only [Option.some.injEq, exists_eq_left']
    cases Toml.read t with
    | ok doc => simp
    | error e => cases e <;> simp

theorem projectEntries?_of_document {bytes : Bytes} (hb : tree.readBytes p = .ok bytes)
    {doc : List (Text × Value)} (hdoc : IsDocument bytes doc) :
    projectEntries? tree p = .ok (some doc) := by
  obtain ⟨t, ht, hread⟩ := hdoc
  simp only [projectEntries?, hb, ht, hread]

/-- Whether a project file mentions this program can be told if and only if the
search can go through it. -/
theorem hasToolTable_eq_ok {bytes : Bytes} (hb : tree.readBytes p = .ok bytes) {b : Bool} :
    hasToolTable tree p = .ok b ↔ Searchable tree p ∧ (b = true ↔ ¬Silent tree p) := by
  simp only [Searchable, Silent, hb, Except.ok.injEq, forall_eq']
  rcases projectEntries?_spec hb with ⟨hlegible, why, hr⟩ | ⟨hlegible, r, hr, hdoc⟩
  · refine iff_of_false ?_ fun h => hlegible h.1.1
    rw [hasToolTable, hr]
    exact fun h => nomatch h
  · simp only [hasToolTable, hr, hdoc, hlegible, true_and, bind, Except.bind]
    cases r with
    | none => cases b <;> simp [pure, Except.pure]
    | some doc =>
      simp only [Option.some.injEq, forall_eq']
      cases htools : tools? doc with
      | none => cases b <;> simp [mentionsTool]
      | some v => simp [mentionsTool_eq_ok]

theorem FitFile.searchable (h : FitFile tree p) : Searchable tree p := by
  intro bytes hb
  obtain ⟨hlegible, hfit⟩ := h bytes hb
  exact ⟨hlegible, fun doc hdoc => (hfit doc hdoc).tools⟩

theorem toolEntries_of_not_mentions {tools : Option Value} {own : List (Text × Value)}
    (h : ∀ v, tools = some v → ¬v.Mentions toolName) (hown : toolEntries tools = .ok own) :
    own = [] := by
  cases tools with
  | none =>
    cases hown
    rfl
  | some v =>
    obtain ⟨entries, rfl, -⟩ := exists_toolEntries_iff.mp ⟨own, hown⟩ v rfl
    cases hlookup : entries.lookup toolName with
    | none =>
      rw [toolEntries, hlookup] at hown
      cases hown
      rfl
    | some w =>
      obtain ⟨before, after, rfl, -⟩ := List.lookup_eq_some_iff.mp hlookup
      exact absurd (.key w (by simp)) (h _ rfl)

theorem Silent.fitFile (hs : Searchable tree p) (h : Silent tree p) : FitFile tree p := by
  intro bytes hb
  obtain ⟨hlegible, htools⟩ := hs bytes hb
  refine ⟨hlegible, fun doc hdoc => ?_⟩
  have hnot := h bytes hb doc hdoc
  refine ⟨htools doc hdoc, fun v hv hm => absurd hm (hnot v hv), ?_, ?_⟩
  · intro own groups hown hgroups
    rw [toolEntries_of_not_mentions hnot hown] at hgroups
    cases hgroups
  · intro own values hown hvalues
    rw [toolEntries_of_not_mentions hnot hown] at hvalues
    cases hvalues
    exact fun p hp => nomatch hp

/-- Settings can be taken from a document that mentions this program if and only if it is fit. -/
theorem exists_values_iff {doc : List (Text × Value)} {v : Value} (hv : tools? doc = some v)
    (hmembers : v.members?.isSome = true) (hmentions : v.Mentions toolName) (shown : String) :
    (∃ own values r, toolEntries (tools? doc) = .ok own ∧ tableValues own = .ok values ∧
      build shown {} values = .ok r) ↔ Fit doc := by
  constructor
  · rintro ⟨own, values, r, hown, hvalues, hr⟩
    have htable := exists_toolEntries_iff.mp ⟨own, hown⟩
    refine ⟨?_, fun v hv _ => htable v hv, ?_, ?_⟩
    · rw [hv]
      rintro _ ⟨⟩
      exact hmembers
    · rw [hown]
      rintro _ groups ⟨⟩
      exact exists_tableValues_iff.mp ⟨values, hvalues⟩ groups
    · rw [hown]
      rintro _ values' ⟨⟩ hvalues'
      rw [hvalues] at hvalues'
      cases hvalues'
      exact (exists_build_iff shown {} values).mp ⟨r, hr⟩
  · intro h
    obtain ⟨own, hown⟩ : ∃ own, toolEntries (tools? doc) = .ok own := by
      refine exists_toolEntries_iff.mpr fun w hw => h.own w hw ?_
      rw [hv] at hw
      cases hw
      exact hmentions
    obtain ⟨values, hvalues⟩ := exists_tableValues_iff.mpr fun groups => h.groups own groups hown
    obtain ⟨r, hr⟩ := (exists_build_iff shown {} values).mpr (h.shown own values hown hvalues)
    exact ⟨own, values, r, hown, hvalues, hr⟩

theorem document_of_not_silent {bytes : Bytes} (hb : tree.readBytes p = .ok bytes)
    (h : ¬Silent tree p) :
    ∃ doc v, IsDocument bytes doc ∧ tools? doc = some v ∧ v.Mentions toolName := by
  simp only [Silent, hb, Except.ok.injEq, forall_eq'] at h
  push Not at h
  obtain ⟨doc, hdoc, v, h⟩ := h
  exact ⟨doc, v, hdoc, h⟩

theorem readValues_project {doc : List (Text × Value)} (hname : p.name = projectFileName)
    (hr : projectEntries? tree p = .ok (some doc)) :
    readValues tree p = (do
      let own ← toolEntries (tools? doc)
      let values ← tableValues own
      return some (values, [])) := by
  rw [readValues, if_pos (by simpa using hname), hr]
  rfl

theorem exists_loadFile_project {bytes : Bytes} (hb : tree.readBytes p = .ok bytes)
    (hname : p.name = projectFileName) (hs : Searchable tree p) (h : ¬Silent tree p) :
    (∃ r, loadFile tree p = .ok r) ↔ FitFile tree p := by
  obtain ⟨doc, v, hdoc, hv, hmentions⟩ := document_of_not_silent hb h
  obtain ⟨hlegible, hmembers⟩ := hs bytes hb
  have hfit : FitFile tree p ↔ Fit doc := by
    simp only [FitFile, hb, Except.ok.injEq, forall_eq', hlegible, true_and]
    exact ⟨fun h => h doc hdoc, fun h doc' hdoc' => hdoc.unique hdoc' ▸ h⟩
  rw [hfit, ← exists_values_iff hv (hmembers doc hdoc v hv) hmentions p.render, loadFile,
    readValues_project hname (projectEntries?_of_document hb hdoc)]
  constructor
  · rintro ⟨r, h⟩
    obtain ⟨read, hread, h⟩ := bind_eq_ok h
    obtain ⟨own, hown, hread⟩ := bind_eq_ok hread
    obtain ⟨values, hvalues, hread⟩ := bind_eq_ok hread
    cases hread
    obtain ⟨built, hbuilt, -⟩ := bind_eq_ok h
    exact ⟨own, values, built, hown, hvalues, hbuilt⟩
  · rintro ⟨own, values, ⟨s, notes⟩, hown, hvalues, hbuilt⟩
    simp [hown, hvalues, hbuilt, bind, Except.bind, pure, Except.pure]

/-- A settings file always gives settings. -/
theorem exists_loadFile_settings (hname : p.name ≠ projectFileName) :
    ∃ r, loadFile tree p = .ok r := by
  rw [loadFile, readValues, if_neg (by simpa using hname)]
  cases readSections? tree p with
  | none => exact ⟨_, rfl⟩
  | some sections =>
    obtain ⟨r, hr⟩ := (exists_build_iff p.render {} (sectionValues sections).1).mpr
      fun v hv _ => showable_sectionValues sections v hv
    simp [hr, bind, Except.bind, pure, Except.pure]

/-- A search along directories ends with settings if and only if all project files that
it looks into are fit. -/
theorem exists_loadFound_iff (dirs : List Path) :
    (∃ r, findProject? tree dirs >>= loadFound tree = .ok r) ↔
      ∀ p, Asked tree dirs p → FitFile tree p := by
  induction dirs with
  | nil => exact iff_of_true ⟨_, rfl⟩ fun p h => nomatch h
  | cons dir rest ih =>
    have hasked : (∀ p, Asked tree (dir :: rest) p → FitFile tree p) ↔
        FitFile tree (dir.child projectFileName) ∧
          (Silent tree (dir.child projectFileName) → ∀ p, Asked tree rest p → FitFile tree p) := by
      constructor
      · intro h
        exact ⟨h _ (.here dir rest), fun hs p hp => h p (.beyond hs hp)⟩
      · rintro ⟨hfirst, hrest⟩ p (_ | ⟨hs, hp⟩)
        · exact hfirst
        · exact hrest hs p hp
    rw [hasked, ← ih, findProject?]
    cases hfile : tree.hasFile (dir.child projectFileName) with
    | false =>
      have hnone : ∀ bytes, tree.readBytes (dir.child projectFileName) ≠ .ok bytes :=
        fun bytes hb => absurd (hasFile_iff.mpr ⟨bytes, hb⟩) (by simp [hfile])
      have hfit : FitFile tree (dir.child projectFileName) :=
        fun bytes hb => absurd hb (hnone bytes)
      have hsilent : Silent tree (dir.child projectFileName) :=
        fun bytes hb => absurd hb (hnone bytes)
      simp [hfit, hsilent]
    | true =>
      obtain ⟨bytes, hb⟩ := hasFile_iff.mp hfile
      cases htable : hasToolTable tree (dir.child projectFileName) with
      | error why =>
        refine iff_of_false (fun ⟨_, h⟩ => nomatch h) fun ⟨hfit, _⟩ => ?_
        obtain ⟨b, hsilent⟩ : ∃ b : Bool, b = true ↔ ¬Silent tree (dir.child projectFileName) := by
          classical
          exact ⟨decide _, decide_eq_true_iff⟩
        have hok := (hasToolTable_eq_ok hb).mpr ⟨hfit.searchable, hsilent⟩
        rw [htable] at hok
        cases hok
      | ok b =>
        obtain ⟨hs, hsilent⟩ := (hasToolTable_eq_ok hb).mp htable
        cases b with
        | true =>
          have hmentioned := hsilent.mp rfl
          have hname : (dir.child projectFileName).name = projectFileName := by
            simp [Path.name, Path.child]
          rw [← exists_loadFile_project hb hname hs hmentioned]
          exact (and_iff_left fun h => absurd h hmentioned).symm
        | false =>
          have hsilent : Silent tree (dir.child projectFileName) := by
            simpa using hsilent
          exact ⟨fun h => ⟨hsilent.fitFile hs, fun _ => h⟩, fun h => h.2 hsilent⟩

/-- A search ends at a project file that mentions this program, past silent ones only. -/
theorem findProject?_eq_ok {dirs : List Path} {r : Option Path}
    (h : findProject? tree dirs = .ok r) :
    (r = none ∧ ∀ dir ∈ dirs, Silent tree (dir.child projectFileName)) ∨
      ∃ p bytes, r = some p ∧ p.name = projectFileName ∧ Asked tree dirs p ∧
        tree.readBytes p = .ok bytes ∧
        hasToolTable tree p = .ok true := by
  induction dirs with
  | nil =>
    cases h
    exact .inl ⟨rfl, fun dir hd => nomatch hd⟩
  | cons dir rest ih =>
    -- past a silent file the search is that of the directories above
    have hbeyond : Silent tree (dir.child projectFileName) → findProject? tree rest = .ok r →
        (r = none ∧ ∀ d ∈ dir :: rest, Silent tree (d.child projectFileName)) ∨
          ∃ p bytes, r = some p ∧ p.name = projectFileName ∧ Asked tree (dir :: rest) p ∧
            tree.readBytes p = .ok bytes ∧ hasToolTable tree p = .ok true := by
      intro hs h
      rcases ih h with ⟨hr, hrest⟩ | ⟨p, bytes, hr, hname, hasked, hfile⟩
      · exact .inl ⟨hr, List.forall_mem_cons.mpr ⟨hs, hrest⟩⟩
      · exact .inr ⟨p, bytes, hr, hname, .beyond hs hasked, hfile⟩
    rw [findProject?] at h
    split at h
    · next hfile =>
      obtain ⟨bytes, hb⟩ := hasFile_iff.mp hfile
      obtain ⟨b, htable, h⟩ := bind_eq_ok h
      cases b with
      | true =>
        cases h
        exact .inr ⟨_, bytes, rfl, by simp [Path.name, Path.child], .here dir rest, hb, htable⟩
      | false => exact hbeyond (by simpa using ((hasToolTable_eq_ok hb).mp htable).2) h
    · next hfile => exact hbeyond (fun bytes hb => absurd (hasFile_iff.mpr ⟨bytes, hb⟩) hfile) h

end

/-- A file that cannot be read gives defaults and a warning, and one that can gives
each field its own value. -/
theorem loadFile_eq_ok {tree : FileTree} {p : Path} {s : Settings} {notes : List Note}
    (h : loadFile tree p = .ok (s, notes)) :
    (readValues tree p = .ok none ∧ s = {} ∧ ∃ message, notes = [⟨.warning, .settings, message⟩]) ∨
      ∃ values read, readValues tree p = .ok (some (values, read)) ∧
        ∀ f, Agree f s ((acceptedFor f values).getLast?.getD {}) := by
  obtain ⟨r, hread, h⟩ := bind_eq_ok h
  cases r with
  | none =>
    cases h
    exact .inl ⟨hread, rfl, _, rfl⟩
  | some read =>
    obtain ⟨values, read⟩ := read
    obtain ⟨⟨s', warnings⟩, hbuild, h⟩ := bind_eq_ok h
    cases h
    exact .inr ⟨values, read, hread, fun f => agree_build hbuild (.refl f {})⟩

theorem readValues_settings (tree : FileTree) {p : Path} (hname : p.name ≠ projectFileName) :
    ∃ read : List Ini.Section → List Note, readValues tree p =
      .ok ((readSections? tree p).map fun sections =>
        ((sectionValues sections).1, read sections)) := by
  rw [readValues, if_neg (by simpa using hname)]
  exact ⟨_, rfl⟩

/-- The settings for `start` and what is noted: defaults if no file has any or the nearest
settings file cannot be read, and otherwise in each field the last of its values that is
accepted, or else its default. -/
inductive Loaded (tree : FileTree) (start : Path) : Settings → List Note → Prop where
  | nothing (hsettings : ∀ dir ∈ searchPath tree start, tree.hasFile (dir.child fileName) = false)
      (hsilent : ∀ dir ∈ searchPath tree start, Silent tree (dir.child projectFileName)) :
      Loaded tree start {} []
  | unreadable {p : Path}
      (hp : ((searchPath tree start).map (·.child fileName)).find? tree.hasFile = some p)
      (hread : readSections? tree p = none) (message : String) :
      Loaded tree start {} [⟨.warning, .settings, message⟩]
  | settings {p : Path} {sections : List Ini.Section} {s : Settings}
      (hp : ((searchPath tree start).map (·.child fileName)).find? tree.hasFile = some p)
      (hread : readSections? tree p = some sections)
      (hs : ∀ f, Agree f s ((acceptedFor f (sectionValues sections).1).getLast?.getD {}))
      (notes : List Note) : Loaded tree start s notes
  | project {p : Path} {bytes : Bytes} {doc own : List (Text × Value)} {values : FieldValues}
      {s : Settings}
      (hsettings : ∀ dir ∈ searchPath tree start, tree.hasFile (dir.child fileName) = false)
      (hp : Asked tree (searchPath tree start) p) (hb : tree.readBytes p = .ok bytes)
      (hdoc : IsDocument bytes doc) (hown : toolEntries (tools? doc) = .ok own)
      (hvalues : tableValues own = .ok values)
      (hs : ∀ f, Agree f s ((acceptedFor f values).getLast?.getD {})) (notes : List Note) :
      Loaded tree start s notes

theorem loaded_settings {tree : FileTree} {start p : Path} {s : Settings} {notes : List Note}
    (hp : ((searchPath tree start).map (·.child fileName)).find? tree.hasFile = some p)
    (hname : p.name ≠ projectFileName) (h : loadFile tree p = .ok (s, notes)) :
    Loaded tree start s notes := by
  obtain ⟨read, hread⟩ := readValues_settings tree hname
  rcases loadFile_eq_ok h with ⟨hnone, rfl, message, rfl⟩ | ⟨values, _, hsome, hs⟩
  · rw [hread] at hnone
    cases hsections : readSections? tree p with
    | none => exact .unreadable hp hsections message
    | some sections => simp [hsections] at hnone
  · rw [hread] at hsome
    cases hsections : readSections? tree p with
    | none => simp [hsections] at hsome
    | some sections =>
      simp only [hsections, Option.map_some, Except.ok.injEq, Option.some.injEq,
        Prod.mk.injEq] at hsome
      exact .settings hp hsections (hsome.1 ▸ hs) notes

theorem loaded_project {tree : FileTree} {start : Path} {s : Settings} {notes : List Note}
    (hsettings : ∀ dir ∈ searchPath tree start, tree.hasFile (dir.child fileName) = false)
    (h : findProject? tree (searchPath tree start) >>= loadFound tree = .ok (s, notes)) :
    Loaded tree start s notes := by
  obtain ⟨r, hr, h⟩ := bind_eq_ok h
  rcases findProject?_eq_ok hr with ⟨rfl, hsilent⟩ | ⟨p, bytes, rfl, hname, hasked, hb, htable⟩
  · cases h
    exact .nothing hsettings hsilent
  · obtain ⟨-, hmentioned⟩ := (hasToolTable_eq_ok hb).mp htable
    obtain ⟨doc, v, hdoc, -⟩ := document_of_not_silent hb (hmentioned.mp rfl)
    have hread := readValues_project hname (projectEntries?_of_document hb hdoc)
    rcases loadFile_eq_ok h with ⟨hnone, -⟩ | ⟨values, _, hsome, hs⟩
    · rw [hread] at hnone
      obtain ⟨own, -, hnone⟩ := bind_eq_ok hnone
      obtain ⟨values, -, hnone⟩ := bind_eq_ok hnone
      cases hnone
    · rw [hread] at hsome
      obtain ⟨own, hown, hsome⟩ := bind_eq_ok hsome
      obtain ⟨values, hvalues, hsome⟩ := bind_eq_ok hsome
      cases hsome
      exact .project hsettings hasked hb hdoc hown hvalues hs notes

/-- Settings are loaded as they should be, if and only if there is a settings file or all project
files that the search looks into are fit. -/
theorem load_spec (tree : FileTree) (start : Path) :
    ((∃ r, load tree start = .ok r) ↔
      (∃ dir ∈ searchPath tree start, tree.hasFile (dir.child fileName) = true) ∨
        ∀ p, Asked tree (searchPath tree start) p → FitFile tree p) ∧
    ∀ s notes, load tree start = .ok (s, notes) → Loaded tree start s notes := by
  have hload : load tree start = find? tree start >>= loadFound tree := rfl
  cases hnearest : ((searchPath tree start).map (·.child fileName)).find? tree.hasFile with
  | some p =>
    obtain ⟨dir, hdir, hp⟩ := List.mem_map.mp (List.mem_of_find?_eq_some hnearest)
    have hfile : tree.hasFile (dir.child fileName) = true := hp ▸ List.find?_some hnearest
    have hname : p.name ≠ projectFileName := by
      rw [← hp, Path.name, Path.child, List.getLast?_concat]
      decide
    have hfound : find? tree start = .ok (some p) := by rw [find?, hnearest]
    rw [hload, hfound]
    exact ⟨iff_of_true (exists_loadFile_settings hname) (.inl ⟨dir, hdir, hfile⟩),
      fun s notes h => loaded_settings hnearest hname h⟩
  | none =>
    have hsettings : ∀ dir ∈ searchPath tree start, tree.hasFile (dir.child fileName) = false := by
      simpa using hnearest
    have hfound : find? tree start = findProject? tree (searchPath tree start) := by
      rw [find?, hnearest]
    have hno : ¬∃ dir ∈ searchPath tree start, tree.hasFile (dir.child fileName) = true := by
      rintro ⟨dir, hdir, hfile⟩
      simp [hsettings dir hdir] at hfile
    rw [hload, hfound, exists_loadFound_iff]
    exact ⟨(or_iff_right hno).symm, fun s notes h => loaded_project hsettings h⟩

/-- A settings file that is not even text. -/
theorem load_spec_unreadable :
    let tree : FileTree := { entries := [([".seriseirc"], .file [0xff] 0o644)] }
    ∃ r, load tree ⟨true, ["a.ts"]⟩ = .ok r :=
  (load_spec _ _).1.mpr (.inl ⟨⟨true, []⟩, by decide, by decide⟩)

def isToolNumber : Except Toml.Fault Toml.Entries → Bool
  | .ok [(['t', 'o', 'o', 'l'], .int 5)] => true
  | _ => false

/-- A number in place of the table for tools. -/
theorem load_number_for_tools :
    load { entries := [(["pyproject.toml"], .file (encodeText "tool = 5\n".toList) 0o644)] }
      ⟨true, ["a.ts"]⟩ = .error .toolsNotSearchable := by
  have hread : Toml.read "tool = 5\n".toList = .ok [("tool".toList, .int 5)] := by
    have h : isToolNumber (Toml.read "tool = 5\n".toList) = true := by decide +kernel
    generalize Toml.read "tool = 5\n".toList = r at h
    unfold isToolNumber at h
    split at h
    · rfl
    · cases h
  have hdoc : IsDocument (encodeText "tool = 5\n".toList) [("tool".toList, .int 5)] :=
    ⟨_, decodeText?_encodeText _, hread⟩
  generalize encodeText "tool = 5\n".toList = content at hdoc ⊢
  let tree : FileTree := { entries := [(["pyproject.toml"], .file content 0o644)] }
  have hentries := @projectEntries?_of_document tree (Path.child ⟨true, []⟩ projectFileName) content
    rfl _ hdoc
  have htable : hasToolTable tree (Path.child ⟨true, []⟩ projectFileName) =
      .error .toolsNotSearchable := by
    rw [hasToolTable, hentries]
    rfl
  have hfind : find? tree ⟨true, ["a.ts"]⟩ = .error .toolsNotSearchable := by
    show findProject? tree [⟨true, []⟩] = .error .toolsNotSearchable
    rw [findProject?, htable]
    rfl
  show (find? tree ⟨true, ["a.ts"]⟩ >>= loadFound tree) = _
  rw [hfind]
  rfl

end Settings

end SourceLayout
