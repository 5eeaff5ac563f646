import SourceLayout.Proofs.Ink
import SourceLayout.Settings.Check

/-! What holds of all settings that pass the checks, from what the checks let
through for one field. -/

namespace SourceLayout
open Text

namespace Settings

def Accepted (s : Settings) : Prop := ∃ entries, ofValues entries = .ok s

theorem bind_eq_ok {ε α β : Type} {x : Except ε α} {f : α → Except ε β} {b : β}
    (h : x.bind f = .ok b) : ∃ a, x = .ok a ∧ f a = .ok b := by
  cases x with
  | error e => cases h
  | ok a => exact ⟨a, rfl, h⟩

/-- What holds of the default settings and is kept by every checked field holds
of accepted settings. -/
theorem Accepted.induction {P : Settings → Prop} (hdefault : P {})
    (hset : ∀ {s s' : Settings} {f : Field} {v : Value}, setField s f v = .ok s' → P s → P s')
    {s : Settings} (h : s.Accepted) : P s := by
  obtain ⟨entries, h⟩ := h
  have hgo : ∀ (fields : List Field) (s₀ : Settings), P s₀ → ofValues.go entries s₀ fields = .ok s →
      P s := by
    intro fields
    induction fields with
    | nil =>
      intro s₀ hs h
      cases h
      exact hs
    | cons f rest ih =>
      intro s₀ hs h
      unfold ofValues.go at h
      split at h
      · exact ih s₀ hs h
      · split at h
        · next s₁ hs₁ => exact ih s₁ (hset hs₁ hs) h
        · split at h <;> cases h
  exact hgo Field.all {} hdefault h

/-! ## One field -/

theorem located_eq_ok {α : Type} {place : List Place} {x : Except Fault α} {a : α} :
    located place x = .ok a ↔ x = .ok a := by
  cases x <;> simp [located]

theorem checkHeaderChar_eq_ok {v : Value} {c : Char} (h : checkHeaderChar v = .ok c) :
    isBlank c = false := by
  obtain ⟨t, -, h⟩ := bind_eq_ok h
  split at h
  · next d hd =>
    cases h
    exact head_trim (by rw [hd]; rfl)
  · cases h

theorem checkColumnWidth_eq_ok {v : Value} {n : Nat} (h : checkColumnWidth v = .ok n) : 0 < n := by
  obtain ⟨i, -, h⟩ := bind_eq_ok h
  split at h
  · next hi =>
    cases h
    omega
  · cases h

theorem checkIndentSize_eq_ok {v : Value} {n : Nat} (h : checkIndentSize v = .ok (some n)) :
    1 ≤ n ∧ n ≤ 8 := by
  unfold checkIndentSize at h
  split at h
  · cases h
  · obtain ⟨i, -, h⟩ := bind_eq_ok h
    split at h
    · cases h
    · split at h
      · cases h
      · cases h
        omega

theorem gather_eq_ok {α : Type} {rs : List (Except (List Problem) α)} {as : List α}
    (h : gather rs = .ok as) : ∀ a ∈ as, Except.ok a ∈ rs := by
  induction rs generalizing as with
  | nil =>
    cases h
    exact fun a ha => nomatch ha
  | cons r rs ih =>
    unfold gather at h
    split at h
    · next b bs hbs =>
      cases h
      intro a ha
      rcases List.mem_cons.mp ha with rfl | ha
      · exact List.mem_cons_self
      · exact List.mem_cons_of_mem _ (ih hbs a ha)
    all_goals cases h

end Settings

namespace Group

/-- Every matcher shows something and has no blanks at its ends. -/
def Clean (g : Group) : Prop := ∀ m ∈ g.matchers, m ≠ [] ∧ trim m = m

theorem clean_other : other.Clean := fun _ hm => nomatch hm

theorem clean_defaults : ∀ g ∈ defaults, g.Clean := by
  unfold Clean
  decide +kernel

end Group

namespace Settings

theorem checkMatchers_eq_ok {place : List Place} {v : Value} {ms : List Text}
    (h : checkMatchers place v = .ok ms) : ∀ m ∈ ms, m ≠ [] ∧ trim m = m := by
  obtain ⟨items, -, h⟩ := bind_eq_ok h
  obtain ⟨texts, -, h⟩ := bind_eq_ok h
  cases h
  intro m hm
  obtain ⟨hmem, hne⟩ := List.mem_filter.mp hm
  obtain ⟨t, -, rfl⟩ := List.mem_map.mp hmem
  exact ⟨by simpa using hne, trim_trim t⟩

theorem clean_checkGroup {place : List Place} {entries : List (Text × Value)} {g : Group}
    (h : checkGroup place entries = .ok g) : g.Clean := by
  unfold checkGroup at h
  simp only at h
  split at h
  · next label ms _ hms =>
    cases h
    split at hms
    · cases hms
      exact fun m hm => nomatch hm
    · exact checkMatchers_eq_ok hms
  all_goals cases h

theorem clean_checkGroups {place : List Place} {v : Value} {gs : List Group}
    (h : checkGroups place v = .ok gs) : ∀ g ∈ gs, g.Clean := by
  obtain ⟨items, -, h⟩ := bind_eq_ok h
  intro g hg
  obtain ⟨⟨item, i⟩, -, hitem⟩ := List.mem_map.mp (gather_eq_ok h g hg)
  cases item with
  | table entries => exact clean_checkGroup hitem
  | _ => cases hitem

theorem last_closeGroups (groups : List Group) :
    ∃ g, (closeGroups groups).getLast? = some g ∧ g.isCatchAll = true := by
  unfold closeGroups
  split
  · next h => exact (Option.any_eq_true _ _).mp h
  · exact ⟨Group.other, List.getLast?_concat, by decide⟩

theorem clean_closeGroups {groups : List Group} (h : ∀ g ∈ groups, g.Clean) :
    ∀ g ∈ closeGroups groups, g.Clean := by
  unfold closeGroups
  split
  · exact h
  · exact List.forall_mem_append.mpr ⟨h, List.forall_mem_singleton.mpr Group.clean_other⟩

/-! ## All fields -/

/-- Settings as the checks leave them: the last group takes every statement, headers are filled with
a character that shows, up to a width that is not zero, a level has one to eight spaces if their
number is fixed, and matchers show something and are trimmed. -/
structure Sound (s : Settings) : Prop where
  last : ∃ g, s.groups.getLast? = some g ∧ g.isCatchAll = true
  headerChar : isBlank s.headerChar = false
  columnWidth : 0 < s.columnWidth
  indentSize : ∀ n ∈ s.indentSize, 1 ≤ n ∧ n ≤ 8
  groups : ∀ g ∈ s.groups, g.Clean

theorem sound_default : Sound {} where
  last := ⟨Group.other, rfl, by decide⟩
  headerChar := by decide
  columnWidth := by decide
  indentSize := fun n hn => nomatch hn
  groups := Group.clean_defaults

/-- A checked value keeps settings sound, whichever field it is for. -/
theorem Sound.setField {s s' : Settings} {f : Field} {v : Value} (hs : s.Sound)
    (h : setField s f v = .ok s') : s'.Sound := by
  cases f with
  | headerChar =>
    obtain ⟨c, hc, h⟩ := bind_eq_ok h
    cases h
    exact { hs with headerChar := checkHeaderChar_eq_ok (located_eq_ok.mp hc) }
  | columnWidth =>
    obtain ⟨n, hn, h⟩ := bind_eq_ok h
    cases h
    exact { hs with columnWidth := checkColumnWidth_eq_ok (located_eq_ok.mp hn) }
  | indentSize =>
    obtain ⟨size, hsize, h⟩ := bind_eq_ok h
    cases h
    refine { hs with indentSize := fun n hn => ?_ }
    obtain rfl : size = some n := hn
    exact checkIndentSize_eq_ok (located_eq_ok.mp hsize)
  | groups =>
    obtain ⟨gs, hgs, h⟩ := bind_eq_ok h
    cases h
    exact { hs with
      last := last_closeGroups gs
      groups := clean_closeGroups (clean_checkGroups hgs) }
  | indentKind | expandMethods | reflowImports =>
    obtain ⟨x, -, h⟩ := bind_eq_ok h
    cases h
    exact { hs with }

theorem Accepted.sound {s : Settings} (h : s.Accepted) : s.Sound :=
  h.induction sound_default fun h hs => hs.setField h

/-- The last group of accepted settings takes every statement. -/
theorem Accepted.last {s : Settings} (h : s.Accepted) :
    ∃ g, s.groups.getLast? = some g ∧ g.isCatchAll = true := h.sound.last

/-- Among the groups of accepted settings is one that takes every statement. -/
theorem Accepted.catchAll {s : Settings} (h : s.Accepted) :
    ∃ g ∈ s.groups, g.isCatchAll = true := by
  obtain ⟨g, hg, hcatch⟩ := h.last
  exact ⟨g, List.mem_of_getLast? hg, hcatch⟩

/-- Headers are filled with a character that shows. -/
theorem Accepted.headerChar {s : Settings} (h : s.Accepted) : isBlank s.headerChar = false :=
  h.sound.headerChar

/-- A level takes at least one space. -/
theorem Accepted.indentSize {s : Settings} (h : s.Accepted) : ∀ n ∈ s.indentSize, 1 ≤ n :=
  fun n hn => (h.sound.indentSize n hn).1

@[simp] theorem headerChar_resolveIndent (s : Settings) (t : Text) :
    (s.resolveIndent t).headerChar = s.headerChar := by
  unfold resolveIndent
  split <;> rfl

@[simp] theorem groups_resolveIndent (s : Settings) (t : Text) :
    (s.resolveIndent t).groups = s.groups := by
  unfold resolveIndent
  split <;> rfl

end Settings

end SourceLayout
