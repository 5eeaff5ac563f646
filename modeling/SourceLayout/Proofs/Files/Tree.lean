import SourceLayout.Files.AtomicWrite
import Mathlib.Data.List.Nodup
import Mathlib.Data.List.Perm.Subperm

/-! What is found in a file tree after an entry is set or removed, where a path leads, and that
there is always a free name for a temporary file. -/

namespace SourceLayout

/-! ## Text and bytes -/

theorem decodeText?_encodeText (t : Text) : decodeText? (encodeText t) = some t := by
  have hbytes : (⟨(encodeText t).toArray⟩ : ByteArray) = (String.ofList t).toByteArray := by
    simp [encodeText]
  have hread : String.fromUTF8? (String.ofList t).toByteArray = some (String.ofList t) := by
    rw [String.fromUTF8?, dif_pos (String.ofList t).isValidUTF8]
    rfl
  rw [decodeText?, hbytes, hread, Option.map_some, String.toList_ofList]

namespace FileTree

/-! ## Entries -/

def OnWay (t : FileTree) (place : List String) : Prop := place <+: t.working

theorem get?_of_onWay {t : FileTree} {place : List String} (h : t.OnWay place) :
    t.get? place = some .directory := by
  simp [get?, List.isPrefixOf_iff_prefix.mpr h]

theorem get?_of_not_onWay {t : FileTree} {place : List String} (h : ¬ t.OnWay place) :
    t.get? place = t.entries.lookup place := by
  simp [get?, List.isPrefixOf_iff_prefix, show ¬ place <+: t.working from h]

theorem not_onWay {t : FileTree} {place : List String} (h : t.get? place ≠ some .directory) :
    ¬ t.OnWay place := fun hway => h (get?_of_onWay hway)

theorem not_onWay_of_none {t : FileTree} {place : List String} (h : t.get? place = none) :
    ¬ t.OnWay place := not_onWay (by simp [h])

theorem not_onWay_of_file {t : FileTree} {place : List String} {content : Bytes} {m : Nat}
    (h : t.get? place = some (.file content m)) : ¬ t.OnWay place := not_onWay (by simp [h])

theorem get?_eq_none_iff {t : FileTree} {place : List String} :
    t.get? place = none ↔ ¬ t.OnWay place ∧ ∀ x ∈ t.entries, x.1 ≠ place := by
  by_cases h : t.OnWay place
  · simp [h, get?_of_onWay h]
  · rw [get?_of_not_onWay h, List.lookup_eq_none_iff]
    simp only [bne_iff_ne, ne_eq, h, not_false_eq_true, true_and]
    exact forall₂_congr fun x _ => not_congr eq_comm

private theorem lookup_map_set (es : List (List String × Entry)) (place q : List String)
    (e : Entry) :
    (es.map fun (p, old) => if p == place then (p, e) else (p, old)).lookup q =
      (es.lookup q).map fun old => if q = place then e else old := by
  induction es with
  | nil => rfl
  | cons x es ih =>
    obtain ⟨p, old⟩ := x
    have hfst : (if p == place then (p, e) else (p, old)) = (p, if p = place then e else old) := by
      by_cases hp : p = place <;> simp [hp]
    simp only [List.map_cons, hfst, List.lookup_cons, ih]
    by_cases hq : q = p
    · simp [hq]
    · simp [beq_false_of_ne hq]

@[simp] theorem working_set (t : FileTree) (place : List String) (e : Entry) :
    (t.set place e).working = t.working := by
  unfold set
  split <;> rfl

theorem set_of_none {t : FileTree} {place : List String} (h : t.get? place = none) (e : Entry) :
    t.set place e = { t with entries := t.entries ++ [(place, e)] } := by
  have hno : t.entries.any (·.1 == place) = false := by
    simpa using (get?_eq_none_iff.mp h).2
  simp [set, hno]

/-- A place that is set holds what it is set to; all others hold what they held. -/
theorem get?_set (t : FileTree) {place : List String} (hp : ¬ t.OnWay place) (e : Entry)
    (q : List String) : (t.set place e).get? q = if q = place then some e else t.get? q := by
  have hsame : (t.set place e).OnWay q ↔ t.OnWay q := by rw [OnWay, OnWay, working_set]
  by_cases hway : t.OnWay q
  · have hne : q ≠ place := fun heq => hp (heq ▸ hway)
    rw [get?_of_onWay hway, get?_of_onWay (hsame.mpr hway), if_neg hne]
  have hq : (t.set place e).get? q = (t.set place e).entries.lookup q :=
    get?_of_not_onWay (mt hsame.mp hway)
  rw [hq, get?_of_not_onWay hway]
  cases hold : t.get? place with
  | none =>
    rw [set_of_none hold, List.lookup_append]
    rw [get?_of_not_onWay hp] at hold
    by_cases h : q = place
    · simp [h, hold]
    · simp [h, List.lookup_cons, beq_false_of_ne h]
  | some old =>
    have hany : t.entries.any (·.1 == place) = true := by
      by_contra hno
      have hnone : t.get? place = none := by
        simp only [List.any_eq_true, beq_iff_eq, not_exists, not_and] at hno
        exact get?_eq_none_iff.mpr ⟨hp, hno⟩
      rw [hold] at hnone
      cases hnone
    rw [set, if_pos hany, lookup_map_set]
    rw [get?_of_not_onWay hp] at hold
    by_cases h : q = place
    · simp [h, hold]
    · simp [h]

/-! ## Where a path leads -/

def shapeAt (t : FileTree) (place : List String) : Option Bool :=
  (t.get? place).map Entry.isDirectory

theorem shapeAt_eq_true {t : FileTree} {place : List String} :
    t.shapeAt place = some true ↔ t.get? place = some .directory := by
  rw [shapeAt]
  cases t.get? place with
  | none => simp
  | some e => cases e <;> simp [Entry.isDirectory]

theorem walk_cons (t : FileTree) (place : List String) (part : String) (rest : List String) :
    t.walk place (part :: rest) =
      match t.shapeAt place with
      | some true => t.walk (if part == ".." then place.dropLast else place ++ [part]) rest
      | some false => .error .notDirectory
      | none => .error .noEntry := by
  rw [walk, shapeAt]
  cases t.get? place with
  | none => rfl
  | some e => cases e <;> rfl

theorem walk_append (t : FileTree) (place : List String) (a b : List String) :
    t.walk place (a ++ b) = (t.walk place a).bind fun q => t.walk q b := by
  induction a generalizing place with
  | nil => rfl
  | cons part a ih =>
    rw [List.cons_append, walk_cons, walk_cons]
    split
    · exact ih _
    · rfl
    · rfl

/-- A path leads on from the directory that holds it. -/
theorem fromRoot_parts (t : FileTree) {p : Path} (h : p.parts ≠ []) :
    (t.fromRoot p).parts = (t.fromRoot p.parent).parts ++ [p.name] := by
  have hparts : p.parts = p.parent.parts ++ [p.name] := by
    simp [Path.parent, Path.name, List.getLast?_eq_some_getLast h, List.dropLast_append_getLast]
  rw [fromRoot, fromRoot, show p.parent.absolute = p.absolute from rfl]
  split
  · exact hparts
  · simp [hparts]

theorem directoryOf_eq (t : FileTree) (p : Path) :
    t.directoryOf p =
      (t.placeOf p).bind fun place =>
        match t.shapeAt place with
        | some true => .ok place
        | some false => .error .notDirectory
        | none => .error .noEntry := by
  rw [directoryOf]
  cases t.placeOf p with
  | error e => rfl
  | ok place =>
    simp only [bind, Except.bind, shapeAt]
    cases t.get? place with
    | none => rfl
    | some e => cases e <;> rfl

theorem directoryOf_eq_ok {t : FileTree} {p : Path} {place : List String} :
    t.directoryOf p = .ok place ↔ t.placeOf p = .ok place ∧ t.get? place = some .directory := by
  rw [directoryOf_eq, ← shapeAt_eq_true]
  cases t.placeOf p with
  | error e => simp [Except.bind]
  | ok q =>
    simp only [Except.bind, Except.ok.injEq]
    constructor
    · intro h
      split at h
      · next hq => cases h; exact ⟨rfl, hq⟩
      · cases h
      · cases h
    · rintro ⟨rfl, hq⟩
      rw [hq]

theorem entry_eq_ok {t : FileTree} {p : Path} {e : Entry} :
    t.entry p = .ok e ↔ ∃ place, t.placeOf p = .ok place ∧ t.get? place = some e := by
  rw [entry]
  cases t.placeOf p with
  | error e => simp [bind, Except.bind]
  | ok place =>
    simp only [bind, Except.bind, Except.ok.injEq, exists_eq_left']
    cases t.get? place <;> simp

theorem contains_iff {t : FileTree} {p : Path} :
    t.contains p = true ↔ ∃ place, t.placeOf p = .ok place ∧ (t.shapeAt place).isSome = true := by
  have hentry : t.contains p = true ↔ ∃ e, t.entry p = .ok e := by
    rw [contains]
    cases t.entry p <;> simp [Except.toOption]
  simp only [hentry, entry_eq_ok, shapeAt, Option.isSome_map, Option.isSome_iff_exists]
  constructor
  · rintro ⟨e, place, hp, he⟩
    exact ⟨place, hp, e, he⟩
  · rintro ⟨place, hp, e, he⟩
    exact ⟨e, place, hp, he⟩

/-- Two trees have the same directories, and files at the same places. -/
structure SameShape (t t' : FileTree) : Prop where
  working : t'.working = t.working
  shapeAt : ∀ place, t'.shapeAt place = t.shapeAt place

namespace SameShape

variable {t t' t'' : FileTree}

theorem refl (t : FileTree) : SameShape t t := ⟨rfl, fun _ => rfl⟩

theorem walk (h : SameShape t t') (place parts : List String) :
    t'.walk place parts = t.walk place parts := by
  induction parts generalizing place with
  | nil => rfl
  | cons part parts ih =>
    rw [walk_cons, walk_cons, h.shapeAt]
    split
    · exact ih _
    · rfl
    · rfl

theorem fromRoot (h : SameShape t t') (p : Path) : t'.fromRoot p = t.fromRoot p := by
  rw [FileTree.fromRoot, FileTree.fromRoot, h.working]

theorem placeOf (h : SameShape t t') (p : Path) : t'.placeOf p = t.placeOf p := by
  rw [FileTree.placeOf, FileTree.placeOf, h.fromRoot, h.walk]

theorem directoryOf (h : SameShape t t') (p : Path) : t'.directoryOf p = t.directoryOf p := by
  simp only [directoryOf_eq, h.placeOf, h.shapeAt]

theorem contains (h : SameShape t t') (p : Path) : t'.contains p = t.contains p := by
  rw [Bool.eq_iff_iff, contains_iff, contains_iff]
  simp only [h.placeOf, h.shapeAt]

end SameShape

/-- A file that is set where no directory stands leads no path astray. -/
theorem walk_set {t : FileTree} {target : List String} (hdir : t.get? target ≠ some .directory)
    (e : Entry) {place parts q : List String} (h : t.walk place parts = .ok q) :
    (t.set target e).walk place parts = .ok q := by
  induction parts generalizing place with
  | nil => exact h
  | cons part parts ih =>
    rw [walk_cons] at h ⊢
    split at h
    · next hplace =>
      have hne : place ≠ target := by
        rintro rfl
        exact hdir (shapeAt_eq_true.mp hplace)
      have hsame : (t.set target e).shapeAt place = some true := by
        rw [← hplace, shapeAt, shapeAt, get?_set t (not_onWay hdir), if_neg hne]
      rw [hsame]
      exact ih h
    · cases h
    · cases h

/-- A file that takes the place of another leaves the shape of the tree. -/
theorem sameShape_set {t : FileTree} {place : List String} {old : Bytes} {m : Nat}
    (h : t.get? place = some (.file old m)) (new : Bytes) (m' : Nat) :
    SameShape t (t.set place (.file new m')) := by
  refine ⟨working_set .., fun q => ?_⟩
  rw [shapeAt, shapeAt, get?_set t (not_onWay_of_file h)]
  by_cases hq : q = place
  · simp [hq, h, Entry.isDirectory]
  · simp [hq]

end FileTree

namespace Disk

/-! ## Temporary files -/

theorem temporaryName_injective (directory : List String) (name : String) :
    Function.Injective (temporaryName directory name) := by
  intro i j h
  have hname : s!".{name}.{i}.tmp" = s!".{name}.{j}.tmp" := by simpa [temporaryName] using h
  have hrepr : i.repr = j.repr := by simpa [toString, String.append_assoc] using hname
  have hdigits := congrArg (fun r : String => Nat.ofDigitChars 10 r.toList 0) hrepr
  simpa only [Nat.toList_repr, Nat.ofDigitChars_ten_toDigits] using hdigits

/-- The name that is chosen for a temporary file is free. -/
theorem get?_temporary (t : FileTree) (directory : List String) (name : String) :
    t.get? (temporary t directory name) = none := by
  rw [temporary]
  cases hk : (List.range (t.entries.length + 2)).find? fun k =>
      (t.get? (temporaryName directory name k)).isNone with
  | some k => simpa using List.find?_some hk
  | none =>
    -- a name that is taken is that of an entry, or the one of its length on the way to the
    -- working directory
    exfalso
    have htaken : (List.range (t.entries.length + 2)).map (temporaryName directory name) ⊆
        t.working.take (directory.length + 1) :: t.entries.map Prod.fst := by
      intro place hplace
      obtain ⟨k, hlt, rfl⟩ := List.mem_map.mp hplace
      have hsome := List.find?_range_eq_none.mp hk k (List.mem_range.mp hlt)
      by_contra hfree
      rw [List.mem_cons, not_or] at hfree
      have hway : ¬ t.OnWay (temporaryName directory name k) := fun hway =>
        hfree.1 (by simpa [temporaryName] using List.prefix_iff_eq_take.mp hway)
      have hnone : t.get? (temporaryName directory name k) = none :=
        FileTree.get?_eq_none_iff.mpr
          ⟨hway, fun x hx heq => hfree.2 (List.mem_map.mpr ⟨x, hx, heq⟩)⟩
      simp [hnone] at hsome
    have hnodup : ((List.range (t.entries.length + 2)).map (temporaryName directory name)).Nodup :=
      List.nodup_range.map (temporaryName_injective directory name)
    have hle := (List.Nodup.subperm hnodup htaken).length_le
    simp only [List.length_map, List.length_range, List.length_cons] at hle
    omega

/-- A temporary file does not bear the name of the file it is for. -/
theorem temporary_ne (t : FileTree) (directory directory' : List String) (name : String) :
    temporary t directory name ≠ directory' ++ [name] := by
  intro h
  have hname : ∃ k : Nat, s!".{name}.{k}.tmp" = name := by
    rw [temporary, temporaryName] at h
    exact ⟨_, by simpa using (List.append_inj' h rfl).2⟩
  obtain ⟨k, hk⟩ := hname
  have hlen := congrArg String.length hk
  have hdot : ".".length = 1 := rfl
  simp only [toString, String.length_append, hdot] at hlen
  omega

theorem remove_put {d : Disk} {place : List String} (h : d.tree.get? place = none) (e : Entry) :
    (d.put place e).remove place = d := by
  have hkeep : d.tree.entries.filter (·.1 != place) = d.tree.entries := by
    rw [List.filter_eq_self]
    simpa using (FileTree.get?_eq_none_iff.mp h).2
  simp [put, remove, FileTree.set_of_none h, hkeep]

/-- A temporary file that is cleaned up leaves the tree as it was. -/
theorem cleanUp_put {d : Disk} {place : List String} (h : d.tree.get? place = none) (e : Entry) :
    (d.put place e).cleanUp place = d := by
  have hthere : (d.put place e).tree.get? place = some e := by
    rw [put, FileTree.get?_set _ (FileTree.not_onWay_of_none h), if_pos rfl]
  rw [cleanUp, hthere, Option.isSome_some, if_pos rfl, remove_put h]

end Disk

end SourceLayout
