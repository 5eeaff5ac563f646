import SourceLayout.Proofs.Files.Batch

/-! A batch treats each of its files as if it were alone. What a turn makes of its file depends on
that file, on the shape of the tree and on what the system refuses, and no turn touches any other
file. Only a file that is not text stops the batch: the files before it are treated, and those
behind it are left as they are. -/

namespace SourceLayout.Batch
open Text

/-- The disk that a batch leaves, also when it ends early. -/
def left : Except NotText Batch → Disk
  | .ok b => b.disk
  | .error stop => stop.disk

section

variable (cfg : Settings) (rules : List Rule) (parse : Parser)

/-- What a path leads to after its turn, by what reading its file comes to and what the path leads
to once a text is written. -/
def entryAfter (p : Path) (read : Except ReadFailure Text)
    (written : Text → Except SystemError Entry) (old : Except SystemError Entry) :
    Except SystemError Entry :=
  match read with
  | .error _ => old
  | .ok source =>
    let f := laidOut cfg rules parse p source
    if f.failures = [] ∧ f.source ≠ source then written f.source else old

variable {cfg rules parse}
variable {d d' : Disk} {p q : Path}

/-! ## One turn -/

theorem Takes.entry {t : Turn} (h : Takes cfg rules parse d p t d') :
    d'.tree.entry p = entryAfter cfg rules parse p (d.readText p).1
      (fun c => (d.write p c).2.2.tree.entry p) (d.tree.entry p) := by
  cases h with
  | unread hread hwhy htree => rw [hread, htree]; rfl
  | faulty hread hfail htree => simp [entryAfter, hread, htree, hfail]
  | kept hread hfail hsame htree => simp [entryAfter, hread, htree, hsame]
  | replaced hread hfail hnew hwrite hdecides hset =>
    have hok := (Disk.write_result hdecides _).symm.trans hwrite
    obtain ⟨-, -, -, hset'⟩ :=
      Disk.tree_write_of_ok hdecides hok (laidOut cfg rules parse p _).source
    simp only [entryAfter, hread, hfail, hnew, ne_eq, not_false_eq_true, and_self, if_true]
    exact hset.entry.trans hset'.entry.symm
  | unwritten hread hfail hnew hwrite htree =>
    have htree' : (d.write p _).2.2.tree = d.tree := Disk.tree_write_of_error hwrite
    simp only [entryAfter, hread, hfail, hnew, ne_eq, not_false_eq_true, and_self, if_true, htree]
    exact (congrArg (FileTree.entry · p) htree').symm

variable (cfg rules parse) in
/-- Everything a step can do to the disk. -/
theorem step_cases (b : Batch) (p : Path) :
    (Garbled b.disk 0 p ∧ ∃ stop, step cfg rules parse b p = .error stop ∧
      stop.disk.tree = b.disk.tree) ∨
    ¬ Garbled b.disk 0 p ∧ ∃ b' t, step cfg rules parse b p = .ok b' ∧
      Takes cfg rules parse b.disk p t b'.disk ∧
      b'.disk.refusals = b.disk.refusals.drop 1 ∧ TreeAfter b.disk.tree p b'.disk.tree := by
  obtain ⟨notes, hstep⟩ := step_eq_turn cfg rules parse b p
  rcases turn_cases cfg rules parse b.disk p with
    ⟨hgarbled, stop, hturn, htree⟩ | ⟨hgarbled, t, d', hturn, htakes, hrefusals, htree⟩
  · rw [hstep, hturn]
    exact .inl ⟨hgarbled, stop, rfl, htree⟩
  · rw [hstep, hturn]
    exact .inr ⟨hgarbled, b.add t d' notes, t, rfl, htakes, hrefusals, htree⟩

theorem entry_left_step (b : Batch) (p : Path) :
    (left (step cfg rules parse b p)).tree.entry p =
      entryAfter cfg rules parse p (b.disk.readText p).1
        (fun c => (b.disk.write p c).2.2.tree.entry p) (b.disk.tree.entry p) := by
  rcases step_cases cfg rules parse b p
    with ⟨hgarbled, stop, hstep, htree⟩ | ⟨-, b', t, hstep, htakes, -⟩
  · rw [hstep, left, htree, readText_eq_undecodable.mpr hgarbled]
    rfl
  · rw [hstep]
    exact htakes.entry

theorem left_run_singleton (d : Disk) (p : Path) :
    left (run cfg rules parse [p] d) = left (step cfg rules parse { disk := d } p) := by
  rw [run, List.foldlM_cons]
  cases step cfg rules parse { disk := d } p <;> rfl

/-- What becomes of a file alone depends on it, on the shape of the tree and on
what the system refuses. -/
theorem alone_congr (hfailures : d'.failures = d.failures) (hrefusals : d'.refusals = d.refusals)
    (hshape : d.tree.SameShape d'.tree) (hentry : d'.tree.entry p = d.tree.entry p) :
    (left (run cfg rules parse [p] d')).tree.entry p =
      (left (run cfg rules parse [p] d)).tree.entry p := by
  have hread : (d'.readText p).1 = (d.readText p).1 := by
    rw [Disk.readText, Disk.readText, hrefusals, FileTree.readText_congr hentry]
    split <;> rfl
  have hwrite : (fun c => (d'.write p c).2.2.tree.entry p) = fun c =>
      (d.write p c).2.2.tree.entry p :=
    funext fun c => Disk.entry_write_congr hshape hfailures hentry c
  rw [left_run_singleton, left_run_singleton, entry_left_step, entry_left_step, hread, hwrite,
    hentry]

/-- The turns to come read what they would have read. -/
theorem garbled_succ {b b' : Batch} (hrefusals : b'.disk.refusals = b.disk.refusals.drop 1)
    (htree : TreeAfter b.disk.tree p b'.disk.tree) (hq : b.disk.tree.Apart p q) (i : Nat) :
    Garbled b'.disk i q ↔ Garbled b.disk (i + 1) q := by
  rw [Garbled, Garbled, hrefusals, List.getElem?_drop, Nat.add_comm 1 i,
    FileTree.readText_congr (htree.entry hq)]

/-! ## All turns -/

/-- A batch leaves the files that it is not about. -/
theorem left_frame (paths : List Path) (b : Batch) (h : ∀ p ∈ paths, b.disk.tree.Apart p q) :
    (left (paths.foldlM (step cfg rules parse) b)).tree.entry q = b.disk.tree.entry q := by
  induction paths generalizing b with
  | nil => rfl
  | cons p paths ih =>
    rw [List.foldlM_cons]
    rcases step_cases cfg rules parse b p
      with ⟨-, stop, hstep, htree⟩ | ⟨-, b', t, hstep, -, -, htree⟩
    · rw [hstep]
      exact congrArg (·.entry q) htree
    · rw [hstep]
      have hrest : ∀ r ∈ paths, b'.disk.tree.Apart r q := fun r hr =>
        htree.sameShape.apart.mpr (h r (List.mem_cons_of_mem p hr))
      exact (ih b' hrest).trans (htree.entry (h p List.mem_cons_self))

/-- A batch returns exactly if each turn reads text or nothing. -/
theorem foldlM_ok_iff (paths : List Path) (b : Batch) (hd : paths.Pairwise b.disk.tree.Apart) :
    (∃ b', paths.foldlM (step cfg rules parse) b = .ok b') ↔
      ∀ i p, paths[i]? = some p → ¬ Garbled b.disk i p := by
  induction paths generalizing b with
  | nil => exact ⟨fun _ i p h => by simp at h, fun _ => ⟨b, rfl⟩⟩
  | cons p paths ih =>
    obtain ⟨hp, hrest⟩ := List.pairwise_cons.mp hd
    rw [List.foldlM_cons]
    rcases step_cases cfg rules parse b p with
      ⟨hgarbled, stop, hstep, -⟩ | ⟨hgarbled, b', t, hstep, -, hrefusals, htree⟩
    · rw [hstep]
      refine ⟨fun ⟨b', h⟩ => ?_, fun h => absurd hgarbled (h 0 p rfl)⟩
      cases h
    · rw [hstep]
      have hd' : paths.Pairwise b'.disk.tree.Apart := hrest.imp htree.sameShape.apart.mpr
      have hnext (i : Nat) (q : Path) (hq : paths[i]? = some q) :
          Garbled b'.disk i q ↔ Garbled b.disk (i + 1) q :=
        garbled_succ hrefusals htree (hp q (List.mem_of_getElem? hq)) i
      refine (ih b' hd').trans ⟨fun h i q hq => ?_, fun h i q hq => ?_⟩
      · cases i with
        | zero => cases hq; exact hgarbled
        | succ i => exact fun hg => h i q hq ((hnext i q hq).mpr hg)
      · exact fun hg => h (i + 1) q hq ((hnext i q hq).mp hg)

/-- A file before which all are text or cannot be read is left as it is left alone. -/
theorem left_as_alone (paths : List Path) (b : Batch) (hd : paths.Pairwise b.disk.tree.Apart)
    {i : Nat} (hi : paths[i]? = some p)
    (hbefore : ∀ j < i, ∀ q, paths[j]? = some q → ¬ Garbled b.disk j q) :
    ∃ met, (paths.take i).foldlM (step cfg rules parse) b = .ok met ∧
      (left (paths.foldlM (step cfg rules parse) b)).tree.entry p =
        (left (run cfg rules parse [p] { met.disk with tree := b.disk.tree })).tree.entry p := by
  induction paths generalizing b i with
  | nil => simp at hi
  | cons q paths ih =>
    obtain ⟨hq, hrest⟩ := List.pairwise_cons.mp hd
    cases i with
    | zero =>
      cases hi
      refine ⟨b, rfl, ?_⟩
      rw [left_run_singleton, entry_left_step, ← entry_left_step b p, List.foldlM_cons]
      rcases step_cases cfg rules parse b p
        with ⟨-, stop, hstep, -⟩ | ⟨-, b', t, hstep, -, -, htree⟩
      · rw [hstep]
        rfl
      · rw [hstep]
        exact left_frame paths b' fun r hr => htree.sameShape.apart.mpr (hq r hr).symm
    | succ i =>
      have hmem : p ∈ paths := List.mem_of_getElem? hi
      rcases step_cases cfg rules parse b q
        with ⟨hgarbled, -⟩ | ⟨-, b', t, hstep, -, hrefusals, htree⟩
      · exact absurd hgarbled (hbefore 0 (Nat.succ_pos i) q rfl)
      · have hd' : paths.Pairwise b'.disk.tree.Apart := hrest.imp htree.sameShape.apart.mpr
        obtain ⟨met, hmet, hleft⟩ := ih b' hd' hi fun j hj r hr hg =>
          hbefore (j + 1) (Nat.succ_lt_succ hj) r hr
            ((garbled_succ hrefusals htree (hq r (List.mem_of_getElem? hr)) j).mp hg)
        refine ⟨met, ?_, ?_⟩
        · rw [List.take_succ_cons, List.foldlM_cons, hstep]
          exact hmet
        · rw [List.foldlM_cons, hstep]
          refine hleft.trans ?_
          exact alone_congr rfl rfl htree.sameShape (htree.entry (hq p hmem))

/-- A file behind one that is not text is left as it was. -/
theorem left_behind_garbled (paths : List Path) (b : Batch) (hd : paths.Pairwise b.disk.tree.Apart)
    {i : Nat} (hi : paths[i]? = some p)
    (hbefore : ∃ j < i, ∃ q, paths[j]? = some q ∧ Garbled b.disk j q) :
    (left (paths.foldlM (step cfg rules parse) b)).tree.entry p = b.disk.tree.entry p := by
  induction paths generalizing b i with
  | nil => simp at hi
  | cons q paths ih =>
    obtain ⟨hq, hrest⟩ := List.pairwise_cons.mp hd
    obtain ⟨j, hj, r, hr, hg⟩ := hbefore
    rw [List.foldlM_cons]
    rcases step_cases cfg rules parse b q with
      ⟨-, stop, hstep, htree⟩ | ⟨hno, b', t, hstep, -, hrefusals, htree⟩
    · rw [hstep]
      exact congrArg (·.entry p) htree
    · cases i with
      | zero => exact absurd hj (Nat.not_lt_zero j)
      | succ i =>
        cases j with
        | zero => cases hr; exact absurd hg hno
        | succ j =>
          have hd' : paths.Pairwise b'.disk.tree.Apart := hrest.imp htree.sameShape.apart.mpr
          have hg' := (garbled_succ hrefusals htree (hq r (List.mem_of_getElem? hr)) j).mpr hg
          rw [hstep]
          exact (ih b' hd' hi ⟨j, Nat.lt_of_succ_lt_succ hj, r, hr, hg'⟩).trans
            (htree.entry (hq p (List.mem_of_getElem? hi)))

end

/-- A batch on files that are all different returns exactly if each turn reads text or nothing, and
up to the first turn that does not, each file becomes what it becomes alone, with the failures that
the batch meets at it. Files behind that one are left as they were. -/
theorem run_as_alone (cfg : Settings) (rules : List Rule) (parse : Parser) (paths : List Path)
    (disk : Disk) (hd : paths.Pairwise disk.tree.Apart) :
    let out := run cfg rules parse paths disk
    ((∃ b, out = .ok b) ↔ ∀ i p, paths[i]? = some p → ¬ Garbled disk i p) ∧
    ∀ i p, paths[i]? = some p →
      ((∀ j < i, ∀ q, paths[j]? = some q → ¬ Garbled disk j q) →
        ∃ met, run cfg rules parse (paths.take i) disk = .ok met ∧
          (left out).tree.entry p =
            (left (run cfg rules parse [p] { met.disk with tree := disk.tree })).tree.entry p) ∧
      ((∃ j < i, ∃ q, paths[j]? = some q ∧ Garbled disk j q) →
        (left out).tree.entry p = disk.tree.entry p) :=
  ⟨foldlM_ok_iff paths { disk } hd, fun _ _ hi =>
    ⟨left_as_alone paths { disk } hd hi, left_behind_garbled paths { disk } hd hi⟩⟩

/-- A file that could not be written does not keep the next one from being laid out. -/
theorem run_as_alone_failed_write :
    let source := "interface A \x7b a: string \x7d\n".toList
    let full : SystemError := ⟨28, "ENOSPC", "No space left on device"⟩
    let disk : Disk := { tree := { entries := [(["a.ts"], .file (encodeText source) 0o644),
                                                (["b.ts"], .file (encodeText source) 0o600)] },
                         failures := [{ rename := some full }] }
    let parse : Parser := fun _ _ => [⟨.interfaceDeclaration, ⟨0, 0⟩, ⟨0, 25⟩, false, none⟩]
    let a : Path := ⟨true, ["a.ts"]⟩
    let b : Path := ⟨true, ["b.ts"]⟩
    (∃ r, run {} Rule.standard parse [a, b] disk = .ok r) ∧
      ∃ met, run {} Rule.standard parse [a] disk = .ok met ∧
        (left (run {} Rule.standard parse [a, b] disk)).tree.entry b =
          (left (run {} Rule.standard parse [b] { met.disk with tree := disk.tree })).tree.entry
            b := by
  intro source full disk parse a b
  have hplaceA : disk.tree.placeOf a = .ok ["a.ts"] := by decide +kernel
  have hplaceB : disk.tree.placeOf b = .ok ["b.ts"] := by decide +kernel
  have hd : [a, b].Pairwise disk.tree.Apart := by
    refine .cons ?_ (List.pairwise_singleton ..)
    intro q hq place hp hq'
    rw [List.mem_singleton.mp hq, hplaceB, ← hp, hplaceA] at hq'
    exact absurd hq' (by decide +kernel)
  have htext : ∀ i p, [a, b][i]? = some p → ¬ Garbled disk i p := by
    rintro i p hi ⟨-, hread⟩
    have hp : p = a ∨ p = b := by simpa using List.mem_of_getElem? hi
    rcases hp with rfl | rfl <;> exact absurd hread (by decide +kernel)
  obtain ⟨hreturns, heach⟩ := run_as_alone {} Rule.standard parse [a, b] disk hd
  exact ⟨hreturns.mpr htext, (heach 1 b rfl).1 fun j _ q hq => htext j q hq⟩

/-- A file that is not text ends the batch: the next one, which would be laid out alone, is not. -/
theorem garbled_file_ends_batch :
    let source := "interface A \x7b a: string \x7d\n".toList
    let disk : Disk := { tree := { entries := [(["a.ts"], .file [255] 0o644),
                                                (["b.ts"], .file (encodeText source) 0o644)] } }
    let parse : Parser := fun _ _ => [⟨.interfaceDeclaration, ⟨0, 0⟩, ⟨0, 25⟩, false, none⟩]
    let a : Path := ⟨true, ["a.ts"]⟩
    let b : Path := ⟨true, ["b.ts"]⟩
    (run {} Rule.standard parse [a, b] disk).toOption.isNone = true ∧
      ((left (run {} Rule.standard parse [a, b] disk)).tree.entry b).toOption =
        some (.file (encodeText source) 0o644) ∧
      ((left (run {} Rule.standard parse [b] disk)).tree.entry b).toOption =
        some (.file (encodeText "interface A \x7b\n    a : string;\n\x7d\n".toList) 0o644) := by
  decide +kernel

end SourceLayout.Batch
