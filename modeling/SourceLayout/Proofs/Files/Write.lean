import SourceLayout.Proofs.Files.Tree

/-! Replacing a file is all or nothing. An attempt that fails leaves the tree as it was, whichever
step the system refuses; one that succeeds sets the file and nothing else. The attempts go on while
the file is busy, so the first one that is not decides, or the last. -/

namespace SourceLayout.Disk

/-! ## One attempt -/

/-- What the rename at the end of an attempt comes to. -/
def landing (t : FileTree) (p : Path) : Except SystemError Unit :=
  (targetOf t p).bind fun target =>
    if t.get? target = some .directory then .error .isDirectory else .ok ()

def passes : Option SystemError → Except SystemError Unit
  | none => .ok ()
  | some e => .error e

/-- What an attempt comes to once there is a directory for the temporary file: the first step that
fails gives the error. Permissions are taken over only from a file that is found. -/
def outcomeIn (t : FileTree) (p : Path) (failures : StepFailures) : Except SystemError Unit := do
  passes failures.create
  passes failures.fill
  let found ← lookFor t p failures.look
  passes (if found then failures.permit else none)
  passes failures.rename
  landing t p

def outcome (t : FileTree) (p : Path) (failures : StepFailures) : Except SystemError Unit :=
  (t.directoryOf (t.fromRoot p.parent).resolve).bind fun _ => outcomeIn t p failures

/-- The permissions of a file that was replaced: those of the old one, if it was found. -/
def modeAfter (t : FileTree) (p : Path) (found : Bool) : Nat :=
  if found then modeOf t p else privateMode

theorem targetOf_eq_ok {t : FileTree} {p : Path} {target : List String} :
    targetOf t p = .ok target ↔
      ∃ directory, t.directoryOf p.parent = .ok directory ∧ p.name ≠ "" ∧ p.name ≠ ".." ∧
        target = directory ++ [p.name] := by
  rw [targetOf]
  cases t.directoryOf p.parent with
  | error e => simp [bind, Except.bind]
  | ok directory =>
    simp only [bind, Except.bind, Except.ok.injEq, exists_eq_left']
    split
    · next h => simp only [Bool.or_eq_true, beq_iff_eq] at h; grind
    · next h => simp only [Bool.or_eq_true, beq_iff_eq] at h; grind

theorem landing_eq_ok {t : FileTree} {p : Path} :
    landing t p = .ok () ↔ ∃ target, targetOf t p = .ok target ∧
    t.get? target ≠ some .directory := by
  rw [landing]
  cases targetOf t p with
  | error e => simp [Except.bind]
  | ok target => simp [Except.bind]

theorem landing_eq_error {t : FileTree} {p : Path} {e : SystemError} :
    landing t p = .error e ↔
      targetOf t p = .error e ∨
        ∃ target, targetOf t p = .ok target ∧ t.get? target = some .directory ∧
        e = .isDirectory := by
  rw [landing]
  cases targetOf t p with
  | error e => simp [Except.bind]
  | ok target =>
    simp only [Except.bind, reduceCtorEq, Except.ok.injEq, exists_eq_left', false_or]
    split <;> grind

/-- A path that a file can be renamed to leads to its place. -/
theorem placeOf_of_targetOf {t : FileTree} {p : Path} {target : List String}
    (h : targetOf t p = .ok target) : t.placeOf p = .ok target := by
  obtain ⟨directory, hdir, hne, hup, rfl⟩ := targetOf_eq_ok.mp h
  obtain ⟨hplace, hget⟩ := FileTree.directoryOf_eq_ok.mp hdir
  have hnil : p.parts ≠ [] := by
    intro hnil
    simp [Path.name, hnil] at hne
  rw [FileTree.placeOf] at hplace ⊢
  rw [FileTree.fromRoot_parts t hnil, FileTree.walk_append, hplace]
  simp [Except.bind, FileTree.walk, hget, hup]

/-- A look that the system does not let fail finds what is there, unless it is
told that nothing is. -/
theorem lookFor_eq_ok {t : FileTree} {p : Path} {look : Option SystemError} {found : Bool}
    (h : lookFor t p look = .ok found) : found = (t.contains p && look.isNone) := by
  cases look with
  | none => cases h; simp
  | some e =>
    rw [lookFor] at h
    split at h
    · cases h; simp
    · cases h

section Attempt

variable {d : Disk} {scratch : List String} {p : Path} {failures : StepFailures} {e : SystemError}

/-- An attempt succeeds exactly if no step fails. -/
theorem outcomeIn_eq_ok {t : FileTree} :
    outcomeIn t p failures = .ok () ↔ failures.create = none ∧ failures.fill = none ∧
      (∃ found, lookFor t p failures.look = .ok found ∧ (found = true → failures.permit = none)) ∧
      failures.rename = none ∧ landing t p = .ok () := by
  obtain ⟨create, fill, look, permit, rename⟩ := failures
  rw [outcomeIn]
  cases create with
  | some e => simp [passes, bind, Except.bind]
  | none =>
    cases fill with
    | some e => simp [passes, bind, Except.bind]
    | none =>
      simp only [passes, bind, Except.bind]
      cases lookFor t p look with
      | error e => simp
      | ok found => cases found <;> cases permit <;> cases rename <;> simp

section Scratch

variable (hfree : d.tree.get? scratch = none)
  (hne : ∀ target, targetOf d.tree p = .ok target → scratch ≠ target)

include hfree hne

/-- A rename that fails leaves the temporary file. -/
theorem renameTo_error (content : Entry) {refusal : Option SystemError}
    (h : (passes refusal).bind (fun _ => landing d.tree p) = .error e) :
    (d.put scratch content).renameTo scratch (refusal.elim (targetOf d.tree p) .error) =
      (.error e, { d with calls := d.calls + 1 }.put scratch content) := by
  cases refusal with
  | some e' => cases h; rfl
  | none =>
    rcases landing_eq_error.mp h with htarget | ⟨target, htarget, hdir, rfl⟩
    · rw [Option.elim_none, htarget]
      rfl
    · have hget : (d.put scratch content).tree.get? target = some .directory := by
        rw [put, FileTree.get?_set _ (FileTree.not_onWay_of_none hfree),
          if_neg (hne target htarget).symm, hdir]
      rw [Option.elim_none, htarget, renameTo, rename, hget]
      rfl

/-- A rename that succeeds leaves the file at its target and no temporary one. -/
theorem renameTo_ok (content : Entry) (h : landing d.tree p = .ok ()) :
    ∃ target, targetOf d.tree p = .ok target ∧
      (d.put scratch content).renameTo scratch (targetOf d.tree p) =
        (.ok (), { d with calls := d.calls + 1 }.put target content) := by
  obtain ⟨target, htarget, hdir⟩ := landing_eq_ok.mp h
  have hscratch := FileTree.not_onWay_of_none hfree
  have hsource : (d.put scratch content).tree.get? scratch = some content := by
    rw [put, FileTree.get?_set _ hscratch, if_pos rfl]
  have hget : (d.put scratch content).tree.get? target = d.tree.get? target := by
    rw [put, FileTree.get?_set _ hscratch, if_neg (hne target htarget).symm]
  have hremove : ({ d with calls := d.calls + 1 }.put scratch content).remove scratch =
      { d with calls := d.calls + 1 } :=
      remove_put (d := { d with calls := d.calls + 1 }) hfree content
  refine ⟨target, htarget, ?_⟩
  rw [htarget, renameTo, rename, hsource, hget]
  cases ht : d.tree.get? target with
  | none => exact congrArg (fun x : Disk => (Except.ok (), x.put target content)) hremove
  | some old =>
    cases old with
    | directory => exact absurd ht hdir
    | file c m => exact congrArg (fun x : Disk => (Except.ok (), x.put target content)) hremove

/-- Where a step behind the creation of the temporary file fails, that file is
all there is to remove. -/
theorem replaceBy_error (content : Bytes) (hcreate : failures.create = none)
    (h : outcomeIn d.tree p failures = .error e) :
    ∃ x calls, d.replaceBy scratch p content failures =
      (.error e, { d with calls }.put scratch x) := by
  rw [outcomeIn, hcreate] at h
  rw [replaceBy]
  cases hfill : failures.fill with
  | some e' => rw [hfill] at h; cases h; exact ⟨_, d.calls, rfl⟩
  | none =>
    rw [hfill] at h
    simp only [passes, bind, Except.bind] at h
    cases hlook : lookFor d.tree p failures.look with
    | error e' => rw [hlook] at h; cases h; exact ⟨_, d.calls, rfl⟩
    | ok found =>
      rw [hlook] at h
      cases found with
      | false => exact ⟨_, _, renameTo_error hfree hne _ h⟩
      | true =>
        cases hpermit : failures.permit with
        | some e' => rw [hpermit] at h; cases h; exact ⟨_, d.calls, rfl⟩
        | none => rw [hpermit] at h; exact ⟨_, _, renameTo_error hfree hne _ h⟩

theorem replaceBy_ok (content : Bytes) (h : outcomeIn d.tree p failures = .ok ()) :
    ∃ target, targetOf d.tree p = .ok target ∧
      d.replaceBy scratch p content failures =
        (.ok (), { d with calls := d.calls + 1 }.put target (.file content
          (modeAfter d.tree p (d.tree.contains p && failures.look.isNone)))) := by
  obtain ⟨-, hfill, ⟨found, hlook, hpermit⟩, hrename, hland⟩ := outcomeIn_eq_ok.mp h
  rw [replaceBy, hfill, hlook, hrename, ← lookFor_eq_ok hlook]
  cases found with
  | false => exact renameTo_ok hfree hne _ hland
  | true =>
    rw [hpermit rfl]
    exact renameTo_ok hfree hne _ hland

end Scratch

theorem temporary_ne_target (directory target : List String) (h : targetOf d.tree p = .ok target) :
    temporary d.tree directory p.name ≠ target := by
  obtain ⟨directory', -, -, -, rfl⟩ := targetOf_eq_ok.mp h
  exact temporary_ne d.tree directory directory' p.name

/-- An attempt that fails leaves all but the number of calls as it was. -/
theorem attempt_error (directory : List String) (content : Bytes)
    (h : outcomeIn d.tree p failures = .error e) :
    ∃ calls, d.attempt directory p content failures = (.error e, { d with calls }) := by
  have hfree := get?_temporary d.tree directory p.name
  rw [attempt]
  cases hcreate : failures.create with
  | some e' =>
    rw [outcomeIn, hcreate] at h
    cases h
    exact ⟨d.calls, rfl⟩
  | none =>
    obtain ⟨x, calls, hreplace⟩ :=
      replaceBy_error hfree (temporary_ne_target directory) content hcreate h
    refine ⟨calls, ?_⟩
    simp only [hreplace]
    exact congrArg (Prod.mk _) (cleanUp_put (d := { d with calls }) hfree x)

/-- An attempt that succeeds sets the file. -/
theorem attempt_ok (directory : List String) (content : Bytes)
    (h : outcomeIn d.tree p failures = .ok ()) :
    ∃ calls target, targetOf d.tree p = .ok target ∧
      d.attempt directory p content failures =
        (.ok (), { d with calls }.put target (.file content
          (modeAfter d.tree p (d.tree.contains p && failures.look.isNone)))) := by
  obtain ⟨target, htarget, hreplace⟩ := replaceBy_ok (get?_temporary d.tree directory p.name)
    (temporary_ne_target directory) content h
  refine ⟨d.calls + 1, target, htarget, ?_⟩
  rw [attempt, (outcomeIn_eq_ok.mp h).1]
  simp only [hreplace]

end Attempt

/-! ## One attempt of many -/

def failuresAt (d : Disk) (k : Nat) : StepFailures := d.failures[k]?.getD {}

def outcomeAt (d : Disk) (p : Path) (k : Nat) : Except SystemError Unit :=
  outcome d.tree p (d.failuresAt k)

/-- Whether the attempt with number `k` finds the old file: it is there, and the
system does not deny it. -/
def finds (d : Disk) (p : Path) (k : Nat) : Bool :=
  d.tree.contains p && (d.failuresAt k).look.isNone

theorem failuresAt_zero (d : Disk) : d.failuresAt 0 = d.failures.head?.getD {} := by
  rw [failuresAt, List.head?_eq_getElem?]

/-- The disk behind an attempt that failed, which has used up its own failures. -/
def behind (d : Disk) (calls : Nat) : Disk := { d with calls, failures := d.failures.drop 1 }

section WriteOnce

variable {d : Disk} {p : Path} {e : SystemError}

theorem writeOnce_error (content : Bytes) (h : outcomeAt d p 0 = .error e) :
    ∃ calls, d.writeOnce p content = (.error e, d.behind calls) := by
  rw [outcomeAt, outcome, failuresAt_zero] at h
  rw [writeOnce]
  cases hdir : d.tree.directoryOf (d.tree.fromRoot p.parent).resolve with
  | error e' =>
    rw [hdir] at h
    cases h
    exact ⟨d.calls, rfl⟩
  | ok directory =>
    rw [hdir] at h
    exact attempt_error (d := { d with failures := d.failures.drop 1 }) directory content h

theorem writeOnce_ok (content : Bytes) (h : outcomeAt d p 0 = .ok ()) :
    ∃ calls failures target, targetOf d.tree p = .ok target ∧
      d.writeOnce p content = (.ok (), { d with calls, failures }.put target
        (.file content (modeAfter d.tree p (d.finds p 0)))) := by
  rw [outcomeAt, outcome, failuresAt_zero] at h
  rw [writeOnce, finds, failuresAt_zero]
  cases hdir : d.tree.directoryOf (d.tree.fromRoot p.parent).resolve with
  | error e' => rw [hdir] at h; cases h
  | ok directory =>
    rw [hdir] at h
    obtain ⟨calls, target, htarget, hattempt⟩ :=
      attempt_ok (d := { d with failures := d.failures.drop 1 }) directory content h
    exact ⟨calls, d.failures.drop 1, target, htarget, hattempt⟩

/-- The next attempts are those behind the first one. -/
theorem failuresAt_behind (d : Disk) (calls k : Nat) :
    (d.behind calls).failuresAt k = d.failuresAt (k + 1) := by
  rw [failuresAt, failuresAt, behind, List.getElem?_drop, Nat.add_comm]

theorem outcomeAt_behind (d : Disk) (calls : Nat) (p : Path) (k : Nat) :
    outcomeAt (d.behind calls) p k = outcomeAt d p (k + 1) := by
  rw [outcomeAt, outcomeAt, failuresAt_behind]
  rfl

theorem finds_behind (d : Disk) (calls : Nat) (p : Path) (k : Nat) :
    (d.behind calls).finds p k = d.finds p (k + 1) := by
  rw [finds, finds, failuresAt_behind]
  rfl

end WriteOnce

/-! ## All attempts -/

def IsBusy (o : Except SystemError Unit) : Prop := ∃ e, o = .error e ∧ e.isBusy = true

/-- Of attempts `0` to `last`, the one that decides: before it the file was busy each time, and it
finds the file busy only if it is the last. -/
structure Decides (o : Nat → Except SystemError Unit) (last k : Nat) : Prop where
  le_last : k ≤ last
  before : ∀ j < k, IsBusy (o j)
  of_busy : IsBusy (o k) → k = last

namespace Decides

variable {o o' : Nat → Except SystemError Unit} {last k k' : Nat}

theorem unique (h : Decides o last k) (h' : Decides o last k') : k = k' := by
  rcases Nat.lt_trichotomy k k' with hlt | heq | hlt
  · have hlast := h.of_busy (h'.before k hlt)
    have hle := h'.le_last
    omega
  · exact heq
  · have hlast := h'.of_busy (h.before k' hlt)
    have hle := h.le_last
    omega

theorem zero (h : IsBusy (o 0) → last = 0) : Decides o last 0 :=
  ⟨Nat.zero_le _, fun _ hj => absurd hj (Nat.not_lt_zero _), fun hb => (h hb).symm⟩

/-- A busy attempt in front of the others decides nothing. -/
theorem succ (hbusy : IsBusy (o 0)) (hnext : ∀ k, o' k = o (k + 1)) (h : Decides o' last k) :
    Decides o (last + 1) (k + 1) := by
  refine ⟨Nat.succ_le_succ h.le_last, fun j hj => ?_, fun hb => ?_⟩
  · cases j with
    | zero => exact hbusy
    | succ j => exact hnext j ▸ h.before j (Nat.lt_of_succ_lt_succ hj)
  · rw [← hnext] at hb
    rw [h.of_busy hb]

end Decides

/-- What a write leaves that comes to a result: the file set, or everything as it was. -/
def Leaves (t : FileTree) (p : Path) (content : Bytes) (found : Bool) (t' : FileTree) :
    Except SystemError Unit → Prop
  | .ok () => ∃ target, targetOf t p = .ok target ∧
      t' = t.set target (.file content (modeAfter t p found))
  | .error _ => t' = t

/-- The first attempt gives the result, unless it finds the file busy and others follow. -/
theorem writeWithin_first {d : Disk} {p : Path} (content : Bytes) {last : Nat}
    (h : IsBusy (outcomeAt d p 0) → last = 0) :
    ∃ d', writeWithin p content (last + 1) d = (outcomeAt d p 0, [], d') ∧
      d'.refusals = d.refusals ∧
      Leaves d.tree p content (d.finds p 0) d'.tree (outcomeAt d p 0) := by
  rw [writeWithin]
  cases hout : outcomeAt d p 0 with
  | ok =>
    obtain ⟨calls, failures, target, htarget, hwrite⟩ := writeOnce_ok content hout
    rw [hwrite]
    exact ⟨_, rfl, rfl, target, htarget, rfl⟩
  | error e =>
    obtain ⟨calls, hwrite⟩ := writeOnce_error content hout
    have hstop : ¬(e.isBusy && decide (0 < last)) = true := by
      intro hbusy
      rw [Bool.and_eq_true, decide_eq_true_eq] at hbusy
      have hlast := h ⟨e, hout, hbusy.1⟩
      omega
    simp only [hwrite, if_neg hstop]
    exact ⟨_, rfl, rfl, rfl⟩

/-- The attempt that decides gives the result. -/
theorem writeWithin_spec (p : Path) (content : Bytes) (last : Nat) (d : Disk) :
    ∃ k result notes d', writeWithin p content (last + 1) d = (result, notes, d') ∧
      Decides (outcomeAt d p) last k ∧ outcomeAt d p k = result ∧ d'.refusals = d.refusals ∧
      Leaves d.tree p content (d.finds p k) d'.tree result := by
  induction last generalizing d with
  | zero =>
    obtain ⟨d', hwrite, hrefusals, hleaves⟩ := writeWithin_first content (fun _ => rfl)
    exact ⟨0, _, [], d', hwrite, .zero fun _ => rfl, rfl, hrefusals, hleaves⟩
  | succ last ih =>
    by_cases hbusy : IsBusy (outcomeAt d p 0)
    · -- the write goes on behind the attempt that failed
      obtain ⟨e, hout, he⟩ := hbusy
      obtain ⟨calls, hwrite⟩ := writeOnce_error content hout
      obtain ⟨k, result, notes, d', hwithin, hk, hresult, hrefusals, hleaves⟩ :=
        ih (d.behind calls)
      rw [outcomeAt_behind] at hresult
      rw [finds_behind] at hleaves
      rw [writeWithin, hwrite]
      exact ⟨k + 1, result, busyNote p e :: notes, d', by simp [he, hwithin],
        hk.succ ⟨e, hout, he⟩ (outcomeAt_behind d calls p), hresult, hrefusals, hleaves⟩
    · obtain ⟨d', hwrite, hrefusals, hleaves⟩ :=
        @writeWithin_first d p content (last + 1) fun h => absurd h hbusy
      exact ⟨0, _, [], d', hwrite, .zero fun h => absurd h hbusy, rfl, hrefusals, hleaves⟩

theorem write_spec (d : Disk) (p : Path) (content : Text) (retries : Nat) :
    ∃ k result notes d', d.write p content retries = (result, notes, d') ∧
      Decides (outcomeAt d p) retries k ∧ outcomeAt d p k = result ∧ d'.refusals = d.refusals ∧
      Leaves d.tree p (encodeText content) (d.finds p k) d'.tree result := by
  have hattempts : ((retries : Int) + 1).toNat = retries + 1 := by omega
  rw [write, hattempts]
  exact writeWithin_spec p (encodeText content) retries d

/-- The file at a path is replaced and nothing else: it has the new content, with the permissions
that it had if it was found, and otherwise those of a new file. -/
structure Replaces (t t' : FileTree) (p : Path) (content : Bytes) (found : Bool) : Prop where
  entry : t'.entry p = .ok (.file content (modeAfter t p found))
  others : ∀ place, t.placeOf p ≠ .ok place → t'.get? place = t.get? place

theorem replaces_set {t : FileTree} {p : Path} {target : List String}
    (h : targetOf t p = .ok target) (hdir : t.get? target ≠ some .directory) (content : Bytes)
    (found : Bool) :
    Replaces t (t.set target (.file content (modeAfter t p found))) p content found := by
  have hplace := placeOf_of_targetOf h
  have hway := FileTree.not_onWay hdir
  refine ⟨FileTree.entry_eq_ok.mpr ⟨target, ?_, ?_⟩, fun place hother => ?_⟩
  · rw [FileTree.placeOf] at hplace ⊢
    have hroot : (t.set target (.file content (modeAfter t p found))).fromRoot p =
        t.fromRoot p := by
      simp [FileTree.fromRoot]
    rw [hroot]
    exact FileTree.walk_set hdir _ hplace
  · rw [FileTree.get?_set t hway, if_pos rfl]
  · have hp : place ≠ target := by
      rintro rfl
      exact hother hplace
    rw [FileTree.get?_set t hway, if_neg hp]

theorem landing_of_outcomeAt {d : Disk} {p : Path} {k : Nat} (h : outcomeAt d p k = .ok ()) :
    landing d.tree p = .ok () := by
  rw [outcomeAt, outcome] at h
  cases hdir : d.tree.directoryOf (d.tree.fromRoot p.parent).resolve with
  | error e => rw [hdir] at h; cases h
  | ok directory => rw [hdir] at h; exact (outcomeIn_eq_ok.mp h).2.2.2.2

section Write

variable {d : Disk} {p : Path} {retries k : Nat}

theorem exists_decides (d : Disk) (p : Path) (retries : Nat) :
    ∃ k, Decides (outcomeAt d p) retries k := by
  obtain ⟨k, result, notes, d', -, hk, -⟩ := write_spec d p [] retries
  exact ⟨k, hk⟩

theorem write_result (hk : Decides (outcomeAt d p) retries k) (content : Text) :
    (d.write p content retries).1 = outcomeAt d p k := by
  obtain ⟨j, result, notes, d', hwrite, hj, hresult, -⟩ := write_spec d p content retries
  rw [hwrite, hk.unique hj, hresult]

theorem write_refusals (d : Disk) (p : Path) (content : Text) (retries : Nat) :
    (d.write p content retries).2.2.refusals = d.refusals := by
  obtain ⟨k, result, notes, d', hwrite, -, -, hrefusals, -⟩ := write_spec d p content retries
  rw [hwrite, hrefusals]

theorem tree_write_of_error {content : Text} {e : SystemError}
    (h : (d.write p content retries).1 = .error e) :
    (d.write p content retries).2.2.tree = d.tree := by
  obtain ⟨k, result, notes, d', hwrite, -, -, -, hleaves⟩ := write_spec d p content retries
  rw [hwrite] at h ⊢
  subst h
  exact hleaves

/-- A write whose deciding attempt succeeds sets the file, and so replaces it. -/
theorem tree_write_of_ok (hk : Decides (outcomeAt d p) retries k) (hok : outcomeAt d p k = .ok ())
    (content : Text) :
    ∃ target, d.tree.placeOf p = .ok target ∧
      (d.write p content retries).2.2.tree =
        d.tree.set target (.file (encodeText content) (modeAfter d.tree p (d.finds p k))) ∧
      Replaces d.tree (d.write p content retries).2.2.tree p (encodeText content)
        (d.finds p k) := by
  obtain ⟨j, result, notes, d', hwrite, hj, hresult, -, hleaves⟩ := write_spec d p content retries
  have hkj := hk.unique hj
  subst hkj
  rw [hok] at hresult
  subst hresult
  obtain ⟨target, htarget, hset⟩ := hleaves
  obtain ⟨target', htarget', hdir⟩ := landing_eq_ok.mp (landing_of_outcomeAt hok)
  rw [htarget] at htarget'
  cases htarget'
  rw [hwrite]
  exact ⟨target, placeOf_of_targetOf htarget, hset, hset ▸ replaces_set htarget hdir _ _⟩

end Write

-- An old file that the system denies: its permissions are lost.
example :
    let d : Disk := { tree := { entries := [(["a.ts"], .file [111] 0o644)] },
                      failures := [{ look := some .noEntry }] }
    (d.write ⟨true, ["a.ts"]⟩ ['n']).2.2.tree.get? ["a.ts"] =
      some (.file (encodeText ['n']) 0o600) := by decide +kernel

end SourceLayout.Disk
