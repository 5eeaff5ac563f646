import SourceLayout.Files.Batch
import SourceLayout.Proofs.Files.Write

/-! Batches of files. The turn of a path reads its file, lays it out and replaces it if it changed;
a batch is one turn after the other. Each turn leaves the shape of the tree and all other files
alone, so a batch does to each file what it would do to it alone, up to the first file that is not
text. Every turn but one whose write fails is reported once. -/

namespace SourceLayout

namespace FileTree

variable {t t' : FileTree} {p q : Path}

theorem readText_congr (h : t'.entry p = t.entry p) : t'.readText p = t.readText p := by
  rw [readText, readText, readBytes, readBytes, h]

theorem readText_of_entry {content : Bytes} {mode : Nat}
    (h : t.entry p = .ok (.file content mode)) :
    t.readText p = (decodeText? content).elim (.error .undecodable) .ok := by
  rw [readText, readBytes, h]
  rfl

theorem exists_file_of_readText {source : Text} (h : t.readText p = .ok source) :
    ∃ content mode, t.entry p = .ok (.file content mode) := by
  rw [readText, readBytes] at h
  cases he : t.entry p with
  | error e => rw [he] at h; cases h
  | ok e =>
    cases e with
    | directory => rw [he] at h; cases h
    | file content mode => exact ⟨content, mode, rfl⟩

/-- The paths do not lead to one place. -/
def Apart (t : FileTree) (p q : Path) : Prop :=
  ∀ place, t.placeOf p = .ok place → t.placeOf q ≠ .ok place

theorem Apart.symm (h : Apart t p q) : Apart t q p := fun place hq hp => h place hp hq

theorem SameShape.apart (h : SameShape t t') : Apart t' p q ↔ Apart t p q := by
  simp only [Apart, h.placeOf]

theorem SameShape.entry_eq_ok (h : SameShape t t') {e : Entry} :
    t'.entry p = .ok e ↔ ∃ place, t.placeOf p = .ok place ∧ t'.get? place = some e := by
  rw [FileTree.entry_eq_ok, h.placeOf]

/-- A file that takes the place of another is found by its path, and other paths
find what they found. -/
theorem entry_set {place : List String} {old : Bytes} {m : Nat} (hp : t.placeOf p = .ok place)
    (hget : t.get? place = some (.file old m)) (new : Bytes) (m' : Nat) :
    (t.set place (.file new m')).entry p = .ok (.file new m') ∧
      ∀ q, Apart t p q → (t.set place (.file new m')).entry q = t.entry q := by
  have hshape := sameShape_set hget new m'
  have hne := not_onWay_of_file hget
  refine ⟨hshape.entry_eq_ok.mpr ⟨place, hp, by rw [get?_set t hne, if_pos rfl]⟩, fun q hq => ?_⟩
  rw [entry, entry, hshape.placeOf]
  cases hplace : t.placeOf q with
  | error e => rfl
  | ok place' =>
    have hother : place' ≠ place := by
      rintro rfl
      exact hq place' hp hplace
    simp only [bind, Except.bind, get?_set t hne, if_neg hother]

end FileTree

namespace Disk

variable {d d' : Disk} {p : Path}

theorem outcome_sameShape {t t' : FileTree} (h : t.SameShape t') (p : Path)
    (failures : StepFailures) : outcome t' p failures = outcome t p failures := by
  have htarget : targetOf t' p = targetOf t p := by rw [targetOf, targetOf, h.directoryOf]
  have hland : landing t' p = landing t p := by
    simp only [landing, htarget, ← FileTree.shapeAt_eq_true, h.shapeAt]
  have hlook : lookFor t' p failures.look = lookFor t p failures.look := by
    cases failures.look with
    | none => rw [lookFor, lookFor, h.contains]
    | some e => rfl
  simp only [outcome, outcomeIn, h.fromRoot, h.directoryOf, hlook, hland]

/-- Reading uses up one refusal and changes nothing else. -/
theorem readText_spec (d : Disk) (p : Path) :
    d.readText p = ((d.readText p).1, { d with refusals := d.refusals.drop 1 }) := by
  rw [readText]
  split <;> rfl

theorem exists_file_of_readText {source : Text} (h : (d.readText p).1 = .ok source) :
    ∃ content mode, d.tree.entry p = .ok (.file content mode) := by
  rw [readText] at h
  split at h
  · cases h
  · exact FileTree.exists_file_of_readText h

section

variable (hshape : d.tree.SameShape d'.tree) (hfailures : d'.failures = d.failures)

include hshape hfailures

theorem outcomeAt_congr : outcomeAt d' p = outcomeAt d p := by
  funext k
  rw [outcomeAt, outcomeAt, failuresAt, failuresAt, hfailures, outcome_sameShape hshape]

/-- What a write leaves at its path depends on where directories and files are,
what is refused, and the file that is there. -/
theorem entry_write_congr (hentry : d'.tree.entry p = d.tree.entry p) (content : Text) :
    (d'.write p content).2.2.tree.entry p = (d.write p content).2.2.tree.entry p := by
  obtain ⟨k, hk⟩ := exists_decides d p 3
  have hsame : outcomeAt d' p = outcomeAt d p := outcomeAt_congr hshape hfailures
  have hk' : Decides (outcomeAt d' p) 3 k := hsame ▸ hk
  have hresult : (d.write p content).1 = outcomeAt d p k := write_result hk content
  have hresult' : (d'.write p content).1 = outcomeAt d p k := hsame ▸ write_result hk' content
  cases hout : outcomeAt d p k with
  | error e =>
    rw [hout] at hresult hresult'
    have htree : (d.write p content).2.2.tree = d.tree := tree_write_of_error hresult
    have htree' : (d'.write p content).2.2.tree = d'.tree := tree_write_of_error hresult'
    rw [htree, htree', hentry]
  | ok =>
    obtain ⟨-, -, -, hset⟩ := tree_write_of_ok hk hout content
    obtain ⟨-, -, -, hset'⟩ := tree_write_of_ok hk' (by rw [hsame, hout]) content
    have hfinds : d'.finds p k = d.finds p k := by
      rw [finds, finds, failuresAt, failuresAt, hfailures, hshape.contains]
    have hmode : modeAfter d'.tree p (d'.finds p k) = modeAfter d.tree p (d.finds p k) := by
      rw [modeAfter, modeAfter, modeOf, modeOf, hentry, hfinds]
    exact hset'.entry.trans (hmode ▸ hset.entry.symm)

end

end Disk

namespace Batch
open Text

/-! ## The turn of a path -/

/-- What becomes of a path in a batch: its file could not be read, a rule failed on it, it stays as
it is, it is replaced, or it could not be written. -/
inductive Turn where
  | unread (why : ReadFailure)
  | faulty (f : Formatted)
  | kept (f : Formatted)
  | replaced (f : Formatted)
  | unwritten (f : Formatted) (why : SystemError)

namespace Turn

def report (f : Formatted) : FileReport :=
  { source := f.source, modified := f.modified, errors := f.failures.map RuleFailure.text }

/-- What is reported. A file that could not be written is reported twice. -/
def reports : Turn → List FileReport
  | .unread why => [{ errors := [why.message] }]
  | .faulty f | .kept f | .replaced f => [report f]
  | .unwritten f why => [report f, { errors := [why.message] }]

def isRefused : Turn → Bool
  | .unread _ | .unwritten .. => true
  | _ => false

def isUnwritten : Turn → Bool
  | .unwritten .. => true
  | _ => false

def isReplaced : Turn → Bool
  | .replaced _ => true
  | _ => false

end Turn

def hasErrors (r : FileReport) : Bool := !r.errors.isEmpty

def turnOf (d : Disk) (p : Path) (f : Formatted) : Turn × Disk :=
  if !f.failures.isEmpty then (.faulty f, d)
  else if !f.modified then (.kept f, d)
  else match d.write p f.source with
    | (.ok (), _, after) => (.replaced f, after)
    | (.error e, _, after) => (.unwritten f e, after)

section

variable {d d' : Disk} {p : Path} {f : Formatted}

theorem turnOf_faulty (hfail : f.failures ≠ []) : turnOf d p f = (.faulty f, d) := by
  simp [turnOf, hfail]

theorem turnOf_kept (hfail : f.failures = []) (hsame : f.modified = false) :
    turnOf d p f = (.kept f, d) := by
  simp [turnOf, hfail, hsame]

theorem turnOf_replaced {notes : List Note} (hfail : f.failures = []) (hnew : f.modified = true)
    (hwrite : d.write p f.source = (.ok (), notes, d')) : turnOf d p f = (.replaced f, d') := by
  simp [turnOf, hfail, hnew, hwrite]

theorem turnOf_unwritten {notes : List Note} {e : SystemError} (hfail : f.failures = [])
    (hnew : f.modified = true) (hwrite : d.write p f.source = (.error e, notes, d')) :
    turnOf d p f = (.unwritten f e, d') := by
  simp [turnOf, hfail, hnew, hwrite]

end

def add (b : Batch) (t : Turn) (disk : Disk) (notes : List Note) : Batch where
  reports := b.reports ++ t.reports
  modified := b.modified + (if t.isReplaced || t.isUnwritten then 1 else 0)
  failed := b.failed + t.reports.countP hasErrors
  disk := disk
  notes := b.notes ++ notes

theorem addFailure_eq (b : Batch) (d : Disk) (p : Path) (why : ReadFailure) :
    ∃ notes, { b with disk := d }.addFailure p why.message = b.add (.unread why) d notes :=
  ⟨_, rfl⟩

theorem addFormatted_eq (b : Batch) (d : Disk) (p : Path) (f : Formatted) :
    ∃ notes, { b with disk := d }.addFormatted p f =
      b.add (turnOf d p f).1 (turnOf d p f).2 notes := by
  obtain ⟨source, modified, failures, notes⟩ := f
  cases failures with
  | cons failure failures => exact ⟨notes, rfl⟩
  | nil =>
    cases modified with
    | false => exact ⟨notes, rfl⟩
    | true =>
      simp only [addFormatted, turnOf, List.map_nil, List.isEmpty_nil, Bool.not_true,
        Bool.false_eq_true, ↓reduceIte]
      rcases d.write p source with ⟨e | -, more, after⟩
      · refine ⟨notes ++ more ++ [⟨.error, .engine, s!"Error processing {p.render}: {e.message}"⟩],
          ?_⟩
        simp [add, addFailure, Turn.reports, Turn.report, Turn.isUnwritten, hasErrors]
      · refine ⟨notes ++ more, ?_⟩
        simp [add, Turn.reports, Turn.report, Turn.isReplaced, hasErrors]

section

variable (cfg : Settings) (rules : List Rule) (parse : Parser)

def laidOut (p : Path) (source : Text) : Formatted :=
  Document.format cfg rules p.render (parse p (unifyBreaks source)) source

def turn (d : Disk) (p : Path) : Except NotText (Turn × Disk) :=
  match d.readText p with
  | (.error .undecodable, after) => .error ⟨p, after⟩
  | (.error why, after) => .ok (.unread why, after)
  | (.ok source, after) => .ok (turnOf after p (laidOut cfg rules parse p source))

/-- A step of a batch is the turn of the path, put on record. -/
theorem step_eq_turn (b : Batch) (p : Path) :
    ∃ notes, step cfg rules parse b p = (turn cfg rules parse b.disk p).map fun r =>
    b.add r.1 r.2 notes := by
  rw [step, turn]
  rcases b.disk.readText p with ⟨why | source, after⟩
  · cases why with
    | undecodable => exact ⟨[], rfl⟩
    | system e q =>
      obtain ⟨notes, h⟩ := addFailure_eq b after p (.system e q)
      exact ⟨notes, congrArg Except.ok h⟩
  · obtain ⟨notes, h⟩ := addFormatted_eq b after p (laidOut cfg rules parse p source)
    exact ⟨notes, congrArg Except.ok h⟩

/-- Whether the turn with number `i` reads a file that is not text. -/
def Garbled (d : Disk) (i : Nat) (p : Path) : Prop :=
  d.refusals[i]?.join = none ∧ d.tree.readText p = .error .undecodable

variable {cfg rules parse}
variable {d d' : Disk} {p : Path} {t : Turn}

theorem readText_eq_undecodable : (d.readText p).1 = .error .undecodable ↔ Garbled d 0 p := by
  rw [Disk.readText, Garbled, ← List.head?_eq_getElem?]
  cases d.refusals.head?.join <;> simp

variable (cfg rules parse) in
/-- What a turn can be on a disk, and how it leaves the disk. -/
inductive Takes (d : Disk) (p : Path) : Turn → Disk → Prop
  | unread {why : ReadFailure} {d' : Disk} (hread : (d.readText p).1 = .error why)
      (hwhy : why ≠ .undecodable) (htree : d'.tree = d.tree) : Takes d p (.unread why) d'
  | faulty {source : Text} {d' : Disk} (hread : (d.readText p).1 = .ok source)
      (hfail : (laidOut cfg rules parse p source).failures ≠ []) (htree : d'.tree = d.tree) :
      Takes d p (.faulty (laidOut cfg rules parse p source)) d'
  | kept {source : Text} {d' : Disk} (hread : (d.readText p).1 = .ok source)
      (hfail : (laidOut cfg rules parse p source).failures = [])
      (hsame : (laidOut cfg rules parse p source).source = source) (htree : d'.tree = d.tree) :
      Takes d p (.kept (laidOut cfg rules parse p source)) d'
  | replaced {source : Text} {d' : Disk} {k : Nat} (hread : (d.readText p).1 = .ok source)
      (hfail : (laidOut cfg rules parse p source).failures = [])
      (hnew : (laidOut cfg rules parse p source).source ≠ source)
      (hwrite : (d.write p (laidOut cfg rules parse p source).source).1 = .ok ())
      (hdecides : Disk.Decides (Disk.outcomeAt d p) 3 k)
      (hset : Disk.Replaces d.tree d'.tree p (encodeText (laidOut cfg rules parse p source).source)
        (d.finds p k)) :
      Takes d p (.replaced (laidOut cfg rules parse p source)) d'
  | unwritten {source : Text} {d' : Disk} {why : SystemError}
      (hread : (d.readText p).1 = .ok source)
      (hfail : (laidOut cfg rules parse p source).failures = [])
      (hnew : (laidOut cfg rules parse p source).source ≠ source)
      (hwrite : (d.write p (laidOut cfg rules parse p source).source).1 = .error why)
      (htree : d'.tree = d.tree) : Takes d p (.unwritten (laidOut cfg rules parse p source) why) d'

def TreeAfter (t : FileTree) (p : Path) (t' : FileTree) : Prop :=
  t' = t ∨ ∃ place old new m m', t.placeOf p = .ok place ∧ t.get? place = some (.file old m) ∧
    t' = t.set place (.file (encodeText new) m')

/-- The turn of a path whose file can be read. -/
theorem turn_of_read {source : Text} (hread : (d.readText p).1 = .ok source) :
    ∃ t d', turn cfg rules parse d p = .ok (t, d') ∧ Takes cfg rules parse d p t d' ∧
      d'.refusals = d.refusals.drop 1 ∧ TreeAfter d.tree p d'.tree := by
  let f := laidOut cfg rules parse p source
  let after : Disk := { d with refusals := d.refusals.drop 1 }
  have hturn : turn cfg rules parse d p = .ok (turnOf after p f) := by
    rw [turn, Disk.readText_spec, hread]
  have hmodified : f.modified = (f.source != source) := rfl
  rw [hturn]
  by_cases hfail : f.failures = []
  · by_cases hsame : f.source = source
    · rw [turnOf_kept hfail (by simpa [hmodified] using hsame)]
      exact ⟨_, _, rfl, .kept hread hfail hsame rfl, rfl, .inl rfl⟩
    · have hnew : f.modified = true := by simpa [hmodified] using hsame
      obtain ⟨k, hk⟩ := Disk.exists_decides d p 3
      have hwrite : (d.write p f.source).1 = Disk.outcomeAt d p k := Disk.write_result hk f.source
      have hresult : (after.write p f.source).1 = Disk.outcomeAt d p k :=
        Disk.write_result (d := after) hk f.source
      have hrefusals : (after.write p f.source).2.2.refusals = d.refusals.drop 1 :=
        Disk.write_refusals after p f.source 3
      cases hout : Disk.outcomeAt d p k with
      | ok =>
        obtain ⟨old, m, hold⟩ := Disk.exists_file_of_readText hread
        obtain ⟨place, hplace, hset, hreplaces⟩ :=
          Disk.tree_write_of_ok (d := after) hk hout f.source
        obtain ⟨place', hplace', hget⟩ := FileTree.entry_eq_ok.mp hold
        cases hplace.symm.trans hplace'
        rw [turnOf_replaced hfail hnew (Prod.ext (hresult.trans hout) rfl)]
        exact ⟨_, _, rfl, .replaced hread hfail hsame (hwrite.trans hout) hk hreplaces, hrefusals,
          .inr ⟨place, old, f.source, m, _, hplace, hget, hset⟩⟩
      | error e =>
        rw [hout] at hresult
        have htree : (after.write p f.source).2.2.tree = d.tree := Disk.tree_write_of_error hresult
        rw [turnOf_unwritten hfail hnew (Prod.ext hresult rfl)]
        exact ⟨_, _, rfl, .unwritten hread hfail hsame (hwrite.trans hout) htree, hrefusals,
          .inl htree⟩
  · rw [turnOf_faulty hfail]
    exact ⟨_, _, rfl, .faulty hread hfail rfl, rfl, .inl rfl⟩

/-- Everything a turn can do. -/
theorem turn_cases (cfg : Settings) (rules : List Rule) (parse : Parser) (d : Disk) (p : Path) :
    (Garbled d 0 p ∧ ∃ stop, turn cfg rules parse d p = .error stop ∧ stop.disk.tree = d.tree) ∨
    ¬ Garbled d 0 p ∧ ∃ t d', turn cfg rules parse d p = .ok (t, d') ∧
      Takes cfg rules parse d p t d' ∧
      d'.refusals = d.refusals.drop 1 ∧ TreeAfter d.tree p d'.tree := by
  rw [← readText_eq_undecodable]
  cases hread : (d.readText p).1 with
  | ok source => exact .inr ⟨by simp, turn_of_read hread⟩
  | error why =>
    rw [turn, Disk.readText_spec, hread]
    cases why with
    | undecodable => exact .inl ⟨rfl, _, rfl, rfl⟩
    | system e q => exact .inr ⟨by simp, _, _, rfl, .unread hread (by simp) rfl, rfl, .inl rfl⟩

namespace TreeAfter

variable {t t' : FileTree} {p q : Path}

theorem sameShape (h : TreeAfter t p t') : t.SameShape t' := by
  rcases h with rfl | ⟨place, old, new, m, m', -, hget, rfl⟩
  · exact .refl _
  · exact FileTree.sameShape_set hget ..

theorem entry (h : TreeAfter t p t') (hq : t.Apart p q) : t'.entry q = t.entry q := by
  rcases h with rfl | ⟨place, old, new, m, m', hplace, hget, rfl⟩
  · rfl
  · exact (FileTree.entry_set hplace hget ..).2 q hq

/-- What can be read as text stays so. -/
theorem readText_ne (h : TreeAfter t p t') (hq : t.readText q ≠ .error .undecodable) :
    t'.readText q ≠ .error .undecodable := by
  by_cases hapart : t.Apart p q
  · rwa [FileTree.readText_congr (h.entry hapart)]
  · rcases h with rfl | ⟨place, old, new, m, m', hplace, hget, rfl⟩
    · exact hq
    · -- the other path leads to the file that was replaced
      have hsame : t.placeOf q = .ok place := by
        simp only [FileTree.Apart, hplace, Except.ok.injEq, forall_eq', ne_eq, not_not] at hapart
        exact hapart
      rw [FileTree.readText_of_entry (FileTree.entry_set hsame hget ..).1, decodeText?_encodeText]
      exact fun h => nomatch h

end TreeAfter

/-! ## Batches -/

variable (cfg rules parse) in
/-- The turns of a batch, one for each path in their order, and the disk that they leave. -/
inductive History : Disk → List Path → List Turn → Disk → Prop
  | nil (d : Disk) : History d [] [] d
  | cons {d d₁ d₂ : Disk} {p : Path} {t : Turn} {paths : List Path} {turns : List Turn}
      (first : Takes cfg rules parse d p t d₁) (rest : History d₁ paths turns d₂) :
      History d (p :: paths) (t :: turns) d₂

theorem History.length {paths : List Path} {turns : List Turn}
    (h : History cfg rules parse d paths turns d') : turns.length = paths.length := by
  induction h with
  | nil => rfl
  | cons _ _ ih => rw [List.length_cons, List.length_cons, ih]

variable (cfg rules parse) in
/-- A batch whose files are all text or cannot be read has a history, and puts it on record. -/
theorem foldlM_history (paths : List Path) (b : Batch)
    (h : ∀ p ∈ paths, b.disk.tree.readText p ≠ .error .undecodable) :
    ∃ b' turns, paths.foldlM (step cfg rules parse) b = .ok b' ∧
      History cfg rules parse b.disk paths turns b'.disk ∧
      b'.reports = b.reports ++ turns.flatMap Turn.reports ∧
      b'.modified = b.modified + turns.countP (fun t => t.isReplaced || t.isUnwritten) ∧
      b'.failed = b.failed + (turns.flatMap Turn.reports).countP hasErrors := by
  induction paths generalizing b with
  | nil => exact ⟨b, [], rfl, .nil _, by simp, rfl, rfl⟩
  | cons p paths ih =>
    rcases turn_cases cfg rules parse b.disk p
      with ⟨hgarbled, -⟩ | ⟨-, t, d', hturn, htakes, -, htree⟩
    · exact absurd hgarbled.2 (h p List.mem_cons_self)
    · obtain ⟨notes, hstep⟩ := step_eq_turn cfg rules parse b p
      rw [hturn] at hstep
      obtain ⟨b', turns, hrun, hhistory, hreports, hmodified, hfailed⟩ := ih (b.add t d' notes)
        fun q hq => htree.readText_ne (h q (List.mem_cons_of_mem p hq))
      refine ⟨b', t :: turns, ?_, .cons htakes hhistory, ?_, ?_, ?_⟩
      · rw [List.foldlM_cons, hstep]
        exact hrun
      · rw [hreports, add, List.flatMap_cons, List.append_assoc]
      · simp only [hmodified, add, List.countP_cons]
        omega
      · simp only [hfailed, add, List.flatMap_cons, List.countP_append]
        omega

/-- A batch accounts for its turns: each has one report of its own, which tells of an
error if the file could not be read or written, the errors are counted, and so are the
files that were replaced. -/
structure Accounts (turns : List Turn) (b : Batch) : Prop where
  reports : List.Forall₂ (fun t r => r ∈ t.reports ∧ (t.isRefused = true → hasErrors r = true))
    turns b.reports
  failed : b.failed = b.reports.countP hasErrors
  modified : b.modified = turns.countP Turn.isReplaced

theorem countP_written (turns : List Turn) :
    turns.countP (fun t => t.isReplaced || t.isUnwritten) =
      turns.countP Turn.isReplaced + turns.countP Turn.isUnwritten := by
  induction turns with
  | nil => rfl
  | cons t turns ih =>
    simp only [List.countP_cons, ih]
    cases t <;> simp [Turn.isReplaced, Turn.isUnwritten] <;> omega

theorem length_reports (turns : List Turn) :
    (turns.flatMap Turn.reports).length = turns.length + turns.countP Turn.isUnwritten := by
  induction turns with
  | nil => rfl
  | cons t turns ih =>
    rw [List.flatMap_cons, List.length_append, ih, List.length_cons, List.countP_cons]
    cases t <;> simp [Turn.reports, Turn.isUnwritten] <;> omega

theorem forall₂_reports {turns : List Turn} (h : ∀ t ∈ turns, t.isUnwritten = false) :
    List.Forall₂ (fun t r => r ∈ t.reports ∧ (t.isRefused = true → hasErrors r = true)) turns
      (turns.flatMap Turn.reports) := by
  induction turns with
  | nil => exact .nil
  | cons t turns ih =>
    have hrest := ih fun u hu => h u (List.mem_cons_of_mem t hu)
    have hfirst := h t List.mem_cons_self
    cases t with
    | unread why => exact .cons ⟨List.mem_singleton.mpr rfl, fun _ => rfl⟩ hrest
    | faulty f => exact .cons ⟨List.mem_singleton.mpr rfl, fun h => nomatch h⟩ hrest
    | kept f => exact .cons ⟨List.mem_singleton.mpr rfl, fun h => nomatch h⟩ hrest
    | replaced f => exact .cons ⟨List.mem_singleton.mpr rfl, fun h => nomatch h⟩ hrest
    | unwritten f why => cases hfirst

/-- What a batch reports and counts when all its files are text or cannot be read. A file that could
not be written is reported twice and counted as replaced, so the batch accounts for its paths
exactly if there is none. -/
theorem run_accounts (cfg : Settings) (rules : List Rule) (parse : Parser) (paths : List Path)
    (disk : Disk) (h : ∀ p ∈ paths, disk.tree.readText p ≠ .error .undecodable) :
    ∃ b turns, run cfg rules parse paths disk = .ok b ∧
      History cfg rules parse disk paths turns b.disk ∧
      b.reports = turns.flatMap Turn.reports ∧
      b.failed = b.reports.countP hasErrors ∧
      b.modified = turns.countP Turn.isReplaced + turns.countP Turn.isUnwritten ∧
      (Accounts turns b ↔ ∀ t ∈ turns, t.isUnwritten = false) := by
  obtain ⟨b, turns, hrun, hhistory, hreports, hmodified, hfailed⟩ :=
    foldlM_history cfg rules parse paths { disk } h
  rw [List.nil_append] at hreports
  rw [Nat.zero_add] at hmodified hfailed
  rw [← hreports] at hfailed
  rw [countP_written] at hmodified
  refine ⟨b, turns, hrun, hhistory, hreports, hfailed, hmodified, fun haccounts => ?_,
    fun hwritten => ?_⟩
  · have hlength := haccounts.reports.length_eq
    rw [hreports, length_reports] at hlength
    have hnone : turns.countP Turn.isUnwritten = 0 := by omega
    intro t ht
    simpa using List.countP_eq_zero.mp hnone t ht
  · have hnone : turns.countP Turn.isUnwritten = 0 :=
      List.countP_eq_zero.mpr fun t ht => by simp [hwritten t ht]
    exact ⟨hreports ▸ forall₂_reports hwritten, hfailed, by rw [hmodified, hnone, Nat.add_zero]⟩

/-- A batch of a file that is laid out and one that is missing. -/
theorem run_accounts_missing_file :
    let source := "interface A \x7b a: string \x7d\n".toList
    let disk : Disk := { tree := { entries := [(["a.ts"], .file (encodeText source) 0o644)] } }
    let parse : Parser := fun _ _ => [⟨.interfaceDeclaration, ⟨0, 0⟩, ⟨0, 25⟩, false, none⟩]
    ∃ b turns, run {} Rule.standard parse [⟨true, ["a.ts"]⟩, ⟨true, ["b.ts"]⟩] disk = .ok b ∧
      turns.length = 2 ∧ b.failed = b.reports.countP hasErrors ∧
      (Accounts turns b ↔ ∀ t ∈ turns, t.isUnwritten = false) := by
  intro source disk parse
  obtain ⟨b, turns, hrun, hhistory, -, hfailed, -, haccounts⟩ :=
    run_accounts {} Rule.standard parse [⟨true, ["a.ts"]⟩, ⟨true, ["b.ts"]⟩] disk
      (by
        intro p hp
        simp only [List.mem_cons, List.not_mem_nil, or_false] at hp
        rcases hp with rfl | rfl <;> decide +kernel)
  exact ⟨b, turns, hrun, hhistory.length, hfailed, haccounts⟩

/-- A file that could not be written has two reports and counts as replaced,
though it is as it was. -/
theorem failed_write_reported_twice :
    let source := "interface A \x7b a: string \x7d\n".toList
    let full : SystemError := ⟨28, "ENOSPC", "No space left on device"⟩
    let disk : Disk := { tree := { entries := [(["a.ts"], .file (encodeText source) 0o644)] },
                         failures := [{ rename := some full }] }
    let parse : Parser := fun _ _ => [⟨.interfaceDeclaration, ⟨0, 0⟩, ⟨0, 25⟩, false, none⟩]
    let out := (run {} Rule.standard parse [⟨true, ["a.ts"]⟩] disk).toOption
    out.map (fun b => (b.reports.map (·.errors), b.modified, b.failed)) =
        some ([[], ["[Errno 28] No space left on device"]], 1, 1) ∧
      out.map (·.disk.tree.entries) = some disk.tree.entries := by
  decide +kernel

end

end Batch

end SourceLayout
