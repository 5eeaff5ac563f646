import SourceLayout.CommandLine
import SourceLayout.Proofs.Files.Asked
import SourceLayout.Proofs.Files.Batch

/-! A run of the command line leaves everything but its file as it was. If it ends with success, the
file is laid out, and otherwise the file is as it was too, unless all that failed was to print that
it is laid out. Whether to write is decided before it is asked if the run is a check only, so that a
check fails exactly if the run without it goes on to write. -/

namespace SourceLayout

namespace CommandLine
open Text

/-! ## What is decided before anything is written -/

/-- What a run comes to before it writes. -/
inductive Decision where
  /-- It ends without a layout. -/
  | stop (ending : Ending)
  /-- The file is laid out already. -/
  | keep (p : Path)
  /-- The file has another layout. -/
  | replace (p : Path) (content : Text)

section

variable (parse : Batch.Parser) (prints : String → Bool)

def Decision.carryOut (check : Bool) (d : Disk) : Decision → Ending × Disk
  | .stop ending => (ending, d)
  | .keep p => (closing prints 0 (.unchanged p), d)
  | .replace p content =>
    if check then (closing prints 1 (.wouldChange p), d)
    else
      match d.write p content with
      | (.ok (), _, after) => (closing prints 0 (.changed p), after)
      | (.error _, _, after) => (.exit 1, after)

end

variable {parse : Batch.Parser} {prints : String → Bool} {d : Disk}

theorem closing_eq_exit {code code' : Nat} {m : Message} :
    closing prints code m = .exit code' ↔ prints m.text = true ∧ code = code' := by
  rw [closing]
  split <;> simp [*]

/-- What a decision tells about the file. -/
inductive Decided (parse : Batch.Parser) (d : Disk) (file : Option Path) : Decision → Prop
  | stop {ending : Ending} (hcode : ending ≠ .exit 0)
      (hunread : ∀ p source, file = some p → (d.readText p).1 = .ok source → ending ≠ .exit 1) :
      Decided parse d file (.stop ending)
  | keep {p : Path} {cfg : Settings} {notes : List Note} {source : Text} (hfile : file = some p)
      (hload : Settings.load d.tree p = .ok (cfg, notes)) (hread : d.tree.readText p = .ok source)
      (hsame : (Batch.laidOut cfg Rule.standard parse p source).source = source) :
      Decided parse d file (.keep p)
  | replace {p : Path} {cfg : Settings} {notes : List Note} {source : Text} (hfile : file = some p)
      (hload : Settings.load d.tree p = .ok (cfg, notes)) (hread : d.tree.readText p = .ok source) :
      Decided parse d file (.replace p (Batch.laidOut cfg Rule.standard parse p source).source)

variable (prints d) in
/-- A file that is to be replaced stays as it was, or has its new content and
all else is as it was. -/
theorem carryOut_replace (p : Path) (content : Text) :
    let out := (Decision.replace p content).carryOut prints false d
    (out.1 = .exit 1 ∧ out.2.tree = d.tree) ∨
    (out.1 = closing prints 0 (.changed p) ∧ out.2.tree.readText p = .ok content ∧
      ∀ place, d.tree.placeOf p ≠ .ok place → out.2.tree.get? place = d.tree.get? place) := by
  obtain ⟨k, hk⟩ := Disk.exists_decides d p 3
  have hresult : (d.write p content).1 = Disk.outcomeAt d p k := Disk.write_result hk content
  simp only [Decision.carryOut, Bool.false_eq_true, if_false]
  cases hout : Disk.outcomeAt d p k with
  | error e =>
    have htree : (d.write p content).2.2.tree = d.tree :=
      Disk.tree_write_of_error (hresult.trans hout)
    rw [show d.write p content = (.error e, (d.write p content).2) from
      Prod.ext (hresult.trans hout) rfl]
    exact .inl ⟨rfl, htree⟩
  | ok =>
    obtain ⟨-, -, -, hset⟩ := Disk.tree_write_of_ok hk hout content
    rw [show d.write p content = (.ok (), (d.write p content).2) from
      Prod.ext (hresult.trans hout) rfl]
    refine .inr ⟨rfl, ?_, hset.others⟩
    exact (FileTree.readText_of_entry hset.entry).trans (by rw [decodeText?_encodeText]; rfl)

/-- The file that was asked for holds the layout of its old text, under the
settings that apply to it. -/
def LaidOut (parse : Batch.Parser) (t : FileTree) (file : Option Path) (t' : FileTree) : Prop :=
  ∃ p cfg notes source, file = some p ∧ Settings.load t p = .ok (cfg, notes) ∧
    t.readText p = .ok source ∧
    t'.readText p =
      .ok (Document.format cfg Rule.standard p.render (parse p (unifyBreaks source)) source).source

section

variable {file : Option Path} {dec : Decision} {refusals : List (Option SystemError)}

/-- Everything that carrying out a decision can do: the files stay, and the run succeeds only if its
file is laid out, or the file is replaced by its layout and the run says so. -/
theorem Decided.carryOut_cases (h : Decided parse d file dec) (check : Bool) :
    let out := dec.carryOut prints check { d with refusals }
    (out.2.tree = d.tree ∧ (out.1 = .exit 0 → LaidOut parse d.tree file d.tree)) ∨
    ∃ p ∈ file, out.1 = closing prints 0 (.changed p) ∧ LaidOut parse d.tree file out.2.tree ∧
      ∀ place, d.tree.placeOf p ≠ .ok place → out.2.tree.get? place = d.tree.get? place := by
  cases h with
  | stop hcode => exact .inl ⟨rfl, fun hexit => absurd hexit hcode⟩
  | @keep p cfg notes source hfile hload hread hsame =>
    refine .inl ⟨rfl, fun _ => ⟨p, cfg, notes, source, hfile, hload, hread, ?_⟩⟩
    exact hread.trans (congrArg Except.ok hsame.symm)
  | @replace p cfg notes source hfile hload hread =>
    cases check with
    | true =>
      refine .inl ⟨rfl, fun hexit => ?_⟩
      simp [Decision.carryOut, closing_eq_exit] at hexit
    | false =>
      rcases carryOut_replace prints { d with refusals } p
        (Batch.laidOut cfg Rule.standard parse p source).source with
        ⟨hone, htree⟩ | ⟨hclosing, hnew, hothers⟩
      · refine .inl ⟨htree, fun hexit => ?_⟩
        rw [hone] at hexit
        cases hexit
      · exact .inr ⟨p, hfile, hclosing, ⟨p, cfg, notes, source, hfile, hload, hread, hnew⟩, hothers⟩

theorem Decided.others (h : Decided parse d file dec) (check : Bool) {place : List String}
    (hplace : ∀ p ∈ file, d.tree.placeOf p ≠ .ok place) :
    (dec.carryOut prints check { d with refusals }).2.tree.get? place = d.tree.get? place := by
  rcases h.carryOut_cases check with ⟨htree, -⟩ | ⟨p, hfile, -, -, hothers⟩
  · rw [htree]
  · exact hothers place (hplace p hfile)

theorem Decided.laidOut (h : Decided parse d file dec) {check : Bool}
    (hexit : (dec.carryOut prints check { d with refusals }).1 = .exit 0) :
    LaidOut parse d.tree file (dec.carryOut prints check { d with refusals }).2.tree := by
  rcases h.carryOut_cases check with ⟨htree, hdone⟩ | ⟨p, -, -, hdone, -⟩
  · rw [htree]
    exact hdone hexit
  · exact hdone

/-- A run that does not end with success leaves the files as they were, unless all that fails is to
print that the file is laid out. -/
theorem Decided.failed (h : Decided parse d file dec) {check : Bool}
    (hexit : (dec.carryOut prints check { d with refusals }).1 ≠ .exit 0) :
    let out := dec.carryOut prints check { d with refusals }
    out.2.tree = d.tree ∨ (out.1 = .broken .unprinted ∧ LaidOut parse d.tree file out.2.tree ∧
      ∃ p ∈ file, prints (Message.changed p).text = false) := by
  rcases h.carryOut_cases check with ⟨htree, -⟩ | ⟨p, hfile, hclosing, hdone, -⟩
  · exact .inl htree
  · have hmute : prints (Message.changed p).text = false := by
      rw [hclosing, ne_eq, closing_eq_exit] at hexit
      simpa using hexit
    refine .inr ⟨?_, hdone, p, hfile, hmute⟩
    rw [hclosing, closing, hmute]
    rfl

end

/-! ## Runs -/

end CommandLine

end SourceLayout
