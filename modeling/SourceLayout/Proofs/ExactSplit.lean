import SourceLayout.Proofs.Lexing
import SourceLayout.Proofs.Stable.Separators

/-! Cutting a text at its separators is exact. A separator that stands outside brackets stands where
nothing is open, so each piece is read alone as it is read in the text, and is cut no further;
together the pieces show all that the text shows but its separators. Where no line comment swallows
it, one separator between two pieces is enough to keep them apart. -/

namespace SourceLayout.Scan
open Text

/-! ## Line comments -/

/-- Whether a line comment begins in a text that is read from phase `p` and state `s`. -/
def opensLineFrom (p : Phase) (s : State) : Text → Bool
  | [] => false
  | c :: r =>
    let (_, p', s') := step p s c r.head?
    p' == .line || opensLineFrom p' s' r

def hasLineComment (t : Text) : Bool := opensLineFrom .free {} t

theorem opensLineFrom_cons (p : Phase) (s : State) (c : Char) (r : Text) :
    opensLineFrom p s (c :: r) =
      ((step p s c r.head?).2.1 == .line ||
        opensLineFrom (step p s c r.head?).2.1 (step p s c r.head?).2.2 r) := rfl

theorem opensLineFrom_append {p : Phase} {s : State} {u v : Text} (h : Cuts p s u v) :
    opensLineFrom p s (u ++ v) =
      (opensLineFrom p s u || opensLineFrom (endFrom p s u).1 (endFrom p s u).2 v) := by
  induction u generalizing p s with
  | nil => rfl
  | cons c u ih =>
    obtain ⟨hstep, hrest⟩ := h.cons
    rw [List.cons_append, opensLineFrom_cons, opensLineFrom_cons, hstep, ih hrest, Bool.or_assoc]
    rfl

theorem State.Alike.opensLineFrom {s s' : State} (h : s.Alike s') (p : Phase) (t : Text) :
    opensLineFrom p s t = Scan.opensLineFrom p s' t := by
  induction t generalizing p s s' with
  | nil => rfl
  | cons c r ih =>
    obtain ⟨-, hphase, halike⟩ := h.step p c r.head?
    rw [opensLineFrom_cons, opensLineFrom_cons, hphase, ih halike]

/-- A text in which no line comment begins does not end in one. -/
theorem endFrom_ne_line {p : Phase} {s : State} {t : Text} (hp : p ≠ .line)
    (h : opensLineFrom p s t = false) : (endFrom p s t).1 ≠ .line := by
  induction t generalizing p s with
  | nil => exact hp
  | cons c r ih =>
    rw [opensLineFrom_cons, Bool.or_eq_false_iff, beq_eq_false_iff_ne] at h
    exact ih h.1 h.2

/-! ## Where a piece ends -/

/-- Behind the text code goes on outside all brackets. -/
def Settles (u : Text) : Prop :=
  (endFrom .free {} u).1 = .free ∧ (endFrom .free {} u).2.settled = true

theorem Settles.closes {u : Text} (h : Settles u) : Closes u := by
  obtain ⟨-, hq, hb⟩ := settled_iff.mp h.2
  exact ⟨h.1, by simp [State.lex, hq, hb]⟩

theorem step_stop_settled {s : State} (hs : s.settled = true) {c : Char} (hc : isStop c = true) :
    step .free s c none = (⟨c, 0, .code⟩, .free, { s with previous := some c }) := by
  obtain ⟨hstack, hq, hb⟩ := settled_iff.mp hs
  have hsign : isQuote c = false ∧ c ≠ '/' := by
    have hcases : c = ',' ∨ c = ';' := by simpa [isStop] using hc
    rcases hcases with rfl | rfl <;> decide
  simp [step, stepFree, hq, hb, hsign, readCode_stop hc, State.depth, hstack]

theorem Settles.cuts {u : Text} (h : Settles u) {c : Char} (hc : isStop c = true) (v : Text) :
    Cuts .free {} u (c :: v) := by
  have hsign : c ≠ '/' ∧ c ≠ '*' := by
    have hjoins := not_joins_of_stop hc
    constructor <;> (rintro rfl; cases hjoins)
  exact .inr ⟨by simpa using hsign, .of_none rfl, h.closes.quote⟩

/-- A sign behind a text separates, outside all brackets, just where nothing is open. -/
theorem getLast?_stop_iff {c : Char} (hc : isStop c = true) (u : Text) :
    (marks (u ++ [c])).getLast? = some ⟨c, 0, .code⟩ ↔ Settles u := by
  constructor
  · intro h
    obtain ⟨m, hm⟩ := marks_concat_stop hc u
    obtain rfl : m = ⟨c, 0, .code⟩ := by simpa [hm] using h
    have hmark := getElem?_marksFrom .free {} u c []
    rw [← marks, hm, List.getElem?_append_right (by simp), length_marks, Nat.sub_self,
      List.getElem?_cons_zero, Option.some.injEq, List.head?_nil] at hmark
    have hn : c ≠ '\n' := by
      rintro rfl
      cases hc
    have hcode := inCode_of_code hn (congrArg Mark.isCode hmark).symm
    obtain ⟨hend, -, -⟩ := cut_inCode hcode
    obtain ⟨-, halike⟩ := step_stop hc (congrArg Mark.isTop hmark).symm
    rw [Settles, hend, settled_iff]
    exact ⟨hcode.phase, halike.stack, halike.quote, halike.inBlock⟩
  · intro h
    rw [marks, marksFrom_cut (h.cuts hc []), h.1, marksFrom_cons, List.head?_nil,
      step_stop_settled h.2 hc]
    exact List.getLast?_concat

/-- A text that is ended by one separator is ended by every other. -/
theorem ended_iff {separators : List Char} {c : Char} (hc : isStop c = true) {u : Text} :
    Ended separators c u ↔ (∀ m ∈ marks u, isSeparator separators m = false) ∧ Settles u :=
  ⟨fun h => ⟨h.uncut, (getLast?_stop_iff hc u).mp h.closes⟩,
    fun h => ⟨h.1, (getLast?_stop_iff hc u).mpr h.2⟩⟩

/-- A line comment before a separator or behind it is a line comment of the text. -/
theorem Settles.hasLineComment_append {u : Text} (h : Settles u) {c : Char} (hc : isStop c = true)
    (v : Text) : hasLineComment (u ++ c :: v) = (hasLineComment u || hasLineComment v) := by
  have hstep : step .free (endFrom .free {} u).2 c v.head? = _ :=
    (step_next .free _ (not_joins_of_stop hc) _).trans (step_stop_settled h.2 hc)
  have htop : (step .free (endFrom .free {} u).2 c none).1.isTop = true := by
    rw [step_stop_settled h.2 hc]
    rfl
  have halike := (step_stop hc htop).2
  rw [hasLineComment, opensLineFrom_append (h.cuts hc v), h.1, opensLineFrom_cons, hstep]
  exact congrArg (hasLineComment u || ·) (halike.opensLineFrom .free v)

/-- Without the blanks around it a text without line comments settles as before. -/
theorem Settles.trim {u : Text} (h : Settles u) (hline : hasLineComment u = false) :
    Settles (trim u) := by
  obtain ⟨b, hu, hb⟩ := trim_spec u
  have hindent := isBlankLine_indentOf u
  obtain ⟨hstate, hphase⟩ := endFrom_blank (s := {}) rfl hindent .free
  -- reading begins behind the indentation
  have hcut : Cuts .free {} (indentOf u) (Text.trim u ++ b) := Cuts.blank_left hindent _
  have hend : endFrom .free {} u = endFrom .free {} (Text.trim u ++ b) := by
    conv => lhs; rw [hu, List.append_assoc, endFrom_append hcut, hstate, hphase rfl]
  rw [hasLineComment, hu, List.append_assoc, opensLineFrom_append hcut, hstate, hphase rfl,
    Bool.or_eq_false_iff] at hline
  -- and the blanks at the end leave the state as it is
  have hsame : (endFrom .free {} u).2 = (endFrom .free {} (Text.trim u)).2 := by
    rw [hend, ← stateFrom_eq, ← stateFrom_eq]
    exact stateFrom_append_blank .free (.of_none rfl) _ hb
  have hq : (endFrom .free {} (Text.trim u)).2.quote = none := hsame ▸ h.closes.quote
  have hopens := hline.2
  rw [opensLineFrom_append (Cuts.blank_right (.of_none rfl) hq hb), Bool.or_eq_false_iff] at hopens
  have hquiet := endFrom_quiet (p := .free) {} (t := Text.trim u) (.inl rfl)
  have hne := endFrom_ne_line (p := .free) (by decide) hopens.1
  refine ⟨?_, hsame ▸ h.2⟩
  cases hp : (endFrom .free {} (Text.trim u)).1 with
  | free => rfl
  | line => exact absurd hp hne
  | escaped => simp [hp, Phase.quiet] at hquiet
  | sign => simp [hp, Phase.quiet] at hquiet

/-! ## Pieces -/

theorem uncut_trim {separators : List Char} {x : Text}
    (h : ∀ m ∈ marks x, isSeparator separators m = false) :
    ∀ m ∈ marks (trim x), isSeparator separators m = false := by
  obtain ⟨ms, hms, -⟩ := marks_trim x
  intro m hm
  exact h m (by simp [hms, hm])

theorem splitTop_piece {separators : List Char} {p : Text} (hne : p ≠ []) (htrim : trim p = p)
    (huncut : ∀ m ∈ marks p, isSeparator separators m = false) : splitTop separators p = [p] := by
  rw [splitTop_uncut huncut, htrim]
  simp [hne]

/-- The pieces show what the text shows outside its separators. -/
theorem filter_splitTop (separators : List Char) (t : Text) :
    (splitTop separators t).flatten.filter (!isBlank ·) =
      (((marks t).filter (!isSeparator separators ·)).map Mark.char).filter (!isBlank ·) := by
  have hshown (ps : List Text) : ((ps.map trim).filter (!·.isEmpty)).flatten.filter (!isBlank ·) =
      ps.flatten.filter (!isBlank ·) := by
    induction ps with
    | nil => rfl
    | cons p ps ih =>
      rw [List.flatten_cons, List.filter_append, ← filter_trim p, ← ih, List.map_cons,
        List.filter_cons]
      cases trim p with
      | nil => rfl
      | cons c r => rw [if_pos (by rfl), List.flatten_cons, List.filter_append]
  rw [splitTop, hshown, piecesTop_eq, ← List.map_flatten, flatten_splitWhen]

section
variable {separators : List Char} (hseps : separators.all isStop = true)
include hseps

theorem uncut_of_mem_piecesTop {t x : Text} (hx : x ∈ piecesTop separators t) :
    ∀ m ∈ marks x, isSeparator separators m = false := by
  induction t using cut_induction hseps with
  | uncut t hno =>
    rw [piecesTop_uncut hno, List.mem_singleton] at hx
    exact hx ▸ hno
  | ended u c v hc hstop hended ih =>
    rw [hended.piecesTop_append hstop hc] at hx
    rcases List.mem_cons.mp hx with rfl | hx
    · exact hended.uncut
    · exact ih hx

/-- A piece that is kept shows something, has no blanks around it and holds no separator. -/
theorem uncut_of_mem_splitTop {t p : Text} (hp : p ∈ splitTop separators t) :
    p ≠ [] ∧ trim p = p ∧ ∀ m ∈ marks p, isSeparator separators m = false := by
  obtain ⟨htrim, hne, -⟩ := mem_splitTop hp
  obtain ⟨x, hx, rfl⟩ := List.mem_map.mp (List.mem_filter.mp hp).1
  exact ⟨hne, htrim, uncut_trim (uncut_of_mem_piecesTop hseps hx)⟩

/-- Of a text without line comments every piece but the last may be followed by a separator. -/
theorem ended_of_mem_dropLast {t : Text} (hline : hasLineComment t = false) {c : Char}
    (hc : isStop c = true) {p : Text} (hp : p ∈ (splitTop separators t).dropLast) :
    Ended separators c p := by
  have hlone (x : Text) : ([x].filter (!·.isEmpty)).dropLast = [] := by cases x <;> rfl
  induction t using cut_induction hseps with
  | uncut t hno =>
    rw [splitTop_uncut hno, hlone] at hp
    cases hp
  | ended u d v hd hstop hended ih =>
    obtain ⟨huncut, hsettles⟩ := (ended_iff hstop).mp hended
    rw [hsettles.hasLineComment_append hstop, Bool.or_eq_false_iff] at hline
    rw [hended.splitTop_append hstop hd] at hp
    by_cases hrest : splitTop separators v = []
    · rw [hrest, List.append_nil, hlone] at hp
      cases hp
    · rw [List.dropLast_append_of_ne_nil hrest, List.mem_append] at hp
      rcases hp with hp | hp
      · obtain rfl := List.mem_singleton.mp (List.mem_filter.mp hp).1
        exact (ended_iff hc).mpr ⟨uncut_trim huncut, hsettles.trim hline.1⟩
      · exact ih hline.2 hp

/-- Pieces that are joined by a separator, each but the last ended by it, are cut apart again. -/
theorem splitTop_intercalate {c : Char} (hc : c ∈ separators) {ps : List Text}
    (hp : ∀ p ∈ ps, p ≠ [] ∧ trim p = p ∧ ∀ m ∈ marks p, isSeparator separators m = false)
    (hended : ∀ p ∈ ps.dropLast, Ended separators c p) :
    splitTop separators ([c].intercalate ps) = ps := by
  have hstop := List.all_eq_true.mp hseps c hc
  induction ps with
  | nil => rfl
  | cons p ps ih =>
    obtain ⟨⟨hne, htrim, huncut⟩, hps⟩ := List.forall_mem_cons.mp hp
    cases ps with
    | nil => rw [intercalate_singleton, splitTop_piece hne htrim huncut]
    | cons q r =>
      rw [List.dropLast_cons_cons, List.forall_mem_cons] at hended
      rw [intercalate_cons_cons, List.singleton_append, hended.1.splitTop_append hstop hc,
        ih hps hended.2, htrim]
      simp [hne]

end

/-- Cutting at separators is exact. Each piece shows something, has no blanks around it and is cut
no further; the pieces together show what the text shows without the separators at which it is cut;
and in a text without line comments, joining the pieces by any of the separators and cutting again
gives the same pieces. -/
theorem splitTop_exact {separators : List Char} (hseps : ∀ c ∈ separators, c = ',' ∨ c = ';')
    (t : Text) :
    (∀ p ∈ splitTop separators t, p ≠ [] ∧ trim p = p ∧ splitTop separators p = [p]) ∧
    (splitTop separators t).flatten.filter (!isBlank ·) =
      (((marks t).filter (!isSeparator separators ·)).map Mark.char).filter (!isBlank ·) ∧
    (hasLineComment t = false → ∀ c ∈ separators,
      splitTop separators ([c].intercalate (splitTop separators t)) = splitTop separators t) := by
  have hstops : separators.all isStop = true := by simpa [isStop] using hseps
  have hpieces : ∀ p ∈ splitTop separators t, _ := fun p hp => uncut_of_mem_splitTop hstops hp
  refine ⟨fun p hp => ?_, filter_splitTop separators t, fun hline c hc => ?_⟩
  · obtain ⟨hne, htrim, huncut⟩ := hpieces p hp
    exact ⟨hne, htrim, splitTop_piece hne htrim huncut⟩
  · have hstop := List.all_eq_true.mp hstops c hc
    exact splitTop_intercalate hstops hc hpieces fun p hp =>
      ended_of_mem_dropLast hstops hline hstop hp

/-- Separators in brackets, in a string, in a comment and behind an arrow, an empty piece, and a
last piece that leaves a bracket open. -/
theorem splitTop_exact_open_bracket :
    let t := "f: (a, b) => c ,; 'x,y' /* ; */; g < h,".toList
    let ps := ["f: (a, b) => c".toList, "'x,y' /* ; */".toList, "g < h,".toList]
    splitTop [',', ';'] t = ps ∧ hasLineComment t = false ∧
      (∀ p ∈ ps, splitTop [',', ';'] p = [p]) ∧
      splitTop [',', ';'] "f: (a, b) => c;'x,y' /* ; */;g < h,".toList = ps := by
  intro t ps
  have hps : splitTop [',', ';'] t = ps := by decide +kernel
  have hline : hasLineComment t = false := by decide +kernel
  obtain ⟨hpieces, -, hjoin⟩ := @splitTop_exact [',', ';'] (by simp) t
  rw [hps] at hpieces hjoin
  exact ⟨hps, hline, fun p hp => (hpieces p hp).2.2, hjoin hline ';' (by simp)⟩

end SourceLayout.Scan
