import SourceLayout.Proofs.Lines
import SourceLayout.Proofs.Stable.Scan

/-! Cutting a text at commas and semicolons that stand outside brackets. Behind such a
sign the scanner reads on as at the beginning of a text, so the pieces of a text may be
read, and written, one by one. -/

namespace SourceLayout.Scan
open Text

def isStop (c : Char) : Bool := c == ',' || c == ';'

def isSeparator (separators : List Char) (m : Mark) : Bool := m.isTop && separators.contains m.char

theorem readCode_stop {c : Char} (hc : isStop c = true) (s : State) :
    s.readCode c = { s with previous := some c } := by
  have hcases : c = ',' ∨ c = ';' := by simpa [isStop] using hc
  rcases hcases with rfl | rfl
  · simp [State.readCode, isOpener, openerOf, show isBlank ',' = false from rfl]
  · simp [State.readCode, isOpener, openerOf, show isBlank ';' = false from rfl]

theorem not_joins_of_stop {c : Char} (hc : isStop c = true) : joins c = false := by
  have hcases : c = ',' ∨ c = ';' := by simpa [isStop] using hc
  rcases hcases with rfl | rfl <;> rfl

/-- A separator outside brackets is read in one way, and nothing is open behind it. -/
theorem step_stop {p : Phase} {s : State} {c : Char} {next : Option Char} (hc : isStop c = true)
    (h : (step p s c next).1.isTop = true) :
    step p s c none = (⟨c, 0, .code⟩, .free, { s with previous := some c }) ∧
      ({ s with previous := some c } : State).Alike {} := by
  simp only [Mark.isTop, Bool.and_eq_true, beq_iff_eq] at h
  obtain ⟨hcode, hdepth⟩ := h
  rcases step_cases p s c next with ⟨hq, hb, hstep⟩ | ⟨k, p', s', hk, -, hstep⟩
  · rw [hstep, readCode_stop hc] at hdepth
    rw [step_next p s (not_joins_of_stop hc), readCode_stop hc] at hstep
    have hstack : s.stack = [] := by simpa [State.depth] using hdepth
    refine ⟨by rw [hstep]; simp [State.depth, hstack], hstack, hq, hb, ?_⟩
    have hcases : c = ',' ∨ c = ';' := by simpa [isStop] using hc
    rcases hcases with rfl | rfl <;> simp
  · rw [hstep] at hcode
    simp [Mark.isCode, hk] at hcode

/-- Behind a separator outside brackets the scanner reads on as at the beginning. -/
theorem endFrom_stop {p : Phase} {s : State} {c : Char} (hc : isStop c = true) {u : Text}
    (h : ∃ m ∈ (marksFrom p s (u ++ [c])).getLast?, m.isTop = true) :
    (endFrom p s (u ++ [c])).1 = .free ∧ (endFrom p s (u ++ [c])).2.Alike {} := by
  induction u generalizing p s with
  | nil =>
    obtain ⟨hstep, halike⟩ := step_stop hc (by simpa [marksFrom] using h)
    rw [List.nil_append, endFrom, List.head?_nil, hstep]
    exact ⟨rfl, halike⟩
  | cons d u ih =>
    apply ih
    obtain ⟨m, hm, htop⟩ := h
    refine ⟨m, ?_, htop⟩
    rw [List.cons_append, marksFrom_cons, List.getLast?_cons] at hm
    cases hlast : (marksFrom (step p s d (u ++ [c]).head?).2.1 (step p s d (u ++ [c]).head?).2.2
        (u ++ [c])).getLast? with
    | none =>
      have hnil := congrArg List.length (List.getLast?_eq_none_iff.mp hlast)
      simp at hnil
    | some k =>
      rw [hlast] at hm
      exact hm

/-- The first separator of a text, read from any state. -/
theorem exists_separator {separators : List Char} (hseps : separators.all isStop = true) {p : Phase}
    {s : State} {t : Text} :
    (∀ m ∈ marksFrom p s t, isSeparator separators m = false) ∨
    ∃ u c v ms, t = u ++ c :: v ∧ c ∈ separators ∧
      marksFrom p s (u ++ [c]) = ms ++ [⟨c, 0, .code⟩] ∧
      ∀ m ∈ ms, isSeparator separators m = false := by
  induction t generalizing p s with
  | nil => exact .inl (by simp [marksFrom])
  | cons c r ih =>
    cases hcut : isSeparator separators (step p s c r.head?).1 with
    | true =>
      right
      simp only [isSeparator, Bool.and_eq_true, step_char, List.contains_iff_mem] at hcut
      obtain ⟨hstep, -⟩ := step_stop (List.all_eq_true.mp hseps c hcut.2) hcut.1
      refine ⟨[], c, r, [], rfl, hcut.2, ?_, by simp⟩
      rw [List.nil_append, marksFrom_cons, List.head?_nil, hstep]
      rfl
    | false =>
      rcases @ih (step p s c r.head?).2.1 (step p s c r.head?).2.2
        with hno | ⟨u, d, v, ms, rfl, hd, hmarks, hno⟩
      · left
        rw [marksFrom_cons]
        exact List.forall_mem_cons.mpr ⟨hcut, hno⟩
      · right
        have hhead : (u ++ d :: v).head? = (u ++ [d]).head? := by cases u <;> rfl
        rw [hhead] at hmarks hcut
        refine ⟨c :: u, d, v, (step p s c (u ++ [d]).head?).1 :: ms, rfl, hd, ?_, ?_⟩
        · rw [List.cons_append, marksFrom_cons, hmarks]
          rfl
        · exact List.forall_mem_cons.mpr ⟨hcut, hno⟩

/-! ## Pieces -/

/-- A text without separators that the separator `c` behind it ends. -/
structure Ended (separators : List Char) (c : Char) (u : Text) : Prop where
  uncut : ∀ m ∈ marks u, isSeparator separators m = false
  closes : (marks (u ++ [c])).getLast? = some ⟨c, 0, .code⟩

theorem piecesTop_eq (separators : List Char) (t : Text) :
    piecesTop separators t = (splitWhen (isSeparator separators) (marks t)).map (·.map Mark.char) :=
  rfl

theorem piecesTop_uncut {separators : List Char} {t : Text}
    (h : ∀ m ∈ marks t, isSeparator separators m = false) :
    piecesTop separators t = [t] := by
  rw [piecesTop_eq, splitWhen_of_none h, List.map_singleton, map_char_marks]

/-- Text is marked in the same way if a separator follows it. -/
theorem marks_concat_stop {c : Char} (hc : isStop c = true) (u : Text) :
    ∃ m, marks (u ++ [c]) = marks u ++ [m] := by
  have hsign : c ≠ '/' ∧ c ≠ '*' := by
    have hjoins := not_joins_of_stop hc
    constructor <;> (rintro rfl; cases hjoins)
  obtain ⟨ms, hms⟩ := marksFrom_append .free {} u [c] (.inl (by simpa using hsign))
  have hlength := congrArg List.length hms
  rw [length_marksFrom, List.length_append, List.length_append, length_marksFrom] at hlength
  obtain ⟨m, rfl⟩ := List.length_eq_one_iff.mp (show ms.length = 1 by simpa using hlength.symm)
  exact ⟨m, hms⟩

/-- Behind a separator that ends a text, marking begins anew. -/
theorem marks_append_stop {c : Char} (hc : isStop c = true) {u : Text}
    (h : (marks (u ++ [c])).getLast? = some ⟨c, 0, .code⟩) (v : Text) :
    marks (u ++ c :: v) = marks u ++ ⟨c, 0, .code⟩ :: marks v := by
  obtain ⟨m, hm⟩ := marks_concat_stop hc u
  obtain rfl : m = ⟨c, 0, .code⟩ := by simpa [hm] using h
  have hcut : Cuts .free {} (u ++ [c]) v := .inl fun d hd => by
    rw [List.getLast?_concat, Option.mem_some] at hd
    exact hd ▸ not_joins_of_stop hc
  obtain ⟨hphase, halike⟩ := @endFrom_stop .free {} c hc u ⟨_, h, rfl⟩
  have hjoin : u ++ c :: v = (u ++ [c]) ++ v := by simp
  rw [hjoin, marks, marksFrom_cut hcut, hphase, (halike.text .free v).1, ← marks, hm]
  simp [marks]

theorem isSeparator_stop {separators : List Char} {c : Char} (hc : c ∈ separators) :
    isSeparator separators ⟨c, 0, .code⟩ = true := by
  simpa [isSeparator, Mark.isTop, Mark.isCode] using hc

/-- A text that is ended by a separator is the first piece of what begins with both. -/
theorem Ended.piecesTop_append {separators : List Char} {c : Char} {u : Text}
    (h : Ended separators c u) (hc : isStop c = true) (hmem : c ∈ separators) (v : Text) :
    piecesTop separators (u ++ c :: v) = u :: piecesTop separators v := by
  rw [piecesTop_eq, marks_append_stop hc h.closes, splitWhen_append_cons _ (isSeparator_stop hmem),
    splitWhen_of_none h.uncut, List.map_append, List.map_singleton, map_char_marks]
  rfl

theorem splitTop_uncut {separators : List Char} {t : Text}
    (h : ∀ m ∈ marks t, isSeparator separators m = false) :
    splitTop separators t = [trim t].filter (!·.isEmpty) := by
  rw [splitTop, piecesTop_uncut h]
  rfl

theorem Ended.splitTop_append {separators : List Char} {c : Char} {u : Text}
    (h : Ended separators c u) (hc : isStop c = true) (hmem : c ∈ separators) (v : Text) :
    splitTop separators (u ++ c :: v) = [trim u].filter (!·.isEmpty) ++ splitTop separators v := by
  rw [splitTop, h.piecesTop_append hc hmem, List.map_cons, ← List.singleton_append,
    List.filter_append]
  rfl

theorem Ended.getElem?_marks {separators : List Char} {c : Char} {u : Text}
    (h : Ended separators c u) (hc : isStop c = true) (v : Text) :
    (marks (u ++ c :: v))[u.length]? = some ⟨c, 0, .code⟩ := by
  rw [marks_append_stop hc h.closes, List.getElem?_append_right (by simp)]
  simp

/-- A text has no separator, or its first piece can be cut off. -/
theorem uncut_or_ended {separators : List Char} (hseps : separators.all isStop = true) (t : Text) :
    (∀ m ∈ marks t, isSeparator separators m = false) ∨
      ∃ u c v, t = u ++ c :: v ∧ c ∈ separators ∧ Ended separators c u := by
  rcases @exists_separator separators hseps .free {} t with hno | ⟨u, c, v, ms, ht, hc, hms, hno⟩
  · exact .inl hno
  · obtain ⟨m, hm⟩ := marks_concat_stop (List.all_eq_true.mp hseps c hc) u
    have hmarks : marks (u ++ [c]) = ms ++ [⟨c, 0, .code⟩] := hms
    obtain ⟨hu, -⟩ := List.append_inj' (hm.symm.trans hmarks) rfl
    exact .inr ⟨u, c, v, ht, hc, hu ▸ hno, by simp [hmarks]⟩

/-- What holds of texts without separators, and of a piece with its separator and a rest of which it
holds, holds of every text. -/
@[elab_as_elim]
theorem cut_induction {separators : List Char} (hseps : separators.all isStop = true)
    {motive : Text → Prop}
    (uncut : ∀ t, (∀ m ∈ marks t, isSeparator separators m = false) → motive t)
    (ended : ∀ u c v, c ∈ separators → isStop c = true → Ended separators c u → motive v →
      motive (u ++ c :: v)) (t : Text) : motive t := by
  induction hn : t.length using Nat.strongRecOn generalizing t with
  | ind n ih =>
    rcases uncut_or_ended hseps t with hno | ⟨u, c, v, rfl, hc, hended⟩
    · exact uncut t hno
    · exact ended u c v hc (List.all_eq_true.mp hseps c hc) hended
        (ih v.length (by rw [← hn]; simp; omega) v rfl)

theorem mem_of_mem_piecesTop {separators : List Char} {t x : Text} (hx : x ∈ piecesTop separators t)
    {c : Char} (hc : c ∈ x) : c ∈ t := by
  obtain ⟨ms, hms, rfl⟩ := List.mem_map.mp hx
  obtain ⟨m, hm, rfl⟩ := List.mem_map.mp hc
  have hflat : m ∈ (splitWhen (isSeparator separators) (marks t)).flatten :=
    List.mem_flatten.mpr ⟨ms, hms, hm⟩
  rw [flatten_splitWhen] at hflat
  have hchar := List.mem_map_of_mem (f := Mark.char) (List.mem_filter.mp hflat).1
  rwa [map_char_marks] at hchar

theorem mem_splitTop {separators : List Char} {t p : Text} (h : p ∈ splitTop separators t) :
    trim p = p ∧ p ≠ [] ∧ ∀ c ∈ p, c ∈ t := by
  obtain ⟨hmem, hne⟩ := List.mem_filter.mp h
  obtain ⟨y, hy, rfl⟩ := List.mem_map.mp hmem
  exact ⟨trim_trim y, by simpa using hne, fun c hc => mem_of_mem_piecesTop hy (mem_of_mem_trim hc)⟩

/-- If a separator ends a text, separators end all its pieces. -/
theorem ended_of_mem_piecesTop {separators : List Char} (hseps : separators.all isStop = true)
    {c : Char} (hc : c ∈ separators) {t : Text}
    (h : (marks (t ++ [c])).getLast? = some ⟨c, 0, .code⟩) {x : Text}
    (hx : x ∈ piecesTop separators t) : ∃ d ∈ separators, Ended separators d x := by
  induction t using cut_induction hseps with
  | uncut t hno =>
    rw [piecesTop_uncut hno, List.mem_singleton] at hx
    exact ⟨c, hc, hx ▸ ⟨hno, h⟩⟩
  | ended u d v hd hstop hended ih =>
    rw [hended.piecesTop_append hstop hd] at hx
    rcases List.mem_cons.mp hx with rfl | hx
    · exact ⟨d, hd, hended⟩
    · refine ih ?_ hx
      obtain ⟨m, hm⟩ := marks_concat_stop (List.all_eq_true.mp hseps c hc) v
      rw [List.append_assoc, List.cons_append, marks_append_stop hstop hended.closes, hm] at h
      simpa [hm, List.getLast?_append, List.getLast?_cons] using h

/-! ## Blanks around pieces -/

/-- No string is open behind a text without quotes. -/
theorem quote_endFrom {p : Phase} {s : State} (hs : s.quote = none) {t : Text}
    (h : ∀ c ∈ t, isQuote c = false) : (endFrom p s t).2.quote = none := by
  induction t generalizing p s with
  | nil => exact hs
  | cons c r ih =>
    obtain ⟨hc, hr⟩ := List.forall_mem_cons.mp h
    refine ih ?_ hr
    rcases step_lex p s.quote s.inBlock c r.head? with hread | ⟨k, p', q', b', v, -, -, hq, hother⟩
    · rw [hread s rfl rfl]
      exact hs
    · rw [hother s rfl rfl]
      rcases hq with rfl | rfl | ⟨-, hquote⟩
      · exact hs
      · rfl
      · rw [hc] at hquote
        cases hquote

theorem not_stop_of_blank {c : Char} (h : isBlank c = true) : isStop c = false := by
  rw [Bool.eq_false_iff]
  intro hc
  have hcases : c = ',' ∨ c = ';' := by simpa [isStop] using hc
  rcases hcases with rfl | rfl <;> (revert h; decide)

theorem not_separator_of_blank {separators : List Char} (hseps : separators.all isStop = true)
    {m : Mark} (h : isBlank m.char = true) : isSeparator separators m = false := by
  rw [Bool.eq_false_iff]
  intro hm
  simp only [isSeparator, Bool.and_eq_true, List.contains_iff_mem] at hm
  have hstop := List.all_eq_true.mp hseps _ hm.2
  rw [not_stop_of_blank h] at hstop
  cases hstop

/-- Blanks before a text do not matter for its end. -/
theorem ended_blank_append {separators : List Char} (hseps : separators.all isStop = true)
    {a : Text} (ha : isBlankLine a = true) (c : Char) (u : Text) :
    Ended separators c (a ++ u) ↔ Ended separators c u := by
  have hu := @marks_blank_append a ha {} rfl rfl u
  have hlast : (marks (a ++ u ++ [c])).getLast? = (marks (u ++ [c])).getLast? := by
    rw [List.append_assoc, @marks_blank_append a ha {} rfl rfl, List.getLast?_append]
    cases hl : (marks (u ++ [c])).getLast? with
    | none =>
      have hlength := congrArg List.length (List.getLast?_eq_none_iff.mp hl)
      simp at hlength
    | some m => rfl
  constructor
  · rintro ⟨huncut, hcloses⟩
    exact ⟨fun m hm => huncut m (by simp [hu, hm]), hlast ▸ hcloses⟩
  · rintro ⟨huncut, hcloses⟩
    refine ⟨fun m hm => ?_, hlast ▸ hcloses⟩
    rw [hu, List.mem_append] at hm
    rcases hm with hm | hm
    · obtain ⟨d, hd, rfl⟩ := List.mem_map.mp hm
      exact not_separator_of_blank hseps (List.all_eq_true.mp ha d hd)
    · exact huncut m hm

/-- Blanks before a separator may be left out where no string is open and no line
comment is closed by them. -/
theorem Ended.of_append_blank {separators : List Char} {c : Char} (hc : isStop c = true)
    {u b : Text} (h : Ended separators c (u ++ b)) (hu : u ≠ [])
    (hquote : ∀ d ∈ u, isQuote d = false) (hb : isBlankLine b = true) (hn : '\n' ∉ b) :
    Ended separators c u := by
  have hq : (endFrom .free {} u).2.quote = none := quote_endFrom rfl hquote
  have hquiet : (endFrom .free {} u).1.quiet = true := endFrom_quiet {} (.inr hu)
  have hsoft : b.all isSoft = true := by
    rw [List.all_eq_true]
    intro d hd
    have hne : d ≠ '\n' := fun heq => hn (heq ▸ hd)
    simp [isSoft, List.all_eq_true.mp hb d hd, hne]
  -- what the blanks leave as it is
  have hend : endFrom (endFrom .free {} u).1 (endFrom .free {} u).2 b = endFrom .free {} u := by
    rw [(endFrom_soft hquiet (.of_none hq) hsoft).1, List.filter_eq_nil_iff.mpr]
    · rfl
    · intro d hd
      simp [List.all_eq_true.mp hb d hd]
  have hcut (v : Text) (hv : ∀ d ∈ v.head?, d ≠ '/' ∧ d ≠ '*') :
      marks (u ++ v) = marks u ++ marksFrom (endFrom .free {} u).1 (endFrom .free {} u).2 v :=
    marksFrom_cut (.inr ⟨hv, .of_none rfl, hq⟩)
  have hstop : ∀ d, joins d = false → d ≠ '/' ∧ d ≠ '*' := by
    intro d hd
    constructor <;> (rintro rfl; cases hd)
  have hblank : ∀ d ∈ b, joins d = false :=
    fun d hd => not_joins_of_blank (List.all_eq_true.mp hb d hd)
  have hshort := hcut [c] (by simpa using hstop c (not_joins_of_stop hc))
  have hlong := hcut (b ++ [c]) fun d hd => by
    rcases List.mem_append.mp (List.mem_of_mem_head? hd) with hd | hd
    · exact hstop d (hblank d hd)
    · exact hstop d (by rw [List.mem_singleton.mp hd]; exact not_joins_of_stop hc)
  have hbefore := hcut b fun d hd => hstop d (hblank d (List.mem_of_mem_head? hd))
  refine ⟨fun m hm => h.uncut m (by simp [hbefore, hm]), ?_⟩
  have hcloses := h.closes
  rw [List.append_assoc, hlong, marksFrom_cut (Cuts.blank_left hb _), hend,
    ← List.append_assoc] at hcloses
  rw [hshort]
  simpa [marksFrom] using hcloses

/-! ## Pieces that are joined again -/

/-- The pieces of a text behind which a separator would stand, trimmed, are ended by separators. -/
theorem ended_of_mem_splitTop {separators : List Char} (hseps : separators.all isStop = true)
    {c : Char} (hc : c ∈ separators) {t : Text}
    (h : (marks (t ++ [c])).getLast? = some ⟨c, 0, .code⟩) (hquote : ∀ d ∈ t, isQuote d = false)
    (hn : '\n' ∉ t) {x : Text} (hx : x ∈ splitTop separators t) :
    ∃ d ∈ separators, Ended separators d x := by
  obtain ⟨hx, hne⟩ := List.mem_filter.mp hx
  obtain ⟨y, hy, rfl⟩ := List.mem_map.mp hx
  obtain ⟨d, hd, hended⟩ := ended_of_mem_piecesTop hseps hc h hy
  obtain ⟨b, hyb, hblank⟩ := trim_spec y
  have hsub {e : Char} (he : e ∈ y) : e ∈ t := mem_of_mem_piecesTop hy he
  refine ⟨d, hd, Ended.of_append_blank (List.all_eq_true.mp hseps d hd) (b := b) ?_
    (by simpa using hne) ?_ hblank ?_⟩
  · rw [hyb, List.append_assoc] at hended
    exact (ended_blank_append hseps (isBlankLine_indentOf y) d _).mp hended
  · intro e he
    exact hquote e (hsub (by rw [hyb]; simp [he]))
  · intro he
    exact hn (hsub (by rw [hyb]; simp [he]))

theorem splitTop_space {separators : List Char} (hseps : separators.all isStop = true) :
    splitTop separators [' '] = [] := by
  have hblank : ∀ m ∈ marks [' '], isSeparator separators m = false := by
    intro m hm
    have hmarks : marks [' '] = [⟨' ', 0, .code⟩] := by decide
    rw [hmarks, List.mem_singleton] at hm
    exact not_separator_of_blank hseps (hm ▸ rfl)
  rw [splitTop, piecesTop_uncut hblank]
  rfl

/-- Pieces that are ended by a separator each, written with it one behind the other in front of
other text, are cut off again. -/
theorem splitTop_row {separators : List Char} (hseps : separators.all isStop = true) {c : Char}
    (hc : c ∈ separators) {ps : List Text}
    (h : ∀ p ∈ ps, Ended separators c p ∧ trim p = p ∧ p ≠ []) (z : Text) :
    splitTop separators (ps.flatMap (fun p => ' ' :: (p ++ [c])) ++ z) =
      ps ++ splitTop separators z := by
  induction ps with
  | nil => rfl
  | cons p ps ih =>
    obtain ⟨⟨hended, htrim, hne⟩, hps⟩ := List.forall_mem_cons.mp h
    have hspace : Ended separators c ([' '] ++ p) := (ended_blank_append hseps rfl c p).mpr hended
    have hjoin : (p :: ps).flatMap (fun p => ' ' :: (p ++ [c])) ++ z =
        ([' '] ++ p) ++ c :: (ps.flatMap (fun p => ' ' :: (p ++ [c])) ++ z) := by simp
    have hshown : trim ([' '] ++ p) = p := by rw [trim_blank_append rfl, htrim]
    rw [hjoin, splitTop, hspace.piecesTop_append (List.all_eq_true.mp hseps c hc) hc, List.map_cons,
      hshown, List.filter_cons_of_pos (by simpa using hne)]
    exact congrArg (p :: ·) (ih hps)

/-- Such pieces alone are cut apart again. -/
theorem splitTop_joined {separators : List Char} (hseps : separators.all isStop = true) {c : Char}
    (hc : c ∈ separators) {ps : List Text}
    (h : ∀ p ∈ ps, Ended separators c p ∧ trim p = p ∧ p ≠ []) :
    splitTop separators (ps.flatMap (fun p => ' ' :: (p ++ [c])) ++ [' ']) = ps := by
  rw [splitTop_row hseps hc h, splitTop_space hseps, List.append_nil]

end SourceLayout.Scan
