import SourceLayout.Proofs.Stable.Lines
import SourceLayout.Proofs.Stable.Separators

/-! The members on one line. A line is cut behind its semicolons outside brackets; each piece is one
member and is not cut again, and reading the pieces one after the other is reading the line. -/

namespace SourceLayout.Member
open Text Scan

/-! ## Pieces -/

def isCut (m : Mark) : Bool := m.isTop && m.char == ';'

theorem go_cons (m : Mark) (ms : List Mark) :
    semicolonPieces.go (m :: ms) =
      if isCut m then [m.char] :: semicolonPieces.go ms
      else match semicolonPieces.go ms with
        | [] => [[m.char]]
        | p :: ps => (m.char :: p) :: ps := rfl

theorem go_uncut {ms : List Mark} (h : ∀ m ∈ ms, isCut m = false) :
    semicolonPieces.go ms = [ms.map Mark.char] := by
  induction ms with
  | nil => rfl
  | cons m ms ih =>
    obtain ⟨hm, hms⟩ := List.forall_mem_cons.mp h
    rw [go_cons, hm, ih hms]
    rfl

theorem go_append {ms : List Mark} (h : ∀ m ∈ ms, isCut m = false) {m : Mark} (hm : isCut m = true)
    (rest : List Mark) :
    semicolonPieces.go (ms ++ m :: rest) = (ms.map Mark.char ++ [m.char]) ::
    semicolonPieces.go rest := by
  induction ms with
  | nil => rw [List.nil_append, go_cons, hm]; rfl
  | cons k ms ih =>
    obtain ⟨hk, hms⟩ := List.forall_mem_cons.mp h
    rw [List.cons_append, go_cons, hk, ih hms]
    rfl

/-- Text up to its first semicolon outside brackets. What follows is read as at the beginning. -/
structure Closed (q : Text) : Prop where
  last : q.getLast? = some ';'
  closes : ∃ ms, marks q = ms ++ [⟨';', 0, .code⟩] ∧ ∀ m ∈ ms, isCut m = false
  phase : (endFrom .free {} q).1 = .free
  state : (endFrom .free {} q).2.Alike {}

def Uncut (t : Text) : Prop := ∀ m ∈ marks t, isCut m = false

theorem isCut_eq (m : Mark) : isCut m = isSeparator [';'] m := by
  rw [Bool.eq_iff_iff]
  simp [isCut, isSeparator]

/-- The first cut of a text, from any state. -/
theorem exists_cut {p : Phase} {s : State} {t : Text} :
    (∀ m ∈ marksFrom p s t, isCut m = false) ∨
    ∃ u v ms, t = u ++ ';' :: v ∧ marksFrom p s (u ++ [';']) = ms ++ [⟨';', 0, .code⟩] ∧
      (∀ m ∈ ms, isCut m = false) ∧ (endFrom p s (u ++ [';'])).1 = .free ∧
      (endFrom p s (u ++ [';'])).2.Alike {} := by
  simp only [isCut_eq]
  rcases @exists_separator [';'] rfl p s t with hno | ⟨u, c, v, ms, rfl, hc, hms, hno⟩
  · exact .inl hno
  · obtain rfl : c = ';' := by simpa using hc
    obtain ⟨hphase, halike⟩ := @endFrom_stop p s ';' rfl u ⟨⟨';', 0, .code⟩, by simp [hms], rfl⟩
    exact .inr ⟨u, v, ms, rfl, hms, hno, hphase, halike⟩

theorem Closed.ne_nil {q : Text} (h : Closed q) : q ≠ [] := by
  rintro rfl
  cases h.last

theorem Closed.cuts {q : Text} (h : Closed q) (p : Phase) (s : State) (v : Text) :
    Cuts p s q v := by
  refine .inl fun c hc => ?_
  rw [h.last] at hc
  cases hc
  rfl

theorem Closed.marks_append {q : Text} (h : Closed q) (v : Text) :
    marks (q ++ v) = marks q ++ marks v := by
  rw [marks, marksFrom_cut (h.cuts _ _ v), h.phase, (h.state.text .free v).1]
  rfl

theorem Closed.pieces {q : Text} (h : Closed q) (v : Text) :
    semicolonPieces (q ++ v) = q :: semicolonPieces v := by
  obtain ⟨ms, hmarks, hno⟩ := h.closes
  have hchars : ms.map Mark.char ++ [';'] = q := by
    have hq := congrArg (List.map Mark.char) hmarks
    rw [map_char_marks, List.map_append] at hq
    exact hq.symm
  rw [semicolonPieces, h.marks_append, hmarks, List.append_assoc, List.singleton_append,
    go_append hno rfl, hchars]
  rfl

theorem Uncut.pieces {t : Text} (h : Uncut t) : semicolonPieces t = [t] := by
  rw [semicolonPieces, go_uncut h]
  simp

/-- A text has no cut, or its first piece can be cut off. -/
theorem uncut_or_closed (t : Text) : Uncut t ∨ ∃ q v, t = q ++ v ∧ Closed q := by
  rcases exists_cut (p := .free) (s := {}) (t := t)
    with hno | ⟨u, v, ms, rfl, hmarks, hno, hphase, halike⟩
  · exact .inl hno
  · exact .inr ⟨u ++ [';'], v, by simp, List.getLast?_concat, ⟨ms, hmarks, hno⟩, hphase, halike⟩

theorem semicolonPieces_ne_nil (t : Text) : semicolonPieces t ≠ [] := by
  rcases uncut_or_closed t with h | ⟨q, v, rfl, h⟩ <;> simp [h.pieces]

/-! ## Members on one line -/

/-- A piece, unless it is a lone semicolon. -/
def kept (p : Text) : List Text := if p = [';'] then [] else [p]

def startsComment (t : Text) : Bool := commentStart? t == some 0

def gather (closed : List Text) (rest : Text) : List Text :=
  if rest.isEmpty then closed
  else if commentStart? rest == some 0 then
    match closed.getLast? with
    | some l => closed.dropLast ++ [l ++ ' ' :: rest]
    | none => [rest]
  else closed ++ [rest]

theorem onLine_eq (t : Text) :
    onLine t = (gather ((semicolonPieces t).map trim).dropLast
      (((semicolonPieces t).map trim).getLast?.getD [])).filter fun p => !p.isEmpty &&
      p != [';'] := rfl

theorem gather_cons {closed : List Text} (h : closed ≠ []) (p rest : Text) :
    gather (p :: closed) rest = p :: gather closed rest := by
  obtain ⟨k, closed, rfl⟩ := List.exists_cons_of_ne_nil h
  cases hlast : (k :: closed).getLast? with
  | none => exact absurd (List.getLast?_eq_none_iff.mp hlast) h
  | some l =>
    unfold gather
    rw [List.getLast?_cons_cons, hlast]
    split
    · rfl
    · split <;> simp

theorem Uncut.trim {t : Text} (h : Uncut t) : Uncut (trim t) := by
  obtain ⟨ms, hms, -⟩ := marks_trim t
  intro m hm
  exact h m (by rw [hms]; simp [hm])

theorem Closed.eq_indent {q : Text} (h : Closed q) : q = indentOf q ++ Text.trim q := by
  have hlast : trimRight q = q := trimRight_eq_self fun c hc => by
    rw [h.last] at hc
    cases hc
    rfl
  obtain ⟨b, hq, hb⟩ := trim_spec q
  cases b with
  | nil => rwa [List.append_nil] at hq
  | cons c b =>
    have hend := h.last
    rw [hq, List.getLast?_append] at hend
    have hmem : ';' ∈ c :: b := by
      apply List.mem_of_getLast?
      simpa using hend
    have hblank := List.all_eq_true.mp hb ';' hmem
    cases hblank

theorem Closed.trim_ne_nil {q : Text} (h : Closed q) : Text.trim q ≠ [] :=
  trim_ne_nil_of_mem (List.mem_of_getLast? h.last) rfl

theorem Closed.trim {q : Text} (h : Closed q) : Closed (trim q) := by
  have hindent := isBlankLine_indentOf q
  have hend : endFrom .free {} q = endFrom .free {} (Text.trim q) := by
    obtain ⟨hs, hp⟩ := endFrom_blank (s := {}) rfl hindent .free
    conv => lhs; rw [h.eq_indent, endFrom_append (Cuts.blank_left hindent _), hs, hp rfl]
  obtain ⟨ms, hms, hno⟩ := h.closes
  have hmarks := marks_blank_append hindent (s := {}) rfl rfl (Text.trim q)
  rw [← h.eq_indent, hms] at hmarks
  refine ⟨?_, ?_, hend ▸ h.phase, hend ▸ h.state⟩
  · have hlast := h.last
    rw [h.eq_indent, List.getLast?_append] at hlast
    cases ht : (Text.trim q).getLast? with
    | none => exact absurd (List.getLast?_eq_none_iff.mp ht) h.trim_ne_nil
    | some c => rwa [ht, Option.some_or] at hlast
  · rcases concat_eq_append hmarks with ⟨hnil, -⟩ | ⟨ms', hms', rfl⟩
    · have hchars := map_char_marks (Text.trim q) {}
      rw [hnil] at hchars
      exact absurd hchars.symm h.trim_ne_nil
    · exact ⟨ms', hms', fun m hm => hno m (List.mem_append_right _ hm)⟩

theorem onLine_uncut {t : Text} (h : Uncut t) :
    onLine t = if trim t = [] then [] else [trim t] := by
  have hne : trim t ≠ [';'] := by
    intro ht
    have hcut := h.trim ⟨';', 0, .code⟩ (by rw [ht]; decide)
    cases hcut
  rw [onLine_eq, h.pieces]
  by_cases ht : trim t = []
  · simp [gather, ht]
  · simp [gather, ht, hne]

/-- The first piece of a line is a member, and those of the rest follow. -/
theorem onLine_cons {q v : Text} (hq : Closed q)
    (h : ¬(Uncut v ∧ trim v ≠ [] ∧ startsComment (trim v) = true)) :
    onLine (q ++ v) = kept (trim q) ++ onLine v := by
  have hkept : [trim q].filter (fun p => !p.isEmpty && p != [';']) = kept (trim q) := by
    by_cases hlone : trim q = [';']
    · simp [kept, hlone]
    · simp [kept, hlone, hq.trim_ne_nil]
  rw [onLine_eq, hq.pieces, List.map_cons]
  rcases uncut_or_closed v with hv | ⟨q', v', rfl, hq'⟩
  · rw [hv.pieces, onLine_uncut hv]
    by_cases hnil : trim v = []
    · simp [gather, hnil, ← hkept]
    · have hcomment : (commentStart? (trim v) == some 0) = false := by
        have := fun hc => h ⟨hv, hnil, hc⟩
        simpa [startsComment] using this
      have hne : trim v ≠ [';'] := by
        intro ht
        have hcut := hv.trim ⟨';', 0, .code⟩ (by rw [ht]; decide)
        cases hcut
      have hgather : gather [trim q] (trim v) = [trim q] ++ [trim v] := by
        simp [gather, hnil, hcomment]
      have hrest : [trim v].filter (fun p => !p.isEmpty && p != [';']) = [trim v] := by
        simp [hnil, hne]
      rw [if_neg hnil, ← hkept, ← hrest, ← List.filter_append]
      exact congrArg (List.filter _) hgather
  · obtain ⟨p, ps, hps⟩ := List.exists_cons_of_ne_nil (semicolonPieces_ne_nil v')
    rw [onLine_eq, hq'.pieces, hps]
    simp only [List.map_cons, List.dropLast_cons_cons, List.getLast?_cons_cons]
    rw [gather_cons (List.cons_ne_nil _ _), ← hkept, ← List.filter_append]
    rfl

/-- A comment behind the last semicolon stays with the member before it. -/
theorem onLine_merge {q v : Text} (hq : Closed q) (hv : Uncut v) (hnil : trim v ≠ [])
    (hc : startsComment (trim v) = true) : onLine (q ++ v) = [trim q ++ ' ' :: trim v] := by
  have hcomment : (commentStart? (trim v) == some 0) = true := hc
  have hne : trim q ++ ' ' :: trim v ≠ [';'] := by
    intro heq
    have hlen := congrArg List.length heq
    have hpos := List.length_pos_iff.mpr hq.trim_ne_nil
    simp only [List.length_append, List.length_cons, List.length_nil] at hlen
    omega
  rw [onLine_eq, hq.pieces, hv.pieces]
  simp [gather, hnil, hcomment, hne]

theorem uncut_nil : Uncut [] := by simp [Uncut, marks, marksFrom]

theorem onLine_closed {q : Text} (h : Closed q) : onLine q = kept (trim q) := by
  have hcons := onLine_cons (v := []) h (by simp [show trim [] = [] from rfl])
  rw [List.append_nil] at hcons
  rw [hcons, onLine_uncut uncut_nil]
  simp [show trim [] = [] from rfl]

theorem uncut_space {v : Text} (h : Uncut v) : Uncut (' ' :: v) := by
  intro m hm
  have hmarks := marks_blank_append (a := [' ']) rfl (s := {}) rfl rfl v
  rw [← List.singleton_append, hmarks] at hm
  rcases List.mem_append.mp hm with hm | hm
  · obtain rfl : m = ⟨' ', 0, .code⟩ := by simpa [State.depth] using hm
    rfl
  · exact h m hm

theorem trim_merge {q v : Text} (hq : Closed q) (hnil : trim v ≠ []) :
    trim (trim q ++ ' ' :: trim v) = trim q ++ ' ' :: trim v := by
  rw [trim_append (trim_trim q) hq.trim_ne_nil, ← List.singleton_append,
    trimRight_append_of_last hnil fun c => last_trim]

/-- A member is not cut again. -/
theorem mem_onLine {t p : Text} (h : p ∈ onLine t) : trim p = p ∧ (onLine p).length < 2 := by
  induction hn : t.length using Nat.strongRecOn generalizing t with
  | ind n ih =>
    rcases uncut_or_closed t with ht | ⟨q, v, rfl, hq⟩
    · rw [onLine_uncut ht] at h
      split at h
      · cases h
      · obtain rfl : p = trim t := by simpa using h
        refine ⟨trim_trim t, ?_⟩
        rw [onLine_uncut ht.trim]
        split <;> simp
    · by_cases hmerge : Uncut v ∧ trim v ≠ [] ∧ startsComment (trim v) = true
      · obtain ⟨hv, hnil, hc⟩ := hmerge
        rw [onLine_merge hq hv hnil hc] at h
        obtain rfl : p = trim q ++ ' ' :: trim v := by simpa using h
        have hspace : trim (' ' :: trim v) = trim v := by
          rw [← List.singleton_append, trim_blank_append rfl, trim_trim]
        refine ⟨trim_merge hq hnil, ?_⟩
        rw [onLine_merge hq.trim (uncut_space hv.trim) (by rwa [hspace]) (by rwa [hspace])]
        simp
      · rw [onLine_cons hq hmerge, List.mem_append] at h
        rcases h with h | h
        · unfold kept at h
          split at h
          · cases h
          · obtain rfl : p = trim q := by simpa using h
            refine ⟨trim_trim q, ?_⟩
            rw [onLine_closed hq.trim, kept]
            split <;> simp
        · refine ih v.length ?_ h rfl
          have hpos := List.length_pos_iff.mpr hq.ne_nil
          rw [← hn, List.length_append]
          omega

/-! ## Blanks between members -/

def inkMarks (t : Text) : List Mark := (marks t).filter (!isBlank ·.char)

theorem inkMarks_eq_nil {t : Text} : inkMarks t = [] ↔ trim t = [] := by
  have hchars : (inkMarks t).map Mark.char = t.filter (!isBlank ·) := by
    conv => rhs; rw [← map_char_marks t {}]
    rw [inkMarks, List.filter_map]
    rfl
  have hnil : inkMarks t = [] ↔ t.filter (!isBlank ·) = [] := by
    rw [← hchars, List.map_eq_nil_iff]
  rw [hnil, List.filter_eq_nil_iff]
  constructor
  · intro h
    apply trim_blank
    rw [isBlankLine, List.all_eq_true]
    simpa using h
  · intro h c hc
    have hblank := List.all_eq_true.mp (isBlankLine_of_trim h) c hc
    simp [hblank]

theorem inkMarks_trim (t : Text) : inkMarks (trim t) = inkMarks t := by
  obtain ⟨ms, hms, hblank⟩ := marks_trim t
  have hnil {M : List Mark} (hM : ∀ m ∈ M, isBlank m.char = true) : M.filter (!isBlank ·.char) =
      [] := by
    rw [List.filter_eq_nil_iff]
    intro m hm
    simp [hM m hm]
  have hindent : ∀ m ∈ (indentOf t).map (fun c => (⟨c, 0, .code⟩ : Mark)),
      isBlank m.char = true := by
    intro m hm
    obtain ⟨c, hc, rfl⟩ := List.mem_map.mp hm
    exact List.all_eq_true.mp (isBlankLine_indentOf t) c hc
  rw [inkMarks, inkMarks, hms, List.filter_append, List.filter_append, hnil hblank, hnil hindent]
  simp

theorem uncut_iff {t : Text} : Uncut t ↔ ∀ m ∈ inkMarks t, isCut m = false := by
  constructor
  · exact fun h m hm => h m (List.mem_filter.mp hm).1
  · intro h m hm
    cases hc : isCut m with
    | false => rfl
    | true =>
      have hchar : m.char = ';' := by
        simp only [isCut, Bool.and_eq_true, beq_iff_eq] at hc
        exact hc.2
      rw [← hc]
      exact h m (List.mem_filter.mpr ⟨hm, by rw [hchar]; rfl⟩)

/-- A text begins with a comment if its first mark that is not blank belongs to one. -/
theorem startsComment_trim (t : Text) :
    startsComment (trim t) = (inkMarks t).head?.any Mark.isComment := by
  rw [← inkMarks_trim, startsComment, commentStart?, inkMarks]
  cases ht : trim t with
  | nil => rfl
  | cons c r =>
    have hc : isBlank c = false := head_trim (t := t) (by rw [ht]; rfl)
    rw [marks, marksFrom_cons, List.findIdx?_cons, List.filter_cons_of_pos (by simp [hc])]
    cases hm : (step .free {} c r.head?).1.isComment with
    | true => simp [hm]
    | false => simp [hm]

theorem Closed.inkMarks {q : Text} (h : Closed q) :
    ∃ ms, inkMarks q = ms ++ [⟨';', 0, .code⟩] ∧ (∀ m ∈ ms, isCut m = false) ∧
    (ms = [] ↔ Text.trim q = [';']) := by
  obtain ⟨ms, hms, hno⟩ := h.trim.closes
  refine ⟨ms.filter (!isBlank ·.char), ?_, fun m hm => hno m (List.mem_filter.mp hm).1, ?_⟩
  · rw [← inkMarks_trim, Member.inkMarks, hms, List.filter_append]
    rfl
  · have hchars := map_char_marks (Text.trim q) {}
    rw [hms, List.map_append] at hchars
    constructor
    · intro hnil
      cases ms with
      | nil => exact hchars.symm
      | cons m ms =>
        -- the first character is not blank
        have hblank : isBlank m.char = false := head_trim (t := q) (by rw [← hchars]; rfl)
        rw [List.filter_cons_of_pos (by simp [hblank])] at hnil
        cases hnil
    · intro ht
      rw [ht] at hchars
      have hlen := congrArg List.length hchars
      simp only [List.length_append, List.length_map, List.length_cons, List.length_nil] at hlen
      rw [List.length_eq_zero_iff.mp (show ms.length = 0 by omega)]
      rfl

theorem Closed.inkMarks_append {q : Text} (h : Closed q) (v : Text) :
    Member.inkMarks (q ++ v) = Member.inkMarks q ++ Member.inkMarks v := by
  rw [Member.inkMarks, h.marks_append, List.filter_append]
  rfl

private theorem first_cut {a a' b b' : List Mark} {m m' : Mark} (ha : ∀ m ∈ a, isCut m = false)
    (ha' : ∀ m ∈ a', isCut m = false) (hm : isCut m = true) (hm' : isCut m' = true)
    (h : a ++ m :: b = a' ++ m' :: b') : a = a' ∧ b = b' := by
  induction a generalizing a' with
  | nil =>
    cases a' with
    | nil => exact ⟨rfl, (List.cons.inj h).2⟩
    | cons k a' =>
      rw [List.nil_append, List.cons_append, List.cons.injEq] at h
      rw [h.1, ha' k List.mem_cons_self] at hm
      cases hm
  | cons k a ih =>
    cases a' with
    | nil =>
      rw [List.nil_append, List.cons_append, List.cons.injEq] at h
      rw [← h.1, ha k List.mem_cons_self] at hm'
      cases hm'
    | cons k' a' =>
      rw [List.cons_append, List.cons_append, List.cons.injEq] at h
      obtain ⟨rfl, h⟩ := h
      obtain ⟨rfl, rfl⟩ := ih (List.forall_mem_cons.mp ha).2 (List.forall_mem_cons.mp ha').2 h
      exact ⟨rfl, rfl⟩

/-- How many members a line has does not depend on its blanks, nor on what follows its last cut. -/
theorem length_onLine_congr {t w : Text} {rest : List Mark} (h : inkMarks t = inkMarks w ++ rest)
    (hrest : ∀ m ∈ rest, isCut m = false)
    (hlast : rest = [] ∨ ∃ m ∈ (inkMarks w).getLast?, isCut m = false) :
    (onLine t).length = (onLine w).length := by
  induction hn : w.length using Nat.strongRecOn generalizing t w with
  | ind n ih =>
    rcases uncut_or_closed w with hw | ⟨q, v, rfl, hq⟩
    · have ht : Uncut t := by
        rw [uncut_iff, h]
        intro m hm
        exact (List.mem_append.mp hm).elim (uncut_iff.mp hw m) (hrest m)
      have hnil : trim t = [] ↔ trim w = [] := by
        rw [← inkMarks_eq_nil, ← inkMarks_eq_nil, h, List.append_eq_nil_iff]
        refine ⟨fun h => h.1, fun hnil => ⟨hnil, ?_⟩⟩
        rcases hlast with hlast | ⟨m, hm, -⟩
        · exact hlast
        · rw [hnil] at hm
          cases hm
      rw [onLine_uncut ht, onLine_uncut hw]
      by_cases hw : trim w = [] <;> simp [hw, hnil]
    · obtain ⟨ms, hms, hno, hlone⟩ := hq.inkMarks
      rcases uncut_or_closed t with ht | ⟨q', v', rfl, hq'⟩
      · have hcut := uncut_iff.mp ht ⟨';', 0, .code⟩ (by rw [h, hq.inkMarks_append, hms]; simp)
        cases hcut
      · obtain ⟨ms', hms', hno', hlone'⟩ := hq'.inkMarks
        rw [hq'.inkMarks_append, hq.inkMarks_append, hms, hms'] at h
        simp only [List.append_assoc, List.singleton_append] at h
        obtain ⟨rfl, hv⟩ := first_cut hno' hno rfl rfl h
        have hlast' : rest = [] ∨ ∃ m ∈ (inkMarks v).getLast?, isCut m = false := by
          rcases hlast with hlast | ⟨m, hm, hcut⟩
          · exact .inl hlast
          · right
            rw [hq.inkMarks_append, hms, List.getLast?_append, List.getLast?_concat] at hm
            cases hv : (inkMarks v).getLast? with
            | none =>
              rw [hv] at hm
              cases hm
              cases hcut
            | some k =>
              rw [hv] at hm
              exact ⟨m, hm, hcut⟩
        have hnil : inkMarks v = [] → rest = [] := by
          intro hnil
          rcases hlast' with hlast | ⟨m, hm, -⟩
          · exact hlast
          · rw [hnil] at hm
            cases hm
        have hmerge : (Uncut v' ∧ trim v' ≠ [] ∧ startsComment (trim v') = true) ↔
            (Uncut v ∧ trim v ≠ [] ∧ startsComment (trim v) = true) := by
          rw [uncut_iff, uncut_iff, startsComment_trim, startsComment_trim, ne_eq, ne_eq,
            ← inkMarks_eq_nil, ← inkMarks_eq_nil, hv]
          cases hink : inkMarks v with
          | nil => simp [hnil hink]
          | cons m ms =>
            refine and_congr ⟨fun h k hk => h k (List.mem_append_left _ hk), fun h k hk => ?_⟩
              (by simp)
            exact (List.mem_append.mp hk).elim (h k) (hrest k)
        by_cases hv' : Uncut v ∧ trim v ≠ [] ∧ startsComment (trim v) = true
        · obtain ⟨h₁, h₂, h₃⟩ := hmerge.mpr hv'
          rw [onLine_merge hq hv'.1 hv'.2.1 hv'.2.2, onLine_merge hq' h₁ h₂ h₃]
          rfl
        · have hlength : v.length < n := by
            have hpos := List.length_pos_iff.mpr hq.ne_nil
            rw [← hn, List.length_append]
            omega
          rw [onLine_cons hq hv', onLine_cons hq' (fun h => hv' (hmerge.mp h)), List.length_append,
            List.length_append, ih v.length hlength hv hlast' rfl, kept, kept]
          simp only [← hlone, ← hlone']
          split <;> rfl

/-! ## Reading the members on a line -/

theorem Closed.lex {q : Text} (h : Closed q) {s : State} (hs : s.quote = none ∧ s.inBlock = false) :
    (endFrom .free s q).1 = .free ∧ (feed s q).quote = none ∧ (feed s q).inBlock = false := by
  have hlex : s.lex = ({} : State).lex := by simp [State.lex, hs.1, hs.2]
  obtain ⟨hphase, hend, -⟩ := endFrom_lex hlex .free q
  rw [feed_eq]
  refine ⟨hphase.trans h.phase, ?_, ?_⟩
  · exact (congrArg Prod.fst hend).trans h.state.quote
  · exact (congrArg Prod.snd hend).trans h.state.inBlock

theorem Closed.feed_append {q : Text} (h : Closed q) {s : State}
    (hs : s.quote = none ∧ s.inBlock = false) (v : Text) :
    feed s (q ++ v) = feed (feed s q) v := by
  obtain ⟨hphase, -, -⟩ := h.lex hs
  rw [feed_eq s (q ++ v), endFrom_append (h.cuts _ _ v), hphase, feed_eq (feed s q), feed_eq s q]

theorem feed_lone {s : State} (hs : s.quote = none ∧ s.inBlock = false) :
    feed s [';'] = { s with previous := some ';' } := by
  have hstep : step .free s ';' none =
      (⟨';', s.depth, .code⟩, .free, { s with previous := some ';' }) := by
    simp [step, stepFree, hs.1, hs.2, isQuote, readCode_stop (show isStop ';' = true from rfl),
      State.depth]
  rw [feed_eq, endFrom, List.head?_nil, hstep]
  rfl

/-! ## Lines that keep to themselves -/

/-- Whether a line, without the blanks at its ends, keeps to itself; `carried` says that it begins
inside a string or a comment. -/
def stays (carried : Bool) (shown : Text) : Bool :=
  carried || shown.isEmpty || startsWith shown "//" || startsWith shown "/*" ||
    startsWith shown "*" || (onLine shown).length < 2

theorem expandLine_of_stays {carried : Bool} {l : Text} (h : stays carried (trim l) = true) :
    expandLine carried l = [l] := by
  simp only [stays, Bool.or_eq_true, decide_eq_true_eq] at h
  unfold expandLine
  simp only
  split
  · rfl
  · next hno =>
    simp only [Bool.or_eq_true] at hno
    rw [if_pos (h.resolve_left hno)]

theorem expandLine_of_not_stays {carried : Bool} {l : Text} (h : stays carried (trim l) = false) :
    carried = false ∧ expandLine carried l = (onLine (trim l)).map (indentOf l ++ ·) := by
  simp only [stays, Bool.or_eq_false_iff, decide_eq_false_iff_not] at h
  obtain ⟨⟨⟨⟨⟨rfl, hempty⟩, hline⟩, hblock⟩, hstar⟩, hlen⟩ := h
  refine ⟨rfl, ?_⟩
  simp [expandLine, hempty, hline, hblock, hstar, hlen]

def AllStay (s : State) : List Text → Prop
  | [] => True
  | l :: r => stays s.carries (trim l) = true ∧ AllStay (feed s l) r

theorem expandFrom_of_allStay {s : State} {ls : List Text} (h : AllStay s ls) :
    expandFrom s ls = ls := by
  induction ls generalizing s with
  | nil => rfl
  | cons l r ih =>
    have hl : expandLine (s.inBlock || s.quote.isSome) l = [l] := expandLine_of_stays h.1
    rw [expandFrom, hl, ih h.2]
    rfl

theorem allStay_append {s : State} {a b : List Text} :
    AllStay s (a ++ b) ↔ AllStay s a ∧ AllStay (feedAll s a) b := by
  induction a generalizing s with
  | nil => simp [AllStay]
  | cons l a ih => rw [List.cons_append, AllStay, AllStay, ih, and_assoc]; rfl

theorem AllStay.of_lex {s s' : State} (hs : s.lex = s'.lex) {ls : List Text} (h : AllStay s ls) :
    AllStay s' ls := by
  induction ls generalizing s s' with
  | nil => trivial
  | cons l r ih =>
    refine ⟨?_, ih (feed_lex hs l) h.2⟩
    rw [← State.carries_of_lex hs]
    exact h.1

theorem allStay_of_short {s : State} {ls : List Text} (h : ∀ l ∈ ls, (onLine (trim l)).length < 2) :
    AllStay s ls := by
  induction ls generalizing s with
  | nil => trivial
  | cons l r ih =>
    obtain ⟨hl, hr⟩ := List.forall_mem_cons.mp h
    exact ⟨by simp [stays, hl], ih hr⟩

end SourceLayout.Member
