import SourceLayout.Proofs.Signatures.Sealed

/-! What of a type does not hang on its layout: its characters without the blanks of code and
without the commas and semicolons that stand directly between two braces, where they separate the
members of an object type. -/

namespace SourceLayout.Scan
open Text

/-- A comma or semicolon directly between two braces. -/
def State.separates (s : State) (x : Char × Kind) : Bool :=
  x.2 == .code && isStop x.1 && s.stack.head? == some '{'

def essenceFrom (s : State) : List (Char × Kind) → List (Char × Kind)
  | [] => []
  | x :: w => if s.separates x then essenceFrom (s.take x) w else x :: essenceFrom (s.take x) w

/-- The characters of a text, blanks of code and separators of members aside. -/
def essence (t : Text) : List (Char × Kind) := essenceFrom {} (word t)

theorem essenceFrom_append (s : State) (w v : List (Char × Kind)) :
    essenceFrom s (w ++ v) = essenceFrom s w ++ essenceFrom (endWord s w) v := by
  induction w generalizing s with
  | nil => rfl
  | cons x w ih =>
    rw [List.cons_append, essenceFrom, essenceFrom, ih, endWord_cons]
    split <;> rfl

theorem State.Alike.essence {s s' : State} (h : s.Alike s') (w : List (Char × Kind)) :
    essenceFrom s w = essenceFrom s' w := by
  induction w generalizing s s' with
  | nil => rfl
  | cons x w ih =>
    rw [essenceFrom, essenceFrom, State.separates, State.separates, h.stack, ih (h.take x)]

/-- A nested word without separators outside brackets has the same essence inside other brackets. -/
theorem essenceFrom_on {s : State} {w : List (Char × Kind)} (h : nestsWord s w = true)
    (hl : ∀ m ∈ markWord s w, m.isTop = true → m.char ∉ [';', ',']) (outer : List Char) :
    essenceFrom (s.on outer) w = essenceFrom s w := by
  induction w generalizing s with
  | nil => rfl
  | cons x w ih =>
    rw [nestsWord, Bool.and_eq_true] at h
    rw [markWord] at hl
    obtain ⟨hfirst, hrest⟩ := List.forall_mem_cons.mp hl
    have hsame : (s.on outer).separates x = s.separates x := by
      cases hs : s.stack with
      | cons o rest => simp [State.separates, State.on, hs]
      | nil =>
        -- outside brackets a separator would be marked as one
        have hno : (x.2 == .code && isStop x.1) = false := by
          rw [Bool.eq_false_iff]
          intro hstop
          rw [Bool.and_eq_true, beq_iff_eq] at hstop
          obtain ⟨c, k⟩ := x
          obtain ⟨rfl, hc⟩ : k = .code ∧ isStop c = true := hstop
          have htop : (s.mark (c, .code)).isTop = true := by
            rw [mark_sign (isSign_of_stop hc).1, State.depth, hs]
            rfl
          have hcases : c = ',' ∨ c = ';' := by simpa [isStop] using hc
          refine hfirst htop ?_
          rcases hcases with rfl | rfl
          · exact List.mem_cons_of_mem _ List.mem_cons_self
          · exact List.mem_cons_self
        simp [State.separates, hno]
    rw [essenceFrom, essenceFrom, hsame, take_on h.1, ih h.2 hrest]

/-- A balanced word without separators outside brackets, behind text that
does not end in an equals sign. -/
theorem Balanced.essence {w : List (Char × Kind)} (h : Balanced w) (hl : Lacks [';', ','] w)
    {s : State} (hs : s.lex = (none, false)) (hprevious : s.previous ≠ some '=') :
    essenceFrom s w = essenceFrom {} w := by
  have halike : s.Alike (({} : State).on s.stack) :=
    ⟨rfl, congrArg Prod.fst hs, congrArg Prod.snd hs, by simp [hprevious]⟩
  rw [halike.essence, essenceFrom_on h.nests hl]

/-- Two words with a sign between them. -/
theorem Balanced.essence_join {w : List (Char × Kind)} (h : Balanced w) {c : Char} (hc : IsSign c)
    (v : List (Char × Kind)) :
    essenceFrom {} (w ++ (c, .code) :: v) = essenceFrom {} w ++ (c, .code) :: essenceFrom {} v := by
  have hno : (endWord {} w).separates (c, .code) = false := by simp [State.separates, h.closed]
  rw [essenceFrom_append, essenceFrom, hno, (alike_sign hc (endWord_lex {} w) h.closed).essence]
  rfl

/-- A balanced word between two brackets. -/
theorem Balanced.essence_pair {x : List (Char × Kind)} (h : Balanced x) {o c : Char}
    (hc : openerOf c = some o) (hangle : c ≠ '>') (a b : List (Char × Kind)) :
    essenceFrom {} (a ++ (o, .code) :: (x ++ (c, .code) :: b)) =
      essenceFrom {} a ++ (o, .code) :: (essenceFrom ((endWord {} a).take (o, .code)) x ++
        (c, .code) :: essenceFrom { endWord {} a with previous := some c } b) := by
  have hno {d : Char} (hd : isStop d = false) (s : State) : s.separates (d, .code) = false := by
    simp [State.separates, hd]
  have hclose : isStop c = false := by
    unfold openerOf at hc
    split at hc <;> first | decide | cases hc
  have hopen : isStop o = false := by
    have ho := (isOpener_of_pair hc).1
    simp only [isOpener, Bool.or_eq_true, beq_iff_eq] at ho
    rcases ho with ((rfl | rfl) | rfl) | rfl <;> rfl
  rw [essenceFrom_append, essenceFrom, hno hopen, essenceFrom_append, essenceFrom, hno hclose,
    (h.enclosed hc hangle (endWord_lex {} a)).2.2.2]
  rfl

theorem Clean.essence_trim {u : Text} (hu : Clean u) : essence (Text.trim u) = essence u := by
  rw [essence, essence, hu.word_trim]

theorem essence_shown {u : Text} (hu : Clean u) :
    ([trim u].filter (!·.isEmpty)).flatMap essence = essence u := by
  rw [← hu.essence_trim]
  cases hempty : (trim u).isEmpty with
  | true =>
    rw [List.filter_cons_of_neg (by simp [hempty]), List.isEmpty_iff.mp hempty]
    rfl
  | false =>
    rw [List.filter_cons_of_pos (by simp [hempty])]
    simp

/-- Directly between two braces a text has the essence of its members. -/
theorem Sealed.essence_members {t : Text} (h : Sealed t) {s : State} (hs : s.lex = (none, false))
    (hprevious : s.previous ≠ some '=') (hstack : s.stack.head? = some '{') :
    essenceFrom s (word t) = (splitTop [';', ','] t).flatMap essence := by
  have hseps : [';', ','].all isStop = true := by decide
  induction t using cut_induction hseps generalizing s with
  | uncut t hno =>
    have hlacks := (lacks_word (not_blank_of_stops hseps) h.clean.commentStart?).mpr hno
    rw [h.balanced.essence hlacks hs hprevious, splitTop_uncut hno, essence_shown h.clean]
    rfl
  | ended u c v hc hstop hended ih =>
    obtain ⟨hsign, hi⟩ := isSign_of_stop hstop
    obtain ⟨hu, hv⟩ := h.cut hsign hi (hended.getElem?_marks hstop v) rfl
    have hlacks := (lacks_word (not_blank_of_stops hseps) hu.clean.commentStart?).mpr hended.uncut
    -- the separator is left out, and reading goes on between the same braces
    obtain ⟨-, hsame, -⟩ := hu.balanced.read hs hprevious
    have hcut : (endWord s (word u)).separates (c, .code) = true := by
      simp [State.separates, hstop, hsame, hstack]
    have hnext : (endWord s (word u)).take (c, .code) =
        { endWord s (word u) with previous := some c } :=
      take_sign hsign _
    have hrest := ih hv (s := (endWord s (word u)).take (c, .code))
      ((take_lex _ _).trans ((endWord_lex s _).trans hs)) (by rw [hnext]; simpa using hsign.equals)
      (by rw [hnext]; exact hsame ▸ hstack)
    rw [hu.clean.word_sign hi hsign.blank, essenceFrom_append, essenceFrom, hcut, if_pos rfl, hrest,
      hu.balanced.essence hlacks hs hprevious, hended.splitTop_append hstop hc, List.flatMap_append,
      essence_shown hu.clean]
    rfl

end SourceLayout.Scan
