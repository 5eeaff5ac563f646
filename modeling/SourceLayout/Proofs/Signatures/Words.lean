import SourceLayout.Proofs.Literals.Clean
import SourceLayout.Proofs.Matching

/-! Brackets in texts without comments. Which brackets are open behind such a text, and how
deep its characters stand, is read off its tags one by one, and blanks of code do not count:
for its brackets a text is the word of its firm tags. Balanced words may stand for each other
between two brackets. -/

namespace SourceLayout.Scan
open Text

/-! ## Reading tags -/

def State.take (s : State) (x : Char × Kind) : State :=
  match x.2 with
  | .code => s.readCode x.1
  | .string => { s with previous := some x.1 }
  | .comment => s

def State.mark (s : State) (x : Char × Kind) : Mark := ⟨x.1, min s.depth (s.take x).depth, x.2⟩

def markWord (s : State) : List (Char × Kind) → List Mark
  | [] => []
  | x :: w => s.mark x :: markWord (s.take x) w

def endWord (s : State) (w : List (Char × Kind)) : State := w.foldl State.take s

/-- Whether every closing bracket of a word closes the innermost open one. -/
def nestsWord (s : State) : List (Char × Kind) → Bool
  | [] => true
  | x :: w => (x.2 != .code || s.allows true x.1) && nestsWord (s.take x) w

@[simp] theorem take_lex (s : State) (x : Char × Kind) : (s.take x).lex = s.lex := by
  unfold State.take
  split <;> rfl

theorem take_code (s : State) (c : Char) : s.take (c, .code) = s.readCode c := rfl

theorem take_string (s : State) (c : Char) : s.take (c, .string) = { s with previous := some c } :=
  rfl

theorem endWord_cons (s : State) (x : Char × Kind) (w : List (Char × Kind)) :
    endWord s (x :: w) = endWord (s.take x) w := rfl

@[simp] theorem endWord_lex (s : State) (w : List (Char × Kind)) : (endWord s w).lex = s.lex := by
  induction w generalizing s with
  | nil => rfl
  | cons x w ih => rw [endWord_cons, ih, take_lex]

theorem endWord_append (s : State) (w v : List (Char × Kind)) :
    endWord s (w ++ v) = endWord (endWord s w) v :=
  List.foldl_append

theorem markWord_append (s : State) (w v : List (Char × Kind)) :
    markWord s (w ++ v) = markWord s w ++ markWord (endWord s w) v := by
  induction w generalizing s with
  | nil => rfl
  | cons x w ih => rw [List.cons_append, markWord, markWord, ih, List.cons_append]; rfl

theorem nestsWord_append (s : State) (w v : List (Char × Kind)) :
    nestsWord s (w ++ v) = (nestsWord s w && nestsWord (endWord s w) v) := by
  induction w generalizing s with
  | nil => rfl
  | cons x w ih => rw [List.cons_append, nestsWord, nestsWord, ih, Bool.and_assoc]; rfl

/-- The state of the scanner in a text without comments, and the state behind the tags of what it
has read. Inside a string the two may differ in the last character. -/
structure Follows (p : Phase) (s s' : State) : Prop where
  sane : Sane (p, s)
  lex : s'.lex = (none, false)
  stack : s'.stack = s.stack
  equals : s.quote = none → (s'.previous = some '=' ↔ s.previous = some '=')
  opened : s.quote.isSome = true → s.previous ≠ some '='

theorem Follows.alike {p : Phase} {s s' : State} (h : Follows p s s') (hq : s.quote = none)
    (hb : s.inBlock = false) : s'.Alike s :=
  ⟨h.stack, (congrArg Prod.fst h.lex).trans hq.symm, (congrArg Prod.snd h.lex).trans hb.symm,
    h.equals hq⟩

/-- A character of a string opens, continues or closes one. -/
theorem step_string {p : Phase} {s : State} (hs : Sane (p, s)) (hp : p = .free ∨ p = .escaped)
    (hb : s.inBlock = false) {c : Char} {next : Option Char}
    (hk : (step p s c next).1.kind = .string) :
    (step p s c next).1 = ⟨c, s.depth, .string⟩ ∧ (step p s c next).2.2.stack = s.stack ∧
      (s.quote.isSome = true ∧ (step p s c next).2.2.previous = s.previous ∧
          ((step p s c next).2.2.quote = none → isQuote c = true) ∨
        isQuote c = true ∧ (step p s c next).2.2.previous = some c ∧
        (step p s c next).2.2.quote = some c) := by
  rcases hp with rfl | rfl
  · cases hq : s.quote with
    | some q =>
      have hquote : isQuote q = true := hs.quoted q hq
      by_cases hesc : c = '\\' ∧ next.isSome = true
      · simp [step, stepFree, hb, hq, hesc]
      · by_cases hc : c = q
        · subst hc
          simp [step, stepFree, hb, hq, hesc, hquote]
        · simp [step, stepFree, hb, hq, hesc, hc]
    | none =>
      cases hquote : isQuote c with
      | true => simp [step, stepFree, hb, hq, hquote]
      | false =>
        simp only [step, stepFree, hb, hq, hquote, Bool.false_eq_true, ↓reduceIte] at hk
        split at hk
        · cases hk
        · split at hk <;> cases hk
  · have hopen : s.quote.isSome = true := hs.escaped rfl
    refine ⟨rfl, rfl, .inl ⟨hopen, rfl, fun hnone => ?_⟩⟩
    have hsame : s.quote = none := hnone
    rw [hsame] at hopen
    cases hopen

theorem Follows.step {p : Phase} {s s' : State} (h : Follows p s s') (hp : p = .free ∨ p = .escaped)
    (hb : s.inBlock = false) {c : Char} {next : Option Char}
    (hm : (step p s c next).1.isComment = false) :
    (step p s c next).1 = s'.mark (step p s c next).1.tag ∧
      ((step p s c next).1.isCode = true → s'.Alike s) ∧
      Follows (Scan.step p s c next).2.1 (Scan.step p s c next).2.2
        (s'.take (Scan.step p s c next).1.tag) := by
  have hsane := h.sane.step c next
  have hdepth : s'.depth = s.depth := congrArg List.length h.stack
  rcases step_cases p s c next with ⟨hq, -, hstep⟩ | ⟨k, p', s₁, hk, -, hstep⟩
  · -- a character of code
    have halike := h.alike hq hb
    have hread := halike.readCode c
    rw [hstep] at hsane ⊢
    refine ⟨?_, fun _ => halike, hsane, by rw [take_lex]; exact h.lex, hread.stack,
      fun _ => hread.equals, ?_⟩
    · rw [State.mark, hdepth]
      simp only [Mark.tag, take_code, State.depth, hread.stack]
    · rw [readCode_quote, hq]
      simp
  · have hstring : (Scan.step p s c next).1.kind = .string := by
      rw [hstep] at hm ⊢
      cases k <;> simp_all [Mark.isComment]
    obtain ⟨hmark, hstack, hstate⟩ := step_string h.sane hp hb hstring
    rw [hmark]
    refine ⟨?_, by simp [Mark.isCode], hsane, by rw [take_lex]; exact h.lex,
      h.stack.trans hstack.symm, ?_, ?_⟩
    · rw [State.mark, ← hdepth]
      exact congrArg (Mark.mk c · Kind.string) (Nat.min_self _).symm
    · intro hnone
      rcases hstate with ⟨hopen, hprevious, hclose⟩ | ⟨-, -, hquote⟩
      · have hne : c ≠ '=' := by
          rintro rfl
          cases hclose hnone
        rw [hprevious]
        simp [Mark.tag, take_string, hne, h.opened hopen]
      · rw [hquote] at hnone
        cases hnone
    · intro _
      rcases hstate with ⟨hopen, hprevious, -⟩ | ⟨hquote, hprevious, -⟩
      · rw [hprevious]
        exact h.opened hopen
      · rw [hprevious]
        rintro ⟨⟩
        cases hquote

/-- A text without comments is read as its tags are. -/
theorem Follows.read {p : Phase} {s s' : State} (h : Follows p s s') (hp : p = .free ∨ p = .escaped)
    (hb : s.inBlock = false) {t : Text} (ht : ∀ m ∈ marksFrom p s t, m.isComment = false) :
    marksFrom p s t = markWord s' ((marksFrom p s t).map Mark.tag) ∧
      closesInner p s t = nestsWord s' ((marksFrom p s t).map Mark.tag) ∧
      Follows (endFrom p s t).1 (endFrom p s t).2
        (endWord s' ((marksFrom p s t).map Mark.tag)) := by
  induction t generalizing p s s' with
  | nil => exact ⟨rfl, rfl, h⟩
  | cons c r ih =>
    rw [marksFrom_cons] at ht ⊢
    obtain ⟨hm, hr⟩ := List.forall_mem_cons.mp ht
    obtain ⟨hp', hb', -⟩ := step_quiet hp hb hm
    obtain ⟨hmark, halike, hnext⟩ := h.step hp hb hm
    obtain ⟨hmarks, hnests, hend⟩ := ih hnext hp' hb' hr
    rw [List.map_cons, markWord, nestsWord, closesInner, ← hmark, ← hmarks, ← hnests]
    refine ⟨rfl, ?_, hend⟩
    cases hcode : (Scan.step p s c r.head?).1.isCode with
    | true =>
      have hkind : (Scan.step p s c r.head?).1.tag = (c, .code) := by
        simpa [Mark.tag, Mark.isCode] using hcode
      rw [hkind, (halike hcode).allows]
      rfl
    | false =>
      have hkind : ((Scan.step p s c r.head?).1.tag.2 != .code) = true := by
        simpa [Mark.tag, Mark.isCode] using hcode
      rw [hkind]
      rfl

/-! ## Firm words -/

def isFirmTag (x : Char × Kind) : Bool := x.2 == .string || !isBlank x.1

def word (t : Text) : List (Char × Kind) := (tags t).filter isFirmTag

theorem take_not_firm {s : State} {x : Char × Kind} (hx : isFirmTag x = false) : s.take x = s := by
  obtain ⟨c, k⟩ := x
  simp only [isFirmTag, Bool.or_eq_false_iff, Bool.not_eq_false', beq_eq_false_iff_ne] at hx
  cases k with
  | code => exact readCode_blank hx.2 s
  | string => exact absurd rfl hx.1
  | comment => rfl

/-- Blanks of code open and close nothing. -/
theorem read_firm (s : State) (w : List (Char × Kind)) :
    endWord s (w.filter isFirmTag) = endWord s w ∧ nestsWord s (w.filter isFirmTag) =
      nestsWord s w ∧ markWord s (w.filter isFirmTag) = (markWord s w).filter Mark.isFirm := by
  induction w generalizing s with
  | nil => exact ⟨rfl, rfl, rfl⟩
  | cons x w ih =>
    rw [nestsWord, markWord, endWord_cons s x w]
    have hmark : (s.mark x).isFirm = isFirmTag x := rfl
    cases hx : isFirmTag x with
    | true =>
      obtain ⟨hend, hnests, hmarks⟩ := ih (s.take x)
      rw [List.filter_cons_of_pos hx, List.filter_cons_of_pos (hmark.trans hx), nestsWord, markWord,
        hnests, hmarks]
      exact ⟨hend, rfl, rfl⟩
    | false =>
      have hallow : (x.2 != .code || s.allows true x.1) = true := by
        simp only [isFirmTag, Bool.or_eq_false_iff, Bool.not_eq_false'] at hx
        simp [State.allows, openerOf_blank hx.2]
      rw [List.filter_cons_of_neg (by simp [hx]), List.filter_cons_of_neg (by simp [hmark, hx]),
        take_not_firm hx, hallow, Bool.true_and]
      exact ih s

theorem follows_start : Follows .free {} {} := ⟨sane_start, rfl, rfl, fun _ => Iff.rfl, by simp⟩

/-- The firm marks of a text without comments, read behind other text. -/
theorem firm_marksFrom {s s' : State} (h : Follows .free s s') (hs : s.lex = (none, false))
    {t : Text} (ht : commentStart? t = none) :
    (marksFrom .free s t).filter Mark.isFirm = markWord s' (word t) ∧
      closesInner .free s t = nestsWord s' (word t) ∧
      Follows (endFrom .free s t).1 (endFrom .free s t).2 (endWord s' (word t)) := by
  have htags : (marksFrom .free s t).map Mark.tag = tags t := tags_lex hs .free t
  have hquiet : ∀ m ∈ marksFrom .free s t, m.isComment = false := by
    have hnone := List.findIdx?_eq_none_iff.mp ht
    intro m hm
    have hmem : m.tag ∈ tags t := htags ▸ List.mem_map_of_mem hm
    obtain ⟨m', hm', heq⟩ := List.mem_map.mp hmem
    have hkind : m'.kind = m.kind := congrArg Prod.snd heq
    rw [Mark.isComment, ← hkind]
    exact hnone m' hm'
  obtain ⟨hmarks, hnests, hend⟩ := h.read (.inl rfl) (congrArg Prod.snd hs) hquiet
  rw [htags] at hmarks hnests hend
  obtain ⟨hendFirm, hnestsFirm, hmarksFirm⟩ := read_firm s' (tags t)
  rw [word, hendFirm, hnestsFirm, hmarksFirm, ← hmarks]
  exact ⟨rfl, hnests, hend⟩

/-- The firm marks of a text without comments. -/
theorem firm_marks {t : Text} (ht : commentStart? t = none) :
    (marks t).filter Mark.isFirm = markWord {} (word t) := (firm_marksFrom follows_start rfl ht).1

theorem Parted.word {u v : Text} (h : Parted u v) : word (u ++ v) = Scan.word u ++ Scan.word v := by
  rw [Scan.word, h.tags, List.filter_append]
  rfl

theorem tags_inert {a : Text} (ha : a.all isInert = true) : tags a = a.map fun c => (c, .code) := by
  have hkinds := (inert_read inCode_start ha).1
  have hmap : (marks a).map Mark.tag = ((marks a).map Mark.char).map fun c => (c, .code) := by
    rw [List.map_map]
    exact List.map_congr_left fun m hm => Prod.ext rfl (hkinds m hm)
  rw [tags, hmap, map_char_marks]

theorem word_inert {a : Text} (ha : a.all isInert = true) :
    word a = (a.filter (!isBlank ·)).map fun c => (c, .code) := by
  rw [word, tags_inert ha, List.filter_map]
  rfl

theorem word_blank {b : Text} (hb : isBlankLine b = true) : word b = [] := by
  rw [word_inert (inert_blank hb),
    List.filter_eq_nil_iff.mpr fun c hc => by simp [List.all_eq_true.mp hb c hc]]
  rfl

theorem word_sign {c : Char} (hc : isInert c = true) (hb : isBlank c = false) :
    word [c] = [(c, .code)] := by
  rw [word_inert (by simp [hc])]
  simp [hb]

theorem word_eq_firm (t : Text) : word t = ((marks t).filter Mark.isFirm).map Mark.tag := by
  rw [word, tags, List.filter_map]
  rfl

theorem Clean.word_trim {t : Text} (h : Clean t) : word (Text.trim t) = word t := by
  rw [word_eq_firm, word_eq_firm, h.firm_trim]

theorem Clean.word_collapse {t : Text} (h : Clean t) : word (Scan.collapse t) = word t := by
  rw [word_eq_firm, word_eq_firm, h.collapse.2]

/-! ## Balanced words -/

structure Balanced (w : List (Char × Kind)) : Prop where
  nests : nestsWord {} w = true
  closed : (endWord {} w).stack = []

/-- Signs of code that open and close nothing. -/
structure IsSign (c : Char) : Prop where
  opens : isOpener c = false
  closes : openerOf c = none
  blank : isBlank c = false
  equals : c ≠ '='

theorem take_sign {c : Char} (hc : IsSign c) (s : State) :
    s.take (c, .code) = { s with previous := some c } := by
  simp [take_code, State.readCode, hc.opens, hc.closes, hc.blank]

theorem take_opener {o : Char} (ho : isOpener o = true) (s : State) :
    s.take (o, .code) = { s with stack := o :: s.stack, previous := some o } := by
  have hblank : isBlank o = false := by
    simp only [isOpener, Bool.or_eq_true, beq_iff_eq] at ho
    rcases ho with ((rfl | rfl) | rfl) | rfl <;> rfl
  simp [take_code, State.readCode, ho, hblank]

theorem take_closer {c o : Char} (hc : openerOf c = some o) (hangle : c ≠ '>') {s : State}
    {rest : List Char} (hs : s.stack = o :: rest) :
    s.take (c, .code) = { s with stack := rest, previous := some c } := by
  have hblank : isBlank c = false := by
    rw [Bool.eq_false_iff]
    intro hb
    rw [openerOf_blank hb] at hc
    cases hc
  rw [take_code, readCode_close hc (fun h => hangle h.1) hs]
  simp [hblank]

theorem State.Alike.take {s s' : State} (h : s.Alike s') (x : Char × Kind) :
    (s.take x).Alike (s'.take x) := by
  obtain ⟨c, k⟩ := x
  cases k with
  | code => exact h.readCode c
  | string => exact ⟨h.stack, h.quote, h.inBlock, Iff.rfl⟩
  | comment => exact h

/-- Words are read alike from states that read on alike. -/
theorem State.Alike.word {s s' : State} (h : s.Alike s') (w : List (Char × Kind)) :
    nestsWord s w = nestsWord s' w ∧ markWord s w = markWord s' w ∧
    (endWord s w).Alike (endWord s' w) := by
  induction w generalizing s s' with
  | nil => exact ⟨rfl, rfl, h⟩
  | cons x w ih =>
    have htake := h.take x
    obtain ⟨hnests, hmarks, hend⟩ := ih htake
    have hmark : s.mark x = s'.mark x := by
      simp only [State.mark, State.depth, h.stack, htake.stack]
    rw [nestsWord, nestsWord, markWord, markWord, hnests, hmarks, h.allows, hmark]
    exact ⟨rfl, rfl, hend⟩

theorem take_on {s : State} {x : Char × Kind} (h : (x.2 != .code || s.allows true x.1) = true)
    (outer : List Char) : (s.on outer).take x = (s.take x).on outer := by
  obtain ⟨c, k⟩ := x
  cases k with
  | code => exact readCode_on (by simpa using h) outer
  | string => rfl
  | comment => rfl

/-- A nested word is read inside other brackets as it is read alone. -/
theorem nestsWord_on {s : State} {w : List (Char × Kind)} (h : nestsWord s w = true)
    (outer : List Char) :
    nestsWord (s.on outer) w = true ∧ endWord (s.on outer) w = (endWord s w).on outer ∧
      markWord (s.on outer) w = (markWord s w).map (Mark.deeper outer.length) := by
  induction w generalizing s with
  | nil => exact ⟨rfl, rfl, rfl⟩
  | cons x w ih =>
    rw [nestsWord, Bool.and_eq_true] at h
    obtain ⟨hallow, hrest⟩ := h
    have htake := take_on hallow outer
    obtain ⟨hnests, hend, hmarks⟩ := ih hrest
    have hmark : (s.on outer).mark x = (s.mark x).deeper outer.length := by
      simp only [State.mark, htake, State.depth_on, Mark.deeper, Mark.mk.injEq, and_true, true_and]
      omega
    rw [nestsWord, markWord, endWord_cons, htake, hnests, hend, hmarks, hmark]
    refine ⟨?_, rfl, rfl⟩
    rw [Bool.or_eq_true] at hallow
    rw [Bool.and_true, Bool.or_eq_true]
    exact hallow.imp_right (allows_on · outer)

/-- A balanced word behind text that does not end in an equals sign. -/
theorem Balanced.read {w : List (Char × Kind)} (h : Balanced w) {s : State}
    (hs : s.lex = (none, false)) (hprevious : s.previous ≠ some '=') :
    nestsWord s w = true ∧ (endWord s w).stack = s.stack ∧
      markWord s w = (markWord {} w).map (Mark.deeper s.depth) := by
  have halike : s.Alike (({} : State).on s.stack) :=
    ⟨rfl, congrArg Prod.fst hs, congrArg Prod.snd hs, by simp [hprevious]⟩
  obtain ⟨hnests, hmarks, hend⟩ := halike.word w
  obtain ⟨hon, hendOn, hmarksOn⟩ := nestsWord_on h.nests s.stack
  refine ⟨hnests.trans hon, ?_, hmarks.trans hmarksOn⟩
  rw [hend.stack, hendOn, State.on_stack, h.closed, List.nil_append]

theorem balanced_nil : Balanced [] := ⟨rfl, rfl⟩

/-- Behind a sign outside brackets reading begins anew. -/
theorem alike_sign {c : Char} (hc : IsSign c) {s : State} (hs : s.lex = (none, false))
    (hstack : s.stack = []) : (s.take (c, .code)).Alike {} := by
  rw [take_sign hc]
  exact ⟨hstack, congrArg Prod.fst hs, congrArg Prod.snd hs, by simp [hc.equals]⟩

theorem nestsWord_sign {c : Char} (hc : IsSign c) (s : State) (w : List (Char × Kind)) :
    nestsWord s ((c, .code) :: w) = nestsWord (s.take (c, .code)) w := by
  simp [nestsWord, State.allows, hc.closes]

theorem mark_sign {c : Char} (hc : IsSign c) (s : State) :
    s.mark (c, .code) = ⟨c, s.depth, .code⟩ := by
  rw [State.mark, take_sign hc]
  exact congrArg (Mark.mk c · Kind.code) (Nat.min_self _)

/-- Two balanced words with a sign between them. -/
theorem Balanced.join {w v : List (Char × Kind)} (hw : Balanced w) {c : Char} (hc : IsSign c)
    (hv : Balanced v) :
    Balanced (w ++ (c, .code) :: v) ∧
      markWord {} (w ++ (c, .code) :: v) = markWord {} w ++ ⟨c, 0, .code⟩ :: markWord {} v := by
  obtain ⟨hnests, hmarks, hend⟩ := (alike_sign hc (endWord_lex {} w) hw.closed).word v
  have hdepth : (endWord {} w).depth = 0 := by rw [State.depth, hw.closed]; rfl
  refine ⟨⟨?_, ?_⟩, ?_⟩
  · rw [nestsWord_append, hw.nests, nestsWord_sign hc, hnests, hv.nests]
    rfl
  · rw [endWord_append, endWord_cons, hend.stack, hv.closed]
  · rw [markWord_append, markWord, hmarks, mark_sign hc, hdepth]

/-- A balanced word is cut at a sign that no bracket encloses. -/
theorem Balanced.cut {w v : List (Char × Kind)} {c : Char} (h : Balanced (w ++ (c, .code) :: v))
    (hc : IsSign c) (htop : (endWord {} w).stack = []) : Balanced w ∧ Balanced v := by
  obtain ⟨hnests, -, hend⟩ := (alike_sign hc (endWord_lex {} w) htop).word v
  have hwhole := h.nests
  have hclosed := h.closed
  rw [nestsWord_append, nestsWord_sign hc, hnests, Bool.and_eq_true] at hwhole
  rw [endWord_append, endWord_cons, hend.stack] at hclosed
  exact ⟨⟨hwhole.1, htop⟩, hwhole.2, hclosed⟩

/-! ## Words between brackets -/

/-- Two brackets and a balanced word between them leave no trace but the last character. -/
theorem Balanced.enclosed {y : List (Char × Kind)} (hy : Balanced y) {o c : Char}
    (hc : openerOf c = some o) (hangle : c ≠ '>') {s : State} (hs : s.lex = (none, false)) :
    nestsWord (s.take (o, .code)) y = true ∧
      markWord (s.take (o, .code)) y = (markWord {} y).map (Mark.deeper (s.depth + 1)) ∧
      (endWord (s.take (o, .code)) y).stack = o :: s.stack ∧
      (endWord (s.take (o, .code)) y).take (c, .code) = { s with previous := some c } := by
  have ho := (isOpener_of_pair hc).1
  have hopen : s.take (o, .code) = { s with stack := o :: s.stack, previous := some o } :=
    take_opener ho s
  have hprevious : (s.take (o, .code)).previous ≠ some '=' := by
    rw [hopen]
    rintro ⟨⟩
    cases ho
  obtain ⟨hnests, hstack, hmarks⟩ := hy.read ((take_lex s _).trans hs) hprevious
  have hlex := (endWord_lex (s.take (o, .code)) y).trans (take_lex s _)
  have hinner : (s.take (o, .code)).stack = o :: s.stack := by rw [hopen]
  have hdepth : (s.take (o, .code)).depth = s.depth + 1 := by rw [State.depth, hinner]; rfl
  rw [hdepth] at hmarks
  rw [hinner] at hstack
  refine ⟨hnests, hmarks, hstack, ?_⟩
  rw [take_closer hc hangle hstack]
  generalize endWord (s.take (o, .code)) y = s' at hlex
  obtain ⟨_, _, _, _⟩ := s
  obtain ⟨_, _, _, _⟩ := s'
  cases hlex
  rfl

theorem mark_pair {o c : Char} (hc : openerOf c = some o) (hangle : c ≠ '>') {s s' : State}
    (hs' : s'.stack = o :: s.stack) :
    s.mark (o, .code) = ⟨o, s.depth, .code⟩ ∧ s'.mark (c, .code) = ⟨c, s.depth, .code⟩ := by
  have ho := (isOpener_of_pair hc).1
  rw [State.mark, State.mark, take_opener ho, take_closer hc hangle hs']
  simp only [State.depth, hs', List.length_cons, Mark.mk.injEq, and_true, true_and]
  omega

/-- A word between two brackets may be replaced by any balanced word. -/
theorem nestsWord_frame {a b x : List (Char × Kind)} {o c : Char} (hc : openerOf c = some o)
    (hangle : c ≠ '>') (hx : Balanced x)
    (h : nestsWord {} (a ++ (o, .code) :: (x ++ (c, .code) :: b)) = true) :
    ∃ d ms, ∀ y, Balanced y → nestsWord {} (a ++ (o, .code) :: (y ++ (c, .code) :: b)) = true ∧
      endWord {} (a ++ (o, .code) :: (y ++ (c, .code) :: b)) =
        endWord {} (a ++ (o, .code) :: (x ++ (c, .code) :: b)) ∧
      markWord {} (a ++ (o, .code) :: (y ++ (c, .code) :: b)) =
        markWord {} a ++ ⟨o, d, .code⟩ ::
        ((markWord {} y).map (Mark.deeper (d + 1)) ++ ⟨c, d, .code⟩ :: ms) := by
  have hlex : (endWord {} a).lex = (none, false) := endWord_lex {} a
  refine ⟨(endWord {} a).depth, markWord { endWord {} a with previous := some c } b, fun y hy => ?_⟩
  generalize hs : endWord {} a = s at hlex
  obtain ⟨hnestsX, -, hstackX, hbehindX⟩ := hx.enclosed hc hangle hlex
  obtain ⟨hnests, hmarks, hstack, hbehind⟩ := hy.enclosed hc hangle hlex
  obtain ⟨hopen, hclose⟩ := mark_pair hc hangle hstack
  simp only [nestsWord_append, nestsWord, endWord_append, endWord_cons, markWord_append, markWord,
    hs] at h ⊢
  simp only [hnestsX, hbehindX, Bool.and_eq_true] at h
  have hallow : (endWord (s.take (o, .code)) y).allows true c = true := by
    simp [State.allows, hc, hstack]
  simp only [hnests, hbehind, hbehindX, hmarks, hopen, hclose, hallow, h, Bool.or_true,
    Bool.true_and, and_self]

/-- A word that is nested inside a bracket and does not close it is nested by itself. -/
theorem nestsWord_inner {s : State} {o : Char} {outer : List Char} {w : List (Char × Kind)}
    (h : nestsWord (s.on (o :: outer)) w = true)
    (hd : ∀ m ∈ markWord (s.on [o]) w, m.isCode = true → 1 ≤ m.depth) : nestsWord s w = true := by
  induction w generalizing s with
  | nil => rfl
  | cons x w ih =>
    rw [nestsWord, Bool.and_eq_true] at h
    rw [markWord] at hd
    obtain ⟨hfirst, hrest⟩ := List.forall_mem_cons.mp hd
    have hallow : (x.2 != .code || s.allows true x.1) = true := by
      obtain ⟨c, k⟩ := x
      by_cases hk : k = .code
      · subst hk
        have hon : (s.on (o :: outer)).allows true c = true := by simpa using h.1
        have hin : s.allows true c = true := by
          unfold State.allows at hon ⊢
          split at hon
          · rfl
          · next o' ho =>
            split
            · rfl
            · next harrow =>
              rw [if_neg (by exact harrow), beq_iff_eq] at hon
              rw [beq_iff_eq]
              cases hs : s.stack with
              | cons a rest => simpa [State.on, hs] using hon
              | nil =>
                -- the bracket around the word would be closed here
                obtain rfl : o = o' := by simpa [State.on, hs] using hon
                have hclosed : ((s.on [o]).readCode c).stack = [] := by
                  rw [@readCode_close (s.on [o]) c o [] ho (by simpa using harrow)
                    (by simp [State.on, hs])]
                have hdepth := hfirst rfl
                simp only [State.mark, take_code, State.depth, hclosed] at hdepth
                simp at hdepth
        simp [hin]
      · simp [hk]
    rw [take_on hallow] at h hrest
    rw [nestsWord, hallow, ih h.2 hrest]
    rfl

/-- What stands between two brackets that close each other in a nested word is balanced. -/
theorem balanced_inner {o c : Char} (hc : openerOf c = some o) (hangle : c ≠ '>')
    {outer : List Char} {x b : List (Char × Kind)}
    (h : nestsWord (({ previous := some o } : State).on (o :: outer)) (x ++ (c, .code) :: b) = true)
    (hd : ∀ m ∈ markWord { stack := [o], previous := some o } x, m.isCode = true → 1 ≤ m.depth)
    (hclose : ((endWord { stack := [o], previous := some o } x).mark (c, .code)).depth = 0) :
    Balanced x := by
  have hstart : ({ stack := [o], previous := some o } : State) =
      ({ previous := some o } : State).on [o] := rfl
  have halike : ({ previous := some o } : State).Alike {} := by
    have hne : o ≠ '=' := by
      rintro rfl
      cases (isOpener_of_pair hc).1
    exact ⟨rfl, rfl, rfl, by simp [hne]⟩
  rw [nestsWord_append, Bool.and_eq_true] at h
  rw [hstart] at hd hclose
  have hnests := nestsWord_inner h.1 hd
  obtain ⟨hsame, -, hend⟩ := halike.word x
  refine ⟨hsame.symm.trans hnests, ?_⟩
  rw [← hend.stack]
  rw [(nestsWord_on hnests [o]).2.1] at hclose
  have hallow := h.2
  rw [(nestsWord_on hnests (o :: outer)).2.1, nestsWord, Bool.and_eq_true] at hallow
  have hhead : ((endWord { previous := some o } x).stack ++ o :: outer).head? = some o := by
    simpa [State.allows, hc, hangle] using hallow.1
  cases hs : (endWord { previous := some o } x).stack with
  | nil => rfl
  | cons a rest =>
    -- a bracket would still be open behind the closing one
    obtain rfl : a = o := by simpa [hs] using hhead
    have hstack : ((endWord { previous := some a } x).on [a]).stack = a :: (rest ++ [a]) := by
      simp [hs]
    rw [State.mark, take_closer hc hangle hstack] at hclose
    simp [State.depth, hs] at hclose

end SourceLayout.Scan
