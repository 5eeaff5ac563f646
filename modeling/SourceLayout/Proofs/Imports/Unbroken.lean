import SourceLayout.Proofs.Imports.Folding

/-! Names that joining lines keeps. It keeps them if and only if no string holds a line break,
no line break in a comment alone sets two letters of a name apart, and nothing but comments,
blanks and commas stands behind the first line comment. What joining drops is counted: it never
adds a letter or a gap, and names begin and end with letters that are no blanks, so that the
names tell all their letters. -/

namespace SourceLayout.Scan
open Text

/-! ## In front of the first line comment -/

/-- Whether joining lines keeps the letters and the gaps between them. No string may hold a line
break; and where a line break in a comment stands between two letters of a name, as `pending` says,
a blank of code has to stand there too. -/
def foldsFrom (gap : Option Bool) (pending : Bool) : List (Char × Kind) → Bool
  | [] => true
  | x :: r =>
    if x.2 == .comment then foldsFrom gap (pending || x.1 == '\n') r
    else match partOf x with
      | .gap => foldsFrom (widen gap) pending r
      | .comma => foldsFrom none false r
      | _ => (!pending || gap != some false) && x.1 != '\n' && foldsFrom (some false) false r

def isFoldable (t : Text) : Bool := foldsFrom none false (upToLine .free {} t)

theorem not_newline_of_foldsFrom {gap : Option Bool} {pending : Bool} {ts : List (Char × Kind)}
    (h : foldsFrom gap pending ts = true) : ∀ x ∈ ts, x.2 = .string → x.1 ≠ '\n' := by
  induction ts generalizing gap pending with
  | nil => simp
  | cons y ts ih =>
    rw [foldsFrom] at h
    split at h
    · next hk =>
      refine List.forall_mem_cons.mpr ⟨fun hs => ?_, ih h⟩
      rw [hs] at hk
      cases hk
    · split at h
      · next hpart =>
        refine List.forall_mem_cons.mpr ⟨fun hs => ?_, ih h⟩
        rw [partOf_string hs] at hpart
        cases hpart
      · next hpart =>
        refine List.forall_mem_cons.mpr ⟨fun hs => ?_, ih h⟩
        rw [partOf_string hs] at hpart
        cases hpart
      · simp only [Bool.and_eq_true, bne_iff_ne] at h
        exact List.forall_mem_cons.mpr ⟨fun _ => h.1.2, ih h.2⟩

theorem foldsFrom_run {w : Text} (hw : isBlankLine w = true) {k : Kind} (hk : k ≠ .string)
    (gap : Option Bool) (pending : Bool) (ts : List (Char × Kind)) :
    foldsFrom gap pending (w.map (·, k) ++ ts) =
      if k = .code then foldsFrom (if w = [] then gap else widen gap) pending ts
      else foldsFrom gap (pending || decide ('\n' ∈ w)) ts := by
  induction w generalizing gap pending with
  | nil => simp
  | cons c w ih =>
    simp only [isBlankLine, List.all_cons, Bool.and_eq_true] at hw
    rw [List.map_cons, List.cons_append, foldsFrom]
    cases k with
    | string => exact absurd rfl hk
    | code =>
      simp only [show (Kind.code == Kind.comment) = false from rfl, Bool.false_eq_true, ↓reduceIte,
        partOf_blank hw.1, ih hw.2]
      split <;> simp
    | comment =>
      have hmem : (pending || c == '\n' || decide ('\n' ∈ w)) =
          (pending || decide ('\n' ∈ c :: w)) := by
        by_cases hc : c = '\n'
        · simp [hc]
        · simp [beq_eq_false_iff_ne.mpr hc, Ne.symm hc]
      simp only [beq_self_eq_true, ↓reduceIte, ih hw.2, show ¬(Kind.comment = Kind.code) by decide,
        hmem]

/-- The gap behind a line break in a comment, if there was one. -/
def gapBehind (pending : Bool) (gap : Option Bool) : Option Bool :=
  if pending then widen gap else gap

@[simp] theorem widen_gapBehind (pending : Bool) (gap : Option Bool) :
    widen (gapBehind pending gap) = widen gap := by
  cases pending <;> simp [gapBehind]

@[simp] theorem gapBehind_widen (pending : Bool) (gap : Option Bool) :
    gapBehind pending (widen gap) = widen gap := by
  cases pending <;> simp [gapBehind]

def letters (st : List (Option Char)) : Text := st.filterMap id

theorem letters_append (a b : List (Option Char)) : letters (a ++ b) = letters a ++ letters b :=
  List.filterMap_append

def space (gap : Option Bool) : Text := if gap == some true then [' '] else []

theorem letters_letter {x : Char × Kind} (h : partOf x = .letter) (gap : Option Bool)
    (ts : List (Char × Kind)) :
    letters (streamFrom gap (x :: ts)) =
      space gap ++ x.1 :: letters (streamFrom (some false) ts) := by
  simp only [streamFrom, h, space, letters_append]
  split <;> rfl

theorem letters_string {w : Text} (hne : w ≠ []) (gap : Option Bool) (ts : List (Char × Kind)) :
    letters (streamFrom gap (w.map (·, .string) ++ ts)) =
      space gap ++ w ++ letters (streamFrom (some false) ts) := by
  induction w generalizing gap with
  | nil => exact absurd rfl hne
  | cons c w ih =>
    rw [List.map_cons, List.cons_append, letters_letter (partOf_string rfl)]
    by_cases hw : w = []
    · simp [hw]
    · rw [ih hw]
      simp [space]

theorem length_space_le (pending : Bool) (gap : Option Bool) :
    (space gap).length ≤ (space (gapBehind pending gap)).length := by
  cases pending with
  | false => exact Nat.le_refl _
  | true =>
    cases gap with
    | none => exact Nat.le_refl _
    | some g => cases g <;> decide

/-- Of the characters `a`, joining lines makes `b`: it adds no letter and no gap, keeps them all if
it may, and if it keeps all it may do so. -/
structure Drops (gap : Option Bool) (pending : Bool) (a b : List (Char × Kind)) : Prop where
  le : (letters (streamFrom gap b)).length ≤ (letters (streamFrom (gapBehind pending gap) a)).length
  eq : foldsFrom gap pending a = true → streamFrom gap b = streamFrom (gapBehind pending gap) a
  folds : letters (streamFrom gap b) = letters (streamFrom (gapBehind pending gap) a) →
    foldsFrom gap pending a = true

/-- A letter that stays, with the gap in front of it. -/
theorem Drops.letter {gap : Option Bool} {pending : Bool} {a b : List (Char × Kind)}
    {x : Char × Kind} (hx : x.1 ≠ '\n') (hpart : partOf x = .letter)
    (h : Drops (some false) false a b) : Drops gap pending (x :: a) (x :: b) := by
  have hle : (letters (streamFrom (some false) b)).length ≤
      (letters (streamFrom (some false) a)).length := h.le
  have hkind : x.2 ≠ .comment := by
    intro hk
    simp only [partOf, hk, beq_self_eq_true, ↓reduceIte] at hpart
    split at hpart <;> cases hpart
  have hfolds : foldsFrom gap pending (x :: a) =
      ((!pending || gap != some false) && foldsFrom (some false) false a) := by
    simp [foldsFrom, hkind, hpart, bne_iff_ne.mpr hx]
  have hspace := length_space_le pending gap
  refine ⟨?_, fun hf => ?_, fun heq => ?_⟩
  · rw [letters_letter hpart, letters_letter hpart]
    simp only [List.length_append, List.length_cons]
    omega
  · rw [hfolds, Bool.and_eq_true, Bool.or_eq_true, Bool.not_eq_true', bne_iff_ne] at hf
    have hgap : gapBehind pending gap = gap := by
      rcases hf.1 with rfl | hne
      · rfl
      · cases gap with
        | none => cases pending <;> rfl
        | some g =>
          cases g with
          | true => cases pending <;> rfl
          | false => exact absurd rfl hne
    have hrest : streamFrom (some false) b = streamFrom (some false) a := h.eq hf.2
    simp only [streamFrom, hpart, hgap, hrest]
  · rw [letters_letter hpart, letters_letter hpart] at heq
    have hlength := congrArg List.length heq
    simp only [List.length_append, List.length_cons] at hlength
    obtain ⟨hlead, htail⟩ := List.append_inj heq (by omega)
    rw [hfolds, h.folds (List.cons.inj htail).2, Bool.and_true, Bool.or_eq_true, Bool.not_eq_true',
      bne_iff_ne]
    cases pending with
    | false => exact .inl rfl
    | true =>
      right
      rintro rfl
      cases hlead

/-- Blanks in a string around a line break. -/
theorem Drops.string {gap : Option Bool} {pending : Bool} {a b : List (Char × Kind)} {w : Text}
    (hn : '\n' ∈ w) (h : Drops (some false) false a b) :
    Drops gap pending (w.map (·, .string) ++ a) ((' ', .string) :: b) := by
  have hle : (letters (streamFrom (some false) b)).length ≤
      (letters (streamFrom (some false) a)).length := h.le
  have hne : w ≠ [] := List.ne_nil_of_mem hn
  have hpos := List.length_pos_iff.mpr hne
  have hspace := length_space_le pending gap
  have hpart : partOf (' ', .string) = .letter := rfl
  refine ⟨?_, fun hf => ?_, fun heq => ?_⟩
  · rw [letters_letter hpart, letters_string hne]
    simp only [List.length_append, List.length_cons]
    omega
  · have hmem : ('\n', Kind.string) ∈ w.map (·, Kind.string) ++ a :=
      List.mem_append_left _ (List.mem_map.mpr ⟨_, hn, rfl⟩)
    exact absurd rfl (not_newline_of_foldsFrom hf _ hmem rfl)
  · -- the run would have to be one character, and that the line break itself
    rw [letters_letter hpart, letters_string hne] at heq
    have hlength := congrArg List.length heq
    simp only [List.length_append, List.length_cons] at hlength
    obtain ⟨c, rfl⟩ := List.length_eq_one_iff.mp (show w.length = 1 by omega)
    rw [List.append_assoc] at heq
    obtain ⟨-, htail⟩ := List.append_inj heq (by omega)
    rw [List.mem_singleton] at hn
    rw [← hn] at htail
    cases (List.cons.inj htail).1

/-- What joining lines drops in front of the first line comment. -/
theorem Refold.drops {a b : List (Char × Kind)} (h : Refold a b) (gap : Option Bool)
    (pending : Bool) : Drops gap pending a b := by
  induction h generalizing gap pending with
  | line h =>
    constructor
    · simp [streamFrom_comment h, letters]
    · simp [streamFrom_comment h, streamFrom]
    · simp [foldsFrom]
  | @keep a b x hx _ ih =>
    cases hpart : partOf x with
    | letter => exact .letter hx hpart (ih _ _)
    | comma =>
      obtain rfl := eq_comma hpart
      obtain ⟨hle, heq, hfolds⟩ := ih none false
      refine ⟨hle, fun hf => congrArg (List.cons none) (heq hf), hfolds⟩
    | gap =>
      have hkind : x.2 ≠ .comment := by
        intro hk
        simp [partOf, hk, hx] at hpart
      have hf : foldsFrom gap pending (x :: a) = foldsFrom (widen gap) pending a := by
        simp [foldsFrom, hkind, hpart]
      obtain ⟨hle, heq, hfolds⟩ := ih (widen gap) pending
      rw [gapBehind_widen] at hle heq hfolds
      constructor <;> simpa only [streamFrom, hpart, hf, widen_gapBehind]
    | nothing =>
      have hf : foldsFrom gap pending (x :: a) = foldsFrom gap pending a := by
        simp [foldsFrom, kind_of_nothing hpart, beq_eq_false_iff_ne.mpr hx]
      obtain ⟨hle, heq, hfolds⟩ := ih gap pending
      constructor <;> simpa only [streamFrom, hpart, hf]
  | @join a b w k hw hn _ ih =>
    have hne : w ≠ [] := List.ne_nil_of_mem hn
    cases k with
    | string => exact .string hn (ih _ _)
    | code =>
      have hpart : partOf (' ', .code) = .gap := rfl
      obtain ⟨hle, heq, hfolds⟩ := ih (widen gap) pending
      rw [gapBehind_widen] at hle heq hfolds
      constructor <;>
        simpa only [streamFrom_run hw (show Kind.code ≠ .string by decide), hn, or_true, ↓reduceIte,
          widen_gapBehind, streamFrom, hpart, foldsFrom_run hw (show Kind.code ≠ .string by decide),
          hne]
    | comment =>
      have hpart : partOf (' ', .comment) = .nothing := rfl
      obtain ⟨hle, heq, hfolds⟩ := ih gap true
      constructor <;>
        simpa only [streamFrom_run hw (show Kind.comment ≠ .string by decide), hn, or_true,
          ↓reduceIte, widen_gapBehind, streamFrom, hpart,
          foldsFrom_run hw (show Kind.comment ≠ .string by decide),
          show ¬(Kind.comment = Kind.code) by decide, decide_true, Bool.or_true]

/-! ## Behind the first line comment -/

/-- Whether nothing but comments, blanks and commas stands behind the first line comment. -/
def isQuiet (t : Text) : Bool := (fromLine .free {} t).all isIdle

/-- Where nothing but blanks and commas stands outside comments no string begins. -/
theorem not_string_of_quiet {p : Phase} {s : State} (h : Sane (p, s)) (hq : s.quote = none)
    {t : Text} (hquiet : (tagsFrom p s t).all isIdle = true) :
    ∀ x ∈ tagsFrom p s t, x.2 ≠ .string := by
  induction t generalizing p s with
  | nil => simp [tagsFrom, marksFrom]
  | cons c r ih =>
    have hescaped : p ≠ .escaped := h.not_escaped hq
    rw [tagsFrom_cons, List.all_cons, Bool.and_eq_true] at hquiet
    have hidle : ((step p s c r.head?).1.kind = .comment ∨ isBlank c = true) ∨ c = ',' := by
      simpa [isIdle] using hquiet.1
    have hstep : (step p s c r.head?).1.kind ≠ .string ∧ (step p s c r.head?).2.2.quote = none := by
      have hplain (hc : isQuote c = false) := step_no_quote hescaped hq hc r.head?
      rcases hidle with (hk | hc) | rfl
      · exact ⟨by rw [hk]; decide, (step_comment h (beq_iff_eq.mpr hk)).2.2.2⟩
      · exact ⟨(hplain (not_quote_of_blank hc)).1, (hplain (not_quote_of_blank hc)).2.2⟩
      · exact ⟨(hplain rfl).1, (hplain rfl).2.2⟩
    rw [tagsFrom_cons]
    exact List.forall_mem_cons.mpr ⟨hstep.1, ih (h.step c _) hstep.2 hquiet.2⟩

theorem not_string_fromLine {p : Phase} {s : State} (h : Sane (p, s)) (hp : p ≠ .line) {t : Text}
    (hquiet : (fromLine p s t).all isIdle = true) :
    ∀ x ∈ fromLine p s t, x.2 ≠ .string := by
  induction t generalizing p s with
  | nil => simp [fromLine]
  | cons c r ih =>
    rw [fromLine] at hquiet ⊢
    split
    · next hline =>
      rw [if_pos hline] at hquiet
      rw [beq_iff_eq] at hline
      exact not_string_of_quiet h (congrArg Prod.fst (step_line hp hline).2.2) hquiet
    · next hline =>
      rw [if_neg hline] at hquiet
      exact ih (h.step c _) (by simpa using hline) hquiet

theorem streamFrom_commas {ts : List (Char × Kind)}
    (hquiet : ts.all isIdle = true) (h : ∀ x ∈ ts, x.2 ≠ .string)
    (gap : Option Bool) : ∀ c ∈ streamFrom gap ts, c = none := by
  induction ts generalizing gap with
  | nil => simp [streamFrom]
  | cons x ts ih =>
    rw [List.all_cons, Bool.and_eq_true] at hquiet
    rw [List.forall_mem_cons] at h
    rw [streamFrom]
    cases hx : partOf x with
    | nothing => exact ih hquiet.2 h.2 gap
    | gap => exact ih hquiet.2 h.2 _
    | comma => exact List.forall_mem_cons.mpr ⟨rfl, ih hquiet.2 h.2 none⟩
    | letter =>
      rcases letter_iff.mp hx with hstring | hidle
      · exact absurd hstring h.1
      · rw [hidle] at hquiet
        cases hquiet.1

/-- A letter is written. -/
theorem mem_streamFrom {x : Char × Kind} {ts : List (Char × Kind)} (hx : x ∈ ts)
    (hpart : partOf x = .letter) (gap : Option Bool) : some x.1 ∈ streamFrom gap ts := by
  induction ts generalizing gap with
  | nil => cases hx
  | cons y ts ih =>
    rcases List.mem_cons.mp hx with rfl | hx
    · simp only [streamFrom, hpart]
      split <;> simp
    · cases hy : partOf y <;> simp [streamFrom, hy, ih hx]

/-! ## The letters of the names -/

/-- Each name in a stream begins and ends with a letter that is no blank. `last` is the letter read
last of the name at hand. -/
def Tight (last : Option Char) : List (Option Char) → Prop
  | [] => ∀ c ∈ last, isBlank c = false
  | none :: st => (∀ c ∈ last, isBlank c = false) ∧ Tight none st
  | some c :: st => (last = none → isBlank c = false) ∧ Tight (some c) st

/-- No letter of the names is trimmed away. -/
theorem flatten_namesIn {w : Text} (hw : ∀ c ∈ w.head?, isBlank c = false) {st : List (Option Char)}
    (h : Tight w.getLast? st) : (namesIn (w.map some ++ st)).flatten = w ++ letters st := by
  have hword {w : Text} (hw : ∀ c ∈ w.head?, isBlank c = false)
    (hlast : ∀ c ∈ w.getLast?, isBlank c = false) :
      (namesIn (w.map some)).flatten = w := by
    have hno : ∀ c ∈ w.map some, c.isNone = false := by simp
    have htrim : trim w = w := trim_eq_self hw hlast
    have hletters : (w.map some).filterMap id = w := by simp
    rw [namesIn, splitWhen_of_none hno, List.map_singleton, hletters, htrim]
    cases w <;> simp
  induction st generalizing w with
  | nil => simpa [letters] using hword hw h
  | cons x st ih =>
    cases x with
    | none =>
      have hrest : (namesIn st).flatten = letters st := ih (w := []) (by simp) h.2
      rw [namesIn_append_none, List.flatten_append, hword hw h.1, hrest]
      rfl
    | some c =>
      have hhead : ∀ d ∈ (w ++ [c]).head?, isBlank d = false := by
        cases w with
        | nil => simpa using h.1 rfl
        | cons d w => simpa using hw
      have hjoin : w.map some ++ some c :: st = (w ++ [c]).map some ++ st := by simp
      rw [hjoin, ih hhead (by simpa using h.2)]
      simp [letters]

/-- A name that has begun has a letter, and no blank stands last in it but inside a string. -/
structure Begun (s : State) (last : Option Char) (gap : Option Bool) : Prop where
  begun : gap ≠ none → last ≠ none
  string : s.quote ≠ none → gap = some false
  shown : s.quote = none → ∀ c ∈ last, isBlank c = false

theorem Begun.widen {s s' : State} {last : Option Char} {gap : Option Bool} (h : Begun s last gap)
    (hq : s.quote = none) (hq' : s'.quote = none) : Begun s' last (Scan.widen gap) := by
  refine ⟨fun hsome => h.begun ?_, fun hopen => absurd hq' hopen, fun _ => h.shown hq⟩
  rintro rfl
  exact hsome rfl

/-- A text that ends in code has names that begin and end with letters that are no blanks: a string
is left behind its quote. -/
theorem tight_streamFrom {p : Phase} {s : State} (h : Sane (p, s)) {t : Text} {last : Option Char}
    {gap : Option Bool} (hbegun : Begun s last gap) (hend : (endFrom p s t).2.quote = none) :
    Tight last (streamFrom gap (tagsFrom p s t)) := by
  induction t generalizing p s last gap with
  | nil => exact hbegun.shown hend
  | cons c r ih =>
    have hsane : Sane ((step p s c r.head?).2.1, (step p s c r.head?).2.2) := h.step c r.head?
    rw [endFrom] at hend
    rw [tagsFrom_cons, streamFrom]
    -- a letter that is no blank unless it stands inside a string
    have hletter (hout : s.quote = none → isBlank c = false)
        (hleft : (step p s c r.head?).2.2.quote = none → isBlank c = false) :
        Tight last ((if gap == some true then [some ' ', some c] else [some c]) ++
          streamFrom (some false)
            (tagsFrom (step p s c r.head?).2.1 (step p s c r.head?).2.2 r)) := by
      have hnext : Begun (step p s c r.head?).2.2 (some c) (some false) :=
        ⟨by simp, by simp, fun hq => by simpa using hleft hq⟩
      have hrest := ih hsane hnext hend
      have hfirst (hlast : last = none) : isBlank c = false := by
        refine hout (Classical.byContradiction fun hopen => ?_)
        exact hbegun.begun (by simp [hbegun.string hopen]) hlast
      split
      · next hgap =>
        have hne : last ≠ none := hbegun.begun (by simp [beq_iff_eq.mp hgap])
        exact ⟨fun hlast => absurd hlast hne, by simp, hrest⟩
      · exact ⟨hfirst, hrest⟩
    cases hk : (step p s c r.head?).1.kind with
    | comment =>
      obtain ⟨-, -, hq, hq'⟩ := step_comment h (beq_iff_eq.mpr hk)
      by_cases hn : c = '\n'
      · have hpart : partOf (c, .comment) = .gap := by simp [partOf, hn]
        simp only [hpart]
        exact ih hsane (hbegun.widen hq hq') hend
      · have hpart : partOf (c, .comment) = .nothing := by simp [partOf, hn]
        simp only [hpart]
        exact ih hsane ⟨hbegun.begun, fun hopen => absurd hq' hopen, fun _ => hbegun.shown hq⟩ hend
    | string =>
      simp only [partOf_string (x := (c, .string)) rfl]
      have hshown (hquote : isQuote c = true) : isBlank c = false := by
        cases hb : isBlank c with
        | true =>
          rw [not_quote_of_blank hb] at hquote
          cases hquote
        | false => rfl
      refine hletter (fun hq => ?_) fun hq => hshown (isQuote_of_left h hk hq)
      have hescaped : p ≠ .escaped := h.not_escaped hq
      cases hquote : isQuote c with
      | true => exact hshown hquote
      | false => exact absurd hk (step_no_quote hescaped hq hquote r.head?).1
    | code =>
      obtain ⟨hq, hq'⟩ : s.quote = none ∧ (step p s c r.head?).2.2.quote = none := by
        rcases step_cases p s c r.head? with ⟨hq, -, hstep⟩ | ⟨k, p', s', hne, -, hstep⟩
        · rw [hstep]
          exact ⟨hq, hq⟩
        · rw [hstep] at hk
          exact absurd hk hne
      cases hpart : partOf (c, .code) with
      | nothing => cases kind_of_nothing hpart
      | gap => exact ih hsane (hbegun.widen hq hq') hend
      | comma =>
        have hfresh : Begun (step p s c r.head?).2.2 none none :=
          ⟨by simp, fun hopen => absurd hq' hopen, by simp⟩
        exact ⟨hbegun.shown hq, ih hsane hfresh hend⟩
      | letter =>
        have hshown : isBlank c = false := by
          cases hb : isBlank c with
          | true => simp [partOf, hb] at hpart
          | false => rfl
        exact hletter (fun _ => hshown) fun _ => hshown

theorem flatten_names {t : Text} (hend : (endFrom .free {} t).2.quote = none) :
    (namesIn (stream t)).flatten = letters (stream t) :=
  flatten_namesIn (w := []) (by simp)
    (tight_streamFrom sane_start ⟨by simp, by simp, by simp⟩ hend)

/-- Joining lines keeps the names if and only if it keeps those in front of the first line comment
and no name stands behind it. -/
theorem namesIn_joinWrapped_iff {t : Text} (hflat : isFlat (tags t) = true) (hclose : Closes t) :
    namesIn (stream (joinWrapped t)) = namesIn (stream t) ↔
      isFoldable t = true ∧ isQuiet t = true := by
  obtain ⟨hrefold, -, hlex⟩ := joinWrapped_spec hflat hclose
  have hdrops := hrefold.drops none false
  obtain ⟨g, happend⟩ := streamFrom_append none (upToLine .free {} t)
  have hstream : stream t = streamFrom none (upToLine .free {} t) ++
      streamFrom g (fromLine .free {} t) := by
    rw [stream, ← happend, upToLine_append_fromLine]
    rfl
  constructor
  · intro heq
    have hletters : letters (stream (joinWrapped t)) = letters (stream t) := by
      rw [← flatten_names (congrArg Prod.fst hlex), ← flatten_names hclose.quote, heq]
    rw [hstream, letters_append] at hletters
    have hle := hdrops.le
    have hlength := congrArg List.length hletters
    rw [List.length_append] at hlength
    have hbehind : letters (streamFrom g (fromLine .free {} t)) = [] := by
      refine List.length_eq_zero_iff.mp ?_
      change (letters (stream (joinWrapped t))).length ≤
        (letters (streamFrom none (upToLine .free {} t))).length at hle
      omega
    rw [hbehind, List.append_nil] at hletters
    refine ⟨hdrops.folds hletters, List.all_eq_true.mpr fun x hx => ?_⟩
    cases hidle : isIdle x with
    | true => rfl
    | false =>
      have hmem := mem_streamFrom hx (letter_iff.mpr (.inr hidle)) g
      have hnone : x.1 ∈ letters (streamFrom g (fromLine .free {} t)) :=
        List.mem_filterMap.mpr ⟨_, hmem, rfl⟩
      rw [hbehind] at hnone
      cases hnone
  · rintro ⟨hfold, hquiet⟩
    have hfront : stream (joinWrapped t) = streamFrom none (upToLine .free {} t) := hdrops.eq hfold
    have hcommas := streamFrom_commas hquiet (not_string_fromLine sane_start (by decide) hquiet) g
    rw [hstream, namesIn_append_commas _ hcommas, hfront]

end SourceLayout.Scan
