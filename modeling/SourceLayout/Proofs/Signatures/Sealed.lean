import SourceLayout.Proofs.Signatures.Compact

/-! Texts without comments, with closed strings and paired brackets. What a search for a sign, for a
closing bracket or for separators finds in such texts is read off their words; and a text that is
cut at what is found falls into texts of the same kind. -/

namespace SourceLayout.Scan
open Text

/-- A text without comments whose strings are closed and whose brackets are paired. -/
structure Sealed (t : Text) : Prop where
  clean : Clean t
  balanced : Balanced (word t)

theorem sealed_nil : Sealed [] := ⟨clean_nil, balanced_nil⟩

theorem Sealed.trim {t : Text} (h : Sealed t) : Sealed (trim t) :=
  ⟨h.clean.trim.1, by rw [h.clean.word_trim]; exact h.balanced⟩

/-! ## Reading on -/

theorem follows_self {s : State} (hs : s.lex = (none, false)) : Follows .free s s := by
  have hq : s.quote = none := congrArg Prod.fst hs
  refine ⟨⟨by simp, by simp [hq], .of_none hq⟩, hs, rfl, fun _ => Iff.rfl, by simp [hq]⟩

/-- Behind a text without open strings reading goes on from the state behind its word. -/
theorem Clean.read {s : State} (hs : s.lex = (none, false)) {u v : Text} (hu : Clean u)
    (hm : Meets u v) :
    marksFrom .free s (u ++ v) = marksFrom .free s u ++ marksFrom .free (endWord s (word u)) v := by
  have hstart : s.lex = ({} : State).lex := hs
  obtain ⟨hphase, hlex, -⟩ := endFrom_lex hstart .free u
  rw [hu.closes.phase] at hphase
  rw [hu.closes.lex] at hlex
  have hquote : (endFrom .free s u).2.quote = none := congrArg Prod.fst hlex
  obtain ⟨-, -, hfollows⟩ := firm_marksFrom (follows_self hs) hs hu.commentStart?
  have halike := hfollows.alike hquote (congrArg Prod.snd hlex)
  have hcut : Cuts .free s u v :=
    hm.imp_right fun hv => ⟨hv, .of_none (congrArg Prod.fst hs), hquote⟩
  rw [marksFrom_cut hcut, hphase, (halike.text .free v).1]

theorem marksFrom_sign {s : State} (hs : s.lex = (none, false)) {c : Char} (hc : isInert c = true)
    (v : Text) :
    marksFrom .free s (c :: v) = s.mark (c, .code) :: marksFrom .free (s.take (c, .code)) v := by
  have hq : s.quote = none := congrArg Prod.fst hs
  have hb : s.inBlock = false := congrArg Prod.snd hs
  have hquote := not_quote_of_inert hc
  have hslash : c ≠ '/' := by
    rintro rfl
    cases hc
  have hstep : step .free s c v.head? =
      (⟨c, min s.depth (s.readCode c).depth, .code⟩, .free, s.readCode c) := by
    simp [step, stepFree, hq, hb, hquote, hslash]
  rw [marksFrom_cons, hstep]
  rfl

/-- The marks of a text with a sign in it. -/
theorem Clean.marks_sign {u : Text} (hu : Clean u) {c : Char} (hc : isInert c = true) (v : Text) :
    marks (u ++ c :: v) = marks u ++ (endWord {} (word u)).mark (c, .code) ::
      marksFrom .free ((endWord {} (word u)).take (c, .code)) v := by
  rw [marks, hu.read rfl (.sign u hc v), marksFrom_sign (endWord_lex {} _) hc]
  rfl

/-- Words of texts that a sign stands between. -/
theorem Clean.word_sign {u : Text} (hu : Clean u) {c : Char} (hc : isInert c = true)
    (hb : isBlank c = false) (v : Text) : word (u ++ c :: v) = word u ++ (c, .code) :: word v := by
  rw [(hu.closes.parted (.sign u hc v)).word, ← List.singleton_append,
    (parted_inert (by simp [hc]) v).word, Scan.word_sign hc hb, List.singleton_append]

theorem word_blank_append {b v : Text} (hb : isBlankLine b = true) : word (b ++ v) = word v := by
  rw [(parted_inert (inert_blank hb) v).word, word_blank hb, List.nil_append]

theorem Clean.word_append_blank {u b : Text} (hu : Clean u) (hb : isBlankLine b = true) :
    word (u ++ b) = word u := by
  rw [(hu.closes.parted (.blank_right u hb)).word, word_blank hb, List.append_nil]

/-! ## Signs outside brackets -/

/-- None of these characters stands outside brackets in a word. -/
def Lacks (cs : List Char) (w : List (Char × Kind)) : Prop :=
  ∀ m ∈ markWord {} w, m.isTop = true → m.char ∉ cs

theorem lacks_word {cs : List Char} (hcs : ∀ c ∈ cs, isBlank c = false) {t : Text}
    (ht : commentStart? t = none) :
    Lacks cs (word t) ↔ ∀ m ∈ marks t, isSeparator cs m = false := by
  rw [Lacks, ← firm_marks ht]
  constructor
  · intro h m hm
    rw [Bool.eq_false_iff]
    intro hsep
    simp only [isSeparator, Bool.and_eq_true, List.contains_iff_mem] at hsep
    exact h m (List.mem_filter.mpr ⟨hm, by simp [Mark.isFirm, hcs _ hsep.2]⟩) hsep.1 hsep.2
  · intro h m hm htop hmem
    have hsep := h m (List.mem_filter.mp hm).1
    simp [isSeparator, htop, hmem] at hsep

theorem lacks_join {cs : List Char} {w v : List (Char × Kind)} (hw : Balanced w) {c : Char}
    (hc : IsSign c) (hv : Balanced v) :
    Lacks cs (w ++ (c, .code) :: v) ↔ Lacks cs w ∧ c ∉ cs ∧ Lacks cs v := by
  rw [Lacks, (hw.join hc hv).2, List.forall_mem_append, List.forall_mem_cons]
  simp [Lacks, Mark.isTop, Mark.isCode]

/-- Replacing what stands between two brackets brings nothing outside brackets. -/
theorem lacks_frame {cs : List Char} {a b x y : List (Char × Kind)} {o c : Char}
    (hc : openerOf c = some o) (hangle : c ≠ '>') (hx : Balanced x) (hy : Balanced y)
    (hw : nestsWord {} (a ++ (o, .code) :: (x ++ (c, .code) :: b)) = true)
    (h : Lacks cs (a ++ (o, .code) :: (x ++ (c, .code) :: b))) :
    Lacks cs (a ++ (o, .code) :: (y ++ (c, .code) :: b)) := by
  obtain ⟨d, ms, hframe⟩ := nestsWord_frame hc hangle hx hw
  rw [Lacks, (hframe x hx).2.2] at h
  rw [Lacks, (hframe y hy).2.2]
  intro m hm htop
  simp only [List.mem_append, List.mem_cons, List.mem_map] at h hm
  rcases hm with hm | rfl | ⟨m', -, rfl⟩ | hm
  · exact h m (.inl hm) htop
  · exact h _ (.inr (.inl rfl)) htop
  · simp [Mark.isTop, Mark.deeper] at htop
  · exact h m (.inr (.inr (.inr hm))) htop

/-! ## Pairs of brackets -/

def opened (o : Char) : State := { stack := [o], previous := some o }

/-- Behind `o` and the word, `c` closes `o`. -/
structure Closing (o c : Char) (w : List (Char × Kind)) : Prop where
  inside : ∀ m ∈ markWord (opened o) w, m.isCode = true → 1 ≤ m.depth
  closes : ((endWord (opened o) w).mark (c, .code)).depth = 0

theorem take_opened {o : Char} (ho : isOpener o = true) : ({} : State).take (o, .code) = opened o :=
  take_opener ho {}

theorem Balanced.closing {w : List (Char × Kind)} (h : Balanced w) {o c : Char}
    (hc : openerOf c = some o) (hangle : c ≠ '>') : Closing o c w := by
  obtain ⟨-, hmarks, hstack, -⟩ := h.enclosed hc hangle (s := {}) rfl
  obtain ⟨-, hclose⟩ := mark_pair hc hangle (s := {}) hstack
  rw [take_opened (isOpener_of_pair hc).1] at hmarks hclose
  refine ⟨fun m hm _ => ?_, by rw [hclose]; rfl⟩
  rw [hmarks] at hm
  obtain ⟨m', -, rfl⟩ := List.mem_map.mp hm
  exact Nat.le_add_left ..

/-- What stands between two brackets of a nested word is balanced. -/
theorem Closing.balanced {o c : Char} {a x b : List (Char × Kind)} (h : Closing o c x)
    (hc : openerOf c = some o) (hangle : c ≠ '>')
    (hw : nestsWord {} (a ++ (o, .code) :: (x ++ (c, .code) :: b)) = true) : Balanced x := by
  rw [nestsWord_append, nestsWord, Bool.and_eq_true, Bool.and_eq_true] at hw
  have hlex : (endWord {} a).lex = (none, false) := endWord_lex {} a
  have hstart : (endWord {} a).take (o, .code) =
      ({ previous := some o } : State).on (o :: (endWord {} a).stack) := by
    rw [take_opener (isOpener_of_pair hc).1]
    generalize endWord {} a = s at hlex
    obtain ⟨_, _, _, _⟩ := s
    cases hlex
    rfl
  rw [hstart] at hw
  exact balanced_inner hc hangle hw.2.2 h.inside h.closes

/-- The bracket that closes the first one of a text. -/
theorem Clean.matching? {x : Text} (hx : Clean x) {o c : Char} (hc : openerOf c = some o)
    (h : Closing o c (word x)) (w : Text) :
    matching? (o :: (x ++ c :: w)) = some (x.length + 1) := by
  have hcloser : isCloser c = true := by rw [isCloser, hc]; rfl
  have hnone : (marksFrom .free (opened o) x).findIdx? (fun m => m.isTop && isCloser m.char) =
      none := by
    rw [List.findIdx?_eq_none_iff]
    intro m hm
    cases hcl : isCloser m.char with
    | false => rw [Bool.and_false]
    | true =>
      have hfirm : m.isFirm = true := by
        obtain ⟨o', ho'⟩ := Option.isSome_iff_exists.mp hcl
        have hblank : isBlank m.char = false := by
          rw [Bool.eq_false_iff]
          intro hb
          rw [openerOf_blank hb] at ho'
          cases ho'
        simp [Mark.isFirm, hblank]
      have hmem : m ∈ markWord (opened o) (word x) := by
        rw [← (firm_marksFrom (follows_self rfl) rfl hx.commentStart?).1]
        exact List.mem_filter.mpr ⟨hm, hfirm⟩
      cases hcode : m.isCode with
      | false => simp [Mark.isTop, hcode]
      | true =>
        have hdepth := h.inside m hmem hcode
        have hne : m.depth ≠ 0 := by omega
        simp [Mark.isTop, hne]
  have htop : (((endWord (opened o) (word x)).mark (c, .code)).isTop && isCloser c) = true := by
    rw [Mark.isTop, h.closes, hcloser]
    rfl
  rw [matching?_opener (isOpener_of_pair hc).1]
  change Option.map _ (List.findIdx? _ (marksFrom .free (opened o) (x ++ c :: w))) = _
  rw [hx.read (s := opened o) rfl (.sign x (inert_closer hc).1 w),
    marksFrom_sign (endWord_lex (opened o) _) (inert_closer hc).1, List.findIdx?_append, hnone,
    List.findIdx?_cons,
    show ((endWord (opened o) (word x)).mark (c, .code)).char = c from rfl, htop]
  simp

theorem aroundPair?_append (b : Text) {o c : Char} {x a : Text}
    (h : matching? (o :: (x ++ c :: a)) = some (x.length + 1)) :
    aroundPair? (b ++ o :: (x ++ c :: a)) b.length = some (b, x, a) := by
  have hinside : (b ++ o :: (x ++ c :: a)).drop (b.length + 1) = x ++ c :: a := by
    rw [← List.drop_drop, List.drop_left]
    rfl
  have hbehind : (b ++ o :: (x ++ c :: a)).drop (b.length + (x.length + 1) + 1) = a := by
    rw [Nat.add_assoc, ← List.drop_drop, List.drop_left, List.drop_succ_cons, ← List.drop_drop,
      List.drop_left]
    rfl
  rw [aroundPair?, List.drop_left, h, Option.map_some, hbehind, hinside, Nat.add_sub_cancel,
    List.take_left, List.take_left]

theorem Parted.quiet {u v : Text} (h : Parted u v) :
    commentStart? (u ++ v) = none ↔ commentStart? u = none ∧ commentStart? v = none := by
  rw [← comments_eq_nil, ← comments_eq_nil, ← comments_eq_nil, h.comments, List.append_eq_nil_iff]

theorem quiet_inert {a : Text} (ha : a.all isInert = true) (t : Text) :
    commentStart? (a ++ t) = none ↔ commentStart? t = none := by
  rw [(parted_inert ha t).quiet, and_iff_right (clean_inert ha).commentStart?]

theorem Clean.quiet_sign {u : Text} (hu : Clean u) {c : Char} (hc : isInert c = true) (v : Text) :
    Scan.commentStart? (u ++ c :: v) = none ↔ Scan.commentStart? v = none := by
  rw [(hu.closes.parted (.sign u hc v)).quiet, and_iff_right hu.commentStart?,
    ← List.singleton_append, quiet_inert (by simp [hc])]

/-- A text is cut at a pair of brackets of code. -/
theorem closing_of_aroundPair? {t before inside after : Text} {i : Nat} {m : Mark} {d : Char}
    (ht : commentStart? t = none) (hm : (marks t)[i]? = some m) (hcode : m.isCode = true)
    (ho : isOpener m.char = true) (hd : openerOf d = some m.char)
    (hp : aroundPair? t i = some (before, inside, after)) :
    Clean before ∧ Clean inside ∧ Closing m.char d (word inside) ∧ commentStart? after = none ∧
      tags t = tags before ++ (m.char, .code) :: (tags inside ++ (d, .code) :: tags after) := by
  obtain ⟨hsplit, hbefore, hinside⟩ := parted_pair hm hcode ho hd hp
  have hsign (c : Char) (hc : isInert c = true) (v : Text) : tags (c :: v) =
      (c, .code) :: tags v := by
    rw [← List.singleton_append, (parted_inert (by simp [hc]) v).tags, tags_inert (by simp [hc])]
    rfl
  have htags : tags t = tags before ++ (m.char, .code) ::
      (tags inside ++ (d, .code) :: tags after) := by
    rw [hsplit, hbefore.tags, List.singleton_append, hsign _ (inert_opener ho).1, hinside.tags,
      hsign _ (inert_closer hd).1]
  rw [commentStart?_eq_none, htags] at ht
  simp only [List.forall_mem_append, List.forall_mem_cons] at ht
  obtain ⟨hquietBefore, -, hquietInside, -, hquietAfter⟩ := ht
  have hclean : Clean inside :=
    ⟨hinside.closes, comments_eq_nil.mpr (commentStart?_eq_none.mpr hquietInside)⟩
  refine ⟨⟨hbefore.closes, comments_eq_nil.mpr (commentStart?_eq_none.mpr hquietBefore)⟩, hclean,
    ?_, commentStart?_eq_none.mpr hquietAfter, htags⟩
  -- the marks between the two brackets
  obtain ⟨close, hclose, he⟩ := Option.map_eq_some_iff.mp hp
  simp only [Prod.mk.injEq] at he
  have hdrop : t.drop i = m.char :: (inside ++ d :: after) := by
    have hlen : before.length = i := by
      obtain ⟨hlt, -⟩ := List.getElem?_eq_some_iff.mp (getElem?_of_marks hm)
      rw [← he.1, List.length_take]
      omega
    rw [hsplit, ← hlen, List.drop_left]
    rfl
  rw [hdrop] at hclose
  obtain ⟨inner, c, s', rest, hmarks, hl, hc, -, hdepth⟩ := matching?_spec ho hclose
  obtain rfl := eq_of_openerOf hc hd
  have hread : marks (m.char :: (inside ++ c :: after)) = ⟨m.char, 0, .code⟩ ::
      (marksFrom .free (opened m.char) inside ++ (endWord (opened m.char) (word inside)).mark
        (c, .code) :: marksFrom .free ((endWord (opened m.char) (word inside)).take (c, .code))
        after) := by
    rw [marks, marksFrom_opener ho rfl]
    change _ :: marksFrom .free (opened m.char) _ = _
    rw [hclean.read (s := opened m.char) rfl (.sign inside (inert_closer hc).1 after),
      marksFrom_sign (endWord_lex (opened m.char) _) (inert_closer hc).1]
  rw [hread, List.cons_append, List.cons.injEq] at hmarks
  have hlength : (marksFrom .free (opened m.char) inside).length = inner.length := by
    have hafter := congrArg List.length he.2.1
    have hwhole := congrArg List.length hdrop
    have hrest := congrArg List.length he.2.2
    simp only [List.length_take, List.length_drop, List.length_cons,
      List.length_append] at hafter hwhole hrest
    rw [length_marksFrom]
    omega
  obtain ⟨hinner, hend⟩ := List.append_inj hmarks.2 hlength
  refine ⟨fun k hk hkcode => hdepth k ?_ hkcode, by rw [(List.cons.inj hend).1]⟩
  rw [← hinner]
  rw [← (firm_marksFrom (follows_self rfl) rfl hclean.commentStart?).1] at hk
  exact (List.mem_filter.mp hk).1

/-! ## Neat texts -/

/-- A text without comments whose strings are closed, whose brackets are paired and whose blanks of
code are single spaces. -/
structure Neat (t : Text) : Prop extends Sealed t where
  tight : Scan.tight (tags t) = true

theorem Clean.tags_sign {u : Text} (hu : Clean u) {c : Char} (hi : isInert c = true) (v : Text) :
    tags (u ++ c :: v) = tags u ++ (tags [c] ++ tags v) := by
  rw [(hu.closes.parted (.sign u hi v)).tags, ← List.singleton_append,
    (parted_inert (by simp [hi]) v).tags]

/-- A text is cut at a sign that no bracket encloses. -/
theorem Sealed.cut {u v : Text} {c : Char} (h : Sealed (u ++ c :: v)) (hc : IsSign c)
    (hi : isInert c = true) {m : Mark} (hm : (marks (u ++ c :: v))[u.length]? = some m)
    (htop : m.isTop = true) : Sealed u ∧ Sealed v := by
  have hn : c ≠ '\n' := by
    rintro rfl
    cases hc.blank
  rw [Mark.isTop, Bool.and_eq_true, beq_iff_eq] at htop
  obtain ⟨hu, hv, -⟩ := h.clean.cut hm htop.1 hi hn
  have hat : m = (endWord {} (word u)).mark (c, .code) := by
    rw [hu.marks_sign hi v, List.getElem?_append_right (by simp)] at hm
    simpa using hm.symm
  have hstack : (endWord {} (word u)).stack = [] := by
    rw [hat, mark_sign hc] at htop
    exact List.eq_nil_of_length_eq_zero htop.2
  have hword := h.balanced
  rw [hu.word_sign hi hc.blank] at hword
  obtain ⟨hbu, hbv⟩ := hword.cut hc hstack
  exact ⟨⟨hu, hbu⟩, hv, hbv⟩

theorem Neat.cut {u v : Text} {c : Char} (h : Neat (u ++ c :: v)) (hc : IsSign c)
    (hi : isInert c = true) {m : Mark} (hm : (marks (u ++ c :: v))[u.length]? = some m)
    (htop : m.isTop = true) : Neat u ∧ Neat v := by
  obtain ⟨hu, hv⟩ := h.toSealed.cut hc hi hm htop
  have htight := h.tight
  rw [hu.clean.tags_sign hi] at htight
  exact ⟨⟨hu, (tight_of_append htight).1⟩, hv, (tight_of_append (tight_of_append htight).2).2⟩

/-- A sign at the end of a text is left out. -/
theorem Neat.concat {u : Text} {c : Char} (h : Neat (u ++ [c])) (hc : IsSign c)
    (hi : isInert c = true) : Neat u := by
  have hn : c ≠ '\n' := by
    rintro rfl
    cases hc.blank
  have hu := (h.clean.concat hi hn).1
  have hword := h.balanced
  rw [hu.word_sign hi hc.blank] at hword
  have hstack : (endWord {} (word u)).stack = [] := by
    have hclosed := hword.closed
    rw [endWord_append, endWord_cons, take_sign hc] at hclosed
    exact hclosed
  have htight := h.tight
  rw [hu.tags_sign hi] at htight
  exact ⟨⟨hu, (hword.cut hc hstack).1⟩, (tight_of_append htight).1⟩

/-- A neat text without blanks at its ends. -/
structure Segment (t : Text) : Prop extends Neat t, Compact t

theorem segment_nil : Segment [] := { sealed_nil, compact_nil with }

theorem Neat.trim {t : Text} (h : Neat t) : Segment (Text.trim t) :=
  { h.toSealed.trim, compact_trim h.tight with }

theorem Segment.chunk {t : Text} (h : Segment t) (hne : t ≠ []) : Chunk t :=
  ⟨h.clean, h.toCompact, hne⟩

/-- A sign outside brackets is found if no other of its kind stands in front of it. -/
theorem Sealed.findTop? {u : Text} (hu : Sealed u) {c : Char} (hc : IsSign c)
    (hi : isInert c = true) (hl : Lacks [c] (word u)) (v : Text) :
    findTop? [c] (u ++ c :: v) = some u.length := by
  have hsep (m : Mark) : (m.isTop && m.char == c) = isSeparator [c] m := by
    simp [isSeparator, Bool.beq_eq_decide_eq]
  have hnone := (lacks_word (by simpa using hc.blank) hu.clean.commentStart?).mp hl
  have hdepth : (endWord {} (word u)).depth = 0 := by rw [State.depth, hu.balanced.closed]; rfl
  rw [findTop?_eq, hu.clean.marks_sign hi, mark_sign hc, hdepth, List.findIdx?_append,
    List.findIdx?_eq_none_iff.mpr fun m hm => by rw [hsep]; exact hnone m hm, List.findIdx?_cons]
  simp [Mark.isTop, Mark.isCode]

theorem findTop?_eq_none {c : Char} (hb : isBlank c = false) {t : Text}
    (ht : commentStart? t = none) : findTop? [c] t = none ↔ Lacks [c] (word t) := by
  rw [findTop?_eq, lacks_word (by simpa using hb) ht, List.findIdx?_eq_none_iff]
  simp [isSeparator, Bool.beq_eq_decide_eq]

theorem Neat.of_findTop? {t : Text} (h : Neat t) {c : Char} (hc : IsSign c) (hi : isInert c = true)
    {i : Nat} (hf : findTop? [c] t = some i) :
    ∃ u v, t = u ++ c :: v ∧ u.length = i ∧ Neat u ∧ Neat v ∧ Lacks [c] (word u) := by
  rw [findTop?_eq] at hf
  obtain ⟨hlt, hfound, hbefore⟩ := List.findIdx?_eq_some_iff_getElem.mp hf
  rw [Bool.and_eq_true, beq_iff_eq] at hfound
  have hm : (marks t)[i]? = some (marks t)[i] := List.getElem?_eq_getElem hlt
  have hget := getElem?_of_marks hm
  rw [hfound.2] at hget
  obtain ⟨hlt', hat⟩ := List.getElem?_eq_some_iff.mp hget
  have hsplit : t = t.take i ++ c :: t.drop (i + 1) := by
    rw [← hat, ← List.drop_eq_getElem_cons hlt', List.take_append_drop]
  have hlen : (t.take i).length = i := by
    rw [List.length_take]
    omega
  obtain ⟨hu, hv⟩ : Neat (t.take i) ∧ Neat (t.drop (i + 1)) := by
    refine Neat.cut (c := c) (by rw [← hsplit]; exact h) hc hi (m := (marks t)[i]) ?_ hfound.1
    rw [← hsplit, hlen]
    exact hm
  refine ⟨t.take i, t.drop (i + 1), hsplit, hlen, hu, hv, ?_⟩
  rw [lacks_word (by simpa using hc.blank) hu.clean.commentStart?]
  intro m hm
  have hmarks := hu.clean.marks_sign hi (t.drop (i + 1))
  rw [← hsplit] at hmarks
  obtain ⟨j, hj, rfl⟩ := List.mem_iff_getElem.mp hm
  rw [length_marks, hlen] at hj
  have hj' := hbefore j hj
  have heq : (marks t)[j]? = (marks (t.take i))[j]? := by
    rw [hmarks, List.getElem?_append_left (by rw [length_marks, hlen]; exact hj)]
  rw [List.getElem?_eq_getElem (by rw [length_marks]; omega),
    List.getElem?_eq_getElem (by rw [length_marks, hlen]; exact hj), Option.some.injEq] at heq
  rw [heq] at hj'
  simpa [isSeparator, Bool.beq_eq_decide_eq] using hj'

/-! ## Pieces -/

theorem isSign_of_stop {c : Char} (hc : isStop c = true) : IsSign c ∧ isInert c = true := by
  have hcases : c = ',' ∨ c = ';' := by simpa [isStop] using hc
  rcases hcases with rfl | rfl <;> exact ⟨⟨rfl, rfl, rfl, by decide⟩, rfl⟩

theorem not_blank_of_stops {separators : List Char} (h : separators.all isStop = true) :
    ∀ c ∈ separators, isBlank c = false :=
  fun c hc => (isSign_of_stop (List.all_eq_true.mp h c hc)).1.blank

/-- A segment that shows something and has none of the separators outside brackets. -/
structure Piece (separators : List Char) (t : Text) : Prop extends Segment t where
  ne_nil : t ≠ []
  lacks : Lacks separators (word t)

theorem Sealed.ended {separators : List Char} (hseps : separators.all isStop = true) {u : Text}
    (hu : Sealed u) (hl : Lacks separators (word u)) {c : Char} (hc : c ∈ separators) :
    Ended separators c u := by
  obtain ⟨hsign, hi⟩ := isSign_of_stop (List.all_eq_true.mp hseps c hc)
  have hdepth : (endWord {} (word u)).depth = 0 := by rw [State.depth, hu.balanced.closed]; rfl
  refine ⟨(lacks_word (not_blank_of_stops hseps) hu.clean.commentStart?).mp hl, ?_⟩
  rw [hu.clean.marks_sign hi, mark_sign hsign, hdepth]
  exact List.getLast?_concat

theorem Neat.piecesTop {separators : List Char} (hseps : separators.all isStop = true) {t : Text}
    (h : Neat t) : ∀ x ∈ piecesTop separators t, Neat x ∧ Lacks separators (word x) := by
  induction t using cut_induction hseps with
  | uncut t hno =>
    rw [piecesTop_uncut hno, List.forall_mem_singleton]
    exact ⟨h, (lacks_word (not_blank_of_stops hseps) h.clean.commentStart?).mpr hno⟩
  | ended u c v hc hstop hended ih =>
    obtain ⟨hsign, hi⟩ := isSign_of_stop hstop
    obtain ⟨hu, hv⟩ := h.cut hsign hi (hended.getElem?_marks hstop v) rfl
    rw [hended.piecesTop_append hstop hc, List.forall_mem_cons]
    refine ⟨⟨hu, ?_⟩, ih hv⟩
    exact (lacks_word (not_blank_of_stops hseps) hu.clean.commentStart?).mpr hended.uncut

theorem Neat.splitTop {separators : List Char} (hseps : separators.all isStop = true) {t : Text}
    (h : Neat t) : ∀ x ∈ splitTop separators t, Piece separators x := by
  intro x hx
  obtain ⟨hx, hne⟩ := List.mem_filter.mp hx
  obtain ⟨y, hy, rfl⟩ := List.mem_map.mp hx
  obtain ⟨hneat, hlacks⟩ := h.piecesTop hseps y hy
  refine { hneat.trim with ne_nil := by simpa using hne, lacks := ?_ }
  rw [hneat.clean.word_trim]
  exact hlacks

theorem Piece.ended {separators : List Char} (hseps : separators.all isStop = true) {p : Text}
    (hp : Piece separators p) {c : Char} (hc : c ∈ separators) :
    Ended separators c p ∧ Text.trim p = p ∧ p ≠ [] :=
  ⟨hp.toSealed.ended hseps hp.lacks hc, hp.trimmed, hp.ne_nil⟩

/-- A last piece between spaces. -/
theorem Piece.splitTop {separators : List Char} (hseps : separators.all isStop = true) {p : Text}
    (hp : Piece separators p) : splitTop separators (' ' :: (p ++ [' '])) = [p] := by
  have hinner := (hp.clean.append_inert (a := [' ']) (by decide)).1
  have hclean : Clean (' ' :: (p ++ [' '])) := (hinner.inert_append (a := [' ']) (by decide)).1
  have hword : word (' ' :: (p ++ [' '])) = word p := by
    rw [← List.singleton_append, word_blank_append rfl, hp.clean.word_append_blank rfl]
  have htrim : Text.trim (' ' :: (p ++ [' '])) = p := by
    rw [← List.singleton_append, trim_blank_append rfl, trim_append_blank _ rfl, hp.trimmed]
  have huncut := (lacks_word (not_blank_of_stops hseps) hclean.commentStart?).mp (hword ▸ hp.lacks)
  rw [Scan.splitTop, piecesTop_uncut huncut, List.map_singleton, htrim,
    List.filter_cons_of_pos (by simpa using hp.ne_nil)]
  rfl

theorem clean_row {c : Char} (hi : isInert c = true) {ps : List Text} (h : ∀ p ∈ ps, Clean p)
    {z : Text} (hz : Clean z) : Clean (ps.flatMap (fun p => ' ' :: (p ++ [c])) ++ z) := by
  induction ps with
  | nil => exact hz
  | cons p ps ih =>
    obtain ⟨hp, hps⟩ := List.forall_mem_cons.mp h
    have hjoin : (p :: ps).flatMap (fun p => ' ' :: (p ++ [c])) ++ z =
        [' '] ++ (p ++ ([c] ++ (ps.flatMap (fun p => ' ' :: (p ++ [c])) ++ z))) := by simp
    rw [hjoin]
    exact ((hp.join (a := [c]) (by simp [hi]) (by simp) (ih hps)).1.inert_append (a := [' '])
      (by decide)).1

/-- The word of a row of texts with a sign behind each. -/
theorem word_row {c : Char} (hi : isInert c = true) (hb : isBlank c = false) {ps : List Text}
    (h : ∀ p ∈ ps, Clean p) (z : Text) : word (ps.flatMap (fun p => ' ' :: (p ++ [c])) ++ z) =
      ps.flatMap (fun p => word p ++ [(c, .code)]) ++ word z := by
  induction ps with
  | nil => rfl
  | cons p ps ih =>
    obtain ⟨hp, hps⟩ := List.forall_mem_cons.mp h
    have hjoin : (p :: ps).flatMap (fun p => ' ' :: (p ++ [c])) ++ z =
        [' '] ++ (p ++ c :: (ps.flatMap (fun p => ' ' :: (p ++ [c])) ++ z)) := by simp
    rw [hjoin, word_blank_append rfl, hp.word_sign hi hb, ih hps]
    simp

theorem balanced_row {c : Char} (hc : IsSign c) {ws : List (List (Char × Kind))}
    (h : ∀ w ∈ ws, Balanced w) {z : List (Char × Kind)} (hz : Balanced z) :
    Balanced (ws.flatMap (fun w => w ++ [(c, .code)]) ++ z) := by
  induction ws with
  | nil => exact hz
  | cons w ws ih =>
    obtain ⟨hw, hws⟩ := List.forall_mem_cons.mp h
    rw [List.flatMap_cons, List.append_assoc, List.append_assoc, List.singleton_append]
    exact (hw.join hc (ih hws)).1

end SourceLayout.Scan
