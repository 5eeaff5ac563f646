import SourceLayout.Proofs.Kept.Signature
import SourceLayout.Proofs.Literals.Signature
import SourceLayout.Proofs.Signatures.Sealed

/-! Parameters and object types written on one line. The lines of a written-out object type, joined
and collapsed, are such a text. It is read as the same parameters, and its brackets and separators
stand as in the original. -/

namespace SourceLayout
open Text Scan

namespace Parameter

/-! ## Parameters on one line -/

def behindName (optional : Bool) (type : Text) : Text :=
  (if optional then ['?', ' '] else []) ++ ':' :: ' ' :: type

/-- What stands in front of the type of a parameter on one line. -/
def label (p : Parameter) : Text :=
  (if p.name.isEmpty then [] else p.name ++ [' ']) ++ behindName p.optional []

def flat (p : Parameter) (type : Text) : Text := if p.type.isEmpty then p.name else p.label ++ type

def wordWith (p : Parameter) (w : List (Char × Kind)) : List (Char × Kind) :=
  word p.name ++ ((if p.optional then [('?', .code)] else []) ++ if p.type.isEmpty then
    [] else (':', .code) :: w)

/-- A parameter as it is read from a segment. -/
structure Fits (p : Parameter) : Prop where
  name : Segment p.name
  type : Segment p.type
  lacks : Lacks [':'] (word p.name)
  bare : p.type = [] → p.optional = false ∧ p.name ≠ []
  unmarked : p.type ≠ [] → p.optional = false → p.name.getLast? ≠ some '?'

theorem isSign_colon : IsSign ':' := ⟨rfl, rfl, rfl, by decide⟩

theorem isSign_question : IsSign '?' := ⟨rfl, rfl, rfl, by decide⟩

theorem fits_read {t : Text} (h : Segment t) (hne : t ≠ []) (ht : lacksType t = false) :
    (read t).Fits ∧ word t = (read t).wordWith (word (read t).type) := by
  cases hf : findTop? [':'] t with
  | none =>
    have hread : read t = { name := t } := by rw [read, hf, h.trimmed]
    rw [hread]
    refine ⟨⟨h, segment_nil, (findTop?_eq_none rfl h.clean.commentStart?).mp hf,
      fun _ => ⟨rfl, hne⟩, ?_⟩, ?_⟩
    · exact fun hne => absurd rfl hne
    · simp [wordWith]
  | some colon =>
    obtain ⟨u, v, rfl, rfl, hu, hv, hlacks⟩ := h.toNeat.of_findTop? isSign_colon (by decide) hf
    have hread : read (u ++ ':' :: v) =
        { name := if (trim u).getLast? == some '?' then trim (trim u).dropLast else trim u
          optional := (trim u).getLast? == some '?'
          type := trim v } := by
      rw [read, hf]
      simp
    have htype : (trim v).isEmpty = false := by
      rw [Bool.eq_false_iff]
      intro hempty
      simp [lacksType, hf, isBlankLine_of_trim (List.isEmpty_iff.mp hempty)] at ht
    have hword : word (u ++ ':' :: v) = word (trim u) ++ (':', .code) :: word (trim v) := by
      rw [hu.clean.word_sign (by decide) rfl, hu.clean.word_trim, hv.clean.word_trim]
    have hlacks' : Lacks [':'] (word (trim u)) := by
      rw [hu.clean.word_trim]
      exact hlacks
    rw [hread, hword]
    cases hopt : (trim u).getLast? == some '?' with
    | false =>
      refine ⟨⟨hu.trim, hv.trim, hlacks', fun hnil => ?_, fun _ _ => by simpa using hopt⟩, ?_⟩
      · have hempty : trim v = [] := hnil
        rw [hempty] at htype
        cases htype
      · simp [wordWith, htype]
    | true =>
      obtain ⟨a, ha⟩ := List.getLast?_eq_some_iff.mp (beq_iff_eq.mp hopt)
      have hneat : Neat a := by
        have htrim := hu.trim.toNeat
        rw [ha] at htrim
        exact htrim.concat isSign_question (by decide)
      have hwordA : word (trim u) = word (trim a) ++ [('?', .code)] := by
        rw [ha, hneat.clean.word_sign (by decide) rfl, hneat.clean.word_trim]
        rfl
      rw [ha, List.dropLast_concat]
      refine ⟨⟨hneat.trim, hv.trim, ?_, fun hnil => ?_, fun _ hno => ?_⟩, ?_⟩
      · rw [hwordA] at hlacks'
        exact ((lacks_join hneat.trim.balanced isSign_question balanced_nil).mp hlacks').1
      · have hempty : trim v = [] := hnil
        rw [hempty] at htype
        cases htype
      · cases hno
      · rw [← ha, hwordA]
        simp [wordWith, htype]

theorem label_append (p : Parameter) (x : Text) :
    p.label ++ x =
      if p.name.isEmpty then behindName p.optional x
      else p.name ++ ' ' :: behindName p.optional x := by
  unfold label behindName
  split <;> simp

theorem chunk_behindName (optional : Bool) {x : Text} (hx : Chunk x) :
    Chunk (behindName optional x) := by
  have hcolon : Chunk (':' :: ' ' :: x) := (Chunk.signs (a := [':']) (by decide) (by simp)).gap hx
  cases optional with
  | false => exact hcolon
  | true => exact (Chunk.signs (a := ['?']) (by decide) (by simp)).gap hcolon

theorem Fits.chunk_label {p : Parameter} (hp : p.Fits) {x : Text} (hx : Chunk x) :
    Chunk (p.label ++ x) := by
  rw [label_append]
  split
  · exact chunk_behindName p.optional hx
  · next hne => exact (hp.name.chunk (by simpa using hne)).gap (chunk_behindName p.optional hx)

theorem word_behindName (optional : Bool) (x : Text) :
    word (behindName optional x) = (if optional then [('?', .code)] else []) ++ (':', .code) ::
    word x := by
  have hcolon : word (':' :: ' ' :: x) = (':', .code) :: word (' ' :: x) :=
    clean_nil.word_sign (by decide) rfl _
  rw [← List.singleton_append (x := ' '), word_blank_append rfl] at hcolon
  cases optional with
  | false => exact hcolon
  | true =>
    have hmark : word ('?' :: ' ' :: ':' :: ' ' :: x) =
        ('?', .code) :: word (' ' :: ':' :: ' ' :: x) :=
      clean_nil.word_sign (by decide) rfl _
    rw [← List.singleton_append (x := ' ') (l := ':' :: ' ' :: x), word_blank_append rfl] at hmark
    exact hmark.trans (congrArg _ hcolon)

theorem Fits.word_flat {p : Parameter} (hp : p.Fits) (x : Text) :
    word (p.flat x) = p.wordWith (word x) := by
  unfold flat wordWith
  split
  · next hempty =>
    have hbare := (hp.bare (List.isEmpty_iff.mp hempty)).1
    simp [hbare]
  · rw [label_append]
    split
    · next hname => rw [List.isEmpty_iff.mp hname, word_behindName]; rfl
    · rw [(hp.name.clean.closes.parted (.sign p.name (by decide) _)).word, ← List.singleton_append,
        word_blank_append rfl, word_behindName]

theorem balanced_colon {w : List (Char × Kind)} (hw : Balanced w) : Balanced ((':', .code) :: w) :=
  (balanced_nil.join isSign_colon hw).1

theorem Fits.balanced {p : Parameter} (hp : p.Fits) {w : List (Char × Kind)} (hw : Balanced w) :
    Balanced (p.wordWith w) := by
  unfold wordWith
  cases p.optional <;> cases p.type.isEmpty
    <;> simp only [↓reduceIte, Bool.false_eq_true, List.nil_append, List.append_nil,
      List.singleton_append]
  · exact (hp.name.balanced.join isSign_colon hw).1
  · exact hp.name.balanced
  · exact (hp.name.balanced.join isSign_question (balanced_colon hw)).1
  · exact (hp.name.balanced.join isSign_question balanced_nil).1

theorem Fits.lacks_of {p : Parameter} (hp : p.Fits) {cs : List Char} {w v : List (Char × Kind)}
    (hw : Balanced w) (hv : Balanced v) (h : Lacks cs w → Lacks cs v)
    (hl : Lacks cs (p.wordWith w)) : Lacks cs (p.wordWith v) := by
  unfold wordWith at hl ⊢
  cases hopt : p.optional <;> cases hempty : p.type.isEmpty
    <;> simp only [hopt, hempty, ↓reduceIte, Bool.false_eq_true, List.nil_append, List.append_nil,
      List.singleton_append] at hl ⊢
  · rw [lacks_join hp.name.balanced isSign_colon hw] at hl
    rw [lacks_join hp.name.balanced isSign_colon hv]
    exact ⟨hl.1, hl.2.1, h hl.2.2⟩
  · exact hl
  · rw [lacks_join hp.name.balanced isSign_question (balanced_colon hw)] at hl
    rw [lacks_join hp.name.balanced isSign_question (balanced_colon hv)]
    obtain ⟨hname, hmark, hcolon⟩ := hl
    rw [← List.nil_append (_ :: _), lacks_join balanced_nil isSign_colon hw] at hcolon
    exact ⟨hname, hmark, (lacks_join balanced_nil isSign_colon hv).mpr
      ⟨hcolon.1, hcolon.2.1, h hcolon.2.2⟩⟩
  · exact hl

def front (p : Parameter) : Text :=
  (if p.name.isEmpty then [] else p.name ++ [' ']) ++ if p.optional then ['?', ' '] else []

theorem label_eq (p : Parameter) : p.label = p.front ++ [':', ' '] := by
  unfold label front behindName
  rw [List.append_assoc]

theorem Fits.trim_front {p : Parameter} (hp : p.Fits) :
    trim p.front =
      if p.optional then (if p.name.isEmpty then ['?'] else p.name ++ [' ', '?']) else p.name := by
  unfold front
  cases hname : p.name.isEmpty with
  | true =>
    rw [List.isEmpty_iff.mp hname]
    cases p.optional <;> rfl
  | false =>
    have hne : p.name ≠ [] := by simpa using hname
    cases p.optional with
    | false => simp [trim_append_blank p.name (b := [' ']) rfl, hp.name.trimmed]
    | true =>
      have hend : trimRight [' ', '?', ' '] = [' ', '?'] := by decide
      simp [Text.trim_append hp.name.trimmed hne, hend]

theorem Fits.sealed_front {p : Parameter} (hp : p.Fits) :
    Sealed p.front ∧ Lacks [':'] (word p.front) := by
  obtain ⟨a, hfront, ha⟩ : ∃ a, p.front = p.name ++ a ∧ a.all isInert = true := by
    refine ⟨(if p.name.isEmpty then [] else [' ']) ++ (if p.optional then ['?', ' '] else []), ?_,
      ?_⟩
    · unfold front
      split
      · next hname => simp [List.isEmpty_iff.mp hname]
      · simp
    · split <;> split <;> decide
  have hclean : Scan.Clean p.front := by
    rw [hfront]
    exact (hp.name.clean.append_inert ha).1
  have hword : word p.front = word p.name ++ if p.optional then [('?', .code)] else [] := by
    rw [← hclean.word_trim, hp.trim_front]
    cases p.optional with
    | false => simp
    | true =>
      simp only [↓reduceIte]
      split
      · next hname => rw [List.isEmpty_iff.mp hname]; exact clean_nil.word_sign (by decide) rfl []
      · rw [(hp.name.clean.closes.parted (.sign p.name (by decide) ['?'])).word]
        exact congrArg (word p.name ++ ·) (word_inert (by decide))
  rw [hword]
  cases hopt : p.optional with
  | false =>
    rw [hopt] at hword
    simp only [Bool.false_eq_true, ↓reduceIte, List.append_nil] at hword ⊢
    exact ⟨⟨hclean, hword ▸ hp.name.balanced⟩, hp.lacks⟩
  | true =>
    rw [hopt] at hword
    have hjoin := (hp.name.balanced.join isSign_question balanced_nil).1
    refine ⟨⟨hclean, hword ▸ hjoin⟩, ?_⟩
    exact (lacks_join hp.name.balanced isSign_question balanced_nil).mpr
      ⟨hp.lacks, by decide, by simp [Lacks, markWord]⟩

/-- A parameter on one line is read with the type that it is written with. -/
theorem Fits.read_flat {p : Parameter} (hp : p.Fits) {x : Text} (hx : Segment x)
    (hnil : p.type = [] → x = []) : read (p.flat x) = { p with type := x } := by
  unfold flat
  split
  · next hempty =>
    have htype := List.isEmpty_iff.mp hempty
    have hf : findTop? [':'] p.name = none :=
      (findTop?_eq_none rfl hp.name.clean.commentStart?).mpr hp.lacks
    rw [read, hf, hp.name.trimmed, hnil htype]
    simp [(hp.bare htype).1]
  · next hne =>
    have htype : p.type ≠ [] := by simpa using hne
    have hsplit : p.label ++ x = p.front ++ ':' :: (' ' :: x) := by simp [label_eq]
    have hf := hp.sealed_front.1.findTop? isSign_colon (by decide) hp.sealed_front.2 (' ' :: x)
    have hbehind : trim (' ' :: x) = x := (trim_blank_append (a := [' ']) rfl x).trans hx.trimmed
    rw [hsplit, read, hf]
    simp only [List.take_left, List.drop_append, List.drop_eq_nil_of_le (Nat.le_succ _),
      hp.trim_front]
    cases hopt : p.optional with
    | false =>
      have hlast : (p.name.getLast? == some '?') = false := by simpa using hp.unmarked htype hopt
      simp [hlast, hbehind]
    | true =>
      simp only [↓reduceIte]
      split
      · next hname =>
        have hnone : trim [] = [] := rfl
        simp [List.isEmpty_iff.mp hname, hbehind, hnone]
      · have hname : trim (p.name ++ [' ']) = p.name := by
          rw [trim_append_blank _ rfl, hp.name.trimmed]
        have hdrop : (p.name ++ [' ', '?']).dropLast = p.name ++ [' '] := by
          have hconcat : p.name ++ [' ', '?'] = (p.name ++ [' ']) ++ ['?'] := by simp
          rw [hconcat, List.dropLast_concat]
        simp [hdrop, hname, hbehind]

/-! ## Object types -/

/-- The separators between the members of an object type. -/
theorem stops_members : [';', ','].all isStop = true := by decide

/-- A type with its first object type: what stands before, in and after the braces. -/
structure Object (type b x a : Text) : Prop where
  before : Scan.Clean b ∧ Compact b
  inside : Neat x
  after : Scan.Clean a ∧ Compact a
  first : ('{', .code) ∉ word b
  reads : word type = word b ++ ('{', .code) :: (word x ++ ('}', .code) :: word a)

theorem exists_object {type before after : Text} {texts : List Text} (h : Neat type)
    (ho : objectTexts? type = some (before, texts, after)) :
    ∃ inside, Object type before inside after ∧ texts = splitTop [';', ','] inside ∧
    texts ≠ [] := by
  obtain ⟨i, hi, ho⟩ := Option.bind_eq_some_iff.mp ho
  obtain ⟨⟨b, inside, a⟩, hp, ho⟩ := Option.bind_eq_some_iff.mp ho
  simp only [Option.ite_none_left_eq_some, Option.some.injEq, Prod.mk.injEq] at ho
  obtain ⟨hne, rfl, rfl, rfl⟩ := ho
  obtain ⟨m, hm, hcode, hchar⟩ := findCode?_mark hi
  have hopen : isOpener m.char = true := by rw [hchar]; rfl
  have hpair : openerOf '}' = some m.char := by rw [hchar]; rfl
  obtain ⟨hb, hinside, hclosing, -, htags⟩ :=
    closing_of_aroundPair? h.clean.commentStart? hm hcode hopen hpair hp
  obtain ⟨-, -, ha, -⟩ := h.clean.aroundPair hm hcode hopen hpair hp
  obtain ⟨hsplit, -, -⟩ := parted_pair hm hcode hopen hpair hp
  rw [hchar] at hclosing htags hsplit
  have htight := h.tight
  rw [htags] at htight
  obtain ⟨htightB, hrest⟩ := tight_of_append htight
  obtain ⟨htightI, hrest⟩ := tight_of_append (tight_cons.mp hrest).2.2
  have htightA := (tight_cons.mp hrest).2.2
  have hword : word type = word b ++ ('{', .code) :: (word inside ++ ('}', .code) :: word a) := by
    rw [word, htags]
    simp only [List.filter_append, List.filter_cons, show isFirmTag ('{', .code) = true from rfl,
      show isFirmTag ('}', .code) = true from rfl, ↓reduceIte]
    rfl
  refine ⟨inside, ⟨⟨hb.trim.1, compact_trim htightB⟩, ⟨⟨hinside, ?_⟩, htightI⟩,
    ⟨ha.trim.1, compact_trim htightA⟩, ?_, ?_⟩, rfl, by simpa using hne⟩
  · have hnests := h.balanced.nests
    rw [hword] at hnests
    exact hclosing.balanced rfl (by decide) hnests
  · -- a brace of code in front of the first one
    rw [hb.word_trim]
    intro hmem
    obtain ⟨k, hk, htag⟩ := List.mem_map.mp (List.mem_filter.mp hmem).1
    obtain ⟨j, hj, rfl⟩ := List.mem_iff_getElem.mp hk
    have hlen : b.length = i := by
      obtain ⟨close, -, he⟩ := Option.map_eq_some_iff.mp hp
      obtain ⟨hlt, -⟩ := List.getElem?_eq_some_iff.mp (getElem?_of_marks hm)
      rw [← (Prod.mk.inj he).1, List.length_take]
      omega
    obtain ⟨hlt, -, hbefore⟩ := List.findIdx?_eq_some_iff_getElem.mp hi
    rw [length_marks] at hj hlt
    have hmarks := hb.marks_sign (c := '{') (by decide) (inside ++ '}' :: a)
    rw [← List.singleton_append (x := '{'), ← hsplit] at hmarks
    have heq : (marks type)[j]? = (marks b)[j]? := by
      rw [hmarks, List.getElem?_append_left (by rw [length_marks]; exact hj)]
    rw [List.getElem?_eq_getElem (by rw [length_marks]; omega),
      List.getElem?_eq_getElem (by rw [length_marks]; exact hj), Option.some.injEq] at heq
    have hno := hbefore j (by omega)
    rw [heq] at hno
    simp only [Mark.tag, Prod.mk.injEq] at htag
    simp [Mark.isCode, htag] at hno
  · rw [hb.word_trim, ha.word_trim]
    exact hword

/-- A pair of braces in front of which no brace stands is the first object type. -/
theorem objectTexts?_braces {b inside : Text} (hb : Scan.Clean b) (hno : ('{', .code) ∉ word b)
    (hin : Sealed inside) (hne : splitTop [';', ','] inside ≠ []) (a : Text) :
    objectTexts? (b ++ '{' :: (inside ++ '}' :: a)) =
      some (trim b, splitTop [';', ','] inside, trim a) := by
  have hfind : findCode? '{' (b ++ '{' :: (inside ++ '}' :: a)) = some b.length := by
    have hnone : (marks b).findIdx? (fun m => m.isCode && m.char == '{') = none := by
      rw [List.findIdx?_eq_none_iff]
      intro m hm
      rw [Bool.eq_false_iff]
      intro hfound
      simp only [Bool.and_eq_true, beq_iff_eq, Mark.isCode] at hfound
      refine hno (List.mem_filter.mpr ⟨List.mem_map.mpr ⟨m, hm, ?_⟩, rfl⟩)
      rw [Mark.tag, hfound.1, hfound.2]
    rw [findCode?, hb.marks_sign (by decide), List.findIdx?_append, hnone, List.findIdx?_cons]
    simp [Mark.isCode, State.mark]
  have hmatch := hin.clean.matching? (o := '{') (c := '}') rfl
    (hin.balanced.closing rfl (by decide)) a
  rw [objectTexts?, hfind]
  simp only [Option.bind_eq_bind, Option.bind_some, aroundPair?_append b hmatch]
  rw [if_neg (by simpa using hne)]

end Parameter

end SourceLayout
