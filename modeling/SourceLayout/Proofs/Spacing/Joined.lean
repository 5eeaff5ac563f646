import SourceLayout.Proofs.Kept.Member
import SourceLayout.Proofs.Spacing.Signature

/-! A call signature is read with its lines joined by spaces, so that a line break sets nothing
apart in it. Where a line ends without a separator and the next one begins a member, the two are run
on when the signature is written out; only a comment at the end stays apart. -/

namespace SourceLayout
open Text Scan

namespace Signature

/-- The lines of a signature joined by spaces, without the comment behind the last one. -/
def joined (above : List Text) (last : Text) : Text :=
  [' '].intercalate (above.map trim ++ [trim (last.take ((commentStart? last).getD last.length))])

structure Parts (l : Text) (r : List Text) (h : MethodHead) (sig : Signature) where
  above : List Text
  last : Text
  lines_eq : l :: r = above ++ [last]
  quiet : ∀ k ∈ above, hasComment k = false
  comment_eq : sig.comment = trim (last.drop ((commentStart? last).getD last.length))
  head : Text
  after : Text
  text_eq : collapse (joined above last) = head ++ '(' :: sig.parameters ++ ')' :: after
  ink_head : ink head = ink h.token
  result : Respaces after ([':', ' '] ++ sig.result)

theorem respaces_dropSeparator (t : Text) :
    Respaces t
      (if t.getLast? == some ';' || t.getLast? == some ',' then trimRight t.dropLast else t) := by
  split
  · next h =>
    simp only [Bool.or_eq_true, beq_iff_eq, List.getLast?_eq_some_iff] at h
    have hcut : ∀ (a : Text) {c : Char}, letters [c] = [] → Respaces (a ++ [c]) (trimRight a) := by
      intro a c hc
      have hboth := (Respaces.trimRight a).append (.drop_gap hc)
      rwa [List.append_nil] at hboth
    rcases h with ⟨a, rfl⟩ | ⟨a, rfl⟩
    · simpa using hcut a (c := ';') rfl
    · simpa using hcut a (c := ',') rfl
  · exact .refl t

theorem exists_parts {l : Text} {r : List Text} {h : MethodHead}
    (hh : MethodHead.read? (trim l) = some h) {sig : Signature} (hs : read? (l :: r) = some sig) :
    Nonempty (Parts l r h sig) := by
  unfold read? at hs
  obtain ⟨last, hlast, hs⟩ := Option.bind_eq_some_iff.mp hs
  split at hs
  · simp at hs
  next hquiet =>
  obtain ⟨k, hk, hs⟩ := Option.bind_eq_some_iff.mp hs
  obtain ⟨⟨b, parameters, after⟩, hp, hs⟩ := Option.bind_eq_some_iff.mp hs
  obtain ⟨head, htext, hhead⟩ := MethodHead.read?_append hk
  have hink := token_ink_read hh hlast (by simpa using hquiet) hk
  have hrest : k.rest = '(' :: parameters ++ ')' :: after := by
    have hopen : k.rest[0]? = some '(' := by
      rw [← MethodHead.rest_read? hk, List.head?_eq_getElem?]
    have hb : b = [] := by
      obtain ⟨i, -, he⟩ := Option.map_eq_some_iff.mp hp
      simpa using (congrArg Prod.fst he).symm
    rw [aroundPair?_spec (by decide) (d := ')') rfl hopen hp, hb]
    simp
  simp only at hs
  split at hs
  · next r' hafter =>
    simp only [Option.ite_none_left_eq_some, Option.some.injEq] at hs
    obtain ⟨-, rfl⟩ := hs
    refine ⟨(l :: r).dropLast, last, ?_, ?_, rfl, head, after, ?_, by rw [hhead, hink], ?_⟩
    · obtain ⟨ys, hys⟩ := List.getLast?_eq_some_iff.mp hlast
      rw [hys, List.dropLast_concat]
    · simpa using hquiet
    · rw [hrest] at htext
      simpa [joined] using htext
    · have hcolon : Respaces (':' :: r') ([':', ' '] ++ trim r') :=
        ((Respaces.refl [':']).pad (g := [' ']) rfl rfl).append (.trim r')
      have hwritten := (Respaces.refl [':', ' ']).append (respaces_dropSeparator (trim r'))
      rw [← hafter] at hcolon
      exact ((Respaces.trim after).trans hcolon).trans hwritten
  · cases hs

/-! ## Where a comment begins -/

def opensComment (t : Text) : Bool := startsWith t "//" || startsWith t "/*"

theorem opensComment_cons (c : Char) (r : Text) :
    opensComment (c :: r) = (c == '/' && (r.head? == some '/' || r.head? == some '*')) := by
  cases r with
  | nil => simp [opensComment, startsWith, List.isPrefixOf]
  | cons d r =>
    simp [opensComment, startsWith, List.isPrefixOf, Bool.and_or_distrib_left, Bool.beq_comm]

theorem isComment_step (c : Char) (r : Text) :
    (step .free {} c r.head?).1.isComment = opensComment (c :: r) := by
  have hquote : isQuote c = true → c ≠ '/' := by
    rintro hq rfl
    cases hq
  rw [opensComment_cons, step, stepFree]
  grind [Mark.isComment]

/-- The place of a comment in a line, behind its first character if that begins none. -/
theorem commentStart?_eq {l : Text} {c : Char} {r : Text} (h : trim l = c :: r) :
    ∃ i : Option Nat, commentStart? l = if opensComment (trim l) then some (indentOf l).length
      else i.map (· + 1 + (indentOf l).length) := by
  obtain ⟨ms, hms, -⟩ := marks_trim l
  have hindent : ((indentOf l).map fun c => (⟨c, 0, .code⟩ : Mark)).findIdx? Mark.isComment =
      none := by
    simp [List.findIdx?_eq_none_iff, Mark.isComment]
  obtain ⟨rest, hmarks⟩ : ∃ rest, marks (c :: r) = (step .free {} c r.head?).1 :: rest :=
    ⟨_, marksFrom_cons ..⟩
  rw [commentStart?, hms, h, hmarks, List.append_assoc, List.findIdx?_append, hindent,
    List.cons_append, List.findIdx?_cons, isComment_step]
  refine ⟨(rest ++ ms).findIdx? Mark.isComment, ?_⟩
  split
  · simp
  · simp only [Option.none_or, Option.map_map, List.length_map]
    rfl

theorem indentOf_lt_commentStart? {l : Text} (hne : trim l ≠ [])
    (h : opensComment (trim l) = false) :
    (indentOf l).length < (commentStart? l).getD l.length := by
  cases ht : trim l with
  | nil => exact absurd ht hne
  | cons c r =>
    obtain ⟨i, hi⟩ := commentStart?_eq ht
    rw [hi, h]
    cases i with
    | some i => simp
    | none =>
      obtain ⟨b, hb, -⟩ := trim_spec l
      have hlen := congrArg List.length hb
      rw [ht, List.length_append, List.length_append, List.length_cons] at hlen
      simp only [Bool.false_eq_true, if_false, Option.map_none, Option.getD_none]
      omega

theorem head?_trim_cons {c : Char} (hc : isBlank c = false) (r : Text) :
    (trim (c :: r)).head? = some c := by
  obtain ⟨b, hb, -⟩ := trim_spec (c :: r)
  have hindent : indentOf (c :: r) = [] := by simp [indentOf, hc]
  rw [hindent, List.nil_append] at hb
  cases ht : trim (c :: r) with
  | nil => exact absurd ht (trim_ne_nil_of_mem List.mem_cons_self hc)
  | cons d t =>
    rw [ht] at hb
    cases hb
    rfl

/-- A line that does not begin with a comment begins alike without its comment. -/
theorem head?_trim_take {l : Text} (hne : trim l ≠ []) (h : opensComment (trim l) = false) :
    (trim (l.take ((commentStart? l).getD l.length))).head? = (trim l).head? := by
  have hcut := indentOf_lt_commentStart? hne h
  obtain ⟨b, hb, -⟩ := trim_spec l
  cases ht : trim l with
  | nil => exact absurd ht hne
  | cons c r =>
    have hc : isBlank c = false := head_trim (t := l) (by rw [ht]; rfl)
    obtain ⟨n, hn⟩ := Nat.exists_eq_add_of_lt hcut
    have htake : l.take ((indentOf l).length + (n + 1)) = indentOf l ++ c :: (r ++ b).take n := by
      generalize indentOf l = indent at hb ⊢
      rw [hb, ht, List.append_assoc, List.take_length_add_append]
      rfl
    rw [hn, Nat.add_assoc, htake, trim_blank_append (isBlankLine_indentOf l), head?_trim_cons hc,
      List.head?_cons]

/-! ## Lines that are joined -/

/-- A letter behind a blank, behind another letter, is not set apart from it. -/
theorem beads_joined {x y : Text} {b c : Char} (hb : isLetter b = true) (hc : isLetter c = true) :
    ∃ s, (beads (x ++ [b] ++ ' ' :: c :: y))[(letters x).length]? = some (b, s) ∧
      (beads (x ++ [b] ++ ' ' :: c :: y))[(letters x).length + 1]? = some (c, false) := by
  have hx : (beadsFrom false x).length = (letters x).length := length_beadsFrom false x
  have hbeads : beads (x ++ [b] ++ ' ' :: c :: y) =
      beadsFrom false x ++ (b, dividedFrom false x) :: (c, false) :: beadsFrom false y := by
    rw [beads, List.append_assoc, List.singleton_append, beadsFrom_append, beadsFrom_letter hb,
      beadsFrom, if_neg (by decide), beadsFrom_letter hc]
    rfl
  rw [hbeads, ← hx]
  exact ⟨dividedFrom false x, by simp, by simp⟩

theorem letter_of_nameChar {c : Char} (hc : isNameChar c = true) :
    isLetter c = true ∧ isCloser c = false := by
  have hblank : isBlank c = false := by
    rw [Bool.eq_false_iff]
    intro hb
    rw [not_nameChar_of_blank hb] at hc
    cases hc
  have hne : ∀ d, isNameChar d = false → c ≠ d := by
    rintro d hd rfl
    rw [hc] at hd
    cases hd
  have hsign := not_sign_of_nameChar hc
  constructor
  · simp [isLetter, isInk, hblank, hne ';' (by decide), hne ',' (by decide), hne ':' (by decide)]
  · rw [isCloser]
    unfold openerOf
    split <;> simp_all [signs]

theorem exists_letter_of_startsPlain {t : Text} (h : Member.startsPlain t = true) :
    ∃ c r, t = c :: r ∧ isLetter c = true ∧ isCloser c = false := by
  cases t with
  | nil => cases h
  | cons c r =>
    refine ⟨c, r, rfl, ?_⟩
    rw [Member.startsPlain, List.head?_cons] at h
    split at h
    · next hc => cases hc
    · next hc => cases hc; decide
    · next hc => cases hc; decide
    · next hc => cases hc; decide
    · next hc => cases hc; decide
    · next hc =>
      cases hc
      rw [Bool.and_eq_true] at h
      exact letter_of_nameChar h.1

/-- A member begins with a letter that closes no bracket. -/
theorem exists_letter_of_starts {t : Text} (h : Member.starts t = true) :
    ∃ c r, t = c :: r ∧ isLetter c = true ∧ isCloser c = false := by
  rw [Member.starts, Bool.or_eq_true] at h
  rcases h with h | h
  · cases hread : FieldHead.readonly? t with
    | none =>
      rw [hread] at h
      cases h
    | some x =>
      obtain ⟨r, hr, -⟩ := Option.bind_eq_some_iff.mp hread
      rw [dropWord?_spec hr]
      exact ⟨'r', _, rfl, by decide, by decide⟩
  · exact exists_letter_of_startsPlain h

/-! ## The signature that is written out -/

/-- The signature that is written out, in its parts: a head, what is respaced between the
parentheses and behind them, and a comment. -/
theorem expand_parts {l : Text} {r : List Text} {h : MethodHead} {sig : Signature}
    (parts : Parts l r h sig) (cfg : Settings) (room : Nat) {indent head : Text}
    (hi : isBlankLine indent = true) (hhead : ink head = ink h.token) :
    ∃ a q, unlines (sig.expand cfg room indent head) =
        a ++ '(' :: q ++ ';' :: (if sig.comment.isEmpty then [] else ' ' :: sig.comment) ∧
      letters a = letters parts.head ∧ RespacesBehind (sig.parameters ++ ')' :: parts.after) q := by
  have hinner : isBlankLine (indent ++ cfg.indentUnit) = true := by
    simp only [isBlankLine, List.all_append, Bool.and_eq_true]
    exact ⟨hi, isBlankLine_unit cfg⟩
  have hgap : letters ('\n' :: indent) = [] := letters_blank (t := indent) hi
  have hbody := (Parameter.expandAll_respaced (isBlankLine_unit cfg) room hinner hgap
    sig.parameters).append parts.result
  refine ⟨indent ++ head ++ [' '], _, ?_, ?_, by simpa using hbody⟩
  · rw [expand, List.cons_append, unlines_cons, behindBreaks_append]
    simp [behindBreaks]
  · rw [letters_eq, letters_eq, parts.ink_head, ink_append, ink_append, ink_blank hi, hhead]
    simp

/-- Behind the head, neighbours that are not set apart in the joined lines are not set apart
in what is written out. -/
theorem beads_run_on {a a' q q' z : Text} (ha : letters a' = letters a) (hq : RespacesBehind q q')
    {i : Nat} (hi : (letters a).length ≤ i) {b c : Char} {s : Bool}
    (hb : (beads (a ++ '(' :: q))[i]? = some (b, s)) (hopen : isOpener b = false)
    (hc : (beads (a ++ '(' :: q))[i + 1]? = some (c, false)) (hclose : isCloser c = false) :
    (beads (a' ++ '(' :: q' ++ z))[i + 1]? = some (c, false) := by
  obtain ⟨last, hfollows, -⟩ := hq (some '(') false false (.inr (by decide))
  have hlen : (beadsFrom false a).length = (letters a).length := length_beadsFrom false a
  have hlen' : (beadsFrom false a').length = (letters a).length := by rw [length_beadsFrom, ha]
  have hbeads : beads (a ++ '(' :: q) = beadsFrom false a ++ ('(', dividedFrom false a) ::
      beadsFrom false q := by
    rw [beads, beadsFrom_append, beadsFrom_letter (by decide)]
  have hbeads' : beads (a' ++ '(' :: q' ++ z) = beadsFrom false a' ++
      (('(', dividedFrom false a') :: beadsFrom false q' ++
        beadsFrom (dividedFrom false q') z) := by
    rw [beads, List.append_assoc, List.cons_append, beadsFrom_append, beadsFrom_letter (by decide),
      beadsFrom_append]
    rfl
  obtain ⟨j, rfl⟩ := Nat.exists_eq_add_of_le hi
  rw [hbeads, ← hlen, List.getElem?_append_right (by omega), Nat.add_sub_cancel_left] at hb
  rw [hbeads, ← hlen, Nat.add_assoc, List.getElem?_append_right (by omega), Nat.add_sub_cancel_left]
    at hc
  have hwhole : Follows none (('(', dividedFrom false a) :: beadsFrom false q)
      (('(', dividedFrom false a') :: beadsFrom false q') last :=
      .cons (fun _ => .inr (.inl rfl)) hfollows
  have hget := hwhole.getElem?_false hb hopen hc hclose
  rw [hbeads', ← hlen', Nat.add_assoc, List.getElem?_append_right (by omega),
    Nat.add_sub_cancel_left, List.getElem?_append_left (List.getElem?_eq_some_iff.mp hget).1]
  exact hget

/-- Whether a member may end where code ends: not behind a separator, a bracket that opens, or a
token that the next line has to continue. -/
def endsPlainly (code : Text) : Bool :=
  !code.getLast?.any (fun c => c == ';' || c == ',' || isOpener c) && !Member.endsOpen code

/-- A line without comments that ends plainly ends in a letter that opens no bracket. -/
theorem exists_letter_of_endsPlainly {l : Text} (hblank : isBlankLine l = false)
    (hquiet : hasComment l = false) (h : endsPlainly (trimRight (withoutComments l)) = true) :
    ∃ x b, trim l = x ++ [b] ∧ isLetter b = true ∧ isOpener b = false := by
  have hcode : withoutComments l = l := by
    have hnone : commentStart? l = none := by simpa [hasComment] using hquiet
    have hall : (marks l).filter (fun m => !m.isComment || m.char == '\n') = marks l := by
      rw [List.filter_eq_self]
      intro m hm
      simp [List.findIdx?_eq_none_iff.mp hnone m hm]
    rw [withoutComments, hall, map_char_marks]
  have hne : trim l ≠ [] := by
    intro hnil
    rw [isBlankLine_of_trim hnil] at hblank
    cases hblank
  obtain ⟨b, hb⟩ := Option.ne_none_iff_exists'.mp (mt List.getLast?_eq_none_iff.mp hne)
  obtain ⟨x, hx⟩ := List.getLast?_eq_some_iff.mp hb
  have hlast : (trimRight l).getLast? = some b := by
    obtain ⟨e, he, heblank⟩ := trim_spec l
    have htrim : trimRight l = indentOf l ++ trim l := by
      conv => lhs; rw [he, trimRight_append_blank _ heblank]
      exact trimRight_append_of_last hne fun c => last_trim
    rw [htrim, List.getLast?_append, hb, Option.some_or]
  rw [hcode, endsPlainly, Member.endsOpen, hlast] at h
  simp only [Option.any_some, Bool.and_eq_true, Bool.not_eq_true', Bool.or_eq_false_iff,
    beq_eq_false_iff_ne] at h
  obtain ⟨⟨⟨hsemicolon, hcomma⟩, hopen⟩, hcont, -⟩ := h
  have hcolon : b ≠ ':' := by
    rintro rfl
    cases hcont
  exact ⟨x, b, hx, by simp [isLetter, isInk, last_trim hb, hsemicolon, hcomma, hcolon], hopen⟩

theorem letters_join (ls : List Text) :
    letters ([' '].intercalate (ls.map trim)) = letters ls.flatten := by
  rw [letters_eq, letters_eq, ink_intercalate_space, ink_flatten_map fun _ _ => ink_trim _]

/-- The letters of a line that a head is read from: those of the head, a parenthesis, and more. -/
theorem length_letters_token {l : Text} {h : MethodHead} (hh : MethodHead.read? (trim l) = some h) :
    (letters h.token).length < (letters l).length := by
  have hink := MethodHead.ink_read? hh
  have hrest := MethodHead.rest_read? hh
  cases hr : h.rest with
  | nil =>
    rw [hr] at hrest
    cases hrest
  | cons c r =>
    rw [hr] at hrest
    cases hrest
    rw [hr, ink_trim, ink_cons_openParen] at hink
    rw [letters_eq, letters_eq, hink, List.filter_append, List.filter_cons_of_pos (by decide),
      List.length_append, List.length_cons]
    omega

section

variable {l : Text} {r : List Text} {h : MethodHead} {sig : Signature} (parts : Parts l r h sig)
include parts

/-- What is written in front of the comment has the letters of the joined lines. -/
theorem letters_written {a q : Text} (ha : letters a = letters parts.head)
    (hq : RespacesBehind (sig.parameters ++ ')' :: parts.after) q) :
    letters (a ++ '(' :: q) = letters (joined parts.above parts.last) := by
  obtain ⟨last, hfollows, -⟩ := hq (some '(') false false (.inr (by decide))
  have hletters := hfollows.map_fst_eq
  rw [map_fst_beadsFrom, map_fst_beadsFrom] at hletters
  have htext := (Respaces.collapse (joined parts.above parts.last)).letters_eq
  rw [parts.text_eq] at htext
  rw [← htext, letters_append, ha, List.append_assoc, letters_append]
  congr 1
  exact congrArg (List.cons '(') hletters

/-- Letters of two lines in a row that are not set apart when the lines are joined. -/
theorem written_run_on {a q z : Text} (ha : letters a = letters parts.head)
    (hq : RespacesBehind (sig.parameters ++ ')' :: parts.after) q) {x y : Text} {b c : Char}
    (hjoined : joined parts.above parts.last = x ++ [b] ++ ' ' :: c :: y) (hb : isLetter b = true)
    (hopen : isOpener b = false) (hc : isLetter c = true) (hclose : isCloser c = false)
    (hx : (letters parts.head).length ≤ (letters x).length) :
    (beads (a ++ '(' :: q ++ z))[(letters (x ++ [b])).length]? = some (c, false) := by
  obtain ⟨s, hget, hget'⟩ := beads_joined (x := x) (y := y) hb hc
  rw [← hjoined] at hget hget'
  obtain ⟨last, hfollows, -⟩ :=
    Respaces.collapse (joined parts.above parts.last) none false false fun h => nomatch h
  -- collapsing keeps the two letters, and does not set them apart
  have hnext := hfollows.getElem?_false hget hopen hget' hclose
  have hthis : ∃ s', (beads (collapse (joined parts.above parts.last)))[(letters x).length]? =
      some (b, s') := by
    have hfst := congrArg (·[(letters x).length]?) hfollows.map_fst_eq
    simp only [List.getElem?_map] at hfst
    rw [show beadsFrom false (joined parts.above parts.last) =
      beads (joined parts.above parts.last) from rfl, hget, Option.map_some] at hfst
    obtain ⟨⟨b', s'⟩, hbead, rfl⟩ := Option.map_eq_some_iff.mp hfst
    exact ⟨s', hbead⟩
  obtain ⟨s', hthis⟩ := hthis
  have htext : collapse (joined parts.above parts.last) =
      parts.head ++ '(' :: (sig.parameters ++ ')' :: parts.after) := by
    rw [parts.text_eq]
    simp
  have hlen : (letters (x ++ [b])).length = (letters x).length + 1 := by
    rw [letters_append, List.length_append, letters, letters, List.filter_cons_of_pos hb]
    rfl
  rw [htext] at hthis
  rw [show beadsFrom false (collapse (joined parts.above parts.last)) =
    beads (collapse (joined parts.above parts.last)) from rfl, htext] at hnext
  rw [hlen]
  exact beads_run_on ha hq hx hthis hopen hnext hclose

end

/-! ## Two lines in a row -/

theorem letters_joined (above : List Text) (last : Text) :
    letters (joined above last) ++
      letters (trim (last.drop ((commentStart? last).getD last.length))) =
      letters (above ++ [last]).flatten := by
  have hmap : ∀ t : Text, above.map trim ++ [trim t] = (above ++ [t]).map trim := by simp
  have htrim : ∀ t : Text, letters (trim t) = letters t := fun t => by
    rw [letters_eq, letters_eq, ink_trim]
  rw [joined, hmap, letters_join, htrim, List.flatten_append, List.flatten_append, letters_append,
    letters_append, List.append_assoc, List.flatten_singleton, List.flatten_singleton,
    ← letters_append, List.take_append_drop]

/-- Lines above the last two, and what the second of two lines in a row becomes: it is trimmed, and
if it is the last one its comment is taken off. -/
theorem joined_eq {above pre post : List Text} {last l l' : Text}
    (h : above ++ [last] = pre ++ l :: l' :: post) :
    l ∈ above ∧ ∃ t y, joined above last = [' '].intercalate ((pre ++ [l]).map trim) ++ ' ' ::
    (t ++ y) ∧
      (l' ∈ above ∧ t = trim l' ∨ l' = last ∧ y = [] ∧
        t = trim (l'.take ((commentStart? l').getD l'.length))) := by
  have hne : (pre ++ [l]).map trim ≠ [] := by simp
  rcases List.eq_nil_or_concat post with rfl | ⟨post, z, rfl⟩
  · rw [show pre ++ [l, l'] = (pre ++ [l]) ++ [l'] by simp] at h
    obtain ⟨rfl, hlast⟩ := List.append_inj' h rfl
    cases hlast
    refine ⟨by simp, _, [], ?_, .inr ⟨rfl, rfl, rfl⟩⟩
    rw [joined, intercalate_append _ hne (List.cons_ne_nil _ _), intercalate_singleton,
      List.append_nil]
    rfl
  · rw [show pre ++ l :: l' :: post.concat z = (pre ++ l :: l' :: post) ++ [z] by simp] at h
    obtain ⟨rfl, hlast⟩ := List.append_inj' h rfl
    cases hlast
    have hpieces : ∀ t : Text, (pre ++ l :: l' :: post).map trim ++ [t] =
        (pre ++ [l]).map trim ++ ([trim l'] ++ (post.map trim ++ [t])) := by simp
    refine ⟨by simp, trim l', ' ' :: joined post last, ?_, .inl ⟨by simp, rfl⟩⟩
    rw [joined, hpieces, intercalate_append _ hne (by simp),
      intercalate_append _ (List.cons_ne_nil _ _) (by simp), intercalate_singleton]
    rfl

/-- A line that begins with a comment is nothing but the comment. -/
theorem cut_of_opensComment {l : Text} (h : opensComment (trim l) = true) :
    commentStart? l = some (indentOf l).length ∧
      trim (l.take (indentOf l).length) = [] ∧ trim (l.drop (indentOf l).length) = trim l := by
  have hcomment : commentStart? l = some (indentOf l).length := by
    cases ht : trim l with
    | nil =>
      rw [ht] at h
      cases h
    | cons c r =>
      obtain ⟨i, hi⟩ := commentStart?_eq ht
      rw [hi, if_pos h]
  obtain ⟨b, hb, hblank⟩ := trim_spec l
  generalize hindent : indentOf l = indent at hb hcomment ⊢
  have hin : isBlankLine indent = true := hindent ▸ isBlankLine_indentOf l
  refine ⟨hcomment, ?_, ?_⟩
  · rw [hb, List.append_assoc, List.take_left, trim_blank hin]
  · conv => lhs; rw [hb, List.append_assoc, List.drop_left, trim_append_blank _ hblank, trim_trim]

section

variable {l₀ : Text} {r : List Text} {h : MethodHead} {sig : Signature} (parts : Parts l₀ r h sig)
  {pre post : List Text} {l l' : Text} (hlines : l₀ :: r = pre ++ l :: l' :: post)
include parts hlines

/-- The second of two lines is run on with the first one if it begins with no comment. -/
theorem beads_of_member (hh : MethodHead.read? (trim l₀) = some h) {a q z : Text}
    (ha : letters a = letters parts.head)
    (hq : RespacesBehind (sig.parameters ++ ')' :: parts.after) q) (hblank : isBlankLine l = false)
    (hend : endsPlainly (trimRight (withoutComments l)) = true)
    (hstart : Member.starts (trim l') = true) (hcomment : opensComment (trim l') = false) :
    (beads (a ++ '(' :: q ++ z))[(letters (pre ++ [l]).flatten).length]? =
      (trim l').head?.map fun c => (c, false) := by
  obtain ⟨hl, t, y, hjoined, hnext⟩ := joined_eq (parts.lines_eq ▸ hlines)
  obtain ⟨x, b, hx, hb, hopen⟩ := exists_letter_of_endsPlainly hblank (parts.quiet l hl) hend
  obtain ⟨c, s, hc, hletter, hclose⟩ := exists_letter_of_starts hstart
  have hhead : t.head? = some c := by
    rcases hnext with ⟨-, rfl⟩ | ⟨-, -, rfl⟩
    · rw [hc, List.head?_cons]
    · rw [head?_trim_take (by rw [hc]; exact List.cons_ne_nil c s) hcomment, hc, List.head?_cons]
  obtain ⟨t, rfl⟩ := List.head?_eq_some_iff.mp hhead
  obtain ⟨w, hw⟩ : ∃ w, [' '].intercalate (pre.map trim ++ [trim l]) = w ++ trim l := by
    rcases eq_or_ne (pre.map trim) [] with hnil | hne
    · exact ⟨[], by rw [hnil, List.nil_append, intercalate_singleton, List.nil_append]⟩
    · exact ⟨_, by rw [intercalate_concat [' '] hne, ← List.append_assoc]⟩
  have hfirst : [' '].intercalate ((pre ++ [l]).map trim) = (w ++ x) ++ [b] := by
    rw [List.map_append, List.map_singleton, hw, hx, List.append_assoc]
  have hletters := letters_join (pre ++ [l])
  -- the head of the signature stands on the first line, and so in front of the last
  -- letter of the lines above
  have hlong : (letters parts.head).length ≤ (letters (w ++ x)).length := by
    have hhead : letters parts.head = letters h.token := by
      rw [letters_eq, parts.ink_head, letters_eq]
    have htoken := length_letters_token hh
    obtain ⟨more, hmore⟩ : ∃ more, pre ++ [l] = l₀ :: more := by
      cases pre with
      | nil => exact ⟨[], by rw [(List.cons.inj hlines).1]; rfl⟩
      | cons p pre => exact ⟨pre ++ [l], by rw [(List.cons.inj hlines).1]; rfl⟩
    have hlen := congrArg List.length hletters
    rw [hfirst, hmore, List.flatten_cons, letters_append, letters_append _ more.flatten,
      List.length_append, List.length_append, letters, letters, List.filter_cons_of_pos hb] at hlen
    rw [hhead]
    simp only [letters, List.filter_nil, List.length_cons, List.length_nil] at hlen htoken ⊢
    omega
  rw [← hletters, hfirst, hc]
  exact written_run_on parts ha hq (by rw [hjoined, hfirst]; rfl) hb hopen hletter hclose hlong

/-- The second of two lines is set apart if it begins with a comment, which stands
behind the semicolon then. -/
theorem beads_of_comment {a q : Text} (ha : letters a = letters parts.head)
    (hq : RespacesBehind (sig.parameters ++ ')' :: parts.after) q)
    (hcomment : opensComment (trim l') = true) :
    (beads (a ++ '(' :: q ++ ';' :: (if sig.comment.isEmpty then [] else ' ' :: sig.comment)))[
      (letters (pre ++ [l]).flatten).length]? = (trim l').head?.map fun c => (c, true) := by
  obtain ⟨-, t, y, hjoined, hnext⟩ := joined_eq (parts.lines_eq ▸ hlines)
  obtain ⟨hcut, htake, hdrop⟩ := cut_of_opensComment hcomment
  rcases hnext with ⟨hmem, -⟩ | ⟨rfl, rfl, rfl⟩
  · have hquiet := parts.quiet l' hmem
    rw [hasComment, hcut] at hquiet
    cases hquiet
  have hsig : sig.comment = trim parts.last := by
    rw [parts.comment_eq, hcut, Option.getD_some, hdrop]
  obtain ⟨s, hs⟩ : ∃ s, trim parts.last = '/' :: s := by
    cases ht : trim parts.last with
    | nil =>
      rw [ht] at hcomment
      cases hcomment
    | cons c s =>
      rw [ht, opensComment_cons, Bool.and_eq_true, beq_iff_eq] at hcomment
      exact ⟨s, by rw [hcomment.1]⟩
  have hlen : (beadsFrom false (a ++ '(' :: q)).length = (letters (pre ++ [l]).flatten).length := by
    rw [length_beadsFrom, letters_written parts ha hq, hjoined, hcut, Option.getD_some, htake,
      List.append_nil, letters_append, letters_join, show letters [' '] = [] from rfl,
      List.append_nil]
  rw [hsig, hs, List.isEmpty_cons, if_neg Bool.false_ne_true, beads, beadsFrom_append, beadsFrom,
    if_neg (by decide), beadsFrom, if_neg (by decide), beadsFrom_letter (by decide), ← hlen]
  simp [isDivider]

end

/-- A line break between two members sets nothing apart in a signature that is written out: all
letters are kept, and those of the second member follow those of the first with neither a separator
nor a line break between them. Only a comment at the end of the signature stays apart. -/
theorem format_runs_members_on {cfg : Settings} {room width : Nat} {indent : Text} {ls : List Text}
    {h : MethodHead} {sig : Signature} {pre post : List Text} {l l' : Text}
    (hkind : Member.kindOf ls = .method h) (hindent : isBlankLine indent = true)
    (hexpand : cfg.expandMethods = true) (hsig : read? (ls.filter (!isBlankLine ·)) = some sig)
    (hlines : ls.filter (!isBlankLine ·) = pre ++ l :: l' :: post)
    (hend : endsPlainly (trimRight (withoutComments l)) = true)
    (hstart : Member.starts (trim l') = true) :
    letters (unlines (format cfg room indent (padTo width ' ' h.token) ls)) = letters ls.flatten ∧
      (beads (unlines (format cfg room indent (padTo width ' ' h.token) ls)))[(letters
        (pre ++ [l]).flatten).length]? =
        (trim l').head?.map fun c => (c, opensComment (trim l')) := by
  have hh := Member.kindOf_method hkind
  obtain ⟨r, hbody⟩ := nonblank_of_head fun he => by
    rw [he] at hh
    cases hh
  have hnonblank : isBlankLine l = false := by
    have hl : l ∈ ls.filter (!isBlankLine ·) := by simp [hlines]
    simpa using (List.mem_filter.mp hl).2
  have hformat : format cfg room indent (padTo width ' ' h.token) ls =
      sig.expand cfg room indent (padTo width ' ' h.token) := by
    rw [format, hexpand, Bool.not_true, if_neg Bool.false_ne_true, hsig]
  have hletters : letters ls.flatten = letters (ls.headD [] :: r).flatten := by
    rw [letters_eq, letters_eq, ← hbody, ink_flatten_nonblank]
  rw [hbody] at hsig hlines
  obtain ⟨parts⟩ := exists_parts hh hsig
  obtain ⟨a, q, hout, ha, hq⟩ := expand_parts parts cfg room hindent (ink_padTo width h.token)
  rw [hformat, hout]
  constructor
  · have hcomment : letters (';' :: (if sig.comment.isEmpty then [] else ' ' :: sig.comment)) =
        letters sig.comment := by
      split
      · next he => rw [List.isEmpty_iff.mp he]; rfl
      · rfl
    rw [letters_append, hcomment, letters_written parts ha hq, parts.comment_eq, letters_joined,
      ← parts.lines_eq, hletters]
  · cases hcomment : opensComment (trim l') with
    | true => exact beads_of_comment parts hlines ha hq hcomment
    | false => exact beads_of_member parts hlines hh ha hq hnonblank hend hstart hcomment

def objectResult : List Text :=
  ["g(): Promise<\x7b".toList, "  a?: string".toList, [], "  b(): void".toList, "\x7d>;".toList]

theorem format_runs_members_on_object_result :
    ((objectResult.take 2).foldl feed {}).stack = ['{', '<'] ∧
      letters (unlines (format {} 32 [] "g  ".toList objectResult)) = letters objectResult.flatten ∧
      (beads (unlines (format {} 32 [] "g  ".toList objectResult)))[
        (letters ("g(): Promise<\x7b".toList ++ "  a?: string".toList)).length]? =
        some ('b', false) :=
  ⟨by decide, @format_runs_members_on {} 32 3 [] objectResult
    ⟨['g'], false, [], "(): Promise<\x7b".toList⟩
    ⟨[], "Promise<\x7b a?: string b(): void \x7d>".toList, []⟩ ["g(): Promise<\x7b".toList]
    ["\x7d>;".toList] "  a?: string".toList "  b(): void".toList (by decide +kernel) rfl rfl
    (by decide +kernel) (by decide +kernel) (by decide +kernel) (by decide +kernel)⟩

/-- Of two members on their own lines, directly inside a brace, only the second
one ends in a semicolon. -/
theorem format_object_parameter :
    ((["f(a: \x7b".toList, "x: string".toList].foldl feed {}).stack.head? = some '{' ∧
      endsPlainly "x: string".toList = true ∧ Member.starts "y: number".toList = true) ∧
    format {} 32 [] ['f']
      ["f(a: \x7b".toList, "x: string".toList, "y: number".toList, "\x7d): void;".toList] =
      ["f (".toList, "    a : \x7b".toList, "        x : string y: number;".toList,
        "    \x7d".toList, "): void;".toList] := by
  decide +kernel

end Signature
end SourceLayout
