import SourceLayout.Proofs.Signatures.Heads

/-! Call signatures that are written out and read again: the lines are joined to one text, and the
parameters and the result that are read from it are those of the signature. So laying out the lines
once more gives the same lines. -/

namespace SourceLayout
open Text Scan

namespace Scan

/-- Collapsing a trimmed text without comments brings none and keeps its word, also when a
string is open at its end. -/
theorem collapse_quiet {t : Text} (h : commentStart? t = none) (ht : trim t = t) (hne : t ≠ []) :
    commentStart? (collapse t) = none ∧ word (collapse t) = word t := by
  have hno := List.findIdx?_eq_none_iff.mp h
  obtain ⟨-, -, -, htrim⟩ := collapseFrom_trimmed hne ht
  obtain ⟨ms, hms, hnil⟩ := firm_collapse (x := []) hne ht hno (.inl rfl)
  rw [List.append_nil, hnil rfl, List.append_nil] at hms
  refine ⟨?_, by rw [word_eq_firm, word_eq_firm, hms]⟩
  rw [collapse, htrim, commentStart?, List.findIdx?_eq_none_iff, marks_collapseFrom hno]
  exact quiet_squeezeFrom none hno

/-- A sign behind a text without comments begins none, even if a string is open. -/
theorem tags_concat {u : Text} (hu : commentStart? u = none) {c : Char} (hc : isInert c = true) :
    ∃ k, tags (u ++ [c]) = tags u ++ [(c, k)] ∧ k ≠ .comment := by
  have hslash : c ≠ '/' ∧ c ≠ '*' := by
    constructor <;>
    · rintro rfl
      cases hc
  obtain ⟨ms, hms⟩ := marksFrom_append .free {} u [c] (.inl (by simpa using hslash))
  have hat := getElem?_marksFrom .free {} u c []
  have hno := List.findIdx?_eq_none_iff.mp hu
  have hquiet : ∀ m ∈ (marksFrom .free {} (u ++ [c])).take u.length, m.isComment = false := by
    rw [hms, List.take_left' (length_marksFrom ..)]
    exact hno
  obtain ⟨hphase, hblock⟩ := endBefore_quiet (.inl rfl) rfl hquiet
  generalize endBefore [c] .free {} u = e at hat hphase hblock
  have hone : ms.length = 1 := by
    have hlen := congrArg List.length hms
    simp only [length_marksFrom, List.length_append, List.length_singleton] at hlen
    omega
  obtain ⟨m, rfl⟩ := List.length_eq_one_iff.mp hone
  rw [hms, List.getElem?_append_right (by simp)] at hat
  obtain rfl : m = (step e.1 e.2 c none).1 := by simpa using hat
  refine ⟨(step e.1 e.2 c none).1.kind, ?_, ?_⟩
  · rw [tags, marks, hms, List.map_append, List.map_singleton, Mark.tag, step_char]
    rfl
  · have hquote := not_quote_of_inert hc
    rcases hphase with hp | hp
    · cases hq : e.2.quote <;> simp [hp, step, stepFree, hblock, hq, hquote]
    · simp [hp, step]

/-- A collapsed text without comments. A string may be open at its end. -/
structure Plain (t : Text) : Prop extends Compact t where
  quiet : commentStart? t = none

namespace Plain

/-- The beginning of such a text. -/
theorem begins {u v : Text} (h : Plain (u ++ v)) (ht : trim u = u) : Plain u := by
  have hno := List.findIdx?_eq_none_iff.mp h.quiet
  obtain ⟨ms, hms⟩ := marksFrom_append .free {} u v
    (.inr fun m hm => hno m (List.mem_of_mem_take hm))
  have htags : tags (u ++ v) = tags u ++ ms.map Mark.tag := by
    rw [tags, marks, hms, List.map_append]
    rfl
  have htight := h.tight
  have hquiet := commentStart?_eq_none.mp h.quiet
  rw [htags] at htight hquiet
  exact ⟨⟨(tight_of_append htight).1, ht⟩, commentStart?_eq_none.mpr fun x hx =>
    hquiet x (List.mem_append_left _ hx)⟩

/-- A sign behind such a text. -/
theorem concat {u : Text} (h : Plain u) (hne : u ≠ []) {c : Char} (hc : isInert c = true)
    (hb : isBlank c = false) : Plain (u ++ [c]) := by
  obtain ⟨k, htags, hk⟩ := tags_concat h.quiet hc
  refine ⟨⟨?_, h.toCompact.trim_append hne ?_⟩, ?_⟩
  · rw [htags]
    have hsign : tight [(c, k)] = true := tight_cons.mpr ⟨by simp [isFirmTag, hb], by simp, rfl⟩
    exact tight_append h.tight hsign (.inl (ne_space_last fun c hc => h.last hc))
  · intro d hd
    cases hd
    exact hb
  · rw [commentStart?_eq_none, htags, List.forall_mem_append]
    exact ⟨commentStart?_eq_none.mp h.quiet, by simpa using hk⟩

/-- Signs and a space in front of such a text. -/
theorem behind {u a : Text} (h : Plain u) (hne : u ≠ []) (ha : a.all isGlyph = true)
    (hne' : a ≠ []) : Plain (a ++ ' ' :: u) := by
  have hsigns := Chunk.signs ha hne'
  exact ⟨hsigns.compact.gap h.toCompact hsigns.clean.closes hne' hne,
    (hsigns.clean.quiet_sign (by decide) u).mpr h.quiet⟩

end Plain

end Scan

/-- A parameter up to the layout of its type. -/
def Parameter.essential (p : Parameter) : Text × Bool × List (Char × Kind) :=
  (p.name, p.optional, Scan.essence p.type)

namespace Signature

/-- A result type without the sign at its end. -/
def unended (t : Text) : Text :=
  if t.getLast? == some ';' || t.getLast? == some ',' then trimRight t.dropLast else t

def Reads (t : Text) (sig : Signature) : Prop :=
  ∃ head front after r, MethodHead.read? t = some head ∧
    aroundPair? head.rest 0 = some (front, sig.parameters, after) ∧ trim after = ':' :: r ∧
    unended (trim r) = sig.result ∧ sig.result ≠ [] ∧ sig.comment = []

theorem read?_eq_some {ls : List Text} (hq : ∀ l ∈ ls, commentStart? l = none) (hne : ls ≠ [])
    {sig : Signature} : read? ls = some sig ↔ Reads (collapse (merged ls)) sig := by
  rcases List.eq_nil_or_concat ls with rfl | ⟨ini, last, rfl⟩
  · exact absurd rfl hne
  rw [List.concat_eq_append] at *
  obtain ⟨hini, hlast⟩ := List.forall_mem_append.mp hq
  have hlast' : commentStart? last = none := hlast last List.mem_cons_self
  have hno : ini.any hasComment = false := by
    rw [List.any_eq_false]
    intro l hl
    simp [hasComment, hini l hl]
  have htext : ini.map trim ++ [trim last] = (ini ++ [last]).map trim := by simp
  unfold read?
  simp only [List.getLast?_concat, Option.bind_eq_bind, Option.bind_some, List.dropLast_concat, hno,
    hlast', Option.getD_none, List.take_length, List.drop_length, htext, Bool.false_eq_true,
    ↓reduceIte]
  constructor
  · intro hs
    obtain ⟨head, hhead, hs⟩ := Option.bind_eq_some_iff.mp hs
    obtain ⟨⟨front, parameters, after⟩, hp, hs⟩ := Option.bind_eq_some_iff.mp hs
    simp only at hs
    split at hs
    · next r hcolon =>
      simp only [Option.ite_none_left_eq_some, Option.some.injEq] at hs
      obtain ⟨hresult, rfl⟩ := hs
      exact ⟨head, front, after, r, hhead, hp, hcolon, rfl, by simpa using hresult, rfl⟩
    · cases hs
  · rintro ⟨head, front, after, r, hhead, hp, hcolon, hresult, hshown, hcomment⟩
    obtain ⟨parameters, result, comment⟩ := sig
    obtain rfl : comment = [] := hcomment
    obtain rfl : unended (trim r) = result := hresult
    change (MethodHead.read? (collapse (merged (ini ++ [last])))).bind _ = _
    rw [hhead, Option.bind_some, hp, Option.bind_some]
    simp only [hcolon]
    exact if_neg fun hempty => hshown (List.isEmpty_iff.mp hempty)

theorem unended_begins {w : Text} (hw : trim w = w) :
    trim (unended w) = unended w ∧ ∃ v, w = unended w ++ v := by
  unfold unended
  split
  · next hend =>
    obtain ⟨a, c, rfl⟩ : ∃ a c, w = a ++ [c] := by
      simp only [Bool.or_eq_true, beq_iff_eq, List.getLast?_eq_some_iff] at hend
      rcases hend with ⟨a, ha⟩ | ⟨a, ha⟩
      · exact ⟨a, _, ha⟩
      · exact ⟨a, _, ha⟩
    obtain ⟨b, hb, -⟩ := trimRight_append a
    rw [List.dropLast_concat]
    refine ⟨trim_eq_self (fun d hd => ?_) fun d hd => last_trimRight hd, b ++ [c], ?_⟩
    · refine head_trim (t := a ++ [c]) ?_
      rw [hw, hb, List.append_assoc, List.head?_append, hd]
      rfl
    · rw [← List.append_assoc, ← hb]
  · exact ⟨hw, [], (List.append_nil w).symm⟩

/-- The result type behind the parentheses. -/
theorem plain_unended {after r : Text} (hquiet : commentStart? after = none)
    (htight : tight (tags after) = true) (hcolon : trim after = ':' :: r) :
    Plain (unended (trim r)) := by
  have hafter : Plain (trim after) := ⟨compact_trim htight, commentStart?_trim hquiet⟩
  have htags : tags (trim after) = (':', .code) :: tags r := by
    rw [hcolon]
    exact (parted_inert (a := [':']) rfl r).tags
  have htightR := hafter.tight
  have hquietR := commentStart?_eq_none.mp hafter.quiet
  rw [htags] at htightR hquietR
  have hresult : Plain (trim r) := ⟨compact_trim (tight_cons.mp htightR).2.2,
    commentStart?_trim (commentStart?_eq_none.mpr fun x hx =>
      hquietR x (List.mem_cons_of_mem _ hx))⟩
  obtain ⟨htrim, v, hv⟩ := unended_begins (trim_trim r)
  rw [hv] at hresult
  exact hresult.begins htrim

/-- A signature without comments whose parameters may be written out. -/
structure Regular (room : Nat) (sig : Signature) : Prop where
  parameters : Neat sig.parameters
  typed : Parameter.Typed room (splitTop [','] sig.parameters)
  result : Plain sig.result
  shown : sig.result ≠ []
  comment : sig.comment = []

/-- What is read from a collapsed text whose closing brackets close what is open. -/
theorem Reads.regular {t : Text} {sig : Signature} (h : Reads t sig) (ht : Plain t)
    (hn : nestsWord {} (word t) = true) {room : Nat}
    (htyped : Parameter.Typed room (splitTop [','] sig.parameters)) : sig.Regular room := by
  obtain ⟨head, front, after, r, hhead, hp, hcolon, hresult, hne, hcomment⟩ := h
  obtain ⟨lead, hlead, hparted, -, -, -⟩ := MethodHead.read?_strings hhead
  have htight := ht.tight
  have hquiet := ht.quiet
  rw [hlead] at htight hquiet hn
  rw [hparted.tags] at htight
  rw [hparted.word] at hn
  obtain ⟨-, hclean, hclosing, hafter, htags⟩ :=
    closing_of_aroundPair? (d := ')') (hparted.quiet.mp hquiet).2 (MethodHead.opens_rest hhead) rfl
      rfl rfl hp
  -- the tags of the text, cut at the parentheses
  have htightRest := (tight_of_append htight).2
  rw [htags] at htightRest
  have hinside := (tight_of_append (tight_cons.mp (tight_of_append htightRest).2).2.2)
  have hword : word head.rest = word front ++ ('(', .code) ::
      (word sig.parameters ++ (')', .code) :: word after) := by
    rw [word, htags]
    simp [word, isFirmTag, List.filter_append, isBlank]
  rw [hword, ← List.append_assoc] at hn
  refine ⟨⟨⟨hclean, hclosing.balanced rfl (by decide) hn⟩, hinside.1⟩, htyped, ?_, hne, hcomment⟩
  rw [← hresult]
  exact plain_unended hafter (tight_cons.mp hinside.2).2.2 hcolon

/-! ## Writing out and reading again -/

def flatParameters (room : Nat) (sig : Signature) : Text :=
  Parameter.row ((splitTop [','] sig.parameters).map (Parameter.inline room)) ++ [' ']

def flat (room : Nat) (sig : Signature) : Signature :=
  { sig with parameters := sig.flatParameters room }

theorem stops_parameters : [','].all isStop = true := rfl

theorem Regular.pieces {room : Nat} {sig : Signature} (hs : sig.Regular room) :
    ∀ t ∈ splitTop [','] sig.parameters, Piece [','] t := hs.parameters.splitTop stops_parameters

/-- Pieces in a row are cut apart again. -/
theorem pieces_row {ts : List Text} (h : ∀ t ∈ ts, Piece [','] t) :
    Sealed (Parameter.row ts ++ [' ']) ∧ splitTop [','] (Parameter.row ts ++ [' ']) = ts := by
  have hspace : Sealed [' '] :=
    ⟨clean_inert (by decide), by rw [word_blank rfl]; exact balanced_nil⟩
  rcases List.eq_nil_or_concat ts with rfl | ⟨ini, last, rfl⟩
  · exact ⟨hspace, splitTop_space stops_parameters⟩
  rw [List.concat_eq_append] at *
  obtain ⟨hini, hlast⟩ := List.forall_mem_append.mp h
  have hpiece : Piece [','] last := hlast last List.mem_cons_self
  have hclean := fun p hp => (hini p hp).clean
  have hrow : Parameter.row (ini ++ [last]) ++ [' '] =
      ini.flatMap (fun p => ' ' :: (p ++ [','])) ++ ' ' :: (last ++ [' ']) := by
    rw [Parameter.row_concat]
    simp
  rw [hrow]
  refine ⟨⟨?_, ?_⟩, ?_⟩
  · have hinner := (hpiece.clean.append_inert (a := [' ']) (by decide)).1
    exact clean_row (by decide) hclean (hinner.inert_append (a := [' ']) (by decide)).1
  · have hwords : ∀ w ∈ ini.map word, Balanced w :=
      List.forall_mem_map.mpr fun p hp => (hini p hp).balanced
    have hend : word (' ' :: (last ++ [' '])) = word last := by
      rw [← List.singleton_append, word_blank_append rfl, hpiece.clean.word_append_blank rfl]
    have hbalanced := balanced_row (isSign_of_stop (c := ',') rfl).1 hwords hpiece.balanced
    rw [List.flatMap_map] at hbalanced
    rw [word_row (by decide) rfl hclean, hend]
    exact hbalanced
  · rw [Scan.splitTop_row stops_parameters List.mem_cons_self fun p hp =>
      (hini p hp).ended stops_parameters List.mem_cons_self, hpiece.splitTop stops_parameters]

section Expanded

variable {sig : Signature} {room : Nat} {h : MethodHead} {indent : Text}

/-- The last line of a signature that is written out. -/
theorem Regular.closing_line (hs : sig.Regular room) (hi : isBlankLine indent = true) :
    commentStart? (indent ++ [')', ':', ' '] ++ sig.result ++ [';']) = none ∧
      collapse (indent ++ [')', ':', ' '] ++ sig.result ++ [';']) =
        ')' :: ':' :: ' ' :: (sig.result ++ [';']) := by
  have hline : indent ++ [')', ':', ' '] ++ sig.result ++ [';'] =
      indent ++ ([')', ':'] ++ ' ' :: (sig.result ++ [';'])) := by
    simp
  have hplain : Plain ([')', ':'] ++ ' ' :: (sig.result ++ [';'])) :=
    (hs.result.concat hs.shown (c := ';') (by decide) (by decide)).behind (by simp) (by decide)
      (by simp)
  rw [hline]
  exact ⟨(quiet_inert (inert_blank hi) _).mpr hplain.quiet,
    (collapse_blank_append hi _).trans hplain.toCompact.collapse⟩

/-- The lines of a signature that is written out, joined and collapsed. -/
theorem Regular.merged_expand (hs : sig.Regular room) (cfg : Settings) (width : Nat)
    (hh : h.Standard) (hi : isBlankLine indent = true) :
    Legible (sig.expand cfg room indent (padTo width ' ' h.token)) ∧
      collapse (merged (sig.expand cfg room indent (padTo width ' ' h.token))) =
        h.token ++ ' ' :: '(' ::
        (sig.flatParameters room ++ ')' :: ':' :: ' ' :: (sig.result ++ [';'])) := by
  have hinner := isBlankLine_append hi (isBlankLine_unit cfg)
  obtain ⟨hquiet, hclosing⟩ := hs.closing_line hi
  have hlines := (hh.unfolds_line width hi).append
    (Parameter.unfolds_expandAll (isBlankLine_unit cfg) hs.pieces hs.typed hinner)
  have hexpand : sig.expand cfg room indent (padTo width ' ' h.token) =
      [indent ++ padTo width ' ' h.token ++ [' ', '(']] ++ Parameter.expandAll cfg.indentUnit room
        (indent ++ cfg.indentUnit) ((splitTop [','] sig.parameters).map Parameter.read) ++
      [indent ++ [')', ':', ' '] ++ sig.result ++ [';']] := by
    simp [expand, Parameter.readAll, hs.comment]
  have hlegible : Legible (sig.expand cfg room indent (padTo width ' ' h.token)) := by
    rw [hexpand]
    refine ⟨List.forall_mem_append.mpr ⟨hlines.shown, ?_⟩,
      List.forall_mem_append.mpr ⟨fun l hl => ?_, ?_⟩, ?_⟩
    · rw [List.forall_mem_singleton]
      refine isBlankLine_of_collapse ?_
      rw [hclosing]
      exact List.cons_ne_nil _ _
    · exact (hlines.clean l hl).commentStart?
    · rw [List.forall_mem_singleton]
      exact hquiet
    · rw [List.dropLast_concat]
      exact fun l hl => (hlines.clean l hl).closes
  refine ⟨hlegible, ?_⟩
  obtain ⟨-, -, -, hmerged⟩ := Legible.merged_spec hlegible
  have htext : (sig.expand cfg room indent (padTo width ' ' h.token)).flatMap
    (fun l => ' ' :: collapse l) =
      ' ' :: (h.token ++ [' ', '(']) ++
        Parameter.row ((splitTop [','] sig.parameters).map (Parameter.inline room)) ++ ' ' :: ')' ::
        ':' :: ' ' :: (sig.result ++ [';']) := by
    rw [hexpand, List.flatMap_append, hlines.text, List.flatMap_singleton, hclosing]
  have hwhole := hmerged.symm.trans htext
  rw [List.cons_append, List.cons_append, List.cons.injEq] at hwhole
  exact hwhole.2.trans (by simp [flatParameters])

/-- The parameters that are written on one line are cut apart again. -/
theorem Regular.splitTop_flat (hs : sig.Regular room) :
    Sealed (sig.flat room).parameters ∧
      splitTop [','] (sig.flat room).parameters =
        (splitTop [','] sig.parameters).map (Parameter.inline room) :=
  pieces_row (List.forall_mem_map.mpr fun _ ht =>
    (Parameter.piece_inline hs.pieces hs.typed ht).2.2.1)

/-- The text of a written-out signature is read as the signature with its parameters on one line. -/
theorem Regular.reads_flat (hs : sig.Regular room) (hh : h.Standard) :
    Reads (h.token ++ ' ' :: '(' ::
      (sig.flatParameters room ++ ')' :: ':' :: ' ' :: (sig.result ++ [';']))) (sig.flat room) := by
  obtain ⟨hsealed, -⟩ := hs.splitTop_flat
  have hmatch := hsealed.clean.matching? (o := '(') (c := ')') rfl
    (hsealed.balanced.closing rfl (by decide)) (':' :: ' ' :: (sig.result ++ [';']))
  have hend := (hs.result.concat hs.shown (c := ';') (by decide) (by decide)).trimmed
  have htrim : trim (' ' :: (sig.result ++ [';'])) = sig.result ++ [';'] := by
    rw [← List.singleton_append, trim_blank_append rfl, hend]
  have hafter : trim (':' :: ' ' :: (sig.result ++ [';'])) = ':' :: ' ' :: (sig.result ++ [';']) :=
    trim_eq_self (fun c hc => by cases hc; decide) fun c hc =>
      last_trim (t := sig.result ++ [';']) (by
      rw [hend, ← hc, ← List.cons_append, ← List.cons_append, List.getLast?_concat,
        List.getLast?_concat])
  refine ⟨_, [], _, _, hh.read?_token _, aroundPair?_append [] hmatch, hafter, ?_, hs.shown,
    hs.comment⟩
  rw [htrim, unended, List.getLast?_concat, List.dropLast_concat]
  exact trimRight_eq_self fun c hc => hs.result.last hc

/-- What is read again is written out as before. -/
theorem Regular.expand_flat (hs : sig.Regular room) (cfg : Settings) (head : Text) :
    (sig.flat room).expand cfg room indent head = sig.expand cfg room indent head := by
  have hall : Parameter.expandAll cfg.indentUnit room (indent ++ cfg.indentUnit)
        (Parameter.readAll (sig.flat room).parameters) =
      Parameter.expandAll cfg.indentUnit room (indent ++ cfg.indentUnit)
        (Parameter.readAll sig.parameters) := by
    rw [Parameter.readAll, Parameter.readAll, hs.splitTop_flat.2]
    exact Parameter.expandAll_inline cfg.indentUnit hs.pieces hs.typed _
  rw [expand, expand, hall]
  rfl

/-- What is read again are the same parameters up to the layout of their types. -/
theorem Regular.essential_flat (hs : sig.Regular room) :
    (Parameter.readAll (sig.flat room).parameters).map Parameter.essential =
      (Parameter.readAll sig.parameters).map Parameter.essential := by
  rw [Parameter.readAll, hs.splitTop_flat.2, Parameter.readAll, List.map_map, List.map_map,
    List.map_map]
  refine List.map_congr_left fun t ht => ?_
  obtain ⟨-, hkeeps, -, hread⟩ := Parameter.piece_inline hs.pieces hs.typed ht
  simp only [Function.comp_apply, Parameter.essential, hread, hkeeps.essence]

end Expanded

/-! ## Lines that are kept -/

theorem keepLines_shown (cfg : Settings) (indent : Text) {l : Text} {r : List Text}
    (h : ∀ k ∈ l :: r, isBlankLine k = false) :
    keepLines cfg indent (indent ++ trim l) (l :: r) =
      (indent ++ trim l) :: r.map fun k => indent ++ cfg.indentUnit ++ trim k := by
  obtain ⟨hl, hr⟩ := List.forall_mem_cons.mp h
  have hfilter : r.filter (!isBlankLine ·) = r := List.filter_eq_self.mpr fun k hk => by
    simp [hr k hk]
  rw [keepLines, List.drop_one, List.tail_cons, hfilter,
    trimRight_append_of_last (trim_ne_nil hl) fun c hc => last_trim hc]

theorem indented_line {a l : Text} (ha : isBlankLine a = true) (hl : isBlankLine l = false)
    (hq : commentStart? l = none) :
    isBlankLine (a ++ trim l) = false ∧ commentStart? (a ++ trim l) = none ∧
    trim (a ++ trim l) = trim l := by
  have htrim : trim (a ++ trim l) = trim l := by rw [trim_blank_append ha, trim_trim]
  refine ⟨?_, ?_, htrim⟩
  · rw [Bool.eq_false_iff]
    intro hb
    have hnil := trim_ne_nil hl
    rw [← htrim] at hnil
    exact hnil (trim_blank hb)
  · exact (quiet_inert (inert_blank ha) _).mpr (commentStart?_trim hq)

/-- Lines that are kept once are kept as they are, and read as before. -/
theorem keepLines_kept (cfg : Settings) {indent : Text} (hi : isBlankLine indent = true) {l : Text}
    {r : List Text} (h : ∀ k ∈ l :: r, isBlankLine k = false)
    (hquiet : ∀ k ∈ l :: r, commentStart? k = none) {out : List Text}
    (hout : keepLines cfg indent (indent ++ trim l) (l :: r) = out) :
    (∀ k ∈ out, isBlankLine k = false) ∧ (∀ k ∈ out, commentStart? k = none) ∧
      merged out = merged (l :: r) ∧
      keepLines cfg indent (indent ++ trim (out.headD [])) out = out := by
  rw [keepLines_shown cfg indent h] at hout
  obtain ⟨hl, hr⟩ := List.forall_mem_cons.mp h
  obtain ⟨hql, hqr⟩ := List.forall_mem_cons.mp hquiet
  have hfirst := indented_line hi hl hql
  have hlines (k : Text) (hk : k ∈ r) :=
    indented_line (isBlankLine_append hi (isBlankLine_unit cfg)) (hr k hk) (hqr k hk)
  have hshown : ∀ k ∈ out, isBlankLine k = false := by
    rw [← hout]
    exact List.forall_mem_cons.mpr ⟨hfirst.1, List.forall_mem_map.mpr fun k hk => (hlines k hk).1⟩
  refine ⟨hshown, ?_, ?_, ?_⟩
  · rw [← hout]
    exact List.forall_mem_cons.mpr ⟨hfirst.2.1, List.forall_mem_map.mpr fun k hk =>
      (hlines k hk).2.1⟩
  · rw [← hout, merged, merged, List.map_cons, List.map_cons, hfirst.2.2, List.map_map]
    exact congrArg (fun ts => [' '].intercalate (trim l :: ts))
      (List.map_congr_left fun k hk => (hlines k hk).2.2)
  · subst hout
    rw [List.headD_cons, keepLines_shown cfg indent hshown, hfirst.2.2, List.map_map]
    refine congrArg (_ :: ·) (List.map_congr_left fun k hk => ?_)
    rw [Function.comp_apply, (hlines k hk).2.2]

/-! ## Laying out twice -/

section Format

variable {cfg : Settings} {room : Nat} {indent head : Text} {ls body : List Text}

theorem filter_shown (h : ∀ k ∈ ls, isBlankLine k = false) : ls.filter (!isBlankLine ·) = ls :=
  List.filter_eq_self.mpr fun k hk => by simp [h k hk]

theorem not_all_blank (hbody : ls.filter (!isBlankLine ·) = body) (hne : body ≠ []) :
    ls.all isBlankLine = false := by
  rw [Bool.eq_false_iff]
  intro hall
  refine hne (hbody.symm.trans (List.filter_eq_nil_iff.mpr fun l hl => ?_))
  simp [List.all_eq_true.mp hall l hl]

theorem format?_kept (hbody : ls.filter (!isBlankLine ·) = body) (hne : body ≠ [])
    (hr : cfg.expandMethods = true → read? body = none) :
    format? cfg room indent head ls =
      some (keepLines cfg indent (indent ++ trim (body.headD [])) body) := by
  rw [format?, not_all_blank hbody hne, format, hbody]
  cases hexpand : cfg.expandMethods with
  | false => rfl
  | true =>
    rw [hr hexpand]
    rfl

theorem format?_expanded (hbody : ls.filter (!isBlankLine ·) = body) (hne : body ≠ [])
    (hexpand : cfg.expandMethods = true) {sig : Signature} (hr : read? body = some sig) :
    format? cfg room indent head ls = some (sig.expand cfg room indent head) := by
  rw [format?, not_all_blank hbody hne, format, hbody, hexpand, hr]
  rfl

end Format

/-- A signature that is written out is written out in the same lines again, and its
parts are read from them. -/
theorem Regular.expand_again {cfg : Settings} {room : Nat} {sig : Signature} (hs : sig.Regular room)
    (hexpand : cfg.expandMethods = true) {h : MethodHead} (hh : h.Standard) (width : Nat)
    {indent : Text} (hi : isBlankLine indent = true) {out : List Text}
    (hout : sig.expand cfg room indent (padTo width ' ' h.token) = out) :
    (∃ inner, out = (indent ++ padTo width ' ' h.token ++ [' ', '(']) :: inner ++
        [indent ++ [')', ':', ' '] ++ sig.result ++ [';']]) ∧
      format? cfg room indent (padTo width ' ' h.token) out = some out ∧
      read? out = some (sig.flat room) := by
  obtain ⟨hlegible, hmerged⟩ := hs.merged_expand cfg width hh hi
  rw [hout] at hlegible hmerged
  have hne : out ≠ [] := by
    rw [← hout]
    exact List.cons_ne_nil _ _
  have hread : read? out = some (sig.flat room) := by
    rw [read?_eq_some hlegible.quiet hne, hmerged]
    exact hs.reads_flat hh
  refine ⟨?_, ?_, hread⟩
  · refine ⟨Parameter.expandAll cfg.indentUnit room (indent ++ cfg.indentUnit)
      (Parameter.readAll sig.parameters), ?_⟩
    rw [← hout]
    simp [expand, hs.comment]
  · rw [format?_expanded (filter_shown hlegible.shown) hne hexpand hread, hs.expand_flat, hout]

/-- Lines that are kept are kept again. -/
theorem kept_again {cfg : Settings} {room : Nat} {indent head : Text}
    (hi : isBlankLine indent = true) {l : Text} {r : List Text}
    (hshown : ∀ k ∈ l :: r, isBlankLine k = false) (hquiet : ∀ k ∈ l :: r, commentStart? k = none)
    (hr : cfg.expandMethods = true → read? (l :: r) = none) {out : List Text}
    (hout : keepLines cfg indent (indent ++ trim l) (l :: r) = out) :
    format? cfg room indent head out = some out := by
  obtain ⟨hshown', hquiet', hmerged, hkept⟩ := keepLines_kept cfg hi hshown hquiet hout
  have hne : out ≠ [] := by
    rw [← hout, keepLines]
    exact List.cons_ne_nil _ _
  have hnone : cfg.expandMethods = true → read? out = none := by
    intro hexpand
    rw [Option.eq_none_iff_forall_ne_some]
    intro sig hsig
    rw [read?_eq_some hquiet' hne, hmerged, ← read?_eq_some hquiet (List.cons_ne_nil l r),
      hr hexpand] at hsig
    cases hsig
  rw [format?_kept (filter_shown hshown') hne hnone, hkept]

/-- Laying out a call signature without comments and without strings that cross lines, whose closing
brackets close what is open and whose parameters have types where they have colons, in front of the
head that was read from it: laying out the lines again changes nothing. A signature that is written
out begins with the head and ends with the result, and what is read from its lines are its result
and its parameters, up to the layout of their types. -/
theorem format?_roundTrips (cfg : Settings) (room width : Nat) {indent : Text}
    (hi : isBlankLine indent = true) {ls : List Text} (hcomments : ∀ l ∈ ls, hasComment l = false)
    (hstrings : ∀ l ∈ (ls.filter (!isBlankLine ·)).dropLast, (feed {} l).quote = none)
    (hnested : closesInner .free {} (merged (ls.filter (!isBlankLine ·))) = true)
    (htyped : ∀ t ∈ parameterTexts cfg room ls, Parameter.lacksType t = false) {h : MethodHead}
    (hh : MethodHead.read? (trim ((ls.filter (!isBlankLine ·)).headD [])) = some h ∨
      MethodHead.read? (collapse (merged (ls.filter (!isBlankLine ·)))) = some h) :
    ∃ out, format? cfg room indent (padTo width ' ' h.token) ls = some out ∧
      format? cfg room indent (padTo width ' ' h.token) out = some out ∧
      ∀ sig, cfg.expandMethods = true → read? (ls.filter (!isBlankLine ·)) = some sig →
        (∃ inner, out = (indent ++ padTo width ' ' h.token ++ [' ', '(']) :: inner ++
          [indent ++ [')', ':', ' '] ++ sig.result ++ [';']]) ∧
        ∃ sig', read? out = some sig' ∧ sig'.result = sig.result ∧
          (Parameter.readAll sig'.parameters).map Parameter.essential =
            (Parameter.readAll sig.parameters).map Parameter.essential := by
  generalize hbody : ls.filter (!isBlankLine ·) = body at hstrings hnested hh
  have hshown : ∀ l ∈ body, isBlankLine l = false := by
    intro l hl
    rw [← hbody] at hl
    simpa using (List.mem_filter.mp hl).2
  have hquiet : ∀ l ∈ body, commentStart? l = none := by
    intro l hl
    rw [← hbody] at hl
    simpa [hasComment] using hcomments l (List.mem_filter.mp hl).1
  have hlegible : Legible body :=
    ⟨hshown, hquiet, fun l hl =>
      closes_of_quote (hquiet l (List.dropLast_subset _ hl)) (hstrings l hl)⟩
  cases body with
  | nil => rcases hh with hh | hh <;> cases hh
  | cons l r =>
    obtain ⟨hne, htrim, hmerged, -⟩ := hlegible.merged_spec
    obtain ⟨hplain, hword⟩ := collapse_quiet hmerged htrim hne
    have hn : nestsWord {} (word (collapse (merged (l :: r)))) = true := by
      rw [hword, ← (firm_marksFrom follows_start rfl hmerged).2.1]
      exact hnested
    have hhead : h.Standard := by
      rcases hh with hh | hh
      · exact MethodHead.standard_of_read? hh (commentStart?_trim (hquiet l List.mem_cons_self))
      · exact MethodHead.standard_of_read? hh hplain
    by_cases hread : ∃ sig, cfg.expandMethods = true ∧ read? (l :: r) = some sig
    · obtain ⟨sig, hexpand, hsig⟩ := hread
      have htypes : Parameter.Typed room (splitTop [','] sig.parameters) := by
        simpa [Parameter.Typed, parameterTexts, hexpand, hbody, hsig] using htyped
      have hregular := ((read?_eq_some hquiet (List.cons_ne_nil l r)).mp hsig).regular
        ⟨compact_collapse hmerged, hplain⟩ hn htypes
      obtain ⟨hlines, hagain, hsame⟩ := hregular.expand_again hexpand hhead width hi rfl
      refine ⟨_, format?_expanded hbody (List.cons_ne_nil l r) hexpand hsig, hagain,
        fun sig₁ _ hsig₁ => ?_⟩
      obtain rfl : sig = sig₁ := Option.some.inj (hsig.symm.trans hsig₁)
      exact ⟨hlines, _, hsame, rfl, hregular.essential_flat⟩
    · have hnone : cfg.expandMethods = true → read? (l :: r) = none := by
        intro hexpand
        rw [Option.eq_none_iff_forall_ne_some]
        exact fun sig hsig => hread ⟨sig, hexpand, hsig⟩
      refine ⟨_, format?_kept hbody (List.cons_ne_nil l r) hnone,
        kept_again hi hshown hquiet hnone rfl, ?_⟩
      intro sig hexpand hsig
      exact absurd ⟨sig, hexpand, hsig⟩ hread

/-- Type parameters, object types inside each other, a bracket in a string, and a string that is not
closed on the last line. -/
theorem format?_roundTrips_object_types :
    let ls :=
  ["draw? <T>(at:\x7bx:A,y?:\x7bz:B\x7d[]\x7d,".toList, [], " then?:()=>'\x7b'): `a ;".toList]
    let head := padTo 12 ' ' "draw?<T>".toList
    ∃ out sig, format? {} nestingLimit "  ".toList head ls = some out ∧
      format? {} nestingLimit "  ".toList head out = some out ∧ read? out = some sig ∧
      sig.result = "`a".toList ∧
      (Parameter.readAll sig.parameters).map (fun p => (p.name, p.optional)) =
        [("at".toList, false), ("then".toList, true)] := by
  intro ls head
  have hsig : read? (ls.filter (!isBlankLine ·)) =
      some ⟨"at:\x7bx:A,y?:\x7bz:B\x7d[]\x7d, then?:()=>'\x7b'".toList, "`a".toList, []⟩ := by
    decide +kernel
  have hh : MethodHead.read? (trim ((ls.filter (!isBlankLine ·)).headD [])) =
      some ⟨"draw".toList, true, "<T>".toList, "(at:\x7bx:A,y?:\x7bz:B\x7d[]\x7d,".toList⟩ := by
    decide +kernel
  have hi : isBlankLine "  ".toList = true := by decide
  have hcomments : ∀ l ∈ ls, hasComment l = false := by decide +kernel
  obtain ⟨out, hout, hagain, hparts⟩ :=
    format?_roundTrips {} nestingLimit 12 hi hcomments (by decide +kernel)
      (by decide +kernel) (by decide +kernel) (.inl hh)
  obtain ⟨-, sig, hread, hresult, hparameters⟩ := hparts _ rfl hsig
  refine ⟨out, sig, hout, hagain, hread, hresult, ?_⟩
  have hnames := congrArg (List.map fun x => (x.1, x.2.1)) hparameters
  rw [List.map_map, List.map_map] at hnames
  exact hnames.trans (by decide +kernel)

end Signature

end SourceLayout
