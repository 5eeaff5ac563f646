import Mathlib.Data.List.Chain
import SourceLayout.Proofs.Indentation.Declaration
import SourceLayout.Proofs.LastLine
import SourceLayout.Proofs.Members.Groups
import SourceLayout.Proofs.Signatures.Unfold

/-! Empty lines between a pair of braces. A body is written member by member, and one empty line
stands above each call signature that does not come first, over the comments that belong to it.
The layout puts it there only when it meets the call signature; `spread` says where it stands
from the members alone. -/

namespace SourceLayout
open Text

/-! ## Lines with empty lines among them -/

/-- Lines that neither begin nor end with an empty line, and of which no two in a row are empty. -/
structure Spaced (ls : List Text) : Prop where
  first : ls.head? ≠ some []
  last : ls.getLast? ≠ some []
  apart : ls.IsChain fun a b => a ≠ [] ∨ b ≠ []

namespace Spaced

theorem of_shown {ls : List Text} (h : [] ∉ ls) : Spaced ls where
  first hfirst := h (List.mem_of_mem_head? hfirst)
  last hlast := h (List.mem_of_getLast? hlast)
  apart := List.Pairwise.isChain (List.pairwise_of_forall_mem_list fun _ ha _ _ => .inl fun hnil =>
    h (hnil ▸ ha))

theorem append {a b : List Text} (ha : Spaced a) (hb : Spaced b) : Spaced (a ++ b) where
  first := by
    rw [List.head?_append, ne_eq, Option.or_eq_some_iff, not_or]
    exact ⟨ha.first, fun h => hb.first h.2⟩
  last := by
    rw [List.getLast?_append, ne_eq, Option.or_eq_some_iff, not_or]
    exact ⟨hb.last, fun h => ha.last h.2⟩
  apart := List.isChain_append.mpr ⟨ha.apart, hb.apart, fun _ hx _ _ => .inl fun hnil =>
    ha.last (hnil ▸ hx)⟩

/-- An empty line may stand where lines are on both sides of it. -/
theorem gap {a b : List Text} (ha : Spaced a) (hane : a ≠ []) (hb : Spaced b) (hbne : b ≠ []) :
    Spaced (a ++ [] :: b) where
  first := by
    rw [List.head?_append_of_ne_nil a hane]
    exact ha.first
  last := by
    rw [List.getLast?_append_of_ne_nil a (List.cons_ne_nil _ _), List.getLast?_cons_of_ne_nil hbne]
    exact hb.last
  apart := by
    refine List.isChain_append.mpr ⟨ha.apart, List.isChain_cons.mpr ⟨fun y hy => ?_, hb.apart⟩,
      fun x hx _ _ => ?_⟩
    · exact .inr fun hnil => hb.first (hnil ▸ hy)
    · exact .inl fun hnil => ha.last (hnil ▸ hx)

end Spaced

theorem trimRight_ne_nil {t : Text} {c : Char} (h : c ∈ t) (hc : isBlank c = false) :
    trimRight t ≠ [] := by
  obtain ⟨d, hd, -⟩ := endsShown_trimRight (isBlankLine_of_mem h hc)
  intro hnil
  rw [hnil] at hd
  cases hd

/-! ## Parameters -/

namespace Parameter

/-- Of the texts between commas only a lone colon has neither a name nor a mark nor a type. -/
theorem eq_colon_of_read {t : Text} (htrim : trim t = t) (hne : t ≠ [])
    (h : read t = { name := [] }) : t = [':'] := by
  unfold read at h
  cases hcolon : Scan.findTop? [':'] t with
  | none =>
    simp only [hcolon, mk.injEq, and_true] at h
    exact absurd (htrim.symm.trans h) hne
  | some i =>
    obtain ⟨c, hc, hget⟩ := Scan.findTop?_spec hcolon
    obtain rfl : c = ':' := List.mem_singleton.mp hc
    simp only [hcolon, mk.injEq] at h
    obtain ⟨hname, hoptional, htype⟩ := h
    rw [hoptional, if_neg (by simp)] at hname
    have hsplit : t = t.take i ++ ([':'] ++ t.drop (i + 1)) := by
      obtain ⟨hlt, hc⟩ := List.getElem?_eq_some_iff.mp hget
      rw [List.singleton_append, ← hc, List.getElem_cons_drop, List.take_append_drop]
    rw [← htrim, hsplit, trim_blank_append (isBlankLine_of_trim hname),
      trim_append_blank [':'] (isBlankLine_of_trim htype)]
    decide

/-- A parameter that is no lone colon shows something in its column. -/
theorem trimRight_cell_ne_nil {t : Text} (h : read t ≠ { name := [] }) (htype : (read t).type = [])
    {col : NameColumn} (hcol : (read t).optional = true → col.hasOptional = true) (indent : Text) :
    trimRight (indent ++ col.cell (read t).name (read t).optional) ≠ [] := by
  cases hoptional : (read t).optional with
  | true =>
    have hmark : '?' ∈ col.cell (read t).name true := by simp [NameColumn.cell, hcol hoptional]
    exact trimRight_ne_nil (List.mem_append_right _ hmark) (by decide)
  | false =>
    have hname : (read t).name ≠ [] := by
      intro hname
      have hread : read t = ⟨(read t).name, (read t).optional, (read t).type⟩ := rfl
      rw [hname, hoptional, htype] at hread
      exact h hread
    obtain ⟨c, r, hcons, hc⟩ := name_cons hname
    obtain ⟨r', hcell⟩ := col.cell_cons c r false
    rw [hcons, hcell]
    exact trimRight_ne_nil (List.mem_append_right _ List.mem_cons_self) hc

theorem shown_lines {p : Parameter} {col : NameColumn} {indent trailing : Text}
    {object? : Text → Option (List Text)} (hobject : ∀ start ls, object? start = some ls → [] ∉ ls)
    (hbare : p.type = [] → trimRight (indent ++ col.cell p.name p.optional) ++ trailing ≠ []) :
    [] ∉ p.lines col indent trailing object? := by
  unfold lines
  simp only
  split
  · next htype => simpa using (hbare (List.isEmpty_iff.mp htype)).symm
  · cases hlines : object? (indent ++ col.cell p.name p.optional ++ [' ', ':', ' ']) with
    | none => simp
    | some ls => exact hobject _ _ hlines

/-- The members of an object type end in a semicolon, so that each of them shows something. -/
theorem shown_expandObject {unit : Text} {room : Nat} {type head indent trailing : Text}
    {ls : List Text} (h : expandObject unit room type head indent trailing = some ls) :
    [] ∉ ls := by
  induction room generalizing type head indent trailing ls with
  | zero => cases h
  | succ room ih =>
    obtain ⟨⟨before, texts, after⟩, -, rfl⟩ := Option.map_eq_some_iff.mp h
    have hopen : openBrace before ≠ [] := by
      unfold openBrace
      split
      · exact List.cons_ne_nil _ _
      · split <;> simp
    simp only [List.cons_append, List.mem_cons, List.mem_append, List.mem_flatMap, not_or,
      not_exists, not_and]
    refine ⟨by simp [hopen], fun p _ => shown_lines (fun _ _ => ih) (by simp), by simp⟩

/-- A parameter list is written without empty lines unless its last parameter is a lone colon, and
then only the last line may be empty. -/
theorem expandAll_cases (unit : Text) (room : Nat) (indent : Text) {ts : List Text}
    (hts : ∀ t ∈ ts, trim t = t ∧ t ≠ []) :
    [] ∉ expandAll unit room indent (ts.map read) ∨
      ts.getLast? = some [':'] ∧ ∃ a l, expandAll unit room indent (ts.map read) = a ++ [l] ∧
      [] ∉ a := by
  rcases List.eq_nil_or_concat ts with rfl | ⟨ini, last, rfl⟩
  · exact .inl (by simp [expandAll])
  · rw [List.concat_eq_append] at *
    have hbefore : [] ∉ (ini.map read).flatMap fun p =>
        p.lines (column (ini.map read ++ [read last])) indent [','] fun start =>
          expandObject unit room p.type start indent [','] := by
      simp only [List.mem_flatMap, not_exists, not_and]
      exact fun p _ => shown_lines (fun _ _ => shown_expandObject) (by simp)
    rw [List.map_append, List.map_singleton, expandAll_concat]
    by_cases hlast : last = [':']
    · subst hlast
      exact .inr ⟨List.getLast?_concat, _, _, rfl, hbefore⟩
    · obtain ⟨htrim, hne⟩ := hts last (by simp)
      refine .inl fun hmem => (List.mem_append.mp hmem).elim hbefore
        (shown_lines (fun _ _ => shown_expandObject) ?_)
      intro htype
      rw [List.append_nil]
      exact trimRight_cell_ne_nil (fun h => hlast (eq_colon_of_read htrim hne h)) htype
        (column_hasOptional (by simp)) indent

end Parameter

/-! ## Call signatures and fields -/

theorem Member.shown_plainLines (indent : Text) (ls : List Text) :
    [] ∉ Member.plainLines indent ls := by
  intro hmem
  obtain ⟨l, hl, hnil⟩ := List.mem_map.mp hmem
  have hshown : isBlankLine l = false := by simpa using (List.mem_filter.mp hl).2
  exact trim_ne_nil hshown (List.append_eq_nil_iff.mp hnil).2

theorem shown_keepLines (cfg : Settings) (indent : Text) {first : Text}
    (hfirst : trimRight first ≠ []) (ls : List Text) : [] ∉ keepLines cfg indent first ls := by
  rw [keepLines, List.mem_cons, not_or]
  exact ⟨hfirst.symm, Member.shown_plainLines (indent ++ cfg.indentUnit) (ls.drop 1)⟩

namespace Signature

/-- Whether the last parameter of a signature is a lone colon. -/
def endsBare (sig : Signature) : Bool := (Scan.splitTop [','] sig.parameters).getLast? == some [':']

theorem expand_cases (sig : Signature) (cfg : Settings) (room : Nat) (indent head : Text) :
    sig.expand cfg room indent head ≠ [] ∧ [] ∉ sig.expand cfg room indent head ∨
      sig.endsBare = true ∧ ∃ a l z, sig.expand cfg room indent head = a ++ [l, z] ∧ a ≠ [] ∧
      [] ∉ a ∧ z ≠ [] := by
  have hpieces : ∀ t ∈ Scan.splitTop [','] sig.parameters, trim t = t ∧ t ≠ [] := fun t ht =>
    ⟨(Scan.mem_splitTop ht).1, (Scan.mem_splitTop ht).2.1⟩
  obtain ⟨z, hz, hexpand⟩ : ∃ z, z ≠ [] ∧ sig.expand cfg room indent head =
    (indent ++ head ++ [' ', '(']) ::
      Parameter.expandAll cfg.indentUnit room (indent ++ cfg.indentUnit)
        ((Scan.splitTop [','] sig.parameters).map Parameter.read) ++ [z] := ⟨_, by simp, rfl⟩
  rw [hexpand]
  rcases Parameter.expandAll_cases cfg.indentUnit room (indent ++ cfg.indentUnit) hpieces with
    hshown | ⟨hbare, a, l, hlines, ha⟩
  · exact .inl (by simp [hshown, hz.symm])
  · refine .inr ⟨by simpa [endsBare] using hbare, (indent ++ head ++ [' ', '(']) :: a, l, z, ?_,
      List.cons_ne_nil _ _, by simp [ha], hz⟩
    simp [hlines]

/-- The lines of a call signature that begins on a line that shows something. -/
theorem format_cases (cfg : Settings) (room : Nat) (indent head : Text) {l : Text}
    (hl : isBlankLine l = false) (r : List Text) :
    format cfg room indent head (l :: r) ≠ [] ∧ [] ∉ format cfg room indent head (l :: r) ∨
      cfg.expandMethods = true ∧ (read? ((l :: r).filter (!isBlankLine ·))).any endsBare = true ∧
        ∃ a b z, format cfg room indent head (l :: r) = a ++ [b, z] ∧ a ≠ [] ∧ [] ∉ a ∧ z ≠ [] := by
  have hbody : (l :: r).filter (!isBlankLine ·) = l :: r.filter (!isBlankLine ·) := by simp [hl]
  obtain ⟨c, hc, -⟩ := endsShown_trim hl
  have hfirst : trimRight (indent ++ trim l) ≠ [] :=
    trimRight_ne_nil (List.mem_append_right _ (List.mem_of_getLast? hc)) (last_trim hc)
  have hkept := shown_keepLines cfg indent hfirst (l :: r.filter (!isBlankLine ·))
  unfold format
  simp only [hbody, List.headD_cons]
  cases cfg.expandMethods with
  | false => exact .inl ⟨List.cons_ne_nil _ _, hkept⟩
  | true =>
    cases read? (l :: r.filter (!isBlankLine ·)) with
    | none => exact .inl ⟨List.cons_ne_nil _ _, hkept⟩
    | some sig => exact (sig.expand_cases cfg room indent head).imp id fun h => ⟨rfl, h⟩

end Signature

namespace Member

/-- A field is written without empty lines, apart from the lines between its braces. -/
theorem fieldLines_cases (cfg : Settings) (indent : Text) (col : NameColumn) (head : FieldHead)
    (ls : List Text) :
    (∃ out, out ≠ [] ∧ [] ∉ out ∧ ∀ inner, fieldLines cfg inner indent col head ls = out) ∨
      ∃ first content last, first ≠ [] ∧ last ≠ [] ∧
        ∀ inner, fieldLines cfg inner indent col head ls = first :: inner indent content ++
          [last] := by
  have hfirst : trimRight (indent ++ col.cell head.key head.optional ++ [' ', ':'] ++ ' ' ::
      head.value) ≠ [] :=
    trimRight_ne_nil (c := ':') (by simp) (by decide)
  unfold fieldLines nestedField?
  simp only
  split
  · exact .inl ⟨_, List.cons_ne_nil _ _, by simpa using hfirst.symm, fun _ => rfl⟩
  · cases hn : nestedSpan? head (ls.filter (!isBlankLine ·)) with
    | none =>
      exact .inl ⟨_, List.cons_ne_nil _ _, shown_keepLines cfg indent hfirst _, fun _ => rfl⟩
    | some x =>
      obtain ⟨before, span⟩ := x
      obtain ⟨o, ho, hn⟩ := Option.bind_eq_some_iff.mp hn
      simp only [Option.ite_none_left_eq_some, Option.some.injEq, Prod.mk.injEq] at hn
      obtain ⟨-, -, rfl⟩ := hn
      obtain ⟨c, hc, -⟩ := ObjectSpan.endsShown_closing ho
      refine .inr ⟨_, _, _, ?_, ?_, fun _ => rfl⟩
      · simp
      · intro hnil
        rw [(List.append_eq_nil_iff.mp hnil).2] at hc
        cases hc

/-! ## The members of a body -/

def isComment (m : Member) : Bool :=
  match m.kind with
  | .comment => true
  | _ => false

def isMethod (m : Member) : Bool :=
  match m.kind with
  | .method _ => true
  | _ => false

def written (cfg : Settings) (room : Nat) (inner : Text → List Text → List Text) (indent : Text)
    (col : NameColumn) (m : Member) : List Text :=
  match m.kind with
  | .comment => commentLines indent m.lines
  | .method head => Signature.format cfg room indent (padTo col.cellWidth ' ' head.token) m.lines
  | .field head => fieldLines cfg inner indent col head m.lines
  | .unknown => plainLines indent m.lines

def opensCall (ms : List Member) : Bool := (ms.dropWhile isComment).head?.any isMethod

/-- Whether a call signature begins with the member at position `i`, or with the
comments in front of it. -/
def startsCall (ms : List Member) (i : Nat) : Bool :=
  opensCall (ms.drop i) && !(ms.take i).getLast?.any isComment

/-- What stands above the member at position `i`: an empty line if a call signature starts there
behind other members. -/
def gapAbove (ms : List Member) (i : Nat) : List Text :=
  if 0 < i ∧ startsCall ms i = true then [[]] else []

/-- Whether a member is a call signature that is written out and has a lone colon
as its last parameter. -/
def endsBare (cfg : Settings) (m : Member) : Bool :=
  m.isMethod && cfg.expandMethods &&
    (Signature.read? (m.lines.filter (!isBlankLine ·))).any Signature.endsBare

theorem shown_commentLines (indent : Text) (ls : List Text) : [] ∉ commentLines indent ls := by
  intro hmem
  obtain ⟨x, hx, hnil⟩ := List.mem_map.mp hmem
  have hshown : isBlankLine x.1 = false := by simpa using (List.mem_filter.mp hx).2
  unfold commentLine at hnil
  simp only at hnil
  split at hnil
  · simp at hnil
  · exact trim_ne_nil hshown (List.append_eq_nil_iff.mp hnil).2

/-- How a member that begins on a line that shows something is written: without empty lines, around
the lines between its braces, or with one line that may be empty in front of the last. -/
theorem written_cases (cfg : Settings) (room : Nat) (indent : Text) (col : NameColumn) {m : Member}
    {l : Text} {r : List Text} (hm : m.lines = l :: r) (hl : isBlankLine l = false) :
    (∃ out, out ≠ [] ∧ [] ∉ out ∧ ∀ inner, m.written cfg room inner indent col = out) ∨
    (∃ first content last, first ≠ [] ∧ last ≠ [] ∧
      ∀ inner, m.written cfg room inner indent col = first :: inner indent content ++ [last]) ∨
    m.endsBare cfg = true ∧ ∃ a b z, a ≠ [] ∧ [] ∉ a ∧ z ≠ [] ∧
      ∀ inner, m.written cfg room inner indent col = a ++ [b, z] := by
  unfold written endsBare isMethod
  rw [hm]
  cases m.kind with
  | comment => exact .inl ⟨_, by simp [commentLines, hl], shown_commentLines indent _, fun _ => rfl⟩
  | unknown => exact .inl ⟨_, by simp [plainLines, hl], shown_plainLines indent _, fun _ => rfl⟩
  | field head => exact (fieldLines_cases cfg indent col head (l :: r)).imp id .inl
  | method head =>
    rcases Signature.format_cases cfg room indent (padTo col.cellWidth ' ' head.token) hl r with
      ⟨hne, hshown⟩ | ⟨hexpand, hread, a, b, z, hlines, hne, ha, hz⟩
    · exact .inl ⟨_, hne, hshown, fun _ => rfl⟩
    · exact .inr (.inr ⟨by simp [hexpand, hread], a, b, z, hne, ha, hz, fun _ => hlines⟩)

theorem spaced_written {inner : Text → List Text → List Text}
    (hinner : ∀ base ls, Spaced (inner base ls)) (cfg : Settings) (room : Nat) (indent : Text)
    (col : NameColumn) {m : Member} {l : Text} {r : List Text} (hm : m.lines = l :: r)
    (hl : isBlankLine l = false) :
    m.written cfg room inner indent col ≠ [] ∧ Spaced (m.written cfg room inner indent col) := by
  rcases written_cases cfg room indent col hm hl with ⟨out, hne, hshown, hlines⟩ |
    ⟨first, content, last, hfirst, hlast, hlines⟩ | ⟨-, a, b, z, hne, ha, hz, hlines⟩
  · rw [hlines]
    exact ⟨hne, .of_shown hshown⟩
  · have hopen : Spaced [first] := .of_shown (by simpa using hfirst.symm)
    have hclose : Spaced [last] := .of_shown (by simpa using hlast.symm)
    rw [hlines]
    exact ⟨by simp, (hopen.append (hinner indent content)).append hclose⟩
  · rw [hlines]
    refine ⟨by simp [hne], ?_⟩
    by_cases hb : b = []
    · rw [hb]
      exact (Spaced.of_shown ha).gap hne (.of_shown (by simpa using hz.symm)) (List.cons_ne_nil _ _)
    · exact .of_shown (by simp [ha, Ne.symm hb, hz.symm])

/-- Apart from the lines between its braces a member is written without empty lines. -/
theorem shown_written {cfg : Settings} (room : Nat) (indent : Text) (col : NameColumn) {m : Member}
    {l : Text} {r : List Text} (hm : m.lines = l :: r) (hl : isBlankLine l = false)
    (hbare : m.endsBare cfg = false) : [] ∉ m.written cfg room (fun _ _ => []) indent col := by
  rcases written_cases cfg room indent col hm hl with ⟨out, -, hshown, hlines⟩ |
    ⟨first, content, last, hfirst, hlast, hlines⟩ | ⟨hends, -⟩
  · rw [hlines]
    exact hshown
  · rw [hlines]
    simp [hfirst.symm, hlast.symm]
  · rw [hbare] at hends
    cases hends

/-! ## Where the empty lines stand -/

section Spread

variable (cfg : Settings) (room : Nat) (inner : Text → List Text → List Text) (indent : Text)
    (col : NameColumn)

/-- The lines of members with an empty line above each call signature and its comments. Above the
first member there is none if comments are in front of it or nothing is, as `joined` says. -/
def spread (joined : Bool) : List Member → List Text
  | [] => []
  | m :: ms =>
    (if !joined && opensCall (m :: ms) then [[]] else []) ++ m.written cfg room inner indent col ++
      spread m.isComment ms

theorem spread_false (ms : List Member) :
    spread cfg room inner indent col false ms =
      (if opensCall ms then [[]] else []) ++ spread cfg room inner indent col true ms := by
  cases ms with
  | nil => rfl
  | cons m ms => simp [spread]

theorem setOff_eq {done : List Text} (h : done.getLast? ≠ some []) :
    setOff done = done ++ if done.isEmpty then [] else [[]] := by
  unfold setOff
  cases hlast : done.getLast? with
  | none => simp [List.getLast?_eq_none_iff.mp hlast]
  | some l =>
    have hne : done.isEmpty = false := by
      cases done with
      | nil => cases hlast
      | cons _ _ => rfl
    have hl : l.isEmpty = false := by simpa [hlast] using h
    simp [hne, hl]

theorem place_comment {m : Member} (h : m.isComment = true) (out : Layout) :
    place cfg room inner indent col out m =
      { out with comments := out.comments ++ m.written cfg room inner indent col } := by
  unfold isComment at h
  unfold place written
  cases hkind : m.kind with
  | comment => rfl
  | method _ => simp [hkind] at h
  | field _ => simp [hkind] at h
  | unknown => simp [hkind] at h

theorem place_entry {m : Member} (h : m.isComment = false) (out : Layout) :
    place cfg room inner indent col out m =
      { done := (if m.isMethod then setOff out.done else out.done) ++ out.comments ++
          m.written cfg room inner indent col } := by
  unfold isComment at h
  unfold place written isMethod
  cases hkind : m.kind with
  | comment => simp [hkind] at h
  | method _ => rfl
  | field _ => rfl
  | unknown => rfl

/-- What is written in the end: the finished lines, the comments that nothing followed yet,
and the lines of the members that are left. An empty line gets in front of the comments if a
call signature is next. -/
theorem foldl_place_eq {ms : List Member}
    (hms : ∀ m ∈ ms, m.written cfg room inner indent col ≠ [] ∧
      Spaced (m.written cfg room inner indent col))
    {out : Layout} (hout : out.done.getLast? ≠ some []) :
    (ms.foldl (place cfg room inner indent col) out).done ++
      (ms.foldl (place cfg room inner indent col) out).comments =
      out.done ++ (if !out.done.isEmpty && opensCall ms then [[]] else []) ++ out.comments ++
        spread cfg room inner indent col true ms := by
  induction ms generalizing out with
  | nil => simp [spread, opensCall]
  | cons m ms ih =>
    obtain ⟨⟨hne, hspaced⟩, hms⟩ := List.forall_mem_cons.mp hms
    rw [List.foldl_cons]
    cases hcomment : m.isComment with
    | true =>
      have hopens : opensCall (m :: ms) = opensCall ms := by simp [opensCall, hcomment]
      rw [place_comment cfg room inner indent col hcomment, ih hms, hopens, spread, hcomment]
      · simp
      · exact hout
    | false =>
      have hopens : opensCall (m :: ms) = m.isMethod := by simp [opensCall, hcomment]
      rw [place_entry cfg room inner indent col hcomment, ih hms, hopens, spread, hcomment,
        spread_false]
      · cases m.isMethod with
        | true => simp [setOff_eq hout, hne]
        | false => simp [hne]
      · simp only [List.getLast?_append_of_ne_nil _ hne]
        exact hspaced.last

theorem spaced_spread {ms : List Member}
    (hms : ∀ m ∈ ms, m.written cfg room inner indent col ≠ [] ∧
      Spaced (m.written cfg room inner indent col)) :
    Spaced (spread cfg room inner indent col true ms) := by
  induction ms with
  | nil => exact .of_shown List.not_mem_nil
  | cons m ms ih =>
    obtain ⟨⟨hne, hspaced⟩, hms⟩ := List.forall_mem_cons.mp hms
    rw [spread, Bool.not_true, Bool.false_and, if_neg Bool.false_ne_true, List.nil_append]
    cases m.isComment with
    | true => exact hspaced.append (ih hms)
    | false =>
      rw [spread_false]
      cases ms with
      | nil => simpa [opensCall, spread] using hspaced
      | cons k ms =>
        have hrest : spread cfg room inner indent col true (k :: ms) ≠ [] := by
          simp [spread, (hms k List.mem_cons_self).1]
        split
        · exact hspaced.gap hne (ih hms) hrest
        · exact hspaced.append (ih hms)

/-- The lines of the members from a position on, each with what stands above it. -/
theorem spread_eq (above ms : List Member) :
    spread cfg room inner indent col (above.isEmpty || above.getLast?.any isComment) ms =
      (ms.zipIdx above.length).flatMap fun (m, i) =>
        gapAbove (above ++ ms) i ++ m.written cfg room inner indent col := by
  induction ms generalizing above with
  | nil => rfl
  | cons m ms ih =>
    have hne : (above ++ [m]).isEmpty = false := by cases above <;> rfl
    have ih := ih (above ++ [m])
    rw [hne, Bool.false_or] at ih
    have hgap : gapAbove (above ++ m :: ms) above.length =
        if !(above.isEmpty || above.getLast?.any isComment) && opensCall (m :: ms) then
          [[]] else [] := by
      simp [gapAbove, startsCall, List.length_pos_iff, and_comm, and_assoc]
    rw [List.zipIdx_cons, List.flatMap_cons, spread]
    simp only [hgap]
    refine congrArg _ ?_
    simpa using ih

end Spread

end Member

namespace Block

theorem shown_of_mem_members {ls : List Text} {m : Member} (hm : m ∈ members ls) :
    ∃ l r, m.lines = l :: r ∧ isBlankLine l = false := by
  obtain ⟨g, hg, rfl⟩ := List.mem_map.mp hm
  have hseries := ((Member.delimit_eq_iff_series (Member.expandLines ls) _).mp rfl).1
  exact (hseries.single g hg).shown.head rfl (hseries.single g hg).ne

section Format

variable (cfg : Settings) (room : Nat) (base : Text) (ls : List Text)

/-- The members of a body are spaced if the bodies in it are. -/
theorem spaced_members {inner : Text → List Text → List Text}
    (hinner : ∀ base ls, Spaced (inner base ls)) (indent : Text) (col : NameColumn) :
    ∀ m ∈ members ls,
      m.written cfg room inner indent col ≠ [] ∧ Spaced (m.written cfg room inner indent col) := by
  intro m hm
  obtain ⟨l, r, hlines, hl⟩ := shown_of_mem_members hm
  exact Member.spaced_written hinner cfg room indent col hlines hl

theorem format_eq_spread (hinner : ∀ base ls, Spaced (format cfg room base ls)) :
    format cfg (room + 1) base ls = Member.spread cfg room (format cfg room)
      (base ++ cfg.indentUnit) (Member.column (members ls)) true (members ls) := by
  rw [format, Member.foldl_place_eq _ _ _ _ _ (spaced_members cfg room ls hinner _ _) (by simp)]
  simp

theorem spaced_format : Spaced (format cfg room base ls) := by
  induction room generalizing base ls with
  | zero => exact .of_shown (Member.shown_plainLines _ ls)
  | succ room ih =>
    rw [format_eq_spread cfg room base ls ih]
    exact Member.spaced_spread _ _ _ _ _ (spaced_members cfg room ls ih _ _)

theorem format_eq_flatMap : format cfg (room + 1) base ls =
    (members ls).zipIdx.flatMap fun (m, i) => Member.gapAbove (members ls) i ++
      m.written cfg room (format cfg room) (base ++ cfg.indentUnit)
        (Member.column (members ls)) := by
  rw [format_eq_spread cfg room base ls (spaced_format cfg room)]
  exact Member.spread_eq _ _ _ _ _ [] _

end Format

/-- Where the empty lines of a body stand. There is none at its ends, and no two of them follow each
other. Where room is left for another level, one stands above each call signature that other members
precede, over the comments in front of it, and the lines of the members hold none but those between
their braces. Where none is left, none stands anywhere. Of a call signature with a lone colon as its
last parameter only the ends are described. -/
theorem format_emptyLines (cfg : Settings) (depth : Int) (base : Text) (ls : List Text) :
    let out := format cfg (roomAt depth) base ls
    let ms := members ls
    let deeper := format cfg (roomAt (depth + 1))
    let lines (inner : Text → List Text → List Text) (m : Member) : List Text :=
      m.written cfg (roomAt (depth + 1)) inner (base ++ cfg.indentUnit) (Member.column ms)
    Spaced out ∧
    (nestingLimit < depth → [] ∉ out) ∧
    (depth ≤ nestingLimit →
      out = (ms.zipIdx.flatMap fun (m, i) => Member.gapAbove ms i ++ lines deeper m) ∧
      ∀ m ∈ ms, lines deeper m ≠ [] ∧ Spaced (lines deeper m) ∧
        (m.endsBare cfg = false → [] ∉ lines (fun _ _ => []) m)) := by
  refine ⟨spaced_format cfg _ base ls, fun hdeep => ?_, fun hdepth => ⟨?_, fun m hm => ?_⟩⟩
  · have hroom : roomAt depth = 0 := by
      unfold roomAt
      omega
    rw [hroom]
    exact Member.shown_plainLines _ ls
  · have hroom : roomAt depth = roomAt (depth + 1) + 1 := by
      unfold roomAt
      omega
    rw [hroom]
    exact format_eq_flatMap cfg _ base ls
  · obtain ⟨hne, hspaced⟩ := spaced_members cfg (roomAt (depth + 1)) ls (spaced_format cfg _)
      (base ++ cfg.indentUnit) (Member.column (members ls)) m hm
    obtain ⟨l, r, hlines, hl⟩ := shown_of_mem_members hm
    exact ⟨hne, hspaced, Member.shown_written _ _ _ hlines hl⟩

/-- A call signature under a comment, and one in a body of its own. -/
theorem format_emptyLines_comment_run :
    let ls :=
  ["a: string;".toList, "// c".toList, "f(): void;".toList, "b: \x7b".toList, "x: y;".toList,
      "g(): void;".toList, "\x7d".toList]
    let out := ["    a : string;".toList, [], "    // c".toList, "    f (".toList,
      "    ): void;".toList, "    b : \x7b".toList, "        x : y;".toList, [],
      "        g (".toList, "        ): void;".toList, "    \x7d".toList]
    let lines (inner : Text → List Text → List Text) (m : Member) : List Text :=
      m.written {} (roomAt 1) inner (Settings.indentUnit {}) (Member.column (members ls))
    (0 : Int) ≤ nestingLimit ∧ format {} (roomAt 0) [] ls = out ∧ Spaced out ∧
      (List.range 4).map (Member.gapAbove (members ls)) = [[], [[]], [], []] ∧
      out = ((members ls).zipIdx.flatMap fun (m, i) =>
        Member.gapAbove (members ls) i ++ lines (format {} (roomAt 1)) m) ∧
      ∀ m ∈ members ls, m.endsBare {} = false ∧ [] ∉ lines (fun _ _ => []) m := by
  intro ls out lines
  have hout : format {} (roomAt 0) [] ls = out := by decide +kernel
  have hbare : ∀ m ∈ members ls, m.endsBare {} = false := by decide +kernel
  obtain ⟨hspaced, -, hmembers⟩ := format_emptyLines {} 0 [] ls
  obtain ⟨hgaps, hlines⟩ := hmembers (by decide)
  rw [hout] at hspaced hgaps
  exact ⟨by decide, hout, hspaced, by decide +kernel, hgaps, fun m hm =>
    ⟨hbare m hm, (hlines m hm).2.2 (hbare m hm)⟩⟩

-- Why a lone colon is left out: a parameter without a name and a type has
-- nothing to show on its line.
example : format {} (roomAt 0) [] ["f(:): void;".toList] =
  ["    f (".toList, [], "    ): void;".toList] := by
  decide +kernel

/-- Where no room is left a call signature is not set off from the member above it. -/
theorem format_unspaced_beyond_limit :
    let ls := ["a: string;".toList, "f(): void;".toList]
    (members ls).map Member.isMethod = [false, true] ∧ Member.gapAbove (members ls) 1 = [[]] ∧
      format {} (roomAt 33) [] ls = ["    a: string;".toList, "    f(): void;".toList] := by
  decide +kernel

end Block

end SourceLayout
