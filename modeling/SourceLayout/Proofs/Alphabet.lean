import SourceLayout.Proofs.Kept.Declaration

/-! The characters of a layout. Every character of a declaration that has been laid out stood
in its lines before, or is a blank or a sign that the layout adds. So what holds of all
characters before, and of the added ones, holds of all characters afterwards; no line feed,
for one, comes into a line. -/

namespace SourceLayout
open Text Scan

variable {P : Char → Prop}

namespace Text

def Over (P : Char → Prop) (t : Text) : Prop := ∀ c ∈ t, P c

instance [DecidablePred P] : DecidablePred (Over P) := fun t => List.decidableBAll P t

/-- The characters that a layout adds. -/
def added : Text := [' ', '\t', '?', ':', ';', ',', '{', '}', '(', ')']

@[simp] theorem over_nil : Over P [] := by simp [Over]

@[simp] theorem over_cons {c : Char} {t : Text} : Over P (c :: t) ↔ P c ∧ Over P t := by simp [Over]

@[simp] theorem over_append {a b : Text} : Over P (a ++ b) ↔ Over P a ∧ Over P b := by
  simp [Over, or_imp, forall_and]

theorem Over.of_subset {a b : Text} (h : Over P b) (hs : a ⊆ b) : Over P a :=
  fun c hc => h c (hs hc)

theorem trim_subset (t : Text) : trim t ⊆ t := by
  obtain ⟨b, hb, -⟩ := trim_spec t
  intro c hc
  rw [hb]
  simp [hc]

theorem trimRight_subset (t : Text) : trimRight t ⊆ t := by
  obtain ⟨b, hb, -⟩ := trimRight_append t
  intro c hc
  rw [hb]
  simp [hc]

theorem Over.take {t : Text} (h : Over P t) (n : Nat) : Over P (t.take n) :=
  h.of_subset (List.take_subset n t)

theorem Over.drop {t : Text} (h : Over P t) (n : Nat) : Over P (t.drop n) :=
  h.of_subset (List.drop_subset n t)

theorem Over.trim {t : Text} (h : Over P t) : Over P (trim t) := h.of_subset (trim_subset t)

theorem Over.trimRight {t : Text} (h : Over P t) : Over P (trimRight t) :=
  h.of_subset (trimRight_subset t)

theorem Over.trimLeft {t : Text} (h : Over P t) : Over P (trimLeft t) :=
  h.of_subset (List.dropWhile_suffix _).subset

theorem Over.indentOf {t : Text} (h : Over P t) : Over P (indentOf t) :=
  h.of_subset (List.takeWhile_prefix _).subset

theorem Over.dropLast {t : Text} (h : Over P t) : Over P t.dropLast :=
  h.of_subset (List.dropLast_subset t)

theorem over_getD {ls : List Text} (h : ∀ l ∈ ls, Over P l) (i : Nat) : Over P (ls.getD i []) := by
  rw [List.getD_eq_getElem?_getD]
  cases hi : ls[i]? with
  | none => exact over_nil
  | some l => exact h l (List.mem_of_getElem? hi)

theorem over_headD {ls : List Text} (h : ∀ l ∈ ls, Over P l) : Over P (ls.headD []) := by
  cases ls with
  | nil => exact over_nil
  | cons l ls => exact h l List.mem_cons_self

theorem over_replicate {c : Char} (h : P c) (n : Nat) : Over P (List.replicate n c) :=
  fun _ hd => (List.eq_of_mem_replicate hd).symm ▸ h

theorem over_intercalate {sep : Text} (hs : Over P sep) {ls : List Text} (h : ∀ l ∈ ls, Over P l) :
    Over P (sep.intercalate ls) := by
  induction ls with
  | nil => simp [List.intercalate]
  | cons l r ih =>
    obtain ⟨hl, hr⟩ := List.forall_mem_cons.mp h
    cases r with
    | nil => simpa [List.intercalate] using hl
    | cons k r => simpa [List.intercalate, hl, hs] using ih hr

end Text

/-! ## Texts cut along their marks -/

namespace Scan

theorem over_marks {t : Text} (h : Over P t) {s : State} {m : Mark} (hm : m ∈ marks t s) :
    P m.char := by
  apply h
  rw [← map_char_marks t s]
  exact List.mem_map_of_mem hm

theorem over_collapse (hspace : P ' ') {t : Text} (h : Over P t) : Over P (collapse t) := by
  have hfrom : ∀ (ms : List Mark) (last : Option Char), (∀ m ∈ ms, P m.char) →
      Over P (collapseFrom last ms) := by
    intro ms
    induction ms with
    | nil => exact fun _ _ => over_nil
    | cons m ms ih =>
      intro last hms
      obtain ⟨hm, hms⟩ := List.forall_mem_cons.mp hms
      unfold collapseFrom
      split
      · split
        · exact ih last hms
        · exact over_cons.mpr ⟨hspace, ih _ hms⟩
      · exact over_cons.mpr ⟨hm, ih _ hms⟩
  exact (hfrom _ _ fun m hm => over_marks h hm).trim

theorem over_splitTop {separators : List Char} {t x : Text} (h : Over P t)
    (hx : x ∈ splitTop separators t) : Over P x := by
  obtain ⟨p, hp, rfl⟩ := List.mem_map.mp (List.mem_filter.mp hx).1
  obtain ⟨ms, hms, rfl⟩ := List.mem_map.mp hp
  refine Over.trim fun c hc => ?_
  obtain ⟨m, hm, rfl⟩ := List.mem_map.mp hc
  have hmem : m ∈ (splitWhen (fun m => m.isTop && separators.contains m.char) (marks t)).flatten :=
    List.mem_flatten.mpr ⟨ms, hms, hm⟩
  rw [flatten_splitWhen] at hmem
  exact over_marks h (List.mem_filter.mp hmem).1

theorem over_aroundPair? {t before inside after : Text} {i : Nat} (h : Over P t)
    (ha : aroundPair? t i = some (before, inside, after)) :
    Over P before ∧ Over P inside ∧ Over P after := by
  obtain ⟨close, -, hp⟩ := Option.map_eq_some_iff.mp ha
  simp only [Prod.mk.injEq] at hp
  obtain ⟨rfl, rfl, rfl⟩ := hp
  exact ⟨h.take _, (h.drop _).take _, h.drop _⟩

end Scan

/-! ## Heads and parameters -/

theorem over_indentUnit (hp : Over P added) (cfg : Settings) : Over P cfg.indentUnit := by
  unfold Settings.indentUnit
  split
  · simpa using hp '\t' (by decide)
  · exact over_replicate (hp ' ' (by decide)) _

theorem over_padTo (hspace : P ' ') {t : Text} (h : Over P t) (width : Nat) :
    Over P (padTo width ' ' t) :=
  over_append.mpr ⟨h, over_replicate hspace _⟩

theorem over_openBrace (hp : Over P added) {t : Text} (h : Over P t) : Over P (openBrace t) := by
  have hspace := hp ' ' (by decide)
  have hbrace := hp '{' (by decide)
  unfold openBrace
  split
  · simpa using hbrace
  · split <;> simp [h, hspace, hbrace]

theorem over_afterBrace (hp : Over P added) {t : Text} (h : Over P t) : Over P (afterBrace t) := by
  unfold afterBrace
  split
  · exact over_nil
  · split
    · exact h
    · exact over_cons.mpr ⟨hp ' ' (by decide), h⟩

theorem NameColumn.over_cell (hp : Over P added) {name : Text} (h : Over P name) (col : NameColumn)
    (optional : Bool) : Over P (col.cell name optional) := by
  have hspace := hp ' ' (by decide)
  have hmark := hp '?' (by decide)
  refine over_append.mpr ⟨over_padTo hspace h _, ?_⟩
  split
  · split <;> simp [hspace, hmark]
  · exact over_nil

namespace MethodHead

theorem over_questionMark {t : Text} (h : Over P t) : Over P (questionMark t).2 := by
  have ht := h.trimLeft
  unfold questionMark
  split
  · next r hr =>
    rw [hr] at ht
    exact (over_cons.mp ht).2.trimLeft
  · exact ht

theorem over_generics? (hspace : P ' ') {t g r : Text} (h : Over P t)
    (hg : generics? t = some (g, r)) : Over P g ∧ Over P r := by
  unfold generics? at hg
  split at hg
  · obtain ⟨i, -, he⟩ := Option.map_eq_some_iff.mp hg
    simp only [Prod.mk.injEq] at he
    obtain ⟨rfl, rfl⟩ := he
    exact ⟨over_collapse hspace (h.take _), (h.drop _).trimLeft⟩
  · cases hg
    exact ⟨over_nil, h⟩

theorem over_read? (hp : Over P added) {t : Text} {m : MethodHead} (h : Over P t)
    (hr : read? t = some m) : Over P m.token ∧ Over P m.rest := by
  obtain ⟨⟨g, r⟩, hg, hr⟩ := Option.bind_eq_some_iff.mp hr
  have hname : Over P (t.takeWhile isNameChar) := h.of_subset (List.takeWhile_prefix _).subset
  have hrest : Over P (t.dropWhile isNameChar) := h.of_subset (List.dropWhile_suffix _).subset
  obtain ⟨hgen, hafter⟩ := over_generics? (hp ' ' (by decide)) (over_questionMark hrest) hg
  simp only [Option.ite_none_right_eq_some, Option.some.injEq] at hr
  obtain ⟨-, rfl⟩ := hr
  refine ⟨over_append.mpr ⟨over_append.mpr ⟨hname, ?_⟩, hgen⟩, hafter⟩
  split
  · simpa using hp '?' (by decide)
  · exact over_nil

end MethodHead

namespace Parameter

theorem over_read {t : Text} (h : Over P t) : Over P (read t).name ∧ Over P (read t).type := by
  unfold read
  split
  · exact ⟨h.trim, over_nil⟩
  · refine ⟨?_, (h.drop _).trim⟩
    simp only
    split
    · exact (h.take _).trim.dropLast.trim
    · exact (h.take _).trim

theorem over_objectTexts? {t before after : Text} {members : List Text} (h : Over P t)
    (ho : objectTexts? t = some (before, members, after)) :
    Over P before ∧ (∀ m ∈ members, Over P m) ∧ Over P after := by
  obtain ⟨i, -, ho⟩ := Option.bind_eq_some_iff.mp ho
  obtain ⟨⟨b, inside, a⟩, hpair, ho⟩ := Option.bind_eq_some_iff.mp ho
  obtain ⟨hb, hi, ha⟩ := over_aroundPair? h hpair
  simp only [Option.ite_none_left_eq_some, Option.some.injEq, Prod.mk.injEq] at ho
  obtain ⟨-, rfl, rfl, rfl⟩ := ho
  exact ⟨hb.trim, fun m hm => over_splitTop hi hm, ha.trim⟩

theorem over_lines (hp : Over P added) {p : Parameter} (hname : Over P p.name)
    (htype : Over P p.type) {col : NameColumn} {indent trailing : Text} (hi : Over P indent)
    (ht : Over P trailing) {object? : Text → Option (List Text)}
    (ho : ∀ start ls, Over P start → object? start = some ls → ∀ l ∈ ls, Over P l) :
    ∀ l ∈ p.lines col indent trailing object?, Over P l := by
  have hcell : Over P (indent ++ col.cell p.name p.optional) :=
    over_append.mpr ⟨hi, col.over_cell hp hname p.optional⟩
  have hstart : Over P (indent ++ col.cell p.name p.optional ++ [' ', ':', ' ']) :=
    over_append.mpr ⟨hcell, by simp [hp ' ' (by decide), hp ':' (by decide)]⟩
  unfold lines
  split
  · simpa [ht] using hcell.trimRight
  · cases hobj : object? (indent ++ col.cell p.name p.optional ++ [' ', ':', ' ']) with
    | none =>
      simp only [hobj, Option.getD_none, List.mem_singleton, forall_eq]
      exact over_append.mpr ⟨over_append.mpr ⟨hstart, htype⟩, ht⟩
    | some ls =>
      simp only [hobj, Option.getD_some]
      exact ho _ ls hstart hobj

theorem over_expandObject (hp : Over P added) {unit : Text} (hu : Over P unit) {room : Nat}
    {type head indent trailing : Text} {ls : List Text} (htype : Over P type) (hh : Over P head)
    (hi : Over P indent) (ht : Over P trailing)
    (he : expandObject unit room type head indent trailing = some ls) :
    ∀ l ∈ ls, Over P l := by
  induction room generalizing type head indent trailing ls with
  | zero => simp [expandObject] at he
  | succ room ih =>
    obtain ⟨⟨before, texts, after⟩, ho, rfl⟩ := Option.map_eq_some_iff.mp he
    obtain ⟨hbefore, htexts, hafter⟩ := over_objectTexts? htype ho
    have hinner : Over P (indent ++ unit) := over_append.mpr ⟨hi, hu⟩
    have hsemi : Over P [';'] := by simpa using hp ';' (by decide)
    intro l hl
    simp only [List.cons_append, List.mem_cons, List.mem_append, List.mem_flatMap, List.not_mem_nil,
      or_false] at hl
    rcases hl with rfl | ⟨p, hmem, hl⟩ | rfl
    · exact over_append.mpr ⟨hh, over_openBrace hp hbefore⟩
    · obtain ⟨t, ht, rfl⟩ := List.mem_map.mp hmem
      obtain ⟨hname, htype⟩ := over_read (htexts t ht)
      exact over_lines hp hname htype hinner hsemi
        (fun start ls hs hls => ih htype hs hinner hsemi hls) l hl
    · simp [hi, ht, hp '}' (by decide), over_afterBrace hp hafter]

theorem over_expandAll (hp : Over P added) {unit : Text} (hu : Over P unit) {room : Nat}
    {indent : Text} (hi : Over P indent) {ts : List Text} (h : ∀ t ∈ ts, Over P t) :
    ∀ l ∈ expandAll unit room indent (ts.map read), Over P l := by
  intro l hl
  obtain ⟨⟨p, i⟩, hx, hl⟩ := List.mem_flatMap.mp hl
  obtain ⟨t, ht, rfl⟩ := List.mem_map.mp (List.mem_of_getElem? (List.mem_zipIdx_iff_getElem?.mp hx))
  obtain ⟨hname, htype⟩ := over_read (h t ht)
  have hcomma : Over P (if i < (ts.map read).length - 1 then [','] else []) := by
    split
    · simpa using hp ',' (by decide)
    · exact over_nil
  exact over_lines hp hname htype hi hcomma
    (fun start ls hs hls => over_expandObject hp hu htype hs hi hcomma hls) l hl

end Parameter

/-! ## Signatures -/

theorem over_keepLines (hp : Over P added) (cfg : Settings) {indent first : Text} {ls : List Text}
    (hi : Over P indent) (hf : Over P first) (h : ∀ l ∈ ls, Over P l) :
    ∀ l ∈ keepLines cfg indent first ls, Over P l := by
  intro l hl
  rcases List.mem_cons.mp hl with rfl | hl
  · exact hf.trimRight
  · obtain ⟨k, hk, rfl⟩ := List.mem_map.mp hl
    have hmem := List.mem_of_mem_drop (List.mem_filter.mp hk).1
    exact over_append.mpr ⟨over_append.mpr ⟨hi, over_indentUnit hp cfg⟩, (h k hmem).trim⟩

namespace Signature

theorem over_read? (hp : Over P added) {ls : List Text} {sig : Signature} (h : ∀ l ∈ ls, Over P l)
    (hs : read? ls = some sig) :
    Over P sig.parameters ∧ Over P sig.result ∧ Over P sig.comment := by
  have hspace := hp ' ' (by decide)
  unfold read? at hs
  obtain ⟨last, hlast, hs⟩ := Option.bind_eq_some_iff.mp hs
  split at hs
  · simp at hs
  have hl : Over P last := h last (List.mem_of_getLast? hlast)
  have htext : ∀ n, Over P (collapse
      ([' '].intercalate (ls.dropLast.map trim ++ [trim (last.take n)]))) := by
    intro n
    refine over_collapse hspace ?_
    have hparts : ∀ x ∈ ls.dropLast.map trim ++ [trim (last.take n)], Over P x := by
      intro x hx
      rcases List.mem_append.mp hx with hx | hx
      · obtain ⟨l, hmem, rfl⟩ := List.mem_map.mp hx
        exact (h l (List.dropLast_subset ls hmem)).trim
      · rw [List.mem_singleton.mp hx]
        exact (hl.take n).trim
    exact over_intercalate (by simpa using hspace) hparts
  obtain ⟨head, hhead, hs⟩ := Option.bind_eq_some_iff.mp hs
  obtain ⟨⟨b, parameters, after⟩, hpair, hs⟩ := Option.bind_eq_some_iff.mp hs
  obtain ⟨-, hrest⟩ := MethodHead.over_read? hp (htext _) hhead
  obtain ⟨-, hparameters, hafter⟩ := over_aroundPair? hrest hpair
  have hresult := hafter.trim
  simp only at hs
  split at hs
  · next r hr =>
    rw [hr] at hresult
    have hwritten := (over_cons.mp hresult).2.trim
    simp only [Option.ite_none_left_eq_some, Option.some.injEq] at hs
    obtain ⟨-, rfl⟩ := hs
    refine ⟨hparameters, ?_, (hl.drop _).trim⟩
    simp only
    split
    · exact hwritten.dropLast.trimRight
    · exact hwritten
  · cases hs

theorem over_format (hp : Over P added) (cfg : Settings) {room : Nat} {indent head : Text}
    {ls : List Text} (hi : Over P indent) (hh : Over P head) (h : ∀ l ∈ ls, Over P l) :
    ∀ l ∈ format cfg room indent head ls, Over P l := by
  have hu := over_indentUnit hp cfg
  have hbody : ∀ l ∈ ls.filter (!isBlankLine ·), Over P l :=
    fun l hl => h l (List.mem_filter.mp hl).1
  have hkept := over_keepLines hp cfg hi (over_append.mpr ⟨hi, (over_headD hbody).trim⟩) hbody
  unfold format
  simp only
  split
  · exact hkept
  split
  · exact hkept
  · next sig hsig =>
    obtain ⟨hparameters, hresult, hcomment⟩ := over_read? hp hbody hsig
    have hcolon : Over P [')', ':', ' '] := by
      simp [hp ')' (by decide), hp ':' (by decide), hp ' ' (by decide)]
    intro l hl
    simp only [expand, List.cons_append, List.mem_cons, List.mem_append, List.not_mem_nil,
      or_false] at hl
    rcases hl with rfl | hl | rfl
    · simp [hi, hh, hp ' ' (by decide), hp '(' (by decide)]
    · exact Parameter.over_expandAll hp hu (over_append.mpr ⟨hi, hu⟩)
        (fun t ht => over_splitTop hparameters ht) l hl
    · refine over_append.mpr ⟨?_, ?_⟩
      · simp only [over_append]
        exact ⟨⟨⟨hi, hcolon⟩, hresult⟩, by simpa using hp ';' (by decide)⟩
      · split
        · exact over_nil
        · exact over_cons.mpr ⟨hp ' ' (by decide), hcomment⟩

end Signature

/-! ## Members -/

namespace FieldHead

theorem over_after? {lead t : Text} {f : FieldHead} (hl : Over P lead) (h : Over P t)
    (ha : after? lead t = some f) : Over P f.key ∧ Over P f.value := by
  obtain ⟨⟨n, r⟩, hn, ha⟩ := Option.bind_eq_some_iff.mp ha
  rw [name?_spec hn, over_append] at h
  have hafter := MethodHead.over_questionMark h.2
  simp only at ha
  split at ha
  · next r' hr =>
    rw [hr] at hafter
    obtain ⟨v, hv, rfl⟩ := Option.map_eq_some_iff.mp ha
    obtain ⟨rest, hvalue, -⟩ := value?_spec hv
    have htail := (over_cons.mp hafter).2
    rw [hvalue, over_append, over_append] at htail
    exact ⟨over_append.mpr ⟨hl, h.1⟩, htail.1.2⟩
  · cases ha

theorem over_read? {t : Text} {f : FieldHead} (h : Over P t) (hr : read? t = some f) :
    Over P f.key ∧ Over P f.value := by
  simp only [read?, Option.orElse_eq_orElse, Option.orElse_eq_or, Option.or_eq_some_iff] at hr
  rcases hr with hr | ⟨-, hr⟩
  · obtain ⟨⟨lead, rest⟩, hlead, ha⟩ := Option.bind_eq_some_iff.mp hr
    rw [readonly?_spec hlead, over_append] at h
    exact over_after? h.1 h.2 ha
  · exact over_after? over_nil h hr

end FieldHead

namespace Member

theorem over_terminate (hp : Over P added) {t : Text} (h : Over P t) : Over P (terminate t) := by
  have hsemi := hp ';' (by decide)
  unfold terminate
  simp only
  split
  · exact h
  split
  · exact h
  split
  · exact h
  split
  · simp [h, hsemi]
  · simp [(h.take _).trimRight, h.drop, hsemi, hp ' ' (by decide)]

end Member

namespace ObjectSpan

structure Over (P : Char → Prop) (o : ObjectSpan) : Prop where
  before : Text.Over P o.before
  afterOpen : Text.Over P o.afterOpen
  middle : ∀ l ∈ o.middle, Text.Over P l
  beforeClose : Text.Over P o.beforeClose
  closing : Text.Over P o.closing

theorem over_read? {ls : List Text} {o : ObjectSpan} (h : ∀ l ∈ ls, Text.Over P l)
    (hr : read? ls = some o) : o.Over P := by
  obtain ⟨first, hfirst, hr⟩ := Option.bind_eq_some_iff.mp hr
  obtain ⟨last, hlast, hr⟩ := Option.bind_eq_some_iff.mp hr
  obtain ⟨⟨opener, depth⟩, -, hr⟩ := Option.bind_eq_some_iff.mp hr
  obtain ⟨s, -, hr⟩ := Option.bind_eq_some_iff.mp hr
  obtain ⟨closer, -, hr⟩ := Option.bind_eq_some_iff.mp hr
  cases hr
  have hf : Text.Over P (trim first) := (h first (List.mem_of_mem_head? hfirst)).trim
  have hl : Text.Over P (trim last) :=
    (h last (List.mem_of_mem_tail (List.mem_of_getLast? hlast))).trim
  exact {
    before := hf.take _
    afterOpen := (hf.drop _).trim
    middle := fun l hmem => h l (List.mem_of_mem_tail (List.dropLast_subset _ hmem))
    beforeClose := (hl.take _).trim
    closing := (hl.drop _).trim }

theorem over_loose (hp : Text.Over P added) {indent t : Text} (hi : Text.Over P indent)
    (h : Text.Over P t) : ∀ l ∈ loose indent t, Text.Over P l := by
  unfold loose
  split
  · simp
  · simpa using ⟨hi, Member.over_terminate hp h⟩

theorem over_content (hp : Text.Over P added) {o : ObjectSpan} (ho : o.Over P) {indent : Text}
    (hi : Text.Over P indent) : ∀ l ∈ o.content indent, Text.Over P l := by
  intro l hl
  rcases List.mem_append.mp hl with hl | hl
  · rcases List.mem_append.mp hl with hl | hl
    · exact over_loose hp hi ho.afterOpen l hl
    · exact ho.middle l hl
  · exact over_loose hp hi ho.beforeClose l hl

end ObjectSpan

namespace Member

theorem over_onLine (hspace : P ' ') {t : Text} (h : Over P t) : ∀ l ∈ onLine t, Over P l := by
  have hpieces : ∀ x ∈ (semicolonPieces t).map trim, Over P x := by
    intro x hx
    obtain ⟨p, hmem, rfl⟩ := List.mem_map.mp hx
    refine Over.trim fun c hc => ?_
    apply h
    rw [← map_char_marks t {}, ← flatten_pieces]
    exact List.mem_flatten.mpr ⟨p, hmem, hc⟩
  unfold onLine
  intro l hl
  have hl := (List.mem_filter.mp hl).1
  generalize (semicolonPieces t).map trim = pieces at hpieces hl
  have hclosed : ∀ x ∈ pieces.dropLast, Over P x :=
    fun x hx => hpieces x (List.dropLast_subset _ hx)
  have hrest : Over P (pieces.getLast?.getD []) := by
    cases hlast : pieces.getLast? with
    | none => exact over_nil
    | some x => exact hpieces x (List.mem_of_getLast? hlast)
  split at hl
  · exact hclosed l hl
  split at hl
  · split at hl
    · next x hx =>
      rcases List.mem_append.mp hl with hl | hl
      · exact hclosed l (List.dropLast_subset _ hl)
      · rw [List.mem_singleton.mp hl]
        simp [hclosed x (List.mem_of_getLast? hx), hspace, hrest]
    · rwa [List.mem_singleton.mp hl]
  · rcases List.mem_append.mp hl with hl | hl
    · exact hclosed l hl
    · rwa [List.mem_singleton.mp hl]

theorem over_expandLines (hspace : P ' ') {ls : List Text} (h : ∀ l ∈ ls, Over P l) :
    ∀ l ∈ expandLines ls, Over P l := by
  have hline : ∀ carried l, Over P l → ∀ x ∈ expandLine carried l, Over P x := by
    intro carried l hl
    unfold expandLine
    simp only
    split
    · simpa using hl
    split
    · simpa using hl
    · intro x hx
      obtain ⟨p, hmem, rfl⟩ := List.mem_map.mp hx
      exact over_append.mpr ⟨hl.indentOf, over_onLine hspace hl.trim p hmem⟩
  have hfrom : ∀ s, ∀ l ∈ expandFrom s ls, Over P l := by
    induction ls with
    | nil => simp [expandFrom]
    | cons k r ih =>
      obtain ⟨hk, hr⟩ := List.forall_mem_cons.mp h
      intro s l hl
      rcases List.mem_append.mp hl with hl | hl
      · exact hline _ k hk l hl
      · exact ih hr _ l hl
  exact hfrom {}

theorem mem_of_mem_delimitFrom {s : State} {current ls m : List Text}
    (hm : m ∈ delimitFrom s current ls) : ∀ l ∈ m, l ∈ current ∨ l ∈ ls := by
  induction ls generalizing s current with
  | nil =>
    unfold delimitFrom at hm
    split at hm
    · simp at hm
    · rw [List.mem_singleton.mp hm]
      exact fun l hl => .inl (List.mem_reverse.mp hl)
  | cons k r ih =>
    intro l hl
    unfold delimitFrom at hm
    split at hm
    · exact (ih hm l hl).imp_right (List.mem_cons_of_mem _)
    · simp only at hm
      split at hm
      · rcases List.mem_cons.mp hm with rfl | hm
        · rw [List.mem_reverse] at hl
          rcases List.mem_cons.mp hl with rfl | hl
          · exact .inr List.mem_cons_self
          · exact .inl hl
        · rcases ih hm l hl with hl | hl
          · simp at hl
          · exact .inr (List.mem_cons_of_mem _ hl)
      · rcases ih hm l hl with hl | hl
        · rcases List.mem_cons.mp hl with rfl | hl
          · exact .inr List.mem_cons_self
          · exact .inl hl
        · exact .inr (List.mem_cons_of_mem _ hl)

end Member

theorem Block.over_members (hspace : P ' ') {ls : List Text} (h : ∀ l ∈ ls, Over P l) {m : Member}
    (hm : m ∈ Block.members ls) : m.kind = Member.kindOf m.lines ∧ ∀ l ∈ m.lines, Over P l := by
  obtain ⟨k, hk, rfl⟩ := List.mem_map.mp hm
  refine ⟨rfl, fun l hl => ?_⟩
  rcases Member.mem_of_mem_delimitFrom hk l hl with hl | hl
  · simp at hl
  · exact Member.over_expandLines hspace h l hl

namespace Member

theorem over_commentLines (hspace : P ' ') {indent : Text} (hi : Over P indent) {ls : List Text}
    (h : ∀ l ∈ ls, Over P l) : ∀ l ∈ commentLines indent ls, Over P l := by
  intro l hl
  obtain ⟨⟨k, i⟩, hx, rfl⟩ := List.mem_map.mp hl
  have hk :=
    (h k (List.mem_of_getElem? (List.mem_zipIdx_iff_getElem?.mp (List.mem_filter.mp hx).1))).trim
  unfold commentLine
  simp only
  split <;> simp [hi, hk, hspace]

theorem over_plainLines {indent : Text} (hi : Over P indent) {ls : List Text}
    (h : ∀ l ∈ ls, Over P l) : ∀ l ∈ plainLines indent ls, Over P l := by
  intro l hl
  obtain ⟨k, hk, rfl⟩ := List.mem_map.mp hl
  exact over_append.mpr ⟨hi, (h k (List.mem_filter.mp hk).1).trim⟩

theorem over_fieldLines (hp : Over P added) (cfg : Settings) {inner : Text → List Text → List Text}
    {indent : Text} (hi : Over P indent) {col : NameColumn} {head : FieldHead}
    (hkey : Over P head.key) (hvalue : Over P head.value) {ls : List Text} (h : ∀ l ∈ ls, Over P l)
    (hinner : ∀ ls, (∀ l ∈ ls, Over P l) → ∀ l ∈ inner indent ls, Over P l) :
    ∀ l ∈ fieldLines cfg inner indent col head ls, Over P l := by
  have hspace := hp ' ' (by decide)
  have hlabel : Over P (indent ++ col.cell head.key head.optional ++ [' ', ':']) := by
    simp [hi, col.over_cell hp hkey head.optional, hspace, hp ':' (by decide)]
  have hfirst : Over P (indent ++ col.cell head.key head.optional ++ [' ', ':'] ++ ' ' ::
      head.value) :=
    over_append.mpr ⟨hlabel, over_cons.mpr ⟨hspace, hvalue⟩⟩
  have hbody : ∀ l ∈ ls.filter (!isBlankLine ·), Over P l :=
    fun l hl => h l (List.mem_filter.mp hl).1
  unfold fieldLines
  simp only
  split
  · simpa using hfirst.trimRight
  · unfold nestedField?
    cases hn : nestedSpan? head (ls.filter (!isBlankLine ·)) with
    | none => exact over_keepLines hp cfg hi hfirst hbody
    | some x =>
      obtain ⟨before, span⟩ := x
      obtain ⟨o, ho, hn⟩ := Option.bind_eq_some_iff.mp hn
      have hspan := ObjectSpan.over_read? hbody ho
      simp only [Option.ite_none_left_eq_some, Option.some.injEq, Prod.mk.injEq] at hn
      obtain ⟨-, rfl, rfl⟩ := hn
      intro l hl
      simp only [Option.map_some, Option.getD_some, List.cons_append, List.mem_cons,
        List.mem_append, List.not_mem_nil, or_false] at hl
      rcases hl with rfl | hl | rfl
      · refine over_append.mpr ⟨over_append.mpr ⟨hlabel, ?_⟩, by simpa using hp '{' (by decide)⟩
        exact over_cons.mpr ⟨hspace, (hspan.before.drop _).trim⟩
      · refine hinner _ (ObjectSpan.over_content hp hspan ?_) l hl
        exact over_append.mpr ⟨hi, over_indentUnit hp cfg⟩
      · exact over_append.mpr ⟨hi, hspan.closing⟩

theorem over_setOff {done : List Text} (h : ∀ l ∈ done, Over P l) :
    ∀ l ∈ setOff done, Over P l := by
  unfold setOff
  split
  · simp
  · split
    · exact h
    · intro l hl
      rcases List.mem_append.mp hl with hl | hl
      · exact h l hl
      · rw [List.mem_singleton.mp hl]
        exact over_nil

def Layout.Over (P : Char → Prop) (out : Layout) : Prop :=
  ∀ l ∈ out.done ++ out.comments, Text.Over P l

theorem over_place (hp : Over P added) (cfg : Settings) {room : Nat}
    {inner : Text → List Text → List Text} {indent : Text} (hi : Over P indent) {col : NameColumn}
    (hinner : ∀ ls, (∀ l ∈ ls, Over P l) → ∀ l ∈ inner indent ls, Over P l) {m : Member}
    (hk : m.kind = kindOf m.lines) (hm : ∀ l ∈ m.lines, Over P l) {out : Layout}
    (hout : out.Over P) : (place cfg room inner indent col out m).Over P := by
  have hspace := hp ' ' (by decide)
  obtain ⟨hdone, hcomments⟩ := List.forall_mem_append.mp hout
  have hfirst : Over P (trim (m.lines.headD [])) := (over_headD hm).trim
  unfold place Layout.Over
  cases hkind : m.kind with
  | comment =>
    simp only [List.forall_mem_append]
    exact ⟨hdone, hcomments, over_commentLines hspace hi hm⟩
  | method head =>
    obtain ⟨htoken, -⟩ := MethodHead.over_read? hp hfirst (kindOf_method (hk ▸ hkind))
    simp only [List.append_nil, List.forall_mem_append]
    exact ⟨⟨over_setOff hdone, hcomments⟩,
      Signature.over_format hp cfg hi (over_padTo hspace htoken _) hm⟩
  | field head =>
    obtain ⟨k, hread, rfl⟩ := kindOf_field (hk ▸ hkind)
    obtain ⟨hkey, hvalue⟩ := FieldHead.over_read? hfirst hread
    have hfield : ∀ l ∈ fieldLines cfg inner indent col { k with value := trim k.value } m.lines,
        Over P l :=
      @over_fieldLines P hp cfg inner indent hi col { k with value := trim k.value } hkey
        hvalue.trim m.lines hm hinner
    simp only [List.append_nil, List.forall_mem_append]
    exact ⟨⟨hdone, hcomments⟩, hfield⟩
  | unknown =>
    simp only [List.append_nil, List.forall_mem_append]
    exact ⟨⟨hdone, hcomments⟩, over_plainLines hi hm⟩

end Member

namespace Block

theorem over_format (hp : Over P added) {cfg : Settings} {room : Nat} {base : Text} {ls : List Text}
    (hb : Over P base) (h : ∀ l ∈ ls, Over P l) : ∀ l ∈ format cfg room base ls, Over P l := by
  have hspace := hp ' ' (by decide)
  induction room generalizing base ls with
  | zero => exact Member.over_plainLines (over_append.mpr ⟨hb, over_indentUnit hp cfg⟩) h
  | succ room ih =>
    have hi : Over P (base ++ cfg.indentUnit) := over_append.mpr ⟨hb, over_indentUnit hp cfg⟩
    have hfold : ∀ (ms : List Member) (out : Member.Layout), (∀ m ∈ ms, m ∈ members ls) →
      out.Over P →
        (ms.foldl (Member.place cfg room (format cfg room) (base ++ cfg.indentUnit)
          (Member.column (members ls))) out).Over P := by
      intro ms
      induction ms with
      | nil => exact fun out _ hout => hout
      | cons m ms ihms =>
        intro out hms hout
        obtain ⟨hm, hms⟩ := List.forall_mem_cons.mp hms
        obtain ⟨hk, hlines⟩ := over_members hspace h hm
        exact ihms _ hms (Member.over_place hp cfg hi (fun _ => ih hi) hk hlines hout)
    exact hfold (members ls) {} (fun m hm => hm) (by simp [Member.Layout.Over])

theorem over_braceParts? {t before content after : Text} {opener : Nat} (h : Over P t)
    (hb : braceParts? t opener = some (before, content, after)) :
    Over P before ∧ Over P content ∧ Over P after := by
  obtain ⟨⟨b, inside, a⟩, hpair, hb⟩ := Option.bind_eq_some_iff.mp hb
  obtain ⟨hbefore, hinside, hafter⟩ := over_aroundPair? h hpair
  simp only [Option.ite_none_left_eq_some, Option.some.injEq, Prod.mk.injEq] at hb
  obtain ⟨-, rfl, rfl, rfl⟩ := hb
  exact ⟨hbefore, hinside.trim, hafter.trim⟩

theorem over_formatOneLine (hp : Over P added) {cfg : Settings} {room : Nat} {base line : Text}
    (hb : Over P base) (h : Over P line) : ∀ l ∈ formatOneLine cfg room base line, Over P l := by
  unfold formatOneLine
  split
  · simpa using h
  · next before content after hparts =>
    obtain ⟨i, -, hparts⟩ := Option.bind_eq_some_iff.mp hparts
    obtain ⟨hbefore, hcontent, hafter⟩ := over_braceParts? h hparts
    intro l hl
    simp only [List.cons_append, List.mem_cons, List.mem_append, List.not_mem_nil, or_false] at hl
    rcases hl with rfl | hl | rfl
    · exact (over_append.mpr ⟨hbefore, by simpa using hp '{' (by decide)⟩).trimRight
    · refine over_format hp hb (List.forall_mem_singleton.mpr ?_) l hl
      simp only [over_append]
      exact ⟨⟨hb, over_indentUnit hp cfg⟩, Member.over_terminate hp hcontent⟩
    · simp [hb, hp '}' (by decide), over_afterBrace hp hafter]

end Block

/-! ## Declarations -/

namespace Union

theorem mem_of_mem_membersFrom {s : State} {current ls m : List Text}
    (hm : m ∈ membersFrom s current ls) : ∀ l ∈ m, l ∈ current ∨ l ∈ ls := by
  have hcurrent : ∀ {current m : List Text},
    m ∈ (if current.isEmpty then [] else [current.reverse]) →
      ∀ l ∈ m, l ∈ current := by
    intro current m hm
    split at hm
    · simp at hm
    · rw [List.mem_singleton.mp hm]
      exact fun l hl => List.mem_reverse.mp hl
  induction ls generalizing s current with
  | nil => exact fun l hl => .inl (hcurrent hm l hl)
  | cons k r ih =>
    intro l hl
    unfold membersFrom at hm
    simp only at hm
    split at hm
    · exact (ih hm l hl).imp_right (List.mem_cons_of_mem _)
    split at hm
    · rcases List.mem_append.mp hm with hm | hm
      · exact .inl (hcurrent hm l hl)
      · refine .inr ?_
        rcases ih hm l hl with hl | hl
        · rw [List.mem_singleton.mp hl]
          exact List.mem_cons_self
        · exact List.mem_cons_of_mem _ hl
    · rcases ih hm l hl with hl | hl
      · rcases List.mem_cons.mp hl with rfl | hl
        · exact .inr List.mem_cons_self
        · exact .inl hl
      · exact .inr (List.mem_cons_of_mem _ hl)

theorem over_object? (hp : Over P added) {deeper : Text} (hd : Over P deeper)
    {ls content : List Text} {before closing : Text} (h : ∀ l ∈ ls, Over P l)
    (ho : object? deeper ls = some (before, content, closing)) :
    Over P before ∧ (∀ l ∈ content, Over P l) ∧ Over P closing := by
  unfold object? at ho
  split at ho
  · obtain ⟨⟨b, c, a⟩, hparts, ho⟩ := Option.map_eq_some_iff.mp ho
    obtain ⟨i, -, hparts⟩ := Option.bind_eq_some_iff.mp hparts
    obtain ⟨hb, hc, ha⟩ := Block.over_braceParts? (over_headD h).trim hparts
    simp only [Prod.mk.injEq] at ho
    obtain ⟨rfl, rfl, rfl⟩ := ho
    refine ⟨hb, ?_, over_cons.mpr ⟨hp '}' (by decide), over_afterBrace hp ha⟩⟩
    simpa using ⟨hd, Member.over_terminate hp hc⟩
  · obtain ⟨span, hs, ho⟩ := Option.map_eq_some_iff.mp ho
    have hspan := ObjectSpan.over_read? h hs
    simp only [Prod.mk.injEq] at ho
    obtain ⟨rfl, rfl, rfl⟩ := ho
    exact ⟨hspan.before, ObjectSpan.over_content hp hspan hd, hspan.closing⟩

theorem over_memberLines (hp : Over P added) {cfg : Settings} {room : Nat} {indent : Text}
    {ls : List Text} (hi : Over P indent) (h : ∀ l ∈ ls, Over P l) :
    ∀ l ∈ memberLines cfg room indent ls, Over P l := by
  have hfirst : Over P (indent ++ trim (ls.headD [])) := over_append.mpr ⟨hi, (over_headD h).trim⟩
  unfold memberLines
  simp only
  split
  · next before content closing ho =>
    simp only [Option.ite_none_right_eq_some] at ho
    obtain ⟨hbefore, hcontent, hclosing⟩ :=
      over_object? hp (over_append.mpr ⟨hi, over_indentUnit hp cfg⟩) h ho.2
    intro l hl
    simp only [List.cons_append, List.mem_cons, List.mem_append, List.not_mem_nil, or_false] at hl
    rcases hl with rfl | hl | rfl
    · exact over_append.mpr ⟨hi, over_openBrace hp hbefore.trim⟩
    · exact Block.over_format hp hi hcontent l hl
    · exact over_append.mpr ⟨hi, hclosing⟩
  · split
    · simpa only [List.mem_singleton, forall_eq] using hfirst
    · exact over_keepLines hp cfg hi hfirst h

theorem over_cut? {base : Text} {ls head rest : List Text} (hb : Over P base)
    (h : ∀ l ∈ ls, Over P l) (hcut : cut? base ls = some (head, rest)) :
    (∀ l ∈ head, Over P l) ∧ ∀ l ∈ rest, Over P l := by
  obtain ⟨⟨before, line, i, after⟩, ha, hcut⟩ := Option.map_eq_some_iff.mp hcut
  rw [(assignmentLine?_spec ha).1, List.forall_mem_append, List.forall_mem_cons] at h
  obtain ⟨hbefore, hline, hafter⟩ := h
  simp only at hcut
  split at hcut
  · simp only [Prod.mk.injEq] at hcut
    obtain ⟨rfl, rfl⟩ := hcut
    simp only [List.forall_mem_append, List.forall_mem_cons, over_append]
    exact ⟨⟨hbefore, (hline.take _).trimRight, by simp⟩, ⟨hb, (hline.drop _).trim⟩, hafter⟩
  · simp only [Prod.mk.injEq] at hcut
    obtain ⟨rfl, rfl⟩ := hcut
    simp only [List.forall_mem_append, List.forall_mem_cons]
    exact ⟨⟨hbefore, hline.trimRight, by simp⟩, hafter⟩

theorem over_members {ls m : List Text} (h : ∀ l ∈ ls, Over P l) (hm : m ∈ members ls) :
    ∀ l ∈ m, Over P l := by
  intro l hl
  rcases mem_of_mem_membersFrom hm l hl with hl | hl
  · simp at hl
  · exact h l hl

theorem over_format (hp : Over P added) {cfg : Settings} {room : Nat} {base : Text} {ls : List Text}
    (hb : Over P base) (h : ∀ l ∈ ls, Over P l) : ∀ l ∈ format cfg room base ls, Over P l := by
  unfold format
  split
  · exact h
  · next head rest hcut =>
    obtain ⟨hhead, hrest⟩ := over_cut? hb h hcut
    intro l hl
    rcases List.mem_append.mp hl with hl | hl
    · exact hhead l hl
    · obtain ⟨m, hm, hl⟩ := List.mem_flatMap.mp hl
      exact over_memberLines hp (over_append.mpr ⟨hb, over_indentUnit hp cfg⟩)
        (over_members hrest hm) l hl

end Union

theorem Declaration.over_bodySpan {ls : List Text} (h : ∀ l ∈ ls, Over P l) (row col close : Nat) :
    (Declaration.bodySpan ls row col close).Over P := by
  have hrow := over_getD h row
  have hlast : Over P (ls.getLast?.getD []) := by
    cases hlast : ls.getLast? with
    | none => exact over_nil
    | some l => exact h l (List.mem_of_getLast? hlast)
  exact {
    before := hrow.take _
    afterOpen := (hrow.drop _).trim
    middle := fun l hl => h l (List.mem_of_mem_drop (List.dropLast_subset _ hl))
    beforeClose := (hlast.take _).trim
    closing := (hlast.drop _).trim }

/-- Laying out a declaration brings in no characters but those it adds. -/
theorem Declaration.over_format (hp : Over P added) (cfg : Settings) {ls : List Text}
    (h : ∀ l ∈ ls, Over P l) : ∀ l ∈ Declaration.format cfg ls, Over P l := by
  have hb : Over P (indentOf (ls.headD [])) := (over_headD h).indentOf
  have htake : ∀ n, ∀ l ∈ ls.take n, Over P l := fun n l hl => h l (List.mem_of_mem_take hl)
  unfold Declaration.format
  cases hs : Declaration.shape ls with
  | union => exact Union.over_format hp hb h
  | plain => exact h
  | unclosed => exact h
  | oneLine row =>
    intro l hl
    rcases List.mem_append.mp hl with hl | hl
    · exact htake row l hl
    · exact Block.over_formatOneLine hp hb (over_getD h row) l hl
  | body row col close =>
    have hspan := Declaration.over_bodySpan h row col close
    intro l hl
    simp only [Declaration.formatBody, List.mem_cons, List.mem_append, List.not_mem_nil,
      or_false] at hl
    rcases hl with (hl | rfl | hl) | rfl
    · exact htake row l hl
    · exact (over_append.mpr ⟨hspan.before, by simpa using hp '{' (by decide)⟩).trimRight
    · refine Block.over_format hp hb (ObjectSpan.over_content hp hspan ?_) l hl
      exact over_append.mpr ⟨hb, over_indentUnit hp cfg⟩
    · exact over_append.mpr ⟨hb, hspan.closing⟩

end SourceLayout
