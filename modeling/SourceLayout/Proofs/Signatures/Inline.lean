import SourceLayout.Proofs.Signatures.Essence
import SourceLayout.Proofs.Signatures.Flat

/-! Object types on one line. The text that the lines of a written-out type collapse to is a segment
like the type itself, has the same essence and the same separators outside brackets, and is written
out in the same lines. -/

namespace SourceLayout
open Text Scan

namespace Parameter

/-- No member that is written out for a type has a colon without a type behind it. -/
def TypedIn : Nat → Text → Prop
  | 0, _ => True
  | room + 1, type =>
    ∀ before members after, objectTexts? type = some (before, members, after) → Typed room members

theorem Typed.typedIn {room : Nat} {ts : List Text} (h : Typed room ts) {t : Text} (ht : t ∈ ts) :
    TypedIn room (read t).type := by
  cases room with
  | zero => trivial
  | succ room => exact fun _ _ _ hobj => h.inner ht hobj

/-- A type with the object types that are written out on one line. -/
def flatType : Nat → Text → Text
  | 0, type => type
  | room + 1, type =>
    match objectTexts? type with
    | none => type
    | some (before, texts, after) =>
      openBrace before ++ texts.flatMap
        (fun m => ' ' :: ((read m).flat (flatType room (read m).type) ++ [';'])) ++ ' ' :: '}' ::
        afterBrace after

def inline (room : Nat) (t : Text) : Text := (read t).flat (flatType room (read t).type)

theorem openBrace_pad (t : Text) :
    ∃ pad, isBlankLine pad = true ∧ openBrace t = (t ++ pad) ++ ['{'] := by
  unfold openBrace
  split
  · next h => exact ⟨[], rfl, by rw [List.getLast?_eq_none_iff.mp h]; rfl⟩
  · split
    · exact ⟨[], rfl, by simp⟩
    · exact ⟨[' '], rfl, by simp⟩

theorem afterBrace_pad (t : Text) : ∃ pad, isBlankLine pad = true ∧ afterBrace t = pad ++ t := by
  unfold afterBrace
  split
  · next h => exact ⟨[], rfl, by rw [List.head?_eq_none_iff.mp h]; rfl⟩
  · split
    · exact ⟨[], rfl, rfl⟩
    · exact ⟨[' '], rfl, rfl⟩

theorem chunk_openBrace {t : Text} (h : Scan.Clean t) (hc : Compact t) : Chunk (openBrace t) := by
  have hbrace : Chunk ['{'] := .signs (by decide) (by simp)
  unfold openBrace
  split
  · exact hbrace
  · next hlast =>
    have hchunk : Chunk t := ⟨h, hc, by rintro rfl; cases hlast⟩
    split
    · exact hchunk.append_signs (by decide)
    · exact hchunk.gap hbrace

theorem chunk_afterBrace {t : Text} (h : Scan.Clean t) (hc : Compact t) :
    Chunk ('}' :: afterBrace t) := by
  have hbrace : Chunk ['}'] := .signs (by decide) (by simp)
  unfold afterBrace
  split
  · exact hbrace
  · next hhead =>
    have hchunk : Chunk t := ⟨h, hc, by rintro rfl; cases hhead⟩
    split
    · exact hbrace.append hchunk (.inert_left (by decide) t)
    · exact hbrace.gap hchunk

structure Keeps (type flat : Text) : Prop where
  segment : Segment flat
  nil : flat = [] ↔ type = []
  lacks : ∀ cs, Lacks cs (word type) → Lacks cs (word flat)
  essence : essence flat = essence type

theorem Keeps.refl {type : Text} (h : Segment type) : Keeps type type :=
  ⟨h, Iff.rfl, fun _ => id, rfl⟩

/-- A member on one line is a piece again, with the essence of the member. -/
theorem piece_flat {separators : List Char} {t type : Text} (h : Piece separators t)
    (ht : lacksType t = false) (hk : Keeps (read t).type type) :
    Piece separators ((read t).flat type) ∧ Scan.essence ((read t).flat type) = Scan.essence t ∧
      read ((read t).flat type) = { read t with type := type } := by
  obtain ⟨hp, hword⟩ := fits_read h.toSegment h.ne_nil ht
  have hflat := hp.word_flat type
  have hnil : (read t).type = [] → type = [] := hk.nil.mpr
  have hchunk : Chunk ((read t).flat type) := by
    unfold flat
    split
    · next hempty => exact hp.name.chunk (hp.bare (List.isEmpty_iff.mp hempty)).2
    · next hne =>
      exact hp.chunk_label (hk.segment.chunk fun h => hne (List.isEmpty_iff.mpr (hk.nil.mp h)))
  refine ⟨?_, ?_, hp.read_flat hk.segment hnil⟩
  · refine { hchunk.compact with
      clean := hchunk.clean, balanced := hflat ▸ hp.balanced hk.segment.balanced, ne_nil :=
        hchunk.ne_nil, lacks := ?_ }
    rw [hflat]
    exact hp.lacks_of hp.type.balanced hk.segment.balanced (hk.lacks separators) (hword ▸ h.lacks)
  · have hessence (w : List (Char × Kind)) :
        essenceFrom {} ((read t).wordWith w) = essenceFrom {} (word (read t).name) ++
          ((if (read t).optional then [('?', .code)] else []) ++
            if (read t).type.isEmpty then [] else (':', .code) :: essenceFrom {} w) := by
      unfold wordWith
      have hcolon : essenceFrom {} ((':', .code) :: w) = (':', .code) :: essenceFrom {} w :=
        balanced_nil.essence_join isSign_colon w
      cases (read t).optional <;> cases (read t).type.isEmpty
        <;> simp only [↓reduceIte, Bool.false_eq_true, List.nil_append, List.append_nil,
          List.singleton_append]
      · exact hp.name.balanced.essence_join isSign_colon w
      · rw [hp.name.balanced.essence_join isSign_question, hcolon]
      · exact hp.name.balanced.essence_join isSign_question []
    rw [Scan.essence, Scan.essence, hflat, hword, hessence, hessence]
    exact congrArg (fun e => _ ++ (_ ++ if (read t).type.isEmpty then [] else (':', .code) :: e))
      hk.essence

/-! ## Object types -/

def braces (before : Text) (texts : List Text) (after : Text) : Text :=
  openBrace before ++ texts.flatMap (fun m => ' ' :: (m ++ [';'])) ++ ' ' :: '}' :: afterBrace after

theorem chunk_braces {before after : Text} {texts : List Text}
    (hb : Scan.Clean before ∧ Compact before) (ha : Scan.Clean after ∧ Compact after)
    (h : ∀ m ∈ texts, Piece [';', ','] m) : Chunk (braces before texts after) := by
  have hrow : texts.flatMap (fun m => ' ' :: (m ++ [';'])) =
      (texts.map (· ++ [';'])).flatMap (' ' :: ·) := by
    rw [List.flatMap_map]
  have hchunks : ∀ x ∈ texts.map (· ++ [';']), Chunk x := by
    rw [List.forall_mem_map]
    intro m hm
    exact ((h m hm).chunk (h m hm).ne_nil).append_signs (by decide)
  rw [braces, hrow]
  exact ((chunk_openBrace hb.1 hb.2).gaps hchunks).gap (chunk_afterBrace ha.1 ha.2)

/-- The members of an object type may be replaced by others of the same essence. -/
theorem keeps_braces {type before inside after : Text} (h : Segment type)
    (ho : Object type before inside after) {texts : List Text} (hne : texts ≠ [])
    (hpieces : ∀ m ∈ texts, Piece [';', ','] m)
    (hessence : texts.flatMap essence = (splitTop [';', ','] inside).flatMap essence) :
    Keeps type (braces before texts after) ∧
      objectTexts? (braces before texts after) = some (before, texts, after) := by
  obtain ⟨pad, hpad, hopen⟩ := openBrace_pad before
  obtain ⟨pad', hpad', hclose⟩ := afterBrace_pad after
  have hchunk := chunk_braces ho.before ho.after hpieces
  have hclean := fun m hm => (hpieces m hm).clean
  -- what now stands between the braces
  generalize hrow : texts.flatMap (fun m => ' ' :: (m ++ [';'])) ++ [' '] = row
  have hsealed : Sealed row := by
    rw [← hrow]
    refine ⟨clean_row (by decide) hclean (clean_inert (by decide)), ?_⟩
    rw [word_row (by decide) rfl hclean, word_blank rfl]
    have hwords : ∀ w ∈ texts.map word, Balanced w :=
      List.forall_mem_map.mpr fun m hm => (hpieces m hm).balanced
    have hbalanced := balanced_row (isSign_of_stop (c := ';') rfl).1 hwords balanced_nil
    rwa [List.flatMap_map] at hbalanced
  have hsplit : splitTop [';', ','] row = texts := by
    rw [← hrow]
    exact splitTop_joined stops_members List.mem_cons_self fun m hm =>
      (hpieces m hm).ended stops_members List.mem_cons_self
  have hflat : braces before texts after = (before ++ pad) ++ '{' ::
      (row ++ '}' :: (pad' ++ after)) := by
    rw [braces, hopen, hclose, ← hrow]
    simp
  have hfront : Scan.Clean (before ++ pad) := (ho.before.1.append_inert (inert_blank hpad)).1
  have hwordFront : word (before ++ pad) = word before := ho.before.1.word_append_blank hpad
  have hword : word (braces before texts after) =
      word before ++ ('{', .code) :: (word row ++ ('}', .code) :: word after) := by
    rw [hflat, hfront.word_sign (by decide) rfl, hwordFront,
      hsealed.clean.word_sign (by decide) rfl, word_blank_append hpad']
  have hnests := h.balanced.nests
  rw [ho.reads] at hnests
  obtain ⟨d, ms, hframe⟩ := nestsWord_frame rfl (by decide) ho.inside.balanced hnests
  obtain ⟨hnests', hend, -⟩ := hframe (word row) hsealed.balanced
  refine ⟨⟨{ hchunk.compact with clean := hchunk.clean, balanced := ⟨?_, ?_⟩ }, ?_, fun cs hl => ?_,
    ?_⟩, ?_⟩
  · rw [hword]
    exact hnests'
  · rw [hword, hend, ← ho.reads]
    exact h.balanced.closed
  · refine iff_of_false hchunk.ne_nil fun hnil => ?_
    have hreads := ho.reads
    rw [hnil] at hreads
    have hlength := congrArg List.length hreads
    simp [word, tags, marks, marksFrom] at hlength
  · rw [ho.reads] at hl
    rw [hword]
    exact lacks_frame rfl (by decide) ho.inside.balanced hsealed.balanced hnests hl
  · have hopened : ((endWord {} (word before)).take ('{', .code)).lex = (none, false) :=
      (take_lex _ _).trans (endWord_lex {} _)
    have hinner : (endWord {} (word before)).take ('{', .code) =
        { endWord {} (word before) with
          stack := '{' :: (endWord {} (word before)).stack, previous := some '{' } :=
      take_opener rfl _
    have hmembers {x : Text} (hx : Sealed x) :
      essenceFrom ((endWord {} (word before)).take ('{', .code)) (word x) =
        (splitTop [';', ','] x).flatMap essence :=
      hx.essence_members hopened (by rw [hinner]; simp) (by rw [hinner]; rfl)
    rw [essence, essence, hword, ho.reads, hsealed.balanced.essence_pair rfl (by decide),
      ho.inside.balanced.essence_pair rfl (by decide), hmembers hsealed,
      hmembers ho.inside.toSealed, hsplit, hessence]
  · have hobject := objectTexts?_braces hfront (hwordFront ▸ ho.first) hsealed (hsplit ▸ hne)
      (pad' ++ after)
    rw [hflat, hobject, hsplit, trim_append_blank before hpad, ho.before.2.trimmed,
      trim_blank_append hpad', ho.after.2.trimmed]

theorem flatType_eq {room : Nat} {type before after : Text} {texts : List Text}
    (h : objectTexts? type = some (before, texts, after)) :
    flatType (room + 1) type = braces before (texts.map (inline room)) after := by
  rw [flatType, h, braces, List.flatMap_map]
  rfl

theorem piece_of_objectTexts? {type before after : Text} {texts : List Text} (h : Neat type)
    (hobj : objectTexts? type = some (before, texts, after)) : ∀ m ∈ texts, Piece [';', ','] m := by
  obtain ⟨inside, ho, rfl, -⟩ := exists_object h hobj
  exact ho.inside.splitTop stops_members

/-- What an object type on one line keeps, if its members keep as much. -/
theorem keeps_members {room : Nat} {type before after : Text} {texts : List Text} (h : Segment type)
    (hobj : objectTexts? type = some (before, texts, after))
    (hm : ∀ m ∈ texts, lacksType m = false ∧ Keeps (read m).type (flatType room (read m).type)) :
    Keeps type (flatType (room + 1) type) ∧
      objectTexts? (flatType (room + 1) type) = some (before, texts.map (inline room), after) := by
  have hpieces := piece_of_objectTexts? h.toNeat hobj
  have hmembers (m : Text) (hmem : m ∈ texts) :=
    piece_flat (hpieces m hmem) (hm m hmem).1 (hm m hmem).2
  obtain ⟨inside, ho, htexts, hne⟩ := exists_object h.toNeat hobj
  rw [flatType_eq hobj]
  refine keeps_braces h ho (by simpa using hne)
    (List.forall_mem_map.mpr fun m hmem => (hmembers m hmem).1) ?_
  rw [List.flatMap_map, ← htexts, List.flatMap_def, List.flatMap_def]
  exact congrArg List.flatten (List.map_congr_left fun m hmem => (hmembers m hmem).2.1)

/-- A type on one line keeps what does not hang on its layout. -/
theorem keeps_flatType {room : Nat} {type : Text} (h : Segment type) (ht : TypedIn room type) :
    Keeps type (flatType room type) := by
  induction room generalizing type with
  | zero => exact .refl h
  | succ room ih =>
    cases hobj : objectTexts? type with
    | none =>
      rw [flatType, hobj]
      exact .refl h
    | some found =>
      have htyped := ht _ _ _ hobj
      refine (keeps_members h hobj fun m hm => ?_).1
      have hpiece := piece_of_objectTexts? h.toNeat hobj m hm
      exact ⟨htyped.mem hm, ih (fits_read hpiece.toSegment hpiece.ne_nil (htyped.mem hm)).1.type
        (htyped.typedIn hm)⟩

/-- A parameter or member on one line. -/
theorem piece_inline {room : Nat} {separators : List Char} {ts : List Text}
    (h : ∀ t ∈ ts, Piece separators t) (ht : Typed room ts) {t : Text} (hmem : t ∈ ts) :
    (read t).Fits ∧ Keeps (read t).type (flatType room (read t).type) ∧
      Piece separators (inline room t) ∧
      read (inline room t) = { read t with type := flatType room (read t).type } := by
  have hfits := (fits_read (h t hmem).toSegment (h t hmem).ne_nil (ht.mem hmem)).1
  have hkeeps := keeps_flatType hfits.type (ht.typedIn hmem)
  obtain ⟨hpiece, -, hread⟩ := piece_flat (h t hmem) (ht.mem hmem) hkeeps
  exact ⟨hfits, hkeeps, hpiece, hread⟩

/-! ## Writing out what was written on one line -/

theorem flatType_of_none {unit : Text} {room : Nat} {type head indent trailing : Text}
    (h : expandObject unit room type head indent trailing = none) : flatType room type = type := by
  cases room with
  | zero => rfl
  | succ room =>
    have hnone : objectTexts? type = none := Option.map_eq_none_iff.mp h
    rw [flatType, hnone]

theorem lines_inline {unit : Text} {room : Nat} {separators : List Char} {ts : List Text}
    (h : ∀ t ∈ ts, Piece separators t) (ht : Typed room ts) {t : Text} (hmem : t ∈ ts)
    (col : NameColumn) (indent trailing : Text)
    (hobject : ∀ start, expandObject unit room (flatType room (read t).type) start indent trailing =
      expandObject unit room (read t).type start indent trailing) :
    ((read (inline room t)).lines col indent trailing fun start =>
        expandObject unit room (read (inline room t)).type start indent trailing) =
      (read t).lines col indent trailing fun start =>
      expandObject unit room (read t).type start indent trailing := by
  obtain ⟨-, hkeeps, -, hread⟩ := piece_inline h ht hmem
  have hempty : (flatType room (read t).type).isEmpty = (read t).type.isEmpty := by
    rw [Bool.eq_iff_iff, List.isEmpty_iff, List.isEmpty_iff, hkeeps.nil]
  rw [hread]
  simp only [lines, hempty, hobject]
  split
  · rfl
  · -- a type that is not written out is the same on one line
    generalize hstart : indent ++ col.cell (read t).name (read t).optional ++ [' ', ':', ' '] =
      start
    cases hlines : expandObject unit room (read t).type start indent trailing with
    | none => rw [flatType_of_none hlines]
    | some ls => rfl

theorem column_inline {room : Nat} {separators : List Char} {ts : List Text}
    (h : ∀ t ∈ ts, Piece separators t) (ht : Typed room ts) :
    column ((ts.map (inline room)).map read) = column (ts.map read) := by
  rw [column, column, List.map_map, List.map_map, List.map_map]
  refine congrArg NameColumn.of (List.map_congr_left fun t hmem => ?_)
  obtain ⟨-, -, -, hread⟩ := piece_inline h ht hmem
  simp only [Function.comp_apply, hread]

/-- A type on one line is written out as the type itself. -/
theorem expandObject_flatType (unit : Text) {room : Nat} {type : Text} (h : Segment type)
    (ht : TypedIn room type) (head indent trailing : Text) :
    expandObject unit room (flatType room type) head indent trailing =
      expandObject unit room type head indent trailing := by
  induction room generalizing type head indent trailing with
  | zero => rfl
  | succ room ih =>
    cases hobj : objectTexts? type with
    | none => rw [flatType, hobj]
    | some found =>
      obtain ⟨before, texts, after⟩ := found
      have hpieces := piece_of_objectTexts? h.toNeat hobj
      have htyped := ht _ _ _ hobj
      have hparts (m : Text) (hm : m ∈ texts) : Segment (read m).type :=
        (piece_inline hpieces htyped hm).1.type
      obtain ⟨-, hflat⟩ := keeps_members h hobj fun m hm =>
        ⟨htyped.mem hm, keeps_flatType (hparts m hm) (htyped.typedIn hm)⟩
      rw [expandObject, expandObject, hflat, hobj, Option.map_some, Option.map_some]
      simp only [column_inline hpieces htyped]
      simp only [List.flatMap_def, List.map_map, Function.comp_def]
      have hlines : texts.map (fun m =>
        (read (inline room m)).lines (column (texts.map read)) (indent ++ unit) [';']
            fun start => expandObject unit room (read (inline room m)).type start (indent ++ unit)
              [';']) =
          texts.map fun m => (read m).lines (column (texts.map read)) (indent ++ unit) [';']
            fun start => expandObject unit room (read m).type start (indent ++ unit) [';'] :=
        List.map_congr_left fun m hm => lines_inline hpieces htyped hm _ _ _ fun start =>
          ih (hparts m hm) (htyped.typedIn hm) start _ _
      rw [hlines]

/-- Parameters on one line are written out as the parameters themselves. -/
theorem expandAll_inline (unit : Text) {room : Nat} {separators : List Char} {ts : List Text}
    (h : ∀ t ∈ ts, Piece separators t) (ht : Typed room ts) (indent : Text) :
    expandAll unit room indent ((ts.map (inline room)).map read) =
      expandAll unit room indent (ts.map read) := by
  simp only [expandAll, column_inline h ht]
  simp only [List.map_map, List.zipIdx_map, List.flatMap_def, List.length_map]
  refine congrArg List.flatten (List.map_congr_left fun x hx => ?_)
  have hmem : x.1 ∈ ts := List.mem_of_getElem? (List.mem_zipIdx_iff_getElem?.mp hx)
  exact lines_inline h ht hmem _ _ _ fun start =>
    expandObject_flatType unit (piece_inline h ht hmem).1.type (ht.typedIn hmem) start _ _

end Parameter

end SourceLayout
