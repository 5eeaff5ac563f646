import SourceLayout.Proofs.Kept.Declaration
import SourceLayout.Proofs.Lines

/-! The last line of what is written. Neither a declaration nor an import block ends in an empty
line, so a file that does not end in a line feed does not get one. -/

namespace SourceLayout
open Text

namespace Text

/-- A text with a last character that is no line feed. -/
def EndsShown (t : Text) : Prop := ∃ c, t.getLast? = some c ∧ c ≠ '\n'

def LastShown (ls : List Text) : Prop := ∃ l, ls.getLast? = some l ∧ EndsShown l

theorem EndsShown.append {t : Text} (h : EndsShown t) (a : Text) : EndsShown (a ++ t) := by
  obtain ⟨c, hc, hne⟩ := h
  exact ⟨c, by rw [List.getLast?_append, hc, Option.some_or], hne⟩

theorem EndsShown.cons {t : Text} (h : EndsShown t) (c : Char) : EndsShown (c :: t) := h.append [c]

theorem LastShown.append {ls : List Text} (h : LastShown ls) (a : List Text) :
    LastShown (a ++ ls) := by
  obtain ⟨l, hl, hs⟩ := h
  exact ⟨l, by rw [List.getLast?_append, hl, Option.some_or], hs⟩

theorem EndsShown.lastShown {t : Text} (h : EndsShown t) : LastShown [t] := ⟨t, rfl, h⟩

theorem endsShown_of_last {t : Text} {c : Char} (h : t.getLast? = some c) (hc : isBlank c = false) :
    EndsShown t := by
  refine ⟨c, h, ?_⟩
  rintro rfl
  exact absurd hc (by decide)

theorem endsShown_trimRight {t : Text} (h : isBlankLine t = false) : EndsShown (trimRight t) := by
  cases hc : (trimRight t).getLast? with
  | some c => exact endsShown_of_last hc (last_trimRight hc)
  | none =>
    obtain ⟨b, hb, hblank⟩ := trimRight_append t
    rw [List.getLast?_eq_none_iff.mp hc, List.nil_append] at hb
    rw [← hb, h] at hblank
    cases hblank

theorem endsShown_trim {t : Text} (h : isBlankLine t = false) : EndsShown (trim t) := by
  cases hc : (trim t).getLast? with
  | some c => exact endsShown_of_last hc (last_trim hc)
  | none =>
    rw [isBlankLine_of_trim (List.getLast?_eq_none_iff.mp hc)] at h
    cases h

theorem isBlankLine_trim {t : Text} (h : isBlankLine t = false) : isBlankLine (trim t) = false := by
  obtain ⟨c, hc, -⟩ := endsShown_trim h
  exact isBlankLine_of_mem (List.mem_of_getLast? hc) (last_trim hc)

theorem endsShown_trim_drop {t : Text} {i : Nat} {c : Char} (h : t[i]? = some c)
    (hc : isBlank c = false) : EndsShown (trim (t.drop i)) := by
  have hmem : c ∈ t.drop i :=
    List.mem_of_getElem? (i := 0) (by rw [List.getElem?_drop, Nat.add_zero, h])
  exact endsShown_trim (isBlankLine_of_mem hmem hc)

theorem endsShown_afterBrace (t : Text) : EndsShown ('}' :: afterBrace (trim t)) := by
  unfold afterBrace
  cases hh : (trim t).head? with
  | none => exact ⟨'}', rfl, by decide⟩
  | some c =>
    have hshown := endsShown_trim (isBlankLine_of_mem (List.mem_of_mem_head? hh) (head_trim hh))
    rw [trim_trim] at hshown
    simp only
    split
    · exact hshown.cons _
    · exact (hshown.cons _).cons _

end Text

theorem lastShown_keepLines (cfg : Settings) (indent : Text) {first : Text} {ls : List Text}
    (hf : isBlankLine first = false) : LastShown (keepLines cfg indent first ls) := by
  unfold keepLines
  cases hl : ((ls.drop 1).filter (!isBlankLine ·)).getLast? with
  | none =>
    rw [List.getLast?_eq_none_iff.mp hl]
    exact (endsShown_trimRight hf).lastShown
  | some l =>
    obtain ⟨ys, hys⟩ := List.getLast?_eq_some_iff.mp hl
    have hmem : l ∈ (ls.drop 1).filter (!isBlankLine ·) := by rw [hys]; simp
    have hb : isBlankLine l = false := by simpa using (List.mem_filter.mp hmem).2
    rw [hys, List.map_append, ← List.cons_append]
    exact ((endsShown_trim hb).append _).lastShown.append _

theorem Block.braceParts?_after {t before content after : Text} {opener : Nat}
    (h : Block.braceParts? t opener = some (before, content, after)) : ∃ a, after = trim a := by
  obtain ⟨⟨b, inside, a⟩, -, h⟩ := Option.bind_eq_some_iff.mp h
  simp only [Option.ite_none_left_eq_some, Option.some.injEq, Prod.mk.injEq] at h
  obtain ⟨-, -, -, rfl⟩ := h
  exact ⟨a, rfl⟩

theorem ObjectSpan.endsShown_closing {ls : List Text} {o : ObjectSpan}
    (h : ObjectSpan.read? ls = some o) : EndsShown o.closing := by
  obtain ⟨first, -, h⟩ := Option.bind_eq_some_iff.mp h
  obtain ⟨last, -, h⟩ := Option.bind_eq_some_iff.mp h
  obtain ⟨⟨opener, depth⟩, -, h⟩ := Option.bind_eq_some_iff.mp h
  obtain ⟨s, -, h⟩ := Option.bind_eq_some_iff.mp h
  obtain ⟨closer, hc, h⟩ := Option.bind_eq_some_iff.mp h
  cases h
  obtain ⟨hlt, hp, -⟩ := List.findIdx?_eq_some_iff_getElem.mp hc
  simp only [Bool.and_eq_true, beq_iff_eq] at hp
  have hget := Scan.getElem?_of_marks (List.getElem?_eq_getElem hlt)
  rw [hp.1.2] at hget
  exact endsShown_trim_drop hget (by decide)

theorem lastShown_formatOneLine (cfg : Settings) (room : Nat) (base : Text) {line : Text}
    (h : EndsShown line) : LastShown (Block.formatOneLine cfg room base line) := by
  unfold Block.formatOneLine
  split
  · exact h.lastShown
  · next before content after hp =>
    obtain ⟨i, -, hparts⟩ := Option.bind_eq_some_iff.mp hp
    obtain ⟨a, rfl⟩ := Block.braceParts?_after hparts
    exact ((endsShown_afterBrace a).append _).lastShown.append _

namespace Union

/-- Members have lines, and none of them is blank. -/
theorem isBlankLine_membersFrom {s : Scan.State} {current ls : List Text}
    (hc : ∀ l ∈ current, isBlankLine l = false) :
    ∀ m ∈ membersFrom s current ls, m ≠ [] ∧ ∀ l ∈ m, isBlankLine l = false := by
  have hcurrent : ∀ current : List Text, (∀ l ∈ current, isBlankLine l = false) →
      ∀ m ∈ (if current.isEmpty then [] else [current.reverse]),
        m ≠ [] ∧ ∀ l ∈ m, isBlankLine l = false := by
    intro current hc m hm
    split at hm
    · cases hm
    · next hne =>
      obtain rfl : m = current.reverse := by simpa using hm
      exact ⟨by simpa using hne, by simpa using hc⟩
  induction ls generalizing s current with
  | nil => exact hcurrent current hc
  | cons l r ih =>
    unfold membersFrom
    simp only
    split
    · exact ih hc
    · next hne =>
      have hl : isBlankLine l = false := by
        rw [Bool.eq_false_iff]
        intro hb
        have hnil := trim_blank_append hb []
        rw [List.append_nil] at hnil
        rw [hnil] at hne
        exact hne rfl
      split
      · intro m hm
        rcases List.mem_append.mp hm with hm | hm
        · exact hcurrent current hc m hm
        · exact ih (by simpa using hl) m hm
      · exact ih (List.forall_mem_cons.mpr ⟨hl, hc⟩)

theorem endsShown_object? {deeper : Text} {ls content : List Text} {before closing : Text}
    (h : object? deeper ls = some (before, content, closing)) : EndsShown closing := by
  unfold object? at h
  split at h
  · obtain ⟨⟨b, c, a⟩, hp, h⟩ := Option.map_eq_some_iff.mp h
    simp only [Prod.mk.injEq] at h
    obtain ⟨-, -, rfl⟩ := h
    obtain ⟨i, -, hparts⟩ := Option.bind_eq_some_iff.mp hp
    obtain ⟨x, rfl⟩ := Block.braceParts?_after hparts
    exact endsShown_afterBrace x
  · obtain ⟨span, hs, h⟩ := Option.map_eq_some_iff.mp h
    simp only [Prod.mk.injEq] at h
    obtain ⟨-, -, rfl⟩ := h
    exact ObjectSpan.endsShown_closing hs

theorem lastShown_memberLines {cfg : Settings} {room : Nat} {indent : Text} {ls : List Text}
    (hne : ls ≠ []) (hls : ∀ l ∈ ls, isBlankLine l = false) :
    LastShown (memberLines cfg room indent ls) := by
  have hhead : isBlankLine (ls.headD []) = false := by
    cases ls with
    | nil => exact absurd rfl hne
    | cons l r => exact hls l List.mem_cons_self
  unfold memberLines
  simp only
  split
  · next before content closing h =>
    simp only [Option.ite_none_right_eq_some] at h
    exact ((endsShown_object? h.2).append _).lastShown.append _
  · split
    · exact ((endsShown_trim hhead).append _).lastShown
    · refine lastShown_keepLines cfg indent ?_
      rw [isBlankLine, List.all_append, ← isBlankLine, ← isBlankLine, isBlankLine_trim hhead,
        Bool.and_false]

theorem getElem?_of_assignment? {t : Text} {i : Nat} (h : assignment? t = some i) :
    t[i]? = some '=' := by
  obtain ⟨⟨m, j⟩, hf, rfl⟩ := Option.map_eq_some_iff.mp h
  have hp := List.find?_some hf
  have hmem := (List.mem_filter.mp (List.mem_of_find?_eq_some hf)).1
  simp only [Bool.and_eq_true, beq_iff_eq] at hp
  rw [Scan.getElem?_of_marks (List.mem_zipIdx_iff_getElem?.mp hmem), hp.1.2]

/-- The lines up to the equals sign of a type alias end in it or behind it. -/
theorem lastShown_cut? {base : Text} {ls head rest : List Text}
    (h : cut? base ls = some (head, rest)) : LastShown head := by
  obtain ⟨⟨before, line, i, after⟩, ha, h⟩ := Option.map_eq_some_iff.mp h
  have hline := getElem?_of_assignment? (assignmentLine?_spec ha).2
  simp only at h
  split at h
  · cases h
    have hmem : '=' ∈ line.take (i + 1) :=
      List.mem_of_getElem? (by rw [List.getElem?_take_of_lt (Nat.lt_succ_self i), hline])
    exact (endsShown_trimRight (isBlankLine_of_mem hmem (by decide))).lastShown.append _
  · cases h
    exact (endsShown_trimRight
      (isBlankLine_of_mem (List.mem_of_getElem? hline) (by decide))).lastShown.append _

theorem lastShown_format {cfg : Settings} {room : Nat} {base : Text} {ls : List Text}
    (h : LastShown ls) : LastShown (format cfg room base ls) := by
  unfold format
  split
  · exact h
  · next head rest hcut =>
    have hmembers : ∀ m ∈ members rest,
        LastShown (memberLines cfg room (base ++ cfg.indentUnit) m) := by
      intro m hm
      obtain ⟨hne, hls⟩ := isBlankLine_membersFrom (by simp) m hm
      exact lastShown_memberLines hne hls
    rcases List.eq_nil_or_concat (members rest) with hnil | ⟨ms, m, hlast⟩
    · rw [hnil, List.flatMap_nil, List.append_nil]
      exact lastShown_cut? hcut
    · rw [hlast, List.concat_eq_append] at hmembers ⊢
      rw [List.flatMap_append, List.flatMap_singleton]
      exact ((hmembers m (by simp)).append _).append _

end Union

namespace Declaration

theorem closingBrace?_spec {ls : List Text} {row col closeRow close : Nat}
    (h : closingBrace? ls row col = some (closeRow, close)) (hne : closeRow ≠ row) :
    ∃ l, ls[closeRow]? = some l ∧ l[close]? = some '}' := by
  unfold closingBrace? at h
  split at h
  · cases h
  · next l r hdrop =>
    obtain ⟨⟨k, c⟩, hf, h⟩ := Option.map_eq_some_iff.mp h
    simp only [Prod.mk.injEq] at h
    obtain ⟨rfl, rfl⟩ := h
    obtain ⟨l', m, hl', hm, hp⟩ := Declaration.findMark?_spec hf
    simp only [Bool.and_eq_true, beq_iff_eq] at hp
    cases k with
    | zero => exact absurd rfl hne
    | succ k =>
      have hrow : ls[row + (k + 1)]? = some l' := by
        rw [← List.getElem?_drop, hdrop]
        exact hl'
      exact ⟨l', hrow, by rw [if_neg (by omega), hm, hp.1]⟩

/-- The closing brace of a body that begins above the last line stands on the last line. -/
theorem shape_close {ls : List Text} {row col close : Nat} (h : shape ls = .body row col close) :
    (ls.getLast?.getD [])[close]? = some '}' := by
  unfold shape at h
  split at h
  · cases h
  split at h
  · cases h
  next row' col' hb =>
  simp only at h
  split at h
  · cases h
  split at h
  · cases h
  next closeRow close' hclose =>
  split at h
  · cases h
  next hlen =>
  split at h
  · cases h
  next hrow =>
  cases h
  simp only [bne_iff_ne, ne_eq, Decidable.not_not] at hlen
  rw [beq_iff_eq] at hrow
  obtain ⟨l, hl, hget⟩ := closingBrace?_spec hclose (by omega)
  rw [List.getLast?_eq_getElem?, show ls.length - 1 = closeRow by omega, hl, Option.getD_some, hget]

/-- The last line of a declaration stays one that shows something. -/
theorem lastShown_format {cfg : Settings} {ls : List Text} (h : LastShown ls) :
    LastShown (format cfg ls) := by
  unfold format
  cases hs : shape ls with
  | union => exact Union.lastShown_format h
  | plain => exact h
  | unclosed => exact h
  | oneLine row =>
    obtain ⟨l, hl, hshown⟩ := h
    have hlen := (shape_spec ls).1 row hs
    have hrow : ls.getD row [] = l := by
      rw [List.getLast?_eq_getElem?, show ls.length - 1 = row by omega] at hl
      rw [List.getD_eq_getElem?_getD, hl, Option.getD_some]
    exact (lastShown_formatOneLine cfg _ _ (hrow ▸ hshown)).append _
  | body row col close =>
    exact ((endsShown_trim_drop (shape_close hs) (by decide)).append _).lastShown.append _

end Declaration

namespace Statement

/-- A statement that shows something, with no comment behind it or one that shows something. -/
def Shown (s : Statement) : Prop :=
  isBlankLine s.text = false ∧ (s.trailing = [] ∨ EndsShown s.trailing)

theorem endsShown_unlines {ls : List Text} (h : LastShown ls) : EndsShown (unlines ls) := by
  obtain ⟨l, hl, c, hc, hne⟩ := h
  exact ⟨c, getLast?_joinLines _ hl hc, hne⟩

theorem lastShown_lines {t : Text} (h : EndsShown t) : LastShown (lines t) := by
  obtain ⟨c, hc, hne⟩ := h
  obtain ⟨l, hl, hlc⟩ := getLast?_lines hc hne
  exact ⟨l, hl, c, hlc, hne⟩

theorem endsShown_rendered {s : Statement} (h : isBlankLine s.text = false) (cfg : Settings) :
    EndsShown (s.rendered cfg) := by
  have ht := endsShown_trim h
  unfold rendered
  simp only
  split
  · unfold reflow
    split
    · exact ht
    · split
      · exact ht
      · next i _ =>
        split
        · exact ht
        · have hlast : EndsShown ("\x7d from \"".toList ++ i.moduleName ++ ['"', ';']) :=
            EndsShown.append ⟨';', rfl, by decide⟩ _
          exact endsShown_unlines (hlast.lastShown.append _)
  · exact ht

theorem lastShown_withTrailing {comment : Text} (hc : comment = [] ∨ EndsShown comment)
    {ls : List Text} (h : LastShown ls) : LastShown (withTrailing comment ls) := by
  induction ls with
  | nil => exact h
  | cons l r ih =>
    cases r with
    | nil =>
      obtain ⟨_, hl, hshown⟩ := h
      cases hl
      unfold withTrailing
      split
      · exact hshown.lastShown
      · next hne =>
        rcases hc with rfl | hc
        · exact absurd rfl hne
        · exact ((hc.cons _).append _).lastShown
    | cons k r =>
      obtain ⟨m, hm, hshown⟩ := h
      rw [List.getLast?_cons_cons] at hm
      exact (ih ⟨m, hm, hshown⟩).append [l]

theorem lastShown_outputLines {s : Statement} (h : s.Shown) (cfg : Settings) :
    LastShown (s.outputLines cfg) :=
  (lastShown_withTrailing h.2 (lastShown_lines (endsShown_rendered h.1 cfg))).append _

theorem distinctFrom_sublist (seen : List Text) (ss : List Statement) :
    (distinctFrom seen ss).Sublist ss := by
  induction ss generalizing seen with
  | nil => exact .slnil
  | cons s ss ih =>
    rw [distinctFrom]
    split
    · exact (ih seen).cons s
    · exact (ih _).cons_cons s

theorem mem_of_mem_distinctFrom {seen : List Text} {ss : List Statement} {s : Statement}
    (h : s ∈ distinctFrom seen ss) : s ∈ ss := (distinctFrom_sublist seen ss).subset h

end Statement

namespace Grouping

theorem lastShown_block {cfg : Settings} {g : Group} {ss : List Statement} (hne : ss ≠ [])
    (h : ∀ s ∈ ss, s.Shown) : LastShown (block cfg g ss) := by
  have hperm : (Statement.sorted cfg ss).Perm ss := List.mergeSort_perm ..
  rcases List.eq_nil_or_concat (Statement.sorted cfg ss) with hnil | ⟨xs, s, hlast⟩
  · rw [hnil] at hperm
    exact absurd hperm.symm.eq_nil hne
  · have hs : s ∈ ss := hperm.mem_iff.mp (by rw [hlast]; simp)
    unfold block
    rw [if_neg (by simpa using hne), hlast, List.concat_eq_append, List.flatMap_append,
      List.flatMap_singleton, ← List.cons_append]
    exact (Statement.lastShown_outputLines (h s hs) cfg).append _

theorem lastShown_joinBlocks {blocks : List (List Text)} (hne : ∃ b ∈ blocks, b ≠ [])
    (h : ∀ b ∈ blocks, b ≠ [] → LastShown b) : LastShown (joinBlocks blocks) := by
  unfold joinBlocks
  rcases List.eq_nil_or_concat (blocks.filter (!·.isEmpty)) with hnil | ⟨bs, b, hlast⟩
  · obtain ⟨b, hb, hbne⟩ := hne
    have hmem : b ∈ blocks.filter (!·.isEmpty) := List.mem_filter.mpr ⟨hb, by simpa using hbne⟩
    rw [hnil] at hmem
    cases hmem
  · have hmem : b ∈ blocks.filter (!·.isEmpty) := by rw [hlast]; simp
    obtain ⟨hb, hbne⟩ := List.mem_filter.mp hmem
    have hshown := h b hb (by simpa using hbne)
    rw [hlast, List.concat_eq_append]
    cases bs with
    | nil =>
      rw [List.nil_append, intercalate_singleton]
      exact hshown
    | cons c bs =>
      rw [intercalate_concat _ (List.cons_ne_nil _ _)]
      exact (hshown.append _).append _

theorem home?_isSome {groups : List Group} (h : ∃ g ∈ groups, g.isCatchAll = true) (s : Statement) :
    ∃ i, home? groups s = some i ∧ i < groups.length := by
  obtain ⟨g, hg, hcatch⟩ := h
  cases hi : home? groups s with
  | none =>
    have hnot := List.findIdx?_eq_none_iff.mp hi g hg
    simp [Group.accepts, hcatch] at hnot
  | some i =>
    obtain ⟨hlt, -⟩ := List.findIdx?_eq_some_iff_getElem.mp hi
    exact ⟨i, rfl, hlt⟩

/-- Some group has a statement, if some group takes every statement. -/
theorem exists_members {groups : List Group} {ss : List Statement}
    (hcatch : ∃ g ∈ groups, g.isCatchAll = true) (hne : ss ≠ []) :
    ∃ p ∈ groups.zipIdx, members groups (Statement.distinct ss) p.2 ≠ [] := by
  obtain ⟨s, hs⟩ : ∃ s, s ∈ Statement.distinct ss := by
    cases ss with
    | nil => exact absurd rfl hne
    | cons a ss => exact ⟨a, List.mem_cons_self⟩
  obtain ⟨i, hi, hlt⟩ := home?_isSome hcatch s
  have hmem : s ∈ members groups (Statement.distinct ss) i :=
    List.mem_filter.mpr ⟨hs, by simpa using hi⟩
  exact ⟨(groups[i], i), List.mem_zipIdx_iff_getElem?.mpr (List.getElem?_eq_getElem hlt),
    List.ne_nil_of_mem hmem⟩

/-- An import block with a statement ends in a line that shows something, if some group takes every
statement. -/
theorem lastShown_layout {cfg : Settings} {ss : List Statement}
    (hcatch : ∃ g ∈ cfg.groups, g.isCatchAll = true) (hne : ss ≠ []) (h : ∀ s ∈ ss, s.Shown) :
    LastShown (layout cfg ss) := by
  have hshown : ∀ i, ∀ s ∈ members cfg.groups (Statement.distinct ss) i, s.Shown :=
    fun i s hs => h s (Statement.mem_of_mem_distinctFrom (List.mem_filter.mp hs).1)
  obtain ⟨p, hp, hmembers⟩ := exists_members hcatch hne
  refine lastShown_joinBlocks ⟨block cfg p.1 (members cfg.groups (Statement.distinct ss) p.2), ?_,
    ?_⟩ ?_
  · exact List.mem_map.mpr ⟨p, hp, rfl⟩
  · unfold block
    rw [if_neg (by simpa using hmembers)]
    exact List.cons_ne_nil _ _
  · intro b hb hbne
    obtain ⟨⟨g, j⟩, -, rfl⟩ := List.mem_map.mp hb
    refine lastShown_block ?_ (hshown j)
    intro hnil
    simp [block, hnil] at hbne

end Grouping

end SourceLayout
