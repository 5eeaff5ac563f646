import SourceLayout.Proofs.Literals.Basic
import SourceLayout.Proofs.Stable.Pieces

/-! The strings of lines that are cut into members. A line is cut behind semicolons of code, and the
lines of a member end where nothing is open; so each member is read by itself. -/

namespace SourceLayout.Member
open Text Scan

/-! ## Members on one line -/

theorem Closed.parted {q : Text} (h : Closed q) (v : Text) : Parted q v := by
  have hlex : (endFrom .free {} q).2.lex = (none, false) := by rw [h.state.lex]; rfl
  refine Scan.Closes.parted ⟨h.phase, hlex⟩ (.inl fun c hc => ?_)
  rw [h.last] at hc
  cases hc
  rfl

theorem Closed.literals_trim {q : Text} (h : Closed q) : literals (Text.trim q) = literals q := by
  have htrim := lineLiterals?_trim false q
  rw [(h.trim.parted []).closes.lineLiterals?, (h.parted []).closes.lineLiterals?] at htrim
  exact congrArg Prod.fst (Option.some.inj htrim)

/-- The members on a line hold its strings. -/
theorem literals?_onLine {indent : Text} (hi : isBlankLine indent = true) (t : Text) :
    literals? false ((onLine t).map (indent ++ ·)) = lineLiterals? false t := by
  have hindent (u : Text) : lineLiterals? false (indent ++ u) = lineLiterals? false u := by
    have h := lineLiterals?_around false (t := u) hi (c := []) rfl
    rwa [List.append_nil] at h
  induction hlen : t.length using Nat.strongRecOn generalizing t with
  | ind n ih =>
    rcases uncut_or_closed t with hcut | ⟨q, v, rfl, hq⟩
    · rw [onLine_uncut hcut]
      split
      · next hnil =>
          rw [lineLiterals?_blank false (isBlankLine_of_trim hnil), List.map_nil, literals?]
      · rw [List.map_singleton, literals?_singleton, hindent, lineLiterals?_trim]
    · by_cases hmerge : Uncut v ∧ trim v ≠ [] ∧ startsComment (trim v) = true
      · obtain ⟨hv, hnil, hc⟩ := hmerge
        have hspace : lineLiterals? false (' ' :: trim v) = lineLiterals? false v :=
          lineLiterals?_reindent false (a := [' ']) rfl v
        rw [onLine_merge hq hv hnil hc, List.map_singleton, literals?_singleton, hindent,
          (hq.trim.parted _).lineLiterals?, (hq.parted v).lineLiterals?, hspace, hq.literals_trim]
      · have hshorter : v.length < n := by
          have hpos := List.length_pos_iff.mpr hq.ne_nil
          rw [← hlen, List.length_append]
          omega
        have hrest := ih v.length hshorter v rfl
        rw [onLine_cons hq hmerge, List.map_append, literals?_append, (hq.parted v).lineLiterals?]
        have hfirst : literals? false ((kept (trim q)).map (indent ++ ·)) =
            some (literals q, false) := by
          unfold kept
          split
          · next hlone =>
            rw [← hq.literals_trim, hlone]
            rfl
          · rw [List.map_singleton, literals?_singleton, hindent, lineLiterals?_trim,
              (hq.parted []).closes.lineLiterals?]
        rw [hfirst, Option.bind_some, hrest]

/-- Putting each member on its own line leaves the strings alone. -/
theorem literals?_expandFrom {s : State} {b b' : Bool} {ls : List Text} {w : Text}
    (hs : s.lex = (none, b)) (h : literals? b ls = some (w, b')) :
    literals? b (expandFrom s ls) = some (w, b') := by
  induction ls generalizing s b w with
  | nil => exact h
  | cons l r ih =>
    obtain ⟨x, c, y, hl, hr, rfl⟩ := literals?_cons_eq_some.mp h
    have hrest := ih (feed_of_line hs hl) hr
    have hline : literals? b (expandLine (s.inBlock || s.quote.isSome) l) = some (x, c) := by
      cases hstay : stays (s.inBlock || s.quote.isSome) (trim l) with
      | true => rw [expandLine_of_stays hstay, literals?_singleton, hl]
      | false =>
        obtain ⟨hno, hparts⟩ := expandLine_of_not_stays hstay
        obtain rfl : b = false := by
          rw [Bool.or_eq_false_iff] at hno
          exact (congrArg Prod.snd hs).symm.trans hno.1
        rw [hparts, literals?_onLine (isBlankLine_indentOf l), lineLiterals?_trim, hl]
    rw [expandFrom, literals?_append_eq_some]
    exact ⟨x, c, y, hline, hrest, rfl⟩

/-! ## The lines of each member -/

/-- Groups of lines with the strings `w`, each but the last ending outside comments; `b` says
whether a comment goes on behind the last. -/
inductive Groups : List (List Text) → Text → Bool → Prop
  | nil : Groups [] [] false
  | last {g : List Text} {w : Text} {b : Bool} (h : literals? false g = some (w, b)) :
      Groups [g] w b
  | cons {g : List Text} {gs : List (List Text)} {x y : Text} {b : Bool}
      (h : literals? false g = some (x, false)) (hr : Groups gs y b) :
      Groups (g :: gs) (x ++ y) b

/-- The members are read one by one. -/
theorem groups_delimitFrom {s : State} {b b' : Bool} {current ls : List Text} {x w : Text}
    (hs : s.lex = (none, b)) (hc : literals? false current.reverse = some (x, b))
    (h : literals? b ls = some (w, b')) : Groups (delimitFrom s current ls) (x ++ w) b' := by
  induction ls generalizing s b current x w with
  | nil =>
    cases h
    rw [List.append_nil, delimitFrom]
    split
    · next hempty =>
      rw [List.isEmpty_iff.mp hempty] at hc
      cases hc
      exact .nil
    · exact .last hc
  | cons l r ih =>
    obtain ⟨y, c, z, hl, hr, rfl⟩ := literals?_cons_eq_some.mp h
    rw [delimitFrom]
    split
    · next hblank =>
      rw [Bool.and_eq_true] at hblank
      rw [lineLiterals?_blank b hblank.1] at hl
      cases hl
      exact ih hs hc hr
    · have hfeed := feed_of_line hs hl
      have hgroup : literals? false (l :: current).reverse = some (x ++ y, c) := by
        rw [List.reverse_cons, literals?_append_eq_some]
        exact ⟨x, b, y, hc, by rw [literals?_singleton, hl], rfl⟩
      rw [← List.append_assoc]
      simp only
      split
      · next hwhole =>
        rw [Bool.and_eq_true] at hwhole
        obtain rfl : c = false := (congrArg Prod.snd hfeed).symm.trans (settled_iff.mp hwhole.1).2.2
        have hrest : Groups (delimitFrom (feed s l) [] r) ([] ++ z) b' := ih hfeed rfl hr
        exact .cons hgroup hrest
      · exact ih hfeed hgroup hr

theorem groups_members {ls : List Text} {w : Text} {b : Bool}
    (h : literals? false ls = some (w, b)) : Groups (delimit (expandLines ls)) w b := by
  have hlines : literals? false (expandLines ls) = some (w, b) :=
    literals?_expandFrom (s := {}) rfl h
  have hgroups : Groups (delimitFrom {} [] (expandLines ls)) ([] ++ w) b :=
    groups_delimitFrom rfl rfl hlines
  exact hgroups

end SourceLayout.Member
