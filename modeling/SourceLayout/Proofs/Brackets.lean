import SourceLayout.Proofs.Marks

/-! Where a bracket is closed, and what the searches along the marks find. -/

namespace SourceLayout.Scan
open Text

private theorem eq_of_tail_dropWhile_nil {o b : Char} (stack : List Char) (hm : o ∈ stack ++ [b])
    (h : ((stack ++ [b]).dropWhile (· != o)).tail = []) : o = b := by
  induction stack with
  | nil => simpa using hm
  | cons a stack ih =>
    by_cases ha : a = o
    · simp [ha] at h
    · have hm' : o ∈ stack ++ [b] := by
        rcases List.mem_cons.mp hm with e | hm
        · exact absurd e.symm ha
        · exact hm
      exact ih hm' (by simpa [List.dropWhile_cons, ha] using h)

/-- Closing a bracket keeps the outermost one open unless it closes just that. -/
private theorem closeBracket_append (c o b : Char) (stack : List Char) :
    (closeBracket c o (stack ++ [b]) = [] ∧ o = b) ∨
      ∃ rest, closeBracket c o (stack ++ [b]) = rest ++ [b] := by
  unfold closeBracket
  split
  · next hhead =>
    cases stack with
    | nil => exact .inl ⟨rfl, by simpa using hhead.symm⟩
    | cons a stack => exact .inr ⟨stack, rfl⟩
  · split
    · next hmem =>
      by_cases ht : ((stack ++ [b]).dropWhile (· != o)).tail = []
      · have hm : o ∈ stack ++ [b] := by
          simp only [Bool.and_eq_true] at hmem
          exact List.contains_iff_mem.mp hmem.2
        exact .inl ⟨ht, eq_of_tail_dropWhile_nil stack hm ht⟩
      · have hs := (List.tail_suffix _).trans (List.dropWhile_suffix (l := stack ++ [b]) (· != o))
        rcases List.suffix_concat_iff.mp hs with h | ⟨rest, h, _⟩
        · exact absurd h ht
        · exact .inr ⟨rest, h⟩
    · exact .inr ⟨stack, rfl⟩

/-- A character of code keeps the outermost bracket open unless it closes it. -/
theorem readCode_append (s : State) (c b : Char) (stack : List Char)
    (hs : s.stack = stack ++ [b]) :
    ((s.readCode c).stack = [] ∧ openerOf c = some b) ∨
      ∃ rest, (s.readCode c).stack = rest ++ [b] := by
  unfold State.readCode
  simp only [hs]
  split
  · exact .inr ⟨c :: stack, rfl⟩
  · split
    · next o ho =>
      split
      · exact .inr ⟨stack, rfl⟩
      · rcases closeBracket_append c o b stack with ⟨h, e⟩ | h
        · exact .inl ⟨h, by rw [ho, e]⟩
        · exact .inr h
    · exact .inr ⟨stack, rfl⟩

/-- The first closing bracket outside all others closes the outermost open bracket. Until then code
stays inside it, and behind it nothing is open. -/
theorem closes_outermost {b : Char} {i : Nat} (p : Phase) (s : State) (t : Text) (stack : List Char)
    (hs : s.stack = stack ++ [b])
    (h : (marksFrom p s t).findIdx? (fun m => m.isTop && isCloser m.char) = some i) :
    ∃ inner c s' rest, marksFrom p s t = inner ++ ⟨c, 0, .code⟩ :: marksFrom .free s' rest ∧
      inner.length = i ∧ openerOf c = some b ∧ s'.settled = true ∧
      ∀ m ∈ inner, m.isCode = true → 1 ≤ m.depth := by
  induction t generalizing p s stack i with
  | nil => simp [marksFrom] at h
  | cons a r ih =>
    rw [marksFrom_cons, List.findIdx?_cons] at h
    rw [marksFrom_cons]
    rcases step_cases p s a r.head? with ⟨hq, hb, he⟩ | ⟨k, p', s', hk, hst, he⟩
    · simp only [he] at h ⊢
      rcases readCode_append s a b stack hs with ⟨hnil, ho⟩ | ⟨stack', hst⟩
      · have hd : min s.depth (s.readCode a).depth = 0 := by simp [State.depth, hnil]
        rw [hd] at h ⊢
        have hi : i = 0 := by
          simpa [Mark.isTop, Mark.isCode, isCloser, ho] using h.symm
        refine ⟨[], a, s.readCode a, r, rfl, hi.symm, ho, ?_, by simp⟩
        simp [State.settled, hnil, hq, hb]
      · have hd : 1 ≤ min s.depth (s.readCode a).depth := by
          simp [State.depth, hs, hst]
        have htop : (Mark.isTop ⟨a, min s.depth (s.readCode a).depth, .code⟩) = false := by
          simp only [Mark.isTop, Bool.and_eq_false_iff, beq_eq_false_iff_ne]
          right; omega
        simp only [htop, Bool.false_and, Bool.false_eq_true, ↓reduceIte, Option.map_eq_some_iff]
          at h
        obtain ⟨j, hj, rfl⟩ := h
        obtain ⟨inner, c, s', rest, hm, hl, ho, hset, hin⟩ := ih _ _ stack' hst hj
        refine ⟨_ :: inner, c, s', rest, by rw [hm]; rfl, by simp [hl], ho, hset, ?_⟩
        intro m hmem hc
        rcases List.mem_cons.mp hmem with rfl | hmem
        · exact hd
        · exact hin m hmem hc
    · simp only [he] at h ⊢
      have hcode : (Mark.isCode ⟨a, s.depth, k⟩) = false := by
        simpa [Mark.isCode] using hk
      simp only [Mark.isTop, hcode, Bool.false_and, Bool.false_eq_true, ↓reduceIte,
        Option.map_eq_some_iff] at h
      obtain ⟨j, hj, rfl⟩ := h
      obtain ⟨inner, c, s'', rest, hm, hl, ho, hset, hin⟩ := ih _ _ stack (hst.trans hs) hj
      refine ⟨_ :: inner, c, s'', rest, by rw [hm]; rfl, by simp [hl], ho, hset, ?_⟩
      intro m hmem hc
      rcases List.mem_cons.mp hmem with rfl | hmem
      · simp [hcode] at hc
      · exact hin m hmem hc

theorem find?_zipIdx {α : Type} (q : α → Bool) (l : List α) (k : Nat) :
    ((l.zipIdx k).find? fun x => q x.1).map (·.2) = (l.findIdx? q).map (· + k) := by
  induction l generalizing k with
  | nil => rfl
  | cons a l ih =>
    rw [List.zipIdx_cons, List.find?_cons, List.findIdx?_cons]
    cases hq : q a with
    | true => simp
    | false =>
      simp only [Bool.false_eq_true, ↓reduceIte, ih, Option.map_map]
      congr 1
      funext j
      simp only [Function.comp]
      omega

private theorem step_opener {o : Char} (ho : isOpener o = true) {s : State} (hs : s.settled = true)
    (next : Option Char) :
    step .free s o next = (⟨o, 0, .code⟩, .free, { stack := [o], previous := some o }) := by
  obtain ⟨hst, hq, hb⟩ := settled_iff.mp hs
  have hblank : isBlank o = false := by
    simp only [isOpener, Bool.or_eq_true, beq_iff_eq] at ho
    rcases ho with ((rfl | rfl) | rfl) | rfl <;> rfl
  have hquote : isQuote o = false ∧ o ≠ '/' := by
    simp only [isOpener, Bool.or_eq_true, beq_iff_eq] at ho
    rcases ho with ((rfl | rfl) | rfl) | rfl <;> decide
  simp [step, stepFree, State.readCode, State.depth, ho, hblank, hquote, hst, hq, hb]

/-- A bracket that opens outside all others is read as at the beginning of a text. -/
theorem marksFrom_opener {o : Char} (ho : isOpener o = true) {s : State} (hs : s.settled = true)
    (r : Text) :
    marksFrom .free s (o :: r) =
      ⟨o, 0, .code⟩ :: marksFrom .free { stack := [o], previous := some o } r := by
  rw [marksFrom_cons, step_opener ho hs]

/-- The partner of an opening bracket is looked for in what follows it. -/
theorem matching?_opener {o : Char} (ho : isOpener o = true) (r : Text) :
    matching? (o :: r) = ((marksFrom .free { stack := [o], previous := some o } r).findIdx?
      fun m => m.isTop && isCloser m.char).map (· + 1) := by
  have hm : marks (o :: r) = _ := marksFrom_opener ho rfl r
  rw [matching?, hm, List.zipIdx_cons, List.drop_succ_cons, List.drop_zero]
  exact find?_zipIdx (fun m : Mark => m.isTop && isCloser m.char) _ 1

/-- What `matching?` finds: a closing bracket of the same kind, with all code in between inside the
pair, and nothing open behind it. -/
theorem matching?_spec {o : Char} {r : Text} {i : Nat} (ho : isOpener o = true)
    (h : matching? (o :: r) = some i) :
    ∃ inner c s' rest,
      marks (o :: r) = ⟨o, 0, .code⟩ :: inner ++ ⟨c, 0, .code⟩ :: marksFrom .free s' rest ∧
      inner.length + 1 = i ∧ openerOf c = some o ∧ s'.settled = true ∧
      ∀ m ∈ inner, m.isCode = true → 1 ≤ m.depth := by
  have hm : marks (o :: r) = _ := marksFrom_opener ho rfl r
  obtain ⟨j, hj, rfl⟩ := Option.map_eq_some_iff.mp ((matching?_opener ho r).symm.trans h)
  obtain ⟨inner, c, s', rest, he, hl, hrest⟩ := closes_outermost .free _ r [] rfl hj
  exact ⟨inner, c, s', rest, by rw [hm, he]; rfl, by rw [hl], hrest⟩

/-- The text of a pair of brackets and the text behind it, read off its marks. -/
theorem take_drop_pair {o c : Char} {r rest : Text} {s' : State} {inner : List Mark}
    (hm : marks (o :: r) = ⟨o, 0, .code⟩ :: inner ++ ⟨c, 0, .code⟩ :: marksFrom .free s' rest) :
    (o :: r).take (inner.length + 2) = o :: inner.map Mark.char ++ [c] ∧
      (o :: r).drop (inner.length + 2) = rest := by
  have hr := congrArg (List.map Mark.char) hm
  simp only [map_char_marks, List.map_append, List.map_cons, map_char_marksFrom] at hr
  have he : o :: r = (o :: inner.map Mark.char ++ [c]) ++ rest := by simpa using hr
  have hl : (o :: inner.map Mark.char ++ [c]).length = inner.length + 2 := by simp
  rw [he, List.take_left' hl, List.drop_left' hl]
  exact ⟨rfl, rfl⟩

theorem eq_of_openerOf {c d o : Char} (hc : openerOf c = some o) (hd : openerOf d = some o) :
    c = d := by
  unfold openerOf at hc hd
  split at hc <;> cases hc <;> split at hd <;> first | rfl | simp at hd

theorem getElem?_of_marks {t : Text} {s : State} {i : Nat} {m : Mark}
    (h : (marks t s)[i]? = some m) : t[i]? = some m.char := by
  have hi := congrArg (·[i]?) (map_char_marks t s)
  simp only [List.getElem?_map, h, Option.map_some] at hi
  exact hi.symm

theorem findCode?_spec {target : Char} {t : Text} {i : Nat} (h : findCode? target t = some i) :
    t[i]? = some target := by
  obtain ⟨m, hm, hp⟩ : ∃ m, (marks t)[i]? = some m ∧ (m.isCode && m.char == target) = true := by
    obtain ⟨hi, hp, -⟩ := List.findIdx?_eq_some_iff_getElem.mp h
    exact ⟨_, List.getElem?_eq_getElem hi, hp⟩
  simp only [Bool.and_eq_true, beq_iff_eq] at hp
  rw [getElem?_of_marks hm, hp.2]

theorem findTop?_spec {targets : List Char} {t : Text} {start i : Nat}
    (h : findTop? targets t start = some i) : ∃ c ∈ targets, t[i]? = some c := by
  obtain ⟨⟨m, j⟩, hf, rfl⟩ := Option.map_eq_some_iff.mp h
  have hp := List.find?_some hf
  have hm := List.mem_zipIdx_iff_getElem?.mp (List.mem_of_find?_eq_some hf)
  simp only [Bool.and_eq_true, List.contains_iff_mem] at hp
  exact ⟨m.char, hp.2, getElem?_of_marks hm⟩

theorem findTop?_eq (c : Char) (t : Text) :
    findTop? [c] t = (marks t).findIdx? fun m => m.isTop && m.char == c := by
  have hzip := find?_zipIdx (fun m : Mark => m.isTop && m.char == c) (marks t) 0
  simp only [Nat.add_zero, Option.map_id'] at hzip
  have htarget : (fun x : Mark × Nat => decide (0 ≤ x.2) && x.1.isTop && [c].contains x.1.char) =
      fun x => x.1.isTop && x.1.char == c := by
    funext x
    simp [Bool.beq_eq_decide_eq]
  rw [← hzip, findTop?, htarget]

/-- What `findTop?` finds is a mark of code. -/
theorem findTop?_mark {c : Char} {t : Text} {i : Nat} (h : findTop? [c] t = some i) :
    ∃ m, (marks t)[i]? = some m ∧ m.isCode = true ∧ m.char = c := by
  rw [findTop?_eq] at h
  obtain ⟨hi, hp, -⟩ := List.findIdx?_eq_some_iff_getElem.mp h
  simp only [Bool.and_eq_true, beq_iff_eq, Mark.isTop] at hp
  exact ⟨_, List.getElem?_eq_getElem hi, hp.1.1, hp.2⟩

theorem findCode?_mark {c : Char} {t : Text} {i : Nat} (h : findCode? c t = some i) :
    ∃ m, (marks t)[i]? = some m ∧ m.isCode = true ∧ m.char = c := by
  obtain ⟨hi, hp, -⟩ := List.findIdx?_eq_some_iff_getElem.mp h
  simp only [Bool.and_eq_true, beq_iff_eq] at hp
  exact ⟨_, List.getElem?_eq_getElem hi, hp.1, hp.2⟩

/-- A text is put together again from what stands around and between a pair of brackets. -/
theorem aroundPair?_spec {t before inside after : Text} {i : Nat} {o d : Char}
    (ho : isOpener o = true) (hd : openerOf d = some o) (hi : t[i]? = some o)
    (h : aroundPair? t i = some (before, inside, after)) :
    t = before ++ o :: inside ++ d :: after := by
  obtain ⟨j, hj, he⟩ := Option.map_eq_some_iff.mp h
  obtain ⟨hlt, hget⟩ := List.getElem?_eq_some_iff.mp hi
  have hdrop : t.drop i = o :: t.drop (i + 1) := by rw [List.drop_eq_getElem_cons hlt, hget]
  rw [hdrop] at hj
  obtain ⟨inner, c, s', rest, hm, hl, hc, -, -⟩ := matching?_spec ho hj
  obtain ⟨htake, hrest⟩ := take_drop_pair hm
  have hr : t.drop (i + 1) = inner.map Mark.char ++ c :: rest := by
    have h := List.take_append_drop (inner.length + 2) (o :: t.drop (i + 1))
    rw [htake, hrest] at h
    simpa using h.symm
  simp only [Prod.mk.injEq] at he
  obtain ⟨rfl, rfl, rfl⟩ := he
  have hin : (t.drop (i + 1)).take (j - 1) = inner.map Mark.char := by
    rw [hr, ← hl, Nat.add_sub_cancel, List.take_left' (by simp)]
  have haf : t.drop (i + j + 1) = rest := by
    rw [← hrest, ← hdrop, List.drop_drop, ← hl]
    congr 1
  rw [hin, haf, eq_of_openerOf hd hc]
  calc
    t = t.take i ++ t.drop i := (List.take_append_drop i t).symm
    _ = _ := by rw [hdrop, hr]; simp

end SourceLayout.Scan
