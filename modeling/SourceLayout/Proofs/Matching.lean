import SourceLayout.Proofs.Brackets

/-! The partner of a bracket. The search stops at the first closing bracket outside all others,
which is of the kind of the bracket it starts from. Angle brackets, comparisons and arrows
cannot lead it astray: the open brackets without the angle brackets are those of a text that has
none, so a pair of other brackets with well nested brackets between them is found whatever angle
brackets stand among them. -/

namespace SourceLayout.Scan
open Text

/-! ## Brackets other than angle brackets -/

def isPlainBracket (c : Char) : Bool := (isOpener c || isCloser c) && c != '<' && c != '>'

def plainBrackets (ms : List Mark) : Text :=
  ((ms.filter Mark.isCode).map Mark.char).filter isPlainBracket

/-- Words of brackets in which every bracket has its partner. -/
inductive Paired : Text → Prop
  | nil : Paired []
  | pair {o c : Char} {a b : Text} (h : openerOf c = some o) (ha : Paired a) (hb : Paired b) :
      Paired (o :: (a ++ c :: b))

/-- The word closes all the open brackets, given innermost first, and closes the outermost one
with its last bracket. -/
def ClosesAll : List Char → Text → Prop
  | _, [] => False
  | [], _ => False
  | o :: rest, c :: w =>
    if isOpener c then ClosesAll (c :: o :: rest) w
    else openerOf c = some o ∧ (rest = [] ∧ w = [] ∨ rest ≠ [] ∧ ClosesAll rest w)

theorem isOpener_of_pair {c o : Char} (h : openerOf c = some o) :
    isOpener o = true ∧ isOpener c = false := by
  unfold openerOf at h
  split at h <;> cases h <;> decide

/-- A well nested word in front changes nothing. -/
theorem Paired.closesAll {a : Text} (ha : Paired a) {opens : List Char} (hne : opens ≠ [])
    {w : Text} (h : ClosesAll opens w) : ClosesAll opens (a ++ w) := by
  induction ha generalizing opens w with
  | nil => exact h
  | @pair o c a b hpair _ _ iha ihb =>
    obtain ⟨ho, hc⟩ := isOpener_of_pair hpair
    obtain ⟨o', rest, rfl⟩ := List.exists_cons_of_ne_nil hne
    have hclose : ClosesAll (o :: o' :: rest) (c :: (b ++ w)) := by
      rw [ClosesAll, if_neg (by simp [hc])]
      exact ⟨hpair, .inr ⟨hne, ihb hne h⟩⟩
    have hopen := iha (List.cons_ne_nil o _) hclose
    rw [List.cons_append, ClosesAll, if_pos ho]
    simpa using hopen

theorem Paired.closesAll_pair {a : Text} (ha : Paired a) {o c : Char} (h : openerOf c = some o) :
    ClosesAll [o] (a ++ [c]) := by
  refine ha.closesAll (by simp) ?_
  rw [ClosesAll, if_neg (by simp [(isOpener_of_pair h).2])]
  exact ⟨h, .inl ⟨rfl, rfl⟩⟩

/-! ## The open brackets without the angle brackets -/

def State.plainStack (s : State) : List Char := s.stack.filter (· != '<')

theorem closeBracket_plain {c o : Char} {stack rest : List Char} (hc : c ≠ '>')
    (h : stack.filter (· != '<') = o :: rest) :
    (closeBracket c o stack).filter (· != '<') = rest := by
  have ho : o ∈ stack := by
    have hmem : o ∈ stack.filter (· != '<') := by rw [h]; exact List.mem_cons_self
    exact (List.mem_filter.mp hmem).1
  have hdrop : ((stack.dropWhile (· != o)).tail).filter (· != '<') = rest := by
    clear ho
    induction stack with
    | nil => cases h
    | cons a stack ih =>
      by_cases ha : a = o
      · subst ha
        rw [List.dropWhile_cons_of_neg (by simp), List.tail_cons]
        rw [List.filter_cons] at h
        split at h
        · exact (List.cons.inj h).2
        · -- an angle bracket is not among the others
          next hangle =>
          have hmem : a ∈ stack.filter (· != '<') := by rw [h]; exact List.mem_cons_self
          exact absurd (List.mem_filter.mp hmem).2 hangle
      · rw [List.dropWhile_cons_of_pos (by simpa using ha)]
        apply ih
        rw [List.filter_cons] at h
        split at h
        · exact absurd (List.cons.inj h).1 ha
        · exact h
  unfold closeBracket
  split
  · next hhead =>
    rw [← hdrop]
    cases stack with
    | nil => rfl
    | cons a stack =>
      obtain rfl : a = o := by simpa using hhead
      rw [List.dropWhile_cons_of_neg (by simp)]
  · rw [if_pos (by simpa [hc] using ho)]
    exact hdrop

/-- A bracket that is no angle bracket does to the others what it would do alone. -/
theorem plainStack_readCode_close {s : State} {c o : Char} {rest : List Char}
    (hc : openerOf c = some o) (hangle : c ≠ '>') (h : s.plainStack = o :: rest) :
    (s.readCode c).plainStack = rest := by
  have hstack : (s.readCode c).stack = closeBracket c o s.stack := by
    simp [State.readCode, (isOpener_of_pair hc).2, hc, hangle]
  rw [State.plainStack, hstack]
  exact closeBracket_plain hangle h

/-- Angle brackets and what is no bracket leave the other brackets alone. -/
theorem plainStack_readCode_other {s : State} {c : Char} (hc : isPlainBracket c = false) :
    (s.readCode c).plainStack = s.plainStack := by
  by_cases hopen : c = '<'
  · subst hopen
    rfl
  by_cases hclose : c = '>'
  · subst hclose
    have hclosed : (closeBracket '>' '<' s.stack).filter (· != '<') =
        s.stack.filter (· != '<') := by
      unfold closeBracket
      split
      · cases hs : s.stack with
        | nil => rfl
        | cons a stack =>
          obtain rfl : a = '<' := by simpa [hs] using ‹s.stack.head? = some '<'›
          rfl
      · rfl
    simp only [State.plainStack, State.readCode]
    rw [if_neg (by decide)]
    simp only [openerOf]
    split
    · rfl
    · exact hclosed
  · have hnone : isOpener c = false ∧ openerOf c = none := by
      simpa [isPlainBracket, hopen, hclose, isCloser] using hc
    simp [State.plainStack, State.readCode, hnone.1, hnone.2]

theorem depth_pos_of_plainStack {s : State} (h : s.plainStack ≠ []) : 1 ≤ s.depth := by
  have hne : s.stack ≠ [] := by
    intro hnil
    exact h (by rw [State.plainStack, hnil]; rfl)
  exact List.length_pos_iff.mpr hne

/-- As long as such a bracket is open, so is the outermost one, and what is read is inside it. -/
theorem readCode_inside {s : State} {c b : Char} {stack : List Char} (hs : s.stack = stack ++ [b])
    (h : s.plainStack ≠ []) (hafter : (s.readCode c).plainStack ≠ []) :
    (∃ stack', (s.readCode c).stack = stack' ++ [b]) ∧ min s.depth (s.readCode c).depth ≠ 0 := by
  constructor
  · rcases readCode_append s c b stack hs with ⟨hnil, -⟩ | hrest
    · exact absurd (by rw [State.plainStack, hnil]; rfl) hafter
    · exact hrest
  · have hbefore := depth_pos_of_plainStack h
    have hbehind := depth_pos_of_plainStack hafter
    omega

/-! ## The search -/

theorem plainBrackets_cons (m : Mark) (ms : List Mark) :
    plainBrackets (m :: ms) =
      (if m.isCode && isPlainBracket m.char then [m.char] else []) ++ plainBrackets ms := by
  cases hm : m.isCode with
  | false => simp [plainBrackets, hm]
  | true => cases hc : isPlainBracket m.char <;> simp [plainBrackets, hm, hc]

/-- The search finds the bracket with which the outermost open one is closed, if the brackets up to
there close all that are open, angle brackets aside. -/
theorem findIdx?_of_closesAll {b : Char} (hb : b ≠ '<') {p : Phase} {s : State} {t : Text} {j : Nat}
    {m : Mark} {stack : List Char} (hs : s.stack = stack ++ [b])
    (hj : (marksFrom p s t)[j]? = some m) (hcode : m.isCode = true)
    (hm : isPlainBracket m.char = true)
    (h : ClosesAll s.plainStack (plainBrackets ((marksFrom p s t).take (j + 1)))) :
    (marksFrom p s t).findIdx? (fun m => m.isTop && isCloser m.char) = some j := by
  induction t generalizing p s j stack with
  | nil => simp [marksFrom] at hj
  | cons c r ih =>
    have hopen : s.plainStack ≠ [] := by
      rw [State.plainStack, hs, List.filter_append]
      simp [hb]
    rw [marksFrom_cons] at hj h ⊢
    rw [List.take_succ_cons, plainBrackets_cons, step_char] at h
    -- a mark that is passed over leaves the search to the rest
    have hpass {s' : State} {p' : Phase} {stack' : List Char}
        (hstate : (step p s c r.head?).2 = (p', s')) (hs' : s'.stack = stack' ++ [b])
        (htop : ((step p s c r.head?).1.isTop && isCloser c) = false) (hpos : j ≠ 0)
        (hrest : ClosesAll s'.plainStack (plainBrackets ((marksFrom p' s' r).take j))) :
        ((step p s c r.head?).1 :: marksFrom (step p s c r.head?).2.1 (step p s c r.head?).2.2
          r).findIdx? (fun m => m.isTop && isCloser m.char) = some j := by
      obtain ⟨i, rfl⟩ := Nat.exists_eq_succ_of_ne_zero hpos
      rw [hstate] at hj ⊢
      rw [List.findIdx?_cons, step_char, htop, ih hs' hj hrest]
      rfl
    rcases step_cases p s c r.head? with ⟨-, -, hstep⟩ | ⟨k, p', s', hk, hst, hstep⟩
    · rw [hstep] at hj h hpass
      simp only at hj h hpass
      rw [hstep]
      cases hplain : isPlainBracket c with
      | false =>
        rw [hplain, Bool.and_false, if_neg (by simp), List.nil_append] at h
        have hrest := plainStack_readCode_other (s := s) hplain
        obtain ⟨⟨stack', hs'⟩, hne⟩ :=
          readCode_inside (c := c) hs hopen (by rw [hrest]; exact hopen)
        refine hpass rfl hs' (by simp [Mark.isTop, hne]) ?_ (by rw [hrest]; exact h)
        rintro rfl
        cases hj
        rw [hplain] at hm
        cases hm
      | true =>
        rw [hplain, if_pos (by rfl), List.singleton_append] at h
        obtain ⟨o, rest, hplainStack⟩ := List.exists_cons_of_ne_nil hopen
        rw [hplainStack, ClosesAll] at h
        split at h
        · -- one more bracket opens
          next hc =>
          have hangle : c ≠ '<' := by rintro rfl; cases hplain
          have hstack : (s.readCode c).stack = c :: s.stack := by simp [State.readCode, hc]
          have hafter : (s.readCode c).plainStack = c :: s.plainStack := by
            rw [State.plainStack, hstack, List.filter_cons_of_pos (by simpa using hangle)]
            rfl
          have hcloser : isCloser c = false := by
            rw [Bool.eq_false_iff]
            intro hcl
            obtain ⟨o', ho'⟩ := Option.isSome_iff_exists.mp hcl
            rw [(isOpener_of_pair ho').2] at hc
            cases hc
          have hs' : (s.readCode c).stack = (c :: stack) ++ [b] := by rw [hstack, hs]; rfl
          refine hpass rfl hs' (by simp [hcloser]) ?_ (by rw [hafter, hplainStack]; exact h)
          rintro rfl
          rw [List.take_zero] at h
          exact h
        · obtain ⟨hpair, hend⟩ := h
          have hangle : c ≠ '>' := by rintro rfl; cases hplain
          have hafter := plainStack_readCode_close hpair hangle hplainStack
          rcases hend with ⟨hlast, hnil⟩ | ⟨hmore, hend⟩
          · -- the outermost bracket is closed here
            have hzero : j = 0 := by
              cases j with
              | zero => rfl
              | succ i =>
                have hmem : m.char ∈ plainBrackets
                    ((marksFrom .free (s.readCode c) r).take (i + 1)) := by
                  refine List.mem_filter.mpr ⟨List.mem_map_of_mem (List.mem_filter.mpr ⟨?_, hcode⟩),
                    hm⟩
                  exact List.mem_of_getElem?
                    ((List.getElem?_take_of_lt (Nat.lt_succ_self i)).trans hj)
                rw [hnil] at hmem
                cases hmem
            subst hzero
            have hempty : (s.readCode c).stack = [] := by
              rcases readCode_append s c b stack hs with ⟨hempty, -⟩ | ⟨stack', hs'⟩
              · exact hempty
              · rw [State.plainStack, hs', List.filter_append, hlast] at hafter
                simp [hb] at hafter
            have hzero : (s.readCode c).depth = 0 := by rw [State.depth, hempty]; rfl
            rw [List.findIdx?_cons, if_pos]
            simp [Mark.isTop, Mark.isCode, hzero, isCloser, hpair]
          · obtain ⟨⟨stack', hs'⟩, hne⟩ :=
              readCode_inside (c := c) hs hopen (by rw [hafter]; exact hmore)
            refine hpass rfl hs' (by simp [Mark.isTop, hne]) ?_ (by rw [hafter]; exact hend)
            rintro rfl
            rw [List.take_zero] at hend
            cases rest <;> exact hend
    · have hnot : (Mark.isCode ⟨c, s.depth, k⟩) = false := by simpa [Mark.isCode] using hk
      rw [hstep] at hj h hpass
      simp only at hj h hpass
      rw [hstep]
      rw [hnot, Bool.false_and, if_neg (by simp), List.nil_append] at h
      refine hpass rfl (hst.trans hs) (by simp [Mark.isTop, hnot]) ?_ ?_
      · rintro rfl
        cases hj
        rw [hnot] at hcode
        cases hcode
      · rw [State.plainStack, hst]
        exact h

/-- Where no bracket closes outside all others, all code stays inside the outermost open bracket. -/
theorem depth_pos_of_unclosed {b : Char} {p : Phase} {s : State} {t : Text} {stack : List Char}
    (hs : s.stack = stack ++ [b])
    (h : (marksFrom p s t).findIdx? (fun m => m.isTop && isCloser m.char) = none) :
    ∀ m ∈ marksFrom p s t, m.isCode = true → 1 ≤ m.depth := by
  induction t generalizing p s stack with
  | nil => simp [marksFrom]
  | cons c r ih =>
    rw [marksFrom_cons, List.findIdx?_cons] at h
    rw [marksFrom_cons]
    split at h
    · cases h
    · next htop =>
      rw [Option.map_eq_none_iff] at h
      rcases step_cases p s c r.head? with ⟨-, -, hstep⟩ | ⟨k, p', s', hk, hst, hstep⟩
      · rw [hstep] at h htop ⊢
        rcases readCode_append s c b stack hs with ⟨hnil, hc⟩ | ⟨stack', hs'⟩
        · have hzero : (s.readCode c).depth = 0 := by rw [State.depth, hnil]; rfl
          simp [Mark.isTop, Mark.isCode, hzero, isCloser, hc] at htop
        · have hpos : 1 ≤ min s.depth (s.readCode c).depth := by simp [State.depth, hs, hs']
          exact List.forall_mem_cons.mpr ⟨fun _ => hpos, ih hs' h⟩
      · rw [hstep] at h ⊢
        refine List.forall_mem_cons.mpr ⟨fun hcode => ?_, ih (hst.trans hs) h⟩
        simp [Mark.isCode, hk] at hcode

/-- What is found closes the bracket: it is of its kind, and all the code between the
two is inside the pair. -/
theorem matching?_closes {o : Char} (ho : isOpener o = true) {r : Text} {j : Nat}
    (h : matching? (o :: r) = some j) :
    0 < j ∧ (∃ c, (o :: r)[j]? = some c ∧ openerOf c = some o ∧
      (marks (o :: r))[j]? = some ⟨c, 0, .code⟩) ∧
      ∀ l m, 0 < l → l < j → (marks (o :: r))[l]? = some m → m.isCode = true → 1 ≤ m.depth := by
  obtain ⟨inner, c, s', rest, hmarks, hlen, hc, -, hin⟩ := matching?_spec ho h
  have hat : (marks (o :: r))[j]? = some ⟨c, 0, .code⟩ := by
    rw [hmarks, ← hlen, List.cons_append, List.getElem?_cons_succ,
      List.getElem?_append_right (Nat.le_refl _), Nat.sub_self, List.getElem?_cons_zero]
  have hchar : (o :: r)[j]? = some c := by
    rw [← map_char_marks (o :: r), List.getElem?_map, hat]
    rfl
  refine ⟨by omega, ⟨c, hchar, hc, hat⟩, ?_⟩
  intro l m hl hlj hm hcode
  obtain ⟨l, rfl⟩ := Nat.exists_eq_succ_of_ne_zero (Nat.ne_of_gt hl)
  rw [hmarks, List.cons_append, List.getElem?_cons_succ, List.getElem?_append_left (by omega)] at hm
  exact hin m (List.mem_of_getElem? hm) hcode

/-- Nothing is found exactly if the text never comes back to depth 0. -/
theorem matching?_eq_none_iff {o : Char} (ho : isOpener o = true) (r : Text) :
    matching? (o :: r) = none ↔
      ∀ l m, 0 < l → (marks (o :: r))[l]? = some m → m.isCode = true → m.depth ≠ 0 := by
  have hmarks : marks (o :: r) = _ := marksFrom_opener ho rfl r
  rw [matching?_opener ho, Option.map_eq_none_iff]
  constructor
  · intro h l m hl hm hcode
    obtain ⟨l, rfl⟩ := Nat.exists_eq_succ_of_ne_zero (Nat.ne_of_gt hl)
    rw [hmarks, List.getElem?_cons_succ] at hm
    have hstack : ({ stack := [o], previous := some o } : State).stack = [] ++ [o] := rfl
    have hpos := depth_pos_of_unclosed hstack h m (List.mem_of_getElem? hm) hcode
    omega
  · intro h
    rw [List.findIdx?_eq_none_iff]
    intro m hm
    obtain ⟨l, hl⟩ := List.getElem?_of_mem hm
    have hne := h (l + 1) m (Nat.succ_pos l) (by rw [hmarks, List.getElem?_cons_succ]; exact hl)
    cases hcode : m.isCode with
    | false => simp [Mark.isTop, hcode]
    | true => simp [Mark.isTop, hne hcode]

/-- A bracket that is no angle bracket is closed by the bracket of its kind up to which
the others are paired. -/
theorem matching?_of_paired {o c : Char} (hangle : o ≠ '<') {r w : Text} {j : Nat} {m : Mark}
    (hc : openerOf c = some o) (hj : (marks (o :: r))[j + 1]? = some m) (hm : m.char = c)
    (hcode : m.isCode = true)
    (hword : plainBrackets ((marks (o :: r)).take (j + 2)) = o :: (w ++ [c])) (hw : Paired w) :
    matching? (o :: r) = some (j + 1) := by
  have ho := (isOpener_of_pair hc).1
  have hmarks : marks (o :: r) = _ := marksFrom_opener ho rfl r
  have hplain : isPlainBracket m.char = true := by
    have hmem : c ∈ plainBrackets ((marks (o :: r)).take (j + 2)) := by rw [hword]; simp
    rw [hm]
    exact (List.mem_filter.mp hmem).2
  have hrest : plainBrackets
      ((marksFrom .free { stack := [o], previous := some o } r).take (j + 1)) = w ++ [c] := by
    have ho' : isPlainBracket o = true := by
      have hmem : o ∈ plainBrackets ((marks (o :: r)).take (j + 2)) := by rw [hword]; simp
      exact (List.mem_filter.mp hmem).2
    rw [hmarks, List.take_succ_cons, plainBrackets_cons, if_pos (by simpa [Mark.isCode] using ho')]
      at hword
    exact (List.cons.inj hword).2
  rw [hmarks, List.getElem?_cons_succ] at hj
  have hstack : ({ stack := [o], previous := some o } : State).stack = [] ++ [o] := rfl
  have hfind := findIdx?_of_closesAll hangle hstack hj hcode hplain (by
      rw [hrest, State.plainStack, List.filter_cons_of_pos (by simpa using hangle)]
      exact hw.closesAll_pair hc)
  rw [matching?_opener ho, hfind]
  rfl

theorem matchingAt?_nat (t : Text) (i : Nat) :
    matchingAt? t i = (matching? (t.drop i)).map fun j => ((i + j : Nat) : Int) := by
  rw [matchingAt?, dropFrom, if_pos (Int.natCast_nonneg i), Int.toNat_natCast]
  cases matching? (t.drop i) <;> rfl

/-- What is found for an opening bracket is the bracket that closes it: one of its kind behind it,
with all the code between the two inside the pair. Nothing is found exactly if the text from the
bracket on never comes back to depth 0. And for a bracket that is no angle bracket, a closing
bracket of its kind is found as soon as the brackets between the two are paired, whatever angle
brackets, strings and comments stand among them. -/
theorem matchingAt?_partner {t : Text} {i : Nat} {o : Char} (ho : isOpener o = true)
    (hi : t[i]? = some o) :
    (∀ j, matchingAt? t i = some j → ∃ k : Nat, j = k ∧ i < k ∧ k < t.length ∧
      (∃ c, t[k]? = some c ∧ openerOf c = some o ∧
        (marks (t.drop i))[k - i]? = some ⟨c, 0, .code⟩) ∧
      ∀ l m, i < l → l < k → (marks (t.drop i))[l - i]? = some m → m.isCode = true → 1 ≤ m.depth) ∧
    (matchingAt? t i = none ↔
      ∀ l m, i < l → (marks (t.drop i))[l - i]? = some m → m.isCode = true → m.depth ≠ 0) ∧
    (o ≠ '<' → ∀ k m w, i < k → (marks (t.drop i))[k - i]? = some m → m.isCode = true →
      openerOf m.char = some o →
      plainBrackets ((marks (t.drop i)).take (k - i + 1)) = o :: (w ++ [m.char]) → Paired w →
      matchingAt? t i = some (k : Int)) := by
  obtain ⟨r, hr⟩ : ∃ r, t.drop i = o :: r := by
    obtain ⟨hlt, hget⟩ := List.getElem?_eq_some_iff.mp hi
    exact ⟨t.drop (i + 1), by rw [List.drop_eq_getElem_cons hlt, hget]⟩
  rw [matchingAt?_nat, hr]
  refine ⟨?_, ?_, ?_⟩
  · intro j hj
    obtain ⟨k, hk, rfl⟩ := Option.map_eq_some_iff.mp hj
    obtain ⟨hpos, ⟨c, hchar, hc, hmark⟩, hinside⟩ := matching?_closes ho hk
    have hat : t[i + k]? = some c := by rw [← hchar, ← hr, List.getElem?_drop]
    refine ⟨i + k, rfl, by omega, (List.getElem?_eq_some_iff.mp hat).1, ⟨c, hat, hc, ?_⟩, ?_⟩
    · rw [Nat.add_sub_cancel_left]
      exact hmark
    · intro l m hl hlk hm hcode
      exact hinside (l - i) m (by omega) (by omega) hm hcode
  · rw [Option.map_eq_none_iff, matching?_eq_none_iff ho]
    constructor
    · intro h l m hl hm hcode
      exact h (l - i) m (by omega) hm hcode
    · intro h l m hl hm hcode
      exact h (i + l) m (by omega) (by rw [Nat.add_sub_cancel_left]; exact hm) hcode
  · intro hangle k m w hk hm hcode hc hword hw
    obtain ⟨j, rfl⟩ : ∃ j, k = i + (j + 1) := ⟨k - i - 1, by omega⟩
    rw [Nat.add_sub_cancel_left] at hm hword
    rw [matching?_of_paired hangle hc hm rfl hcode hword hw]
    rfl

/-- The bracket that opens the arguments is closed by the last one, past a comparison, an arrow and
a bracket in a string. -/
theorem matchingAt?_partner_call :
    matchingAt? "f(a < b, (c) => 'x)')".toList 1 = some 20 :=
  (matchingAt?_partner (t := "f(a < b, (c) => 'x)')".toList) (i := 1) (o := '(') (by decide)
    (by decide)).2.2 (by decide) 20 ⟨')', 0, .code⟩ "()".toList (by decide) (by decide) (by
    decide) (by decide) (by decide)
      (.pair (by decide) .nil .nil)

end SourceLayout.Scan
