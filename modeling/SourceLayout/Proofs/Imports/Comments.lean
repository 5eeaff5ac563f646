import SourceLayout.Proofs.Frame

/-! Which nodes an import block is made of. Every import is followed by a stretch of comments: the
first of them belongs to it, if it begins on the row where the import ends, and the others belong to
the next import. From this follow the comments that a block holds, the one kind of comment it
forgets, and the one node that may reach beyond its rows. -/

namespace SourceLayout
open Text

namespace ImportBlock

/-! ## Stretches of nodes -/

/-- An import and the comments between it and the next one. -/
structure Stretch where
  head : Node
  comments : List Node

namespace Stretch

def nodes (x : Stretch) : List Node := x.head :: x.comments

/-- The comment behind the import: the first one, if it begins on the row where the import ends. -/
def trailing? (x : Stretch) : Option Node :=
  match x.comments with
  | [] => none
  | c :: _ => if c.start.row = x.head.stop.row then some c else none

def others (x : Stretch) : List Node :=
  match x.comments with
  | [] => []
  | c :: cs => if c.start.row = x.head.stop.row then cs else c :: cs

theorem trailing_append_others (x : Stretch) : x.trailing?.toList ++ x.others = x.comments := by
  obtain ⟨head, comments⟩ := x
  cases comments with
  | nil => rfl
  | cons c cs => by_cases hc : c.start.row = head.stop.row <;> simp [trailing?, others, hc]

theorem mem_trailing (x : Stretch) {n : Node} (h : n ∈ x.trailing?) :
    n ∈ x.comments ∧ n.start.row = x.head.stop.row := by
  obtain ⟨head, comments⟩ := x
  cases comments with
  | nil => cases h
  | cons c cs =>
    obtain ⟨hrow, rfl⟩ : c.start.row = head.stop.row ∧ c = n := by simpa [trailing?] using h
    exact ⟨List.mem_cons_self, hrow⟩

/-- One more comment stands behind the import, if it is the first one and begins there; otherwise it
is one of the others. -/
theorem snoc_cases (x : Stretch) (n : Node)
    (hrow : ∀ c ∈ x.comments.head?, x.head.stop.row ≤ c.start.row ∧ c.start.row ≤ n.start.row) :
    (x.comments = [] ∧ n.start.row = x.head.stop.row ∧
        (⟨x.head, x.comments ++ [n]⟩ : Stretch).trailing? = some n ∧
        (⟨x.head, x.comments ++ [n]⟩ : Stretch).others = []) ∨
      ((n.start.row = x.head.stop.row → x.trailing?.isSome = true) ∧
        (⟨x.head, x.comments ++ [n]⟩ : Stretch).trailing? = x.trailing? ∧
        (⟨x.head, x.comments ++ [n]⟩ : Stretch).others = x.others ++ [n]) := by
  obtain ⟨head, comments⟩ := x
  cases comments with
  | nil =>
    by_cases hn : n.start.row = head.stop.row
    · left
      simp [trailing?, others, hn]
    · right
      simp [trailing?, others, hn]
  | cons c cs =>
    right
    have hc := hrow c rfl
    by_cases hon : c.start.row = head.stop.row
    · simp [trailing?, others, hon]
    · have hn : n.start.row ≠ head.stop.row := by
        dsimp only at hc
        omega
      simp [trailing?, others, hon, hn]

end Stretch

/-- The stretches of a list of nodes, up to the first node that is
neither an import nor a comment. -/
def stretches : List Node → List Stretch
  | [] => []
  | n :: r =>
    match n.kind with
    | .importStatement => ⟨n, r.takeWhile (·.kind == .comment)⟩ :: stretches r
    | .comment => stretches r
    | _ => []

theorem stretches_of_other {n : Node} (himport : n.kind ≠ .importStatement)
    (hcomment : n.kind ≠ .comment) (r : List Node) : stretches (n :: r) = [] := by
  unfold stretches
  split
  · next hk => exact absurd hk himport
  · next hk => exact absurd hk hcomment
  · rfl

def isBlockNode (n : Node) : Bool := n.kind == .importStatement || n.kind == .comment

theorem takeWhile_append_stretches (nodes : List Node) :
    nodes.takeWhile (·.kind == .comment) ++ (stretches nodes).flatMap Stretch.nodes =
      nodes.takeWhile isBlockNode := by
  induction nodes with
  | nil => rfl
  | cons n r ih =>
    by_cases himport : n.kind = .importStatement
    · simp [stretches, himport, isBlockNode, Stretch.nodes, ← ih]
    · by_cases hcomment : n.kind = .comment
      · simp [stretches, hcomment, isBlockNode, ← ih]
      · simp [stretches_of_other himport hcomment, himport, hcomment, isBlockNode]

theorem kind_of_mem_stretches {nodes : List Node} {x : Stretch} (h : x ∈ stretches nodes) :
    x.head.kind = .importStatement ∧ ∀ c ∈ x.comments, c.kind = .comment := by
  induction nodes with
  | nil => cases h
  | cons n r ih =>
    unfold stretches at h
    split at h
    · next hk =>
      rcases List.mem_cons.mp h with rfl | h
      · exact ⟨hk, fun c hc => by simpa using List.all_eq_true.mp List.all_takeWhile c hc⟩
      · exact ih h
    · exact ih h
    · cases h

/-- Where a statement comes from: its import, the comments above it and the comment behind it. -/
structure Origin where
  node : Node
  leading : List Node := []
  trailing : Option Node := none

namespace Origin

def nodes (o : Origin) : List Node := o.leading ++ o.node :: o.trailing.toList

def comments (o : Origin) : List Node := o.leading ++ o.trailing.toList

def statement (textOf : Node → Text) (o : Origin) : Statement where
  text := textOf o.node
  leading := o.leading.map textOf
  trailing := (o.trailing.map textOf).getD []

end Origin

section

variable (isHeader : Text → Bool) (textOf : Node → Text)

def Stretch.waiting (x : Stretch) : List Node := x.others.filter fun c => !isHeader (textOf c)

/-- The origins of the statements of stretches, with the comments that wait
for the first of them. -/
def originsFrom (above : List Node) : List Stretch → List Origin
  | [] => []
  | x :: r => ⟨x.head, above, x.trailing?⟩ :: originsFrom (x.waiting isHeader textOf) r

def origins (nodes : List Node) : List Origin :=
  originsFrom isHeader textOf [] (stretches (nodes.dropWhile (·.kind != .importStatement)))

structure Reading.At (r : Reading) (above : List Node) (x : Stretch) : Prop where
  latest : r.latest = (⟨x.head, above, x.trailing?⟩ : Origin).statement textOf
  endRow : r.endRow = x.head.stop.row
  pending : r.pending = (x.waiting isHeader textOf).map textOf

end

/-! ## Reading nodes -/

variable {isHeader : Text → Bool} {textOf : Node → Text}

theorem Reading.At.addImport {r : Reading} {above : List Node} {x : Stretch}
    (h : r.At isHeader textOf above x) (n : Node) :
    (r.addImport (textOf n) n.stop.row).At isHeader textOf (x.waiting isHeader textOf) ⟨n, []⟩ :=
  ⟨by simp [Reading.addImport, h.pending, Origin.statement, Stretch.trailing?], rfl, rfl⟩

@[simp] theorem Reading.done_addComment (r : Reading) (row : Nat) (t : Text) :
    (r.addComment isHeader row t).done = r.done := by
  unfold addComment
  split
  · rfl
  · split <;> rfl

/-- A comment that is read lengthens the stretch. -/
theorem Reading.At.addComment {r : Reading} {above : List Node} {x : Stretch}
    (h : r.At isHeader textOf above x) {n : Node}
    (hrow : ∀ c ∈ x.comments.head?, x.head.stop.row ≤ c.start.row ∧ c.start.row ≤ n.start.row)
    (htext : ∀ c ∈ x.comments, textOf c ≠ []) :
    (r.addComment isHeader n.start.row (textOf n)).At isHeader textOf above
    ⟨x.head, x.comments ++ [n]⟩ := by
  obtain ⟨hlatest, hend, hpending⟩ := h
  rcases x.snoc_cases n hrow with ⟨hnil, hn, htrailing, hothers⟩ | ⟨hn, htrailing, hothers⟩
  · have hnone : x.trailing? = none := by simp [Stretch.trailing?, hnil]
    have hwaiting : x.waiting isHeader textOf = [] := by
      simp [Stretch.waiting, Stretch.others, hnil]
    have hadd : r.addComment isHeader n.start.row (textOf n) =
        { r with latest := { r.latest with trailing := textOf n } } := by
      simp [Reading.addComment, hend, hn, hlatest, Origin.statement, hnone]
    rw [hadd]
    refine ⟨?_, hend, ?_⟩
    · simp [hlatest, Origin.statement, htrailing]
    · rw [hpending, hwaiting, Stretch.waiting, hothers]
      rfl
  · have hbehind : ¬(n.start.row = r.endRow ∧ r.latest.trailing = []) := by
      rintro ⟨hrow, hempty⟩
      obtain ⟨c, hc⟩ := Option.isSome_iff_exists.mp (hn (hrow.trans hend))
      have hmem : c ∈ x.comments := by
        rw [← x.trailing_append_others, hc]
        exact List.mem_cons_self
      rw [hlatest] at hempty
      exact htext c hmem (by simpa [Origin.statement, hc] using hempty)
    have hadd : r.addComment isHeader n.start.row (textOf n) =
        if isHeader (textOf n) then r else { r with pending := r.pending ++ [textOf n] } := by
      simp only [Reading.addComment, Bool.and_eq_true, decide_eq_true_eq, List.isEmpty_iff,
        if_neg hbehind]
    rw [hadd]
    cases hh : isHeader (textOf n) with
    | true =>
      refine ⟨by simp [hlatest, htrailing], hend, ?_⟩
      simp [hpending, Stretch.waiting, hothers, hh]
    | false =>
      refine ⟨by simp [hlatest, htrailing], hend, ?_⟩
      simp [hpending, Stretch.waiting, hothers, hh]

/-- What is read from a stretch on: the statements come from the stretches, and the last of these
gives the row where the block ends. -/
theorem collect_stretches {r r' : Reading} {above nodes : List Node} {x : Stretch}
    {following : Option Node} (h : collect textOf isHeader r nodes = .ok (r', following))
    (hr : r.At isHeader textOf above x)
    (ho : (x.nodes ++ nodes).Pairwise fun a b => a.stop.Le b.start)
    (hf : ∀ n ∈ x.nodes ++ nodes, n.start.Le n.stop) (ht : ∀ n ∈ x.comments ++ nodes, textOf n ≠ [])
    {all : List Stretch} (hall : all =
      ⟨x.head, x.comments ++ nodes.takeWhile (·.kind == .comment)⟩ :: stretches nodes) :
    r'.statements = r.done ++ (originsFrom isHeader textOf above all).map (·.statement textOf) ∧
      (∃ y, all.getLast? = some y ∧ r'.endRow = y.head.stop.row) ∧
      following = (nodes.dropWhile isBlockNode).head? := by
  induction nodes generalizing r above x all with
  | nil =>
    cases h
    simp [hall, stretches, originsFrom, Reading.statements, hr.latest, hr.endRow]
  | cons n rest ih =>
    rcases collect_cons h with ⟨hk, h⟩ | ⟨hk, h⟩ | ⟨⟨himport, hcomment⟩, rfl, rfl⟩
    · obtain ⟨hstatements, ⟨y, hlast, hend⟩, hfollowing⟩ := ih h (hr.addImport n)
        (List.pairwise_append.mp ho).2.1 (fun m hm => hf m (List.mem_append_right _ hm))
        (fun m hm => ht m (List.mem_append_right _ (List.mem_cons_of_mem _ hm))) rfl
      have hsplit : all = ⟨x.head, x.comments⟩ ::
          ⟨n, rest.takeWhile (·.kind == .comment)⟩ :: stretches rest := by
        simp [hall, stretches, hk]
      refine ⟨?_, ⟨y, ?_, hend⟩, ?_⟩
      · rw [hstatements, hsplit]
        simp [Reading.addImport, Reading.statements, hr.latest, originsFrom]
      · rw [hsplit]
        exact hlast
      · rw [hfollowing, List.dropWhile_cons_of_pos (by simp [isBlockNode, hk])]
    · have hstretch : x.nodes ++ n :: rest = (⟨x.head, x.comments ++ [n]⟩ : Stretch).nodes ++
          rest := by
        simp [Stretch.nodes]
      have hcomments : x.comments ++ n :: rest = (x.comments ++ [n]) ++ rest := by simp
      have hrow : ∀ c ∈ x.comments.head?, x.head.stop.row ≤ c.start.row ∧
          c.start.row ≤ n.start.row := by
        intro c hc
        have hmem : c ∈ x.comments := List.mem_of_mem_head? hc
        obtain ⟨hx, -, hcross⟩ := List.pairwise_append.mp ho
        have hhead := ((List.pairwise_cons.mp hx).1 c hmem).row_le
        have hcn := (hcross c (List.mem_cons_of_mem _ hmem) n List.mem_cons_self).row_le
        have hcc := (hf c (List.mem_append_left _ (List.mem_cons_of_mem _ hmem))).row_le
        omega
      have hnext := hr.addComment hrow fun c hc => ht c (List.mem_append_left _ hc)
      rw [hstretch] at ho hf
      rw [hcomments] at ht
      have hsame : all = ⟨x.head, x.comments ++ [n] ++ rest.takeWhile (·.kind == .comment)⟩ ::
          stretches rest := by
        simp [hall, stretches, hk]
      obtain ⟨hstatements, hlast, hfollowing⟩ := ih h hnext ho hf ht hsame
      refine ⟨?_, hlast, ?_⟩
      · rw [hstatements, Reading.done_addComment]
      · rw [hfollowing, List.dropWhile_cons_of_pos (by simp [isBlockNode, hk])]
    · have hnil := stretches_of_other himport hcomment rest
      simp [hall, hnil, himport, hcomment, isBlockNode, originsFrom, Reading.statements, hr.latest,
        hr.endRow]

/-- How a block lies among the nodes of a file: the nodes before it, its stretches, of which the
last is `last`, and the nodes behind it. -/
structure Laid (isHeader : Text → Bool) (rows : List Text) (nodes : List Node) (b : ImportBlock)
    (before : List Node) (init : List Stretch) (last : Stretch) (behind : List Node) : Prop where
  nodes_eq : nodes = before ++ ((init ++ [last]).flatMap Stretch.nodes ++ behind)
  stretches_eq : stretches (nodes.dropWhile (·.kind != .importStatement)) = init ++ [last]
  before_lt : ∀ m ∈ before, ∀ n ∈ ((init ++ [last]).flatMap Stretch.nodes).head?,
    m.stop.row < n.start.row
  behind_gt : ∀ m ∈ behind, last.head.stop.row < m.start.row
  first_eq : ∀ n ∈ ((init ++ [last]).flatMap Stretch.nodes).head?,
    b.first = topRow isHeader rows n.start.row
  last_eq : b.last = bottomRow isHeader rows last.head.stop.row

theorem laid_of_found {rows : List Text} {nodes : List Node} {b : ImportBlock}
    (h : locate isHeader textOf rows nodes = .found b)
    (ho : nodes.Pairwise fun a b => a.stop.Le b.start) (hf : ∀ n ∈ nodes, n.start.Le n.stop)
    (ht : ∀ n ∈ nodes, textOf n ≠ []) :
    b.statements = (origins isHeader textOf nodes).map (·.statement textOf) ∧
      ∃ before init last behind, Laid isHeader rows nodes b before init last behind := by
  obtain ⟨before, n, rest, r, following, rfl, hbefore, hkind, -, hc, hfollowing, hprevious, rfl⟩ :=
    locate_eq_found_iff.mp h
  have hdrop : (before ++ n :: rest).dropWhile (·.kind != .importStatement) = n :: rest := by
    rw [List.dropWhile_append_of_pos fun m hm => by simpa using (hbefore m hm).1,
      List.dropWhile_cons_of_neg]
    simp [hkind]
  obtain ⟨hobefore, horest, hcross⟩ := List.pairwise_append.mp ho
  have hfrest : ∀ m ∈ n :: rest, m.start.Le m.stop := fun m hm => hf m (List.mem_append_right _ hm)
  have hstretches : stretches (n :: rest) = ⟨n, rest.takeWhile (·.kind == .comment)⟩ ::
      stretches rest := by
    simp [stretches, hkind]
  obtain ⟨hstatements, ⟨last, hlast, hend⟩, hbehind⟩ :=
    @collect_stretches isHeader textOf _ _ [] rest ⟨n, []⟩ _ hc
      ⟨rfl, rfl, rfl⟩ horest hfrest
      (fun m hm => ht m (List.mem_append_right _ (List.mem_cons_of_mem _ hm))) _ hstretches
  obtain ⟨init, hinit⟩ := List.getLast?_eq_some_iff.mp hlast
  have hblock : (init ++ [last]).flatMap Stretch.nodes = n :: rest.takeWhile isBlockNode := by
    have htake := takeWhile_append_stretches (n :: rest)
    rw [hinit] at htake
    simpa [hkind, isBlockNode] using htake
  refine ⟨?_, before, init, last, rest.dropWhile isBlockNode, ?_, ?_, ?_, ?_, ?_, ?_⟩
  · rw [origins, hdrop]
    exact hstatements
  · rw [hblock, List.cons_append, List.takeWhile_append_dropWhile]
  · rw [hdrop, hinit]
  · intro m hm k hk
    rw [hblock] at hk
    cases hk
    obtain ⟨z, hz⟩ := List.getLast?_isSome.mpr (List.ne_nil_of_mem hm) |>
      Option.isSome_iff_exists.mp
    have hzn := hprevious z hz
    have hmz := Outline.Placed.stop_le_getLast hobefore
      (fun d hd => hf d (List.mem_append_left _ hd)) hz hm
    omega
  · intro m hm
    obtain ⟨z, hz⟩ := List.isSome_head?.mpr (List.ne_nil_of_mem hm) |> Option.isSome_iff_exists.mp
    have hsub : ∀ d ∈ rest.dropWhile isBlockNode, d ∈ n :: rest := fun d hd =>
      List.mem_cons_of_mem _ ((List.dropWhile_sublist _).subset hd)
    have hzr := hfollowing z (by rw [hbehind, hz]; rfl)
    have hzm := Outline.Placed.head_le_start
      ((List.pairwise_cons.mp horest).2.sublist (List.dropWhile_sublist _))
      (fun d hd => hfrest d (hsub d hd)) hz hm
    omega
  · intro k hk
    rw [hblock] at hk
    cases hk
    rfl
  · rw [hend]

/-! ## What a block holds -/

theorem originsFrom_sublist (above : List Node) (xs : List Stretch) :
    ((originsFrom isHeader textOf above xs).flatMap Origin.nodes).Sublist
    (above ++ xs.flatMap Stretch.nodes) := by
  induction xs generalizing above with
  | nil => exact List.nil_sublist _
  | cons x xs ih =>
    have hrest := ih (x.waiting isHeader textOf)
    have hwaiting : (x.waiting isHeader textOf).Sublist x.others := List.filter_sublist
    have hx : x.nodes = x.head :: (x.trailing?.toList ++ x.others) := by
      rw [Stretch.nodes, x.trailing_append_others]
    simp only [originsFrom, List.flatMap_cons, Origin.nodes, hx, List.append_assoc,
      List.cons_append]
    refine (List.Sublist.refl above).append (List.Sublist.cons_cons _ ?_)
    refine (List.Sublist.refl _).append (hrest.trans ?_)
    exact hwaiting.append (List.Sublist.refl _)

/-- The nodes of origins: what waited above, the nodes of the stretches before the last one, and the
head of this one with the comment behind it. -/
theorem mem_originsFrom {above : List Node} {init : List Stretch} {last : Stretch} {o : Origin}
    {n : Node} (ho : o ∈ originsFrom isHeader textOf above (init ++ [last])) (hn : n ∈ o.nodes) :
    n ∈ above ∨ n ∈ init.flatMap Stretch.nodes ∨ n = last.head ∨ n ∈ last.trailing? := by
  induction init generalizing above with
  | nil =>
    obtain rfl : o = ⟨last.head, above, last.trailing?⟩ := by simpa [originsFrom] using ho
    simpa [Origin.nodes] using hn
  | cons x init ih =>
    rcases List.mem_cons.mp ho with rfl | ho
    · have hx : n ∈ above ∨ n ∈ x.nodes := by
        rw [Stretch.nodes, ← x.trailing_append_others]
        simp only [Origin.nodes, List.mem_append, List.mem_cons] at hn ⊢
        tauto
      rcases hx with hx | hx
      · exact .inl hx
      · exact .inr (.inl (by simp [hx]))
    · rcases ih ho with hw | hi | hl
      · have hx : n ∈ x.nodes := by
          rw [Stretch.nodes, ← x.trailing_append_others]
          exact List.mem_cons_of_mem _ (List.mem_append_right _ (List.mem_filter.mp hw).1)
        exact .inr (.inl (by simp [hx]))
      · exact .inr (.inl (by simp [hi]))
      · exact .inr (.inr hl)

theorem getLast?_originsFrom (above : List Node) (init : List Stretch) (last : Stretch) :
    ∃ waiting, (originsFrom isHeader textOf above (init ++ [last])).getLast? =
      some ⟨last.head, waiting, last.trailing?⟩ := by
  induction init generalizing above with
  | nil => exact ⟨above, rfl⟩
  | cons x init ih =>
    obtain ⟨waiting, h⟩ := ih (x.waiting isHeader textOf)
    exact ⟨waiting, by rw [List.cons_append, originsFrom, List.getLast?_cons, h]; rfl⟩

section

variable {rows : List Text} {nodes before behind : List Node} {b : ImportBlock}
    {init : List Stretch} {last : Stretch}

theorem Laid.end_le (h : Laid isHeader rows nodes b before init last behind) :
    last.head.stop.row ≤ b.last := by
  rw [h.last_eq]
  exact le_bottomRow ..

theorem Laid.block_sublist (h : Laid isHeader rows nodes b before init last behind) :
    ((init ++ [last]).flatMap Stretch.nodes).Sublist nodes := by
  rw [h.nodes_eq]
  exact (List.sublist_append_left _ _).trans (List.sublist_append_right _ _)

/-- The nodes of a block begin within its rows. -/
theorem Laid.first_le (h : Laid isHeader rows nodes b before init last behind)
    (ho : nodes.Pairwise fun a b => a.stop.Le b.start) (hf : ∀ n ∈ nodes, n.start.Le n.stop)
    {m : Node} (hm : m ∈ (init ++ [last]).flatMap Stretch.nodes) : b.first ≤ m.start.row := by
  obtain ⟨n, hn⟩ := List.isSome_head?.mpr (List.ne_nil_of_mem hm) |> Option.isSome_iff_exists.mp
  have hnm := Outline.Placed.head_le_start (ho.sublist h.block_sublist)
    (fun d hd => hf d (h.block_sublist.subset hd)) hn hm
  have htop := topRow_le isHeader rows n.start.row
  rw [← h.first_eq n hn] at htop
  exact Nat.le_trans htop hnm

/-- Up to its last import a block ends within its rows. -/
theorem Laid.le_last (h : Laid isHeader rows nodes b before init last behind)
    (ho : nodes.Pairwise fun a b => a.stop.Le b.start) (hf : ∀ n ∈ nodes, n.start.Le n.stop)
    {m : Node} (hm : m ∈ init.flatMap Stretch.nodes ∨ m = last.head) : m.stop.row ≤ b.last := by
  have hinit : (init.flatMap Stretch.nodes ++ [last.head]).Sublist nodes := by
    rw [h.nodes_eq]
    refine List.Sublist.trans ?_ (List.sublist_append_right _ _)
    simp [Stretch.nodes]
  have hle := Outline.Placed.stop_le_getLast (ho.sublist hinit) (fun d hd => hf d (hinit.subset hd))
    List.getLast?_concat (by simpa using hm)
  exact Nat.le_trans hle h.end_le

end

/-- What a block holds are nodes of the file in their order, and they lie within the rows of the
block: all but the comment behind the last import, which begins there and may end below. So a block
holds its rows exactly when that comment does not go on. -/
theorem nodes_within_block {rows : List Text} {nodes : List Node} {b : ImportBlock}
    (h : locate isHeader textOf rows nodes = .found b)
    (ho : nodes.Pairwise fun a b => a.stop.Le b.start) (hf : ∀ n ∈ nodes, n.start.Le n.stop)
    (ht : ∀ n ∈ nodes, textOf n ≠ []) :
    let sources := origins isHeader textOf nodes
    b.statements = sources.map (·.statement textOf) ∧ (sources.flatMap Origin.nodes).Sublist nodes ∧
      (∀ o ∈ sources, ∀ n ∈ o.nodes, b.first ≤ n.start.row ∧ n.start.row ≤ b.last ∧
        (n.stop.row ≤ b.last ∨ ∃ l ∈ sources.getLast?, l.trailing = some n)) ∧
      ((∀ o ∈ sources, ∀ n ∈ o.nodes, b.first ≤ n.start.row ∧ n.stop.row ≤ b.last) ↔
        ∀ l ∈ sources.getLast?, ∀ c ∈ l.trailing, c.stop.row ≤ b.last) := by
  intro sources
  obtain ⟨hstatements, before, init, last, behind, hlaid⟩ := laid_of_found h ho hf ht
  have hsources : sources = originsFrom isHeader textOf [] (init ++ [last]) := by
    rw [← hlaid.stretches_eq]
    rfl
  obtain ⟨waiting, hlast⟩ := @getLast?_originsFrom isHeader textOf [] init last
  rw [← hsources] at hlast
  have hwithin : ∀ o ∈ sources, ∀ n ∈ o.nodes, b.first ≤ n.start.row ∧ n.start.row ≤ b.last ∧
      (n.stop.row ≤ b.last ∨ ∃ l ∈ sources.getLast?, l.trailing = some n) := by
    intro o hmem n hn
    rw [hsources] at hmem
    have hheld := mem_originsFrom hmem hn
    simp only [List.not_mem_nil, false_or, ← or_assoc] at hheld
    rcases hheld with hinit | htrailing
    · have hblock : n ∈ (init ++ [last]).flatMap Stretch.nodes := by
        rcases hinit with hinit | rfl
        · simp [hinit]
        · simp [Stretch.nodes]
      have hforward := (hf n (hlaid.block_sublist.subset hblock)).row_le
      have hstop := hlaid.le_last ho hf hinit
      exact ⟨hlaid.first_le ho hf hblock, by omega, .inl hstop⟩
    · obtain ⟨hcomment, hrow⟩ := last.mem_trailing htrailing
      have hblock : n ∈ (init ++ [last]).flatMap Stretch.nodes := by simp [Stretch.nodes, hcomment]
      exact ⟨hlaid.first_le ho hf hblock, hrow ▸ hlaid.end_le, .inr ⟨_, hlast, htrailing⟩⟩
  refine ⟨hstatements, ?_, hwithin, ?_, ?_⟩
  · rw [hsources]
    exact (originsFrom_sublist [] (init ++ [last])).trans hlaid.block_sublist
  · intro hall l hl c hc
    have hmem : c ∈ l.nodes := by simp [Origin.nodes, Option.mem_def.mp hc]
    exact (hall l (List.mem_of_getLast? hl) c hmem).2
  · intro htrailing o hmem n hn
    obtain ⟨hfirst, -, hstop | ⟨l, hl, hln⟩⟩ := hwithin o hmem n hn
    · exact ⟨hfirst, hstop⟩
    · exact ⟨hfirst, htrailing l hl n hln⟩

theorem nodes_within_block_two_imports :
    let rows := lines "import b from 'b'; // x\n// y\nimport a from 'a'; /* z */".toList
    let nodes : List Node := [
      { kind := .importStatement, start := ⟨0, 0⟩, stop := ⟨0, 18⟩ },
      { kind := .comment, start := ⟨0, 19⟩, stop := ⟨0, 23⟩ },
      { kind := .comment, start := ⟨1, 0⟩, stop := ⟨1, 4⟩ },
      { kind := .importStatement, start := ⟨2, 0⟩, stop := ⟨2, 18⟩ },
      { kind := .comment, start := ⟨2, 19⟩, stop := ⟨2, 26⟩ }]
    let sources := origins (Header.isHeader {}) (·.textIn rows) nodes
    sources.map (fun o => (o.nodes).length) = [2, 3] ∧ ∀ o ∈ sources, ∀ n ∈ o.nodes,
    n.stop.row ≤ 2 := by
  intro rows nodes sources
  have hb : locate (Header.isHeader {}) (·.textIn rows) rows nodes = .found {
      first := 0
      last := 2
      statements := [
        { text := "import b from 'b';".toList, trailing := "// x".toList },
        { text := "import a from 'a';".toList, leading := ["// y".toList],
          trailing := "/* z */".toList }] } := by
    decide +kernel
  obtain ⟨-, -, -, hwithin⟩ :=
    nodes_within_block hb (by decide +kernel) (by decide +kernel) (by decide +kernel)
  exact ⟨by decide +kernel, fun o ho n hn => (hwithin.mpr (by decide +kernel) o ho n hn).2⟩

/-- A comment of two rows behind the last import goes on below the block that holds it. -/
theorem trailing_comment_beyond_block :
    let rows := lines "import a from 'a'; /* x\n y */\ncall();".toList
    let nodes : List Node := [
      { kind := .importStatement, start := ⟨0, 0⟩, stop := ⟨0, 18⟩ },
      { kind := .comment, start := ⟨0, 19⟩, stop := ⟨1, 5⟩ },
      { kind := .other, start := ⟨2, 0⟩, stop := ⟨2, 7⟩ }]
    ∃ b, locate (Header.isHeader {}) (·.textIn rows) rows nodes = .found b ∧
      ∃ o ∈ origins (Header.isHeader {}) (·.textIn rows) nodes, ∃ n ∈ o.nodes,
      b.last < n.stop.row := by
  intro rows nodes
  exact ⟨{
    first := 0
    last := 0
    statements := [{ text := "import a from 'a';".toList, trailing := "/* x\n y */".toList }] },
    by decide +kernel, by decide +kernel⟩

/-! ## The comments of a block -/

def comments (b : ImportBlock) : List Text :=
  b.statements.flatMap fun s => s.leading ++ if s.trailing.isEmpty then [] else [s.trailing]

section

variable (isHeader : Text → Bool) (textOf : Node → Text)

/-- Whether a node is a comment that begins on the rows of a block and is no header. -/
def isUserComment (b : ImportBlock) (n : Node) : Bool :=
  n.kind == .comment && decide (b.first ≤ n.start.row ∧ n.start.row ≤ b.last) &&
    !isHeader (textOf n)

/-- The comments behind the last import, on the row where it ends, that are neither the first
one there nor headers. -/
def forgotten (nodes : List Node) : List Node :=
  (stretches (nodes.dropWhile (·.kind != .importStatement))).getLast?.toList.flatMap fun x =>
    x.others.filter fun c => c.start.row == x.head.stop.row && !isHeader (textOf c)

end

theorem comments_of_origins {b : ImportBlock} {sources : List Origin}
    (hb : b.statements = sources.map (·.statement textOf))
    (ht : ∀ o ∈ sources, ∀ n ∈ o.nodes, textOf n ≠ []) :
    b.comments = (sources.flatMap Origin.comments).map textOf := by
  rw [comments, hb, List.flatMap_map, List.map_flatMap]
  refine List.flatMap_congr fun o ho => ?_
  cases htrailing : o.trailing with
  | none => simp [Origin.statement, Origin.comments, htrailing]
  | some c =>
    have hc := ht o ho c (by simp [Origin.nodes, htrailing])
    simp [Origin.statement, Origin.comments, htrailing, hc]

/-- The comments of origins that are no headers: all of the stretches before the last one, and of
this one the comment behind its import. -/
theorem filter_comments_originsFrom (above : List Node) (init : List Stretch) (last : Stretch) :
    (((originsFrom isHeader textOf above (init ++ [last])).flatMap Origin.comments).filter
        fun c => !isHeader (textOf c)) =
      (above ++ init.flatMap Stretch.comments ++ last.trailing?.toList).filter fun c =>
      !isHeader (textOf c) := by
  induction init generalizing above with
  | nil => simp [originsFrom, Origin.comments]
  | cons x init ih =>
    rw [List.cons_append, originsFrom, List.flatMap_cons, List.filter_append, ih, List.flatMap_cons,
      ← x.trailing_append_others]
    simp [Origin.comments, Stretch.waiting, List.filter_filter]

section

variable {rows : List Text} {nodes before behind : List Node} {b : ImportBlock}
    {init : List Stretch} {last : Stretch}

/-- The comments on the rows of a block that are no headers begin on the rows of its nodes, if no
row over which the block grows shows such a comment. -/
theorem Laid.of_isUserComment (h : Laid isHeader rows nodes b before init last behind)
    (hf : ∀ n ∈ nodes, n.start.Le n.stop) (hlength : ∀ n ∈ nodes, n.start.row ≤ rows.length)
    (hgrown : ∀ n ∈ nodes, n.kind = .comment →
      isBlankLine (rows.getD n.start.row []) = true ∨ isHeader (rows.getD n.start.row []) = true →
      isHeader (textOf n) = true)
    {m : Node} (hmem : m ∈ nodes) (hm : b.isUserComment isHeader textOf m = true) :
    m ∉ before ∧ m ∉ behind ∧ m.start.row ≤ last.head.stop.row := by
  simp only [isUserComment, Bool.and_eq_true, beq_iff_eq, decide_eq_true_eq,
    Bool.not_eq_true'] at hm
  obtain ⟨⟨hkind, hfirst, hlast⟩, hheader⟩ := hm
  have hshown : ¬(isBlankLine (rows.getD m.start.row []) = true ∨
      isHeader (rows.getD m.start.row []) = true) :=
    fun hrow => by simp [hgrown m hmem hkind hrow] at hheader
  have hend : m.start.row ≤ last.head.stop.row :=
    Nat.le_of_not_lt fun hlt => hshown (bottomRow_spec hlt (h.last_eq ▸ hlast))
  refine ⟨fun hbefore => ?_, fun hbehind => ?_, hend⟩
  · obtain ⟨n, hn⟩ : ∃ n, ((init ++ [last]).flatMap Stretch.nodes).head? = some n := by
      rw [← Option.isSome_iff_exists, List.isSome_head?]
      simp [Stretch.nodes]
    have hmn := h.before_lt m hbefore n hn
    have hmm := (hf m hmem).row_le
    have hnlength := hlength n (h.block_sublist.subset (List.mem_of_mem_head? hn))
    exact hshown (topRow_spec hnlength (h.first_eq n hn ▸ hfirst) (by omega))
  · have hgt := h.behind_gt m hbehind
    omega

/-- The comments of a stretch that belong to the user, and not its import. -/
theorem Laid.filter_nodes (h : Laid isHeader rows nodes b before init last behind)
    (ho : nodes.Pairwise fun a b => a.stop.Le b.start) (hf : ∀ n ∈ nodes, n.start.Le n.stop)
    {x : Stretch} (hx : x ∈ init ++ [last]) :
    x.nodes.filter (b.isUserComment isHeader textOf) =
      x.comments.filter fun c => decide (c.start.row ≤ b.last) && !isHeader (textOf c) := by
  have hkind := kind_of_mem_stretches (h.stretches_eq ▸ hx)
  rw [Stretch.nodes, List.filter_cons_of_neg (by simp [isUserComment, hkind.1])]
  refine List.filter_congr fun c hc => ?_
  have hblock : c ∈ (init ++ [last]).flatMap Stretch.nodes :=
    List.mem_flatMap.mpr ⟨x, hx, List.mem_cons_of_mem _ hc⟩
  simp [isUserComment, hkind.2 c hc, h.first_le ho hf hblock]

theorem Laid.filter_init (h : Laid isHeader rows nodes b before init last behind)
    (ho : nodes.Pairwise fun a b => a.stop.Le b.start) (hf : ∀ n ∈ nodes, n.start.Le n.stop) :
    (init.flatMap Stretch.nodes).filter (b.isUserComment isHeader textOf) =
      (init.flatMap Stretch.comments).filter fun c => !isHeader (textOf c) := by
  rw [List.filter_flatMap, List.filter_flatMap]
  refine List.flatMap_congr fun x hx => ?_
  have hx' : x ∈ init ++ [last] := List.mem_append_left _ hx
  rw [h.filter_nodes ho hf hx']
  refine List.filter_congr fun c hc => ?_
  have hinit : c ∈ init.flatMap Stretch.nodes :=
    List.mem_flatMap.mpr ⟨x, hx, List.mem_cons_of_mem _ hc⟩
  have hstop := h.le_last ho hf (.inl hinit)
  have hforward := (hf c (h.block_sublist.subset (by simp [hinit]))).row_le
  have hrow : c.start.row ≤ b.last := by omega
  simp [hrow]

theorem Laid.filter_last (h : Laid isHeader rows nodes b before init last behind)
    (ho : nodes.Pairwise fun a b => a.stop.Le b.start) (hf : ∀ n ∈ nodes, n.start.Le n.stop)
    (hend : ∀ n ∈ nodes, b.isUserComment isHeader textOf n = true →
      n.start.row ≤ last.head.stop.row) :
    last.nodes.filter (b.isUserComment isHeader textOf) =
      last.trailing?.toList.filter (fun c => !isHeader (textOf c)) ++
        forgotten isHeader textOf nodes := by
  have hx : last ∈ init ++ [last] := by simp
  have hforgotten : forgotten isHeader textOf nodes =
      last.others.filter fun c => c.start.row == last.head.stop.row && !isHeader (textOf c) := by
    simp [forgotten, h.stretches_eq]
  rw [h.filter_nodes ho hf hx, ← last.trailing_append_others, List.filter_append, hforgotten]
  congr 1
  · refine List.filter_congr fun c hc => ?_
    have hrow := (last.mem_trailing (Option.mem_toList.mp hc)).2
    simp [hrow, h.end_le]
  · refine List.filter_congr fun c hc => ?_
    have hcomment : c ∈ last.comments := by
      rw [← last.trailing_append_others]
      exact List.mem_append_right _ hc
    have hblock : last.nodes.Sublist nodes :=
      List.Sublist.trans (by simp) h.block_sublist
    have hnode : c ∈ nodes := hblock.subset (List.mem_cons_of_mem _ hcomment)
    have hbelow := ((List.pairwise_cons.mp (ho.sublist hblock)).1 c hcomment).row_le
    cases hheader : isHeader (textOf c) with
    | true => simp
    | false =>
      have huser : c.start.row ≤ b.last → b.isUserComment isHeader textOf c = true := by
        intro hrow
        have hmem : c ∈ last.nodes.filter (b.isUserComment isHeader textOf) := by
          rw [h.filter_nodes ho hf hx]
          simp [hcomment, hrow, hheader]
        exact (List.mem_filter.mp hmem).2
      have hiff : c.start.row ≤ b.last ↔ c.start.row = last.head.stop.row := by
        constructor
        · intro hrow
          have hle := hend c hnode (huser hrow)
          omega
        · intro hrow
          exact hrow ▸ h.end_le
      rw [Bool.eq_iff_iff]
      simpa using hiff

/-- The comments on the rows of a block that are no headers: all of the stretches before the last
one, and of this one those that begin where its import ends. -/
theorem Laid.filter_isUserComment (h : Laid isHeader rows nodes b before init last behind)
    (ho : nodes.Pairwise fun a b => a.stop.Le b.start) (hf : ∀ n ∈ nodes, n.start.Le n.stop)
    (hlength : ∀ n ∈ nodes, n.start.row ≤ rows.length)
    (hgrown : ∀ n ∈ nodes, n.kind = .comment →
      isBlankLine (rows.getD n.start.row []) = true ∨ isHeader (rows.getD n.start.row []) = true →
      isHeader (textOf n) = true) :
    nodes.filter (b.isUserComment isHeader textOf) =
      (init.flatMap Stretch.comments ++ last.trailing?.toList).filter
      (fun c => !isHeader (textOf c)) ++
        forgotten isHeader textOf nodes := by
  have hin {m : Node} (hm : m ∈ nodes) (hu : b.isUserComment isHeader textOf m = true) :=
    h.of_isUserComment hf hlength hgrown hm hu
  have hmem : ∀ m, m ∈ nodes ↔ m ∈ before ∨ m ∈ (init ++ [last]).flatMap Stretch.nodes ∨
      m ∈ behind := by
    intro m
    rw [h.nodes_eq, List.mem_append, List.mem_append]
  have hbefore : before.filter (b.isUserComment isHeader textOf) = [] :=
    List.filter_eq_nil_iff.mpr fun m hm hu => (hin ((hmem m).mpr (.inl hm)) hu).1 hm
  have hbehind : behind.filter (b.isUserComment isHeader textOf) = [] :=
    List.filter_eq_nil_iff.mpr fun m hm hu => (hin ((hmem m).mpr (.inr (.inr hm))) hu).2.1 hm
  have hlast := h.filter_last ho hf fun m hm hu => (hin hm hu).2.2
  calc nodes.filter (b.isUserComment isHeader textOf)
      = before.filter (b.isUserComment isHeader textOf) ++
          ((init.flatMap Stretch.nodes).filter (b.isUserComment isHeader textOf) ++
            (last.nodes.filter (b.isUserComment isHeader textOf) ++
              behind.filter (b.isUserComment isHeader textOf))) := by
        rw [← List.filter_append, ← List.filter_append, ← List.filter_append, h.nodes_eq]
        simp
    _ = _ := by
        rw [hbefore, hbehind, h.filter_init ho hf, hlast]
        simp

/-- The comments that a block holds and that are no headers. -/
theorem Laid.filter_comments (h : Laid isHeader rows nodes b before init last behind)
    (hb : b.statements = (origins isHeader textOf nodes).map (·.statement textOf))
    (ht : ∀ n ∈ nodes, textOf n ≠ []) :
    b.comments.filter (!isHeader ·) =
      ((init.flatMap Stretch.comments ++ last.trailing?.toList).filter fun c =>
        !isHeader (textOf c)).map textOf := by
  rw [origins, h.stretches_eq] at hb
  have hsub := (@originsFrom_sublist isHeader textOf [] (init ++ [last])).trans h.block_sublist
  have hcomments := comments_of_origins hb fun o ho n hn =>
    ht n (hsub.subset (List.mem_flatMap.mpr ⟨o, ho, hn⟩))
  rw [hcomments, List.filter_map]
  exact congrArg (List.map textOf) (filter_comments_originsFrom [] init last)

end

end ImportBlock

namespace Document

/-- The comments on the rows of an import block that are no headers are those that its statements
hold and are no headers, in the same order, and behind them the ones it forgets. It is asked of the
parser that a comment that begins on the row of a header is that header. -/
theorem user_comments_of_block {cfg : Settings} {t : Text} {nodes : List Node} {b : ImportBlock}
    (hn : Outline.InOrder (lines t) nodes)
    (hheaders : ∀ n ∈ nodes, n.kind = .comment →
      Header.isHeader cfg ((lines t).getD n.start.row []) = true →
      Header.isHeader cfg (n.textIn (lines t)) = true)
    (hb : (context cfg t nodes).1.imports = some b) :
    let textOf : Node → Text := (·.textIn (lines t))
    let user := (nodes.filter (b.isUserComment (Header.isHeader cfg) textOf)).map textOf
    let kept := b.comments.filter (!Header.isHeader cfg ·)
    let lost := ImportBlock.forgotten (Header.isHeader cfg) textOf nodes
    user = kept ++ lost.map textOf ∧ (user.Perm kept ↔ lost = []) := by
  intro textOf user kept lost
  have htext : ∀ n ∈ nodes, textOf n ≠ [] := by
    intro n hmem hnil
    obtain ⟨c, hc, -⟩ := hn.first_char hmem
    have hnil : n.textIn (lines t) = [] := hnil
    simp [hnil] at hc
  have hgrown : ∀ n ∈ nodes, n.kind = .comment →
      isBlankLine ((contentLines t).getD n.start.row []) = true ∨
        Header.isHeader cfg ((contentLines t).getD n.start.row []) = true →
      Header.isHeader cfg (textOf n) = true := by
    intro n hmem hkind hrow
    obtain ⟨c, hc, hcb⟩ := hn.first_char hmem
    rw [getD_contentLines, isBlankLine_of_mem (Node.start_row hc hcb) hcb] at hrow
    exact hheaders n hmem hkind (by simpa using hrow)
  obtain ⟨hstatements, before, init, last, behind, hlaid⟩ :=
    ImportBlock.laid_of_found (imports_eq_some_iff.mp hb) hn.ordered hn.forward htext
  have huser := hlaid.filter_isUserComment hn.ordered hn.forward
    (fun n hmem => Nat.le_of_lt (hn.start_lt_length hmem)) hgrown
  have heq : user = kept ++ lost.map textOf := by
    rw [show kept = _ from hlaid.filter_comments hstatements htext, ← List.map_append, ← huser]
  refine ⟨heq, fun hperm => ?_, fun hlost => ?_⟩
  · have hlength := hperm.length_eq
    rw [heq, List.length_append, List.length_map] at hlength
    exact List.eq_nil_of_length_eq_zero (by omega)
  · rw [heq, hlost]
    simp

theorem user_comments_of_block_two_imports :
    let t := "// OTHER ===\nimport b from 'b'; // x\n/* y */ // z\nimport a from 'a';\n".toList
    let cfg : Settings := { columnWidth := 12 }
    let nodes : List Node := [
      { kind := .comment, start := ⟨0, 0⟩, stop := ⟨0, 12⟩ },
      { kind := .importStatement, start := ⟨1, 0⟩, stop := ⟨1, 18⟩ },
      { kind := .comment, start := ⟨1, 19⟩, stop := ⟨1, 23⟩ },
      { kind := .comment, start := ⟨2, 0⟩, stop := ⟨2, 7⟩ },
      { kind := .comment, start := ⟨2, 8⟩, stop := ⟨2, 12⟩ },
      { kind := .importStatement, start := ⟨3, 0⟩, stop := ⟨3, 18⟩ }]
    ∃ b, (context cfg t nodes).1.imports = some b ∧
      ((nodes.filter (b.isUserComment (Header.isHeader cfg) (·.textIn (lines t)))).map
        (·.textIn (lines t))).Perm ["// x".toList, "/* y */".toList, "// z".toList] := by
  intro t cfg nodes
  refine ⟨{
    first := 0
    last := 3
    statements := [
      { text := "import b from 'b';".toList, trailing := "// x".toList },
      { text := "import a from 'a';".toList, leading := ["/* y */".toList, "// z".toList] }] },
    by decide +kernel, ?_⟩
  have hn : Outline.InOrder (lines t) nodes :=
    ⟨by decide +kernel, by decide +kernel, by decide +kernel⟩
  exact (user_comments_of_block hn (by decide +kernel) (by decide +kernel)).2.mpr
    (by decide +kernel)

/-- The second of two comments behind the last import is in no statement of the block. -/
theorem second_trailing_comment_forgotten :
    let t := "import a from 'a'; /* x */ // y".toList
    let nodes : List Node := [
      { kind := .importStatement, start := ⟨0, 0⟩, stop := ⟨0, 18⟩ },
      { kind := .comment, start := ⟨0, 19⟩, stop := ⟨0, 26⟩ },
      { kind := .comment, start := ⟨0, 27⟩, stop := ⟨0, 31⟩ }]
    ∃ b, (context {} t nodes).1.imports = some b ∧ ∃ n ∈ nodes,
      b.isUserComment (Header.isHeader {}) (·.textIn (lines t)) n = true ∧
      n.textIn (lines t) ∉ b.comments := by
  intro t nodes
  exact ⟨{
    first := 0
    last := 0
    statements := [{ text := "import a from 'a';".toList, trailing := "/* x */".toList }] },
    by decide +kernel, by decide +kernel⟩

end Document

end SourceLayout
