import FlatModel.Tree.Listing
import FlatModel.Proofs.PostOrder

/-!
# Nested visits

Every event of a walk opens or closes a bracket: a visit has a pair of brackets around all of it and
a pair around the children.

* `WellNested` — rows of visits as words of brackets, with the number that each visit has as parent;
  `Node.wellNested_walk` — walks are such words.
* `Event.nest`, `pending`, `openNodes` — the brackets that are open after some events, and the nodes
  whose visits are under way.
* `Event.Fits` — an event that goes on with the brackets that are open; `WellNested.along_fits` — the
  events of a well nested word do.
* `Along`, `along_append`, `Along.at` — what holds at every event of a run.
* `level_step`, `level_foldl` — the level of a listing under way counts the visits under way.
* `Node.walk_brackets` — all this of the walk through any node.
-/

namespace FlatModel

/-! ## Runs -/

section along

variable {σ ε : Type} (step : σ → ε → σ) (P : σ → ε → Prop)

/-- At every event of a run the state and the event are as asked for. -/
def Along : σ → List ε → Prop
  | _, [] => True
  | s, e :: rest => P s e ∧ Along (step s e) rest

variable {step P} {s : σ} {before after : List ε}

/-- A run goes on from the state that it has come to. -/
theorem along_append :
    Along step P s (before ++ after) ↔
      Along step P s before ∧ Along step P (before.foldl step s) after := by
  induction before generalizing s with
  | nil => exact (and_iff_right trivial).symm
  | cons e rest ih =>
      rw [List.cons_append, Along, Along, ih, and_assoc]
      rfl

/-- What holds along a run holds at each of its events. -/
theorem Along.at {e : ε} (h : Along step P s (before ++ e :: after)) :
    P (before.foldl step s) e :=
  (along_append.mp h).2.1

end along

/-! ## Well nested words -/

/-- Visits one after the other, all of them with the same parent, each around a well nested word of
visits that have its node as parent. -/
inductive WellNested : Option Nat → List Event → Prop where
  /-- No visit. -/
  | nil (parent : Option Nat) : WellNested parent []
  /-- A visit before others. -/
  | visit {parent : Option Nat} (node : Node) {inner rest : List Event}
      (hinner : WellNested (some node.id) inner) (hrest : WellNested parent rest) :
      WellNested parent (Event.around node parent inner ++ rest)

/-- Well nested words may stand one behind the other. -/
theorem WellNested.append {parent : Option Nat} {events more : List Event}
    (h : WellNested parent events) (hmore : WellNested parent more) :
    WellNested parent (events ++ more) := by
  induction h with
  | nil => exact hmore
  | visit node hinner _ _ ihrest =>
      rw [List.append_assoc]
      exact .visit node hinner (ihrest hmore)

/-- **A walk is a well nested word.** -/
theorem Node.wellNested_walk (node : Node) (parent : Option Nat) :
    WellNested parent (node.walk parent) := by
  induction node using Node.induction generalizing parent with
  | h node ih =>
    have hchildren : ∀ nodes : List Node, (∀ child ∈ nodes, child ∈ node.children) →
        WellNested (some node.id) (nodes.flatMap (walk (some node.id))) := by
      intro nodes hnodes
      induction nodes with
      | nil => exact .nil _
      | cons child rest ihrest =>
          rw [List.forall_mem_cons] at hnodes
          rw [List.flatMap_cons]
          exact (ih child hnodes.1 _).append (ihrest hnodes.2)
    rw [walk_eq, ← List.append_nil (Event.around _ _ _)]
    exact .visit node (hchildren _ fun _ h => h) (.nil parent)

/-! ## Open brackets -/

/-- The hook that opens the bracket which a hook closes. -/
def Hook.opener? : Hook → Option Hook
  | .enterAny | .enter => none
  | .exit => some .enter
  | .exitAny => some .enterAny

/-- The nodes whose visits are under way while brackets are open, the innermost first. -/
def openNodes (stack : List Event) : List Node :=
  (stack.filter fun e => e.hook = .enterAny).map Event.node

namespace Event

/-- Whether the event closes a bracket; the others open one. -/
def closes (e : Event) : Bool := e.hook.opener?.isSome

/-- The brackets that are open after one more event, the innermost first, each as the event that
opened it. -/
def nest (stack : List Event) (e : Event) : List Event :=
  if e.closes then stack.tail else e :: stack

/-- The event goes on with the brackets that are open.  A visit begins between the children of the
innermost node whose visit is under way, and has that node as parent, or `root` if there is none.
The bracket around the children opens as soon as the visit has begun, and what closes a bracket
belongs to the visit of the event that opened it. -/
def Fits (root : Option Nat) (stack : List Event) (e : Event) : Prop :=
  match e.hook with
  | .enterAny => (∀ last ∈ stack.head?, last.hook = .enter) ∧
      e.parent = ((openNodes stack).head?.map Node.id).or root
  | .enter => stack.head? = some { e with hook := .enterAny }
  | .exit => stack.head? = some { e with hook := .enter }
  | .exitAny => stack.head? = some { e with hook := .enterAny }

end Event

/-- The brackets that are open after the events. -/
def pending (events : List Event) : List Event := events.foldl Event.nest []

section brackets

variable {root parent : Option Nat} {stack events : List Event} {e : Event}

/-- A well nested word leaves the brackets open that were so before. -/
theorem WellNested.foldl_nest (h : WellNested parent events) (stack : List Event) :
    events.foldl Event.nest stack = stack := by
  induction h generalizing stack with
  | nil => rfl
  | visit node _ _ ihinner ihrest =>
      rw [List.foldl_append, ihrest, Event.around, List.foldl_cons, List.foldl_cons,
        List.foldl_append, ihinner]
      rfl

/-- **The events of a well nested word fit** wherever a visit with its parent may begin. -/
theorem WellNested.along_fits (h : WellNested parent events)
    (hhead : ∀ last ∈ stack.head?, last.hook = .enter)
    (hparent : parent = ((openNodes stack).head?.map Node.id).or root) :
    Along Event.nest (Event.Fits root) stack events := by
  induction h generalizing stack with
  | nil => trivial
  | @visit parent node inner rest hinner _ ihinner ihrest =>
      have hopen : openNodes [⟨.enter, node, parent⟩, ⟨.enterAny, node, parent⟩] = [node] := rfl
      have hchildren : Along Event.nest (Event.Fits root)
          (⟨.enter, node, parent⟩ :: ⟨.enterAny, node, parent⟩ :: stack) inner :=
        ihinner (by rintro last ⟨⟩; rfl) rfl
      have hvisit : Along Event.nest (Event.Fits root) stack (Event.around node parent inner) := by
        refine ⟨⟨hhead, hparent⟩, rfl, along_append.mpr ⟨hchildren, ?_⟩⟩
        rw [hinner.foldl_nest]
        exact ⟨rfl, rfl, trivial⟩
      have hstack : (Event.around node parent inner).foldl Event.nest stack = stack := by
        rw [← List.append_nil (Event.around node parent inner)]
        exact (WellNested.visit node hinner (.nil parent)).foldl_nest stack
      rw [along_append, hstack]
      exact ⟨hvisit, ihrest hhead hparent⟩

/-- An event that fits opens one more bracket or closes one. -/
theorem length_nest (h : e.Fits root stack) :
    (Event.nest stack e).length + (if e.closes then 1 else 0) =
      stack.length + (if e.closes then 0 else 1) := by
  obtain ⟨hook, node, parent⟩ := e
  cases hook with
  | enterAny | enter => rfl
  | exit | exitAny =>
      obtain ⟨rest, rfl⟩ := List.head?_eq_some_iff.mp h
      rfl

/-- As many brackets are open as were opened and not closed. -/
theorem length_foldl_nest (h : Along Event.nest (Event.Fits root) stack events) :
    (events.foldl Event.nest stack).length + events.countP Event.closes =
      stack.length + events.countP fun e => !e.closes := by
  induction events generalizing stack with
  | nil => rfl
  | cons e rest ih =>
      have hstep := length_nest h.1
      have hrest := ih h.2
      rw [List.foldl_cons, List.countP_cons, List.countP_cons]
      cases hcloses : e.closes <;> simp [hcloses] at hstep ⊢ <;> omega

/-! ## The level of a listing under way -/

/-- **One event**: the level keeps count of the visits under way. -/
theorem level_step (h : e.Fits root stack) {s : Lister} {n : Nat}
    (hlevel : s.level = n + (openNodes stack).length) :
    (s.step e).level = n + (openNodes (Event.nest stack e)).length := by
  obtain ⟨hook, node, parent⟩ := e
  cases hook with
  | enterAny =>
      show s.level + 1 = n + ((openNodes stack).length + 1)
      omega
  | enter => exact hlevel
  | exit =>
      obtain ⟨rest, rfl⟩ := List.head?_eq_some_iff.mp h
      exact hlevel
  | exitAny =>
      obtain ⟨rest, rfl⟩ := List.head?_eq_some_iff.mp h
      replace hlevel : s.level = n + ((openNodes rest).length + 1) := hlevel
      show s.level - 1 = n + (openNodes rest).length
      omega

/-- **A whole run**: the level counts the visits under way. -/
theorem level_foldl (h : Along Event.nest (Event.Fits root) stack events) {s : Lister} {n : Nat}
    (hlevel : s.level = n + (openNodes stack).length) :
    (events.foldl Lister.step s).level =
      n + (openNodes (events.foldl Event.nest stack)).length := by
  induction events generalizing stack s with
  | nil => exact hlevel
  | cons e rest ih => exact ih h.2 (level_step h.1 hlevel)

/-- Where a visit ends, one is under way. -/
theorem length_openNodes_pos (h : e.Fits root stack) (hhook : e.hook = .exitAny) :
    0 < (openNodes stack).length := by
  obtain ⟨hook, node, parent⟩ := e
  cases hhook
  obtain ⟨rest, rfl⟩ := List.head?_eq_some_iff.mp h
  exact Nat.succ_pos _

end brackets

/-! ## Walks -/

/-- **Visits are well bracketed.**  A walk through any node, whatever numbers there are, is a well
nested word: the entry into the node, the walks through its children in order, the exit from it.  Every
event fits to the brackets that are open at its time; a visit has as parent the innermost node whose
visit is under way, the one it is told at the root, and none in the walk through a unit.  No more
brackets are closed than were opened.  The level of a listing under way is above that at the start by
the number of visits under way; it is not zero where a visit ends, and in the end it is what it was. -/
theorem Node.walk_brackets (node : Node) (parent : Option Nat) (s : Lister) :
    (node.walk parent =
        Event.around node parent (node.children.flatMap (walk (some node.id))) ∧
      WellNested parent (node.walk parent) ∧
      ∀ u, node = .sourceUnit u → node.walk none = u.walk) ∧
    (∀ before event after, node.walk parent = before ++ event :: after →
      event.Fits parent (pending before) ∧
        (event.hook = .exitAny → 0 < (before.foldl Lister.step s).level)) ∧
    (∀ before, before <+: node.walk parent →
      before.countP Event.closes ≤ before.countP (fun event => !event.closes) ∧
        (before.foldl Lister.step s).level = s.level + (openNodes (pending before)).length) ∧
    pending (node.walk parent) = [] ∧
    ((node.walk parent).foldl Lister.step s).level = s.level := by
  have hnested := node.wellNested_walk parent
  have halong : Along Event.nest (Event.Fits parent) [] (node.walk parent) :=
    hnested.along_fits nofun rfl
  have hinitial : ∀ {before}, before <+: node.walk parent →
      Along Event.nest (Event.Fits parent) [] before := by
    rintro before ⟨after, hafter⟩
    rw [← hafter] at halong
    exact (along_append.mp halong).1
  have hlevel : ∀ {before}, before <+: node.walk parent →
      (before.foldl Lister.step s).level = s.level + (openNodes (pending before)).length :=
    fun hbefore => level_foldl (hinitial hbefore) rfl
  refine ⟨⟨walk_eq node parent, hnested, ?_⟩, ?_, fun before hbefore => ⟨?_, hlevel hbefore⟩,
    hnested.foldl_nest [], ?_⟩
  · rintro u rfl
    rfl
  · intro before event after heq
    have hfits : event.Fits parent (pending before) := (heq ▸ halong).at
    refine ⟨hfits, fun hhook => ?_⟩
    rw [hlevel (heq ▸ List.prefix_append before _)]
    exact Nat.add_pos_right _ (length_openNodes_pos hfits hhook)
  · have hcount := length_foldl_nest (hinitial hbefore)
    rw [List.length_nil] at hcount
    omega
  · rw [hlevel (List.prefix_refl _), pending, hnested.foldl_nest]
    rfl

/-- A unit with the equation `der(x) = 1`, whose nodes all have the number zero. -/
def unnumbered : SourceUnit where
  classes := .ofList [("M",
    (ClassDef.new "M").addEquation (.der (.ref "x")) (.ofLiteral (.integer 1)))]

/-- The visit of `x` ends in the walk through the unit while seven visits are under way, all of nodes
with the same number. -/
theorem Node.walk_brackets_unnumbered :
    ∃ event, unnumbered.walk = unnumbered.walk.take 15 ++ event :: unnumbered.walk.drop 16 ∧
      event.hook = .exitAny ∧ event.Fits none (pending (unnumbered.walk.take 15)) ∧
      0 < ((unnumbered.walk.take 15).foldl Lister.step {}).level ∧
      (openNodes (pending (unnumbered.walk.take 15))).length = 7 := by
  let event : Event := ⟨.exitAny, .content (.ref "x"), some 0⟩
  have hwalk : (Node.sourceUnit unnumbered).walk none =
      unnumbered.walk.take 15 ++ event :: unnumbered.walk.drop 16 := rfl
  obtain ⟨hfits, hlevel⟩ :=
    (Node.walk_brackets (.sourceUnit unnumbered) none {}).2.1 _ _ _ hwalk
  exact ⟨event, hwalk, rfl, hfits, hlevel rfl, rfl⟩

end FlatModel
