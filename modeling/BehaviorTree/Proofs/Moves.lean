import BehaviorTree.Proofs.FreshRuns
import BehaviorTree.Proofs.ReadOnly

/-!
What goes on during a tick, move by move. Nodes begin and end their ticks, they reach for children
to tick or to reset them, subtrees are restarted, and the executor is asked. A chronicle is kept
by the executor and knows nothing of restarts; the moves are read off the run itself. Those that
ask the executor are the requests that reach it.
-/
namespace BehaviorTree

variable {σ : Type} {α β : Type}

inductive Move (α : Type) where
  /-- Begins a tick, with code that could be run or without. -/
  | began (node : α) (coded : Bool)
  /-- Reaches for the child at an index. -/
  | reached (node : α) (index : ℕ)
  /-- Begins anew, with everything below it. -/
  | restarted (node : α)
  /-- Has its code run, and takes a status from the answer. -/
  | asked (node : α) (sent : Sent) (status : Status)
  /-- Ends its tick with a status, a cursor and the statuses of its children. -/
  | ended (node : α) (status : Status) (cursor : ℕ) (children : List Status)

namespace Move

def node : Move α → α
  | began node _ | reached node _ | restarted node | asked node _ _ | ended node _ _ _ => node

def map (name : α → β) : Move α → Move β
  | began node coded => began (name node) coded
  | reached node index => reached (name node) index
  | restarted node => restarted (name node)
  | asked node sent status => asked (name node) sent status
  | ended node status cursor children => ended (name node) status cursor children

def sent? : Move α → Option Sent
  | asked _ sent _ => some sent
  | began _ _ | reached _ _ | restarted _ | ended _ _ _ _ => none

@[simp] theorem node_map (name : α → β) (move : Move α) :
    (move.map name).node = name move.node := by
  cases move <;> rfl

@[simp] theorem sent?_map (name : α → β) (move : Move α) : (move.map name).sent? = move.sent? := by
  cases move <;> rfl

theorem filterMap_asked (node : α) (sent : Option Sent) (status : Status) :
    (sent.toList.map fun s => asked node s status).filterMap sent? = sent.toList := by
  cases sent <;> rfl

theorem filterMap_map_sent? (name : α → β) (moves : List (Move α)) :
    (moves.map (map name)).filterMap sent? = moves.filterMap sent? := by
  rw [List.filterMap_map]
  exact List.filterMap_congr fun move _ => sent?_map name move

end Move

def NodeSpec.sent? (spec : NodeSpec) (ticks : ℕ) (board : Blackboard) : Option Sent :=
  spec.activeCode?.map fun code =>
    let (params, board) := spec.parameters.resolve board spec.id
    ⟨⟨code, spec.id, ticks, params⟩, board⟩

/-- The moves of a tick of a subtree. Nodes are called by their places below its root. -/
abbrev Teller (σ : Type) := Progress → World σ → List (Move (List ℕ))

def Ongoing.movesOf (tellers : List (Teller σ)) (index : ℕ) (o : Ongoing σ) :
    List (Move (List ℕ)) :=
  match tellers[index]?, o.children[index]? with
  | some tell, some child => (tell child o.world).map (Move.map (index :: ·))
  | _, _ => []

def Routine.moves (ex : Executor σ) (spec : NodeSpec) (steps : List (Stepper σ))
    (tellers : List (Teller σ)) : Routine → Ongoing σ → List (Move (List ℕ))
  | finish _, _ => []
  | tickChild index next, o =>
    .reached [] index :: (o.movesOf tellers index ++
      (next (o.tickChild steps index).1).moves ex spec steps tellers (o.tickChild steps index).2)
  | resetChild index next, o =>
    .reached [] index :: .restarted [index] ::
      next.moves ex spec steps tellers (o.resetChild index)
  | setCursor index next, o => next.moves ex spec steps tellers { o with cursor := index }
  | setCounter count next, o => next.moves ex spec steps tellers { o with counter := count }
  | runCode ticks next, o =>
    let (status, world) := spec.execute ex ticks o.world
    (spec.sent? ticks o.world.board).toList.map (fun sent => .asked [] sent status) ++
      (next status).moves ex spec steps tellers { o with world }
  | readBoard next, o => (next o.world.board).moves ex spec steps tellers o
  | editBoard edit next, o =>
    next.moves ex spec steps tellers
      { o with world := { o.world with board := edit o.world.board } }

namespace Plan

mutual

def moves (ex : Executor σ) : Plan → Teller σ
  | .node spec plans => fun a w =>
    let (status, b, _) := spec.step ex (steppers ex plans) a w
    .began [] spec.activeCode?.isSome ::
      ((spec.behavior.routine (spec.view a.state (steppers ex plans).length)).moves ex spec
          (steppers ex plans) (tellers ex plans)
          ⟨a.state.cursor, a.state.counter, a.children, w⟩ ++
        [.ended [] status b.state.cursor (b.children.map fun c => c.state.status)])

def tellers (ex : Executor σ) : List Plan → List (Teller σ)
  | [] => []
  | p :: rest => moves ex p :: tellers ex rest

end

theorem tellers_eq_map (ex : Executor σ) (plans : List Plan) :
    tellers ex plans = plans.map (moves ex) := by
  induction plans with
  | nil => rfl
  | cons p rest ih => rw [tellers, ih, List.map_cons]

theorem moves_node (ex : Executor σ) (spec : NodeSpec) (plans : List Plan) (a : Progress)
    (w : World σ) :
    let x := spec.step ex (steppers ex plans) a w
    (node spec plans).moves ex a w =
      .began [] spec.activeCode?.isSome ::
        ((spec.behavior.routine (spec.view a.state (steppers ex plans).length)).moves ex spec
            (steppers ex plans) (tellers ex plans)
            ⟨a.state.cursor, a.state.counter, a.children, w⟩ ++
          [.ended [] x.1 x.2.1.state.cursor (x.2.1.children.map fun c => c.state.status)]) := by
  rw [moves]

end Plan

/-- What holds of each child goes on to hold when one of them is ticked. -/
theorem Ongoing.forall_tickChild {J : ℕ → Progress → Prop} {steps : List (Stepper σ)}
    (hstep : ∀ i step, steps[i]? = some step → ∀ a w, J i a → J i (step a w).2.1) {o : Ongoing σ}
    (h : ∀ i a, o.children[i]? = some a → J i a) (j : ℕ) :
    ∀ i a, (o.tickChild steps j).2.children[i]? = some a → J i a := by
  unfold tickChild
  split
  · next step child hj hchild =>
    intro i a ha
    rw [List.getElem?_set] at ha
    split_ifs at ha with hij hlt
    · subst hij
      exact Option.some.inj ha ▸ hstep j step hj child o.world (h j child hchild)
    · exact h i a ha
  · exact h

theorem Ongoing.forall_resetChild {J : ℕ → Progress → Prop}
    (hreset : ∀ i a, J i a → J i a.reset) {o : Ongoing σ}
    (h : ∀ i a, o.children[i]? = some a → J i a) (j : ℕ) :
    ∀ i a, (o.resetChild j).children[i]? = some a → J i a := by
  intro i a ha
  rw [resetChild, List.getElem?_modify] at ha
  obtain ⟨b, hb, rfl⟩ := Option.map_eq_some_iff.mp ha
  split_ifs
  · exact hreset i b (h i b hb)
  · exact h i b hb

/-- Every move of a routine is one of the node, within its repertoire, or one of a child. -/
theorem Routine.forall_moves {rep : Repertoire} {P : Move (List ℕ) → Prop}
    {J : ℕ → Progress → Prop} {ex : Executor σ} {spec : NodeSpec} {steps : List (Stepper σ)}
    {tellers : List (Teller σ)}
    (hstep : ∀ i step, steps[i]? = some step → ∀ a w, J i a → J i (step a w).2.1)
    (hreset : ∀ i a, J i a → J i a.reset)
    (hreached : ∀ i, rep.reaches i → P (.reached [] i) ∧ P (.restarted [i]))
    (hasked : rep.runsCode → ∀ sent status, P (.asked [] sent status))
    (htell : ∀ i tell, tellers[i]? = some tell → ∀ a w, J i a →
      ∀ move ∈ tell a w, P (move.map (i :: ·)))
    {r : Routine} (hr : r.Within rep) {o : Ongoing σ}
    (h : ∀ i a, o.children[i]? = some a → J i a) :
    ∀ move ∈ r.moves ex spec steps tellers o, P move := by
  induction r generalizing o with
  | finish status => exact fun _ hmove => absurd hmove List.not_mem_nil
  | tickChild j next ih =>
    refine List.forall_mem_cons.mpr ⟨(hreached j hr.1).1, List.forall_mem_append.mpr ⟨?_, ?_⟩⟩
    · intro move hmove
      unfold Ongoing.movesOf at hmove
      split at hmove
      · next tell child htell' hchild =>
        obtain ⟨inner, hinner, rfl⟩ := List.mem_map.mp hmove
        exact htell j tell htell' child o.world (h j child hchild) inner hinner
      · exact absurd hmove List.not_mem_nil
    · exact ih _ (hr.2 _) (Ongoing.forall_tickChild hstep h j)
  | resetChild j next ih =>
    have hown := hreached j hr.1
    refine List.forall_mem_cons.mpr ⟨hown.1, List.forall_mem_cons.mpr ⟨hown.2, ?_⟩⟩
    exact ih hr.2 (o := o.resetChild j) (Ongoing.forall_resetChild hreset h j)
  | setCursor j next ih => exact ih hr.2 (o := { o with cursor := j }) h
  | setCounter count next ih => exact ih hr (o := { o with counter := count }) h
  | runCode ticks next ih =>
    refine List.forall_mem_append.mpr ⟨fun move hmove => ?_, ?_⟩
    · obtain ⟨sent, -, rfl⟩ := List.mem_map.mp hmove
      exact hasked hr.1 sent _
    · exact ih _ (hr.2 _) (o := { o with world := _ }) h
  | readBoard next => exact hr.elim
  | editBoard edit next => exact hr.elim

def Plan.AllBuiltIn (p : Plan) : Prop :=
  p.All fun spec => ∃ kind, spec.behavior = BuiltIn.behavior kind

/-- Every move is one of a node of the subtree. Only a leaf has its code run. -/
theorem Plan.exists_at?_move {ex : Executor σ} {p : Plan} (hp : p.AllBuiltIn) (a : Progress)
    (w : World σ) : ∀ move ∈ p.moves ex a w, ∃ q, p.at? move.node = some q ∧
      (move.sent?.isSome → q.spec.behavior = BuiltIn.script.behavior) := by
  induction p generalizing a w with
  | node spec plans ih =>
    obtain ⟨⟨kind, hkind⟩, below⟩ := hp
    have hchild : ∀ i < (steppers ex plans).length,
        ∃ q, (Plan.node spec plans).at? [i] = some q := by
      intro i hi
      rw [steppers_eq_map, List.length_map] at hi
      exact ⟨plans[i], by rw [at?, children, List.getElem?_eq_getElem hi]; rfl⟩
    have hquiet : ∀ q : Plan, (none : Option Sent).isSome = true →
        q.spec.behavior = BuiltIn.script.behavior := fun _ h => absurd h Bool.false_ne_true
    rw [moves_node]
    refine List.forall_mem_cons.mpr ⟨⟨_, rfl, hquiet _⟩, List.forall_mem_append.mpr ⟨?_, ?_⟩⟩
    · rw [hkind]
      refine Routine.forall_moves (J := fun _ _ => True) (fun _ _ _ _ _ _ => trivial)
        (fun _ _ _ => trivial) (fun i hi => ?_) (fun hscript _ _ => ?_) ?_
        (kind.routine_within _) (fun _ _ _ => trivial)
      · obtain ⟨q, hq⟩ := hchild i hi
        exact ⟨⟨_, rfl, hquiet _⟩, q, hq, hquiet q⟩
      · have hleaf : kind = .script := hscript
        exact ⟨_, rfl, fun _ => hleaf ▸ hkind⟩
      · intro i tell htell b v _ move hmove
        rw [tellers_eq_map, List.getElem?_map] at htell
        obtain ⟨q, hq, rfl⟩ := Option.map_eq_some_iff.mp htell
        have hmem := List.mem_of_getElem? hq
        obtain ⟨r, hr, hleaf⟩ := ih q hmem (below q hmem) b v move hmove
        refine ⟨r, ?_, by rwa [Move.sent?_map]⟩
        rw [Move.node_map, at?, children, hq]
        exact hr
    · exact List.forall_mem_singleton.mpr ⟨_, rfl, hquiet _⟩

/-- What is recorded of the code of a node is its one request, if there is any. -/
theorem NodeSpec.execute_recording (ex : Executor σ) (spec : NodeSpec) (ticks : ℕ) (w : World σ)
    (log : List Sent) :
    let x := spec.execute ex ticks w
    spec.execute ex.recording ticks (w.withLog log) =
      (x.1, x.2.withLog (log ++ (spec.sent? ticks w.board).toList)) := by
  simp only [execute, sent?]
  cases spec.activeCode? with
  | none => simp
  | some code => rfl

def Ongoing.withLog (o : Ongoing σ) (log : α) : Ongoing (σ × α) :=
  ⟨o.cursor, o.counter, o.children, o.world.withLog log⟩

/-- What the executor is asked in a tick of the subtree is what the moves say. -/
def Plan.Records (ex : Executor σ) (p : Plan) : Prop :=
  ∀ a w log, let x := p.tick ex a w
    p.tick ex.recording a (w.withLog log) =
      (x.1, x.2.1, x.2.2.withLog (log ++ (p.moves ex a w).filterMap Move.sent?))

section

variable {ex : Executor σ} {plans : List Plan}

theorem Ongoing.tickChild_recording (h : ∀ p ∈ plans, p.Records ex) (o : Ongoing σ) (i : ℕ)
    (log : List Sent) :
    let x := o.tickChild (Plan.steppers ex plans) i
    (o.withLog log).tickChild (Plan.steppers ex.recording plans) i =
      (x.1, x.2.withLog (log ++ (o.movesOf (Plan.tellers ex plans) i).filterMap Move.sent?)) := by
  simp only [tickChild, movesOf, Plan.steppers_eq_map, Plan.tellers_eq_map, List.getElem?_map]
  cases hp : plans[i]? with
  | none => simp
  | some p =>
    have hchildren : (o.withLog log).children = o.children := rfl
    cases hchild : o.children[i]? with
    | none => simp [hchildren, hchild]
    | some a =>
      have hrecords := h p (List.mem_of_getElem? hp) a o.world log
      simp only [Option.map_some, hchildren, hchild, Move.filterMap_map_sent?]
      rw [show (o.withLog log).world = o.world.withLog log from rfl, hrecords]
      rfl

/-- What is recorded of a routine is what its moves say. -/
theorem Routine.run_recording (h : ∀ p ∈ plans, p.Records ex) (spec : NodeSpec) (r : Routine)
    (o : Ongoing σ) (log : List Sent) :
    let x := r.run ex spec (Plan.steppers ex plans) o
    r.run ex.recording spec (Plan.steppers ex.recording plans) (o.withLog log) =
      (x.1, x.2.withLog (log ++
        (r.moves ex spec (Plan.steppers ex plans) (Plan.tellers ex plans) o).filterMap
          Move.sent?)) := by
  induction r generalizing o log with
  | finish status => simp [run, moves]
  | tickChild i next ih =>
    simp only [run, moves, Ongoing.tickChild_recording h, ih, List.filterMap_cons, Move.sent?,
      List.filterMap_append, List.append_assoc]
  | resetChild i next ih => exact ih (o.resetChild i) log
  | setCursor i next ih => exact ih { o with cursor := i } log
  | setCounter count next ih => exact ih { o with counter := count } log
  | runCode ticks next ih =>
    have hworld : (o.withLog log).world = o.world.withLog log := rfl
    have hnext := ih (spec.execute ex ticks o.world).1
      { o with world := (spec.execute ex ticks o.world).2 }
      (log ++ (spec.sent? ticks o.world.board).toList)
    simp only [run, moves, hworld, spec.execute_recording, List.filterMap_append,
      Move.filterMap_asked]
    rw [← List.append_assoc]
    exact hnext
  | readBoard next ih => exact ih _ o log
  | editBoard edit next ih =>
    exact ih { o with world := { o.world with board := edit o.world.board } } log

/-- What is recorded of a tick is what its moves say. -/
theorem Plan.tick_recording (ex : Executor σ) (p : Plan) : p.Records ex := by
  induction p with
  | node spec plans ih =>
    rintro ⟨state, children⟩ w log
    have hlength : (steppers ex.recording plans).length = (steppers ex plans).length := by
      simp only [steppers_eq_map, List.length_map]
    let r := spec.behavior.routine (spec.view state (steppers ex plans).length)
    have hrun : r.run ex.recording spec (steppers ex.recording plans)
        ⟨state.cursor, state.counter, children, w.withLog log⟩ = _ :=
      Routine.run_recording ih spec r ⟨state.cursor, state.counter, children, w⟩ log
    have hmoves : ((node spec plans).moves ex (.node state children) w).filterMap Move.sent? =
        (r.moves ex spec (steppers ex plans) (tellers ex plans)
          ⟨state.cursor, state.counter, children, w⟩).filterMap Move.sent? := by
      rw [moves_node, List.filterMap_cons, List.filterMap_append]
      exact List.append_nil _
    rw [hmoves]
    simp only [tick, NodeSpec.step, hlength]
    rw [hrun]
    rfl

end

namespace Forest

variable {f : Forest} {k m n : NodeKey} {p : Plan} {a : Progress} {place way : List ℕ}

def moves (ex : Executor σ) (f : Forest) (k : NodeKey) (w : World σ) : List (Move NodeKey) :=
  match f.plan? k, f.progress? k with
  | some plan, some progress => (plan.moves ex progress w).map (Move.map (f.nodeAt k))
  | _, _ => []

/-- The moves in the forest are those of the subtree, told by the keys of the nodes. -/
theorem Holds.moves_eq (h : f.Holds k p a) (ex : Executor σ) (w : World σ) :
    f.moves ex k w = (p.moves ex a w).map (Move.map (f.nodeAt k)) := by
  simp only [moves, h.plan, h.progress]

/-- What the executor is asked in a tick is what the moves say. -/
theorem tick_recording (ex : Executor σ) (f : Forest) (k : NodeKey) (w : World σ)
    (log : List Sent) :
    let x := f.tick ex k w
    f.tick ex.recording k (w.withLog log) =
      (x.1, x.2.1, x.2.2.withLog (log ++ (f.moves ex k w).filterMap Move.sent?)) := by
  simp only [tick, moves]
  cases f.plan? k with
  | none => simp
  | some p =>
    cases f.progress? k with
    | none => simp
    | some a =>
      have hrecords := p.tick_recording ex a w log
      simp only [hrecords, Move.filterMap_map_sent?]

/-- The requests of a tick are those of its moves. -/
theorem requests_observe (ex : Executor σ) (f : Forest) (k : NodeKey) (w : World σ) :
    (f.observe ex k w).1.requests = (f.moves ex k w).filterMap Move.sent? := by
  simp only [observe, f.tick_recording]
  rfl

theorem Way.nodeAt_self (h : f.Way k way m) : f.nodeAt k way = m := by
  have hnode := h.nodeAt []
  rw [List.append_nil] at hnode
  exact hnode

/-- Every place of the subtree is that of a node. -/
theorem Holds.exists_way {q : Plan} (h : f.Holds k p a) (hq : p.at? place = some q) :
    ∃ m b, f.Way k place m ∧ a.at? place = some b ∧ f.Holds m q b := by
  induction place generalizing k p a with
  | nil =>
    obtain rfl := Option.some.inj hq
    exact ⟨k, a, .here k, rfl, h⟩
  | cons i place ih =>
    obtain ⟨spec, plans⟩ := p
    obtain ⟨state, children⟩ := a
    obtain ⟨r, hr, hrq⟩ := Option.bind_eq_some_iff.mp hq
    have hi : i < (f.children k).length := by
      obtain ⟨hlt, -⟩ := List.getElem?_eq_some_iff.mp hr
      rwa [h.length_plans]
    have hc := List.getElem?_eq_getElem hi
    obtain ⟨r', c, hr', hcc, hchild⟩ := h.child hc
    obtain rfl : r' = r := Option.some.inj (hr'.symm.trans hr)
    obtain ⟨m, b, hway, hb, hholds⟩ := ih hchild hrq
    refine ⟨m, b, .down hc hway, ?_, hholds⟩
    rw [Progress.at?, Progress.children, hcc, Option.bind_some, hb]

namespace Sound

variable (hs : f.Sound)
include hs

/-- One node is below another one if its way goes on from there. -/
theorem mem_subtree_iff_prefix (hplace : f.Way k place n) (hway : f.Way k way m) :
    m ∈ f.subtree n ↔ place <+: way := by
  constructor
  · intro hm
    by_contra hprefix
    have hnot := hs.nodeAt_not_mem_subtree hplace hprefix
    rw [hway.nodeAt_self] at hnot
    exact hnot hm
  · rintro ⟨rest, rfl⟩
    have hnode : f.nodeAt n rest = m := by
      rw [← hplace.nodeAt rest, hway.nodeAt_self]
    exact hnode ▸ hs.nodeAt_mem_subtree n rest

theorem place_unique (hplace : f.Way k place m) (hway : f.Way k way m) : place = way := by
  have hself : m ∈ f.subtree m := List.mem_cons_self
  have hle := (hs.mem_subtree_iff_prefix hplace hway).mp hself
  have hge := (hs.mem_subtree_iff_prefix hway hplace).mp hself
  exact hle.eq_of_length_le hge.length_le

theorem allBuiltIn (hkinds : ∀ m ∈ f.subtree k, ∃ kind, f.IsKind m kind) (hp : f.plan? k = some p) :
    p.AllBuiltIn := by
  refine hs.plan_all (fun m hm n hn => ?_) hp
  obtain ⟨kind, node, hnode, hkind⟩ := hkinds m hm
  obtain rfl := Option.some.inj (hn.symm.trans hnode)
  exact ⟨kind, hkind⟩

end Sound

/-- Every move of a tick is one of a node below, which is called by its place. Only a leaf has its
code run. -/
theorem Holds.exists_place (h : f.Holds k p a) (hp : p.AllBuiltIn) {ex : Executor σ} {w : World σ}
    {move : Move (List ℕ)} (hmove : move ∈ p.moves ex a w) :
    ∃ m, f.Way k move.node m ∧ (move.sent?.isSome → f.IsKind m .script) := by
  obtain ⟨⟨spec, plans⟩, hq, hleaf⟩ := p.exists_at?_move hp a w move hmove
  obtain ⟨m, ⟨state, children⟩, hway, -, hholds⟩ := h.exists_way hq
  obtain ⟨node, hnode, hspec, -⟩ := hholds.exists_node
  exact ⟨m, hway, fun hsent => ⟨node, hnode, hspec ▸ hleaf hsent⟩⟩

end Forest

end BehaviorTree
