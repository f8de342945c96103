import BehaviorTree.Proofs.Moves
import BehaviorTree.Proofs.NodeHistory
import BehaviorTree.Proofs.Rounds

/-!
Cursors. Between ticks, children may be taken from a node and others put in their place, so the
cursor that a tick finds may point anywhere. No tick goes by it before it has been checked:
whatever child a built-in node reaches for is there, and at the end of a tick the cursor is at a
child again, or at its start. A sequence or a selector that is suspended has it at the child that
suspends it; all other nodes leave it at its start for good.
-/
namespace BehaviorTree

variable {σ : Type} {spec : NodeSpec} {plans : List Plan} {steps : List (Stepper σ)}

/-- What the cursor of a node that has children is worth at the end of a tick. -/
structure BuiltIn.CursorLaw (kind : BuiltIn) (status : Status) (cursor : ℕ)
    (children : List Status) : Prop where
  inside : status = .running → cursor < children.length
  suspended : status = .running → kind = .sequence ∨ kind = .selector →
    children[cursor]? = some .running
  ended : status = .success ∨ status = .failure → cursor = 0

/-- A child that answers that it is running is running. -/
theorem Ongoing.exists_running (hreports : ∀ step ∈ steps, step.Reports) {o : Ongoing σ} {i : ℕ}
    (h : (o.tickChild steps i).1 = .running) :
    ∃ c, (o.tickChild steps i).2.children[i]? = some c ∧ c.state.status = .running := by
  cases hstep : steps[i]? with
  | none => simp [tickChild, hstep] at h
  | some step =>
    cases hchild : o.children[i]? with
    | none => simp [tickChild, hstep, hchild] at h
    | some a =>
      rw [tickChild_self hstep hchild] at h ⊢
      have hi : i < o.children.length := (List.getElem?_eq_some_iff.mp hchild).1
      refine ⟨_, List.getElem?_set_self hi, ?_⟩
      rw [hreports step (List.mem_of_getElem? hstep)]
      exact h

/-- A round that is suspended has the cursor at the child that suspends it; else it is put back. -/
theorem run_roundFrom_cursor {kind : BuiltIn} {stop done : Status}
    (hkind : kind.GoesRound stop done) (hreports : ∀ step ∈ steps, step.Reports) (ex : Executor σ)
    (spec : NodeSpec) (left index : ℕ) (o : Ongoing σ) :
    let x := (roundFrom stop done left index).run ex spec steps o
    (x.1 = .running → ∃ c, x.2.children[x.2.cursor]? = some c ∧ c.state.status = .running) ∧
      (x.1 ≠ .running → x.2.cursor = 0) := by
  induction left generalizing index o with
  | zero => exact ⟨fun hrunning => absurd hrunning hkind.done_ne_running, fun _ => rfl⟩
  | succ left ih =>
    simp only [roundFrom, Routine.run]
    by_cases hstop : (o.tickChild steps index).1 = stop
    · rw [if_pos hstop]
      exact ⟨fun hrunning => absurd hrunning hkind.stop_ne_running, fun _ => rfl⟩
    rw [if_neg hstop]
    by_cases hrunning : (o.tickChild steps index).1 = .running
    · rw [if_pos hrunning]
      exact ⟨fun _ => Ongoing.exists_running hreports hrunning, fun hne => absurd rfl hne⟩
    · rw [if_neg hrunning]
      exact ih (index + 1) (o.tickChild steps index).2

/-- A routine that does not move the cursor leaves it where it is. -/
theorem Routine.Within.run_cursor {rep : Repertoire} (hstays : ¬ rep.movesCursor) {r : Routine}
    (h : r.Within rep) (ex : Executor σ) (spec : NodeSpec) (steps : List (Stepper σ))
    (o : Ongoing σ) : (r.run ex spec steps o).2.cursor = o.cursor := by
  induction r generalizing o with
  | finish status => rfl
  | tickChild i next ih =>
    have hcursor : (o.tickChild steps i).2.cursor = o.cursor := by
      unfold Ongoing.tickChild
      split <;> rfl
    exact (ih _ (h.2 _) _).trans hcursor
  | resetChild i next ih => exact ih h.2 (o.resetChild i)
  | setCursor i next => exact absurd h.1 hstays
  | setCounter n next ih => exact ih h { o with counter := n }
  | runCode ticks next ih => exact ih _ (h.2 _) { o with world := _ }
  | readBoard next => exact h.elim
  | editBoard edit next => exact h.elim

/-- Without children, such a node ends at once. -/
theorem BuiltIn.routine_childless {kind : BuiltIn} (hkind : kind.category ≠ .leaf)
    (hstays : ¬ (kind = .sequence ∨ kind = .selector)) {view : NodeView}
    (hview : view.childCount = 0) :
    ∃ status, status ≠ .running ∧ kind.routine view = .finish status := by
  cases kind with
  | sequence => exact absurd (Or.inl rfl) hstays
  | selector => exact absurd (Or.inr rfl) hstays
  | script => exact absurd rfl hkind
  | inverter => exact ⟨.failure, by decide, if_pos hview⟩
  | parallel | repeater | untilSuccess | untilFail | start =>
    exact ⟨.success, by decide, if_pos hview⟩

def NodeSpec.AtStart (spec : NodeSpec) (state : RunState) : Prop :=
  ∀ kind, spec.behavior = BuiltIn.behavior kind → ¬ (kind = .sequence ∨ kind = .selector) →
    state.cursor = 0

theorem NodeSpec.step_cursor {kind : BuiltIn} (hspec : spec.behavior = kind.behavior)
    (hstays : ¬ (kind = .sequence ∨ kind = .selector)) (ex : Executor σ)
    (steps : List (Stepper σ)) (a : Progress) (w : World σ) :
    (spec.step ex steps a w).2.1.state.cursor = a.state.cursor := by
  obtain ⟨state, children⟩ := a
  have hroutine : spec.behavior.routine = kind.routine := by rw [hspec, BuiltIn.behavior]
  simp only [NodeSpec.step, hroutine]
  exact (kind.routine_within _).run_cursor hstays ex spec steps _

theorem NodeSpec.atStart_step {a : Progress} (h : spec.AtStart a.state) (ex : Executor σ)
    (steps : List (Stepper σ)) (w : World σ) :
    spec.AtStart (spec.step ex steps a w).2.1.state := by
  intro kind hspec hstays
  rw [step_cursor hspec hstays]
  exact h kind hspec hstays

/-- A round leaves the cursor at the child that is running, and at the start when it has ended. -/
theorem NodeSpec.cursorLaw_round {kind : BuiltIn} {stop done : Status}
    (hgoes : kind.GoesRound stop done) (hspec : spec.behavior = kind.behavior)
    (hreports : ∀ step ∈ steps, step.Reports) (ex : Executor σ) (a : Progress) (w : World σ) :
    let x := spec.step ex steps a w
    kind.CursorLaw x.1 x.2.1.state.cursor (x.2.1.children.map fun c => c.state.status) := by
  obtain ⟨state, children⟩ := a
  have hroutine : spec.behavior.routine = kind.routine := by rw [hspec, BuiltIn.behavior]
  simp only [NodeSpec.step, hroutine, hgoes.routine_eq, round]
  obtain ⟨hrunning, hended⟩ := run_roundFrom_cursor hgoes hreports ex spec
    ((spec.view state steps.length).childCount - (spec.view state steps.length).cursor)
    (spec.view state steps.length).cursor ⟨state.cursor, state.counter, children, w⟩
  refine ⟨fun h => ?_, fun h _ => ?_, fun h => hended ?_⟩
  · obtain ⟨c, hc, -⟩ := hrunning h
    rw [List.length_map]
    exact (List.getElem?_eq_some_iff.mp hc).1
  · obtain ⟨c, hc, hstatus⟩ := hrunning h
    rw [List.getElem?_map]
    exact (congrArg (Option.map _) hc).trans (congrArg some hstatus)
  · rcases h with h | h <;> exact fun hne => absurd (h.symm.trans hne) (by decide)

/-- The cursor law for one tick, whatever the cursor was before in a sequence or a selector. -/
theorem NodeSpec.cursorLaw_step {kind : BuiltIn} (hkind : kind.category ≠ .leaf)
    (hspec : spec.behavior = kind.behavior) (hreports : ∀ step ∈ steps, step.Reports)
    {a : Progress} (hlen : steps.length = a.children.length) (ha : spec.AtStart a.state)
    (ex : Executor σ) (w : World σ) :
    let x := spec.step ex steps a w
    kind.CursorLaw x.1 x.2.1.state.cursor (x.2.1.children.map fun c => c.state.status) := by
  by_cases hmoves : kind = .sequence ∨ kind = .selector
  · rcases hmoves with rfl | rfl
    · exact cursorLaw_round .sequence hspec hreports ex a w
    · exact cursorLaw_round .selector hspec hreports ex a w
  · obtain ⟨state, children⟩ := a
    have hroutine : spec.behavior.routine = kind.routine := by rw [hspec, BuiltIn.behavior]
    have hcursor : (spec.step ex steps (.node state children) w).2.1.state.cursor = 0 := by
      rw [step_cursor hspec hmoves]
      exact ha kind hspec hmoves
    refine ⟨fun hrunning => ?_, fun _ h => absurd h hmoves, fun _ => hcursor⟩
    rw [hcursor, List.length_map, NodeSpec.length_step, ← hlen]
    by_contra hnone
    have hview : (spec.view state steps.length).childCount = 0 := Nat.eq_zero_of_not_pos hnone
    obtain ⟨status, hstatus, hfinish⟩ := BuiltIn.routine_childless hkind hmoves hview
    simp only [NodeSpec.step, hroutine, hfinish] at hrunning
    exact hstatus hrunning

namespace Plan

variable {p q : Plan} {a b : Progress} {ex : Executor σ}

theorem Fits.exists_at? {place : List ℕ} (h : p.Fits a) (hq : p.at? place = some q) :
    ∃ b, a.at? place = some b := by
  induction place generalizing p a with
  | nil => exact ⟨a, rfl⟩
  | cons i place ih =>
    obtain ⟨spec, plans⟩ := p
    obtain ⟨r, hr, hrq⟩ := Option.bind_eq_some_iff.mp hq
    obtain ⟨hlength, hchild⟩ := fits_node_iff.mp h
    have hi : i < a.children.length := hlength ▸ (List.getElem?_eq_some_iff.mp hr).1
    have hc := List.getElem?_eq_getElem hi
    obtain ⟨b, hb⟩ := ih (hchild hr hc) hrq
    exact ⟨b, by rw [Progress.at?, hc, Option.bind_some, hb]⟩

structure Steady (p : Plan) (a : Progress) : Prop where
  fits : p.Fits a
  atStart : ∀ place q b, p.at? place = some q → a.at? place = some b → q.spec.AtStart b.state

theorem Steady.reset (h : p.Steady a) : p.Steady a.reset where
  fits := fits_reset h.fits
  atStart place q b hq hb := by
    obtain ⟨c, hc⟩ := h.fits.exists_at? hq
    obtain rfl : c.reset = b := Option.some.inj ((Progress.at?_reset hc).symm.trans hb)
    intro _ _ _
    rw [Progress.state_reset, RunState.fresh]

theorem Steady.tick (h : p.Steady a) (ex : Executor σ) (w : World σ) :
    p.Steady (p.tick ex a w).2.1 where
  fits := fits_tick ex h.fits w
  atStart place q b hq hb := by
    obtain ⟨c, hc⟩ := h.fits.exists_at? hq
    obtain ⟨d, hd, hstart⟩ := tick_keeps_at (P := fun c => q.spec.AtStart c.state)
      (fun _ _ _ _ => by rw [Progress.state_reset, RunState.fresh]) hq
      (fun {c v} hc => by
        obtain ⟨spec, plans⟩ := q
        exact NodeSpec.atStart_step hc ex _ v)
      hc (h.atStart place q c hq hc) w
    obtain rfl : d = b := Option.some.inj (hd.symm.trans hb)
    exact hstart

theorem Steady.child {i : ℕ} {c : Progress} (h : (node spec plans).Steady a)
    (hq : plans[i]? = some q) (hc : a.children[i]? = some c) : q.Steady c where
  fits := (fits_node_iff.mp h.fits).2 hq hc
  atStart place r b hr hb := by
    refine h.atStart (i :: place) r b ?_ ?_
    · rw [at?, children, hq, Option.bind_some, hr]
    · rw [Progress.at?, hc, Option.bind_some, hb]

theorem length_steppers (ex : Executor σ) (plans : List Plan) :
    (steppers ex plans).length = plans.length := by
  rw [steppers_eq_map, List.length_map]

/-- Every node that ends a tick obeys the cursor law. -/
theorem Steady.cursorLaw {kind : BuiltIn} (ha : p.Steady a) (hleaf : kind.category ≠ .leaf)
    (hspec : p.spec.behavior = kind.behavior) (ex : Executor σ) (w : World σ) :
    let x := p.tick ex a w
    kind.CursorLaw x.1 x.2.1.state.cursor (x.2.1.children.map fun c => c.state.status) := by
  obtain ⟨spec, plans⟩ := p
  have hchildren : plans.length = a.children.length := (fits_node_iff.mp ha.fits).1
  refine NodeSpec.cursorLaw_step hleaf hspec (fun step hstep => ?_)
    ((length_steppers ex plans).trans hchildren) (ha.atStart [] _ a rfl rfl) ex w
  rw [steppers_eq_map] at hstep
  obtain ⟨q, -, rfl⟩ := List.mem_map.mp hstep
  exact stepper_reports ex q

/-- The node of the move reaches only for children that it has, and obeys the cursor law at the
end of its tick. -/
def Lawful (p : Plan) : Move (List ℕ) → Prop
  | .reached place index => ∃ q, p.at? place = some q ∧ index < q.children.length
  | .ended place status cursor children => ∃ q, p.at? place = some q ∧
      children.length = q.children.length ∧
      ∀ kind, q.spec.behavior = BuiltIn.behavior kind → kind.category ≠ .leaf →
        kind.CursorLaw status cursor children
  | .began _ _ | .restarted _ | .asked _ _ _ => True

theorem Lawful.below {i : ℕ} {move : Move (List ℕ)} (hq : plans[i]? = some q)
    (h : q.Lawful move) : (node spec plans).Lawful (move.map (i :: ·)) := by
  have hat : ∀ {place r}, q.at? place = some r → (node spec plans).at? (i :: place) = some r := by
    intro place r hr
    rw [at?, children, hq, Option.bind_some, hr]
  cases move with
  | began | restarted | asked => exact trivial
  | reached place index =>
    obtain ⟨r, hr, hindex⟩ := h
    exact ⟨r, hat hr, hindex⟩
  | ended place status cursor statuses =>
    obtain ⟨r, hr, hlaw⟩ := h
    exact ⟨r, hat hr, hlaw⟩

/-- All moves of a tick are lawful. -/
theorem lawful_moves (hp : p.AllBuiltIn) (ha : p.Steady a) (ex : Executor σ) (w : World σ) :
    ∀ move ∈ p.moves ex a w, p.Lawful move := by
  induction p generalizing a w with
  | node spec plans ih =>
    obtain ⟨⟨kind, hkind⟩, below⟩ := hp
    have hlength := length_steppers ex plans
    have hchildren : plans.length = a.children.length := (fits_node_iff.mp ha.fits).1
    rw [moves_node]
    refine List.forall_mem_cons.mpr ⟨trivial, List.forall_mem_append.mpr ⟨?_, ?_⟩⟩
    · have hroutine : spec.behavior.routine = kind.routine := by rw [hkind, BuiltIn.behavior]
      rw [hroutine]
      refine Routine.forall_moves (J := fun i c => ∀ q, plans[i]? = some q → q.Steady c)
        (fun i step hstep c v hc q hq => ?_) (fun i c hc q hq => (hc q hq).reset)
        (fun i hi => ⟨⟨_, rfl, hlength ▸ hi⟩, trivial⟩) (fun _ _ _ => trivial) ?_
        (kind.routine_within _) (fun i c hc q hq => ha.child hq hc)
      · rw [steppers_eq_map, List.getElem?_map, hq] at hstep
        obtain rfl := Option.some.inj hstep
        exact (hc q hq).tick ex v
      · intro i tell htell c v hc move hmove
        rw [tellers_eq_map, List.getElem?_map] at htell
        obtain ⟨q, hq, rfl⟩ := Option.map_eq_some_iff.mp htell
        have hmem := List.mem_of_getElem? hq
        exact (ih q hmem (below q hmem) (hc q hq) v move hmove).below hq
    · refine List.forall_mem_singleton.mpr ⟨_, rfl, ?_, fun kind hspec hleaf => ?_⟩
      · rw [List.length_map, NodeSpec.length_step]
        exact hchildren.symm
      · exact ha.cursorLaw hleaf hspec ex w

end Plan

namespace Forest

variable {f : Forest} {k : NodeKey} {p : Plan} {a : Progress}

/-- Whatever has been done to the forest, nodes that do not move their cursors have them at their
start. -/
theorem Reachable.atStart (hf : f.Reachable) {n : Node} (hn : f.node? k = some n) :
    n.spec.AtStart n.state := by
  intro kind hspec hstays
  have hcursor : (f.runState k).cursor = 0 := by
    refine Reachable.state_of_kind (P := fun state => state.cursor = 0) rfl ?_ hf ⟨n, hn, hspec⟩
    intro σ ex spec plans a w hspec ha
    exact (NodeSpec.step_cursor hspec hstays ex _ a w).trans ha
  rw [runState, hn] at hcursor
  exact hcursor

/-- In a forest that has come about from nothing the cursors are steady. -/
theorem Holds.steady (h : f.Holds k p a) (hf : f.Reachable) : p.Steady a where
  fits := h.fits
  atStart place q b hq hb := by
    obtain ⟨m, c, -, hc, hholds⟩ := h.exists_way hq
    obtain rfl : c = b := Option.some.inj (hc.symm.trans hb)
    obtain ⟨spec, plans⟩ := q
    obtain ⟨state, children⟩ := c
    obtain ⟨n, hn, rfl, rfl⟩ := hholds.exists_node
    exact hf.atStart hn

/-- The statuses of the children are those in the progress. -/
theorem Holds.statuses (h : f.Holds k p a) :
    (f.children k).map (fun c => (f.runState c).status) =
      a.children.map fun c => c.state.status := by
  obtain ⟨spec, plans⟩ := p
  obtain ⟨state, children⟩ := a
  refine List.ext_getElem (by simp [h.length_children, Progress.children]) fun i hi _ => ?_
  rw [List.length_map] at hi
  obtain ⟨q, b, -, hb, hholds⟩ := h.child (List.getElem?_eq_getElem hi)
  obtain ⟨hlt, hget⟩ := List.getElem?_eq_some_iff.mp hb
  rw [List.getElem_map, List.getElem_map, hholds.runState]
  exact congrArg (fun c : Progress => c.state.status) hget.symm

/-- The node of the move reaches only for children that it has, and obeys the cursor law at the
end of its tick. -/
def Lawful (f : Forest) : Move NodeKey → Prop
  | .reached n i => i < (f.children n).length
  | .ended n status cursor children => children.length = (f.children n).length ∧
      ∀ kind, f.IsKind n kind → kind.category ≠ .leaf → kind.CursorLaw status cursor children
  | .began _ _ | .restarted _ | .asked _ _ _ => True

/-- What is lawful in the subtree is lawful in the forest. -/
theorem Holds.lawful (h : f.Holds k p a) {move : Move (List ℕ)} (hmove : p.Lawful move) :
    f.Lawful (move.map (f.nodeAt k)) := by
  cases move with
  | began | restarted | asked => exact trivial
  | reached place index =>
    obtain ⟨⟨spec, plans⟩, hq, hindex⟩ := hmove
    obtain ⟨m, b, hway, -, hholds⟩ := h.exists_way hq
    change index < (f.children (f.nodeAt k place)).length
    rw [hway.nodeAt_self, hholds.length_plans]
    exact hindex
  | ended place status cursor children =>
    obtain ⟨⟨spec, plans⟩, hq, hlength, hlaw⟩ := hmove
    obtain ⟨m, b, hway, -, hholds⟩ := h.exists_way hq
    have hnode := hway.nodeAt_self
    refine ⟨?_, fun kind hkind hleaf => hlaw kind ?_ hleaf⟩
    · rw [hnode, hholds.length_plans]
      exact hlength
    · exact hholds.behavior (hnode ▸ hkind)

/-- Whatever has been done to the forest, no built-in node reaches for a child that is not there
while it or a node above it is ticked; and whenever one ends its tick, its cursor is at a child if
it is running, at a running one in a sequence or a selector, and at its start if it has succeeded
or failed. That is also how the tick leaves the node that is ticked from outside. -/
theorem cursor_law (hf : f.Reachable) (hkinds : ∀ m ∈ f.subtree k, ∃ kind, f.IsKind m kind)
    (ex : Executor σ) (w : World σ) :
    (∀ n i, .reached n i ∈ f.moves ex k w → i < (f.children n).length) ∧
      (∀ n status cursor children, .ended n status cursor children ∈ f.moves ex k w →
        children.length = (f.children n).length ∧
          ∀ kind, f.IsKind n kind → kind.category ≠ .leaf →
            kind.CursorLaw status cursor children) ∧
      ∀ kind, f.IsKind k kind → kind.category ≠ .leaf →
        let x := f.tick ex k w
        kind.CursorLaw x.1 (x.2.1.runState k).cursor
          ((x.2.1.children k).map fun c => (x.2.1.runState c).status) := by
  have hs := hf.sound
  cases hp : f.plan? k with
  | none =>
    have hnone : f.moves ex k w = [] := by simp only [moves, hp]
    refine ⟨by simp [hnone], by simp [hnone], ?_⟩
    rintro kind ⟨n, hn, -⟩
    obtain ⟨plans, hplan, -⟩ := hs.exists_plan hn
    rw [hp] at hplan
    cases hplan
  | some p =>
    obtain ⟨a, hholds⟩ := Holds.exists_progress hs hp
    have hsteady := hholds.steady hf
    have hlawful : ∀ move ∈ f.moves ex k w, f.Lawful move := by
      rw [hholds.moves_eq]
      refine List.forall_mem_map.mpr fun move hmove => hholds.lawful ?_
      exact p.lawful_moves (hs.allBuiltIn hkinds hp) hsteady ex w move hmove
    refine ⟨fun _ _ hmove => hlawful _ hmove, fun _ _ _ _ hmove => hlawful _ hmove, ?_⟩
    · intro kind hkind hleaf
      have hafter := hholds.tick ex w
      rw [hholds.tick_eq] at hafter ⊢
      simp only [hafter.runState, hafter.statuses]
      exact hsteady.cursorLaw hleaf (hholds.behavior hkind) ex w

def shortPatrol : Forest := (lookingPatrol.detach 0 1).2

theorem lookingPatrol_reachable : lookingPatrol.Reachable :=
  .tail (.tail patrol_reachable (.reset 0)) (.tick _ 0 _)

theorem shortPatrol_isKind {m : NodeKey} {kind : BuiltIn} (h : patrol.IsKind m kind) :
    shortPatrol.IsKind m kind := by
  have hreset := (reset_sameButStates patrol 0).keeps_behavior h
  have hlooking : lookingPatrol.IsKind m kind := (tick_sameButStates _ _ 0 _).keeps_behavior hreset
  exact ((Revision.link (.detach 0 1)).keeps lookingPatrol_reachable.sound hlooking).1

/-- The cursor is past the last child when the tick begins. -/
theorem cursor_law_shortPatrol :
    (shortPatrol.runState 0).cursor = 1 ∧ shortPatrol.children 0 = [2] ∧
      let x := shortPatrol.tick Executor.scripted 0 ⟨.empty, [.running]⟩
      x.1 = .running ∧ BuiltIn.sequence.CursorLaw x.1 (x.2.1.runState 0).cursor
        ((x.2.1.children 0).map fun c => (x.2.1.runState c).status) := by
  have hreachable : shortPatrol.Reachable := .tail lookingPatrol_reachable (.detach 0 1)
  have hsubtree : shortPatrol.subtree 0 = [0, 2] := by decide +kernel
  have hroot : shortPatrol.IsKind 0 .sequence := shortPatrol_isKind ⟨_, rfl, rfl⟩
  have hkinds : ∀ m ∈ shortPatrol.subtree 0, ∃ kind, shortPatrol.IsKind m kind := by
    intro m hm
    rw [hsubtree] at hm
    simp only [List.mem_cons, List.not_mem_nil, or_false] at hm
    rcases hm with rfl | rfl
    · exact ⟨.sequence, hroot⟩
    · exact ⟨.script, shortPatrol_isKind ⟨_, rfl, rfl⟩⟩
  refine ⟨by decide +kernel, by decide +kernel, by decide +kernel, ?_⟩
  exact (cursor_law hreachable hkinds _ _).2.2 .sequence hroot (by decide)

end Forest

end BehaviorTree
