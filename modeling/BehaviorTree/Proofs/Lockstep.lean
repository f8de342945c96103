import BehaviorTree.Plan
import Mathlib.Data.List.Forall2

/-!
Ticks in lockstep. A routine reaches the world and the children of its node by its own steps only.
Two ticks of one node therefore go alike as long as their children and their worlds correspond and
the children keep to that: both come to the same status, and what they leave corresponds again.
What corresponds to what is up to the use that is made of it: two executors with different
memories, two children that cannot be told apart, or a child and the plan that it has the shape of.
-/
namespace BehaviorTree

variable {σ τ : Type}

/-- What holds of a node whenever it holds of its children holds of every plan. -/
@[induction_eliminator]
theorem Plan.induction {motive : Plan → Prop}
    (node : ∀ spec children, (∀ c ∈ children, motive c) → motive (.node spec children)) :
    ∀ plan, motive plan
  | .node spec children => node spec children (all children)
where
  all : ∀ children : List Plan, ∀ c ∈ children, motive c
    | p :: rest, c, hc =>
      (List.mem_cons.mp hc).elim (fun h => h ▸ Plan.induction node p) (all rest c)

inductive Plan.All (P : NodeSpec → Prop) : Plan → Prop
  | node {spec : NodeSpec} {children : List Plan} (here : P spec)
      (below : ∀ c ∈ children, Plan.All P c) : Plan.All P (.node spec children)

theorem Plan.all_of_forall {P : NodeSpec → Prop} (h : ∀ spec, P spec) (p : Plan) : p.All P := by
  induction p with
  | node spec children ih => exact .node (h spec) ih

theorem Plan.All.imp {P Q : NodeSpec → Prop} (h : ∀ spec, P spec → Q spec) {p : Plan}
    (hp : p.All P) : p.All Q := by
  induction p with
  | node spec children ih =>
    obtain ⟨here, below⟩ := hp
    exact .node (h spec here) fun c hc => ih c hc (below c hc)

theorem Plan.steppers_eq_map (ex : Executor σ) (plans : List Plan) :
    Plan.steppers ex plans = plans.map (Plan.tick ex) := by
  induction plans with
  | nil => rfl
  | cons p rest ih => rw [Plan.steppers, ih, List.map_cons]

theorem Plan.freshAll_eq_map (plans : List Plan) : Plan.freshAll plans = plans.map Plan.fresh := by
  induction plans with
  | nil => rfl
  | cons p rest ih => rw [Plan.freshAll, ih, List.map_cons]

theorem Progress.resetAll_eq_map (children : List Progress) :
    Progress.resetAll children = children.map Progress.reset := by
  induction children with
  | nil => rfl
  | cons a rest ih => rw [Progress.resetAll, ih, List.map_cons]

@[simp] theorem Progress.state_reset (a : Progress) : a.reset.state = .fresh := by
  cases a with
  | node state children => rfl

@[simp] theorem Progress.children_reset (a : Progress) :
    a.reset.children = a.children.map Progress.reset := by
  cases a with
  | node state children => exact Progress.resetAll_eq_map children

/-- Two executors that answer alike as long as their worlds correspond. -/
structure Executor.Mirrors (ex : Executor σ) (other : Executor τ)
    (W : World σ → World τ → Prop) : Prop where
  board : ∀ {w v}, W w v → w.board = v.board
  edit : ∀ {w v}, W w v → ∀ board, W { w with board } { v with board }
  answer : ∀ {w v}, W w v → ∀ request,
    (ex request w).1 = (other request v).1 ∧ W (ex request w).2 (other request v).2

/-- Two executors under which the code of a node goes alike as long as their worlds correspond. Worlds
that correspond have boards that do, and stay so when these are edited. -/
structure Executor.Agrees (ex : Executor σ) (other : Executor τ)
    (B : Blackboard → Blackboard → Prop) (W : World σ → World τ → Prop) : Prop where
  board : ∀ {w v}, W w v → B w.board v.board
  edit : ∀ {w v}, W w v → ∀ {b c}, B b c → W { w with board := b } { v with board := c }
  execute : ∀ (spec : NodeSpec) (ticks : ℕ) {w v}, W w v →
    (spec.execute ex ticks w).1 = (spec.execute other ticks v).1 ∧
      W (spec.execute ex ticks w).2 (spec.execute other ticks v).2

/-- Boards that correspond are the same to the routine, and it edits them so that they go on
corresponding. -/
def Routine.Respects (B : Blackboard → Blackboard → Prop) : Routine → Prop
  | finish _ => True
  | tickChild _ next => ∀ status, (next status).Respects B
  | resetChild _ next => next.Respects B
  | setCursor _ next => next.Respects B
  | setCounter _ next => next.Respects B
  | runCode _ next => ∀ status, (next status).Respects B
  | readBoard next => ∀ b c, B b c → next b = next c ∧ (next b).Respects B
  | editBoard edit next => (∀ b c, B b c → B (edit b) (edit c)) ∧ next.Respects B

def NodeSpec.Respects (B : Blackboard → Blackboard → Prop) (spec : NodeSpec) : Prop :=
  ∀ view, (spec.behavior.routine view).Respects B

structure SameOutcome (R : Progress → Progress → Prop) (W : World σ → World τ → Prop)
    (x : Status × Progress × World σ) (y : Status × Progress × World τ) : Prop where
  status : x.1 = y.1
  progress : R x.2.1 y.2.1
  world : W x.2.2 y.2.2

/-- Lists of children that correspond one by one. At every index it may be something else that
makes two children correspond. -/
structure Paired (R : ℕ → Progress → Progress → Prop) (as bs : List Progress) : Prop where
  length : as.length = bs.length
  child : ∀ {i a b}, as[i]? = some a → bs[i]? = some b → R i a b

/-- Steppers under which children that correspond go on corresponding. -/
structure InStep (R : ℕ → Progress → Progress → Prop) (W : World σ → World τ → Prop)
    (steps : List (Stepper σ)) (others : List (Stepper τ)) : Prop where
  length : steps.length = others.length
  tick : ∀ {i s t}, steps[i]? = some s → others[i]? = some t →
    ∀ {a b w v}, R i a b → W w v → SameOutcome (R i) W (s a w) (t b v)
  reset : ∀ {i a b}, R i a b → R i a.reset b.reset

variable {ex : Executor σ} {other : Executor τ} {W : World σ → World τ → Prop}
  {R : ℕ → Progress → Progress → Prop} {B : Blackboard → Blackboard → Prop}

theorem Executor.mirrors_self (ex : Executor σ) : ex.Mirrors ex Eq where
  board h := congrArg World.board h
  edit h _ := h ▸ rfl
  answer h _ := h ▸ ⟨rfl, rfl⟩

/-- The code of a node comes to the same under executors that mirror each other. -/
theorem Executor.Mirrors.execute (h : ex.Mirrors other W) (spec : NodeSpec) (ticks : ℕ)
    {w : World σ} {v : World τ} (hw : W w v) :
    (spec.execute ex ticks w).1 = (spec.execute other ticks v).1 ∧
      W (spec.execute ex ticks w).2 (spec.execute other ticks v).2 := by
  simp only [NodeSpec.execute, h.board hw]
  cases spec.activeCode? with
  | none => exact ⟨rfl, hw⟩
  | some code =>
    have hanswer := h.answer (h.edit hw (spec.parameters.resolve v.board spec.id).2)
      ⟨code, spec.id, ticks, (spec.parameters.resolve v.board spec.id).1⟩
    exact ⟨congrArg Executor.outcome hanswer.1, hanswer.2⟩

theorem Executor.Mirrors.agrees (h : ex.Mirrors other W) : ex.Agrees other Eq W where
  board := h.board
  edit hw _ _ hb := hb ▸ h.edit hw _
  execute spec ticks _ _ hw := h.execute spec ticks hw

/-- Every routine goes alike on one and the same board. -/
theorem Routine.respects_eq (r : Routine) : r.Respects Eq := by
  induction r with
  | finish status => exact trivial
  | tickChild i next ih => exact ih
  | resetChild i next ih => exact ih
  | setCursor i next ih => exact ih
  | setCounter n next ih => exact ih
  | runCode ticks next ih => exact ih
  | readBoard next ih => exact fun b c hbc => ⟨congrArg next hbc, ih b⟩
  | editBoard edit next ih => exact ⟨fun b c hbc => congrArg edit hbc, ih⟩

theorem NodeSpec.respects_eq (spec : NodeSpec) : spec.Respects Eq :=
  fun view => (spec.behavior.routine view).respects_eq

namespace Paired

variable {as bs : List Progress}

theorem none_iff (h : Paired R as bs) (i : ℕ) : as[i]? = none ↔ bs[i]? = none := by
  rw [List.getElem?_eq_none_iff, List.getElem?_eq_none_iff, h.length]

theorem set (h : Paired R as bs) {i : ℕ} {a b : Progress} (hab : R i a b) :
    Paired R (as.set i a) (bs.set i b) where
  length := by simp [h.length]
  child {j x y} hx hy := by
    rw [List.getElem?_set] at hx hy
    by_cases hij : i = j
    · subst hij
      simp only [if_true] at hx hy
      split at hx <;> split at hy <;> simp_all
    · simp only [hij, if_false] at hx hy
      exact h.child hx hy

theorem modify_reset (h : Paired R as bs) (i : ℕ)
    (hreset : ∀ {i a b}, R i a b → R i a.reset b.reset) :
    Paired R (as.modify i Progress.reset) (bs.modify i Progress.reset) where
  length := by simp [h.length]
  child {j x y} hx hy := by
    rw [List.getElem?_modify] at hx hy
    obtain ⟨a, ha, rfl⟩ := Option.map_eq_some_iff.mp hx
    obtain ⟨b, hb, rfl⟩ := Option.map_eq_some_iff.mp hy
    have hab := h.child ha hb
    by_cases hij : i = j
    · simpa [hij] using hreset hab
    · simpa [hij] using hab

theorem map_reset (h : Paired R as bs) (hreset : ∀ {i a b}, R i a b → R i a.reset b.reset) :
    Paired R (as.map Progress.reset) (bs.map Progress.reset) where
  length := by simp [h.length]
  child {j x y} hx hy := by
    rw [List.getElem?_map] at hx hy
    obtain ⟨a, ha, rfl⟩ := Option.map_eq_some_iff.mp hx
    obtain ⟨b, hb, rfl⟩ := Option.map_eq_some_iff.mp hy
    exact hreset (h.child ha hb)

end Paired

/-- Two nodes in the middle of their ticks that have gone alike so far. -/
structure Ongoing.Alike (R : ℕ → Progress → Progress → Prop) (W : World σ → World τ → Prop)
    (o : Ongoing σ) (u : Ongoing τ) : Prop where
  cursor : o.cursor = u.cursor
  counter : o.counter = u.counter
  children : Paired R o.children u.children
  world : W o.world u.world

/-- Children that are ticked alike leave their nodes alike. -/
theorem Ongoing.Alike.tickChild {steps : List (Stepper σ)} {others : List (Stepper τ)}
    (hsteps : InStep R W steps others) {o : Ongoing σ} {u : Ongoing τ} (h : o.Alike R W u)
    (i : ℕ) :
    (o.tickChild steps i).1 = (u.tickChild others i).1 ∧
      (o.tickChild steps i).2.Alike R W (u.tickChild others i).2 := by
  have hnone : steps[i]? = none ↔ others[i]? = none := by
    rw [List.getElem?_eq_none_iff, List.getElem?_eq_none_iff, hsteps.length]
  simp only [Ongoing.tickChild]
  cases hs : steps[i]? with
  | none => simpa [hnone.mp hs] using h
  | some s =>
    obtain ⟨t, ht⟩ := Option.ne_none_iff_exists'.mp fun ht => by simp [hnone.mpr ht] at hs
    cases ha : o.children[i]? with
    | none => simpa [ht, (h.children.none_iff i).mp ha] using h
    | some a =>
      obtain ⟨b, hb⟩ := Option.ne_none_iff_exists'.mp fun hb => by
        simp [(h.children.none_iff i).mpr hb] at ha
      have hout := hsteps.tick hs ht (h.children.child ha hb) h.world
      simp only [ht, hb]
      exact ⟨hout.status, h.cursor, h.counter, h.children.set hout.progress, hout.world⟩

/-- A routine that is carried out on both sides keeps them alike. -/
theorem Routine.run_related (hex : ex.Agrees other B W) (spec : NodeSpec)
    {steps : List (Stepper σ)} {others : List (Stepper τ)} (hsteps : InStep R W steps others)
    (r : Routine) (hr : r.Respects B) {o : Ongoing σ} {u : Ongoing τ} (h : o.Alike R W u) :
    (r.run ex spec steps o).1 = (r.run other spec others u).1 ∧
      (r.run ex spec steps o).2.Alike R W (r.run other spec others u).2 := by
  induction r generalizing o u with
  | finish status => exact ⟨rfl, h⟩
  | tickChild i next ih =>
    obtain ⟨hstatus, halike⟩ := h.tickChild hsteps i
    simp only [Routine.run, hstatus]
    exact ih _ (hr _) halike
  | resetChild i next ih =>
    exact ih hr ⟨h.cursor, h.counter, h.children.modify_reset i hsteps.reset, h.world⟩
  | setCursor i next ih => exact ih hr ⟨rfl, h.counter, h.children, h.world⟩
  | setCounter n next ih => exact ih hr ⟨h.cursor, rfl, h.children, h.world⟩
  | runCode ticks next ih =>
    obtain ⟨hstatus, hworld⟩ := hex.execute spec ticks h.world
    simp only [Routine.run, hstatus]
    exact ih _ (hr _) ⟨h.cursor, h.counter, h.children, hworld⟩
  | readBoard next ih =>
    obtain ⟨hnext, hrest⟩ := hr _ _ (hex.board h.world)
    simp only [Routine.run, ← hnext]
    exact ih _ hrest h
  | editBoard edit next ih =>
    obtain ⟨hedit, hrest⟩ := hr
    have hworld := hex.edit h.world (hedit _ _ (hex.board h.world))
    exact ih hrest ⟨h.cursor, h.counter, h.children, hworld⟩

structure SameNode (R : ℕ → Progress → Progress → Prop) (a b : Progress) : Prop where
  state : a.state = b.state
  children : Paired R a.children b.children

theorem SameNode.reset {a b : Progress} (h : SameNode R a b)
    (hreset : ∀ {i a b}, R i a b → R i a.reset b.reset) : SameNode R a.reset b.reset where
  state := by simp
  children := by simpa using h.children.map_reset hreset

/-- A node does the same over children that do the same, on boards that it cannot tell apart. -/
theorem NodeSpec.step_related (hex : ex.Agrees other B W) (spec : NodeSpec)
    (hspec : spec.Respects B) {steps : List (Stepper σ)} {others : List (Stepper τ)}
    (hsteps : InStep R W steps others) {a b : Progress} (hab : SameNode R a b) {w : World σ}
    {v : World τ} (hw : W w v) :
    SameOutcome (SameNode R) W (spec.step ex steps a w) (spec.step other others b v) := by
  obtain ⟨state, as⟩ := a
  obtain ⟨state', bs⟩ := b
  obtain rfl : state = state' := hab.state
  have halike : Ongoing.Alike R W ⟨state.cursor, state.counter, as, w⟩
      ⟨state.cursor, state.counter, bs, v⟩ := ⟨rfl, rfl, hab.children, hw⟩
  obtain ⟨hstatus, hrun⟩ := Routine.run_related hex spec hsteps
    (spec.behavior.routine (spec.view state steps.length)) (hspec _) halike
  simp only [NodeSpec.step, ← hsteps.length]
  refine ⟨hstatus, ⟨?_, hrun.children⟩, hrun.world⟩
  simp only [Progress.state, hstatus, hrun.cursor, hrun.counter]

/-- A node does the same over children that do the same. -/
theorem NodeSpec.step_alike (hex : ex.Mirrors other W) (spec : NodeSpec)
    {steps : List (Stepper σ)} {others : List (Stepper τ)} (hsteps : InStep R W steps others)
    {a b : Progress} (hab : SameNode R a b) {w : World σ} {v : World τ} (hw : W w v) :
    SameOutcome (SameNode R) W (spec.step ex steps a w) (spec.step other others b v) :=
  spec.step_related hex.agrees spec.respects_eq hsteps hab hw

theorem Routine.length_run (ex : Executor σ) (spec : NodeSpec) (steps : List (Stepper σ))
    (r : Routine) (o : Ongoing σ) :
    (r.run ex spec steps o).2.children.length = o.children.length := by
  induction r generalizing o with
  | finish status => rfl
  | tickChild i next ih =>
    simp only [Routine.run, ih, Ongoing.tickChild]
    split <;> simp
  | resetChild i next ih => simp [Routine.run, ih, Ongoing.resetChild]
  | setCursor i next ih => exact ih _
  | setCounter n next ih => exact ih _
  | runCode ticks next ih => exact ih _ _
  | readBoard next ih => exact ih _ _
  | editBoard edit next ih => exact ih _

theorem NodeSpec.length_step (ex : Executor σ) (spec : NodeSpec) (steps : List (Stepper σ))
    (a : Progress) (w : World σ) :
    (spec.step ex steps a w).2.1.children.length = a.children.length := by
  obtain ⟨state, as⟩ := a
  exact Routine.length_run ex spec steps _ _

theorem Paired.eq {as bs : List Progress} (h : Paired (fun _ => Eq) as bs) : as = bs := by
  refine List.ext_getElem h.length fun i hi hj => ?_
  exact h.child (List.getElem?_eq_getElem hi) (List.getElem?_eq_getElem hj)

theorem Paired.refl (as : List Progress) : Paired (fun _ => Eq) as as :=
  ⟨rfl, fun ha hb => Option.some.inj (ha.symm.trans hb)⟩

theorem SameNode.eq {a b : Progress} (h : SameNode (fun _ => Eq) a b) : a = b := by
  obtain ⟨state, as⟩ := a
  obtain ⟨state', bs⟩ := b
  exact congrArg₂ Progress.node h.state h.children.eq

/-- Under executors that agree, a subtree goes through the same states. -/
theorem Plan.tick_related (hex : ex.Agrees other B W) {p : Plan} (hp : p.All (·.Respects B))
    (a : Progress) {w : World σ} {v : World τ} (hw : W w v) :
    SameOutcome Eq W (p.tick ex a w) (p.tick other a v) := by
  induction p generalizing a w v with
  | node spec children ih =>
    obtain ⟨hspec, hbelow⟩ := hp
    have hsteps : InStep (fun _ => Eq) W (steppers ex children) (steppers other children) := by
      refine ⟨by simp [steppers_eq_map], fun {i s t} hs ht a b w v hab hw => ?_, fun h => h ▸ rfl⟩
      rw [steppers_eq_map, List.getElem?_map] at hs ht
      obtain ⟨p, hp, rfl⟩ := Option.map_eq_some_iff.mp hs
      obtain ⟨q, hq, rfl⟩ := Option.map_eq_some_iff.mp ht
      obtain rfl : p = q := Option.some.inj (hp.symm.trans hq)
      have hmem := List.mem_of_getElem? hp
      exact hab ▸ ih p hmem (hbelow p hmem) a hw
    have hnode : SameNode (fun _ => Eq) a a := ⟨rfl, Paired.refl _⟩
    have hout := NodeSpec.step_related hex spec hspec hsteps hnode hw
    exact ⟨hout.status, hout.progress.eq, hout.world⟩

/-- With executors that answer alike, a subtree goes through the same states. -/
theorem Plan.tick_mirrored (hex : ex.Mirrors other W) (p : Plan) (a : Progress) {w : World σ}
    {v : World τ} (hw : W w v) : SameOutcome Eq W (p.tick ex a w) (p.tick other a v) :=
  Plan.tick_related hex.agrees (Plan.all_of_forall NodeSpec.respects_eq p) a hw

inductive Plan.Fits : Plan → Progress → Prop
  | node {spec : NodeSpec} {state : RunState} {plans : List Plan} {children : List Progress}
      (all : List.Forall₂ Plan.Fits plans children) :
      Plan.Fits (.node spec plans) (.node state children)

namespace Plan

theorem fits_node_iff {spec : NodeSpec} {plans : List Plan} {a : Progress} :
    Fits (.node spec plans) a ↔ plans.length = a.children.length ∧
      ∀ {i : ℕ} {p : Plan} {c : Progress}, plans[i]? = some p → a.children[i]? = some c →
        p.Fits c := by
  have hall : Fits (.node spec plans) a ↔ List.Forall₂ Fits plans a.children :=
    ⟨fun h => by cases h with | node all => exact all, fun h => by cases a; exact .node h⟩
  rw [hall, List.forall₂_iff_get]
  refine and_congr_right fun hlen => ⟨fun h i p c hp hc => ?_, fun h i hi hj => ?_⟩
  · obtain ⟨hi, rfl⟩ := List.getElem?_eq_some_iff.mp hp
    obtain ⟨hj, rfl⟩ := List.getElem?_eq_some_iff.mp hc
    exact h i hi hj
  · exact h (List.getElem?_eq_getElem hi) (List.getElem?_eq_getElem hj)

theorem reset_eq_fresh {p : Plan} {a : Progress} (h : p.Fits a) : a.reset = p.fresh := by
  induction p generalizing a with
  | node spec plans ih =>
    obtain ⟨hlen, hchild⟩ := fits_node_iff.mp h
    obtain ⟨state, children⟩ := a
    rw [Progress.reset, fresh, Progress.resetAll_eq_map, freshAll_eq_map]
    have hlen' : children.length = plans.length := hlen.symm
    refine congrArg _ (List.ext_getElem (by simpa using hlen') fun i hi hj => ?_)
    rw [List.getElem_map, List.getElem_map]
    have hi' : i < children.length := by simpa using hi
    have hj' : i < plans.length := by simpa using hj
    exact ih _ (List.getElem_mem hj')
      (hchild (List.getElem?_eq_getElem hj') (List.getElem?_eq_getElem hi'))

theorem fits_fresh (p : Plan) : p.Fits p.fresh := by
  induction p with
  | node spec plans ih =>
    rw [fresh, freshAll_eq_map, fits_node_iff]
    refine ⟨(List.length_map _).symm, fun {i p c} hp hc => ?_⟩
    rw [Progress.children, List.getElem?_map, hp, Option.map_some] at hc
    exact Option.some.inj hc ▸ ih p (List.mem_of_getElem? hp)

theorem fits_reset {p : Plan} {a : Progress} (h : p.Fits a) : p.Fits a.reset := by
  induction p generalizing a with
  | node spec plans ih =>
    obtain ⟨hlen, hchild⟩ := fits_node_iff.mp h
    refine fits_node_iff.mpr ⟨by simpa using hlen, fun {i p c} hp hc => ?_⟩
    rw [Progress.children_reset, List.getElem?_map] at hc
    obtain ⟨a, ha, rfl⟩ := Option.map_eq_some_iff.mp hc
    exact ih p (List.mem_of_getElem? hp) (hchild hp ha)

theorem fits_tick (ex : Executor σ) {p : Plan} {a : Progress} (h : p.Fits a) (w : World σ) :
    p.Fits (p.tick ex a w).2.1 := by
  induction p generalizing a w with
  | node spec plans ih =>
    obtain ⟨hlen, hchild⟩ := fits_node_iff.mp h
    -- Every child goes in step with itself, and fits its plan.
    let Fitting : ℕ → Progress → Progress → Prop := fun i c d =>
      c = d ∧ ∃ p, plans[i]? = some p ∧ p.Fits c
    have hsteps : InStep Fitting Eq (steppers ex plans) (steppers ex plans) := by
      refine ⟨rfl, fun {i s t} hs ht => ?_, fun {i c d} hcd => ?_⟩
      · obtain rfl : s = t := Option.some.inj (hs.symm.trans ht)
        rw [steppers_eq_map, List.getElem?_map] at hs
        obtain ⟨p, hp, rfl⟩ := Option.map_eq_some_iff.mp hs
        rintro c d w v ⟨rfl, q, hq, hfits⟩ rfl
        obtain rfl : p = q := Option.some.inj (hp.symm.trans hq)
        exact ⟨rfl, ⟨rfl, p, hp, ih p (List.mem_of_getElem? hp) hfits w⟩, rfl⟩
      · obtain ⟨rfl, p, hp, hfits⟩ := hcd
        exact ⟨rfl, p, hp, fits_reset hfits⟩
    have hnode : SameNode Fitting a a := by
      refine ⟨rfl, rfl, fun {i c d} hc hd => ⟨Option.some.inj (hc.symm.trans hd), ?_⟩⟩
      obtain ⟨hi, -⟩ := List.getElem?_eq_some_iff.mp hc
      have hp := List.getElem?_eq_getElem (hlen ▸ hi)
      exact ⟨_, hp, hchild hp hc⟩
    have hout := NodeSpec.step_alike ex.mirrors_self spec hsteps hnode (rfl : w = w)
    refine fits_node_iff.mpr ⟨?_, fun hp hc => ?_⟩
    · rw [hlen, Plan.tick, NodeSpec.length_step]
    · obtain ⟨-, q, hq, hfits⟩ := hout.progress.children.child hc hc
      exact Option.some.inj (hp.symm.trans hq) ▸ hfits

end Plan

end BehaviorTree
