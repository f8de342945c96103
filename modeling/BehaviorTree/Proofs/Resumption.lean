import BehaviorTree.Proofs.ActivePath
import BehaviorTree.Proofs.Adoption
import BehaviorTree.Proofs.Courses

/-!
Resuming after edits. A sequence or a selector that is suspended keeps the index of the child that
it waits for, and edits leave the index alone. So the next tick goes first to whatever child stands
at that index by then, and to the first child if the index is past the last. This is the child that
is waited for as long as the children up to it are the ones they were. Where one in front of it has
been taken away, the child that is waited for is passed over.
-/
namespace BehaviorTree

variable {σ : Type} {kind : BuiltIn} {stop done : Status} {spec : NodeSpec} {plans : List Plan}

/-- A round begins with its first child, and it is suspended by the child it has come to. -/
theorem visits_sweep (hkind : kind.GoesRound stop done) (steps : List (Stepper σ))
    (rest : List Progress) (hlen : steps.length = rest.length) (i : ℕ)
    (w : World (σ × List Visit)) :
    let r := sweep stop done (notingFrom i steps) rest w
    ∃ visits, r.world.memory.2 = w.memory.2 ++ visits ∧
      (rest ≠ [] → visits.head?.map (·.child) = some i) ∧
      (r.status = .running →
        r.passed < rest.length ∧ visits.getLast? = some ⟨i + r.passed, .running⟩) := by
  induction steps generalizing rest i w with
  | nil =>
    obtain rfl := List.length_eq_zero_iff.mp hlen.symm
    refine ⟨[], (List.append_nil _).symm, fun h => absurd rfl h, ?_⟩
    intro hrunning
    exact absurd hrunning hkind.done_ne_running
  | cons step steps ih =>
    obtain _ | ⟨a, rest⟩ := rest
    · simp at hlen
    have hlog : (step.noting i a w).2.2.memory.2 =
        w.memory.2 ++ [⟨i, (step.noting i a w).1⟩] := rfl
    rw [notingFrom]
    by_cases h : (step.noting i a w).1 = stop ∨ (step.noting i a w).1 = .running
    · rw [sweep_cons_of_halt _ _ h]
      refine ⟨[⟨i, (step.noting i a w).1⟩], hlog, fun _ => rfl, fun hrunning => ?_⟩
      have hstatus : (step.noting i a w).1 = .running := hrunning
      exact ⟨Nat.succ_pos _, by rw [hstatus]; rfl⟩
    · rw [sweep_cons_of_pass _ _ h]
      obtain ⟨visits, hvisits, -, hlast⟩ :=
        ih rest (Nat.succ.inj hlen) (i + 1) (step.noting i a w).2.2
      refine ⟨⟨i, (step.noting i a w).1⟩ :: visits, ?_, fun _ => rfl, fun hrunning => ?_⟩
      · rw [hvisits, hlog, List.append_assoc]
        rfl
      · obtain ⟨hpassed, hend⟩ := hlast hrunning
        refine ⟨Nat.succ_lt_succ hpassed, ?_⟩
        rw [List.getLast?_cons, hend, Nat.add_right_comm]
        rfl

/-- A tick goes first to the child at which the node resumes. A suspended node keeps the index of
the child that suspended it. -/
theorem Plan.visits_watch (hkind : kind.GoesRound stop done) (hspec : spec.behavior = kind.behavior)
    {children : List Progress} (hlen : plans.length = children.length) (state : RunState)
    (ex : Executor σ) (w : World σ) :
    let x := (Plan.node spec plans).watch ex (.node state children) w
    (children ≠ [] → x.1.head?.map (·.child) = some (state.resumesAt children.length)) ∧
      (x.2.1 = .running → x.2.2.1.state.cursor < children.length ∧
        x.1.getLast? = some ⟨x.2.2.1.state.cursor, .running⟩) := by
  have hle : state.resumesAt children.length ≤ children.length := state.resumesAt_le _
  have hsteps : (notingFrom 0 (steppers ex plans)).length = children.length := by
    rw [length_notingFrom, steppers_eq_map, List.length_map, hlen]
  have hround := NodeSpec.step_from_cursor ex.ignoringLog hkind hspec hsteps state (w.withLog [])
  simp only [drop_notingFrom, Nat.zero_add] at hround
  obtain ⟨visits, hvisits, hfirst, hlast⟩ := visits_sweep hkind
    ((steppers ex plans).drop (state.resumesAt children.length))
    (children.drop (state.resumesAt children.length)) (by simp [steppers_eq_map, hlen])
    (state.resumesAt children.length) (w.withLog [])
  simp only [World.withLog, List.nil_append] at hvisits
  simp only [watch, hround, Sweep.outcome, Progress.state, List.length_take_of_le hle]
  refine ⟨fun hne => ?_, fun hrunning => ?_⟩
  · have hlt : state.resumesAt children.length < children.length := by
      have := List.length_pos_iff.mpr hne
      unfold RunState.resumesAt
      split <;> omega
    have hrest : children.drop (state.resumesAt children.length) ≠ [] := by
      rw [Ne, List.drop_eq_nil_iff]
      omega
    exact hvisits ▸ hfirst hrest
  · obtain ⟨hpassed, hend⟩ := hlast hrunning
    rw [List.length_drop] at hpassed
    rw [if_pos hrunning]
    exact ⟨by omega, hvisits ▸ hend⟩

namespace Forest

open Relation

variable {f g : Forest} {k c : NodeKey}

def firstTicked (ex : Executor σ) (f : Forest) (k : NodeKey) (w : World σ) : Option NodeKey :=
  (f.watch ex k w).1.head?.bind fun v => (f.children k)[v.child]?

def lastTicked (ex : Executor σ) (f : Forest) (k : NodeKey) (w : World σ) : Option Visit :=
  (f.watch ex k w).1.getLast?

inductive Edit : Forest → Forest → Prop
  | add {f : Forest} (spec : NodeSpec) : Edit f (f.add spec).2
  | adopt {f : Forest} {p c : NodeKey} (hp : p < f.size) (hc : c < f.size) : Edit f (f.adopt p c).2
  | detach {f : Forest} (p c : NodeKey) : Edit f (f.detach p c).2
  | detachAll {f : Forest} (p : NodeKey) : Edit f (f.detachAll p)

theorem Edit.step (h : Edit f g) : Step f g := by
  cases h with
  | add spec => exact .add spec
  | adopt hp hc => exact .adopt hp hc
  | detach p c => exact .detach p c
  | detachAll p => exact .detachAll p

def self? (f : Forest) (k : NodeKey) : Option (NodeSpec × RunState) :=
  (f.node? k).map fun n => (n.spec, n.state)

theorem self?_of_node? {φ : NodeKey → Node → Node} (hmap : ∀ k, g.node? k = (f.node? k).map (φ k))
    (hsame : ∀ k n, (φ k n).spec = n.spec ∧ (φ k n).state = n.state) (k : NodeKey) :
    g.self? k = f.self? k := by
  rw [self?, hmap, Option.map_map]
  refine congrArg (Option.map · (f.node? k)) (funext fun n => ?_)
  exact Prod.ext (hsame k n).1 (hsame k n).2

/-- Edits leave alone what is written about the nodes that are there, and how far these are. -/
theorem Edit.self?_eq {self : NodeSpec × RunState} (hs : f.Sound) (h : Edit f g)
    (hself : f.self? k = some self) : g.self? k = some self := by
  rw [← hself]
  cases h with
  | add spec =>
    have hk : k ≠ f.size := by
      rintro rfl
      rw [self?, node?_eq_none_iff.mpr (Nat.le_refl _)] at hself
      exact absurd hself (by simp)
    rw [self?, node?_add, if_neg hk]
    rfl
  | @adopt p c hp hc =>
    rcases adopt_forest f p c with hsame | ⟨-, -, -, hlinked⟩
    · rw [hsame]
    · rw [hlinked]
      exact self?_of_node? (node?_release_link hs p c) (fun _ _ => ⟨rfl, rfl⟩) k
  | detach p c =>
    by_cases hc : c ∈ f.children p
    · exact self?_of_node? (node?_detach hc) (fun _ _ => ⟨rfl, rfl⟩) k
    · rw [detach_of_not_mem hc]
  | detachAll p => exact self?_of_node? (node?_detachAll f p) (fun _ _ => ⟨rfl, rfl⟩) k

/-- Edits elsewhere leave what is written about a node as it is. -/
theorem self?_of_edits {self : NodeSpec × RunState} (hs : f.Sound) (h : ReflTransGen Edit f g)
    (hself : f.self? k = some self) : g.Sound ∧ g.self? k = some self := by
  induction h with
  | refl => exact ⟨hs, hself⟩
  | tail _ hedit ih => exact ⟨step_sound hedit.step ih.1, hedit.self?_eq ih.1 ih.2⟩

/-- The subtree under a node, told by what is written about it and its state. -/
theorem Sound.holds_of_self? (hs : f.Sound) {state : RunState}
    (hself : f.self? k = some (spec, state)) :
    ∃ plans children, f.Holds k (.node spec plans) (.node state children) := by
  obtain ⟨n, hn, heq⟩ := Option.map_eq_some_iff.mp hself
  obtain ⟨plans, hplan, -⟩ := hs.exists_plan hn
  obtain ⟨children, hprogress, -⟩ := hs.exists_progress hn
  obtain ⟨rfl, rfl⟩ := Prod.ext_iff.mp heq
  exact ⟨plans, children, hs, hplan, hprogress⟩

theorem Holds.self?_eq {state : RunState} {children : List Progress}
    (h : f.Holds k (.node spec plans) (.node state children)) :
    f.self? k = some (spec, state) := by
  obtain ⟨n, hn, rfl, rfl⟩ := h.exists_node
  rw [self?, hn]
  rfl

def standsAt (f : Forest) (k : NodeKey) (i : ℕ) : Option NodeKey :=
  (f.children k)[if i < (f.children k).length then i else 0]?

/-- A child stands at its own index, and the first one also behind the last. -/
theorem Sound.standsAt_eq_some_iff (hs : f.Sound) (hc : c ∈ f.children k) (i : ℕ) :
    f.standsAt k i = some c ↔
      (f.children k).idxOf c = if i < (f.children k).length then i else 0 := by
  have hlt := List.idxOf_lt_length_of_mem hc
  have hat : (f.children k)[(f.children k).idxOf c]? = some c := List.getElem?_idxOf hc
  rw [standsAt, ← hat]
  refine ⟨fun heq => ?_, fun heq => by rw [heq]⟩
  exact ((List.getElem?_inj hlt (hs.nodup k)).mp heq.symm)

/-- A tick of a sequence or a selector goes first to the child that stands at the cursor. -/
theorem firstTicked_eq (hs : f.Sound) (hkind : kind.GoesRound stop done)
    (hspec : spec.behavior = kind.behavior) {state : RunState}
    (hself : f.self? k = some (spec, state)) (ex : Executor σ) (w : World σ) :
    firstTicked ex f k w = f.standsAt k state.cursor := by
  obtain ⟨plans, children, hholds⟩ := hs.holds_of_self? hself
  have hlen : plans.length = children.length := (Plan.fits_node_iff.mp hholds.fits).1
  have hchildren := hholds.length_children
  rw [firstTicked, hholds.watch_eq]
  have hvisits := (Plan.visits_watch hkind hspec hlen state ex w).1
  by_cases hnil : children = []
  · have hnone : f.children k = [] :=
      List.length_eq_zero_iff.mp (hchildren.trans (List.length_eq_zero_iff.mpr hnil))
    simp [standsAt, hnone]
  · obtain ⟨v, hv, hchild⟩ := Option.map_eq_some_iff.mp (hvisits hnil)
    simp only [hv, Option.bind_some, hchild, hchildren, standsAt, RunState.resumesAt]

/-- Whatever edits are made while a sequence or a selector waits for a child, its next tick goes
first to the child that stands at the index of that child by then, and to the first child if there
is none so far back. So the child that is waited for is resumed exactly if it is this one; it is, as
long as the children up to it are the ones they were. -/
theorem resumes_at_index (hf : f.Reachable) (hkind : kind.GoesRound stop done)
    (hp : f.plan? k = some (.node spec plans)) (hspec : spec.behavior = kind.behavior)
    {ex : Executor σ} {w : World σ} (hrunning : (f.watch ex k w).2.1 = .running) :
    ∃ i c, lastTicked ex f k w = some ⟨i, .running⟩ ∧ (f.children k)[i]? = some c ∧
      ∀ g, ReflTransGen Edit (f.watch ex k w).2.2.1 g → c ∈ g.children k →
        ∀ {τ : Type} (ex' : Executor τ) (w' : World τ),
          firstTicked ex' g k w' = g.standsAt k i ∧
            (firstTicked ex' g k w' = some c ↔
              (g.children k).idxOf c = if i < (g.children k).length then i else 0) ∧
            ((f.children k).take (i + 1) <+: g.children k → firstTicked ex' g k w' = some c) := by
  obtain ⟨a, hholds⟩ := Holds.exists_progress hf.sound hp
  obtain ⟨state, children⟩ := a
  have hlen : plans.length = children.length := (Plan.fits_node_iff.mp hholds.fits).1
  have hafter := hholds.watch ex w
  have hwatch := hholds.watch_eq ex w
  obtain ⟨-, hsuspended⟩ := Plan.visits_watch hkind hspec hlen state ex w
  generalize (Plan.node spec plans).watch ex (.node state children) w = x at *
  obtain ⟨visits, status, ⟨⟨latest, i, counter⟩, others⟩, world⟩ := x
  obtain ⟨hi, hlast⟩ : i < children.length ∧ visits.getLast? = some ⟨i, .running⟩ :=
    hsuspended (by rwa [hwatch] at hrunning)
  rw [← hholds.length_children] at hi
  have hc : (f.children k)[i]? = some (f.children k)[i] := List.getElem?_eq_getElem hi
  refine ⟨i, (f.children k)[i], by rw [lastTicked, hwatch]; exact hlast, hc, ?_⟩
  intro g hedits hmem τ ex' w'
  obtain ⟨hsound, hself⟩ := self?_of_edits hafter.sound hedits hafter.self?_eq
  have hfirst := firstTicked_eq hsound hkind hspec hself ex' w'
  refine ⟨hfirst, ?_, fun hprefix => ?_⟩
  · rw [hfirst]
    exact hsound.standsAt_eq_some_iff hmem i
  · have hstill : (g.children k)[i]? = some (f.children k)[i] := by
      obtain ⟨more, heq⟩ := hprefix
      have hshort : i < ((f.children k).take (i + 1)).length := by
        rw [List.length_take]
        omega
      rw [← heq, List.getElem?_append_left hshort, List.getElem?_take_of_lt (by omega), hc]
    obtain ⟨hlt, -⟩ := List.getElem?_eq_some_iff.mp hstill
    rw [hfirst, standsAt, if_pos hlt, hstill]

def errand : Forest :=
  grown [workerSpec .sequence "errand", workerSpec .script "go", workerSpec .script "buy",
    workerSpec .script "return"] [(0, 1), (0, 2), (0, 3)]

def errandPlan : Plan :=
  .node (workerSpec .sequence "errand")
    [.node (workerSpec .script "go") [], .node (workerSpec .script "buy") [],
      .node (workerSpec .script "return") []]

def errandWaiting : Forest :=
  (errand.watch .scripted 0 ⟨.empty, [.success, .running]⟩).2.2.1

/-- The errand is left at its second action. -/
theorem lastTicked_errand :
    lastTicked .scripted errand 0 ⟨.empty, [.success, .running]⟩ = some ⟨1, .running⟩ := by
  decide +kernel

/-- With a fourth action at its end the errand goes on with the second one. -/
theorem resumes_at_index_errand :
    errand.Reachable ∧ errand.plan? 0 = some errandPlan ∧
      (errand.watch .scripted 0 ⟨.empty, [.success, .running]⟩).2.1 = .running ∧
      ∃ g, ReflTransGen Edit errandWaiting g ∧ g.children 0 = [1, 2, 3, 4] ∧
        firstTicked .scripted g 0 ⟨.empty, []⟩ = some 2 := by
  have hreachable : errand.Reachable := grown_reachable (by decide)
  have hplan : errand.plan? 0 = some errandPlan := by rfl
  have hrunning : (errand.watch .scripted 0 ⟨.empty, [.success, .running]⟩).2.1 = .running := by
    decide +kernel
  have hedits : ReflTransGen Edit errandWaiting
      (((errandWaiting.add (workerSpec .script "rest")).2).adopt 0 4).2 :=
    (ReflTransGen.refl.tail (Edit.add _)).tail
      (Edit.adopt (by decide +kernel) (by decide +kernel))
  obtain ⟨i, c, hlast, hc, hnext⟩ := resumes_at_index hreachable .sequence hplan rfl hrunning
  obtain rfl : 1 = i :=
    congrArg Visit.child (Option.some.inj (lastTicked_errand.symm.trans hlast))
  have hchildren : errand.children 0 = [1, 2, 3] := by decide +kernel
  obtain rfl : 2 = c := by
    rw [hchildren] at hc
    exact Option.some.inj hc
  obtain ⟨-, -, hprefix⟩ := hnext _ hedits (by decide +kernel) .scripted ⟨.empty, []⟩
  exact ⟨hreachable, hplan, hrunning, _, hedits, by decide +kernel, hprefix (by decide +kernel)⟩

/-- Once the first action has been taken away, the second one is passed over although it has not
ended, and the errand succeeds. -/
theorem errand_passes_over_waiting :
    lastTicked .scripted errand 0 ⟨.empty, [.success, .running]⟩ = some ⟨1, .running⟩ ∧
      errand.children 0 = [1, 2, 3] ∧
      ∃ g, ReflTransGen Edit errandWaiting g ∧ g.children 0 = [2, 3] ∧
        firstTicked .scripted g 0 ⟨.empty, []⟩ = some 3 ∧
        (g.tick .scripted 0 ⟨.empty, []⟩).1 = .success := by
  have hedits : ReflTransGen Edit errandWaiting (errandWaiting.detach 0 1).2 :=
    ReflTransGen.refl.tail (Edit.detach 0 1)
  exact ⟨lastTicked_errand, by decide +kernel, _, hedits, by decide +kernel, by decide +kernel,
    by decide +kernel⟩

end Forest

end BehaviorTree
