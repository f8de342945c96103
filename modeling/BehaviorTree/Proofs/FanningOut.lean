import BehaviorTree.Proofs.FreshRuns
import BehaviorTree.Proofs.Independence

/-!
Fanning out. A parallel ticks all of its children on every tick, one after the other from the first
to the last, and each of them finds what the ones before it have left behind. Only then does it look
at what they have come to, and all that matters to it is how many have succeeded and how many have
failed. So the order of the results does not matter, and no child can do the parallel harm by doing
better.
-/
namespace BehaviorTree

variable {σ τ : Type} {steps passed : List (Stepper σ)} {rest before : List Progress}

/-- How good a result is. Whether a child is running or has not begun is the same to a parallel. -/
def Status.merit : Status → ℕ
  | failure => 0
  | running => 1
  | idle => 1
  | success => 2

def NodeView.verdict (view : NodeView) (successes failures : ℕ) : Status :=
  parallelStatus (minSuccess view) (minFailure view) successes failures

def NodeView.judge (view : NodeView) (results : List Status) : Status :=
  view.verdict (results.count .success) (results.count .failure)

/-- Only the config and the number of children matter to the verdict. -/
theorem NodeView.verdict_congr {view other : NodeView} (hconfig : view.config = other.config)
    (hcount : view.childCount = other.childCount) : view.verdict = other.verdict := by
  have hsuccess : minSuccess view = minSuccess other := by
    simp only [minSuccess, configInt?, hconfig, hcount]
  have hfailure : minFailure view = minFailure other := by
    simp only [minFailure, configInt?, hconfig]
  funext successes failures
  rw [verdict, verdict, hsuccess, hfailure]

theorem NodeView.verdict_ne_idle (view : NodeView) (successes failures : ℕ) :
    view.verdict successes failures ≠ .idle := by
  unfold verdict parallelStatus
  split_ifs <;> decide

/-- More successes and fewer failures make a verdict no worse. -/
theorem NodeView.merit_verdict_mono (view : NodeView) {s s' f f' : ℕ} (hs : s ≤ s') (hf : f' ≤ f) :
    (view.verdict s f).merit ≤ (view.verdict s' f').merit := by
  unfold verdict parallelStatus
  by_cases hsuccess : minSuccess view ≤ s
  · rw [if_pos hsuccess, if_pos (hsuccess.trans hs)]
  by_cases hfailure : minFailure view ≤ f
  · rw [if_neg hsuccess, if_pos hfailure]
    exact Nat.zero_le _
  · have hstill : ¬ minFailure view ≤ f' := fun h => hfailure (h.trans hf)
    rw [if_neg hsuccess, if_neg hfailure, if_neg hstill]
    split_ifs <;> decide

def NoWorse (results better : List Status) : Prop :=
  List.Forall₂ (fun r s => r.merit ≤ s.merit) results better

instance (results better : List Status) : Decidable (NoWorse results better) :=
  inferInstanceAs (Decidable (List.Forall₂ _ results better))

/-- Where no result is worse there are no fewer successes and no more failures. -/
theorem NoWorse.count {results better : List Status} (h : NoWorse results better) :
    results.count .success ≤ better.count .success ∧
      better.count .failure ≤ results.count .failure := by
  induction h with
  | nil => exact ⟨le_rfl, le_rfl⟩
  | @cons r s rs ss hrs _ ih =>
    obtain ⟨hsuccess, hfailure⟩ := ih
    simp only [List.count_cons]
    cases r <;> cases s <;> simp [Status.merit] at hrs ⊢ <;> omega

structure FanOut (σ : Type) where
  results : List Status
  children : List Progress
  world : World σ

def fanOut : List (Stepper σ) → List Progress → World σ → FanOut σ
  | step :: steps, a :: rest, w =>
    let (status, a, w) := step a w
    let r := fanOut steps rest w
    ⟨status :: r.results, a :: r.children, r.world⟩
  | [], children, w => ⟨[], children, w⟩
  | _ :: _, [], w => ⟨[], [], w⟩

theorem fanOut_cons (step : Stepper σ) (steps : List (Stepper σ)) (a : Progress)
    (rest : List Progress) (w : World σ) :
    fanOut (step :: steps) (a :: rest) w =
      let r := fanOut steps rest (step a w).2.2
      ⟨(step a w).1 :: r.results, (step a w).2.1 :: r.children, r.world⟩ := rfl

theorem length_fanOut (hlen : steps.length = rest.length) (w : World σ) :
    (fanOut steps rest w).results.length = rest.length ∧
      (fanOut steps rest w).children.length = rest.length := by
  induction steps generalizing rest w with
  | nil =>
    obtain rfl := List.length_eq_zero_iff.mp hlen.symm
    exact ⟨rfl, rfl⟩
  | cons step steps ih =>
    obtain _ | ⟨a, rest⟩ := rest
    · simp at hlen
    obtain ⟨hresults, hchildren⟩ := ih (Nat.succ.inj hlen) (step a w).2.2
    exact ⟨congrArg Nat.succ hresults, congrArg Nat.succ hchildren⟩

/-- A result that is counted on the way need not be counted with the later ones. -/
theorem tally_add_count (status result : Status) (tally : ℕ) (results : List Status) :
    (if result = status then tally + 1 else tally) + results.count status =
      tally + (result :: results).count status := by
  rw [List.count_cons]
  by_cases h : result = status
  · rw [if_pos h, if_pos (beq_iff_eq.mpr h)]
    omega
  · rw [if_neg h, if_neg (mt beq_iff_eq.mp h), Nat.add_zero]

/-- Fanning out goes on behind the children that have been ticked. -/
theorem run_fanOutFrom (ex : Executor σ) (spec : NodeSpec) (decide : ℕ → ℕ → Status)
    (passed steps : List (Stepper σ)) (before rest : List Progress)
    (hpassed : passed.length = before.length) (hlen : steps.length = rest.length)
    (successes failures cursor counter : ℕ) (w : World σ) :
    (fanOutFrom decide rest.length before.length successes failures).run ex spec (passed ++ steps)
        ⟨cursor, counter, before ++ rest, w⟩ =
      let r := fanOut steps rest w
      (decide (successes + r.results.count .success) (failures + r.results.count .failure),
        ⟨cursor, counter, before ++ r.children, r.world⟩) := by
  induction steps generalizing passed before rest successes failures w with
  | nil =>
    obtain rfl := List.length_eq_zero_iff.mp hlen.symm
    rfl
  | cons step steps ih =>
    obtain _ | ⟨a, rest⟩ := rest
    · simp at hlen
    have hstep : (passed ++ step :: steps)[before.length]? = some step := by simp [← hpassed]
    have hchild : (before ++ a :: rest)[before.length]? = some a := by simp
    have hset (b : Progress) : (before ++ a :: rest).set before.length b = before ++ b :: rest := by
      simp
    have hnext := ih (passed ++ [step]) (before ++ [(step a w).2.1]) rest (by simp [hpassed])
      (Nat.succ.inj hlen) (if (step a w).1 = .success then successes + 1 else successes)
      (if (step a w).1 = .failure then failures + 1 else failures) (step a w).2.2
    simp only [List.append_assoc, List.singleton_append, List.length_append,
      List.length_singleton] at hnext
    simp only [List.length_cons, fanOutFrom, Routine.run, Ongoing.tickChild, hstep, hchild, hset,
      hnext, fanOut_cons, tally_add_count]

/-- A parallel ticks all of its children and then judges by what they came to. -/
theorem NodeSpec.step_parallel (ex : Executor σ) {spec : NodeSpec}
    (hspec : spec.behavior = BuiltIn.parallel.behavior) {children : List Progress}
    (hlen : steps.length = children.length) (hne : children ≠ []) (state : RunState)
    (w : World σ) :
    spec.step ex steps (.node state children) w =
      let r := fanOut steps children w
      let status := (spec.view state children.length).judge r.results
      (status, .node ⟨status, state.cursor, state.counter⟩ r.children, r.world) := by
  have hroutine : spec.behavior.routine = BuiltIn.parallel.routine := by
    rw [hspec, BuiltIn.behavior]
  have hsome : (spec.view state children.length).childCount ≠ 0 :=
    fun h => hne (List.length_eq_zero_iff.mp h)
  have hrun := run_fanOutFrom ex spec (spec.view state children.length).verdict [] steps []
    children rfl hlen 0 0 state.cursor state.counter w
  simp only [List.nil_append, List.length_nil, Nat.zero_add] at hrun
  simp only [NodeSpec.step, hroutine, BuiltIn.routine, hlen, if_neg hsome]
  exact congrArg (fun x : Status × Ongoing σ =>
    (x.1, Progress.node ⟨x.1, x.2.cursor, x.2.counter⟩ x.2.children, x.2.world)) hrun

def visitsFrom (first : ℕ) (results : List Status) : List Visit :=
  (results.zipIdx first).map fun r => ⟨r.2, r.1⟩

theorem child_visitsFrom (first : ℕ) (results : List Status) :
    (visitsFrom first results).map (·.child) = List.range' first results.length := by
  rw [visitsFrom, List.map_map]
  exact List.zipIdx_map_snd first results

theorem result_visitsFrom (first : ℕ) (results : List Status) :
    (visitsFrom first results).map (·.result) = results := by
  rw [visitsFrom, List.map_map]
  exact List.zipIdx_map_fst first results

/-- Whoever watches sees every child ticked once, in the order of the children. -/
theorem fanOut_notingFrom (first : ℕ) (steps : List (Stepper σ)) (rest : List Progress)
    (w : World σ) (log : List Visit) :
    fanOut (notingFrom first steps) rest (w.withLog log) =
      let r := fanOut steps rest w
      ⟨r.results, r.children, r.world.withLog (log ++ visitsFrom first r.results)⟩ := by
  induction steps generalizing first rest w log with
  | nil => simp [notingFrom, fanOut, visitsFrom]
  | cons step steps ih =>
    cases rest with
    | nil => simp [notingFrom, fanOut, visitsFrom]
    | cons a rest =>
      have hstep : step.noting first a (w.withLog log) =
          ((step a w).1, (step a w).2.1,
            (step a w).2.2.withLog (log ++ [⟨first, (step a w).1⟩])) := rfl
      simp only [notingFrom, fanOut_cons, hstep, ih, visitsFrom, List.zipIdx_cons, List.map_cons,
        List.append_assoc, List.singleton_append]

/-- The visits of one tick of a parallel are one to each child, in their order. -/
theorem Plan.watch_parallel {spec : NodeSpec} {plans : List Plan} {children : List Progress}
    (hspec : spec.behavior = BuiltIn.parallel.behavior) (hlen : plans.length = children.length)
    (hne : children ≠ []) (ex : Executor σ) (state : RunState) (w : World σ) :
    ((Plan.node spec plans).watch ex (.node state children) w).1 =
      visitsFrom 0 (fanOut (steppers ex plans) children w).results := by
  have hsteps : (notingFrom 0 (steppers ex plans)).length = children.length := by
    rw [length_notingFrom, steppers_eq_map, List.length_map, hlen]
  simp only [watch, NodeSpec.step_parallel ex.ignoringLog hspec hsteps hne, fanOut_notingFrom]
  rfl

namespace Forest

variable {f g : Forest} {k c : NodeKey} {p : Plan} {a : Progress}

theorem ext_node? (h : ∀ k, f.node? k = g.node? k) : f = g := by
  obtain ⟨nodes⟩ := f
  obtain ⟨others⟩ := g
  exact congrArg Forest.mk (Array.ext_getElem? h)

theorem setState_comm {j : NodeKey} (h : j ≠ k) (f : Forest) (s t : RunState) :
    (f.setState j s).setState k t = (f.setState k t).setState j s := by
  refine ext_node? fun i => ?_
  simp only [setState, node?_update]
  by_cases hi : i = k
  · have hij : i ≠ j := fun hij => h (hij.symm.trans hi)
    simp only [if_pos hi, if_neg hij]
  · simp only [if_neg hi]

theorem foldl_store_setState (entries : List (NodeKey × Progress)) {state : RunState}
    (hsame : f.SameButStates g)
    (h : ∀ e ∈ entries, ∀ g, f.SameButStates g →
      (g.setState k state).store e.1 e.2 = (g.store e.1 e.2).setState k state) :
    entries.foldl (fun g e => g.store e.1 e.2) (g.setState k state) =
      (entries.foldl (fun g e => g.store e.1 e.2) g).setState k state := by
  induction entries generalizing g with
  | nil => rfl
  | cons e rest ih =>
    rw [List.foldl_cons, List.foldl_cons, h e List.mem_cons_self g hsame]
    exact ih (hsame.trans (store_sameButStates g e.1 e.2))
      fun d hd => h d (List.mem_cons_of_mem _ hd)

/-- Writing back a subtree does not care about a node outside of it. -/
theorem Sound.store_setState (hs : f.Sound) (hsame : f.SameButStates g) (hk : k ∉ f.subtree c)
    (a : Progress) (state : RunState) :
    (g.setState k state).store c a = (g.store c a).setState k state := by
  induction c using hs.induction_below generalizing g a with
  | step c ih =>
    obtain ⟨own, children⟩ := a
    have hck : c ≠ k := fun h => hk (h ▸ List.mem_cons_self)
    have hkeys : (g.setState k state).children c = g.children c :=
      (setState_sameButStates g k state).children c
    rw [store, store, hkeys, setState_comm hck.symm, storeAll_eq_foldl, storeAll_eq_foldl]
    refine foldl_store_setState _ (hsame.trans (setState_sameButStates g c own)) ?_
    intro e he g' hsame'
    rw [hsame.children] at he
    have hc := (List.of_mem_zip he).1
    exact ih e.1 hc hsame' (fun h => hk (hs.subtree_trans (hs.child_mem_subtree hc) h)) e.2

/-- Writing back a subtree is writing back its children, and then its root. -/
theorem Sound.store_node (hs : f.Sound) (k : NodeKey) (state : RunState)
    (children : List Progress) :
    f.store k (.node state children) =
      (((f.children k).zip children).foldl (fun g e => g.store e.1 e.2) f).setState k state := by
  rw [store, storeAll_eq_foldl]
  refine foldl_store_setState _ (SameButStates.refl f) fun e he g hsame => ?_
  have hout := hs.not_mem_subtree_child (List.of_mem_zip he).1
  exact hs.store_setState hsame hout e.2 state

def tickEach (ex : Executor σ) : List NodeKey → Forest → World σ → List Status × Forest × World σ
  | [], f, w => ([], f, w)
  | k :: rest, f, w =>
    let (status, f, w) := f.tick ex k w
    let (statuses, f, w) := tickEach ex rest f w
    (status :: statuses, f, w)

/-- Nodes that stand apart from each other can be ticked as if each had been taken out of the forest
before the first tick. -/
theorem Apart.tickEach {keys : List NodeKey} (hapart : f.Apart keys) (hs : f.Sound)
    {plans : List Plan} {children : List Progress} (hplans : keys.map f.plan? = plans.map some)
    (hchildren : keys.map f.progress? = children.map some) (ex : Executor σ) (w : World σ) :
    Forest.tickEach ex keys f w =
      let r := fanOut (Plan.steppers ex plans) children w
      (r.results, (keys.zip r.children).foldl (fun g e => g.store e.1 e.2) f, r.world) := by
  induction keys generalizing f plans children w with
  | nil =>
    obtain rfl : plans = [] := by simpa using hplans
    obtain rfl : children = [] := by simpa using hchildren
    rfl
  | cons c rest ih =>
    obtain _ | ⟨p, plans⟩ := plans
    · simp at hplans
    obtain _ | ⟨a, children⟩ := children
    · simp at hchildren
    obtain ⟨hp, hplans⟩ := List.cons.inj hplans
    obtain ⟨ha, hchildren⟩ := List.cons.inj hchildren
    have hholds : f.Holds c p a := ⟨hs, hp, ha⟩
    have htick := hholds.tick_eq ex w
    have hsame : f.SameButStates (f.store c (p.tick ex a w).2.1) := store_sameButStates _ _ _
    obtain ⟨hc, hnodup⟩ := List.nodup_cons.mp hapart.nodup
    have hrest : f.Apart rest :=
      ⟨hnodup, fun s hs t ht => hapart.disjoint s (List.mem_cons_of_mem _ hs) t
        (List.mem_cons_of_mem _ ht)⟩
    have hkept : ∀ d ∈ rest, (f.store c (p.tick ex a w).2.1).plan? d = f.plan? d ∧
        (f.store c (p.tick ex a w).2.1).progress? d = f.progress? d := by
      intro d hd
      have hcd : d ≠ c := fun h => hc (h ▸ hd)
      refine ⟨hs.plan?_congr hsame d, hs.progress?_congr hsame fun m hm => ?_⟩
      have hout := hapart.disjoint d (List.mem_cons_of_mem _ hd) c List.mem_cons_self hcd m hm
      exact hs.node?_store (SameButStates.refl f) hout _
    have hnext := ih (hrest.congr hsame) (hs.of_same_links hsame.children hsame.parent?)
      ((List.map_congr_left fun d hd => (hkept d hd).1).trans hplans)
      ((List.map_congr_left fun d hd => (hkept d hd).2).trans hchildren) (p.tick ex a w).2.2
    simp only [Forest.tickEach, htick, hnext, Plan.steppers, fanOut_cons, List.zip_cons_cons,
      List.foldl_cons]

theorem Sound.apart_children (hs : f.Sound) (k : NodeKey) : f.Apart (f.children k) where
  nodup := hs.nodup k
  disjoint _ hc _ hd hcd _ hm := hs.not_mem_subtree_of_siblings hc hd hcd hm

section

variable {spec : NodeSpec} {plans : List Plan} {state : RunState} {children : List Progress}

theorem Holds.map_children (h : f.Holds k (.node spec plans) (.node state children)) :
    (f.children k).map f.plan? = plans.map some ∧
      (f.children k).map f.progress? = children.map some := by
  obtain ⟨n, hn, -, -⟩ := h.exists_node
  obtain ⟨qs, hplan, hqs⟩ := h.sound.exists_plan hn
  obtain ⟨bs, hprogress, hbs⟩ := h.sound.exists_progress hn
  obtain ⟨-, rfl⟩ := Plan.node.inj (Option.some.inj (hplan.symm.trans h.plan))
  obtain ⟨-, rfl⟩ := Progress.node.inj (Option.some.inj (hprogress.symm.trans h.progress))
  exact ⟨hqs, hbs⟩

/-- Ticking the children in the forest comes to the same as ticking them taken out of it. -/
theorem Holds.tickEach_children (h : f.Holds k (.node spec plans) (.node state children))
    (ex : Executor σ) (w : World σ) :
    tickEach ex (f.children k) f w =
      let r := fanOut (Plan.steppers ex plans) children w
      (r.results, ((f.children k).zip r.children).foldl (fun g e => g.store e.1 e.2) f, r.world) :=
  (h.sound.apart_children k).tickEach h.sound h.map_children.1 h.map_children.2 ex w

/-- What a tick of a parallel does. It ticks every child once, in the order of the children; each of
them finds the forest and the world as the one before has left them. What they have come to decides
the status of the parallel, which is the only other thing that changes. -/
structure FansOut (ex : Executor σ) (f : Forest) (k : NodeKey) (n : Node) (w : World σ) : Prop where
  visited : (f.watch ex k w).1.map (·.child) = List.range (f.children k).length
  results : (f.watch ex k w).1.map (·.result) = (tickEach ex (f.children k) f w).1
  tick : f.tick ex k w =
    let (results, g, v) := tickEach ex (f.children k) f w
    let status := (n.spec.view n.state (f.children k).length).judge results
    (status, g.setState k ⟨status, n.state.cursor, n.state.counter⟩, v)
  decided : (f.tick ex k w).1 ≠ .idle

theorem Sound.fansOut (hs : f.Sound) {n : Node} (hn : f.node? k = some n)
    (hkind : n.spec.behavior = BuiltIn.parallel.behavior) (hne : f.children k ≠ [])
    (ex : Executor σ) (w : World σ) : FansOut ex f k n w := by
  obtain ⟨plans, hplan, -⟩ := hs.exists_plan hn
  obtain ⟨children, hprogress, -⟩ := hs.exists_progress hn
  have h : f.Holds k (.node n.spec plans) (.node n.state children) := ⟨hs, hplan, hprogress⟩
  have hlength : (f.children k).length = children.length := h.length_children
  have hplans : plans.length = children.length := h.length_plans.symm.trans hlength
  have hsome : children ≠ [] := by
    rwa [Ne, ← List.length_eq_zero_iff, ← hlength, List.length_eq_zero_iff]
  have hsteps : (Plan.steppers ex plans).length = children.length := by
    rw [Plan.steppers_eq_map, List.length_map, hplans]
  have hvisits : (f.watch ex k w).1 = visitsFrom 0 (tickEach ex (f.children k) f w).1 := by
    rw [h.watch_eq, h.tickEach_children]
    exact Plan.watch_parallel hkind hplans hsome ex n.state w
  have htick : f.tick ex k w =
      let (results, g, v) := tickEach ex (f.children k) f w
      let status := (n.spec.view n.state (f.children k).length).judge results
      (status, g.setState k ⟨status, n.state.cursor, n.state.counter⟩, v) := by
    rw [h.tick_eq, h.tickEach_children, Plan.tick,
      NodeSpec.step_parallel ex hkind hsteps hsome, hlength]
    simp only [hs.store_node]
  refine ⟨?_, ?_, htick, ?_⟩
  · rw [hvisits, child_visitsFrom, h.tickEach_children, (length_fanOut hsteps w).1, hlength,
      List.range_eq_range']
  · rw [hvisits, result_visitsFrom]
  · rw [htick]
    exact NodeView.verdict_ne_idle _ _ _

end

/-- A parallel with children ticks each of them once, in their order, whatever the others come to,
and each finds what the ones before it have left behind. Of two parallels with the same config and
as many children, with as many successes and failures among them, both come to the same; so it does
if their results are the same in another order. And where each child of the one does at least as
well as the child at its place of the other, the one comes to nothing worse. -/
theorem fans_out_and_counts (hs : f.Sound) {n : Node} (hn : f.node? k = some n)
    (hkind : n.spec.behavior = BuiltIn.parallel.behavior) (hne : f.children k ≠ [])
    (ex : Executor σ) (w : World σ) :
    FansOut ex f k n w ∧
      ∀ {τ : Type} {g : Forest} {j : NodeKey} {m : Node}, g.Sound → g.node? j = some m →
        m.spec.behavior = BuiltIn.parallel.behavior → m.spec.config = n.spec.config →
        (g.children j).length = (f.children k).length → ∀ (other : Executor τ) (v : World τ),
          let results := (tickEach ex (f.children k) f w).1
          let others := (tickEach other (g.children j) g v).1
          (others.count .success = results.count .success →
            others.count .failure = results.count .failure →
            (g.tick other j v).1 = (f.tick ex k w).1) ∧
          (others.Perm results → (g.tick other j v).1 = (f.tick ex k w).1) ∧
          (NoWorse results others →
            (f.tick ex k w).1.merit ≤ (g.tick other j v).1.merit) := by
  have hfans := hs.fansOut hn hkind hne ex w
  refine ⟨hfans, ?_⟩
  intro τ g j m hsound hm hparallel hconfig hcount other v
  have hsome : g.children j ≠ [] := by
    rwa [Ne, ← List.length_eq_zero_iff, hcount, List.length_eq_zero_iff]
  have hothers := hsound.fansOut hm hparallel hsome other v
  have hverdict : (m.spec.view m.state (g.children j).length).verdict =
      (n.spec.view n.state (f.children k).length).verdict :=
    NodeView.verdict_congr hconfig hcount
  have hstatus : (f.tick ex k w).1 =
      (n.spec.view n.state (f.children k).length).judge (tickEach ex (f.children k) f w).1 :=
    congrArg Prod.fst hfans.tick
  have hstatus' : (g.tick other j v).1 =
      (m.spec.view m.state (g.children j).length).judge (tickEach other (g.children j) g v).1 :=
    congrArg Prod.fst hothers.tick
  rw [NodeView.judge, hverdict] at hstatus'
  rw [NodeView.judge] at hstatus
  intro results others
  have hcounted : others.count .success = results.count .success →
      others.count .failure = results.count .failure →
      (g.tick other j v).1 = (f.tick ex k w).1 := by
    intro hsuccess hfailure
    rw [hstatus, hstatus', hsuccess, hfailure]
  refine ⟨hcounted, fun hperm => hcounted (hperm.count_eq _) (hperm.count_eq _), fun hbetter => ?_⟩
  obtain ⟨hsuccess, hfailure⟩ := hbetter.count
  rw [hstatus, hstatus']
  exact NodeView.merit_verdict_mono _ hsuccess hfailure

def lookouts : Forest :=
  grown [{ workerSpec .parallel "lookouts" with
      config := .ofList [("minSuccess", Json.int 1), ("minFailure", Json.int 2)] },
    workerSpec .script "left", workerSpec .script "right"] [(0, 1), (0, 2)]

/-- The first lookout goes on where it has failed, the second one finds what it was looking for. -/
theorem fans_out_and_counts_lookouts :
    lookouts.Sound ∧ lookouts.children 0 = [1, 2] ∧
      let before := lookouts.tick .scripted 0 ⟨.empty, [.failure, .running]⟩
      let after := lookouts.tick .scripted 0 ⟨.empty, [.running, .success]⟩
      before.1 = .running ∧ after.1 = .success ∧ before.1.merit ≤ after.1.merit := by
  have hs : lookouts.Sound := (grown_reachable (by decide)).sound
  have hbetter : NoWorse
      (tickEach .scripted (lookouts.children 0) lookouts ⟨.empty, [.failure, .running]⟩).1
      (tickEach .scripted (lookouts.children 0) lookouts ⟨.empty, [.running, .success]⟩).1 := by
    decide +kernel
  have hchildren : lookouts.children 0 = [1, 2] := by decide +kernel
  have hne : lookouts.children 0 ≠ [] := hchildren ▸ List.cons_ne_nil 1 [2]
  have hcompared := (fans_out_and_counts hs rfl rfl hne .scripted
    ⟨.empty, [.failure, .running]⟩).2 hs rfl rfl rfl rfl .scripted ⟨.empty, [.running, .success]⟩
  exact ⟨hs, hchildren, by decide +kernel, by decide +kernel, hcompared.2.2 hbetter⟩

end Forest

end BehaviorTree
