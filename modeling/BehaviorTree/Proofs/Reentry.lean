import BehaviorTree.Proofs.Annals
import BehaviorTree.Proofs.FanningOut
import BehaviorTree.Proofs.SharedNodes
import BehaviorTree.Proofs.Visits

/-!
Calls that never come back. In a forest of built-in nodes every tick, reset and walk ends without a
fault: no call comes to a node that is held, since nodes that are held stand above it, and calls are
nested no deeper than there are nodes. What it then comes to is what the tick of the subtree that
has been taken out comes to, so the two ways to tick a node are the same. A single tick may still
tick a child many times; a bounded repeater does so as often as its counter leaves open.
-/
namespace BehaviorTree

variable {σ : Type}

namespace Forest

variable {f g h : Forest} {k c : NodeKey} {depth : ℕ} {held : List NodeKey}

/-- A node can be taken hold of together with everything below it: calls may still be nested deep
enough, and none of these nodes is held. -/
structure Free (f : Forest) (depth : ℕ) (held : List NodeKey) (k : NodeKey) : Prop where
  lt_size : k < f.size
  room : f.size ≤ depth + f.depth k
  apart : ∀ u ∈ held, u ∉ f.subtree k

namespace Free

theorem not_held (hfree : f.Free depth held k) : k ∉ held := fun hk =>
  hfree.apart k hk List.mem_cons_self

theorem depth_pos (hfree : f.Free depth held k) (hs : f.Sound) : 0 < depth := by
  have hlt := hs.depth_lt_size hfree.lt_size
  have hroom := hfree.room
  omega

/-- While a node is held, its children can be taken hold of. -/
theorem child (hfree : f.Free (depth + 1) held k) (hs : f.Sound) (hc : c ∈ f.children k) :
    f.Free depth (k :: held) c where
  lt_size := hs.child_lt_size hc
  room := by
    have hdeep := hs.depth_child (hs.mem_children.mp hc)
    have hroom := hfree.room
    omega
  apart u hu := by
    rcases List.mem_cons.mp hu with rfl | hu
    · exact hs.not_mem_subtree_child hc
    · intro huc
      exact hfree.apart u hu (hs.subtree_trans (hs.child_mem_subtree hc) huc)

end Free

theorem SameButStates.foldl_reset (hsame : f.SameButStates g) (keys : List NodeKey) :
    (keys.flatMap f.subtree).foldl (fun g j => g.setState j .fresh) g = keys.foldl reset g := by
  induction keys generalizing g with
  | nil => rfl
  | cons c rest ih =>
    have hfirst : (f.subtree c).foldl (fun g j => g.setState j .fresh) g = g.reset c := by
      rw [reset, hsame.subtree]
    rw [List.flatMap_cons, List.foldl_append, hfirst, List.foldl_cons]
    exact ih (hsame.trans (reset_sameButStates g c))

/-- To reset a node is to reset its own state and then each of its children. -/
theorem Sound.reset_eq (hs : f.Sound) (k : NodeKey) :
    f.reset k = (f.children k).foldl reset (f.modifyState k fun _ => .fresh) := by
  calc f.reset k
    _ = (f.descendants k).foldl (fun g j => g.setState j .fresh) (f.setState k .fresh) := rfl
    _ = (f.children k).foldl reset (f.setState k .fresh) := by
      rw [hs.descendants_eq]
      exact (setState_sameButStates f k .fresh).foldl_reset (f.children k)

/-- A reset in place comes to its end and is the reset of the subtree. -/
theorem Sound.resetInPlace_eq (hs : f.Sound) (hfree : f.Free depth held k)
    (hsame : f.SameButStates g) : resetInPlace depth held k g = .ok (g.reset k) := by
  induction depth generalizing held k g with
  | zero => exact absurd (hfree.depth_pos hs) (Nat.lt_irrefl 0)
  | succ depth ih =>
    have hown := hsame.trans (g.modifyState_changedBelow k fun _ => .fresh).same
    rw [resetInPlace, if_neg hfree.not_held, (hs.congr hsame).reset_eq, hsame.children]
    refine foldlM_of_ok (P := f.SameButStates) (fun c hc b hb => ⟨?_, ?_⟩) hown
    · exact ih (hfree.child hs hc) hb
    · exact hb.trans (reset_sameButStates b c)

/-- A walk comes to its end and finds what is below. -/
theorem Sound.walkInPlace_eq (hs : f.Sound) (hk : k < f.size) (hroom : f.size ≤ depth + f.depth k)
    (found : List NodeKey) : f.walkInPlace depth k found = .ok (found ++ f.descendants k) := by
  induction depth generalizing k found with
  | zero =>
    have hlt := hs.depth_lt_size hk
    omega
  | succ depth ih =>
    have hstep : ∀ c ∈ f.children k, ∀ found, True →
        f.walkInPlace depth c (found ++ [c]) = .ok (found ++ c :: f.descendants c) ∧ True := by
      intro c hc found _
      have hdeep := hs.depth_child (hs.mem_children.mp hc)
      refine ⟨?_, trivial⟩
      rw [ih (hs.child_lt_size hc) (by omega), List.append_assoc, List.singleton_append]
    rw [walkInPlace, foldlM_of_ok hstep trivial, List.foldl_append_eq_append,
      hs.descendants_eq k, List.flatMap_def]

section Holds

variable {p : Plan} {a b : Progress} {q : Plan} {spec : NodeSpec} {plans : List Plan}
  {state : RunState} {children : List Progress}

theorem Holds.of_children (h : f.Holds k (.node spec plans) a) (hsame : f.SameButStates g)
    {n : Node} (hn : g.node? k = some n)
    (hchildren : (f.children k).map g.progress? = children.map some) :
    g.Holds k (.node spec plans) (.node n.state children) where
  sound := h.sound.congr hsame
  plan := (h.sound.plan?_congr hsame k).trans h.plan
  progress := by
    obtain ⟨bs, hprogress, hbs⟩ := (h.sound.congr hsame).exists_progress hn
    rw [hsame.children, hchildren] at hbs
    rw [hprogress, List.map_injective_iff.mpr (fun _ _ => Option.some.inj) hbs]

/-- A change below one child is seen at that child alone. -/
theorem Holds.set_child (h : f.Holds k (.node spec plans) (.node state children)) {i : ℕ}
    (hc : (f.children k)[i]? = some c) (hbelow : f.ChangedBelow c g) (hb : g.Holds c q b) :
    g.Holds k (.node spec plans) (.node state (children.set i b)) := by
  have hchild : c ∈ f.children k := List.mem_of_getElem? hc
  obtain ⟨n, hn, -, rfl⟩ := h.exists_node
  have hn' : g.node? k = some n := by
    rw [hbelow.kept k (h.sound.not_mem_subtree_child hchild), hn]
  refine h.of_children hbelow.same hn' ?_
  have hset : (f.children k).map g.progress? =
      ((f.children k).map f.progress?).set i (some b) := by
    refine List.ext_getElem? fun j => ?_
    rw [List.getElem?_set, List.getElem?_map, List.getElem?_map, List.length_map]
    split_ifs with hij hlt
    · rw [← hij, hc, Option.map_some, hb.progress]
    · exact absurd (List.getElem?_eq_some_iff.mp (hij ▸ hc)).1 (hij ▸ hlt)
    · -- The subtrees of the other children are apart from the one that has changed.
      refine Option.map_congr fun d hd => ?_
      have hdc : d ≠ c := (h.sound.ne_of_places hc hd hij).symm
      refine h.sound.progress?_congr hbelow.same fun j hj => hbelow.kept j ?_
      exact h.sound.not_mem_subtree_of_siblings (List.mem_of_getElem? hd) hchild hdc hj
  rw [hset, h.map_children.2, ← List.map_set]

theorem Holds.modifyState (h : f.Holds k (.node spec plans) (.node state children))
    (change : RunState → RunState) :
    (f.modifyState k change).Holds k (.node spec plans) (.node (change state) children) := by
  have hbelow := f.modifyState_changedBelow k change
  obtain ⟨n, hn, -, rfl⟩ := h.exists_node
  have hn' : (f.modifyState k change).node? k = some { n with state := change n.state } := by
    rw [node?_modifyState, if_pos rfl, hn, Option.map_some]
  refine h.of_children hbelow.same hn' ?_
  rw [← h.map_children.2]
  refine List.map_congr_left fun c hc => h.sound.progress?_congr hbelow.same fun j hj => ?_
  have hjk : j ≠ k := by
    rintro rfl
    exact h.sound.not_mem_subtree_child hc hj
  rw [node?_modifyState, if_neg hjk]

theorem node?_eq_of_bare? {j : NodeKey} (hbare : g.bare? j = f.bare? j)
    (hstate : g.runState j = f.runState j) : g.node? j = f.node? j := by
  unfold bare? at hbare
  unfold runState at hstate
  cases hf : f.node? j with
  | none =>
    rw [hf, Option.map_none] at hbare
    exact Option.map_eq_none_iff.mp hbare
  | some n =>
    obtain ⟨m, hm, hlinks⟩ := Option.map_eq_some_iff.mp (hf ▸ hbare)
    rw [hf, hm, Option.map_some, Option.map_some, Option.getD_some, Option.getD_some] at hstate
    obtain ⟨hspec, hlinks⟩ := Prod.mk.inj hlinks
    obtain ⟨hparent, hchildren⟩ := Prod.mk.inj hlinks
    cases m
    cases n
    obtain rfl := hspec
    obtain rfl := hparent
    obtain rfl := hchildren
    obtain rfl := hstate
    exact hm

/-- The subtree under a node tells the whole forest, if nothing else has changed. -/
theorem ChangedBelow.ext (hg : f.ChangedBelow k g) (hh : f.ChangedBelow k h) (hgk : g.Holds k p a)
    (hhk : h.Holds k p a) : g = h := by
  refine ext_node? fun j => ?_
  by_cases hj : j ∈ f.subtree k
  · have hchildren : ∀ i, g.children i = h.children i := fun i =>
      (hg.same.children i).trans (hh.same.children i).symm
    have hbare : g.bare? j = h.bare? j := (hg.same.bare? j).trans (hh.same.bare? j).symm
    exact node?_eq_of_bare? hbare (hhk.runState_congr hgk hchildren (hh.same.subtree k ▸ hj))
  · rw [hg.kept j hj, hh.kept j hj]

end Holds

end Forest

def Scene.tick (ex : Executor σ) (k : NodeKey) (s : Scene σ) : Status × Scene σ :=
  let (status, forest, world) := s.forest.tick ex k s.world
  (status, ⟨forest, world⟩)

/-- The calls for the children of a node come to what the ticks and resets of the children that
have been taken out come to. -/
def Calls.Faithful (calls : Calls σ) (ex : Executor σ) (f : Forest) (k : NodeKey) : Prop :=
  ∀ c ∈ f.children k, ∀ s : Scene σ, f.SameButStates s.forest →
    calls.tick c s = .ok (s.tick ex c) ∧ calls.reset c s.forest = .ok (s.forest.reset c)

section Perform

variable {ex : Executor σ} {spec : NodeSpec} {k c : NodeKey} {children : List NodeKey}
  {calls : Calls σ} {s : Scene σ} {i : ℕ}

theorem Routine.perform_tickChild {next : Status → Routine} {answer : Status × Scene σ}
    (hc : children[i]? = some c) (h : calls.tick c s = .ok answer) :
    (tickChild i next).perform ex spec k children calls s =
      (next answer.1).perform ex spec k children calls answer.2 := by
  simp only [perform, hc, h]
  rfl

theorem Routine.perform_resetChild {next : Routine} {g : Forest} (hc : children[i]? = some c)
    (h : calls.reset c s.forest = .ok g) :
    (resetChild i next).perform ex spec k children calls s =
      next.perform ex spec k children calls { s with forest := g } := by
  simp only [perform, hc, h]
  rfl

end Perform

/-- A node in the middle of its tick, in its forest and taken out of it. -/
structure Midway (f : Forest) (k : NodeKey) (p : Plan) (status : Status) (o : Ongoing σ)
    (s : Scene σ) : Prop where
  below : f.ChangedBelow k s.forest
  holds : s.forest.Holds k p (.node ⟨status, o.cursor, o.counter⟩ o.children)
  world : s.world = o.world

namespace Midway

variable {ex : Executor σ} {f : Forest} {k c : NodeKey} {spec : NodeSpec} {plans : List Plan}
  {status : Status} {o : Ongoing σ} {s : Scene σ} {i : ℕ}

theorem sound (hm : Midway f k (.node spec plans) status o s) : s.forest.Sound := hm.holds.sound

theorem tickChild (hm : Midway f k (.node spec plans) status o s) (ex : Executor σ)
    (hc : (f.children k)[i]? = some c) :
    (s.tick ex c).1 = (o.tickChild (Plan.steppers ex plans) i).1 ∧
      Midway f k (.node spec plans) status (o.tickChild (Plan.steppers ex plans) i).2
        (s.tick ex c).2 := by
  rw [← hm.below.same.children] at hc
  obtain ⟨q, b, hq, hb, hholds⟩ := hm.holds.child hc
  have hstep : (Plan.steppers ex plans)[i]? = some (q.tick ex) := by
    rw [Plan.steppers_eq_map, List.getElem?_map, hq, Option.map_some]
  have hbelow := hm.sound.tick_changedBelow ex c s.world
  have hafter := hholds.tick ex s.world
  have htick := hholds.tick_eq ex s.world
  rw [Ongoing.tickChild_self hstep hb, ← hm.world]
  refine ⟨congrArg Prod.fst htick, ?_, ?_, ?_⟩
  · exact hm.below.trans (.of_child hm.sound (List.mem_of_getElem? hc) hbelow)
  · exact hm.holds.set_child hc hbelow hafter
  · exact congrArg (·.2.2) htick

theorem resetChild (hm : Midway f k (.node spec plans) status o s)
    (hc : (f.children k)[i]? = some c) :
    Midway f k (.node spec plans) status (o.resetChild i) ⟨s.forest.reset c, s.world⟩ := by
  rw [← hm.below.same.children] at hc
  obtain ⟨q, b, hq, hb, hholds⟩ := hm.holds.child hc
  have hbelow : s.forest.ChangedBelow c (s.forest.reset c) :=
    ⟨Forest.reset_sameButStates _ c, fun j hj => Forest.node?_reset_of_not_mem hj⟩
  have hset : o.children.modify i Progress.reset = o.children.set i q.fresh := by
    rw [List.modify_eq_set_getElem?, hb, Option.map_eq_map, Option.map_some, Option.getD_some,
      Plan.reset_eq_fresh hholds.fits]
  refine ⟨?_, ?_, hm.world⟩
  · exact hm.below.trans (.of_child hm.sound (List.mem_of_getElem? hc) hbelow)
  · rw [Ongoing.resetChild, hset]
    exact hm.holds.set_child hc hbelow hholds.reset

/-- A change of its state leaves a node in the middle of its tick. -/
theorem modifyState (hm : Midway f k (.node spec plans) status o s)
    (change : RunState → RunState) (o' : Ongoing σ) {status' : Status}
    (hstate : change ⟨status, o.cursor, o.counter⟩ = ⟨status', o'.cursor, o'.counter⟩)
    (hchildren : o'.children = o.children) (hworld : o'.world = o.world) :
    Midway f k (.node spec plans) status' o' (s.modifyState k change) where
  below := hm.below.trans (s.forest.modifyState_changedBelow k change)
  holds := by
    have hafter := hm.holds.modifyState change
    rwa [hstate, ← hchildren] at hafter
  world := hm.world.trans hworld.symm

/-- A routine that reaches for children that are there is carried out in place as it is apart. -/
theorem perform {rep : Repertoire} (r : Routine) (hr : r.Within rep)
    (hreach : ∀ i, rep.reaches i → i < (f.children k).length) {calls : Calls σ}
    (hcalls : calls.Faithful ex f k) (hm : Midway f k (.node spec plans) status o s) :
    ∃ s', r.perform ex spec k (f.children k) calls s =
        .ok ((r.run ex spec (Plan.steppers ex plans) o).1, s') ∧
      Midway f k (.node spec plans) status (r.run ex spec (Plan.steppers ex plans) o).2 s' := by
  have hchild {i : ℕ} (hi : rep.reaches i) : ∃ c, (f.children k)[i]? = some c ∧
      c ∈ f.children k :=
    ⟨_, List.getElem?_eq_getElem (hreach i hi), List.getElem_mem _⟩
  induction r generalizing o s with
  | finish answer => exact ⟨s, rfl, hm⟩
  | tickChild i next ih =>
    obtain ⟨hi, hnext⟩ := hr
    obtain ⟨c, hc, hmem⟩ := hchild hi
    obtain ⟨hanswer, hafter⟩ := hm.tickChild ex hc
    rw [Routine.perform_tickChild hc (hcalls c hmem s hm.below.same).1, hanswer]
    exact ih _ (hnext _) hafter
  | resetChild i next ih =>
    obtain ⟨hi, hnext⟩ := hr
    obtain ⟨c, hc, hmem⟩ := hchild hi
    rw [Routine.perform_resetChild hc (hcalls c hmem s hm.below.same).2]
    exact ih hnext (hm.resetChild hc)
  | setCursor i next ih =>
    exact ih hr.2 (hm.modifyState _ { o with cursor := i } rfl rfl rfl)
  | setCounter count next ih =>
    exact ih hr (hm.modifyState _ { o with counter := count } rfl rfl rfl)
  | runCode ticks next ih =>
    have hran : Midway f k (.node spec plans) status
        { o with world := (spec.execute ex ticks o.world).2 }
        ⟨s.forest, (spec.execute ex ticks o.world).2⟩ := ⟨hm.below, hm.holds, rfl⟩
    rw [Routine.perform, hm.world]
    exact ih _ (hr.2 _) hran
  -- Nothing that is built in asks for the board by itself.
  | readBoard next ih => exact hr.elim
  | editBoard edit next ih => exact hr.elim

/-- When the routine has come to its end and the status is written, all is as after a tick that
takes the subtree out. -/
theorem finish {p : Plan} {a : Progress} {s' : Scene σ} {answer : Status}
    (hm : Midway s.forest k p status o s') (hholds : s.forest.Holds k p a)
    (hstep : p.tick ex a s.world =
      (answer, .node ⟨answer, o.cursor, o.counter⟩ o.children, o.world)) :
    answer = (s.tick ex k).1 ∧
      (s'.modifyState k fun state => { state with status := answer }) = (s.tick ex k).2 := by
  obtain ⟨spec, plans⟩ := p
  have htick := hholds.tick_eq ex s.world
  have hafter := hholds.tick ex s.world
  rw [hstep] at htick hafter
  have hdone := hm.modifyState (fun state => { state with status := answer }) o rfl rfl rfl
  have hbelow := hholds.sound.tick_changedBelow ex k s.world
  have hforest := hdone.below.ext hbelow hdone.holds hafter
  have hworld : (s'.modifyState k fun state => { state with status := answer }).world =
      (s.forest.tick ex k s.world).2.2 := hdone.world.trans (congrArg (·.2.2) htick).symm
  exact ⟨(congrArg Prod.fst htick).symm, congrArg₂ Scene.mk hforest hworld⟩

end Midway

namespace Scene

variable {ex : Executor σ} {f : Forest} {k : NodeKey} {depth : ℕ} {held : List NodeKey}
  {s : Scene σ}

/-- In a forest of built-in nodes, a node that can be taken hold of is ticked in place as it is
ticked when its subtree is taken out. -/
theorem tickInPlace_eq (hs : f.Sound) (hkinds : f.AllBuiltIn) (hfree : f.Free depth held k)
    (hsame : f.SameButStates s.forest) :
    s.tickInPlace ex depth held k = .ok (s.tick ex k) := by
  -- A child is one deeper in the forest than its parent, so the depth that is left covers it.
  induction depth generalizing held k s with
  | zero => exact absurd (hfree.depth_pos hs) (Nat.lt_irrefl 0)
  | succ depth ih =>
    have hsound : s.forest.Sound := hs.congr hsame
    obtain ⟨n, hn⟩ := Forest.exists_node (hfree.lt_size.trans_eq hsame.size.symm)
    obtain ⟨plans, hplan, -⟩ := hsound.exists_plan hn
    obtain ⟨children, hprogress, -⟩ := hsound.exists_progress hn
    have hholds : s.forest.Holds k (.node n.spec plans) (.node n.state children) :=
      ⟨hsound, hplan, hprogress⟩
    have hcalls : (calls ex depth (k :: held)).Faithful ex s.forest k := by
      intro c hc t ht
      have hchild := hfree.child hs (hsame.children k ▸ hc)
      exact ⟨ih hchild (hsame.trans ht), hs.resetInPlace_eq hchild (hsame.trans ht)⟩
    have hbegun : Midway s.forest k (.node n.spec plans) n.state.status
        ⟨n.state.cursor, n.state.counter, children, s.world⟩ s := ⟨.refl _ k, hholds, rfl⟩
    obtain ⟨kind, hkind⟩ := (hkinds.congr hsame) k n hn
    have hkeys : s.forest.children k = n.children := Forest.children_eq hn
    have hlen : n.children.length = plans.length := hkeys ▸ hholds.length_plans
    have hwithin := kind.routine_within (n.spec.view n.state n.children.length)
    obtain ⟨s', hrun, hend⟩ := hbegun.perform _ hwithin (fun i hi => hkeys ▸ hi) hcalls
    have hstep : (Plan.node n.spec plans).tick ex (.node n.state children) s.world =
        let x := (kind.routine (n.spec.view n.state n.children.length)).run ex n.spec
          (Plan.steppers ex plans) ⟨n.state.cursor, n.state.counter, children, s.world⟩
        (x.1, .node ⟨x.1, x.2.cursor, x.2.counter⟩ x.2.children, x.2.world) := by
      rw [Plan.tick, NodeSpec.step, hkind, Plan.steppers_eq_map, List.length_map, ← hlen]
      rfl
    obtain ⟨hstatus, hscene⟩ := hend.finish hholds hstep
    rw [hkeys] at hrun
    rw [tickInPlace_of_node hn hfree.not_held, hkind]
    show (Routine.perform ex n.spec k n.children _ (kind.routine _) s >>= _) = _
    rw [hrun]
    exact congrArg Except.ok (Prod.ext hstatus hscene)

/-- In a forest that cannot be reached, a node that is its own child comes back to itself. -/
example :
    let ring : Forest := ⟨#[⟨Forest.workerSpec .start "ring", some 0, [0], .fresh⟩]⟩
    (tickInPlace .null 2 [] 0 ⟨ring, ⟨.empty, ()⟩⟩).map Prod.fst = .error (.held 0) := by
  decide +kernel

end Scene

theorem repeatFrom_atMost (use : Use) {n : ℕ} (left done : ℕ) (h : left ≤ n) :
    (repeatFrom left done).AtMost use n := by
  induction left generalizing n done with
  | zero => trivial
  | succ left ih =>
    have hspent : left ≤ if use = .child 0 then n - 1 else n := by
      split_ifs <;> omega
    refine ⟨fun _ => by omega, fun status => ?_⟩
    dsimp only
    by_cases hrunning : status = .running
    · rw [if_pos hrunning]
      trivial
    rw [if_neg hrunning]
    show Routine.AtMost use _ (if status = .failure then _ else _)
    by_cases hfailure : status = .failure
    · rw [if_pos hfailure]
      trivial
    · rw [if_neg hfailure]
      exact ih (done + 1) hspent

/-- A tick of a bounded repeater ticks its child as often at most as it is still to be repeated,
whatever the child answers. -/
theorem NodeSpec.StopsAfter.atMost {spec : NodeSpec} {n : ℕ} (h : spec.StopsAfter n)
    (state : RunState) (childCount : ℕ) (use : Use) :
    (spec.behavior.routine (spec.view state childCount)).AtMost use (n - state.counter) := by
  cases childCount with
  | zero =>
    rw [h.behavior]
    trivial
  | succ count =>
    rw [h.behavior, routine_repeater, h.bounded, h.repetitions]
    exact repeatFrom_atMost use _ _ le_rfl

namespace Forest

open Event

variable {f : Forest} {k : NodeKey} {n : Node} {count : ℕ}

/-- Before the first call no node is held. -/
theorem free_of_node? (hn : f.node? k = some n) {depth : ℕ} (h : f.size ≤ depth) :
    f.Free depth [] k where
  lt_size := lt_size_of_node? hn
  room := by omega
  apart u hu := by cases hu

/-- A child of a bounded repeater is ticked as often at most as it is still to be repeated. -/
theorem Sound.ticksOf_repeated (hs : f.Sound) (hn : f.node? k = some n)
    (hspec : n.spec.StopsAfter count) {c : NodeKey} (hc : c ∈ f.children k) (ex : Executor σ)
    (w : World (σ × Chronicle)) :
    (f.chronicle ex k w).2.tally (begins c) ≤
      w.tally (begins c) + (count - n.state.counter) := by
  obtain ⟨plans, hplan, -⟩ := hs.exists_plan hn
  obtain ⟨children, hprogress, -⟩ := hs.exists_progress hn
  obtain ⟨i, hi⟩ := List.mem_iff_getElem?.mp hc
  have hholds : f.Holds k (.node n.spec plans) (.node n.state children) := ⟨hs, hplan, hprogress⟩
  have hmost (childCount : ℕ) := hspec.atMost n.state childCount (.child i)
  rw [hholds.chronicle_eq]
  exact hs.tally_parent (about_begins c) hi List.mem_cons_self
    (fun q hq b v => (hs.ticksOf_self hq b v).le) hplan (.node n.state children) hmost w

/-- Calls to a node come to their end, nested no deeper than there are nodes. They come to what the
calls that take the subtree out come to. -/
structure Ends (f : Forest) (k : NodeKey) : Prop where
  tick : ∀ {σ : Type} (ex : Executor σ) (w : World σ) depth, f.size ≤ depth →
    Scene.tickInPlace ex depth [] k ⟨f, w⟩ = .ok (Scene.tick ex k ⟨f, w⟩)
  reset : ∀ depth, f.size ≤ depth → resetInPlace depth [] k f = .ok (f.reset k)
  walk : ∀ depth, f.size ≤ depth → f.walkInPlace depth k [] = .ok (f.descendants k)
  /-- One tick of a bounded repeater ticks its child as often at most as its counter leaves open,
  also when the tick begins in the middle of another one and finds other run states. -/
  repeats : ∀ g n count, f.SameButStates g → g.node? k = some n → n.spec.StopsAfter count →
    ∀ c ∈ f.children k, ∀ {σ : Type} (ex : Executor σ) (w : World (σ × Chronicle)),
      (g.chronicle ex k w).2.tally (begins c) ≤ w.tally (begins c) + (count - n.state.counter)

/-- Calls to any node of a forest of built-in nodes come to their end. -/
theorem Reachable.ends (hf : f.Reachable) (hkinds : f.AllBuiltIn) (hn : f.node? k = some n) :
    f.Ends k where
  tick ex w depth hdepth :=
    Scene.tickInPlace_eq hf.sound hkinds (free_of_node? hn hdepth) (.refl f)
  reset depth hdepth := hf.sound.resetInPlace_eq (free_of_node? hn hdepth) (.refl f)
  walk depth hdepth := hf.sound.walkInPlace_eq (lt_size_of_node? hn) (by omega) []
  repeats _ _ _ hsame hn hspec _ hc _ ex w :=
    (hf.sound.congr hsame).ticksOf_repeated hn hspec (hsame.children k ▸ hc) ex w

theorem rounds_allBuiltIn : rounds.AllBuiltIn := by
  intro m node hnode
  match m with
  | 0 => exact ⟨.sequence, Option.some.inj hnode ▸ rfl⟩
  | 1 => exact ⟨.repeater, Option.some.inj hnode ▸ rfl⟩
  | 2 | 3 => exact ⟨.script, Option.some.inj hnode ▸ rfl⟩
  | m + 4 =>
    have hnone : rounds.node? (m + 4) = none := node?_eq_none_iff.mpr (Nat.le_add_left 4 m)
    rw [hnone] at hnode
    cases hnode

/-- The repeated action is ticked three times in one tick, and no more often than that. -/
theorem ends_rounds :
    rounds.Reachable ∧ rounds.AllBuiltIn ∧ rounds.Ends 1 ∧
      (rounds.chronicle .scripted 1 ⟨.empty, ([.success, .success, .running], [])⟩).2.tally
        (begins 2) = 3 :=
  ⟨rounds_reachable, rounds_allBuiltIn, rounds_reachable.ends rounds_allBuiltIn rfl,
    by decide +kernel⟩

end Forest

end BehaviorTree
