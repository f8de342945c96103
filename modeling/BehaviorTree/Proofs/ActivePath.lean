import BehaviorTree.Proofs.Editing
import BehaviorTree.Proofs.Focus

/-!
The active path. While a tree without parallels is ticked and reset from its root, all that is left
over between ticks stands on one path from the root downwards, and the path follows the cursors.
-/
namespace BehaviorTree

open Relation

variable {f g : Forest} {k : NodeKey} {p : Plan} {a : Progress}

namespace Forest

def runState (f : Forest) (k : NodeKey) : RunState := ((f.node? k).map (·.state)).getD .fresh

def IsRunning (f : Forest) (k : NodeKey) : Prop := (f.runState k).status = .running

/-- The node has nothing left over for its next tick. -/
def IsClean (f : Forest) (k : NodeKey) : Prop :=
  (f.runState k).cursor = 0 ∧ (f.runState k).counter = 0

/-- A path from a node down to a leaf that goes on through the child at the cursor of each node. -/
inductive CursorPath (f : Forest) : NodeKey → List NodeKey → Prop
  | leaf {k : NodeKey} (h : f.children k = []) : CursorPath f k [k]
  | step {k c : NodeKey} {path : List NodeKey}
      (hc : (f.children k)[(f.runState k).cursor]? = some c) (rest : CursorPath f c path) :
      CursorPath f k (k :: path)

/-- All that is left over in a subtree stands on one path. -/
structure SinglePath (f : Forest) (k : NodeKey) : Prop where
  clean : ∀ n ∈ f.subtree k, ¬ f.IsRunning n → ∀ m ∈ f.subtree n, f.IsClean m
  one_running : ∀ n ∈ f.subtree k, ∀ c ∈ f.children n, ∀ d ∈ f.children n,
    f.IsRunning c → f.IsRunning d → c = d
  /-- A running sequence or selector has been suspended at the child at its cursor. -/
  suspended : ∀ n ∈ f.subtree k, ∀ node, f.node? n = some node → ∀ {kind stop done},
    BuiltIn.GoesRound kind stop done → node.spec.behavior = kind.behavior → f.IsRunning n →
    ∃ c, (f.children n)[(f.runState n).cursor]? = some c ∧ f.IsRunning c
  /-- The running nodes are the first ones of a path to a leaf. -/
  path : ∃ active rest, f.CursorPath k (active ++ rest) ∧
    (∀ m ∈ f.subtree k, f.IsRunning m ↔ m ∈ active) ∧
    ∀ m ∈ f.subtree k, ¬ f.IsClean m → m ∈ active

/-- One turn of the host of a subtree, with any executor. -/
inductive DriveStep (k : NodeKey) : Forest → Forest → Prop
  | tick {f : Forest} {σ : Type} (ex : Executor σ) (w : World σ) : DriveStep k f (f.tick ex k w).2.1
  | reset {f : Forest} : DriveStep k f (f.reset k)

def IsSerial (f : Forest) (k : NodeKey) : Prop :=
  ∀ n ∈ f.subtree k, ∃ node kind, f.node? n = some node ∧ kind ≠ .parallel ∧
    node.spec.behavior = BuiltIn.behavior kind

theorem runState_reset (f : Forest) (k j : NodeKey) :
    (f.reset k).runState j = if j ∈ f.subtree k then .fresh else f.runState j := by
  rw [runState, node?_reset, runState]
  cases f.node? j with
  | none => exact (ite_self _).symm
  | some n => rfl

namespace Holds

variable {spec : NodeSpec} {plans : List Plan} {state : RunState} {children : List Progress}

theorem exists_node (h : f.Holds k (.node spec plans) (.node state children)) :
    ∃ n, f.node? k = some n ∧ n.spec = spec ∧ n.state = state := by
  obtain ⟨n, hn⟩ := h.sound.exists_node_of_plan? h.plan
  obtain ⟨qs, hplan, -⟩ := h.sound.exists_plan hn
  obtain ⟨bs, hprogress, -⟩ := h.sound.exists_progress hn
  have hspec := Option.some.inj (hplan.symm.trans h.plan)
  have hstate := Option.some.inj (hprogress.symm.trans h.progress)
  exact ⟨n, hn, congrArg Plan.spec hspec, congrArg Progress.state hstate⟩

theorem runState (h : f.Holds k p a) : f.runState k = a.state := by
  obtain ⟨spec, plans⟩ := p
  obtain ⟨state, children⟩ := a
  obtain ⟨n, hn, -, rfl⟩ := h.exists_node
  rw [Forest.runState, hn]
  rfl

theorem length_children (h : f.Holds k (.node spec plans) (.node state children)) :
    (f.children k).length = children.length := by
  obtain ⟨n, hn, -, -⟩ := h.exists_node
  obtain ⟨bs, hprogress, hbs⟩ := h.sound.exists_progress hn
  have heq := congrArg Progress.children (Option.some.inj (hprogress.symm.trans h.progress))
  have hlen := congrArg List.length hbs
  simp only [List.length_map] at hlen
  exact hlen.trans (congrArg List.length heq)

theorem length_plans (h : f.Holds k (.node spec plans) a) :
    (f.children k).length = plans.length := by
  obtain ⟨state, children⟩ := a
  rw [h.length_children, (Plan.fits_node_iff.mp h.fits).1]
  rfl

/-- The child at an index holds the subtree at that index. -/
theorem child (h : f.Holds k (.node spec plans) (.node state children)) {i : ℕ} {c : NodeKey}
    (hc : (f.children k)[i]? = some c) :
    ∃ q b, plans[i]? = some q ∧ children[i]? = some b ∧ f.Holds c q b := by
  obtain ⟨n, hn, -, -⟩ := h.exists_node
  obtain ⟨qs, hplan, hqs⟩ := h.sound.exists_plan hn
  obtain ⟨bs, hprogress, hbs⟩ := h.sound.exists_progress hn
  have hplans := congrArg Plan.children (Option.some.inj (hplan.symm.trans h.plan))
  have hchildren := congrArg Progress.children (Option.some.inj (hprogress.symm.trans h.progress))
  simp only [Plan.children, Progress.children] at hplans hchildren
  subst hplans hchildren
  obtain ⟨q, hq, hcq⟩ := exists_getElem?_of_left hqs hc
  obtain ⟨b, hb, hcb⟩ := exists_getElem?_of_left hbs hc
  exact ⟨q, b, hq, hb, h.sound, hcq, hcb⟩

end Holds

structure Inherited (P : Plan → Progress → Prop) : Prop where
  child : ∀ {spec : NodeSpec} {plans : List Plan} {state : RunState} {children : List Progress},
    P (.node spec plans) (.node state children) →
    ∀ {i : ℕ} {q : Plan} {b : Progress}, plans[i]? = some q → children[i]? = some b → P q b

/-- A subtree is its root and the subtrees of the children. -/
theorem Sound.mem_subtree_iff (hs : f.Sound) {n : NodeKey} :
    n ∈ f.subtree k ↔ n = k ∨ ∃ c ∈ f.children k, n ∈ f.subtree c := by
  rw [subtree, List.mem_cons, hs.descendants_eq, List.mem_flatMap]
  rfl

theorem Holds.descend {P : Plan → Progress → Prop} (hP : Inherited P) (h : f.Holds k p a)
    (ha : P p a) : ∀ n ∈ f.subtree k, ∃ q b, f.Holds n q b ∧ P q b := by
  induction k using h.sound.induction_below generalizing p a with
  | step k ih =>
    intro n hn
    rcases h.sound.mem_subtree_iff.mp hn with rfl | ⟨c, hc, hn⟩
    · exact ⟨p, a, h, ha⟩
    · obtain ⟨spec, plans⟩ := p
      obtain ⟨state, children⟩ := a
      obtain ⟨i, hi⟩ := List.mem_iff_getElem?.mp hc
      obtain ⟨q, b, hq, hb, hchild⟩ := h.child hi
      exact ih c hc hchild (hP.child ha hq hb) n hn

theorem focused_inherited : Inherited Plan.Focused where
  child {_ _ state _} h {i _ _} hq hb := by
    by_cases hi : i = state.cursor
    · subst hi
      exact h.focusedAt.active hq hb
    · exact .settled (h.focusedAt.others hb hi)

theorem settled_inherited : Inherited fun _ a => a.Settled where
  child {_ _ _ _} h {_ _ b} _ hb := by
    cases h with
    | node _ _ _ hchildren => exact hchildren b (List.mem_of_getElem? hb)

/-- Below a node that has nothing left over there is nothing left over. -/
theorem Holds.clean_below (h : f.Holds k p a) (ha : a.Settled) :
    ∀ n ∈ f.subtree k, ¬ f.IsRunning n ∧ f.IsClean n := by
  intro n hn
  obtain ⟨q, b, hheld, hb⟩ := h.descend settled_inherited ha n hn
  rw [IsRunning, IsClean, hheld.runState]
  cases hb with
  | node hstatus hcursor hcounter _ => exact ⟨hstatus, hcursor, hcounter⟩

/-- In a focused subtree whose root is not running nothing is left over. -/
theorem Holds.settled (h : f.Holds k p a) (hp : p.Focused a) (hk : ¬ f.IsRunning k) : a.Settled :=
  hp.settled_of_not_running (by rwa [IsRunning, h.runState] at hk)

/-- Only the child at the cursor can have anything left over below. -/
theorem Holds.at_cursor (h : f.Holds k p a) (hp : p.Focused a) {c n : NodeKey}
    (hc : c ∈ f.children k) (hn : n ∈ f.subtree c) (hleft : f.IsRunning n ∨ ¬ f.IsClean n) :
    (f.children k)[(f.runState k).cursor]? = some c := by
  obtain ⟨spec, plans⟩ := p
  obtain ⟨state, children⟩ := a
  obtain ⟨i, hi⟩ := List.mem_iff_getElem?.mp hc
  obtain ⟨q, b, hq, hb, hchild⟩ := h.child hi
  by_cases hcursor : i = state.cursor
  · rw [h.runState]
    exact hcursor ▸ hi
  · have hsettled := hp.focusedAt.others hb hcursor
    obtain ⟨hrunning, hclean⟩ := hchild.clean_below hsettled n hn
    exact absurd hleft (not_or.mpr ⟨hrunning, not_not.mpr hclean⟩)

theorem CursorPath.mem_subtree (hs : f.Sound) {path : List NodeKey} (h : f.CursorPath k path) :
    ∀ n ∈ path, n ∈ f.subtree k := by
  induction h with
  | leaf _ =>
    intro n hn
    exact List.mem_singleton.mp hn ▸ List.mem_cons_self
  | step hc _ ih =>
    intro n hn
    rcases List.mem_cons.mp hn with rfl | hn
    · exact List.mem_cons_self
    · exact hs.mem_subtree_iff.mpr (Or.inr ⟨_, List.mem_of_getElem? hc, ih n hn⟩)

/-- From every node a path goes on through the cursors. What runs or has something left over below
the node stands on it, and what runs comes first. -/
theorem Holds.exists_path_below (h : f.Holds k p a) (hp : p.Focused a)
    (ih : ∀ c ∈ f.children k, ∃ active rest, f.CursorPath c (active ++ rest) ∧
      ∀ m ∈ f.subtree c, (f.IsRunning m ↔ m ∈ active) ∧ (¬ f.IsClean m → m ∈ active)) :
    ∃ active rest, f.CursorPath k (k :: (active ++ rest)) ∧
      ∀ c ∈ f.children k, ∀ m ∈ f.subtree c,
        (f.IsRunning m ↔ m ∈ active) ∧ (¬ f.IsClean m → m ∈ active) := by
  obtain ⟨spec, plans⟩ := p
  obtain ⟨state, children⟩ := a
  by_cases hnil : f.children k = []
  · exact ⟨[], [], .leaf hnil, fun c hc => by simp [hnil] at hc⟩
  have hlt : (f.runState k).cursor < (f.children k).length := by
    rw [h.runState]
    rcases hp.cursor with hzero | hlt
    · rw [Progress.state, hzero]
      exact List.length_pos_iff.mpr hnil
    · rwa [h.length_children]
  have hcursor := List.getElem?_eq_getElem hlt
  generalize (f.children k)[(f.runState k).cursor] = c at hcursor
  obtain ⟨active, rest, hpath, hbelow⟩ := ih c (List.mem_of_getElem? hcursor)
  refine ⟨active, rest, .step hcursor hpath, fun d hd m hm => ?_⟩
  by_cases hdc : d = c
  · exact hbelow m (hdc ▸ hm)
  · -- beside the child at the cursor there is nothing to find
    have hquiet : ¬ (f.IsRunning m ∨ ¬ f.IsClean m) := by
      intro hleft
      exact hdc (Option.some.inj ((h.at_cursor hp hd hm hleft).symm.trans hcursor))
    have hnot : m ∉ active := by
      intro hactive
      have hmc := hpath.mem_subtree h.sound m (List.mem_append_left rest hactive)
      exact h.sound.not_mem_subtree_of_siblings hd (List.mem_of_getElem? hcursor) hdc hm hmc
    obtain ⟨hrunning, hclean⟩ := not_or.mp hquiet
    exact ⟨iff_of_false hrunning hnot, fun hunclean => absurd hunclean hclean⟩

/-- The running nodes of a focused subtree are the beginning of a path of cursors, and whatever is
left over stands on it. -/
theorem Holds.exists_path (h : f.Holds k p a) (hp : p.Focused a) :
    ∃ active rest, f.CursorPath k (active ++ rest) ∧
      ∀ m ∈ f.subtree k, (f.IsRunning m ↔ m ∈ active) ∧ (¬ f.IsClean m → m ∈ active) := by
  induction k using h.sound.induction_below generalizing p a with
  | step k ih =>
    obtain ⟨active, rest, hpath, hbelow⟩ := h.exists_path_below hp fun c hc => by
      obtain ⟨q, b, hchild, hq⟩ := h.descend focused_inherited hp c (h.sound.child_mem_subtree hc)
      exact ih c hc hchild hq
    by_cases hk : f.IsRunning k
    · refine ⟨k :: active, rest, hpath, fun m hm => ?_⟩
      rcases h.sound.mem_subtree_iff.mp hm with rfl | ⟨c, hc, hm⟩
      · exact ⟨iff_of_true hk List.mem_cons_self, fun _ => List.mem_cons_self⟩
      · have hmk : m ≠ k := fun heq => h.sound.not_mem_subtree_child hc (heq ▸ hm)
        obtain ⟨hrunning, hclean⟩ := hbelow c hc m hm
        exact ⟨hrunning.trans (by simp [hmk]), fun h => List.mem_cons_of_mem k (hclean h)⟩
    · refine ⟨[], k :: (active ++ rest), hpath, fun m hm => ?_⟩
      obtain ⟨hrunning, hclean⟩ := h.clean_below (h.settled hp hk) m hm
      exact ⟨iff_of_false hrunning List.not_mem_nil, fun hunclean => absurd hclean hunclean⟩

/-- All that a focused subtree has left over stands on one path. -/
theorem Holds.singlePath (h : f.Holds k p a) (hp : p.Focused a) : f.SinglePath k where
  clean n hn hrunning m hm := by
    obtain ⟨q, b, hheld, hq⟩ := h.descend focused_inherited hp n hn
    exact (hheld.clean_below (hheld.settled hq hrunning) m hm).2
  one_running n hn c hc d hd hcrunning hdrunning := by
    obtain ⟨q, b, hheld, hq⟩ := h.descend focused_inherited hp n hn
    have hcursor := hheld.at_cursor hq hc List.mem_cons_self (Or.inl hcrunning)
    have hcursor' := hheld.at_cursor hq hd List.mem_cons_self (Or.inl hdrunning)
    exact Option.some.inj (hcursor.symm.trans hcursor')
  suspended n hn node hnode {kind stop done} hkind hspec hrunning := by
    obtain ⟨⟨spec, plans⟩, ⟨state, children⟩, hheld, hq⟩ := h.descend focused_inherited hp n hn
    obtain ⟨m, hm, rfl, -⟩ := hheld.exists_node
    obtain rfl := Option.some.inj (hnode.symm.trans hm)
    rw [IsRunning, hheld.runState] at hrunning
    obtain ⟨-, b, hb, hbrunning⟩ := hkind.keeps_iff.mp (hq.keeps_of_running hspec hrunning)
    have hlt : state.cursor < (f.children n).length :=
      hheld.length_children ▸ (List.getElem?_eq_some_iff.mp hb).1
    obtain ⟨q, b', -, hb', hchild⟩ := hheld.child (List.getElem?_eq_getElem hlt)
    obtain rfl := Option.some.inj (hb.symm.trans hb')
    refine ⟨_, by rw [hheld.runState]; exact List.getElem?_eq_getElem hlt, ?_⟩
    rwa [IsRunning, hchild.runState]
  path := by
    obtain ⟨active, rest, hpath, hall⟩ := h.exists_path hp
    exact ⟨active, rest, hpath, fun m hm => (hall m hm).1, fun m hm => (hall m hm).2⟩

/-- Built-in nodes without parallels make a serial plan. -/
theorem Sound.serial (hs : f.Sound) (h : f.IsSerial k) (hp : f.plan? k = some p) : p.Serial := by
  induction k using hs.induction_below generalizing p with
  | step k ih =>
    obtain ⟨n, kind, hn, hkind, hspec⟩ := h k List.mem_cons_self
    obtain ⟨plans, hplan, hplans⟩ := hs.exists_plan hn
    obtain rfl := Option.some.inj (hp.symm.trans hplan)
    refine .node hkind hspec fun q hq => ?_
    obtain ⟨i, hi⟩ := List.mem_iff_getElem?.mp hq
    obtain ⟨c, hc, hcq⟩ := exists_getElem? hplans hi
    have hmem := List.mem_of_getElem? hc
    exact ih c hmem (fun m hm => h m (hs.subtree_trans (hs.child_mem_subtree hmem) hm)) hcq

/-- What the host does with a subtree in one turn keeps it focused. -/
theorem DriveStep.focused (hp : p.Serial) (h : f.Holds k p a) (ha : p.Focused a)
    (step : DriveStep k f g) : ∃ b, g.Holds k p b ∧ p.Focused b := by
  cases step with
  | tick ex w => exact ⟨_, h.tick ex w, hp.keepsFocus ex w h.fits ha⟩
  | reset => exact ⟨_, h.reset, .settled p.settled_fresh⟩

/-- A subtree that has been reset once stays focused from then on. -/
theorem Holds.focused_of_driven (hp : p.Serial) (h : f.Holds k p a)
    (hdriven : ReflTransGen (DriveStep k) (f.reset k) g) : ∃ b, g.Holds k p b ∧ p.Focused b := by
  induction hdriven with
  | refl => exact ⟨_, h.reset, .settled p.settled_fresh⟩
  | tail _ step ih =>
    obtain ⟨b, hb, hfocused⟩ := ih
    exact step.focused hp hb hfocused

/-- However a tree without parallels is ticked and reset from the reset state on, all that is left
over between ticks stands on one path from the root downwards. -/
theorem singlePath_of_driven (hf : f.Reachable) (hserial : f.IsSerial k)
    (hdriven : ReflTransGen (DriveStep k) (f.reset k) g) : g.SinglePath k := by
  obtain ⟨n, -, hn, -⟩ := hserial k List.mem_cons_self
  obtain ⟨plans, hplan, -⟩ := hf.sound.exists_plan hn
  obtain ⟨a, hheld⟩ := Holds.exists_progress hf.sound hplan
  obtain ⟨b, hb, hfocused⟩ := hheld.focused_of_driven (hf.sound.serial hserial hplan) hdriven
  exact hb.singlePath hfocused

theorem patrol_serial : patrol.IsSerial 0 := by
  intro n hn
  have hsubtree : patrol.subtree 0 = [0, 1, 2] := by decide
  rw [hsubtree] at hn
  simp only [List.mem_cons, List.not_mem_nil, or_false] at hn
  rcases hn with rfl | rfl | rfl
  · exact ⟨_, .sequence, rfl, by decide, rfl⟩
  · exact ⟨_, .script, rfl, by decide, rfl⟩
  · exact ⟨_, .script, rfl, by decide, rfl⟩

def lookingPatrol : Forest :=
  ((patrol.reset 0).tick Executor.scripted 0 ⟨.empty, [.success, .running]⟩).2.1

/-- The patrol that is looking around goes on at its second action. -/
theorem singlePath_lookingPatrol :
    lookingPatrol.runState 2 = ⟨.running, 0, 1⟩ ∧ lookingPatrol.SinglePath 0 := by
  have hdriven : ReflTransGen (DriveStep 0) (patrol.reset 0) lookingPatrol := by
    unfold lookingPatrol
    exact ReflTransGen.single (DriveStep.tick Executor.scripted ⟨.empty, [.success, .running]⟩)
  exact ⟨by decide +kernel, singlePath_of_driven patrol_reachable patrol_serial hdriven⟩

end Forest

end BehaviorTree
