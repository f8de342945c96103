import BehaviorTree.Proofs.Independence

/-!
Copies. What stands below some nodes of a forest may have a copy in another forest, where every node
has a key of its own. As long as each node is in the run state of its copy, nobody can tell the two
forests apart by these nodes: a tick of one of them is a tick of its copy, and a reset likewise, and
afterwards the run states are the same again. It does not matter whether the subtrees overlap.
-/
namespace BehaviorTree

namespace Forest

variable {σ α : Type} {f f' g g' : Forest} {φ : NodeKey → NodeKey} {keys : List NodeKey}
  {j k : NodeKey}

def under (f : Forest) (keys : List NodeKey) : List NodeKey := keys.flatMap f.subtree

theorem mem_under (hk : k ∈ keys) : k ∈ f.under keys :=
  List.mem_flatMap.mpr ⟨k, hk, List.mem_cons_self⟩

theorem Sound.child_mem_under (hs : f.Sound) (hj : j ∈ f.under keys) {c : NodeKey}
    (hc : c ∈ f.children j) : c ∈ f.under keys := by
  obtain ⟨k, hk, hjk⟩ := List.mem_flatMap.mp hj
  exact List.mem_flatMap.mpr ⟨k, hk, hs.subtree_closed hjk hc⟩

theorem SameButStates.under (h : f.SameButStates f') (keys : List NodeKey) :
    f'.under keys = f.under keys := by
  rw [Forest.under, Forest.under, funext h.subtree]

theorem runState_setState (f : Forest) (k : NodeKey) (state : RunState) (j : NodeKey) :
    (f.setState k state).runState j =
      if j = k then ((f.node? k).map fun _ => state).getD .fresh else f.runState j := by
  rw [runState, setState, node?_update]
  by_cases hjk : j = k
  · subst hjk
    rw [if_pos rfl, if_pos rfl, Option.map_map]
    rfl
  · rw [if_neg hjk, if_neg hjk, runState]

/-- What stands below some nodes of a forest is there in another one too, under new keys. -/
structure Copied (f g : Forest) (φ : NodeKey → NodeKey) (keys : List NodeKey) : Prop where
  spec : ∀ j ∈ f.under keys, (g.node? (φ j)).map (·.spec) = (f.node? j).map (·.spec)
  children : ∀ j ∈ f.under keys, g.children (φ j) = (f.children j).map φ
  injective : ∀ i ∈ f.under keys, ∀ j ∈ f.under keys, φ i = φ j → i = j

/-- The forests are sound, and every node is in the run state of its copy. -/
structure Twin (f g : Forest) (φ : NodeKey → NodeKey) (keys : List NodeKey) : Prop
    extends Copied f g φ keys where
  sound : f.Sound
  copySound : g.Sound
  state : ∀ j ∈ f.under keys, g.runState (φ j) = f.runState j

namespace Copied

variable (h : f.Copied g φ keys)
include h

/-- Copies of a subtree remain copies while only run states change. -/
theorem congr (hf : f.SameButStates f') (hg : g.SameButStates g') : f'.Copied g' φ keys where
  spec j hj := by
    rw [hf.under] at hj
    rw [hg.spec?, hf.spec?, h.spec j hj]
  children j hj := by
    rw [hf.under] at hj
    rw [hg.children, hf.children, h.children j hj]
  injective := by
    rw [hf.under]
    exact h.injective

/-- A node is there if and only if its copy is. -/
theorem node?_cases (hj : j ∈ f.under keys) :
    f.node? j = none ∧ g.node? (φ j) = none ∨
      ∃ n m, f.node? j = some n ∧ g.node? (φ j) = some m ∧ m.spec = n.spec ∧
        m.children = n.children.map φ := by
  have hspec := h.spec j hj
  have hchildren := h.children j hj
  cases hn : f.node? j with
  | none =>
    rw [hn, Option.map_none, Option.map_eq_none_iff] at hspec
    exact .inl ⟨rfl, hspec⟩
  | some n =>
    rw [hn, Option.map_some, Option.map_eq_some_iff] at hspec
    obtain ⟨m, hm, hspec⟩ := hspec
    rw [children_eq hn, children_eq hm] at hchildren
    exact .inr ⟨n, m, rfl, hm, hspec, hchildren⟩

/-- Whatever is built alike of each node and its copy is built alike of whole subtrees. -/
theorem gather (hf : f.Sound) (hg : g.Sound) {build : Node → List α → α}
    (hbuild : ∀ j ∈ f.under keys, ∀ n m, f.node? j = some n → g.node? (φ j) = some m →
      build m = build n) (hj : j ∈ f.under keys) :
    g.gather build (φ j) = f.gather build j := by
  induction j using hf.induction_below with
  | step j ih =>
    rw [hg.gather_eq, hf.gather_eq]
    rcases h.node?_cases hj with ⟨hn, hm⟩ | ⟨n, m, hn, hm, -, hchildren⟩
    · rw [hn, hm]
      rfl
    · have hsame : n.children.filterMap (g.gather build ∘ φ) =
          n.children.filterMap (f.gather build) :=
        List.filterMap_congr fun c hc =>
          ih c (children_eq hn ▸ hc) (hf.child_mem_under hj (children_eq hn ▸ hc))
      rw [hn, hm, Option.map_some, Option.map_some, hchildren, List.filterMap_map, hsame,
        hbuild j hj n m hn hm]

theorem plan? (hf : f.Sound) (hg : g.Sound) (hj : j ∈ f.under keys) :
    g.plan? (φ j) = f.plan? j := by
  rw [plan?_eq_gather, plan?_eq_gather, h.gather hf hg (fun i hi n m hn hm => ?_) hj]
  have hspec : m.spec = n.spec := by
    have hsame := h.spec i hi
    rw [hn, hm] at hsame
    exact Option.some.inj hsame
  funext plans
  rw [buildPlan, buildPlan, hspec]

/-- Below a copied node stand the copies of the nodes below the original. -/
theorem subtree (hf : f.Sound) (hg : g.Sound) (hj : j ∈ f.under keys) :
    g.subtree (φ j) = (f.subtree j).map φ := by
  induction j using hf.induction_below with
  | step j ih =>
    have hbelow : (f.children j).flatMap (fun c => g.subtree (φ c)) =
        (f.children j).flatMap fun c => (f.subtree c).map φ :=
      List.flatMap_congr fun c hc => ih c hc (hf.child_mem_under hj hc)
    rw [Forest.subtree, Forest.subtree, hg.descendants_eq, hf.descendants_eq, h.children j hj,
      List.flatMap_map, List.map_cons, List.map_flatMap]
    exact congrArg _ hbelow

end Copied

namespace Twin

variable (h : f.Twin g φ keys)
include h

theorem progress? (hj : j ∈ f.under keys) : g.progress? (φ j) = f.progress? j := by
  rw [progress?_eq_gather, progress?_eq_gather,
    h.gather h.sound h.copySound (fun i hi n m hn hm => ?_) hj]
  have hstate := h.state i hi
  rw [runState, runState, hn, hm] at hstate
  funext children
  rw [buildProgress, buildProgress]
  exact congrArg (Progress.node · children) hstate

/-- The same write to a node and to its copy leaves them twins. -/
theorem setState (hk : k ∈ f.under keys) (state : RunState) :
    (f.setState k state).Twin (g.setState (φ k) state) φ keys := by
  have hf := setState_sameButStates f k state
  have hg := setState_sameButStates g (φ k) state
  refine ⟨h.congr hf hg, h.sound.of_same_links hf.children hf.parent?,
    h.copySound.of_same_links hg.children hg.parent?, fun j hj => ?_⟩
  rw [hf.under] at hj
  rw [runState_setState, runState_setState]
  by_cases hjk : j = k
  · rw [hjk, if_pos rfl, if_pos rfl]
    rcases h.node?_cases hk with ⟨hn, hm⟩ | ⟨n, m, hn, hm, -, -⟩
    · rw [hn, hm]
    · rw [hn, hm, Option.map_some, Option.map_some]
  · have hcopies : φ j ≠ φ k := fun heq => hjk (h.injective j hj k hk heq)
    rw [if_neg hjk, if_neg hcopies, h.state j hj]

end Twin

mutual

/-- A progress that is written back to a subtree is written back to its copy too. -/
theorem Twin.store {f g : Forest} (h : f.Twin g φ keys) {k : NodeKey} (hk : k ∈ f.under keys) :
    (a : Progress) → (f.store k a).Twin (g.store (φ k) a) φ keys
  | .node state children => by
    have hf := setState_sameButStates f k state
    have hbelow : ∀ c ∈ f.children k, c ∈ (f.setState k state).under keys := by
      intro c hc
      rw [hf.under]
      exact h.sound.child_mem_under hk hc
    -- links do not change on the way, so the children are the same in every later forest
    rw [Forest.store, Forest.store, h.children k hk]
    exact Twin.storeAll (h.setState hk state) hbelow children

/-- Storing the same progress on both sides leaves twins. -/
theorem Twin.storeAll {f g : Forest} (h : f.Twin g φ keys) {nodes : List NodeKey}
    (hnodes : ∀ k ∈ nodes, k ∈ f.under keys) :
    (children : List Progress) → (f.storeAll nodes children).Twin
      (g.storeAll (nodes.map φ) children) φ keys
  | [] => h
  | a :: rest =>
    match nodes with
    | [] => h
    | k :: later => by
      have hstored := Twin.store h (hnodes k List.mem_cons_self) a
      have hlater : ∀ j ∈ later, j ∈ (f.store k a).under keys := by
        intro j hj
        rw [(store_sameButStates f k a).under]
        exact hnodes j (List.mem_cons_of_mem k hj)
      exact Twin.storeAll hstored hlater rest

end

namespace Twin

variable (h : f.Twin g φ keys)
include h

/-- A tick of a node is a tick of its copy. -/
theorem tick (hk : k ∈ f.under keys) (ex : Executor σ) (w : World σ) :
    (g.tick ex (φ k) w).1 = (f.tick ex k w).1 ∧
      (f.tick ex k w).2.1.Twin (g.tick ex (φ k) w).2.1 φ keys ∧
      (g.tick ex (φ k) w).2.2 = (f.tick ex k w).2.2 := by
  simp only [Forest.tick, h.plan? h.sound h.copySound hk, h.progress? hk]
  split
  · next plan progress _ _ => exact ⟨rfl, h.store hk (plan.tick ex progress w).2.1, rfl⟩
  · exact ⟨rfl, h, rfl⟩

theorem setStates {nodes : List NodeKey} (hnodes : ∀ j ∈ nodes, j ∈ f.under keys)
    (state : RunState) :
    (nodes.foldl (fun f j => f.setState j state) f).Twin
      ((nodes.map φ).foldl (fun g j => g.setState j state) g) φ keys := by
  induction nodes generalizing f g with
  | nil => exact h
  | cons j rest ih =>
    refine ih (h.setState (hnodes j List.mem_cons_self) state) fun i hi => ?_
    rw [(setState_sameButStates f j state).under]
    exact hnodes i (List.mem_cons_of_mem j hi)

/-- A reset of a node is a reset of its copy. -/
theorem reset (hk : k ∈ f.under keys) : (f.reset k).Twin (g.reset (φ k)) φ keys := by
  have hbelow : ∀ j ∈ f.subtree k, j ∈ f.under keys := by
    intro j hj
    obtain ⟨top, htop, hktop⟩ := List.mem_flatMap.mp hk
    exact List.mem_flatMap.mpr ⟨top, htop, h.sound.subtree_trans hktop hj⟩
  rw [Forest.reset, Forest.reset, h.subtree h.sound h.copySound hk]
  exact h.setStates hbelow .fresh

end Twin

end Forest

namespace Tree

variable {α β : Type} {less : α → α → Bool} {less' : β → β → Bool} {ψ : α → β}

theorem settle_map {x : α} {xs : List α} (h : ∀ y ∈ xs, less' (ψ x) (ψ y) = less x y) :
    settle less' (ψ x) (xs.map ψ) = (settle less x xs).map ψ := by
  induction xs with
  | nil => rfl
  | cons y rest ih =>
    have hrest := ih fun z hz => h z (List.mem_cons_of_mem y hz)
    rw [List.map_cons, settle, settle, h y List.mem_cons_self, hrest]
    split <;> rfl

/-- Sorting commutes with a renaming that keeps the order. -/
theorem sortBy_map {xs : List α} (h : ∀ x ∈ xs, ∀ y ∈ xs, less' (ψ x) (ψ y) = less x y) :
    sortBy less' (xs.map ψ) = (sortBy less xs).map ψ := by
  have hfold : ∀ later sorted : List α, (∀ x ∈ later, x ∈ xs) → (∀ y ∈ sorted, y ∈ xs) →
      (later.map ψ).foldl (fun sorted x => settle less' x sorted) (sorted.map ψ) =
        (later.foldl (fun sorted x => settle less x sorted) sorted).map ψ := by
    intro later
    induction later with
    | nil => exact fun sorted _ _ => rfl
    | cons x rest ih =>
      intro sorted hlater hsorted
      have hx := hlater x List.mem_cons_self
      rw [List.map_cons, List.foldl_cons, List.foldl_cons,
        settle_map fun y hy => h x hx y (hsorted y hy)]
      refine ih _ (fun z hz => hlater z (List.mem_cons_of_mem x hz)) fun y hy => ?_
      rcases List.mem_cons.mp ((Engine.settle_perm less x sorted).mem_iff.mp hy) with rfl | hy
      · exact hx
      · exact hsorted y hy
  have hall := hfold xs [] (fun x hx => hx) fun y hy => absurd hy List.not_mem_nil
  rw [sortBy, sortBy, List.map_reverse, ← hall, List.map_nil]

/-- Nodes of the same specifications are start nodes in the same order. -/
theorem startNodes_map {f g : Forest} {φ : NodeKey → NodeKey} {t t' : Tree}
    (hnodes : t'.nodes = t.nodes.map φ)
    (hspec : ∀ k ∈ t.nodes, (g.node? (φ k)).map (·.spec) = (f.node? k).map (·.spec)) :
    t'.startNodes g = (t.startNodes f).map φ := by
  have hstart : ∀ k ∈ t.nodes, isStart g (φ k) = isStart f k := by
    intro k hk
    have h := congrArg (Option.any fun s : NodeSpec => s.typeName = startType) (hspec k hk)
    simp only [Option.any_map] at h
    exact h
  have hposition : ∀ k ∈ t.nodes, positionX g (φ k) = positionX f k := by
    intro k hk
    have h := congrArg (Option.map fun s : NodeSpec => s.position.x) (hspec k hk)
    simp only [Option.map_map] at h
    exact congrArg (Option.getD · .zero) h
  have hlisted : (t.nodes.map φ).filter (isStart g) = (t.nodes.filter (isStart f)).map φ := by
    rw [List.filter_map]
    exact congrArg _ (List.filter_congr hstart)
  rw [startNodes, hnodes, hlisted, startNodes]
  refine sortBy_map fun j hj k hk => ?_
  rw [isLeftOf, isLeftOf, hposition j (List.mem_filter.mp hj).1,
    hposition k (List.mem_filter.mp hk).1]

end Tree

end BehaviorTree
