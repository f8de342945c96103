import BehaviorTree.Proofs.Links
import BehaviorTree.Proofs.Lockstep

/-!
Subtrees of a forest. To tick a node, the subtree under it is taken out of the forest as a plan and
a progress, and the new progress is written back. In a sound forest nothing is lost on the way: the
plan stays what it was, what was written is read again, and other nodes are not touched. So a tick
or a reset of a node is the tick or the reset of its subtree.
-/
namespace BehaviorTree.Forest

open Relation

variable {σ : Type} {f g : Forest} {k : NodeKey} {p : Plan} {a b : Progress}

theorem map_some_filterMap {α β : Type} {φ : α → Option β} {xs : List α}
    (h : ∀ x ∈ xs, (φ x).isSome = true) : (xs.filterMap φ).map some = xs.map φ := by
  induction xs with
  | nil => rfl
  | cons x rest ih =>
    obtain ⟨y, hy⟩ := Option.isSome_iff_exists.mp (h x List.mem_cons_self)
    rw [List.filterMap_cons, hy, List.map_cons, List.map_cons, hy,
      ih fun z hz => h z (List.mem_cons_of_mem _ hz)]

theorem filterMap_of_map_eq {α β : Type} {φ : α → Option β} {xs : List α} {ys : List β}
    (h : xs.map φ = ys.map some) : xs.filterMap φ = ys := by
  calc xs.filterMap φ
    _ = (xs.map φ).filterMap id := by rw [List.filterMap_map, Function.id_comp]
    _ = ys := by rw [h, List.filterMap_map, Function.id_comp, List.filterMap_some]

theorem exists_getElem? {α β : Type} {φ : α → Option β} {xs : List α} {ys : List β}
    (h : xs.map φ = ys.map some) {i : ℕ} {y : β} (hy : ys[i]? = some y) :
    ∃ x, xs[i]? = some x ∧ φ x = some y := by
  have hi : (xs.map φ)[i]? = some (some y) := by rw [h, List.getElem?_map, hy, Option.map_some]
  rw [List.getElem?_map] at hi
  exact Option.map_eq_some_iff.mp hi

theorem exists_getElem?_of_left {α β : Type} {φ : α → Option β} {xs : List α} {ys : List β}
    (h : xs.map φ = ys.map some) {i : ℕ} {x : α} (hx : xs[i]? = some x) :
    ∃ y, ys[i]? = some y ∧ φ x = some y := by
  have hi : (ys.map some)[i]? = some (φ x) := by rw [← h, List.getElem?_map, hx, Option.map_some]
  rw [List.getElem?_map] at hi
  obtain ⟨y, hy, hxy⟩ := Option.map_eq_some_iff.mp hi
  exact ⟨y, hy, hxy.symm⟩

theorem subtree_congr (hsize : g.size = f.size) (hchildren : ∀ j, g.children j = f.children j)
    (k : NodeKey) : g.subtree k = f.subtree k := by
  have hbelow : ∀ fuel k, g.below fuel k = f.below fuel k := by
    intro fuel
    induction fuel with
    | zero => exact fun _ => rfl
    | succ n ih => exact fun k => by rw [below, below, hchildren, funext ih]
  rw [Forest.subtree, Forest.subtree, descendants, descendants, hbelow, hsize]

namespace SameButStates

theorem exists_node (hsame : f.SameButStates g) {n : Node} (hn : f.node? k = some n) :
    ∃ m, g.node? k = some m :=
  Forest.exists_node ((lt_size_of_node? hn).trans_eq hsame.size.symm)

theorem subtree (hsame : f.SameButStates g) (k : NodeKey) : g.subtree k = f.subtree k :=
  subtree_congr hsame.size hsame.children k

end SameButStates

theorem storeAll_eq_foldl (f : Forest) (keys : List NodeKey) (children : List Progress) :
    f.storeAll keys children = (keys.zip children).foldl (fun g e => g.store e.1 e.2) f := by
  induction children generalizing f keys with
  | nil => rw [storeAll, List.zip_nil_right, List.foldl_nil]
  | cons a rest ih =>
    cases keys with
    | nil => rfl
    | cons k keys => rw [storeAll, ih, List.zip_cons_cons, List.foldl_cons]

theorem foldl_store_sameButStates (f : Forest) (entries : List (NodeKey × Progress)) :
    f.SameButStates (entries.foldl (fun g e => g.store e.1 e.2) f) := by
  induction entries generalizing f with
  | nil => exact SameButStates.refl f
  | cons e rest ih => exact (store_sameButStates f e.1 e.2).trans (ih _)

theorem node?_foldl_store (entries : List (NodeKey × Progress)) {j : NodeKey}
    (hsame : f.SameButStates g)
    (h : ∀ e ∈ entries, ∀ g, f.SameButStates g → (g.store e.1 e.2).node? j = g.node? j) :
    (entries.foldl (fun g e => g.store e.1 e.2) g).node? j = g.node? j := by
  induction entries generalizing g with
  | nil => rfl
  | cons e rest ih =>
    rw [List.foldl_cons, ih (hsame.trans (store_sameButStates g e.1 e.2))
      fun d hd => h d (List.mem_cons_of_mem _ hd), h e List.mem_cons_self g hsame]

def gatherTo {α : Type} (f : Forest) (build : Node → List α → α) : (fuel : ℕ) → NodeKey → Option α
  | 0, _ => none
  | fuel + 1, k =>
    (f.node? k).map fun n => build n (n.children.filterMap (f.gatherTo build fuel))

def gather {α : Type} (f : Forest) (build : Node → List α → α) (k : NodeKey) : Option α :=
  f.gatherTo build f.size k

def buildPlan (n : Node) (plans : List Plan) : Plan := .node n.spec plans

def buildProgress (n : Node) (children : List Progress) : Progress := .node n.state children

/-- The plan of a subtree is gathered from the leaves up. -/
theorem plan?_eq_gather (f : Forest) (k : NodeKey) : f.plan? k = f.gather buildPlan k := by
  have h : ∀ fuel k, f.planTo fuel k = f.gatherTo buildPlan fuel k := by
    intro fuel
    induction fuel with
    | zero => exact fun _ => rfl
    | succ n ih => exact fun k => by rw [planTo, gatherTo, funext ih]; rfl
  exact h f.size k

theorem progress?_eq_gather (f : Forest) (k : NodeKey) :
    f.progress? k = f.gather buildProgress k := by
  have h : ∀ fuel k, f.progressTo fuel k = f.gatherTo buildProgress fuel k := by
    intro fuel
    induction fuel with
    | zero => exact fun _ => rfl
    | succ n ih => exact fun k => by rw [progressTo, gatherTo, funext ih]; rfl
  exact h f.size k

namespace Sound

variable (hs : f.Sound) {α β : Type}
include hs

theorem gatherTo_succ (build : Node → List α → α) {fuel : ℕ} {k : NodeKey}
    (h : f.size ≤ fuel + f.depth k) :
    f.gatherTo build (fuel + 1) k = f.gatherTo build fuel k := by
  induction fuel generalizing k with
  | zero =>
    have hk : f.size ≤ k := by
      by_contra hk
      have := hs.depth_lt_size (Nat.lt_of_not_le hk)
      omega
    simp [gatherTo, node?_eq_none_iff.mpr hk]
  | succ fuel ih =>
    rw [gatherTo, gatherTo]
    refine Option.map_congr fun n hn => congrArg (build n) (List.filterMap_congr fun c hc => ?_)
    have hdeep := hs.depth_child (hs.mem_children.mp (children_eq hn ▸ hc))
    exact ih (by omega)

/-- What is built of a node and of what is built of its children. -/
theorem gather_eq (build : Node → List α → α) (k : NodeKey) :
    f.gather build k =
      (f.node? k).map fun n => build n (n.children.filterMap (f.gather build)) := by
  rw [gather, ← hs.gatherTo_succ build (by omega)]
  rfl

/-- There is something to gather below every node that exists. -/
theorem gather_isSome (build : Node → List α → α) {c : NodeKey} (hc : c ∈ f.children k) :
    (f.gather build c).isSome = true := by
  obtain ⟨n, hn⟩ := exists_node (hs.child_lt_size hc)
  simp [hs.gather_eq build c, hn]

theorem exists_gather (build : Node → List α → α) {n : Node} (hn : f.node? k = some n) :
    ∃ xs, f.gather build k = some (build n xs) ∧
      (f.children k).map (f.gather build) = xs.map some := by
  refine ⟨_, by rw [hs.gather_eq, hn, Option.map_some], ?_⟩
  rw [children_eq hn]
  exact (map_some_filterMap fun c hc => hs.gather_isSome build (children_eq hn ▸ hc)).symm

/-- Whatever is built alike of each single node in a subtree is built alike of the whole. -/
theorem gather_map {build : Node → List α → α} {build' : Node → List β → β} {φ : α → β}
    (hsame : f.SameButStates g)
    (h : ∀ j ∈ f.subtree k, ∀ n m, f.node? j = some n → g.node? j = some m →
      ∀ xs, build' m (xs.map φ) = φ (build n xs)) :
    g.gather build' k = (f.gather build k).map φ := by
  have hg : g.Sound := hs.of_same_links hsame.children hsame.parent?
  induction k using hs.induction_below with
  | step k ih =>
    cases hn : f.node? k with
    | none =>
      have hm : g.node? k = none := node?_eq_none_iff.mpr (hsame.size ▸ node?_eq_none_iff.mp hn)
      rw [hs.gather_eq, hg.gather_eq, hn, hm]
      rfl
    | some n =>
      obtain ⟨m, hm⟩ : ∃ m, g.node? k = some m := hsame.exists_node hn
      obtain ⟨xs, hxs, hall⟩ := hs.exists_gather build hn
      have hchildren : (g.children k).map (g.gather build') = (xs.map φ).map some := by
        have hmap : ∀ c ∈ f.children k, g.gather build' c = (f.gather build c).map φ :=
          fun c hc => ih c hc fun j hj => h j (hs.subtree_trans (hs.child_mem_subtree hc) hj)
        calc (g.children k).map (g.gather build')
          _ = (f.children k).map fun c => (f.gather build c).map φ := by
            rw [hsame.children, List.map_congr_left hmap]
          _ = ((f.children k).map (f.gather build)).map (Option.map φ) := by rw [List.map_map]; rfl
          _ = (xs.map φ).map some := by rw [hall, List.map_map, List.map_map]; rfl
      rw [hg.gather_eq, hm, Option.map_some, ← children_eq hm, filterMap_of_map_eq hchildren, hxs,
        h k List.mem_cons_self n m hn hm]
      rfl

theorem plan?_congr (hsame : f.SameButStates g) (k : NodeKey) : g.plan? k = f.plan? k := by
  rw [plan?_eq_gather, plan?_eq_gather, hs.gather_map hsame (φ := id), Option.map_id, id_eq]
  intro j _ n m hn hm xs
  have hspec := hsame.spec? j
  rw [hn, hm] at hspec
  simp [buildPlan, Option.some.inj hspec]

theorem progress?_congr (hsame : f.SameButStates g)
    (h : ∀ j ∈ f.subtree k, g.node? j = f.node? j) : g.progress? k = f.progress? k := by
  rw [progress?_eq_gather, progress?_eq_gather, hs.gather_map hsame (φ := id), Option.map_id, id_eq]
  intro j hj n m hn hm xs
  rw [h j hj, hn] at hm
  simp [buildProgress, Option.some.inj hm]

/-- The plan of a node is its specification over the plans of the children. -/
theorem exists_plan {n : Node} (hn : f.node? k = some n) :
    ∃ plans, f.plan? k = some (.node n.spec plans) ∧
      (f.children k).map f.plan? = plans.map some := by
  rw [funext f.plan?_eq_gather]
  exact hs.exists_gather buildPlan hn

/-- The progress of a node is its state over the progress of the children. -/
theorem exists_progress {n : Node} (hn : f.node? k = some n) :
    ∃ children, f.progress? k = some (.node n.state children) ∧
      (f.children k).map f.progress? = children.map some := by
  rw [funext f.progress?_eq_gather]
  exact hs.exists_gather buildProgress hn

theorem exists_node_of_plan? (hp : f.plan? k = some p) : ∃ n, f.node? k = some n := by
  cases hn : f.node? k with
  | none =>
    rw [plan?_eq_gather, hs.gather_eq, hn] at hp
    simp at hp
  | some n => exact ⟨n, rfl⟩

theorem fits (hp : f.plan? k = some p) (ha : f.progress? k = some a) : p.Fits a := by
  induction k using hs.induction_below generalizing p a with
  | step k ih =>
    obtain ⟨n, hn⟩ := hs.exists_node_of_plan? hp
    obtain ⟨plans, hplan, hplans⟩ := hs.exists_plan hn
    obtain ⟨children, hprogress, hchildren⟩ := hs.exists_progress hn
    obtain rfl := Option.some.inj (hp.symm.trans hplan)
    obtain rfl := Option.some.inj (ha.symm.trans hprogress)
    have hlen := congrArg List.length hplans
    have hlen' := congrArg List.length hchildren
    simp only [List.length_map] at hlen hlen'
    refine Plan.fits_node_iff.mpr ⟨hlen.symm.trans hlen', fun {i q c} hq hc => ?_⟩
    obtain ⟨x, hx, hxq⟩ := exists_getElem? hplans hq
    obtain ⟨y, hy, hyc⟩ := exists_getElem? hchildren hc
    obtain rfl : x = y := Option.some.inj (hx.symm.trans hy)
    exact ih x (List.mem_of_getElem? hx) hxq hyc

/-- Storing a progress touches no node outside of the subtree. -/
theorem node?_store (hsame : f.SameButStates g) {j : NodeKey} (hj : j ∉ f.subtree k)
    (a : Progress) : (g.store k a).node? j = g.node? j := by
  induction k using hs.induction_below generalizing g a with
  | step k ih =>
    obtain ⟨state, children⟩ := a
    have hset := setState_sameButStates g k state
    have hjk : j ≠ k := fun h => hj (h ▸ List.mem_cons_self)
    rw [store, storeAll_eq_foldl, hsame.children,
      node?_foldl_store (f := f) _ (hsame.trans hset) fun e he g hg => ?_, setState, node?_update,
      if_neg hjk]
    have hc := (List.of_mem_zip he).1
    exact ih e.1 hc hg (fun h => hj (hs.subtree_trans (hs.child_mem_subtree hc) h)) e.2

theorem not_mem_subtree_of_siblings {c d j : NodeKey} (hc : c ∈ f.children k)
    (hd : d ∈ f.children k) (hcd : c ≠ d) (hj : j ∈ f.subtree c) : j ∉ f.subtree d := by
  have hreach : ∀ {x}, j ∈ f.subtree x → ReflTransGen f.IsParent x j := hs.mem_below_reach
  exact fun h => hs.siblings_disjoint (hs.mem_children.mp hc) (hs.mem_children.mp hd) hcd
    (hreach hj) (hreach h)

/-- Different places hold different children. -/
theorem ne_of_places {i j : ℕ} {c d : NodeKey} (hc : (f.children k)[i]? = some c)
    (hd : (f.children k)[j]? = some d) (hij : i ≠ j) : c ≠ d := by
  rintro rfl
  have hlt : i < (f.children k).length := (List.getElem?_eq_some_iff.mp hc).1
  exact hij ((List.getElem?_inj hlt (hs.nodup k)).mp (hc.trans hd.symm))

theorem not_mem_subtree_child {c : NodeKey} (hc : c ∈ f.children k) : k ∉ f.subtree c := by
  intro hk
  have hck : f.IsParent k c := hs.mem_children.mp hc
  rcases hs.mem_subtree.mp hk with rfl | hk
  · exact hs.acyclic k (TransGen.single hck)
  · exact hs.acyclic k (TransGen.head hck hk)

/-- Progresses that are stored one after the other for several children of one node are all there
in the end. -/
theorem progress?_foldl_store {keys : List NodeKey} {children : List Progress}
    (hkeys : ∀ c ∈ keys, c ∈ f.children k) (hnodup : keys.Nodup)
    (hlen : keys.length = children.length)
    (hstore : ∀ e ∈ keys.zip children, ∀ g, f.SameButStates g →
      (g.store e.1 e.2).progress? e.1 = some e.2)
    (hsame : f.SameButStates g) :
    keys.map ((keys.zip children).foldl (fun g e => g.store e.1 e.2) g).progress? =
      children.map some := by
  induction keys generalizing g children with
  | nil => simp [List.length_eq_zero_iff.mp hlen.symm]
  | cons c rest ih =>
    obtain _ | ⟨a, later⟩ := children
    · simp at hlen
    have hsame' := hsame.trans (store_sameButStates g c a)
    have hnot : c ∉ rest := (List.nodup_cons.mp hnodup).1
    have hrest := ih (fun d hd => hkeys d (List.mem_cons_of_mem _ hd))
      (List.nodup_cons.mp hnodup).2 (Nat.succ.inj hlen)
      (fun e he => hstore e (List.mem_cons_of_mem _ he)) hsame'
    have hkept : ∀ j ∈ (g.store c a).subtree c,
        ((rest.zip later).foldl (fun g e => g.store e.1 e.2) (g.store c a)).node? j =
          (g.store c a).node? j := by
      intro j hj
      refine node?_foldl_store _ hsame' fun e he g hg => hs.node?_store hg ?_ e.2
      have he := (List.of_mem_zip he).1
      have hce : c ≠ e.1 := fun h => hnot (h ▸ he)
      have hjc : j ∈ f.subtree c := by rwa [hsame'.subtree] at hj
      exact hs.not_mem_subtree_of_siblings (hkeys c List.mem_cons_self)
        (hkeys e.1 (List.mem_cons_of_mem _ he)) hce hjc
    have hsound : (g.store c a).Sound := hs.of_same_links hsame'.children hsame'.parent?
    have hfirst := hsound.progress?_congr (foldl_store_sameButStates _ _) hkept
    simp only [List.zip_cons_cons, List.foldl_cons, List.map_cons, hrest, hfirst]
    rw [hstore (c, a) List.mem_cons_self g hsame]

/-- What has been stored is read again. -/
theorem progress?_store (hsame : f.SameButStates g) (hp : f.plan? k = some p) (hfits : p.Fits a) :
    (g.store k a).progress? k = some a := by
  induction k using hs.induction_below generalizing g p a with
  | step k ih =>
    obtain ⟨n, hn⟩ := hs.exists_node_of_plan? hp
    obtain ⟨plans, hplan, hplans⟩ := hs.exists_plan hn
    obtain rfl := Option.some.inj (hp.symm.trans hplan)
    obtain ⟨state, children⟩ := a
    obtain ⟨hlen, hchild⟩ := Plan.fits_node_iff.mp hfits
    have hlen' : (f.children k).length = children.length := by
      have hplans' := congrArg List.length hplans
      simp only [List.length_map] at hplans'
      exact hplans'.trans hlen
    have hset := hsame.trans (setState_sameButStates g k state)
    have hstored := hset.trans
      (foldl_store_sameButStates (g.setState k state) ((f.children k).zip children))
    have hsound := hs.of_same_links hstored.children hstored.parent?
    rw [store, storeAll_eq_foldl, hsame.children]
    have hread := hs.progress?_foldl_store (fun _ hc => hc) (hs.nodup k) hlen' ?_ hset
    · -- the children are there; the node itself has its new state
      obtain ⟨m, hm⟩ := hsame.exists_node hn
      have hkept := node?_foldl_store ((f.children k).zip children) (j := k) hset
        fun e he h hh => hs.node?_store hh (fun hk => ?_) e.2
      · rw [setState, node?_update, if_pos rfl, hm, Option.map_some] at hkept
        obtain ⟨others, hprogress, hothers⟩ := hsound.exists_progress hkept
        rw [hstored.children, hread] at hothers
        rw [hprogress, List.map_injective_iff.mpr (fun _ _ => Option.some.inj) hothers]
      · exact hs.not_mem_subtree_child (List.of_mem_zip he).1 hk
    · intro e he h hh
      obtain ⟨i, hi⟩ := List.mem_iff_getElem?.mp he
      obtain ⟨hkey, hvalue⟩ := List.getElem?_zip_eq_some.mp hi
      obtain ⟨q, hq, hplan⟩ := exists_getElem?_of_left hplans hkey
      exact ih e.1 (List.of_mem_zip he).1 hh hplan (hchild hq hvalue)

end Sound

theorem node?_reset (f : Forest) (k j : NodeKey) :
    (f.reset k).node? j =
      (f.node? j).map fun n => { n with state := if j ∈ f.subtree k then .fresh else n.state } := by
  have hfold : ∀ (keys : List NodeKey) (g : Forest),
      (keys.foldl (fun g j => g.setState j .fresh) g).node? j =
        (g.node? j).map fun n => { n with state := if j ∈ keys then .fresh else n.state } := by
    intro keys
    induction keys with
    | nil => simp
    | cons i rest ih =>
      intro g
      rw [List.foldl_cons, ih, setState, node?_update]
      by_cases hji : j = i
      · cases g.node? j <;> simp [hji]
      · simp [hji]
  exact hfold (f.subtree k) f

/-- Resetting a node resets its subtree. -/
theorem Sound.progress?_reset (hs : f.Sound) (k : NodeKey) :
    (f.reset k).progress? k = (f.progress? k).map Progress.reset := by
  rw [progress?_eq_gather, progress?_eq_gather, hs.gather_map (reset_sameButStates f k)]
  intro j hj n m hn hm children
  rw [node?_reset, hn, Option.map_some, if_pos hj] at hm
  simp [buildProgress, ← Option.some.inj hm, Progress.reset, Progress.resetAll_eq_map]

/-- The forest is sound, and this is the subtree under one of its nodes. -/
structure Holds (f : Forest) (k : NodeKey) (p : Plan) (a : Progress) : Prop where
  sound : f.Sound
  plan : f.plan? k = some p
  progress : f.progress? k = some a

namespace Holds

theorem exists_progress (hs : f.Sound) (hp : f.plan? k = some p) : ∃ a, f.Holds k p a := by
  obtain ⟨n, hn⟩ := hs.exists_node_of_plan? hp
  obtain ⟨children, ha, -⟩ := hs.exists_progress hn
  exact ⟨_, hs, hp, ha⟩

variable (h : f.Holds k p a)
include h

theorem fits : p.Fits a := h.sound.fits h.plan h.progress

theorem reset : (f.reset k).Holds k p p.fresh where
  sound :=
    h.sound.of_same_links (reset_sameButStates f k).children (reset_sameButStates f k).parent?
  plan := (h.sound.plan?_congr (reset_sameButStates f k) k).trans h.plan
  progress := by
    rw [h.sound.progress?_reset, h.progress, Option.map_some, Plan.reset_eq_fresh h.fits]

/-- A tick of the forest is the tick of the subtree that it holds. -/
theorem tick_eq (ex : Executor σ) (w : World σ) :
    f.tick ex k w = ((p.tick ex a w).1, f.store k (p.tick ex a w).2.1, (p.tick ex a w).2.2) := by
  simp only [Forest.tick, h.plan, h.progress]

/-- Ticking a node ticks its subtree. -/
theorem tick (ex : Executor σ) (w : World σ) :
    (f.tick ex k w).2.1.Holds k p (p.tick ex a w).2.1 := by
  have hsame := tick_sameButStates f ex k w
  refine ⟨h.sound.of_same_links hsame.children hsame.parent?,
    (h.sound.plan?_congr hsame k).trans h.plan, ?_⟩
  rw [h.tick_eq]
  exact h.sound.progress?_store (SameButStates.refl f) h.plan (Plan.fits_tick ex h.fits w)

end Holds

end BehaviorTree.Forest
