import BehaviorTree.Proofs.ActivePath

/-!
Ticks of nodes that are shared by handles. In a forest a tick takes the subtree out, goes through
it and writes it back. A program that reaches its nodes through handles changes them where they
stand, and it holds a node from the beginning of a tick or a reset to the end: a call that comes
back to a node that is held has gone wrong. Here ticks, resets and walks are written in that way.
Whatever can go wrong shows as a fault, and so does a call that is nested too deep.

The first thing to know of such calls is what they leave alone. Each of them works on a node and
on its children, whose subtrees lie within that of the node, so nothing changes outside of it.
-/
namespace BehaviorTree

variable {σ : Type} {α β : Type}

inductive Fault where
  /-- The node is held by a call that has yet to end. -/
  | held (node : NodeKey)
  /-- The node has no child at the index. -/
  | noChild (node : NodeKey) (index : ℕ)
  /-- Calls are nested as deep as they may be. -/
  | tooDeep
  deriving DecidableEq

structure Scene (σ : Type) where
  forest : Forest
  world : World σ

/-- How the children of a node are ticked and reset while it is ticked itself. -/
structure Calls (σ : Type) where
  tick : NodeKey → Scene σ → Except Fault (Status × Scene σ)
  reset : NodeKey → Forest → Except Fault Forest

def Forest.modifyState (f : Forest) (k : NodeKey) (change : RunState → RunState) : Forest :=
  f.update k fun n => { n with state := change n.state }

def Scene.modifyState (s : Scene σ) (k : NodeKey) (change : RunState → RunState) : Scene σ :=
  { s with forest := s.forest.modifyState k change }

def Routine.perform (ex : Executor σ) (spec : NodeSpec) (k : NodeKey) (children : List NodeKey)
    (calls : Calls σ) : Routine → Scene σ → Except Fault (Status × Scene σ)
  | finish status, s => .ok (status, s)
  | tickChild index next, s =>
    match children[index]? with
    | none => .error (.noChild k index)
    | some c => do
      let answer ← calls.tick c s
      (next answer.1).perform ex spec k children calls answer.2
  | resetChild index next, s =>
    match children[index]? with
    | none => .error (.noChild k index)
    | some c => do
      let forest ← calls.reset c s.forest
      next.perform ex spec k children calls { s with forest }
  | setCursor index next, s =>
    next.perform ex spec k children calls
      (s.modifyState k fun state => { state with cursor := index })
  | setCounter count next, s =>
    next.perform ex spec k children calls
      (s.modifyState k fun state => { state with counter := count })
  | runCode ticksSinceStart next, s =>
    let (status, world) := spec.execute ex ticksSinceStart s.world
    (next status).perform ex spec k children calls { s with world }
  | readBoard next, s => (next s.world.board).perform ex spec k children calls s
  | editBoard edit next, s =>
    next.perform ex spec k children calls
      { s with world := { s.world with board := edit s.world.board } }

namespace Forest

def resetInPlace : (depth : ℕ) → (held : List NodeKey) → NodeKey → Forest → Except Fault Forest
  | 0, _, _, _ => .error .tooDeep
  | depth + 1, held, k, f =>
    if k ∈ held then .error (.held k)
    else (f.children k).foldlM (fun g c => resetInPlace depth (k :: held) c g)
      (f.modifyState k fun _ => .fresh)

/-- Adds everything below a node to what has been found. A walk only looks at the nodes, so they
may be held by other walks. -/
def walkInPlace (f : Forest) : (depth : ℕ) → NodeKey → List NodeKey → Except Fault (List NodeKey)
  | 0, _, _ => .error .tooDeep
  | depth + 1, k, found =>
    (f.children k).foldlM (fun found c => f.walkInPlace depth c (found ++ [c])) found

end Forest

namespace Scene

/-- Ticks a node. It is held while its behavior ticks and resets the children. -/
def tickInPlace (ex : Executor σ) :
    (depth : ℕ) → (held : List NodeKey) → NodeKey → Scene σ → Except Fault (Status × Scene σ)
  | 0, _, _, _ => .error .tooDeep
  | depth + 1, held, k, s =>
    if k ∈ held then .error (.held k)
    else
      match s.forest.node? k with
      | none => .ok (.idle, s)
      | some n => do
        let calls := ⟨tickInPlace ex depth (k :: held), Forest.resetInPlace depth (k :: held)⟩
        let routine := n.spec.behavior.routine (n.spec.view n.state n.children.length)
        let answer ← routine.perform ex n.spec k n.children calls s
        .ok (answer.1, answer.2.modifyState k fun state => { state with status := answer.1 })

end Scene

theorem exists_of_bind_ok {first : Except Fault β} {next : β → Except Fault α} {a : α}
    (h : (first >>= next) = .ok a) : ∃ b, first = .ok b ∧ next b = .ok a := by
  cases first with
  | error fault => cases h
  | ok b => exact ⟨b, rfl, h⟩

theorem exists_of_map_fst_ok {answer : Except Fault (α × β)} {a : α}
    (h : answer.map Prod.fst = .ok a) : ∃ b, answer = .ok (a, b) := by
  cases answer with
  | error fault => cases h
  | ok x =>
    obtain rfl : x.1 = a := Except.ok.inj h
    exact ⟨x.2, rfl⟩

/-- What every step keeps is kept by steps one after the other. -/
theorem foldlM_keeps {step : β → α → Except Fault β} {P : β → Prop} {xs : List α} {b c : β}
    (h : ∀ x ∈ xs, ∀ {b c}, P b → step b x = .ok c → P c) (hb : P b)
    (hc : xs.foldlM step b = .ok c) : P c := by
  induction xs generalizing b with
  | nil =>
    obtain rfl : b = c := Except.ok.inj hc
    exact hb
  | cons x rest ih =>
    rw [List.foldlM_cons] at hc
    obtain ⟨d, hd, hrest⟩ := exists_of_bind_ok hc
    have hkept : P d := h x List.mem_cons_self hb hd
    exact ih (fun y hy => h y (List.mem_cons_of_mem _ hy)) hkept hrest

/-- Steps that come to their end one after the other are a fold of what they come to. -/
theorem foldlM_of_ok {step : β → α → Except Fault β} {next : β → α → β} {P : β → Prop}
    {xs : List α} {b : β} (h : ∀ x ∈ xs, ∀ b, P b → step b x = .ok (next b x) ∧ P (next b x))
    (hb : P b) : xs.foldlM step b = .ok (xs.foldl next b) := by
  induction xs generalizing b with
  | nil => rfl
  | cons x rest ih =>
    obtain ⟨hstep, hnext⟩ := h x List.mem_cons_self b hb
    rw [List.foldlM_cons, hstep, List.foldl_cons]
    exact ih (fun y hy => h y (List.mem_cons_of_mem _ hy)) hnext

namespace Forest

variable {f g h : Forest} {k c : NodeKey}

/-- Nothing but run states is different, and only those of the subtree of one node. -/
structure ChangedBelow (f : Forest) (k : NodeKey) (g : Forest) : Prop where
  same : f.SameButStates g
  kept : ∀ j, j ∉ f.subtree k → g.node? j = f.node? j

namespace ChangedBelow

theorem refl (f : Forest) (k : NodeKey) : f.ChangedBelow k f := ⟨.refl f, fun _ _ => rfl⟩

theorem trans (hfg : f.ChangedBelow k g) (hgh : g.ChangedBelow k h) : f.ChangedBelow k h where
  same := hfg.same.trans hgh.same
  kept j hj := by
    have hj' : j ∉ g.subtree k := by rwa [hfg.same.subtree]
    rw [hgh.kept j hj', hfg.kept j hj]

/-- What changes below a child changes below its parent. -/
theorem of_child (hs : f.Sound) (hc : c ∈ f.children k) (hfg : f.ChangedBelow c g) :
    f.ChangedBelow k g where
  same := hfg.same
  kept j hj := by
    have hout : j ∉ f.subtree c := fun h => hj (hs.subtree_trans (hs.child_mem_subtree hc) h)
    exact hfg.kept j hout

end ChangedBelow

theorem node?_modifyState (f : Forest) (k : NodeKey) (change : RunState → RunState)
    (j : NodeKey) :
    (f.modifyState k change).node? j =
      if j = k then (f.node? j).map fun n => { n with state := change n.state } else f.node? j :=
  node?_update f k _ j

theorem modifyState_changedBelow (f : Forest) (k : NodeKey) (change : RunState → RunState) :
    f.ChangedBelow k (f.modifyState k change) where
  same := by
    refine ⟨size_update f k _, fun j => ?_⟩
    rw [bare?, node?_modifyState, bare?]
    split_ifs
    · cases f.node? j <;> rfl
    · rfl
  kept j hj := by
    have hne : j ≠ k := fun h => hj (h ▸ List.mem_cons_self)
    rw [node?_modifyState, if_neg hne]

theorem Sound.of_changedBelow (hs : f.Sound) (hfg : f.ChangedBelow k g) : g.Sound :=
  hs.of_same_links hfg.same.children hfg.same.parent?

/-- A reset in place changes nothing outside of the subtree. -/
theorem resetInPlace_changedBelow {depth : ℕ} {held : List NodeKey} (hs : f.Sound)
    (h : resetInPlace depth held k f = .ok g) : f.ChangedBelow k g := by
  induction depth generalizing held k f g with
  | zero => cases h
  | succ depth ih =>
    rw [resetInPlace] at h
    split_ifs at h with hheld
    have hown := f.modifyState_changedBelow k fun _ => .fresh
    refine foldlM_keeps (P := f.ChangedBelow k) (fun c hc {a b} ha hab => ?_) hown h
    have hsound : a.Sound := hs.of_changedBelow ha
    have hchild : c ∈ a.children k := by rwa [ha.same.children]
    exact ha.trans (.of_child hsound hchild (ih hsound hab))

end Forest

/-- Calls for a node change nothing outside of its subtree. -/
structure Calls.Local (calls : Calls σ) : Prop where
  tick : ∀ {c s status s'}, s.forest.Sound → calls.tick c s = .ok (status, s') →
    s.forest.ChangedBelow c s'.forest
  reset : ∀ {c f g}, f.Sound → calls.reset c f = .ok g → f.ChangedBelow c g

/-- Whatever a behavior does at its node, it does within the subtree. -/
theorem Routine.perform_changedBelow {ex : Executor σ} {spec : NodeSpec} {f : Forest}
    {k : NodeKey} {calls : Calls σ} {status : Status} {s s' : Scene σ} (r : Routine)
    (hcalls : calls.Local) (hf : f.Sound) (hs : f.ChangedBelow k s.forest)
    (h : r.perform ex spec k (f.children k) calls s = .ok (status, s')) :
    f.ChangedBelow k s'.forest := by
  have hmem {index : ℕ} {c : NodeKey} {g : Forest} (hg : f.ChangedBelow k g)
      (hc : (f.children k)[index]? = some c) : g.Sound ∧ c ∈ g.children k := by
    refine ⟨hf.of_changedBelow hg, ?_⟩
    rw [hg.same.children]
    exact List.mem_of_getElem? hc
  induction r generalizing s with
  | finish answer =>
    obtain ⟨-, rfl⟩ := Prod.mk.inj (Except.ok.inj h)
    exact hs
  | tickChild index next ih =>
    cases hc : (f.children k)[index]? with
    | none => simp [perform, hc] at h
    | some c =>
      simp only [perform, hc] at h
      obtain ⟨⟨answer, t⟩, ht, hrest⟩ := exists_of_bind_ok h
      obtain ⟨hsound, hchild⟩ := hmem hs hc
      exact ih answer (hs.trans (.of_child hsound hchild (hcalls.tick hsound ht))) hrest
  | resetChild index next ih =>
    cases hc : (f.children k)[index]? with
    | none => simp [perform, hc] at h
    | some c =>
      simp only [perform, hc] at h
      obtain ⟨g, hg, hrest⟩ := exists_of_bind_ok h
      obtain ⟨hsound, hchild⟩ := hmem hs hc
      exact ih (hs.trans (.of_child hsound hchild (hcalls.reset hsound hg))) hrest
  | setCursor index next ih =>
    exact ih (s := s.modifyState k _) (hs.trans (s.forest.modifyState_changedBelow k _)) h
  | setCounter count next ih =>
    exact ih (s := s.modifyState k _) (hs.trans (s.forest.modifyState_changedBelow k _)) h
  | runCode ticks next ih =>
    exact ih _ (s := ⟨s.forest, (spec.execute ex ticks s.world).2⟩) hs h
  | readBoard next ih => exact ih _ hs h
  | editBoard edit next ih =>
    exact ih (s := ⟨s.forest, { s.world with board := edit s.world.board }⟩) hs h

namespace Scene

variable {ex : Executor σ} {depth : ℕ} {held : List NodeKey} {k : NodeKey} {n : Node}
  {status : Status} {s s' : Scene σ}

def calls (ex : Executor σ) (depth : ℕ) (held : List NodeKey) : Calls σ :=
  ⟨tickInPlace ex depth held, Forest.resetInPlace depth held⟩

/-- A tick in place carries out the routine of the node while it is held. -/
theorem tickInPlace_of_node (hn : s.forest.node? k = some n) (hheld : k ∉ held) :
    s.tickInPlace ex (depth + 1) held k =
      ((n.spec.behavior.routine (n.spec.view n.state n.children.length)).perform ex n.spec k
        n.children (calls ex depth (k :: held)) s >>= fun answer =>
          .ok (answer.1,
            answer.2.modifyState k fun state => { state with status := answer.1 })) := by
  simp only [tickInPlace, if_neg hheld, hn]
  rfl

/-- A tick that comes to its end has changed nothing outside of the subtree, and the node has the
status that it came to. -/
theorem tickInPlace_changedBelow (hs : s.forest.Sound)
    (h : s.tickInPlace ex depth held k = .ok (status, s')) :
    s.forest.ChangedBelow k s'.forest ∧
      ∀ n, s.forest.node? k = some n →
        ∃ m, s'.forest.node? k = some m ∧ m.state.status = status := by
  induction depth generalizing held k status s s' with
  | zero => cases h
  | succ depth ih =>
    by_cases hheld : k ∈ held
    · simp [tickInPlace, hheld] at h
    cases hn : s.forest.node? k with
    | none =>
      simp only [tickInPlace, if_neg hheld, hn] at h
      obtain ⟨-, rfl⟩ := Prod.mk.inj (Except.ok.inj h)
      exact ⟨.refl s.forest k, fun n hn => by cases hn⟩
    | some n =>
      rw [tickInPlace_of_node hn hheld] at h
      obtain ⟨⟨answer, t⟩, ht, hend⟩ := exists_of_bind_ok h
      obtain ⟨rfl, rfl⟩ := Prod.mk.inj (Except.ok.inj hend)
      -- The routine is gone through with what is known of calls that are nested less deep.
      have hcalls : (calls ex depth (k :: held)).Local :=
        ⟨fun hs h => (ih hs h).1, Forest.resetInPlace_changedBelow⟩
      rw [← Forest.children_eq hn] at ht
      have hrun := Routine.perform_changedBelow _ hcalls hs (.refl s.forest k) ht
      have hwrite := t.forest.modifyState_changedBelow k
        fun state => { state with status := answer }
      refine ⟨hrun.trans hwrite, fun _ _ => ?_⟩
      obtain ⟨m, hm⟩ := hrun.same.exists_node hn
      refine ⟨{ m with state := { m.state with status := answer } }, ?_, rfl⟩
      rw [modifyState, Forest.node?_modifyState, if_pos rfl, hm, Option.map_some]

end Scene

namespace Forest

variable {f g : Forest} {k : NodeKey} {n : Node} {status : Status}

/-- What a tick of a node that comes to a status leaves of a forest. -/
structure TickFrame (f : Forest) (k : NodeKey) (status : Status) (g : Forest) : Prop where
  size : g.size = f.size
  /-- All that is written about a node stays, and so do its links. -/
  written : ∀ j n, f.node? j = some n → ∃ m, g.node? j = some m ∧
    m.spec = n.spec ∧ m.parent = n.parent ∧ m.children = n.children
  /-- Run states change in the subtree only. -/
  elsewhere : ∀ j, j ≠ k → j ∉ f.descendants k → g.node? j = f.node? j
  status : ∃ m, g.node? k = some m ∧ m.state.status = status

theorem ChangedBelow.tickFrame (h : f.ChangedBelow k g)
    (hstatus : ∃ m, g.node? k = some m ∧ m.state.status = status) : f.TickFrame k status g where
  size := h.same.size
  written j n hn := by
    obtain ⟨m, hm⟩ := h.same.exists_node hn
    have hbare := h.same.bare? j
    rw [bare?, bare?, hm, hn] at hbare
    obtain ⟨hspec, hlinks⟩ := Prod.mk.inj (Option.some.inj hbare)
    obtain ⟨hparent, hchildren⟩ := Prod.mk.inj hlinks
    exact ⟨m, hm, hspec, hparent, hchildren⟩
  elsewhere j hjk hj := h.kept j (List.not_mem_cons_of_ne_of_not_mem hjk hj)
  status := hstatus

/-- A tick of a subtree that is taken out changes nothing outside of it. -/
theorem Sound.tick_changedBelow (hs : f.Sound) (ex : Executor σ) (k : NodeKey) (w : World σ) :
    f.ChangedBelow k (f.tick ex k w).2.1 where
  same := tick_sameButStates f ex k w
  kept j hj := by
    unfold tick
    split
    · exact hs.node?_store (.refl f) hj _
    · rfl

/-- However a node is ticked, by taking its subtree out or in place, nothing is changed but run
states in its subtree. -/
theorem Reachable.tick_frame (hf : f.Reachable) (hn : f.node? k = some n) (ex : Executor σ)
    (w : World σ) :
    f.TickFrame k (f.tick ex k w).1 (f.tick ex k w).2.1 ∧
      ∀ depth held status s, Scene.tickInPlace ex depth held k ⟨f, w⟩ = .ok (status, s) →
        f.TickFrame k status s.forest := by
  have hs := hf.sound
  constructor
  · have hbelow := hs.tick_changedBelow ex k w
    obtain ⟨m, hm⟩ := hbelow.same.exists_node hn
    obtain ⟨plans, hplan, -⟩ := hs.exists_plan hn
    obtain ⟨a, hholds⟩ := Holds.exists_progress hs hplan
    have hstate := (hholds.tick ex w).runState
    have hstatus := Plan.status_tick ex (.node n.spec plans) a w
    rw [runState, hm, Option.map_some, Option.getD_some] at hstate
    refine hbelow.tickFrame ⟨m, hm, ?_⟩
    rw [hstate, hstatus, hholds.tick_eq]
  · intro depth held status s h
    obtain ⟨hbelow, hstatus⟩ := Scene.tickInPlace_changedBelow hs h
    exact hbelow.tickFrame (hstatus n hn)

def rounds : Forest :=
  grown [workerSpec .sequence "rounds", workerSpec .repeater "again", workerSpec .script "go",
    workerSpec .script "look"] [(0, 1), (1, 2), (0, 3)]

theorem rounds_reachable : rounds.Reachable := grown_reachable (by decide)

/-- The repeater ticks its action three times, the last time in vain. The sequence above it and the
action beside it stay as they are. -/
theorem tick_frame_rounds :
    let w : World (List Status) := ⟨.empty, [.success, .success, .running]⟩
    let x := rounds.tick .scripted 1 w
    rounds.Reachable ∧ x.1 = .running ∧ rounds.TickFrame 1 x.1 x.2.1 ∧
      ∃ s, Scene.tickInPlace .scripted 4 [] 1 ⟨rounds, w⟩ = .ok (.running, s) ∧
        rounds.TickFrame 1 .running s.forest := by
  have hends : (Scene.tickInPlace .scripted 4 [] 1
      ⟨rounds, ⟨.empty, [.success, .success, .running]⟩⟩).map Prod.fst = .ok .running := by
    decide +kernel
  obtain ⟨htick, hplace⟩ := rounds_reachable.tick_frame (k := 1) rfl Executor.scripted
    ⟨.empty, [.success, .success, .running]⟩
  obtain ⟨s, hs⟩ := exists_of_map_fst_ok hends
  exact ⟨rounds_reachable, by decide +kernel, htick, s, hs, hplace 4 [] .running s hs⟩

end Forest

end BehaviorTree
