import BehaviorTree.Proofs.LeafCounters
import BehaviorTree.Proofs.NodeHistory
import BehaviorTree.Proofs.Renewal

/-!
What the counter of a leaf counts. It stands in the leaf, and leaves start again for many reasons:
a node above them repeats or restarts them, a tree is stopped, their code is taken away. Whatever
is done to a forest of built-in nodes, and in whatever order, the counter is the number of
requests that have been made for the leaf since it last started again, and that is what the
executor is told.
-/
namespace BehaviorTree

variable {σ : Type}

namespace Forest

/-- Something that bears on the counters of leaves: a node comes into being, or something goes on
in a node of a forest that is linked as it is at that time. -/
inductive Happening where
  | added (node : NodeKey)
  | moved (forest : Forest) (move : Move NodeKey)

namespace Happening

def sent? : Happening → Option Sent
  | added _ => none
  | moved _ move => move.sent?

def told? (leaf : NodeKey) : Happening → Option ℕ
  | added _ => none
  | moved _ move => move.told? leaf

/-- The leaf starts again: it is new, it is restarted itself or with a node above it, it is ticked
without code, or the answer to a request does not leave it running. -/
def renews (leaf : NodeKey) : Happening → Bool
  | added node => node = leaf
  | moved f move => move.renews leaf fun node => leaf ∈ f.subtree node

def ledger (leaf : NodeKey) : Ledger Happening := ⟨told? leaf, renews leaf⟩

end Happening

def requestsSince (leaf : NodeKey) (history : List Happening) : ℕ :=
  (Happening.ledger leaf).since history

/-- One operation on a forest, and what happens in it. -/
inductive Brings : Forest → List Happening → Forest → Prop
  | add {f : Forest} (spec : NodeSpec) : Brings f [.added f.size] (f.add spec).2
  | adopt {f : Forest} {p c : NodeKey} (hp : p < f.size) (hc : c < f.size) :
      Brings f [] (f.adopt p c).2
  | detach {f : Forest} (p c : NodeKey) : Brings f [] (f.detach p c).2
  | detachAll {f : Forest} (p : NodeKey) : Brings f [] (f.detachAll p)
  | edit {f : Forest} (k : NodeKey) (change : NodeSpec → NodeSpec)
      (hkind : ∀ s : NodeSpec, s.SameKind (change s)) : Brings f [] (f.updateSpec k change)
  | reset {f : Forest} (k : NodeKey) : Brings f [.moved f (.restarted k)] (f.reset k)
  | tick {f : Forest} {σ : Type} (ex : Executor σ) (k : NodeKey) (w : World σ) :
      Brings f ((f.moves ex k w).map (.moved f)) (f.tick ex k w).2.1

inductive Annals (f : Forest) : List Happening → Forest → Prop
  | nil : Annals f [] f
  | snoc {g h : Forest} {past more : List Happening} (hpast : Annals f past g)
      (hmore : Brings g more h) : Annals f (past ++ more) h

variable {f g h : Forest} {k leaf : NodeKey} {p : Plan} {a : Progress} {way : List ℕ}
  {past more history : List Happening}

theorem Brings.step (h : Brings f more g) : Step f g := by
  cases h with
  | add spec => exact .add spec
  | adopt hp hc => exact .adopt hp hc
  | detach p c => exact .detach p c
  | detachAll p => exact .detachAll p
  | edit k change hkind => exact .edit k change hkind
  | reset k => exact .reset k
  | tick ex k w => exact .tick ex k w

/-- Of every operation it can be told what happens in it. -/
theorem Step.exists_brings (h : Step f g) : ∃ more, Brings f more g := by
  cases h with
  | add spec => exact ⟨_, .add spec⟩
  | adopt hp hc => exact ⟨_, .adopt hp hc⟩
  | detach p c => exact ⟨_, .detach p c⟩
  | detachAll p => exact ⟨_, .detachAll p⟩
  | edit k change hkind => exact ⟨_, .edit k change hkind⟩
  | reset k => exact ⟨_, .reset k⟩
  | tick ex k w => exact ⟨_, .tick ex k w⟩

namespace Annals

theorem trans (hpast : Annals f past g) (hmore : Annals g more h) : Annals f (past ++ more) h := by
  induction hmore with
  | nil => rwa [List.append_nil]
  | snoc _ hnext ih =>
    rw [← List.append_assoc]
    exact ih.snoc hnext

theorem reachable (h : Annals empty history f) : f.Reachable := by
  induction h with
  | nil => exact .refl
  | snoc _ hmore ih => exact ih.tail hmore.step

end Annals

/-- However a forest has come about, there are annals of it. -/
theorem Reachable.exists_annals (hf : f.Reachable) : ∃ history, Annals empty history f := by
  induction hf with
  | refl => exact ⟨[], .nil⟩
  | tail _ hstep ih =>
    obtain ⟨past, hpast⟩ := ih
    obtain ⟨more, hmore⟩ := hstep.exists_brings
    exact ⟨past ++ more, hpast.snoc hmore⟩

def AllBuiltIn (f : Forest) : Prop :=
  ∀ m node, f.node? m = some node → ∃ kind, node.spec.behavior = BuiltIn.behavior kind

/-- The node is a leaf, unless it has yet to come into being. -/
def LeafToBe (f : Forest) (k : NodeKey) : Prop := f.IsKind k .script ∨ f.node? k = none

/-- A node is of the same kind for good. -/
theorem Step.keeps_behavior {behavior : Behavior} (hs : f.Sound) (h : Step f g)
    (hk : ∃ n, f.node? k = some n ∧ n.spec.behavior = behavior) :
    ∃ n, g.node? k = some n ∧ n.spec.behavior = behavior := by
  rcases h.revision_or with hrevision | ⟨_, ex, t, w, rfl⟩ | ⟨j, rfl⟩
  · exact (hrevision.keeps hs hk).1
  · exact (tick_sameButStates f ex t w).keeps_behavior hk
  · exact (reset_sameButStates f j).keeps_behavior hk

/-- Where all nodes are built-in after an operation, all were before. -/
theorem AllBuiltIn.before (hkinds : g.AllBuiltIn) (hs : f.Sound) (h : Step f g) : f.AllBuiltIn := by
  intro m node hnode
  obtain ⟨later, hlater, hbehavior⟩ := h.keeps_behavior hs ⟨node, hnode, rfl⟩
  exact hbehavior ▸ hkinds m later hlater

theorem LeafToBe.before (hleaf : g.LeafToBe k) (hs : f.Sound) (h : Step f g) : f.LeafToBe k := by
  cases hn : f.node? k with
  | none => exact Or.inr hn
  | some node =>
    obtain ⟨later, hlater, hbehavior⟩ := h.keeps_behavior hs ⟨node, hn, rfl⟩
    rcases hleaf with ⟨n, hn', hscript⟩ | hnone
    · obtain rfl := Option.some.inj (hn'.symm.trans hlater)
      exact Or.inl ⟨node, hn, hbehavior.symm.trans hscript⟩
    · exact absurd (hlater.symm.trans hnone) (Option.some_ne_none _)

/-- A revision does not touch the counter of a leaf, be it there or not. -/
theorem Revision.runState_leaf (hs : f.Sound) (h : Revision f g) (hleaf : f.LeafToBe k) :
    g.runState k = f.runState k := by
  rcases hleaf with hscript | hnone
  · exact (h.keeps hs hscript).2
  · rw [h.fresh_of_new hs hnone, runState_of_none hnone]

/-- A tick elsewhere does not bear on the leaf. -/
theorem Holds.silent_moves (h : f.Holds k p a) (hm : leaf ∉ f.subtree k) (ex : Executor σ)
    (w : World σ) :
    ∀ e ∈ (f.moves ex k w).map (.moved f), (Happening.ledger leaf).Silent e := by
  rw [h.moves_eq, List.map_map]
  refine List.forall_mem_map.mpr fun move _ => ?_
  have hbelow := h.sound.nodeAt_mem_subtree k move.node
  have hsilent : (Move.ledger leaf fun node => decide (leaf ∈ f.subtree node)).Silent
      (move.map (f.nodeAt k)) := by
    refine Move.silent_of_ne ?_ (decide_eq_false fun hin => ?_)
    · rw [Move.node_map]
      exact fun heq => hm (heq ▸ hbelow)
    · rw [Move.node_map] at hin
      exact hm (h.sound.subtree_trans hbelow hin)
  exact hsilent

/-- What is told of a place is told of the leaf that stands there. -/
theorem Holds.runs_at (h : f.Holds k p a) (hall : p.AllBuiltIn) (hway : f.Way k way leaf)
    {ex : Executor σ} {w : World σ} {count next : ℕ}
    (hruns : (Ledger.atPlace way).Runs count (p.moves ex a w) next) :
    (Happening.ledger leaf).Runs count ((f.moves ex k w).map (.moved f)) next := by
  rw [h.moves_eq, List.map_map]
  refine hruns.map fun move hmove => ?_
  obtain ⟨m, hplace, -⟩ := h.exists_place hall hmove
  have hself : f.nodeAt k move.node = m := hplace.nodeAt_self
  refine Move.ledger_map ⟨fun heq => ?_, fun heq => ?_⟩ (decide_eq_decide.mpr ?_)
  · obtain rfl : m = leaf := hself.symm.trans heq
    exact h.sound.place_unique hplace hway
  · rw [heq, hway.nodeAt_self]
  · rw [hself]
    exact h.sound.mem_subtree_iff_prefix hplace hway

/-- During a tick of any node, the count goes on as the counter of the leaf does. -/
theorem Sound.runs_moves (hs : f.Sound) (hkinds : f.AllBuiltIn) (hleaf : f.LeafToBe leaf)
    (ex : Executor σ) (k : NodeKey) (w : World σ) :
    (Happening.ledger leaf).Runs (f.runState leaf).counter ((f.moves ex k w).map (.moved f))
      ((f.tick ex k w).2.1.runState leaf).counter := by
  cases hp : f.plan? k with
  | none =>
    have hmoves : f.moves ex k w = [] := by simp only [moves, hp]
    have htick : (f.tick ex k w).2.1 = f := by simp only [tick, hp]
    rw [hmoves, htick]
    exact .nil _
  | some p =>
    obtain ⟨a, hholds⟩ := Holds.exists_progress hs hp
    by_cases hm : leaf ∈ f.subtree k
    · obtain ⟨way, hway⟩ := hs.exists_way hm
      obtain ⟨⟨spec, plans⟩, ⟨state, children⟩, hq, hb, hbelow⟩ := hholds.along hway
      obtain ⟨node, hnode, -, -⟩ := hbelow.exists_node
      have hscript : f.IsKind leaf .script := hleaf.resolve_right (by simp [hnode])
      obtain ⟨next, hruns, c, hc, hnext⟩ := p.counts_at hq (hbelow.behavior hscript) a w
        (f.runState leaf).counter ⟨_, hb, congrArg RunState.counter hbelow.runState.symm⟩
      have hsame := tick_sameButStates f ex k w
      obtain ⟨_, d, _, hd, hafter⟩ := (hholds.tick ex w).along (hsame.keeps_way hway)
      obtain rfl : d = c := Option.some.inj (hd.symm.trans hc)
      rw [hafter.runState, hnext]
      exact hholds.runs_at (hs.plan_all (fun m _ => hkinds m) hp) hway hruns
    · rw [hs.runState_tick_of_not_mem hm]
      exact Ledger.runs_of_silent (hholds.silent_moves hm ex w) _

/-- Nothing but a leaf is asked for. -/
theorem Sound.isLeaf_of_asked (hs : f.Sound) (hkinds : f.AllBuiltIn) {ex : Executor σ}
    {w : World σ} {sent : Sent} {status : Status}
    (hasked : .asked leaf sent status ∈ f.moves ex k w) : f.IsKind leaf .script := by
  cases hp : f.plan? k with
  | none => simp only [moves, hp, List.not_mem_nil] at hasked
  | some p =>
    obtain ⟨a, hholds⟩ := Holds.exists_progress hs hp
    rw [hholds.moves_eq] at hasked
    obtain ⟨move, hmove, heq⟩ := List.mem_map.mp hasked
    obtain ⟨m, hway, hscript⟩ := hholds.exists_place (hs.plan_all (fun m _ => hkinds m) hp) hmove
    have hnode := congrArg Move.node heq
    have hsent := congrArg Move.sent? heq
    rw [Move.node_map, hway.nodeAt_self] at hnode
    rw [Move.sent?_map] at hsent
    have hleaf : m = leaf := hnode
    exact hleaf ▸ hscript (by rw [hsent]; rfl)

/-- Whatever is done, the count goes on as the counter of the leaf does. -/
theorem Brings.runs (h : Brings f more g) (hs : f.Sound) (hkinds : f.AllBuiltIn)
    (hleaf : f.LeafToBe leaf) : (Happening.ledger leaf).Runs (f.runState leaf).counter more
      (g.runState leaf).counter := by
  have hrevised : Revision f g → (Happening.ledger leaf).Runs (f.runState leaf).counter []
      (g.runState leaf).counter := fun hrevision => by
    rw [hrevision.runState_leaf hs hleaf]
    exact .nil _
  cases h with
  | add spec =>
    rw [(Revision.link (.add spec)).runState_leaf hs hleaf]
    by_cases hnew : f.size = leaf
    · have hzero : (f.runState leaf).counter = 0 := by
        rw [runState_of_none (node?_eq_none_iff.mpr (Nat.le_of_eq hnew)), RunState.fresh]
      rw [hzero]
      exact Ledger.runs_of_renews rfl (decide_eq_true hnew) 0
    · refine Ledger.runs_of_silent (List.forall_mem_singleton.mpr ?_) _
      exact ⟨rfl, decide_eq_false hnew⟩
  | adopt hp hc => exact hrevised (.link (.adopt hp hc))
  | detach p c => exact hrevised (.link (.detach p c))
  | detachAll p => exact hrevised (.link (.detachAll p))
  | edit k change hkind => exact hrevised (.rewrite k change hkind)
  | reset k =>
    rw [runState_reset]
    by_cases hk : leaf ∈ f.subtree k
    · rw [if_pos hk]
      exact Ledger.runs_of_renews rfl (decide_eq_true hk) _
    · rw [if_neg hk]
      refine Ledger.runs_of_silent (List.forall_mem_singleton.mpr ?_) _
      exact ⟨rfl, decide_eq_false hk⟩
  | tick ex k w => exact hs.runs_moves hkinds hleaf ex k w

/-- All that has happened in a forest of built-in nodes tells the counter of a leaf right. -/
theorem Annals.runs (h : Annals empty history f) (hkinds : f.AllBuiltIn) (hleaf : f.LeafToBe leaf) :
    (Happening.ledger leaf).Runs 0 history (f.runState leaf).counter := by
  -- before the leaf comes into being, its counter is that of a fresh node
  induction h with
  | nil => exact .nil 0
  | snoc hpast hmore ih =>
    have hs := hpast.reachable.sound
    have hkinds' := hkinds.before hs hmore.step
    have hleaf' := hleaf.before hs hmore.step
    exact (ih hkinds' hleaf').append (hmore.runs hs hkinds' hleaf')

/-- Nothing but a leaf is asked for. -/
theorem Annals.isLeaf_of_asked (h : Annals empty history f) (hkinds : f.AllBuiltIn)
    {sent : Sent} {status : Status} (hasked : .moved g (.asked leaf sent status) ∈ history) :
    f.IsKind leaf .script := by
  induction h with
  | nil => cases hasked
  | @snoc f₁ f₂ past more hpast hmore ih =>
    have hs := hpast.reachable.sound
    refine hmore.step.keeps_behavior hs ?_
    rcases List.mem_append.mp hasked with hasked | hasked
    · exact ih (hkinds.before hs hmore.step) hasked
    · cases hmore with
      | add | adopt | detach | detachAll | edit | reset => simp at hasked
      | tick ex k w =>
        obtain ⟨move, hmove, heq⟩ := List.mem_map.mp hasked
        cases heq
        exact hs.isLeaf_of_asked (hkinds.before hs (.tick ex k w)) hmove

end Forest

namespace Engine

open Forest

variable {ex : Executor σ} {e d c : Engine (σ × List Sent)} {more : List Happening}

/-- What an engine does to its nodes: they are ticked and reset one by one. Besides, anything may be
done that leaves the nodes and the executor alone. -/
inductive Proceeds (ex : Executor σ) :
    Engine (σ × List Sent) → List Happening → Engine (σ × List Sent) → Prop
  | aside {e d : Engine (σ × List Sent)} (hforest : d.forest = e.forest)
      (hmemory : d.memory = e.memory) : Proceeds ex e [] d
  | tickNode (e : Engine (σ × List Sent)) (k : NodeKey) :
      Proceeds ex e ((e.forest.moves ex k ⟨e.tree.board, e.memory.1⟩).map (.moved e.forest))
        (e.tickNode ex.recording k).2
  | resetNode (e : Engine (σ × List Sent)) (k : NodeKey) :
      Proceeds ex e [.moved e.forest (.restarted k)] (e.resetNode k)
  | andThen {e d c : Engine (σ × List Sent)} {past more : List Happening}
      (hpast : Proceeds ex e past d) (hmore : Proceeds ex d more c) :
      Proceeds ex e (past ++ more) c

/-- The nodes stay the same, and what is recorded is the requests among what happens. -/
theorem Proceeds.accounted (h : Proceeds ex e more d) :
    Annals e.forest more d.forest ∧ e.forest.SameButStates d.forest ∧
      d.memory.2 = e.memory.2 ++ more.filterMap Happening.sent? := by
  induction h with
  | aside hforest hmemory =>
    rw [hforest, hmemory]
    exact ⟨.nil, .refl _, (List.append_nil _).symm⟩
  | tickNode e k =>
    let w : World σ := ⟨e.tree.board, e.memory.1⟩
    have htick := e.forest.tick_recording ex k w e.memory.2
    have hforest : (e.tickNode ex.recording k).2.forest = (e.forest.tick ex k w).2.1 :=
      congrArg (·.2.1) htick
    have hmemory : (e.tickNode ex.recording k).2.memory.2 =
        e.memory.2 ++ (e.forest.moves ex k w).filterMap Move.sent? :=
      congrArg (·.2.2.memory.2) htick
    rw [hforest, hmemory, List.filterMap_map]
    exact ⟨Annals.nil.snoc (.tick ex k w), Forest.tick_sameButStates e.forest ex k w, rfl⟩
  | resetNode e k =>
    exact ⟨Annals.nil.snoc (.reset k), reset_sameButStates e.forest k, (List.append_nil _).symm⟩
  | andThen _ _ ihpast ihmore =>
    obtain ⟨hpast, hfirst, hbefore⟩ := ihpast
    obtain ⟨hmore, hlast, hafter⟩ := ihmore
    refine ⟨hpast.trans hmore, hfirst.trans hlast, ?_⟩
    rw [hafter, hbefore, List.filterMap_append, List.append_assoc]

def ProceedsTo (ex : Executor σ) (e d : Engine (σ × List Sent)) : Prop :=
  ∃ more, Proceeds ex e more d

namespace ProceedsTo

theorem refl (ex : Executor σ) (e : Engine (σ × List Sent)) : ProceedsTo ex e e :=
  ⟨[], .aside rfl rfl⟩

variable (h : ProceedsTo ex e d)
include h

theorem trans (hd : ProceedsTo ex d c) : ProceedsTo ex e c := by
  obtain ⟨past, hpast⟩ := h
  obtain ⟨more, hmore⟩ := hd
  exact ⟨past ++ more, hpast.andThen hmore⟩

theorem aside (hforest : c.forest = d.forest) (hmemory : c.memory = d.memory) :
    ProceedsTo ex e c :=
  h.trans ⟨[], .aside hforest hmemory⟩

theorem setState (state : ExecutionState) : ProceedsTo ex e (d.setState state) :=
  h.aside (setState_tree d state).2.1 (setState_tree d state).2.2

theorem disarmTimer : ProceedsTo ex e d.disarmTimer :=
  h.aside (disarmTimer_tree d).2.1 (disarmTimer_tree d).2.2

theorem armTimer : ProceedsTo ex e d.armTimer := h.disarmTimer.aside rfl rfl

theorem foldl {α : Type} {change : Engine (σ × List Sent) → α → Engine (σ × List Sent)}
    (hchange : ∀ e x, ProceedsTo ex e (change e x)) (xs : List α) :
    ProceedsTo ex e (xs.foldl change d) := by
  induction xs generalizing d with
  | nil => exact h
  | cons x rest ih => exact ih (h.trans (hchange d x))

/-- Ticking a node is among the things that engines do to their nodes. -/
theorem tickNode (k : NodeKey) : ProceedsTo ex e (d.tickNode ex.recording k).2 :=
  h.trans ⟨_, .tickNode d k⟩

theorem resetNode (k : NodeKey) : ProceedsTo ex e (d.resetNode k) := h.trans ⟨_, .resetNode d k⟩

theorem tickNodes (keys : List NodeKey) : ProceedsTo ex e (d.tickNodes ex.recording keys).2 := by
  induction keys generalizing d with
  | nil => exact h
  | cons k rest ih => exact ih (h.tickNode k)

theorem restart (k : NodeKey) (status : Status) : ProceedsTo ex e (d.restart k status) := by
  unfold Engine.restart
  split
  · exact h.resetNode k
  · exact h

theorem tick : ProceedsTo ex e (d.tick ex.recording).2 := by
  have hcounted : ProceedsTo ex e d.countPass := h.aside rfl rfl
  unfold Engine.tick
  split
  · exact h
  · next root _ _ =>
    have hannounced : ∀ status, ProceedsTo ex e
        ((d.countPass.tickNode ex.recording root).2.announce status) := fun status =>
      (hcounted.tickNode root).aside rfl rfl
    exact (hannounced _).restart root _
  · have hrestart : ∀ e (p : NodeKey × Status), ProceedsTo ex e (e.restart p.1 p.2) := fun e p =>
      (refl ex e).restart p.1 p.2
    exact ((hcounted.tickNodes d.startNodes).foldl hrestart _).aside rfl rfl

theorem tickTimes (count : ℕ) : ProceedsTo ex e (Engine.tickTimes ex.recording count d) := by
  induction count generalizing d with
  | zero => exact h
  | succ count ih => exact ih h.tick

theorem reset : ProceedsTo ex e d.reset := by
  have hcounted : ProceedsTo ex e d.recounted := h.aside rfl rfl
  rw [reset_eq]
  cases d.tree.root with
  | none => exact hcounted
  | some root => exact hcounted.resetNode root

theorem resetAll : ProceedsTo ex e d.resetAll :=
  h.reset.foldl (fun e k => (refl ex e).resetNode k) d.reset.startNodes

end ProceedsTo

/-- Whatever the host does to the tree, but for putting other nodes in place. -/
theorem proceedsTo_call (ex : Executor σ) (e : Engine (σ × List Sent)) {c : Call}
    (hc : c.KeepsTree) : ProceedsTo ex e (e.call ex.recording c) := by
  have hself := ProceedsTo.refl ex e
  cases c with
  | start =>
    simp only [call, start]
    split
    · exact hself
    · exact hself.armTimer.setState .running
  | pause =>
    simp only [call, pause]
    split
    · exact hself.disarmTimer.setState .paused
    · exact hself
  | stop =>
    have hcleared : ProceedsTo ex e e.disarmTimer.resetAll.clearBoard :=
      hself.disarmTimer.resetAll.aside rfl rfl
    exact hcleared.setState .idle
  | step =>
    have hdisarmed :
        ProceedsTo ex e (if e.tree.state = .running then e.disarmTimer else e) := by
      split
      · exact hself.disarmTimer
      · exact hself
    exact hdisarmed.tick.setState _
  | tick => exact hself.tick
  | pump =>
    have hpolled : ∀ clock, ProceedsTo ex e { e with clock } := fun _ => hself.aside rfl rfl
    simp only [call, pump]
    split
    · split
      · exact (hpolled _).tickTimes _
      · exact hself
    · exact hself
  | setTickRate rate =>
    have hrated : ProceedsTo ex e (e.rated rate) := hself.aside rfl rfl
    simp only [call, setTickRate]
    split
    · exact hrated.armTimer
    · exact hrated
  | reset => exact hself.reset
  | resetAll => exact hself.resetAll
  | fire | watchTicks | watchState | write => exact hself.aside rfl rfl
  | setRoot | setNodes | load | edit => exact hc.elim

end Engine

namespace Forest

variable {f g : Forest} {history past : List Happening}

theorem AllBuiltIn.congr (hkinds : f.AllBuiltIn) (hsame : f.SameButStates g) : g.AllBuiltIn := by
  intro m node hnode
  have hspec := hsame.spec? m
  rw [hnode, Option.map_some] at hspec
  obtain ⟨before, hbefore, heq⟩ := Option.map_eq_some_iff.mp hspec.symm
  exact heq ▸ hkinds m before hbefore

/-- Whatever is done to a forest of built-in nodes, every request tells how many there have been
for that leaf since it last started again, and between ticks the counter of a leaf is that number.
All requests are accounted for, those of the ticks of single nodes and those of a tree, whatever
its host does to it. -/
theorem requests_counted (h : Annals empty history f) (hkinds : f.AllBuiltIn) :
    (∀ before g leaf sent status after,
        history = before ++ .moved g (.asked leaf sent status) :: after →
          sent.request.ticksSinceStart = requestsSince leaf before) ∧
      (∀ leaf, f.IsKind leaf .script →
        (f.runState leaf).counter = requestsSince leaf history) ∧
      (∀ {σ : Type} (ex : Executor σ) (k : NodeKey) (w : World σ),
        (f.observe ex k w).1.requests =
          ((f.moves ex k w).map (.moved f)).filterMap Happening.sent?) ∧
      ∀ {σ : Type} (ex : Executor σ) (e : Engine (σ × List Sent)) (c : Call), e.forest = f →
        c.KeepsTree → let d := e.call ex.recording c
        ∃ more, Engine.Proceeds ex e more d ∧ Annals empty (history ++ more) d.forest ∧
          d.forest.AllBuiltIn ∧ d.memory.2 = e.memory.2 ++ more.filterMap Happening.sent? := by
  refine ⟨?_, fun leaf hleaf => (h.runs hkinds (Or.inl hleaf)).eq_since, ?_, ?_⟩
  · rintro before g leaf sent status after rfl
    have hleaf := h.isLeaf_of_asked hkinds (List.mem_append_right before List.mem_cons_self)
    exact (h.runs hkinds (Or.inl hleaf)).told (if_pos rfl)
  · intro σ ex k w
    rw [requests_observe, List.filterMap_map]
    rfl
  · rintro σ ex e c rfl hc
    obtain ⟨more, hproceeds⟩ := Engine.proceedsTo_call ex e hc
    obtain ⟨hmore, hsame, hrequests⟩ := hproceeds.accounted
    exact ⟨more, hproceeds, h.trans hmore, hkinds.congr hsame, hrequests⟩

def kept (f : Forest) : Forest := (f.tick Executor.scripted 0 ⟨.empty, [.running]⟩).2.1

def keeping (f : Forest) : List Happening :=
  (f.moves Executor.scripted 0 ⟨.empty, [.running]⟩).map (.moved f)

def longPatrol : Forest := kept (kept patrol)

def longAnnals : List Happening :=
  [.added 0, .added 1, .added 2] ++ keeping patrol ++ keeping (kept patrol)

/-- An action is asked for twice, and once more after the patrol has been reset. -/
theorem requests_counted_longPatrol :
    Annals empty longAnnals longPatrol ∧ longPatrol.AllBuiltIn ∧
      requestsSince 1 longAnnals = 2 ∧
      requestsSince 1
        (longAnnals ++ [.moved longPatrol (.restarted 0)] ++ keeping (longPatrol.reset 0)) = 1 := by
  have hpatrol : Annals empty [.added 0, .added 1, .added 2] patrol :=
    ((((Annals.nil.snoc (.add _)).snoc (.add _)).snoc (.add _)).snoc
      (.adopt (by decide) (by decide))).snoc (.adopt (by decide) (by decide))
  have hlong : Annals empty longAnnals longPatrol :=
    (hpatrol.snoc (.tick _ 0 _)).snoc (.tick _ 0 _)
  have hagain : Annals empty (longAnnals ++ [.moved longPatrol (.restarted 0)] ++
      keeping (longPatrol.reset 0)) (kept (longPatrol.reset 0)) :=
    (hlong.snoc (.reset 0)).snoc (.tick _ 0 _)
  have hkinds : patrol.AllBuiltIn := by
    intro m node hnode
    match m with
    | 0 => exact ⟨.sequence, Option.some.inj hnode ▸ rfl⟩
    | 1 | 2 => exact ⟨.script, Option.some.inj hnode ▸ rfl⟩
    | m + 3 =>
      have hnone : patrol.node? (m + 3) = none := node?_eq_none_iff.mpr (Nat.le_add_left 3 m)
      rw [hnone] at hnode
      cases hnode
  have hlongSame : patrol.SameButStates longPatrol :=
    (tick_sameButStates patrol _ 0 _).trans (tick_sameButStates _ _ 0 _)
  have hagainSame : patrol.SameButStates (kept (longPatrol.reset 0)) :=
    (hlongSame.trans (reset_sameButStates _ 0)).trans (tick_sameButStates _ _ 0 _)
  have hleaf : patrol.IsKind 1 .script := ⟨_, rfl, rfl⟩
  have hcounts := (requests_counted hlong (hkinds.congr hlongSame)).2.1 1
    (hlongSame.keeps_behavior hleaf)
  have hcountsAgain := (requests_counted hagain (hkinds.congr hagainSame)).2.1 1
    (hagainSame.keeps_behavior hleaf)
  refine ⟨hlong, hkinds.congr hlongSame, ?_⟩
  rw [← hcounts, ← hcountsAgain]
  exact ⟨by decide +kernel, by decide +kernel⟩

end Forest

end BehaviorTree
