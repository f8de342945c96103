import BehaviorTree.Probe
import BehaviorTree.Proofs.ActivePath
import BehaviorTree.Proofs.Chronicle
import BehaviorTree.Proofs.ReadOnly

/-!
Start nodes run independently. A pass ticks all of them before it resets those that have ended. As
long as none of them is above another one, their subtrees have no node in common, and a tick or a
reset of one leaves the others alone. Where nothing writes on the blackboard either, every start
node goes through the states that it would go through if it were the only one in the list.
-/
namespace BehaviorTree

open Relation

variable {σ : Type}

namespace Forest

variable {f g : Forest} {k s : NodeKey} {p : Plan} {a : Progress}

/-- The keys are different, and their subtrees have no node in common. -/
structure Apart (f : Forest) (keys : List NodeKey) : Prop where
  nodup : keys.Nodup
  disjoint : ∀ s ∈ keys, ∀ t ∈ keys, s ≠ t → ∀ m ∈ f.subtree s, m ∉ f.subtree t

/-- Of different nodes none of which is above another one, the subtrees have no node in common. -/
theorem Sound.apart (hs : f.Sound) {keys : List NodeKey} (hnodup : keys.Nodup)
    (habove : ∀ s ∈ keys, ∀ t ∈ keys, ¬ f.IsAbove s t) : f.Apart keys where
  nodup := hnodup
  disjoint s hskeys t htkeys hst m hms hmt := by
    rcases hs.mem_subtree.mp hms with rfl | hms
    · rcases hs.mem_subtree.mp hmt with rfl | hmt
      · exact hst rfl
      · exact habove t htkeys m hskeys hmt
    · rcases hs.mem_subtree.mp hmt with rfl | hmt
      · exact habove s hskeys m htkeys hms
      · rcases isAbove_total hms hmt with rfl | h | h
        · exact hst rfl
        · exact habove s hskeys t htkeys h
        · exact habove t htkeys s hskeys h

theorem Apart.congr {keys : List NodeKey} (h : f.Apart keys) (hsame : f.SameButStates g) :
    g.Apart keys where
  nodup := h.nodup
  disjoint s hs t ht hst m hm := by
    rw [hsame.subtree] at hm ⊢
    exact h.disjoint s hs t ht hst m hm

/-- Nothing changes by what happens outside of the subtree. -/
theorem Holds.elsewhere (h : f.Holds s p a) (hsame : f.SameButStates g)
    (hkept : ∀ m ∈ f.subtree s, g.node? m = f.node? m) : g.Holds s p a where
  sound := h.sound.of_same_links hsame.children hsame.parent?
  plan := (h.sound.plan?_congr hsame s).trans h.plan
  progress := (h.sound.progress?_congr hsame hkept).trans h.progress

/-- A tick leaves everything outside of its subtree alone. -/
theorem Holds.node?_tick (h : f.Holds k p a) (ex : Executor σ) (w : World σ) {m : NodeKey}
    (hm : m ∉ f.subtree k) : (f.tick ex k w).2.1.node? m = f.node? m := by
  rw [h.tick_eq]
  exact h.sound.node?_store (SameButStates.refl f) hm _

theorem node?_reset_of_not_mem {m : NodeKey} (hm : m ∉ f.subtree k) :
    (f.reset k).node? m = f.node? m := by
  rw [node?_reset]
  cases f.node? m with
  | none => rfl
  | some n => simp [hm]

/-- Where the same subtree stands under a node, all nodes below have the same run states. -/
theorem Holds.runState_congr (hf : f.Holds s p a) (hg : g.Holds s p a)
    (hchildren : ∀ k, g.children k = f.children k) {m : NodeKey} (hm : m ∈ f.subtree s) :
    g.runState m = f.runState m := by
  induction s using hf.sound.induction_below generalizing p a with
  | step s ih =>
    rcases hf.sound.mem_subtree_iff.mp hm with rfl | ⟨c, hc, hmc⟩
    · rw [hf.runState, hg.runState]
    · obtain ⟨spec, plans⟩ := p
      obtain ⟨state, children⟩ := a
      obtain ⟨i, hi⟩ := List.mem_iff_getElem?.mp hc
      obtain ⟨q, b, hq, hb, hfc⟩ := hf.child hi
      obtain ⟨q', b', hq', hb', hgc⟩ := hg.child (by rwa [hchildren])
      rw [hq] at hq'
      rw [hb] at hb'
      rw [← Option.some.inj hq', ← Option.some.inj hb'] at hgc
      exact ih c hc hfc hgc hmc

end Forest

namespace Plan

/-- One pass over a subtree: its status, and its progress after it has been reset if it has ended. -/
def pass (answers : Request → Except ScriptError Status) (data : Dict Json) (p : Plan)
    (a : Progress) : Status × Progress :=
  let (status, a) := p.answered answers data a
  (status, if status.isTerminal then p.fresh else a)

def after (answers : Request → Except ScriptError Status) (data : Dict Json) (p : Plan) :
    ℕ → Progress → Progress
  | 0, a => a
  | count + 1, a => after answers data p count (p.pass answers data a).2

end Plan

namespace Engine

/-- Passes tick these start nodes, which stand apart from each other; each of them has a subtree that
never writes on the blackboard, in some progress. -/
structure Hosts (e : Engine σ) (keys : List NodeKey) (data : Dict Json) (plan : NodeKey → Plan)
    (now : NodeKey → Progress) : Prop where
  starts : e.startNodes = keys
  apart : e.forest.Apart keys
  values : e.tree.board.data = data
  readsOnly : ∀ s ∈ keys, (plan s).All (·.behavior.ReadsOnly)
  holds : ∀ s ∈ keys, e.forest.Holds s (plan s) (now s)

namespace Hosts

variable {e d : Engine σ} {ex : Executor σ} {answers : Request → Except ScriptError Status}
  {keys todo : List NodeKey} {data : Dict Json} {plan : NodeKey → Plan}
  {now : NodeKey → Progress} {k : NodeKey}

theorem congr (h : e.Hosts keys data plan now) {now' : NodeKey → Progress}
    (hnow : ∀ s ∈ keys, now' s = now s) : e.Hosts keys data plan now' where
  starts := h.starts
  apart := h.apart
  values := h.values
  readsOnly := h.readsOnly
  holds s hs := by
    rw [hnow s hs]
    exact h.holds s hs

/-- What a pass counts and tells does not matter to the start nodes. -/
theorem aside (h : e.Hosts keys data plan now) (hforest : d.forest = e.forest)
    (hnodes : d.tree.nodes = e.tree.nodes) (hboard : d.tree.board = e.tree.board) :
    d.Hosts keys data plan now where
  starts := by
    rw [← h.starts, Engine.startNodes, Engine.startNodes, Tree.startNodes, Tree.startNodes, hforest,
      hnodes]
  apart := hforest ▸ h.apart
  values := hboard ▸ h.values
  readsOnly := h.readsOnly
  holds := hforest ▸ h.holds

/-- What happens in the subtree of one start node alone. -/
theorem update (h : e.Hosts keys data plan now) (hk : k ∈ keys)
    (hnodes : d.tree.nodes = e.tree.nodes) (hvalues : d.tree.board.data = e.tree.board.data)
    (hsame : e.forest.SameButStates d.forest)
    (hkept : ∀ m, m ∉ e.forest.subtree k → d.forest.node? m = e.forest.node? m) {b : Progress}
    (hb : d.forest.Holds k (plan k) b) :
    d.Hosts keys data plan (Function.update now k b) where
  starts := by
    have hstarts := hsame.startNodes d.tree
    rw [Engine.startNodes, hstarts, ← h.starts, Engine.startNodes, Tree.startNodes,
      Tree.startNodes, hnodes]
  apart := h.apart.congr hsame
  values := hvalues.trans h.values
  readsOnly := h.readsOnly
  holds s hs := by
    by_cases hsk : s = k
    · subst hsk
      rw [Function.update_self]
      exact hb
    · rw [Function.update_of_ne hsk]
      exact (h.holds s hs).elsewhere hsame fun m hm =>
        hkept m (h.apart.disjoint s hs k hk hsk m hm)

/-- A tick of one of the start nodes moves on the progress of that one alone. -/
theorem tickNode (hex : ex.Follows answers) (h : e.Hosts keys data plan now) (hk : k ∈ keys) :
    (e.tickNode ex k).1 = ((plan k).answered answers data (now k)).1 ∧
      (e.tickNode ex k).2.Hosts keys data plan
        (Function.update now k ((plan k).answered answers data (now k)).2) := by
  have hholds := h.holds k hk
  have htick := hholds.tick_eq ex ⟨e.tree.board, e.memory⟩
  obtain ⟨hstatus, hprogress, hvalues⟩ := Plan.tick_answered (h.readsOnly k hk) hex (now k)
    (w := ⟨e.tree.board, e.memory⟩) h.values
  have hafter := hholds.tick ex ⟨e.tree.board, e.memory⟩
  rw [hprogress] at hafter
  constructor
  · exact (congrArg Prod.fst htick).trans hstatus
  · refine h.update (d := (e.tickNode ex k).2) hk rfl ?_
      (Forest.tick_sameButStates e.forest ex k _) (fun m hm => ?_) hafter
    · rw [h.values, ← hvalues]
      exact congrArg (fun x => x.2.2.board.data) htick
    · exact hholds.node?_tick ex _ hm

theorem tickNodes (hex : ex.Follows answers) (h : e.Hosts keys data plan now)
    (hnodup : todo.Nodup) (hsub : ∀ s ∈ todo, s ∈ keys) :
    (e.tickNodes ex todo).1 = todo.map (fun s => ((plan s).answered answers data (now s)).1) ∧
      (e.tickNodes ex todo).2.Hosts keys data plan fun s =>
        if s ∈ todo then ((plan s).answered answers data (now s)).2 else now s := by
  induction todo generalizing e now with
  | nil => exact ⟨rfl, h.congr fun s _ => by simp⟩
  | cons k rest ih =>
    obtain ⟨hk, hrest⟩ := List.nodup_cons.mp hnodup
    obtain ⟨hstatus, hfirst⟩ := h.tickNode hex (hsub k List.mem_cons_self)
    obtain ⟨hstatuses, hall⟩ := ih hfirst hrest fun s hs => hsub s (List.mem_cons_of_mem _ hs)
    -- the ticks that follow find the other subtrees as they were before this one
    have hlater : ∀ s ∈ rest, Function.update now k
        ((plan k).answered answers data (now k)).2 s = now s := by
      intro s hs
      have hne : s ≠ k := fun heq => hk (heq ▸ hs)
      rw [Function.update_of_ne hne]
    constructor
    · have hmap : rest.map (fun s => ((plan s).answered answers data
          (Function.update now k ((plan k).answered answers data (now k)).2 s)).1) =
          rest.map fun s => ((plan s).answered answers data (now s)).1 :=
        List.map_congr_left fun s hs => by rw [hlater s hs]
      rw [hmap] at hstatuses
      simp only [Engine.tickNodes, List.map_cons, hstatus, hstatuses]
    · refine hall.congr fun s _ => ?_
      by_cases hsk : s = k
      · subst hsk
        simp [hk]
      · by_cases hs : s ∈ rest
        · simp [hs, hlater s hs]
        · simp [hs, hsk]

/-- A start node that has ended begins again by itself. -/
theorem restart (h : e.Hosts keys data plan now) (hk : k ∈ keys) (status : Status) :
    (e.restart k status).Hosts keys data plan
      (Function.update now k (if status.isTerminal then (plan k).fresh else now k)) := by
  unfold Engine.restart
  split_ifs
  · exact h.update (d := e.resetNode k) hk rfl rfl (Forest.reset_sameButStates e.forest k)
      (fun m hm => Forest.node?_reset_of_not_mem hm) (h.holds k hk).reset
  · rw [Function.update_eq_self]
    exact h

theorem restarts (h : e.Hosts keys data plan now) (status : NodeKey → Status)
    (hnodup : todo.Nodup) (hsub : ∀ s ∈ todo, s ∈ keys) :
    ((todo.zip (todo.map status)).foldl (fun e p => e.restart p.1 p.2) e).Hosts keys data plan
      fun s => if s ∈ todo ∧ (status s).isTerminal then (plan s).fresh else now s := by
  induction todo generalizing e now with
  | nil => exact h.congr fun s _ => by simp
  | cons k rest ih =>
    obtain ⟨hk, hrest⟩ := List.nodup_cons.mp hnodup
    have hfirst := h.restart (hsub k List.mem_cons_self) (status k)
    refine (ih hfirst hrest fun s hs => hsub s (List.mem_cons_of_mem _ hs)).congr fun s _ => ?_
    by_cases hsk : s = k
    · subst hsk
      simp [hk]
    · simp [hsk]

/-- In a pass, every start node goes on by itself. -/
theorem tick (hex : ex.Follows answers) (h : e.Hosts keys data plan now) (hne : keys ≠ []) :
    (e.tick ex).1 =
        Tree.combine (keys.map fun s => ((plan s).pass answers data (now s)).1) ∧
      (e.tick ex).2.Hosts keys data plan fun s => ((plan s).pass answers data (now s)).2 := by
  have htick : e.tick ex = e.tickStarts ex keys := by
    obtain ⟨k, rest, rfl⟩ := List.exists_cons_of_ne_nil hne
    simp only [Engine.tick, h.starts]
  have hcounted : e.countPass.Hosts keys data plan now := h.aside rfl rfl rfl
  obtain ⟨hstatuses, hticked⟩ := hcounted.tickNodes hex h.apart.nodup fun s hs => hs
  have hrestarted := hticked.restarts (fun s => ((plan s).answered answers data (now s)).1)
    h.apart.nodup fun s hs => hs
  rw [← hstatuses] at hrestarted
  rw [htick]
  constructor
  · exact congrArg Tree.combine hstatuses
  · have hpassed : Hosts _ keys data plan fun s => ((plan s).pass answers data (now s)).2 :=
      hrestarted.congr fun s hs => by simp [hs, Plan.pass]
    exact hpassed.aside rfl rfl rfl

/-- Over any number of passes, every start node goes on by itself. -/
theorem afterTicks (hex : ex.Follows answers) (h : e.Hosts keys data plan now) (hne : keys ≠ [])
    (count : ℕ) :
    (e.afterTicks ex count).Hosts keys data plan fun s =>
      (plan s).after answers data count (now s) := by
  induction count generalizing e now with
  | zero => exact h
  | succ count ih => exact ih (h.tick hex hne).2

end Hosts

theorem settle_perm {α : Type} (less : α → α → Bool) (x : α) (xs : List α) :
    (Tree.settle less x xs).Perm (x :: xs) := by
  induction xs with
  | nil => exact List.Perm.refl _
  | cons y rest ih =>
    unfold Tree.settle
    split_ifs
    · exact (ih.cons y).trans (List.Perm.swap x y rest)
    · exact List.Perm.refl _

theorem sortBy_perm {α : Type} (less : α → α → Bool) (xs : List α) :
    (Tree.sortBy less xs).Perm xs := by
  have hfold : ∀ sorted : List α,
      (xs.foldl (fun sorted x => Tree.settle less x sorted) sorted).Perm (xs ++ sorted) := by
    induction xs with
    | nil => exact fun sorted => List.Perm.refl _
    | cons x rest ih =>
      intro sorted
      have hrest := ih (Tree.settle less x sorted)
      have hsettle := (settle_perm less x sorted).append_left rest
      exact hrest.trans (hsettle.trans List.perm_middle)
  have hall := hfold []
  rw [List.append_nil] at hall
  exact (List.reverse_perm _).trans hall

theorem isStart_of_mem {e : Engine σ} {s : NodeKey} (hs : s ∈ e.startNodes) :
    Tree.isStart e.forest s = true := by
  have hmem := (sortBy_perm _ _).mem_iff.mp hs
  exact (List.mem_filter.mp hmem).2

def alone (e : Engine σ) (s : NodeKey) : Engine σ := { e with tree := { e.tree with nodes := [s] } }

theorem startNodes_alone {e : Engine σ} {s : NodeKey} (hs : s ∈ e.startNodes) :
    (e.alone s).startNodes = [s] := by
  have hstart := isStart_of_mem hs
  have hfilter : [s].filter (Tree.isStart e.forest) = [s] := by simp [hstart]
  change Tree.sortBy _ ([s].filter (Tree.isStart e.forest)) = [s]
  rw [hfilter]
  rfl

section Hosts

variable {e : Engine σ} {ex : Executor σ} {answers : Request → Except ScriptError Status}
  {keys : List NodeKey} {data : Dict Json} {plan : NodeKey → Plan} {now : NodeKey → Progress}
  {s : NodeKey}

/-- The same subtree stands under a start node that is alone in the list. -/
theorem Hosts.alone (h : e.Hosts keys data plan now) (hs : s ∈ keys) :
    (e.alone s).Hosts [s] data plan now where
  starts := startNodes_alone (h.starts ▸ hs)
  apart := by
    refine ⟨List.nodup_singleton s, ?_⟩
    intro a ha b hb hab
    exact absurd ((List.mem_singleton.mp ha).trans (List.mem_singleton.mp hb).symm) hab
  values := h.values
  readsOnly t ht := List.mem_singleton.mp ht ▸ h.readsOnly s hs
  holds t ht := List.mem_singleton.mp ht ▸ h.holds s hs

end Hosts

section Hosts

variable {e : Engine σ} {ex : Executor σ} {answers : Request → Except ScriptError Status}
  {keys : List NodeKey} {data : Dict Json} {plan : NodeKey → Plan} {now : NodeKey → Progress}
  {s : NodeKey}

end Hosts

def ticking : NodeSpec := { Forest.workerSpec .script "clock" with behavior := Probe.leaf }

end Engine

end BehaviorTree
