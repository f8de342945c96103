import BehaviorTree.Proofs.Moves

/-!
The counter of a leaf during a tick. A leaf tells its counter whenever it has its code run, and
adds one to it if it is left running; a node above it may restart it at any time, as often as it
likes. The moves of a tick say all that bears on the counter: whatever subtree is ticked, a count
that is kept along its moves goes on as the counter does.
-/
namespace BehaviorTree

variable {σ : Type}

/-- How entries of a list bear on a count. An entry that tells the count adds one to it; an entry
that renews it puts it back to zero. -/
structure Ledger (E : Type) where
  told? : E → Option ℕ
  renews : E → Bool

namespace Ledger

variable {E F : Type} {l : Ledger E} {n m r : ℕ} {entries more before after : List E} {e : E}

def next (l : Ledger E) (count : ℕ) (e : E) : ℕ :=
  if l.renews e then 0 else if (l.told? e).isSome then count + 1 else count

def since (l : Ledger E) (entries : List E) : ℕ :=
  (entries.reverse.takeWhile fun e => !l.renews e).countP fun e => (l.told? e).isSome

inductive Runs (l : Ledger E) : ℕ → List E → ℕ → Prop
  | nil (count : ℕ) : Runs l count [] count
  | cons {n m : ℕ} {e : E} {entries : List E} (htold : ∀ count, l.told? e = some count → count = n)
      (rest : Runs l (l.next n e) entries m) : Runs l n (e :: entries) m

def Silent (l : Ledger E) (e : E) : Prop := l.told? e = none ∧ l.renews e = false

theorem Silent.next_eq (h : l.Silent e) (count : ℕ) : l.next count e = count := by
  simp [next, h.1, h.2]

theorem Runs.cons_untold (he : l.told? e = none) (h : l.Runs (l.next n e) entries m) :
    l.Runs n (e :: entries) m := by
  refine .cons (fun count hcount => ?_) h
  rw [he] at hcount
  cases hcount

theorem Runs.cons_silent (he : l.Silent e) (h : l.Runs n entries m) :
    l.Runs n (e :: entries) m := by
  refine .cons_untold he.1 ?_
  rwa [he.next_eq]

/-- Entries that do not bear on the count leave it as it is. -/
theorem runs_of_silent (h : ∀ e ∈ entries, l.Silent e) (count : ℕ) :
    l.Runs count entries count := by
  induction entries with
  | nil => exact .nil count
  | cons e rest ih =>
    obtain ⟨he, hrest⟩ := List.forall_mem_cons.mp h
    exact (ih hrest).cons_silent he

/-- A renewal puts the count back to zero. -/
theorem runs_of_renews (htold : l.told? e = none) (hrenews : l.renews e = true) (count : ℕ) :
    l.Runs count [e] 0 := by
  refine .cons_untold htold ?_
  rw [next, if_pos hrenews]
  exact .nil 0

/-- What two lists of entries tell right they tell right together. -/
theorem Runs.append (h : l.Runs n entries m) (hmore : l.Runs m more r) :
    l.Runs n (entries ++ more) r := by
  induction h with
  | nil count => exact hmore
  | cons htold _ ih => exact .cons htold (ih hmore)

theorem Runs.of_append (h : l.Runs n (entries ++ more) r) :
    ∃ m, l.Runs n entries m ∧ l.Runs m more r := by
  induction entries generalizing n with
  | nil => exact ⟨n, .nil n, h⟩
  | cons e rest ih =>
    cases h with
    | cons htold hrest =>
      obtain ⟨m, hfirst, hlast⟩ := ih hrest
      exact ⟨m, .cons htold hfirst, hlast⟩

/-- Entries that bear on one count as others do on another one. -/
theorem Runs.map {k : Ledger F} {name : E → F} (h : l.Runs n entries m)
    (hname : ∀ e ∈ entries, k.told? (name e) = l.told? e ∧ k.renews (name e) = l.renews e) :
    k.Runs n (entries.map name) m := by
  induction h with
  | nil count => exact .nil count
  | @cons n m e rest htold _ ih =>
    obtain ⟨⟨htells, hrenews⟩, hrest⟩ := List.forall_mem_cons.mp hname
    have hnext : k.next n (name e) = l.next n e := by rw [next, next, htells, hrenews]
    refine .cons (fun count hcount => htold count (htells ▸ hcount)) ?_
    rw [hnext]
    exact ih hrest

theorem since_concat (l : Ledger E) (entries : List E) (e : E) :
    l.since (entries ++ [e]) = l.next (l.since entries) e := by
  simp only [since, next, List.reverse_append, List.reverse_singleton, List.singleton_append]
  by_cases hrenews : l.renews e
  · rw [List.takeWhile_cons_of_neg (by simp [hrenews]), if_pos hrenews, List.countP_nil]
  · rw [List.takeWhile_cons_of_pos (by simp [hrenews]), if_neg hrenews, List.countP_cons]
    split <;> rfl

/-- A count that is told right is the number of entries since the last renewal. -/
theorem Runs.eq_since (h : l.Runs 0 entries m) : m = l.since entries := by
  induction entries using List.reverseRecOn generalizing m with
  | nil =>
    cases h
    rfl
  | append_singleton entries e ih =>
    obtain ⟨r, hfirst, hlast⟩ := h.of_append
    rw [since_concat, ← ih hfirst]
    cases hlast with
    | cons _ hnil =>
      cases hnil
      rfl

/-- An entry tells how many there have been before it. -/
theorem Runs.told (h : l.Runs 0 (before ++ e :: after) m) {count : ℕ}
    (he : l.told? e = some count) : count = l.since before := by
  obtain ⟨r, hbefore, hrest⟩ := h.of_append
  cases hrest with
  | cons htold _ => rw [htold count he, hbefore.eq_since]

end Ledger

namespace Move

variable {α : Type} [DecidableEq α]

def told? (leaf : α) : Move α → Option ℕ
  | asked node sent _ => if node = leaf then some sent.request.ticksSinceStart else none
  | began _ _ | reached _ _ | restarted _ | ended _ _ _ _ => none

/-- The leaf starts again: it has no code to be run, it is restarted with what is above it, or an
answer does not leave it running. -/
def renews (leaf : α) (above : α → Bool) : Move α → Bool
  | began node coded => node = leaf && !coded
  | restarted node => above node
  | asked node _ status => node = leaf && status ≠ .running
  | reached _ _ | ended _ _ _ _ => false

def ledger (leaf : α) (above : α → Bool) : Ledger (Move α) := ⟨told? leaf, renews leaf above⟩

variable {leaf node : α} {above : α → Bool} {move : Move α}

theorem silent_asked (hne : node ≠ leaf) (sent : Sent) (status : Status) :
    (ledger leaf above).Silent (.asked node sent status) :=
  ⟨if_neg hne, by simp [ledger, renews, hne]⟩

theorem silent_of_ne (hne : move.node ≠ leaf) (habove : above move.node = false) :
    (ledger leaf above).Silent move := by
  cases move with
  | began node coded =>
    have hnode : node ≠ leaf := hne
    exact ⟨rfl, by simp [ledger, renews, hnode]⟩
  | asked node sent status => exact silent_asked hne sent status
  | restarted node => exact ⟨rfl, habove⟩
  | reached | ended => exact ⟨rfl, rfl⟩

/-- Names that tell the leaf from other nodes, and those above it from the rest. -/
theorem ledger_map {β : Type} [DecidableEq β] {name : α → β} {other : β} {under : β → Bool}
    (hleaf : name move.node = other ↔ move.node = leaf)
    (habove : under (name move.node) = above move.node) :
    (ledger other under).told? (move.map name) = (ledger leaf above).told? move ∧
      (ledger other under).renews (move.map name) = (ledger leaf above).renews move := by
  cases move with
  | began node coded =>
    have hsame : decide (name node = other) = decide (node = leaf) := decide_eq_decide.mpr hleaf
    exact ⟨rfl, congrArg (· && !coded) hsame⟩
  | asked node sent status =>
    have hsame : decide (name node = other) = decide (node = leaf) := decide_eq_decide.mpr hleaf
    exact ⟨if_congr hleaf rfl rfl, congrArg (· && decide (status ≠ .running)) hsame⟩
  | restarted => exact ⟨rfl, habove⟩
  | reached | ended => exact ⟨rfl, rfl⟩

end Move

def Ledger.atPlace (place : List ℕ) : Ledger (Move (List ℕ)) :=
  Move.ledger place fun other => decide (other <+: place)

namespace Progress

variable {a : Progress} {i : ℕ} {place : List ℕ} {count : ℕ}

theorem leavesOver_cons :
    a.LeavesOver (i :: place) count ↔ ∃ c, a.children[i]? = some c ∧ c.LeavesOver place count := by
  constructor
  · rintro ⟨b, hb, hcount⟩
    obtain ⟨c, hc, hcb⟩ := Option.bind_eq_some_iff.mp hb
    exact ⟨c, hc, b, hcb, hcount⟩
  · rintro ⟨c, hc, b, hcb, hcount⟩
    exact ⟨b, Option.bind_eq_some_iff.mpr ⟨c, hc, hcb⟩, hcount⟩

theorem leavesOver_reset (h : a.LeavesOver place count) : a.reset.LeavesOver place 0 := by
  obtain ⟨b, hb, -⟩ := h
  exact ⟨b.reset, at?_reset hb, congrArg RunState.counter (state_reset b)⟩

end Progress

/-- In every tick of the subtree, the count goes on as the counter of the leaf at the place does. -/
def Plan.Counts (ex : Executor σ) (place : List ℕ) (p : Plan) : Prop :=
  ∀ a w count, a.LeavesOver place count → ∃ next,
    (Ledger.atPlace place).Runs count (p.moves ex a w) next ∧
      (p.tick ex a w).2.1.LeavesOver place next

def Ongoing.LeavesOver (o : Ongoing σ) (i : ℕ) (place : List ℕ) (count : ℕ) : Prop :=
  ∃ c, o.children[i]? = some c ∧ c.LeavesOver place count

section

variable {ex : Executor σ} {plans : List Plan} {q : Plan} {i count : ℕ} {place : List ℕ}
  {o : Ongoing σ}

theorem Ongoing.movesOf_self {a : Progress} (hq : plans[i]? = some q)
    (ha : o.children[i]? = some a) :
    o.movesOf (Plan.tellers ex plans) i = (q.moves ex a o.world).map (Move.map (i :: ·)) := by
  simp only [movesOf, Plan.tellers_eq_map, List.getElem?_map, hq, ha, Option.map_some]

/-- Moves below another child do not bear on the leaf. -/
theorem Ongoing.silent_movesOf (tellers : List (Teller σ)) {j : ℕ} (hj : j ≠ i) :
    ∀ move ∈ o.movesOf tellers j, (Ledger.atPlace (i :: place)).Silent move := by
  intro move hmove
  unfold Ongoing.movesOf at hmove
  split at hmove
  · obtain ⟨inner, -, rfl⟩ := List.mem_map.mp hmove
    refine Move.silent_of_ne ?_ ?_
    · rw [Move.node_map]
      exact fun heq => hj (List.cons_eq_cons.mp heq).1
    · rw [Move.node_map, decide_eq_false_iff_not]
      exact fun hprefix => hj (List.cons_prefix_cons.mp hprefix).1
  · exact absurd hmove List.not_mem_nil

/-- A tick of any child tells the count of the leaf below one of them right. -/
theorem Ongoing.runs_tickChild (hq : plans[i]? = some q) (hcounts : q.Counts ex place)
    (h : o.LeavesOver i place count) (j : ℕ) : ∃ next,
      (Ledger.atPlace (i :: place)).Runs count (o.movesOf (Plan.tellers ex plans) j) next ∧
        (o.tickChild (Plan.steppers ex plans) j).2.LeavesOver i place next := by
  obtain ⟨c, hc, hleft⟩ := h
  by_cases hj : j = i
  · subst hj
    have hstep : (Plan.steppers ex plans)[j]? = some (q.tick ex) := by
      rw [Plan.steppers_eq_map, List.getElem?_map, hq, Option.map_some]
    have hlt : j < o.children.length := (List.getElem?_eq_some_iff.mp hc).1
    obtain ⟨next, hruns, hnext⟩ := hcounts c o.world count hleft
    refine ⟨next, ?_, _, ?_, hnext⟩
    · rw [movesOf_self hq hc]
      refine hruns.map fun move _ => Move.ledger_map ?_ ?_
      · exact ⟨fun heq => (List.cons_eq_cons.mp heq).2, congrArg _⟩
      · exact decide_eq_decide.mpr (List.prefix_cons_inj j)
    · rw [tickChild_self hstep hc]
      exact List.getElem?_set_self hlt
  · obtain ⟨hkept, -, -⟩ := o.tickChild_other (Plan.steppers ex plans) hj
    refine ⟨count, Ledger.runs_of_silent (o.silent_movesOf _ hj) count, c, ?_, hleft⟩
    rw [hkept, hc]

/-- A reset of a child renews the count of the leaves below that child. -/
theorem Ongoing.runs_resetChild (h : o.LeavesOver i place count) (j : ℕ) : ∃ next,
    (Ledger.atPlace (i :: place)).Runs count [.reached [] j, .restarted [j]] next ∧
      (o.resetChild j).LeavesOver i place next := by
  obtain ⟨c, hc, hleft⟩ := h
  have hreached : (Ledger.atPlace (i :: place)).Silent (.reached [] j) := ⟨rfl, rfl⟩
  have hchild := o.resetChild_getElem? j hc
  by_cases hj : j = i
  · subst hj
    rw [if_pos rfl] at hchild
    have hrenews : (Ledger.atPlace (j :: place)).renews (.restarted [j]) = true :=
      decide_eq_true ⟨place, rfl⟩
    have hruns := Ledger.runs_of_renews rfl hrenews count
    exact ⟨0, hruns.cons_silent hreached, _, hchild, Progress.leavesOver_reset hleft⟩
  · rw [if_neg hj] at hchild
    have hrestarted : (Ledger.atPlace (i :: place)).Silent (.restarted [j]) := by
      refine ⟨rfl, decide_eq_false fun hprefix => ?_⟩
      exact hj (List.cons_prefix_cons.mp hprefix).1
    have hruns := (Ledger.Runs.nil count).cons_silent hrestarted
    exact ⟨count, hruns.cons_silent hreached, c, hchild, hleft⟩

/-- What the routine of a node above the leaf does is counted. -/
theorem Routine.runs_moves (hq : plans[i]? = some q) (hcounts : q.Counts ex place)
    (spec : NodeSpec) (r : Routine) (h : o.LeavesOver i place count) : ∃ next,
      (Ledger.atPlace (i :: place)).Runs count
        (r.moves ex spec (Plan.steppers ex plans) (Plan.tellers ex plans) o) next ∧
      (r.run ex spec (Plan.steppers ex plans) o).2.LeavesOver i place next := by
  induction r generalizing o count with
  | finish status => exact ⟨count, .nil count, h⟩
  | tickChild j next ih =>
    obtain ⟨_, hticked, hafter⟩ := Ongoing.runs_tickChild hq hcounts h j
    obtain ⟨last, hruns, hlast⟩ := ih (o.tickChild (Plan.steppers ex plans) j).1 hafter
    exact ⟨last, (hticked.append hruns).cons_silent ⟨rfl, rfl⟩, hlast⟩
  | resetChild j next ih =>
    obtain ⟨_, hreset, hafter⟩ := Ongoing.runs_resetChild h j
    obtain ⟨last, hruns, hlast⟩ := ih hafter
    exact ⟨last, hreset.append hruns, hlast⟩
  | setCursor j next ih => exact ih (o := { o with cursor := j }) h
  | setCounter n next ih => exact ih (o := { o with counter := n }) h
  | runCode ticks next ih =>
    obtain ⟨last, hruns, hlast⟩ := ih (spec.execute ex ticks o.world).1
      (o := { o with world := (spec.execute ex ticks o.world).2 }) h
    refine ⟨last, (Ledger.runs_of_silent (fun move hmove => ?_) count).append hruns, hlast⟩
    obtain ⟨sent, -, rfl⟩ := List.mem_map.mp hmove
    exact Move.silent_asked (List.cons_ne_nil i place).symm sent _
  | readBoard next ih => exact ih _ h
  | editBoard edit next ih =>
    exact ih (o := { o with world := { o.world with board := edit o.world.board } }) h

end

namespace Plan

variable {ex : Executor σ} {p q : Plan} {place : List ℕ}

/-- A leaf tells its counter to the executor, and counts the request if it is left running. -/
theorem counts_leaf {spec : NodeSpec} (hspec : spec.behavior = BuiltIn.script.behavior)
    (plans : List Plan) : (node spec plans).Counts ex [] := by
  rintro ⟨state, children⟩ w count ⟨_, hself, rfl⟩
  obtain rfl := Option.some.inj hself
  have hroutine : spec.behavior.routine = runScript := by rw [hspec]; rfl
  have hended : ∀ count status cursor children,
      (Ledger.atPlace []).Runs count [.ended [] status cursor children] count := fun count _ _ _ =>
    Ledger.runs_of_silent (List.forall_mem_singleton.mpr ⟨rfl, rfl⟩) count
  rw [moves_node]
  simp only [NodeSpec.step, hroutine, runScript, NodeSpec.view, tick, Progress.state]
  cases hcode : spec.activeCode? with
  | none =>
    refine ⟨0, .cons_untold rfl ?_, _, rfl, rfl⟩
    exact hended 0 _ _ _
  | some code =>
    have hsent : (spec.sent? state.counter w.board).toList =
        [⟨⟨code, spec.id, state.counter, (spec.parameters.resolve w.board spec.id).1⟩,
          (spec.parameters.resolve w.board spec.id).2⟩] := by
      rw [NodeSpec.sent?, hcode]
      rfl
    simp only [Routine.moves, Routine.run, hsent]
    refine ⟨_, .cons_untold rfl (.cons (fun count hcount => ?_) (hended _ _ _ _)), _, rfl, ?_⟩
    · exact (Option.some.inj hcount).symm
    · cases (spec.execute ex state.counter w).1 <;> rfl

/-- In every subtree the count of a leaf goes on as its counter does. -/
theorem counts_at (hq : p.at? place = some q)
    (hspec : q.spec.behavior = BuiltIn.script.behavior) : p.Counts ex place := by
  induction place generalizing p with
  | nil =>
    obtain rfl := Option.some.inj hq
    obtain ⟨spec, plans⟩ := p
    exact counts_leaf hspec plans
  | cons i place ih =>
    obtain ⟨spec, plans⟩ := p
    obtain ⟨r, hr, hrq⟩ := Option.bind_eq_some_iff.mp hq
    intro a w count h
    obtain ⟨state, children⟩ := a
    obtain ⟨next, hruns, hnext⟩ := Routine.runs_moves hr (ih hrq) spec
      (spec.behavior.routine (spec.view state (steppers ex plans).length))
      (o := ⟨state.cursor, state.counter, children, w⟩) (Progress.leavesOver_cons.mp h)
    rw [moves_node]
    refine ⟨next, ?_, Progress.leavesOver_cons.mpr hnext⟩
    have hbegan : (Ledger.atPlace (i :: place)).Silent (.began [] spec.activeCode?.isSome) :=
      ⟨rfl, rfl⟩
    exact (hruns.append (Ledger.runs_of_silent
      (List.forall_mem_singleton.mpr ⟨rfl, rfl⟩) next)).cons_silent hbegan

end Plan

end BehaviorTree
