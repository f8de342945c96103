import BehaviorTree.Proofs.BoardHistory
import BehaviorTree.Proofs.FreshRuns
import BehaviorTree.Proofs.SavedParameters

/-!
What a leaf is shown of its parameters, and who is on record for having looked. The parameters are
looked up one after the other, and each look at the blackboard makes a record; but no look changes
what a later one finds, so all of them are shown as the blackboard was. The record is made before
the code is run, whatever comes of that. A leaf without code does not look.
-/
namespace BehaviorTree

variable {σ : Type}

namespace Blackboard

def Uses (b : Blackboard) (node key : String) : Prop := node ∈ (b.users? key).getD []

def KeepsUsers (b c : Blackboard) : Prop := ∀ node key, b.Uses node key → c.Uses node key

theorem users?_track_of_ne (b : Blackboard) {k key : String} (h : k ≠ key) (node : String) :
    (b.track k node).users? key = b.users? key := by
  rw [users?, users?, track, Dict.get?_insert, if_neg (Ne.symm h)]

theorem uses_track {b : Blackboard} {k key node other : String} :
    (b.track k node).Uses other key ↔ b.Uses other key ∨ other = node ∧ k = key := by
  by_cases hk : k = key
  · subst hk
    have hbefore : b.Uses other k ↔ other ∈ Dict.keys ((b.users.get? k).getD Dict.empty) := by
      rw [Uses, users?]
      cases b.users.get? k <;> rfl
    rw [Uses, users?, track, Dict.get?_insert, if_pos rfl, hbefore]
    simp [NameSet.mem_keys_add, or_comm]
  · rw [Uses, users?_track_of_ne b hk]
    simp [Uses, hk]

end Blackboard

def Parameter.StandsFor (p : Parameter) (key : String) : Prop :=
  p.kind = .blackboardKey ∧ p.effective = some (Json.text key)

namespace ParameterSet

open Blackboard

def StandsFor (set : ParameterSet) (key : String) : Prop :=
  ∃ name p, Dict.get? set name = some p ∧ p.StandsFor key

def lookUp (node : String) (p : Parameter) (board : Blackboard) : Json × Blackboard :=
  match keyOf? p with
  | some key =>
    let (value, board) := board.getBy key node
    (value.getD Json.null, board)
  | none => (p.effective.getD Json.null, board)

/-- Each parameter is looked up on the board that the looks before it have left. -/
def lookUpAll (node : String) :
    List (String × Parameter) → Blackboard → List (String × Json) × Blackboard
  | [], board => ([], board)
  | (name, p) :: rest, board =>
    let (value, board) := lookUp node p board
    let (values, board) := lookUpAll node rest board
    ((name, value) :: values, board)

theorem data_lookUp (node : String) (p : Parameter) (board : Blackboard) :
    (lookUp node p board).2.data = board.data := by
  unfold lookUp
  split <;> rfl

theorem lookUp_fst (node : String) (p : Parameter) {board seen : Blackboard}
    (h : seen.data = board.data) : (lookUp node p seen).1 = resolved p board := by
  rw [lookUp, resolved]
  cases keyOf? p with
  | none => rfl
  | some key => simp only [Blackboard.getBy, Blackboard.get?, h]

theorem trackAll_cons (node : String) (e : String × Parameter) (rest : List (String × Parameter))
    (board : Blackboard) :
    trackAll node (e :: rest) board = trackAll node rest (lookUp node e.2 board).2 := by
  obtain ⟨name, p⟩ := e
  rw [trackAll, lookUp]
  cases keyOf? p <;> rfl

/-- No look changes what a later one finds: all are as if made on the board as it was. -/
theorem lookUpAll_eq (node : String) (entries : List (String × Parameter))
    {board seen : Blackboard} (h : seen.data = board.data) :
    lookUpAll node entries seen =
      (entries.map fun e => (e.1, resolved e.2 board), trackAll node entries seen) := by
  induction entries generalizing seen with
  | nil => rfl
  | cons e rest ih =>
    have hnext : (lookUp node e.2 seen).2.data = board.data := (data_lookUp node e.2 seen).trans h
    rw [lookUpAll, trackAll_cons]
    simp only [ih hnext, lookUp_fst node e.2 h, List.map_cons]

/-- The parameters of a node put it on record for exactly the keys that they stand for. -/
theorem uses_trackAll {node other key : String} {entries : List (String × Parameter)}
    {board : Blackboard} :
    (trackAll node entries board).Uses other key ↔
      board.Uses other key ∨ other = node ∧ ∃ e ∈ entries, keyOf? e.2 = some key := by
  induction entries generalizing board with
  | nil => simp [trackAll]
  | cons e rest ih =>
    rw [trackAll_cons, ih, lookUp]
    cases hkey : keyOf? e.2 with
    | none => simp [hkey]
    | some k =>
      change (board.track k node).Uses other key ∨ _ ↔ _
      rw [uses_track]
      simp only [List.mem_cons, exists_eq_or_imp, hkey, Option.some.injEq]
      tauto

theorem users?_trackAll {node key : String} {entries : List (String × Parameter)}
    (h : ∀ e ∈ entries, keyOf? e.2 ≠ some key) (board : Blackboard) :
    (trackAll node entries board).users? key = board.users? key := by
  induction entries generalizing board with
  | nil => rfl
  | cons e rest ih =>
    rw [trackAll_cons, ih (fun x hx => h x (List.mem_cons_of_mem _ hx)), lookUp]
    cases hkey : keyOf? e.2 with
    | none => rfl
    | some k =>
      refine users?_track_of_ne board (fun heq => ?_) node
      exact h e List.mem_cons_self (heq ▸ hkey)

/-- A set stands for a key if one of its parameters does. -/
theorem standsFor_iff {set : ParameterSet} {key : String} :
    set.StandsFor key ↔ ∃ e ∈ set.entries, keyOf? e.2 = some key := by
  constructor
  · rintro ⟨name, p, hp, hkey⟩
    exact ⟨(name, p), Dict.get?_eq_some.mp hp, keyOf?_eq_some.mpr hkey⟩
  · rintro ⟨⟨name, p⟩, he, hkey⟩
    exact ⟨name, p, Dict.get?_eq_some.mpr he, keyOf?_eq_some.mp hkey⟩

/-- What a node is shown of its parameters, and the board after it has looked. -/
structure Resolves (set : ParameterSet) (board : Blackboard) (node : String) (shown : Dict Json)
    (after : Blackboard) : Prop where
  names : shown.keys = Dict.keys set
  keyed : ∀ name p key, Dict.get? set name = some p → p.StandsFor key →
    shown.get? name = some ((board.get? key).getD Json.null)
  others : ∀ name p, Dict.get? set name = some p → (∀ key, ¬ p.StandsFor key) →
    shown.get? name = some (p.effective.getD Json.null)
  /-- Nothing else comes of looking one parameter up after the other. -/
  inOrder : lookUpAll node set.entries board = (shown.entries, after)
  values : after.data = board.data
  gained : ∀ key, set.StandsFor key →
    ∀ other, after.Uses other key ↔ board.Uses other key ∨ other = node
  kept : ∀ key, ¬ set.StandsFor key → after.users? key = board.users? key

/-- A node is shown each parameter for itself, on the board as it found it. -/
theorem resolves (set : ParameterSet) (board : Blackboard) (node : String) :
    set.Resolves board node (set.resolve board node).1 (set.resolve board node).2 where
  names := by simp [resolve, Dict.keys, Dict.map]
  keyed name p key hp hkey := by
    rw [get?_resolve, hp, Option.map_some, resolved, keyOf?_eq_some.mpr hkey]
  others name p hp hkey := by
    have hnone : keyOf? p = none := by
      refine Option.eq_none_iff_forall_ne_some.mpr fun key hsome => ?_
      exact hkey key (keyOf?_eq_some.mp hsome)
    rw [get?_resolve, hp, Option.map_some, resolved, hnone]
  inOrder := lookUpAll_eq node set.entries rfl
  values := data_trackAll node set.entries board
  gained key hkey other := by
    rw [resolve, uses_trackAll]
    simp [standsFor_iff.mp hkey]
  kept key hkey := by
    refine users?_trackAll (fun e he hsome => ?_) board
    exact hkey (standsFor_iff.mpr ⟨e, he, hsome⟩)

theorem keepsUsers_resolve (set : ParameterSet) (board : Blackboard) (node : String) :
    board.KeepsUsers (set.resolve board node).2 :=
  fun _ _ h => uses_trackAll.mpr (Or.inl h)

end ParameterSet

def Routine.EditsBy (P : (Blackboard → Blackboard) → Prop) : Routine → Prop
  | finish _ => True
  | tickChild _ next => ∀ status, (next status).EditsBy P
  | resetChild _ next => next.EditsBy P
  | setCursor _ next => next.EditsBy P
  | setCounter _ next => next.EditsBy P
  | runCode _ next => ∀ status, (next status).EditsBy P
  | readBoard next => ∀ b, (next b).EditsBy P
  | editBoard edit next => P edit ∧ next.EditsBy P

namespace Routine

variable {P Q : (Blackboard → Blackboard) → Prop} {r : Routine}

theorem editsBy_of_forall (h : ∀ edit, P edit) (r : Routine) : r.EditsBy P := by
  induction r with
  | finish status => exact trivial
  | tickChild i next ih => exact ih
  | resetChild i next ih => exact ih
  | setCursor i next ih => exact ih
  | setCounter n next ih => exact ih
  | runCode ticks next ih => exact ih
  | readBoard next ih => exact ih
  | editBoard edit next ih => exact ⟨h edit, ih⟩

/-- What keeps to a repertoire makes no edits, so all of them are of any kind. -/
theorem Within.editsBy {rep : Repertoire} (h : r.Within rep) : r.EditsBy P :=
  h.induction (fun _ => trivial) (fun _ _ ih => ih) (fun _ _ ih => ih) (fun _ _ ih => ih)
    (fun _ _ ih => ih) fun _ _ ih => ih

theorem EditsBy.imp (h : ∀ edit, P edit → Q edit) (hr : r.EditsBy P) : r.EditsBy Q := by
  induction r with
  | finish status => exact trivial
  | tickChild i next ih => exact fun status => ih status (hr status)
  | resetChild i next ih => exact ih hr
  | setCursor i next ih => exact ih hr
  | setCounter n next ih => exact ih hr
  | runCode ticks next ih => exact fun status => ih status (hr status)
  | readBoard next ih => exact fun b => ih b (hr b)
  | editBoard edit next ih => exact ⟨h edit hr.1, ih hr.2⟩

end Routine

/-- Neither the behavior of the node nor its code can undo what holds of the world. -/
structure NodeSpec.Maintains (L : World σ → Prop) (ex : Executor σ) (spec : NodeSpec) : Prop where
  edits : ∀ view, (spec.behavior.routine view).EditsBy fun edit =>
    ∀ w : World σ, L w → L { w with board := edit w.board }
  code : ∀ ticks w, L w → L (spec.execute ex ticks w).2

/-- What neither the node nor its children can undo holds after the routine. -/
theorem Routine.run_maintains {L : World σ → Prop} {ex : Executor σ} {spec : NodeSpec}
    {steps : List (Stepper σ)} (hspec : spec.Maintains L ex)
    (hsteps : ∀ step ∈ steps, ∀ a w, L w → L (step a w).2.2) (r : Routine)
    (hr : r.EditsBy fun edit => ∀ w : World σ, L w → L { w with board := edit w.board })
    {o : Ongoing σ}
    (h : L o.world) : L (r.run ex spec steps o).2.world := by
  induction r generalizing o with
  | finish status => exact h
  | tickChild j next ih =>
    refine ih _ (hr _) ?_
    split
    · next step child hstep _ => exact hsteps step (List.mem_of_getElem? hstep) child o.world h
    · exact h
  | resetChild j next ih => exact ih hr (o := o.resetChild j) h
  | setCursor j next ih => exact ih hr (o := { o with cursor := j }) h
  | setCounter count next ih => exact ih hr (o := { o with counter := count }) h
  | runCode ticks next ih =>
    exact ih _ (hr _) (o := { o with world := _ }) (hspec.code ticks o.world h)
  | readBoard next ih => exact ih _ (hr _) h
  | editBoard edit next ih => exact ih hr.2 (o := { o with world := _ }) (hr.1 o.world h)

/-- What no node can undo holds after the tick. -/
theorem Plan.tick_maintains {L : World σ → Prop} {ex : Executor σ} {p : Plan}
    (hp : p.All (·.Maintains L ex)) (a : Progress) {w : World σ} (h : L w) :
    L (p.tick ex a w).2.2 := by
  induction p generalizing a w with
  | node spec plans ih =>
    obtain ⟨state, children⟩ := a
    obtain ⟨here, below⟩ := hp
    refine Routine.run_maintains here (fun step hstep b v hv => ?_) _ (here.edits _)
      (o := ⟨state.cursor, state.counter, children, w⟩) h
    rw [steppers_eq_map] at hstep
    obtain ⟨q, hq, rfl⟩ := List.mem_map.mp hstep
    exact ih q hq (below q hq) b hv

/-- The request is made for the code of the node. It shows the parameters as they were looked up on
some blackboard, and the executor finds the blackboard as it was after that. -/
structure NodeSpec.Sends (spec : NodeSpec) (s : Sent) : Prop where
  code : spec.activeCode? = some s.request.code
  node : s.request.node = spec.id
  resolved : ∃ board, spec.parameters.resolve board spec.id = (s.request.params, s.board)

def Executor.KeepsUsers (ex : Executor σ) : Prop :=
  ∀ request (w : World σ), w.board.KeepsUsers (ex request w).2.board

/-- Every request comes from such a node, and the blackboard has since been left as is related to
what the executor found. -/
def SentBy (P : NodeSpec → Prop) (K : Blackboard → Blackboard → Prop)
    (w : World (σ × List Sent)) : Prop :=
  ∀ s ∈ w.memory.2, ∃ spec, P spec ∧ spec.Sends s ∧ K s.board w.board

/-- Running the code of a node adds a request of that node. -/
theorem sentBy_execute {P : NodeSpec → Prop} {K : Blackboard → Blackboard → Prop}
    (htrans : ∀ {a b c}, K a b → K b c → K a c)
    (hresolve : ∀ set board node, K board (ParameterSet.resolve set board node).2)
    {ex : Executor σ} (hex : ∀ request (w : World σ), K w.board (ex request w).2.board)
    {spec : NodeSpec}
    (hspec : P spec) (ticks : ℕ) {w : World (σ × List Sent)} (h : SentBy P K w) :
    SentBy P K (spec.execute ex.recording ticks w).2 := by
  unfold NodeSpec.execute
  cases hcode : spec.activeCode? with
  | none => exact h
  | some code =>
    let r := spec.parameters.resolve w.board spec.id
    let request : Request := ⟨code, spec.id, ticks, r.1⟩
    have hafter : K r.2 (ex request ⟨r.2, w.memory.1⟩).2.board := hex request ⟨r.2, w.memory.1⟩
    intro s hs
    rcases List.mem_append.mp hs with hs | hs
    · obtain ⟨other, hother, hsends, hK⟩ := h s hs
      exact ⟨other, hother, hsends, htrans (htrans hK (hresolve _ _ _)) hafter⟩
    · obtain rfl := List.mem_singleton.mp hs
      exact ⟨spec, hspec, ⟨hcode, rfl, w.board, rfl⟩, hafter⟩

namespace Forest

variable {f : Forest} {k : NodeKey}

/-- Every request in the report of a tick comes from a node of the subtree, with the parameters that
it was shown. -/
theorem Sound.sentBy_observe (hs : f.Sound) {K : Blackboard → Blackboard → Prop}
    (htrans : ∀ {a b c}, K a b → K b c → K a c)
    (hresolve : ∀ set board node, K board (ParameterSet.resolve set board node).2)
    {ex : Executor σ} (hex : ∀ request (w : World σ), K w.board (ex request w).2.board)
    (hedits : ∀ m ∈ f.subtree k, ∀ n, f.node? m = some n →
      ∀ view, (n.spec.behavior.routine view).EditsBy fun edit => ∀ b c, K b c → K b (edit c))
    (w : World σ) :
    ∀ s ∈ (f.observe ex k w).1.requests, ∃ m ∈ f.subtree k, ∃ n, f.node? m = some n ∧
      n.spec.Sends s ∧ K s.board (f.observe ex k w).1.board := by
  let P : NodeSpec → Prop := fun spec => ∃ m ∈ f.subtree k, ∃ n, f.node? m = some n ∧ n.spec = spec
  suffices hsent : SentBy P K (f.tick ex.recording k (w.withLog [])).2.2 by
    intro s hs
    obtain ⟨_, ⟨m, hm, n, hn, rfl⟩, hsends, hK⟩ := hsent s hs
    exact ⟨m, hm, n, hn, hsends, hK⟩
  unfold tick
  split
  · next p a hp _ =>
    refine p.tick_maintains (L := SentBy P K) (hs.plan_all (fun m hm n hn => ?_) hp) a
      (fun s hs => by cases hs)
    have hspec : P n.spec := ⟨m, hm, n, hn, rfl⟩
    refine ⟨fun view => (hedits m hm n hn view).imp fun edit hedit v hsent s hs => ?_,
      fun ticks v hsent => sentBy_execute (K := K) htrans hresolve hex hspec ticks hsent⟩
    obtain ⟨spec, hspec, hsends, hK⟩ := hsent s hs
    exact ⟨spec, hspec, hsends, hedit _ _ hK⟩
  · exact fun s hs => by cases hs

/-- Every request of a tick comes from a node of the subtree that has code, and it comes after the
parameters of the node have been looked up. -/
theorem Sound.requests_sent (hs : f.Sound) (ex : Executor σ) (w : World σ) :
    ∀ s ∈ (f.observe ex k w).1.requests, ∃ m ∈ f.subtree k, ∃ n, f.node? m = some n ∧
      n.spec.Sends s := by
  intro s hsent
  obtain ⟨m, hm, n, hn, hsends, -⟩ := hs.sentBy_observe (K := fun _ _ => True)
    (fun _ _ => trivial) (fun _ _ _ => trivial) (fun _ _ => trivial)
    (fun _ _ _ _ view => Routine.editsBy_of_forall (fun _ _ _ _ => trivial) _) w s hsent
  exact ⟨m, hm, n, hn, hsends⟩

/-- Among built-in nodes, and whatever the executor answers, the node of every request is on record
for the keys of its parameters when the tick has ended. -/
theorem Sound.requests_recorded (hs : f.Sound) (hkinds : ∀ m ∈ f.subtree k, ∃ kind, f.IsKind m kind)
    {ex : Executor σ} (hex : ex.KeepsUsers) (w : World σ) :
    ∀ s ∈ (f.observe ex k w).1.requests, ∃ m ∈ f.subtree k, ∃ n, f.node? m = some n ∧
      n.spec.Sends s ∧ ∀ key, n.spec.parameters.StandsFor key →
        (f.observe ex k w).1.board.Uses n.spec.id key := by
  have hedits : ∀ m ∈ f.subtree k, ∀ n, f.node? m = some n → ∀ view,
      (n.spec.behavior.routine view).EditsBy fun edit =>
        ∀ b c : Blackboard, b.KeepsUsers c → b.KeepsUsers (edit c) := by
    intro m hm n hn view
    obtain ⟨kind, node, hnode, hkind⟩ := hkinds m hm
    obtain rfl := Option.some.inj (hn.symm.trans hnode)
    rw [hkind]
    exact (kind.routine_within view).editsBy
  intro s hsent
  obtain ⟨m, hm, n, hn, hsends, hkept⟩ := hs.sentBy_observe (K := Blackboard.KeepsUsers)
    (fun hab hbc node key h => hbc node key (hab node key h)) ParameterSet.keepsUsers_resolve hex
    hedits w s hsent
  refine ⟨m, hm, n, hn, hsends, fun key hkey => hkept n.spec.id key ?_⟩
  obtain ⟨board, hboard⟩ := hsends.resolved
  have hresolves := n.spec.parameters.resolves board n.spec.id
  rw [hboard] at hresolves
  exact (hresolves.gained key hkey n.spec.id).mpr (Or.inr rfl)

end Forest

namespace Plan

variable {spec : NodeSpec}

/-- A leaf without code succeeds, and has looked nothing up. -/
theorem tick_of_no_code (hspec : spec.behavior = BuiltIn.script.behavior)
    (hcode : spec.activeCode? = none) (plans : List Plan) (ex : Executor σ) (a : Progress)
    (w : World σ) :
    ((node spec plans).tick ex a w).1 = .success ∧ ((node spec plans).tick ex a w).2.2 = w := by
  obtain ⟨state, children⟩ := a
  simp only [tick, NodeSpec.step, hspec, BuiltIn.behavior, BuiltIn.routine, runScript,
    NodeSpec.view, hcode]
  exact ⟨rfl, rfl⟩

/-- A leaf with code looks up its parameters and hands them over once. -/
theorem tick_of_code (hspec : spec.behavior = BuiltIn.script.behavior) {code : String}
    (hcode : spec.activeCode? = some code) (plans : List Plan) (ex : Executor σ) (a : Progress)
    (w : World σ) :
    let r := spec.parameters.resolve w.board spec.id
    let answer := ex ⟨code, spec.id, a.state.counter, r.1⟩ ⟨r.2, w.memory⟩
    ((node spec plans).tick ex a w).1 = Executor.outcome answer.1 ∧
      ((node spec plans).tick ex a w).2.2 = answer.2 := by
  obtain ⟨state, children⟩ := a
  simp only [tick, NodeSpec.step, hspec, BuiltIn.behavior, BuiltIn.routine, runScript,
    NodeSpec.view, hcode, Routine.run, NodeSpec.execute]
  exact ⟨rfl, rfl⟩

end Plan

theorem NodeSpec.activeCode?_eq_none {spec : NodeSpec}
    (h : ∀ code, spec.code = some code → Text.trim code.toList = []) : spec.activeCode? = none := by
  rw [activeCode?, Option.filter_eq_none_iff]
  intro code hcode
  simp [h code hcode]

theorem NodeSpec.activeCode?_eq_some {spec : NodeSpec} {code : String}
    (hcode : spec.code = some code)
    (h : Text.trim code.toList ≠ []) : spec.activeCode? = some code := by
  simp [activeCode?, hcode, h]

/-- A node is shown what its parameters stand for, and goes on record for the keys that they name
and for no others. A leaf with code does so right before the code is run, whatever comes of it; a
leaf without code leaves the world alone. So whatever is ticked, every request is made by a node
with code whose parameters have been looked up, and among built-in nodes the record outlasts the
tick if the executor leaves it alone. -/
theorem parameters_looked_up :
    (∀ (set : ParameterSet) board node,
      set.Resolves board node (set.resolve board node).1 (set.resolve board node).2) ∧
    (∀ spec : NodeSpec, spec.behavior = BuiltIn.script.behavior →
      ∀ plans (ex : Executor σ) a (w : World σ),
        let x := (Plan.node spec plans).tick ex a w
        ((∀ code, spec.code = some code → Text.trim code.toList = []) →
          x.1 = .success ∧ x.2.2 = w) ∧
        ∀ code, spec.code = some code → Text.trim code.toList ≠ [] →
          let r := spec.parameters.resolve w.board spec.id
          let answer := ex ⟨code, spec.id, a.state.counter, r.1⟩ ⟨r.2, w.memory⟩
          x.1 = Executor.outcome answer.1 ∧ x.2.2 = answer.2) ∧
    ∀ f : Forest, f.Reachable → ∀ k (ex : Executor σ) (w : World σ),
      ∀ s ∈ (f.observe ex k w).1.requests, ∃ m ∈ f.subtree k, ∃ n, f.node? m = some n ∧
        n.spec.Sends s ∧
        ((∀ j ∈ f.subtree k, ∃ kind, f.IsKind j kind) → ex.KeepsUsers →
          ∀ key, n.spec.parameters.StandsFor key →
            (f.observe ex k w).1.board.Uses n.spec.id key) := by
  refine ⟨ParameterSet.resolves, fun spec hspec plans ex a w => ⟨fun hblank => ?_, ?_⟩, ?_⟩
  · exact Plan.tick_of_no_code hspec (NodeSpec.activeCode?_eq_none hblank) plans ex a w
  · intro code hcode hblank
    exact Plan.tick_of_code hspec (NodeSpec.activeCode?_eq_some hcode hblank) plans ex a w
  · intro f hf k ex w s hs
    by_cases hcalm : (∀ j ∈ f.subtree k, ∃ kind, f.IsKind j kind) ∧ ex.KeepsUsers
    · obtain ⟨m, hm, n, hn, hsends, hrecord⟩ :=
        hf.sound.requests_recorded hcalm.1 hcalm.2 w s hs
      exact ⟨m, hm, n, hn, hsends, fun _ _ => hrecord⟩
    · obtain ⟨m, hm, n, hn, hsends⟩ := hf.sound.requests_sent ex w s hs
      exact ⟨m, hm, n, hn, hsends, fun hkinds hex => absurd ⟨hkinds, hex⟩ hcalm⟩

def seeker : NodeSpec :=
  { Forest.workerSpec .script "seek" with
    parameters := Dict.insert Dict.empty "target"
      { kind := .blackboardKey, value := some (Json.text "prey") } }

def hunt : Forest := (Forest.empty.add seeker).2

theorem hunt_reachable : hunt.Reachable := .tail .refl (.add seeker)

def huntReport : Report := (hunt.observe (Executor.null (σ := Unit)) 0 ⟨.empty, ()⟩).1

/-- Nobody runs its code, and there is no prey; but the seeker has looked for it. -/
theorem seeker_on_record : huntReport.status = .failure ∧
    huntReport.board.get? "prey" = none ∧ huntReport.board.Uses "seek" "prey" := by
  refine ⟨by rfl, by rfl, ?_⟩
  obtain ⟨s, hs⟩ : ∃ s, s ∈ huntReport.requests := ⟨_, List.mem_cons_self⟩
  obtain ⟨m, hm, n, hn, -, hrecord⟩ :=
    parameters_looked_up.2.2 hunt hunt_reachable 0 Executor.null ⟨.empty, ()⟩ s hs
  have hnode : hunt.node? 0 = some ⟨seeker, none, [], .fresh⟩ := by rfl
  obtain rfl : m = 0 := List.mem_singleton.mp hm
  obtain rfl := Option.some.inj (hn.symm.trans hnode)
  refine hrecord (fun j hj => ?_) (fun _ _ _ _ h => h) "prey" ⟨"target", _, by rfl, rfl, rfl⟩
  obtain rfl : j = 0 := List.mem_singleton.mp hj
  exact ⟨.script, _, hnode, rfl⟩

end BehaviorTree
