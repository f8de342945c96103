import BehaviorTree.Proofs.Repetition

/-!
Where a run goes on. Without parallels a subtree that is between two ticks has at most one place
where it will go on: a node that is not running has nothing left over in all of its subtree, and of
a running node only the child at its cursor can be running. Every tick keeps it that way. What is to
be shown differs between the kinds of nodes, and each kind has its own lemma here.
-/
namespace BehaviorTree

variable {σ : Type}

def Routine.comesTo (s : Status) : Routine → Status
  | .finish status => status
  | .tickChild _ next => (next s).comesTo s
  | .resetChild _ next => next.comesTo s
  | .setCursor _ next => next.comesTo s
  | .setCounter _ next => next.comesTo s
  | .runCode _ next => (next s).comesTo s
  | .readBoard next => (next .empty).comesTo s
  | .editBoard _ next => next.comesTo s

def Behavior.comesTo (b : Behavior) (childCount : ℕ) (s : Status) : Status :=
  (b.routine ⟨"", none, .empty, childCount, 0, 0⟩).comesTo s

def Behavior.signature (b : Behavior) : Category × List Status :=
  (b.category, [b.comesTo 0 .idle, b.comesTo 1 .success, b.comesTo 1 .failure, b.comesTo 1 .idle])

theorem BuiltIn.behavior_injective : Function.Injective BuiltIn.behavior := by
  intro kind other h
  have hsignature := congrArg Behavior.signature h
  revert hsignature
  cases kind <;> cases other <;> decide

/-- No node of the subtree is running or has anything left over for its next tick. -/
inductive Progress.Settled : Progress → Prop
  | node {state : RunState} {children : List Progress} (hstatus : state.status ≠ .running)
      (hcursor : state.cursor = 0) (hcounter : state.counter = 0)
      (hchildren : ∀ c ∈ children, Settled c) : Settled (.node state children)

theorem Plan.settled_fresh (p : Plan) : p.fresh.Settled := by
  induction p with
  | node spec plans ih =>
    rw [fresh, freshAll_eq_map]
    refine .node (by decide) rfl rfl fun c hc => ?_
    obtain ⟨p, hp, rfl⟩ := List.mem_map.mp hc
    exact ih p hp

/-- What a running node of a kind may have left over for its next tick. Only a repeater that will
tick its child again may have left it running, and a leaf never ticks a child. -/
def BuiltIn.Keeps (kind : BuiltIn) (spec : NodeSpec) (state : RunState)
    (children : List Progress) : Prop :=
  match kind with
  | .sequence | .selector =>
    state.counter = 0 ∧ ∃ c, children[state.cursor]? = some c ∧ c.state.status = .running
  | .parallel => False
  | .inverter | .untilSuccess | .untilFail | .start => state.cursor = 0 ∧ state.counter = 0
  | .repeater =>
    state.cursor = 0 ∧ (spec.repeatsForever = true ∧ state.counter = 0 ∨
      spec.repeatsForever = false ∧ state.counter < spec.repetitions ∧ children ≠ [])
  | .script => state.cursor = 0 ∧ ∀ c ∈ children, c.Settled

theorem BuiltIn.GoesRound.keeps_iff {kind : BuiltIn} {stop done : Status}
    (hkind : kind.GoesRound stop done) {spec : NodeSpec} {state : RunState}
    {children : List Progress} :
    kind.Keeps spec state children ↔
      state.counter = 0 ∧ ∃ c, children[state.cursor]? = some c ∧ c.state.status = .running := by
  cases hkind <;> rfl

namespace Plan

/-- The subtree goes on at one place at most: if its root is running, then below the child at the
cursor. -/
inductive Focused : Plan → Progress → Prop
  | settled {p : Plan} {a : Progress} (h : a.Settled) : Focused p a
  | running {spec : NodeSpec} {plans : List Plan} {state : RunState} {children : List Progress}
      {kind : BuiltIn} (hspec : spec.behavior = kind.behavior) (hstatus : state.status = .running)
      (hkeeps : kind.Keeps spec state children)
      (hothers : ∀ {i : ℕ} {c : Progress}, children[i]? = some c → i ≠ state.cursor → c.Settled)
      (hactive : ∀ {p : Plan} {c : Progress}, plans[state.cursor]? = some p →
        children[state.cursor]? = some c → Focused p c) :
      Focused (.node spec plans) (.node state children)

inductive Serial : Plan → Prop
  | node {spec : NodeSpec} {plans : List Plan} {kind : BuiltIn} (hkind : kind ≠ .parallel)
      (hspec : spec.behavior = kind.behavior) (hplans : ∀ p ∈ plans, Serial p) :
      Serial (.node spec plans)

def KeepsFocus (p : Plan) : Prop :=
  ∀ {σ : Type} (ex : Executor σ) {a : Progress} (w : World σ), p.Fits a → p.Focused a →
    p.Focused (p.tick ex a w).2.1

def KindKeepsFocus (kind : BuiltIn) : Prop :=
  ∀ {spec : NodeSpec} {plans : List Plan}, spec.behavior = kind.behavior →
    (∀ p ∈ plans, p.KeepsFocus) → (Plan.node spec plans).KeepsFocus

variable {p : Plan} {a : Progress} {spec : NodeSpec} {plans : List Plan} {state : RunState}
  {children : List Progress} {kind : BuiltIn}

/-- A focused subtree that is not running has nothing left over. -/
theorem Focused.settled_of_not_running (h : p.Focused a) (hstatus : a.state.status ≠ .running) :
    a.Settled := by
  cases h with
  | settled h => exact h
  | running _ hrunning => exact absurd hrunning hstatus

/-- The answer of a tick is the status that the root is left in. -/
theorem status_tick (ex : Executor σ) (p : Plan) (a : Progress) (w : World σ) :
    (p.tick ex a w).2.1.state.status = (p.tick ex a w).1 := by
  cases p
  cases a
  rfl

/-- Children of which only the one at an index may be running. -/
structure FocusedAt (plans : List Plan) (children : List Progress) (i : ℕ) : Prop where
  others : ∀ {j : ℕ} {c : Progress}, children[j]? = some c → j ≠ i → c.Settled
  active : ∀ {p : Plan} {c : Progress}, plans[i]? = some p → children[i]? = some c → p.Focused c

theorem focusedAt_of_settled (h : ∀ c ∈ children, c.Settled) (plans : List Plan) (i : ℕ) :
    FocusedAt plans children i :=
  ⟨fun hc _ => h _ (List.mem_of_getElem? hc), fun _ hc => .settled (h _ (List.mem_of_getElem? hc))⟩

/-- In a focused subtree only the child at the cursor may be running. -/
theorem Focused.focusedAt (h : Focused (.node spec plans) (.node state children)) :
    FocusedAt plans children state.cursor := by
  cases h with
  | settled h =>
    cases h with
    | node _ _ _ hchildren => exact focusedAt_of_settled hchildren plans _
  | running _ _ _ hothers hactive => exact ⟨hothers, hactive⟩

theorem Focused.keeps_of_running (h : Focused (.node spec plans) (.node state children))
    (hspec : spec.behavior = kind.behavior) (hstatus : state.status = .running) :
    kind.Keeps spec state children := by
  cases h with
  | settled h =>
    cases h with
    | node hended => exact absurd hstatus hended
  | running hspec' _ hkeeps _ _ =>
    obtain rfl := BuiltIn.behavior_injective (hspec.symm.trans hspec')
    exact hkeeps

/-- A node has nothing left over, or it has left over what its kind allows. -/
theorem Focused.settled_or_keeps (h : Focused (.node spec plans) (.node state children))
    (hspec : spec.behavior = kind.behavior) :
    (state.cursor = 0 ∧ state.counter = 0 ∧ ∀ c ∈ children, c.Settled) ∨
      kind.Keeps spec state children := by
  by_cases hstatus : state.status = .running
  · exact Or.inr (h.keeps_of_running hspec hstatus)
  · cases h.settled_of_not_running hstatus with
    | node _ hcursor hcounter hchildren => exact Or.inl ⟨hcursor, hcounter, hchildren⟩

/-- The child at the cursor exists if there is any child. -/
theorem Focused.cursor (h : Focused (.node spec plans) (.node state children)) :
    state.cursor = 0 ∨ state.cursor < children.length := by
  cases h with
  | settled h =>
    cases h with
    | node _ hcursor => exact Or.inl hcursor
  | @running _ _ _ _ kind _ _ hkeeps =>
    have hround : ∀ {stop done}, kind.GoesRound stop done →
        state.cursor = 0 ∨ state.cursor < children.length := by
      intro stop done hkind
      obtain ⟨-, c, hc, -⟩ := hkind.keeps_iff.mp hkeeps
      exact Or.inr (List.getElem?_eq_some_iff.mp hc).1
    cases kind with
    | sequence => exact hround .sequence
    | selector => exact hround .selector
    | parallel => exact hkeeps.elim
    | inverter => exact Or.inl hkeeps.1
    | repeater => exact Or.inl hkeeps.1
    | untilSuccess => exact Or.inl hkeeps.1
    | untilFail => exact Or.inl hkeeps.1
    | start => exact Or.inl hkeeps.1
    | script => exact Or.inl hkeeps.1

/-- A node is focused if its children are and the node agrees with its status. -/
theorem FocusedAt.focused (h : FocusedAt plans children state.cursor)
    (hspec : spec.behavior = kind.behavior)
    (hrunning : state.status = .running → kind.Keeps spec state children)
    (hended : state.status ≠ .running → (Progress.node state children).Settled) :
    Focused (.node spec plans) (.node state children) := by
  by_cases hstatus : state.status = .running
  · exact .running hspec hstatus (hrunning hstatus) h.others h.active
  · exact .settled (hended hstatus)

namespace FocusedAt

variable {i : ℕ} {before rest : List Progress} {ps qs : List Plan}

theorem cons_succ (h : FocusedAt plans children i) (p : Plan) (ha : a.Settled) :
    FocusedAt (p :: plans) (a :: children) (i + 1) where
  others {j c} hc hj := by
    cases j with
    | zero => exact Option.some.inj hc ▸ ha
    | succ j => exact h.others hc fun hji => hj (congrArg (· + 1) hji)
  active hp hc := h.active hp hc

theorem first (ha : p.Focused a) (hrest : ∀ c ∈ rest, c.Settled) (plans : List Plan) :
    FocusedAt (p :: plans) (a :: rest) 0 where
  others {j c} hc hj := by
    cases j with
    | zero => exact absurd rfl hj
    | succ j => exact hrest c (List.mem_of_getElem? hc)
  active hp hc := Option.some.inj hp ▸ Option.some.inj hc ▸ ha

theorem later (h : FocusedAt plans (a :: rest) 0) : ∀ c ∈ rest, c.Settled := by
  intro c hc
  obtain ⟨j, hj⟩ := List.mem_iff_getElem?.mp hc
  exact h.others (j := j + 1) hj (Nat.succ_ne_zero j)

theorem append (h : FocusedAt qs rest i) (hlen : ps.length = before.length)
    (hbefore : ∀ c ∈ before, c.Settled) :
    FocusedAt (ps ++ qs) (before ++ rest) (before.length + i) := by
  induction before generalizing ps with
  | nil =>
    obtain rfl := List.length_eq_zero_iff.mp hlen
    rwa [List.length_nil, Nat.zero_add]
  | cons a before ih =>
    obtain _ | ⟨p, ps⟩ := ps
    · simp at hlen
    rw [List.length_cons, Nat.add_right_comm]
    exact (ih (Nat.succ.inj hlen) fun c hc => hbefore c (List.mem_cons_of_mem _ hc)).cons_succ p
      (hbefore a List.mem_cons_self)

theorem of_append (hlen : ps.length = before.length)
    (h : FocusedAt (ps ++ qs) (before ++ rest) before.length) :
    (∀ c ∈ before, c.Settled) ∧ FocusedAt qs rest 0 := by
  refine ⟨fun c hc => ?_, fun {j c} hc hj => ?_, fun {p c} hp hc => ?_⟩
  · obtain ⟨j, hj⟩ := List.mem_iff_getElem?.mp hc
    have hlt : j < before.length := (List.getElem?_eq_some_iff.mp hj).1
    exact h.others ((List.getElem?_append_left hlt).trans hj) (Nat.ne_of_lt hlt)
  · refine h.others (j := before.length + j) ?_ (by omega)
    rwa [List.getElem?_append_right (Nat.le_add_right _ _), Nat.add_sub_cancel_left]
  · refine h.active ?_ ?_
    · rwa [← hlen, List.getElem?_append_right (Nat.le_refl _), Nat.sub_self]
    · rwa [List.getElem?_append_right (Nat.le_refl _), Nat.sub_self]

end FocusedAt

/-- A round that finds only its first child running leaves at most one child running: the one at
which it is suspended. -/
theorem sweep_focused {stop done : Status} (hall : ∀ p ∈ plans, p.KeepsFocus)
    (hfits : List.Forall₂ Fits plans children) (h : FocusedAt plans children 0)
    (hkind : kind.GoesRound stop done) (ex : Executor σ) (w : World σ) :
    let r := sweep stop done (steppers ex plans) children w
    FocusedAt plans r.children r.passed ∧
      (r.status ≠ .running → ∀ c ∈ r.children, c.Settled) ∧
      (r.status = .running → ∃ c, r.children[r.passed]? = some c ∧ c.state.status = .running) := by
  induction hfits generalizing w with
  | nil =>
    refine ⟨h, fun _ c hc => ?_, fun hrunning => absurd hrunning hkind.done_ne_running⟩
    simp [steppers, sweep_nil] at hc
  | @cons p c ps cs hpc hfits ih =>
    have hfirst : p.Focused (p.tick ex c w).2.1 :=
      hall p List.mem_cons_self ex w hpc (h.active rfl rfl)
    have hlater : ∀ d ∈ cs, d.Settled := h.later
    rw [steppers]
    by_cases hhalt : (p.tick ex c w).1 = stop ∨ (p.tick ex c w).1 = .running
    · rw [sweep_cons_of_halt _ _ hhalt]
      refine ⟨.first hfirst hlater ps, fun hended => ?_, fun hrunning => ?_⟩
      · have hsettled := hfirst.settled_of_not_running (by rwa [status_tick])
        exact List.forall_mem_cons.mpr ⟨hsettled, hlater⟩
      · exact ⟨_, rfl, by rwa [status_tick]⟩
    · have hsettled : (p.tick ex c w).2.1.Settled :=
        hfirst.settled_of_not_running (by rw [status_tick]; exact (not_or.mp hhalt).2)
      obtain ⟨hfocused, hended, hrunning⟩ := ih (fun q hq => hall q (List.mem_cons_of_mem _ hq))
        (focusedAt_of_settled hlater ps 0) (p.tick ex c w).2.2
      rw [sweep_cons_of_pass _ _ hhalt]
      exact ⟨hfocused.cons_succ p hsettled,
        fun h => List.forall_mem_cons.mpr ⟨hsettled, hended h⟩, hrunning⟩

/-- A round that has been resumed behind children with nothing left over. -/
theorem outcome_focused {stop done : Status} (hkind : kind.GoesRound stop done)
    (hspec : spec.behavior = kind.behavior) {ps qs : List Plan} {before rest : List Progress}
    (hlen : ps.length = before.length) (hbefore : ∀ c ∈ before, c.Settled)
    (hall : ∀ q ∈ qs, q.KeepsFocus) (hfits : List.Forall₂ Fits qs rest)
    (h : FocusedAt qs rest 0) (ex : Executor σ) (w : World σ) :
    Focused (.node spec (ps ++ qs))
      ((sweep stop done (steppers ex qs) rest w).outcome before 0).2.1 := by
  obtain ⟨hswept, hended, hrunning⟩ := sweep_focused hall hfits h hkind ex w
  simp only [Sweep.outcome]
  by_cases hstatus : (sweep stop done (steppers ex qs) rest w).status = .running
  · obtain ⟨c, hc, hcrunning⟩ := hrunning hstatus
    have hcursor : (before ++ (sweep stop done (steppers ex qs) rest w).children)[before.length +
        (sweep stop done (steppers ex qs) rest w).passed]? = some c := by
      rwa [List.getElem?_append_right (Nat.le_add_right _ _), Nat.add_sub_cancel_left]
    rw [if_pos hstatus]
    exact FocusedAt.focused (hswept.append hlen hbefore) hspec
      (fun _ => hkind.keeps_iff.mpr ⟨rfl, c, hcursor, hcrunning⟩) (fun h => absurd hstatus h)
  · rw [if_neg hstatus]
    have hsettled : ∀ c ∈ before ++ (sweep stop done (steppers ex qs) rest w).children,
        c.Settled := fun c hc => (List.mem_append.mp hc).elim (hbefore c) (hended hstatus c)
    exact .settled (.node hstatus rfl rfl hsettled)

theorem round_keepsFocus {stop done : Status} (hkind : kind.GoesRound stop done) :
    KindKeepsFocus kind := by
  intro spec plans hspec hall σ ex a w hfits h
  obtain ⟨state, children⟩ := a
  have hcounter : state.counter = 0 := by
    rcases h.settled_or_keeps hspec with ⟨-, hcounter, -⟩ | hkeeps
    · exact hcounter
    · exact (hkind.keeps_iff.mp hkeeps).1
  have hcursor := h.cursor
  have hfocused := h.focusedAt
  cases hfits with
  | node hforall =>
    have hlen := hforall.length_eq
    obtain ⟨ps, qs, rfl, hps⟩ := exists_split plans (i := state.cursor) (by omega)
    obtain ⟨before, rest, rfl, hbefore⟩ := exists_split children (i := state.cursor) (by omega)
    have hpassed : ps.length = before.length := hps.trans hbefore.symm
    have hrest : List.Forall₂ Fits qs rest := by
      have hdrop := List.forall₂_drop_append _ before rest hforall
      rwa [List.drop_left' hpassed] at hdrop
    have hnonempty : before = [] ∨ rest ≠ [] := by
      rw [← List.length_eq_zero_iff, ← List.length_pos_iff]
      rw [List.length_append] at hcursor
      omega
    rw [← hbefore] at hfocused
    obtain ⟨hsettled, hfirst⟩ := FocusedAt.of_append hpassed hfocused
    have hstep := NodeSpec.step_round ex hkind hspec (steppers ex ps) (steppers ex qs) before rest
      (by simp [steppers_eq_map, hpassed]) (by simp [steppers_eq_map, hrest.length_eq])
      hbefore.symm hnonempty w
    rw [tick, steppers_eq_map, List.map_append, ← steppers_eq_map, ← steppers_eq_map, hstep,
      hcounter]
    exact outcome_focused hkind hspec hpassed hsettled
      (fun q hq => hall q (List.mem_append_right _ hq)) hrest hfirst ex w

/-- A routine that ends once the only child has come to a status; it may reset the child. -/
inductive EndsAfter (s : Status) : Routine → Prop
  | finish {status : Status} (h : s = .running → status = .running) : EndsAfter s (.finish status)
  | reset (status : Status) : EndsAfter s (.resetChild 0 (.finish status))

/-- Where a routine ends with its child, the child stays focused. -/
theorem run_endsAfter {r : Routine} (hr : EndsAfter a.state.status r) (hfits : p.Fits a)
    (ha : p.Focused a) (ex : Executor σ) (spec : NodeSpec) (steps : List (Stepper σ))
    (cursor counter : ℕ) (rest : List Progress) (w : World σ) :
    ∃ status b, r.run ex spec steps ⟨cursor, counter, a :: rest, w⟩ =
        (status, ⟨cursor, counter, b :: rest, w⟩) ∧ p.Focused b ∧
      (status ≠ .running → b.Settled) := by
  cases hr with
  | @finish status h =>
    refine ⟨status, a, rfl, ha, fun hended => ha.settled_of_not_running fun hrunning => ?_⟩
    exact hended (h hrunning)
  | reset status =>
    have hsettled : a.reset.Settled := reset_eq_fresh hfits ▸ p.settled_fresh
    exact ⟨status, a.reset, rfl, .settled hsettled, fun _ => hsettled⟩

/-- The kinds that tick their only child once, and what they do then. -/
theorem routine_decorator (hkind : kind = .inverter ∨ kind = .untilSuccess ∨ kind = .untilFail ∨
    kind = .start) :
    ∃ alone next, (∀ view, kind.routine view = withChild view alone (.tickChild 0 next)) ∧
      alone ≠ .running ∧ ∀ s, EndsAfter s (next s) := by
  rcases hkind with rfl | rfl | rfl | rfl
  · exact ⟨.failure, _, fun _ => rfl, by decide, fun s => .finish fun h => by rw [h]; rfl⟩
  · refine ⟨.success, _, fun _ => rfl, by decide, fun s => ?_⟩
    cases s
    all_goals first | exact .finish (by decide) | exact .reset _
  · refine ⟨.success, _, fun _ => rfl, by decide, fun s => ?_⟩
    cases s
    all_goals first | exact .finish (by decide) | exact .reset _
  · exact ⟨.success, _, fun _ => rfl, by decide, fun s => .finish fun h => h⟩

/-- A node whose first child has been ticked, when its kind resumes nowhere else. -/
theorem focused_of_first {rest : List Progress} {status : Status} {counter : ℕ}
    (hspec : spec.behavior = kind.behavior) (ha : p.Focused a) (hrest : ∀ c ∈ rest, c.Settled)
    (hrunning : status = .running → kind.Keeps spec ⟨status, 0, counter⟩ (a :: rest))
    (hended : status ≠ .running → counter = 0 ∧ a.Settled) (plans : List Plan) :
    Focused (.node spec (p :: plans)) (.node ⟨status, 0, counter⟩ (a :: rest)) := by
  refine FocusedAt.focused (.first ha hrest plans) hspec hrunning fun hstatus => ?_
  obtain ⟨hcounter, hsettled⟩ := hended hstatus
  exact .node hstatus rfl hcounter (List.forall_mem_cons.mpr ⟨hsettled, hrest⟩)

/-- A tick of a node that has its first child ticked once. -/
theorem focused_of_endsAfter {rest : List Progress} {old : Status} {next : Status → Routine}
    (hspec : spec.behavior = kind.behavior)
    (hroutine : kind.routine (spec.view ⟨old, 0, 0⟩ (plans.length + 1)) = .tickChild 0 next)
    (hends : ∀ s, EndsAfter s (next s)) (hp : p.KeepsFocus) (hfits : p.Fits a) (ha : p.Focused a)
    (hrest : ∀ c ∈ rest, c.Settled)
    (hkeeps : ∀ b, kind.Keeps spec ⟨.running, 0, 0⟩ (b :: rest)) (ex : Executor σ) (w : World σ) :
    Focused (.node spec (p :: plans))
      (spec.step ex (steppers ex (p :: plans)) (.node ⟨old, 0, 0⟩ (a :: rest)) w).2.1 := by
  obtain ⟨status, b, hrun, hb, hended⟩ := run_endsAfter (hends _) (fits_tick ex hfits w)
    (hp ex w hfits ha) ex spec (steppers ex (p :: plans)) 0 0 rest (p.tick ex a w).2.2
  rw [status_tick] at hrun
  have htick : (Routine.tickChild 0 next).run ex spec (steppers ex (p :: plans))
      ⟨0, 0, a :: rest, w⟩ = (status, ⟨0, 0, b :: rest, (p.tick ex a w).2.2⟩) := hrun
  have hlen : (steppers ex (p :: plans)).length = plans.length + 1 := by simp [steppers_eq_map]
  have hstep : spec.step ex (steppers ex (p :: plans)) (.node ⟨old, 0, 0⟩ (a :: rest)) w =
      (status, .node ⟨status, 0, 0⟩ (b :: rest), (p.tick ex a w).2.2) := by
    simp only [NodeSpec.step, hspec, BuiltIn.behavior, hlen, hroutine, htick]
  rw [hstep]
  exact focused_of_first hspec hb hrest (fun h => h ▸ hkeeps b) (fun h => ⟨rfl, hended h⟩) plans

theorem decorator_keepsFocus (hkind : kind = .inverter ∨ kind = .untilSuccess ∨
    kind = .untilFail ∨ kind = .start) : KindKeepsFocus kind := by
  intro spec plans hspec hall σ ex a w hfits h
  obtain ⟨state, children⟩ := a
  have hstate : state.cursor = 0 ∧ state.counter = 0 := by
    rcases h.settled_or_keeps hspec with ⟨hcursor, hcounter, -⟩ | hkeeps
    · exact ⟨hcursor, hcounter⟩
    · rcases hkind with rfl | rfl | rfl | rfl <;> exact hkeeps
  obtain ⟨old, cursor, counter⟩ := state
  obtain ⟨rfl, rfl⟩ : cursor = 0 ∧ counter = 0 := hstate
  have hfocused : FocusedAt plans children 0 := h.focusedAt
  obtain ⟨alone, next, hroutine, halone, hends⟩ := routine_decorator hkind
  rw [tick]
  cases hfits with
  | node hforall =>
    cases hforall with
    | nil =>
      simp only [NodeSpec.step, steppers, hspec, BuiltIn.behavior, hroutine]
      exact .settled (.node halone rfl rfl fun c hc => by cases hc)
    | cons hpa _ =>
      refine focused_of_endsAfter hspec ((hroutine _).trans (if_neg (Nat.succ_ne_zero _))) hends
        (hall _ List.mem_cons_self) hpa (hfocused.active rfl rfl) hfocused.later (fun b => ?_) ex w
      rcases hkind with rfl | rfl | rfl | rfl <;> exact ⟨rfl, rfl⟩

theorem rerun_focused (hp : p.KeepsFocus) (ex : Executor σ) {left : ℕ} (hfits : p.Fits a)
    (ha : p.Focused a) (hleft : left = 0 → a.Settled) (w : World σ) :
    let r := rerun (p.tick ex) left a w
    ∃ b, r.children = [b] ∧ p.Focused b ∧ (r.status ≠ .running → b.Settled) ∧
      (r.status = .running → r.passed < left) := by
  induction left generalizing a w with
  | zero => exact ⟨a, rfl, ha, fun _ => hleft rfl, fun h => by cases h⟩
  | succ left ih =>
    have hnext := hp ex w hfits ha
    have hfits' : p.Fits (p.tick ex a w).2.1 := fits_tick ex hfits w
    have hreset : (p.tick ex a w).2.1.reset.Settled := reset_eq_fresh hfits' ▸ p.settled_fresh
    by_cases hrunning : (p.tick ex a w).1 = .running
    · rw [rerun_of_running left hrunning]
      exact ⟨_, rfl, hnext, fun h => absurd rfl h, fun _ => Nat.succ_pos left⟩
    by_cases hfailure : (p.tick ex a w).1 = .failure
    · rw [rerun_of_failure left hfailure]
      exact ⟨_, rfl, .settled hreset, fun _ => hreset, fun h => by cases h⟩
    · rw [rerun_of_pass left (not_or.mpr ⟨hfailure, hrunning⟩)]
      obtain ⟨b, hb, hfocused, hended, hpassed⟩ := ih (fits_reset hfits') (.settled hreset)
        (fun _ => hreset) (p.tick ex a w).2.2
      exact ⟨b, hb, hfocused, hended, fun h => Nat.succ_lt_succ (hpassed h)⟩

theorem repeatForever_endsAfter (s : Status) :
    EndsAfter s (if s.isTerminal then .resetChild 0 (.finish .running) else .finish .running) := by
  split
  · exact .reset _
  · exact .finish fun _ => rfl

/-- A tick of a bounded repeater. When no repetition is left, its child is not ticked, so the child
must not be running then. -/
theorem focused_of_rerun {rest : List Progress} {old : Status} {counter : ℕ}
    (hspec : spec.behavior = BuiltIn.repeater.behavior) (hbounded : ¬ spec.repeatsForever = true)
    (hp : p.KeepsFocus) (hfits : p.Fits a) (ha : p.Focused a) (hrest : ∀ c ∈ rest, c.Settled)
    (hleft : spec.repetitions - counter = 0 → a.Settled) (ex : Executor σ) (w : World σ) :
    Focused (.node spec (p :: plans))
      (spec.step ex (steppers ex (p :: plans)) (.node ⟨old, 0, counter⟩ (a :: rest)) w).2.1 := by
  obtain ⟨b, hchildren, hb, hended, hpassed⟩ := rerun_focused hp ex hfits ha hleft w
  have hlen : (steppers ex (p :: plans)).length = plans.length + 1 := by simp [steppers_eq_map]
  have hroutine := routine_repeater spec ⟨old, 0, counter⟩ plans.length
  rw [if_neg hbounded, ← hspec, ← hlen] at hroutine
  have hrun := run_repeatFrom ex spec (p.tick ex) (steppers ex plans)
    (spec.repetitions - counter) counter 0 a rest w
  simp only [hchildren, List.singleton_append] at hrun
  simp only [NodeSpec.step, hroutine]
  rw [steppers, hrun]
  refine focused_of_first hspec hb hrest (fun hrunning => ?_) (fun hstatus => ?_) plans
  · have hlt := hpassed hrunning
    have hcounter : counter + (rerun (p.tick ex) (spec.repetitions - counter) a w).passed <
        spec.repetitions := by omega
    rw [if_pos hrunning]
    exact ⟨rfl, Or.inr ⟨Bool.eq_false_iff.mpr hbounded, hcounter, List.cons_ne_nil _ _⟩⟩
  · exact ⟨if_neg hstatus, hended hstatus⟩

/-- A repeater keeps its focus through all the restarts of its child. -/
theorem repeater_keepsFocus : KindKeepsFocus .repeater := by
  intro spec plans hspec hall σ ex a w hfits h
  obtain ⟨state, children⟩ := a
  have hkeeps := h.settled_or_keeps hspec
  obtain ⟨old, cursor, counter⟩ := state
  obtain rfl : cursor = 0 := by
    rcases hkeeps with ⟨hcursor, -⟩ | hkeeps
    · exact hcursor
    · exact hkeeps.1
  have hfocused : FocusedAt plans children 0 := h.focusedAt
  rw [tick]
  cases hfits with
  | node hforall =>
    cases hforall with
    | nil =>
      obtain rfl : counter = 0 := by
        rcases hkeeps with ⟨-, hcounter, -⟩ | ⟨-, ⟨-, hcounter⟩ | ⟨-, -, hnil⟩⟩
        · exact hcounter
        · exact hcounter
        · exact absurd rfl hnil
      have hended : Status.success ≠ .running := by decide
      simp only [NodeSpec.step, steppers, hspec, BuiltIn.behavior, BuiltIn.routine]
      exact .settled (.node hended rfl rfl fun c hc => by cases hc)
    | @cons p a plans rest hpa _ =>
      have hp : p.KeepsFocus := hall p List.mem_cons_self
      have ha : p.Focused a := hfocused.active rfl rfl
      by_cases hforever : spec.repeatsForever = true
      · obtain rfl : counter = 0 := by
          rcases hkeeps with ⟨-, hcounter, -⟩ | ⟨-, ⟨-, hcounter⟩ | ⟨hbounded, -⟩⟩
          · exact hcounter
          · exact hcounter
          · exact absurd (hforever.symm.trans hbounded) (by decide)
        have hroutine := routine_repeater spec ⟨old, 0, 0⟩ plans.length
        rw [if_pos hforever] at hroutine
        exact focused_of_endsAfter hspec hroutine repeatForever_endsAfter hp hpa ha hfocused.later
          (fun b => ⟨rfl, Or.inl ⟨hforever, rfl⟩⟩) ex w
      · have hleft : spec.repetitions - counter = 0 → a.Settled := by
          intro hleft
          rcases hkeeps with ⟨-, -, hchildren⟩ | ⟨-, ⟨hforever', -⟩ | ⟨-, hlt, -⟩⟩
          · exact hchildren a List.mem_cons_self
          · exact absurd hforever' hforever
          · exact absurd hleft (Nat.sub_ne_zero_of_lt hlt)
        exact focused_of_rerun hspec hforever hp hpa ha hfocused.later hleft ex w

theorem script_keepsFocus : KindKeepsFocus .script := by
  intro spec plans hspec _ σ ex a w _ h
  obtain ⟨state, children⟩ := a
  have hkeeps : state.cursor = 0 ∧ ∀ c ∈ children, c.Settled := by
    rcases h.settled_or_keeps hspec with ⟨hcursor, -, hchildren⟩ | hkeeps
    · exact ⟨hcursor, hchildren⟩
    · exact hkeeps
  obtain ⟨hcursor, hchildren⟩ := hkeeps
  rw [tick]
  simp only [NodeSpec.step, hspec, BuiltIn.behavior, BuiltIn.routine, runScript]
  cases (spec.view state (steppers ex plans).length).code with
  | none =>
    have hended : Status.success ≠ .running := by decide
    exact .settled (.node hended hcursor rfl hchildren)
  | some code =>
    simp only [Routine.run]
    refine FocusedAt.focused (focusedAt_of_settled hchildren plans _) hspec
      (fun _ => ⟨hcursor, hchildren⟩) fun hended => ?_
    exact .node hended hcursor (if_neg hended) hchildren

/-- Every built-in kind but the parallel keeps its focus. -/
theorem kindKeepsFocus (hkind : kind ≠ .parallel) : KindKeepsFocus kind := by
  cases kind with
  | sequence => exact round_keepsFocus .sequence
  | selector => exact round_keepsFocus .selector
  | parallel => exact absurd rfl hkind
  | inverter => exact decorator_keepsFocus (Or.inl rfl)
  | repeater => exact repeater_keepsFocus
  | untilSuccess => exact decorator_keepsFocus (Or.inr (Or.inl rfl))
  | untilFail => exact decorator_keepsFocus (Or.inr (Or.inr (Or.inl rfl)))
  | start => exact decorator_keepsFocus (Or.inr (Or.inr (Or.inr rfl)))
  | script => exact script_keepsFocus

/-- A serial subtree is focused after every tick if it was before. -/
theorem Serial.keepsFocus (h : p.Serial) : p.KeepsFocus := by
  induction p with
  | node spec plans ih =>
    cases h with
    | node hkind hspec hplans =>
      exact kindKeepsFocus hkind hspec fun p hp => ih p hp (hplans p hp)

end Plan

end BehaviorTree
