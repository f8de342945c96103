import BehaviorTree.Proofs.SavedParameters

/-!
Assigning values and validating a set come to the same question: whether a value, or its absence,
suits a parameter. A set is valid if what is in effect in each of its parameters suits it. An
assignment lets only what suits take effect, so a valid set stays valid whatever is assigned.
-/
namespace BehaviorTree

variable {p : Parameter} {set : ParameterSet} {name source : String} {kind : ParamKind}
variable {value : Option Json} {e : ParameterError}

namespace Parameter

/-- A rule as it is written can be read, and it lets a value pass. A key of the blackboard passes
every rule but `required` unseen. -/
def Passes (kind : ParamKind) (value : Option Json) (source : String) : Prop :=
  ∃ rule, RuleText.read? source = some rule ∧
    (kind = .blackboardKey ∧ rule ≠ .required ∨ rule.holds value = true)

/-- What is wrong with a rule or with a value in view of it. -/
inductive Fault (name : String) (kind : ParamKind) (value : Option Json) (source : String) :
    ParameterError → Prop where
  | unreadable (h : RuleText.read? source = none) :
    Fault name kind value source (.invalidRule source)
  | violated {rule : Rule} (h : RuleText.read? source = some rule)
    (hlooks : kind ≠ .blackboardKey ∨ rule = .required) (hholds : rule.holds value = false) :
    Fault name kind value source (.ruleViolated name source)

/-- A value, or its absence, is of the kind of a parameter and passes all its rules. -/
structure Suits (p : Parameter) (value : Option Json) : Prop where
  accepted : ∀ v, value = some v → p.kind.accepts v = true
  passes : ∀ source ∈ p.rules, Passes p.kind value source

/-- Why a value does not suit a parameter: its kind, or else the first rule at fault. -/
inductive Refuses (p : Parameter) (name : String) (value : Option Json) :
    ParameterError → Prop where
  | kind {v : Json} (hvalue : value = some v) (h : p.kind.accepts v = false) :
    Refuses p name value (.typeMismatch name p.kind)
  | rule {before after : List String} {source : String} {e : ParameterError}
    (haccepted : ∀ v, value = some v → p.kind.accepts v = true)
    (hrules : p.rules = before ++ source :: after)
    (hbefore : ∀ s ∈ before, Passes p.kind value s) (h : Fault name p.kind value source e) :
    Refuses p name value e

theorem Fault.not_passes (h : Fault name kind value source e) : ¬ Passes kind value source := by
  rintro ⟨rule, hread, hpass⟩
  cases h with
  | unreadable hnone => simp [hnone] at hread
  | violated hsome hlooks hholds =>
    obtain rfl := Option.some.inj (hsome.symm.trans hread)
    rcases hpass with ⟨hkind, hrule⟩ | hpass
    · exact hlooks.elim (fun hne => hne hkind) hrule
    · simp [hholds] at hpass

/-- A rule lets a value pass, or there is something wrong with one of them. -/
theorem passes_or_fault (name : String) (kind : ParamKind) (value : Option Json)
    (source : String) : Passes kind value source ∨ ∃ e, Fault name kind value source e := by
  cases hread : RuleText.read? source with
  | none => exact Or.inr ⟨_, .unreadable hread⟩
  | some rule =>
    by_cases hlooks : kind ≠ .blackboardKey ∨ rule = .required
    · cases hholds : rule.holds value with
      | true => exact Or.inl ⟨rule, hread, Or.inr hholds⟩
      | false => exact Or.inr ⟨_, .violated hread hlooks hholds⟩
    · rw [not_or, not_not] at hlooks
      exact Or.inl ⟨rule, hread, Or.inl hlooks⟩

theorem checkRules_of_passes (h : Passes kind value source) (rest : List String) :
    checkRules name kind value (source :: rest) = checkRules name kind value rest := by
  obtain ⟨rule, hread, hpass⟩ := h
  have hcond : ¬ ((kind ≠ .blackboardKey ∨ rule = .required) ∧ rule.holds value = false) := by
    rintro ⟨hlooks, hholds⟩
    have hfault : Fault name kind value source (.ruleViolated name source) :=
      .violated hread hlooks hholds
    exact hfault.not_passes ⟨rule, hread, hpass⟩
  simp only [checkRules, hread, if_neg hcond]

theorem checkRules_of_fault (h : Fault name kind value source e) (rest : List String) :
    checkRules name kind value (source :: rest) = .error e := by
  cases h with
  | unreadable hnone => simp only [checkRules, hnone]
  | violated hsome hlooks hholds => simp only [checkRules, hsome, if_pos (And.intro hlooks hholds)]

/-- The rules are satisfied if the value passes each of them. -/
theorem checkRules_eq_ok_iff {rules : List String} : checkRules name kind value rules = .ok () ↔
    ∀ source ∈ rules, Passes kind value source := by
  induction rules with
  | nil => simp [checkRules]
  | cons source rest ih =>
    rw [List.forall_mem_cons]
    rcases passes_or_fault name kind value source with hpass | ⟨e, hfault⟩
    · rw [checkRules_of_passes hpass, ih]
      exact (and_iff_right hpass).symm
    · simp [checkRules_of_fault hfault, hfault.not_passes]

/-- What is told of a violation is told of the first rule at fault. -/
theorem checkRules_eq_error_iff {rules : List String} :
    checkRules name kind value rules = .error e ↔ ∃ before source after,
      rules = before ++ source :: after ∧ (∀ s ∈ before, Passes kind value s) ∧
        Fault name kind value source e := by
  constructor
  · intro h
    induction rules with
    | nil => cases h
    | cons source rest ih =>
      rcases passes_or_fault name kind value source with hpass | ⟨f, hfault⟩
      · rw [checkRules_of_passes hpass] at h
        obtain ⟨before, first, after, rfl, hbefore, hfault⟩ := ih h
        exact ⟨source :: before, first, after, rfl,
          List.forall_mem_cons.mpr ⟨hpass, hbefore⟩, hfault⟩
      · rw [checkRules_of_fault hfault] at h
        cases h
        exact ⟨[], source, rest, rfl, nofun, hfault⟩
  · rintro ⟨before, source, after, rfl, hbefore, hfault⟩
    induction before with
    | nil => exact checkRules_of_fault hfault after
    | cons s before ih =>
      obtain ⟨hpass, hrest⟩ := List.forall_mem_cons.mp hbefore
      rw [List.cons_append, checkRules_of_passes hpass]
      exact ih hrest

theorem check_of_accepted (h : ∀ v, value = some v → p.kind.accepts v = true) :
    p.check name value = checkRules name p.kind value p.rules := by
  cases value with
  | none => rfl
  | some v => simp [check, h v rfl]

theorem check_of_kind {v : Json} (h : p.kind.accepts v = false) :
    p.check name (some v) = .error (.typeMismatch name p.kind) := by
  simp [check, h]

theorem accepted_or_not (kind : ParamKind) (value : Option Json) :
    (∀ v, value = some v → kind.accepts v = true) ∨
      ∃ v, value = some v ∧ kind.accepts v = false := by
  by_cases h : ∀ v, value = some v → kind.accepts v = true
  · exact Or.inl h
  · push Not at h
    obtain ⟨v, hv, hkind⟩ := h
    exact Or.inr ⟨v, hv, Bool.eq_false_iff.mpr hkind⟩

/-- The check lets exactly the suitable values pass. -/
theorem check_eq_ok_iff : p.check name value = .ok () ↔ p.Suits value := by
  rcases accepted_or_not p.kind value with haccepted | ⟨v, rfl, hkind⟩
  · rw [check_of_accepted haccepted, checkRules_eq_ok_iff]
    exact ⟨fun h => ⟨haccepted, h⟩, Suits.passes⟩
  · rw [check_of_kind hkind]
    refine ⟨nofun, fun h => ?_⟩
    simp [h.accepted v rfl] at hkind

theorem check_eq_error_iff : p.check name value = .error e ↔ p.Refuses name value e := by
  constructor
  · intro h
    rcases accepted_or_not p.kind value with haccepted | ⟨v, rfl, hkind⟩
    · rw [check_of_accepted haccepted, checkRules_eq_error_iff] at h
      obtain ⟨before, source, after, hrules, hbefore, hfault⟩ := h
      exact .rule haccepted hrules hbefore hfault
    · rw [check_of_kind hkind] at h
      cases h
      exact .kind rfl hkind
  · intro h
    cases h with
    | kind hvalue hkind => rw [hvalue, check_of_kind hkind]
    | rule haccepted hrules hbefore hfault =>
      rw [check_of_accepted haccepted, checkRules_eq_error_iff]
      exact ⟨_, _, _, hrules, hbefore, hfault⟩

theorem Refuses.ne_unknown (h : p.Refuses name value e) (n : String) : e ≠ .unknown n := by
  cases h with
  | kind => exact nofun
  | rule _ _ _ hfault => cases hfault <;> exact nofun

/-- A missing value passes every rule that can be read, except `required`. -/
theorem passes_none_iff : Passes kind none source ↔
    ∃ rule, RuleText.read? source = some rule ∧ rule ≠ .required := by
  simp only [Passes, Rule.holds, decide_eq_true_eq]
  refine exists_congr fun rule => and_congr_right fun _ => ?_
  exact ⟨fun h => h.elim And.right id, Or.inr⟩

end Parameter

namespace ParameterSet

open Parameter

def attempt (set : ParameterSet) (name : String) (v : Json) :
    Except ParameterError Unit × ParameterSet :=
  match set.assign name v with
  | .ok later => (.ok (), later)
  | .error e => (.error e, set)

def attemptAll (set : ParameterSet) (requests : List (String × Json)) : ParameterSet :=
  requests.foldl (fun set request => (set.attempt request.1 request.2).2) set

theorem attempt_of_undefined (h : Dict.get? set name = none) (v : Json) :
    (set.attempt name v).1 = .error (.unknown name) := by
  simp [attempt, assign, h]

theorem attempt_of_defined (h : Dict.get? set name = some p) (v : Json) :
    (set.attempt name v).1 = p.check name (some v) := by
  simp only [attempt, assign, h]
  cases p.check name (some v) <;> rfl

/-- A refused value leaves the set as it is. -/
theorem attempt_of_error {v : Json} (h : (set.attempt name v).1 = .error e) :
    (set.attempt name v).2 = set := by
  unfold attempt at h ⊢
  cases hassign : set.assign name v with
  | ok later => simp [hassign] at h
  | error e => rfl

/-- An accepted value suits its parameter and is assigned to it alone. -/
theorem attempt_of_ok {v : Json} (h : (set.attempt name v).1 = .ok ()) :
    ∃ p, Dict.get? set name = some p ∧ p.Suits (some v) ∧
      (set.attempt name v).2 = Dict.insert set name { p with value := some v } := by
  unfold attempt at h ⊢
  cases hassign : set.assign name v with
  | ok later =>
    obtain ⟨p, hp, hcheck, hlater⟩ := assign_eq_ok hassign
    exact ⟨p, hp, check_eq_ok_iff.mp hcheck, hlater⟩
  | error e => simp [hassign] at h

structure Attempted (set : ParameterSet) (name : String) (v : Json) : Prop where
  unknown : ∀ n, (set.attempt name v).1 = .error (.unknown n) ↔
    n = name ∧ Dict.get? set name = none
  accepted : ∀ p, Dict.get? set name = some p →
    ((set.attempt name v).1 = .ok () ↔ p.Suits (some v))
  refused : ∀ p, Dict.get? set name = some p → ∀ e,
    ((set.attempt name v).1 = .error e ↔ p.Refuses name (some v) e)
  unchanged : ∀ e, (set.attempt name v).1 = .error e → (set.attempt name v).2 = set
  changed : (set.attempt name v).1 = .ok () → ∀ other, Dict.get? (set.attempt name v).2 other =
    (Dict.get? set other).map fun p => if other = name then { p with value := some v } else p

theorem attempted (set : ParameterSet) (name : String) (v : Json) : Attempted set name v where
  unknown n := by
    cases hp : Dict.get? set name with
    | none => simp [attempt_of_undefined hp, eq_comm]
    | some p =>
      rw [attempt_of_defined hp, check_eq_error_iff]
      exact ⟨fun h => absurd rfl (h.ne_unknown n), fun h => by simp at h⟩
  accepted p hp := by rw [attempt_of_defined hp, check_eq_ok_iff]
  refused p hp e := by rw [attempt_of_defined hp, check_eq_error_iff]
  unchanged _ := attempt_of_error
  changed h other := by
    obtain ⟨p, hp, -, hlater⟩ := attempt_of_ok h
    rw [hlater, Dict.get?_insert]
    by_cases hname : other = name
    · simp [hname, hp]
    · simp [hname]

def Valid (set : ParameterSet) : Prop :=
  ∀ name p, Dict.get? set name = some p → p.Suits p.effective

theorem validateEntries_eq_ok_iff {entries : List (String × Parameter)} :
    validateEntries entries = .ok () ↔ ∀ e ∈ entries, e.2.Suits e.2.effective := by
  induction entries with
  | nil => simp [validateEntries]
  | cons entry rest ih =>
    obtain ⟨name, p⟩ := entry
    have hcheck : p.check name p.effective = .ok () ↔ p.Suits p.effective := check_eq_ok_iff
    rw [List.forall_mem_cons, ← ih, ← hcheck, validateEntries]
    cases p.check name p.effective <;> simp [bind, Except.bind]

theorem validate_eq_ok_iff : set.validate = .ok () ↔ set.Valid := by
  rw [validate, validateEntries_eq_ok_iff]
  exact ⟨fun h name p hp => h (name, p) (Dict.get?_eq_some.mp hp),
    fun h e he => h e.1 e.2 (Dict.get?_eq_some.mpr he)⟩

/-- An assignment either leaves a set alone or puts what suits into effect. -/
theorem Valid.attempt (h : set.Valid) (name : String) (v : Json) :
    (set.attempt name v).2.Valid := by
  cases hanswer : (set.attempt name v).1 with
  | error e => rwa [attempt_of_error hanswer]
  | ok u =>
    obtain ⟨p, hp, hsuits, hlater⟩ := attempt_of_ok hanswer
    intro other q hq
    rw [hlater, Dict.get?_insert] at hq
    split_ifs at hq
    · obtain rfl := Option.some.inj hq
      exact ⟨hsuits.accepted, hsuits.passes⟩
    · exact h other q hq

/-- A valid set stays valid, whatever is assigned. -/
theorem Valid.attemptAll (h : set.Valid) (requests : List (String × Json)) :
    (set.attemptAll requests).Valid := by
  induction requests generalizing set with
  | nil => exact h
  | cons request rest ih => exact ih (h.attempt request.1 request.2)

theorem valid_iff : set.Valid ↔ ∀ name p, Dict.get? set name = some p →
    (∀ v, p.effective = some v → (set.attempt name v).1 = .ok ()) ∧
      (p.effective = none → ∀ source ∈ p.rules, ∃ rule,
        RuleText.read? source = some rule ∧ rule ≠ .required) := by
  refine forall_congr' fun name => forall_congr' fun p => forall_congr' fun hp => ?_
  cases heffective : p.effective with
  | none =>
    have hnone : p.Suits none ↔ ∀ source ∈ p.rules, Passes p.kind none source :=
      ⟨Suits.passes, fun h => ⟨nofun, h⟩⟩
    simp [hnone, passes_none_iff]
  | some v => simp [attempt_of_defined hp, check_eq_ok_iff]

/-- An assignment fails for an unknown name, and otherwise succeeds exactly if the value suits the
parameter; only then does it change anything, and only that value. A set is valid exactly if it
would take again every value that is in effect, and misses no required one. It stays so through
all assignments, taken or refused. -/
theorem assign_and_validate (set : ParameterSet) :
    (∀ name v, Attempted set name v) ∧
      (set.validate = .ok () ↔ ∀ name p, Dict.get? set name = some p →
        (∀ v, p.effective = some v → (set.attempt name v).1 = .ok ()) ∧
          (p.effective = none → ∀ source ∈ p.rules, ∃ rule,
            RuleText.read? source = some rule ∧ rule ≠ .required)) ∧
      (set.validate = .ok () → ∀ requests, (set.attemptAll requests).validate = .ok ()) := by
  refine ⟨attempted set, ?_, fun h requests => ?_⟩
  · rw [validate_eq_ok_iff, valid_iff]
  · rw [validate_eq_ok_iff] at h ⊢
    exact h.attemptAll requests

def gear : Parameter where
  kind := .string
  default := some (.leaf (.text "low"))
  rules := ["required", "one_of(low, high)"]

def gearbox : ParameterSet := Dict.insert Dict.empty "gear" gear

theorem gearbox_valid : gearbox.Valid := by
  have hrequired : Passes gear.kind gear.effective "required" := ⟨.required, rfl, Or.inr rfl⟩
  have hchoice : Passes gear.kind gear.effective "one_of(low, high)" :=
    ⟨.oneOf [.text "low", .text "high"], rfl, Or.inr rfl⟩
  intro name p hp
  rw [gearbox, Dict.get?_insert, Dict.get?_empty] at hp
  split_ifs at hp
  obtain rfl := Option.some.inj hp
  exact ⟨fun v hv => Option.some.inj hv ▸ rfl,
    List.forall_mem_cons.mpr ⟨hrequired, List.forall_mem_singleton.mpr hchoice⟩⟩

/-- One assignment to it is taken, and the others are refused, each for its own reason. -/
theorem assign_and_validate_gearbox :
    gearbox.validate = .ok () ∧
      (gearbox.attempt "gear" (.leaf (.text "middle"))).1 =
        .error (.ruleViolated "gear" "one_of(low, high)") ∧
      (gearbox.attempt "gear" (.leaf (.text "middle"))).2 = gearbox ∧
      (gearbox.attemptAll [("gear", .leaf (.text "high")), ("gear", Json.null),
        ("gear", .leaf (.bool true)), ("speed", Json.null)]).validate = .ok () := by
  have hvalid : gearbox.validate = .ok () := validate_eq_ok_iff.mpr gearbox_valid
  have hrequired : Passes gear.kind (some (.leaf (.text "middle"))) "required" :=
    ⟨.required, rfl, Or.inr rfl⟩
  have hread : RuleText.read? "one_of(low, high)" = some (.oneOf [.text "low", .text "high"]) := by
    rfl
  have hrules : gear.rules = ["required"] ++ "one_of(low, high)" :: [] := rfl
  have hrefuses : gear.Refuses "gear" (some (.leaf (.text "middle")))
      (.ruleViolated "gear" "one_of(low, high)") :=
    .rule (fun v hv => Option.some.inj hv ▸ rfl) hrules
      (List.forall_mem_singleton.mpr hrequired) (.violated hread (Or.inl nofun) rfl)
  obtain ⟨hattempted, -, hstays⟩ := assign_and_validate gearbox
  have hrefused := ((hattempted "gear" (.leaf (.text "middle"))).refused gear rfl _).mpr hrefuses
  exact ⟨hvalid, hrefused, (hattempted _ _).unchanged _ hrefused, hstays hvalid _⟩

end ParameterSet

end BehaviorTree
