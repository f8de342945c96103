import BehaviorTree.Proofs.Doubles
import BehaviorTree.Proofs.RecordOrder
import BehaviorTree.Proofs.RewordedRuns

/-!
Whole numbers in configs that are written as floats. People who write documents by hand may well
write `3.0` for `3`, so the numbers that ticks look at mean the same in both spellings, and so do
all other numbers in the configs of built-in nodes, up to the last whole number below which floats
have no gaps. There is one exception. The limit on the children of a composite is a limit as a
whole number only; a float there is no limit at all.
-/
namespace BehaviorTree

open Forest Loading Migration

variable {σ : Type} {names : List String} {key : String}

theorem rel_refl {α : Type} {P : α → α → Prop} (hP : ∀ a, P a a) (o : Option α) :
    Option.Rel P o o := by
  cases o with
  | none => exact .none
  | some a => exact .some (hP a)

theorem rel_bind {α β γ δ : Type} {P : α → β → Prop} {Q : γ → δ → Prop} {o : Option α}
    {o' : Option β} {next : α → Option γ} {next' : β → Option δ} (h : Option.Rel P o o')
    (hnext : ∀ a b, P a b → Option.Rel Q (next a) (next' b)) :
    Option.Rel Q (o >>= next) (o' >>= next') := by
  cases h with
  | none => exact .none
  | some hab => exact hnext _ _ hab

namespace Dict

variable {P : String → Json → Json → Prop} {entries entries' : List (String × Json)}
  {d d' : Dict Json}

def Entrywise (P : String → Json → Json → Prop) (entries entries' : List (String × Json)) : Prop :=
  List.Forall₂ (fun e e' => e'.1 = e.1 ∧ P e.1 e.2 e'.2) entries entries'

theorem Entrywise.refl (hP : ∀ key v, P key v v) (entries : List (String × Json)) :
    Entrywise P entries entries :=
  List.forall₂_same.mpr fun e _ => ⟨rfl, hP e.1 e.2⟩

namespace Entrywise

theorem keys (h : Entrywise P entries entries') : entries'.map (·.1) = entries.map (·.1) := by
  induction h with
  | nil => rfl
  | cons he _ ih => rw [List.map_cons, List.map_cons, ih, he.1]

/-- A look-up gives values that may stand for each other. -/
theorem lookup (h : Entrywise P entries entries') (key : String) :
    Option.Rel (P key) (entries.lookup key) (entries'.lookup key) := by
  induction h with
  | nil => exact .none
  | @cons e e' rest rest' he _ ih =>
    obtain ⟨k, v⟩ := e
    obtain ⟨k', v'⟩ := e'
    obtain ⟨rfl, hv⟩ := he
    rw [lookup_cons, lookup_cons]
    by_cases hkey : key = k'
    · rw [if_pos hkey, if_pos hkey, hkey]
      exact .some hv
    · rw [if_neg hkey, if_neg hkey]
      exact ih

theorem get? (h : Entrywise P d.entries d'.entries) (key : String) :
    Option.Rel (P key) (d.get? key) (d'.get? key) := h.lookup key

/-- The same key may be given such values on both sides. -/
theorem insertEntry (h : Entrywise P entries entries') {v v' : Json} (hv : P key v v') :
    Entrywise P (Dict.insertEntry key v entries) (Dict.insertEntry key v' entries') := by
  induction h with
  | nil => exact .cons ⟨rfl, hv⟩ .nil
  | @cons e e' rest rest' he hrest ih =>
    obtain ⟨k, w⟩ := e
    obtain ⟨k', w'⟩ := e'
    obtain ⟨rfl, hw⟩ := he
    simp only [Dict.insertEntry]
    split
    · exact .cons ⟨rfl, hv⟩ (.cons ⟨rfl, hw⟩ hrest)
    · split
      · exact .cons ⟨rfl, hv⟩ hrest
      · exact .cons ⟨rfl, hw⟩ ih

theorem ofList (h : Entrywise P entries entries') :
    Entrywise P (Dict.ofList entries).entries (Dict.ofList entries').entries := by
  have hfold : ∀ {d d' : Dict Json}, Entrywise P d.entries d'.entries →
      Entrywise P (entries.foldl (fun d e => d.insert e.1 e.2) d).entries
        (entries'.foldl (fun d e => d.insert e.1 e.2) d').entries := by
    induction h with
    | nil => exact fun hd => hd
    | @cons e e' _ _ he _ ih =>
      obtain ⟨k, v⟩ := e
      obtain ⟨k', v'⟩ := e'
      obtain ⟨rfl, hv⟩ := he
      exact fun hd => ih (hd.insertEntry hv)
  exact hfold .nil

theorem addMissing (h : Entrywise P d.entries d'.entries) (name : String) {v : Json}
    (hv : P name v v) : Entrywise P (Migration.addMissing name v d).entries
      (Migration.addMissing name v d').entries := by
  have hcontains : d'.contains name = d.contains name := by
    unfold Dict.contains
    rcases rel_cases (h.get? name) with ⟨hd, hd'⟩ | ⟨w, w', hd, hd', -⟩
    · rw [hd, hd']
    · rw [hd, hd', Option.isSome_some, Option.isSome_some]
  unfold Migration.addMissing
  rw [hcontains]
  split
  · exact h
  · exact h.insertEntry hv

end Entrywise

end Dict

namespace Json

/-- The value under a key, or the float of a whole number in the place of the number. -/
inductive WholeFloat (names : List String) (key : String) : Json → Json → Prop
  | same (v : Json) : WholeFloat names key v v
  | float {n : ℕ} (hkey : key ∈ names) (hn : n < 2 ^ 53) :
      WholeFloat names key (Json.int n) (Json.float (.ofNat n))

/-- A whole number of up to 53 digits has a finite float. -/
theorem float_ofNat {n : ℕ} (hn : n < 2 ^ 53) : Json.float (.ofNat n) =
    .leaf (.number (.float (.ofNat n) (Double.isFinite_ofNat hn))) := by
  simp [Json.float, Number.ofDouble?, Double.isFinite_ofNat hn]

namespace WholeFloat

variable {v v' : Json}

theorem bool?_eq (h : WholeFloat names key v v') : v'.bool? = v.bool? := by
  cases h with
  | same => rfl
  | float _ hn =>
    rw [float_ofNat hn]
    rfl

theorem json? (h : WholeFloat names key v v') :
    Option.Rel (WholeFloat names key) (Datum.json? v) (Datum.json? v') := by
  cases h with
  | same => exact rel_refl .same _
  | float hkey hn =>
    have hfloat := WholeFloat.float hkey hn
    rw [float_ofNat hn] at hfloat ⊢
    exact .some hfloat

end WholeFloat

end Json

open Json (WholeFloat)

/-- A config in which whole numbers under some names may be written as floats. -/
def Dict.FloatsFor (names : List String) (config config' : Dict Json) : Prop :=
  Dict.Entrywise (WholeFloat names) config.entries config'.entries

theorem Dict.floatsFor_refl (config : Dict Json) : config.FloatsFor names config :=
  Entrywise.refl (fun _ => .same) config.entries

namespace NodeView

variable {view : NodeView} {config : Dict Json}

/-- A whole float is read as the whole number. -/
theorem configInt?_float {n : ℕ} (hn : n < 2 ^ 53)
    (hget : view.config.get? key = some (Json.float (.ofNat n))) :
    view.configInt? key = some (n : ℤ) := by
  have hmin : Text.minSigned64 = -2 ^ 63 := rfl
  have hmax : Text.maxSigned64 = 2 ^ 63 - 1 := rfl
  have hclamp : (Double.ofNat n).clamp Text.minSigned64 Text.maxSigned64 = n := by
    rw [Double.clamp, Double.truncate_ofNat hn]
    omega
  rw [configInt?, hget, Json.float_ofNat hn]
  simp [Json.number?, Number.signed?, Number.isWhole, Number.toDouble, Double.isWhole_ofNat hn,
    hclamp]

theorem configInt?_int {n : ℕ} (hn : n < 2 ^ 53)
    (hget : view.config.get? key = some (Json.int n)) : view.configInt? key = some (n : ℤ) := by
  have hmin : Text.minSigned64 = -2 ^ 63 := rfl
  have hmax : Text.maxSigned64 = 2 ^ 63 - 1 := rfl
  have hfits : Text.minSigned64 ≤ (n : ℤ) ∧ (n : ℤ) ≤ Text.maxSigned64 := by omega
  rw [configInt?, hget]
  simp [Json.number?, Json.int, Number.signed?, hfits]

variable (h : view.config.FloatsFor names config)
include h

theorem configInt?_eq (key : String) :
    { view with config }.configInt? key = view.configInt? key := by
  rcases rel_cases (Dict.Entrywise.get? h key) with ⟨hv, hv'⟩ | ⟨v, v', hv, hv', hfloat⟩
  · simp only [configInt?, hv, hv']
  · cases hfloat with
    | same => simp only [configInt?, hv, hv']
    | float _ hn =>
      rw [configInt?_int hn hv]
      exact configInt?_float hn hv'

theorem configBool?_eq (key : String) :
    { view with config }.configBool? key = view.configBool? key := by
  simp only [configBool?]
  rcases rel_cases (Dict.Entrywise.get? h key) with ⟨hv, hv'⟩ | ⟨v, v', hv, hv', hfloat⟩
  · rw [hv, hv']
  · rw [hv, hv', Option.bind_some, Option.bind_some, hfloat.bool?_eq]

/-- Built-in behaviors decide alike. -/
theorem routine_eq (kind : BuiltIn) : kind.routine { view with config } = kind.routine view := by
  have hint := configInt?_eq h
  have hbool := configBool?_eq h
  cases kind with
  | parallel => simp only [BuiltIn.routine, minSuccess, minFailure, hint]
  | repeater => simp only [BuiltIn.routine, withChild, repeatCount, hint, hbool]
  | _ => rfl

end NodeView

/-- A routine makes use of its node where it has the code run and nowhere else. -/
theorem Routine.run_congr {s t : NodeSpec} {ex : Executor σ}
    (h : ∀ n w, t.execute ex n w = s.execute ex n w) (steppers : List (Stepper σ)) (r : Routine)
    (o : Ongoing σ) : r.run ex t steppers o = r.run ex s steppers o := by
  induction r generalizing o with
  | finish status => rfl
  | tickChild i next ih => exact ih _ _
  | resetChild i next ih => exact ih _
  | setCursor i next ih => exact ih _
  | setCounter n next ih => exact ih _
  | runCode n next ih =>
    simp only [Routine.run, h]
    exact ih _ _
  | readBoard next ih => exact ih _ _
  | editBoard change next ih => exact ih _

namespace NodeSpec

/-- A built-in node in whose config whole numbers under some names may be written as floats. -/
structure Reworded (names : List String) (s t : NodeSpec) : Prop where
  builtIn : ∃ kind : BuiltIn, s.behavior = kind.behavior
  config : s.config.FloatsFor names t.config
  others : t = { s with config := t.config }

namespace Reworded

variable {s t : NodeSpec} (h : s.Reworded names t)
include h

/-- A tick cannot tell the two configs from each other. -/
theorem step (ex : Executor σ) : t.step ex = s.step ex := by
  obtain ⟨⟨kind, hkind⟩, hconfig, hothers⟩ := h
  generalize t.config = config at hconfig hothers
  subst hothers
  funext steppers a w
  obtain ⟨state, children⟩ := a
  have hroutine : s.behavior.routine ({ s with config }.view state steppers.length) =
      s.behavior.routine (s.view state steppers.length) := by
    have hview : (s.view state steppers.length).config.FloatsFor names config := hconfig
    rw [hkind]
    exact NodeView.routine_eq hview kind
  have hexecute : ∀ n w, ({ s with config } : NodeSpec).execute ex n w = s.execute ex n w :=
    fun _ _ => rfl
  have hrun := Routine.run_congr hexecute steppers
  simp only [NodeSpec.step, hroutine, hrun]

theorem runsLike : s.RunsLike t where
  typeName := by rw [h.others]
  position := by rw [h.others]
  step := h.step

/-- The limit is what it was unless it is one of the numbers that may be written as floats. -/
theorem capacity_eq (hnames : "maxChildren" ∉ names) : t.capacity = s.capacity := by
  obtain ⟨-, hconfig, hothers⟩ := h
  generalize t.config = config at hconfig hothers
  subst hothers
  have hlimit : config.get? "maxChildren" = s.config.get? "maxChildren" := by
    rcases rel_cases (Dict.Entrywise.get? hconfig "maxChildren") with
      ⟨hv, hv'⟩ | ⟨v, v', hv, hv', hfloat⟩
    · rw [hv, hv']
    · cases hfloat with
      | same => rw [hv, hv']
      | float hkey _ => exact absurd hkey hnames
  simp only [capacity, category, hlimit]

end Reworded

/-- A float is no limit on the number of children. -/
theorem capacity_of_float {spec : NodeSpec} {x : Double}
    (hget : spec.config.get? "maxChildren" = some (Json.float x)) :
    spec.capacity = spec.behavior.capacity := by
  have hnone : ((Json.float x).number?).bind Number.unsigned? = none := by
    unfold Json.float Number.ofDouble?
    split_ifs <;> rfl
  rw [capacity, hget, Option.bind_some, hnone]
  split <;> rfl

end NodeSpec

end BehaviorTree
