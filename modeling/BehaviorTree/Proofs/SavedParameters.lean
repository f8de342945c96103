import BehaviorTree.Proofs.ReadOnly
import BehaviorTree.Proofs.RecordCodec

/-!
Parameters that are saved and read back. A set is made up of parameters that are defined and of
values that are assigned to them, and null is a value that suits every kind. It is written as such,
but it is read as if nothing had been written: a saved set comes back without its nulls. Leaves do
not notice, since what has no value is null for them as well, except where a null was assigned over
a default. There the default comes back.
-/
namespace BehaviorTree

namespace Json

variable {value : Option Json}

def notNull (value : Option Json) : Option Json := value.filter (· ≠ null)

@[simp] theorem notNull_none : notNull none = none := rfl

@[simp] theorem notNull_null : notNull (some null) = none := rfl

theorem notNull_of_ne {v : Json} (h : v ≠ null) : notNull (some v) = some v := by
  simp [notNull, Option.filter, h]

theorem notNull_eq_self : notNull value = value ↔ value ≠ some null := by
  cases value with
  | none => simp
  | some v =>
    by_cases h : v = null
    · simp [h]
    · simp [notNull_of_ne h, h]

@[simp] theorem notNull_notNull (value : Option Json) :
    notNull (notNull value) = notNull value := by
  rw [notNull_eq_self]
  simp [notNull, Option.filter_eq_some_iff]

/-- Who takes null for what is missing sees no difference. -/
@[simp] theorem getD_notNull (value : Option Json) :
    (notNull value).getD null = value.getD null := by
  cases value with
  | none => rfl
  | some v =>
    by_cases h : v = null
    · rw [h, notNull_null, Option.getD_none, Option.getD_some]
    · rw [notNull_of_ne h]

theorem rereadGiven_of_normal (h : ∀ v, value = some v → v.Normal) :
    rereadGiven value = notNull value := by
  cases value with
  | none => rfl
  | some v =>
    by_cases hnull : v = null
    · rw [hnull, notNull_null]
      rfl
    · have hv : v.reread = v := reread_of_normal (h v rfl)
      simp [rereadGiven, Option.filter, hnull, hv, notNull_of_ne hnull]

end Json

variable {p q : Parameter} {set : ParameterSet}

namespace Parameter

/-- Parameters as hosts come by them: by naming a kind and adding a default and rules, or by
reading them. -/
inductive Made : Parameter → Prop where
  | ofKind (kind : ParamKind) : Made { kind }
  | withDefault {p : Parameter} {v : Json} (hp : Made p) (hv : v.Normal) :
    Made { p with default := some v }
  | withRule {p : Parameter} (hp : Made p) (rule : String) :
    Made { p with rules := p.rules ++ [rule] }
  | ofRead {d : Json} {p : Parameter} (h : read? d = some p) : Made p

structure Normal (p : Parameter) : Prop where
  value : ∀ v, p.value = some v → v.Normal
  default : ∀ v, p.default = some v → v.Normal

/-- A parameter that a host has come by is in normal form. -/
theorem Made.normal (h : Made p) : p.Normal := by
  induction h with
  | ofKind kind => exact ⟨nofun, nofun⟩
  | withDefault _ hv ih => exact ⟨ih.value, fun w hw => Option.some.inj hw ▸ hv⟩
  | withRule _ _ ih => exact ⟨ih.value, ih.default⟩
  | ofRead hread =>
    have hsettled := settled_of_read? hread
    exact ⟨fun v hv => (hsettled.value v hv).2, fun v hv => (hsettled.default v hv).2⟩

def withoutNulls (p : Parameter) : Parameter :=
  { p with value := Json.notNull p.value, default := Json.notNull p.default }

def unassigned (p : Parameter) : Parameter := { p with value := none }

/-- A null was assigned over a default that is not null itself. -/
def Masked (p : Parameter) : Prop :=
  p.value = some Json.null ∧ ∃ d, p.default = some d ∧ d ≠ Json.null

theorem reread_eq_withoutNulls (h : p.Normal) : p.reread = p.withoutNulls := by
  rw [reread, Json.rereadGiven_of_normal h.value, Json.rereadGiven_of_normal h.default]
  rfl

/-- A save loses nothing of a parameter in which nothing is null. -/
theorem withoutNulls_eq_self :
    p.withoutNulls = p ↔ p.value ≠ some Json.null ∧ p.default ≠ some Json.null := by
  rw [← Json.notNull_eq_self, ← Json.notNull_eq_self]
  cases p
  simp [withoutNulls]

theorem withoutNulls_withoutNulls (p : Parameter) :
    p.withoutNulls.withoutNulls = p.withoutNulls := by
  simp [withoutNulls]

/-- What takes effect once the nulls are gone. -/
theorem effective_withoutNulls (p : Parameter) :
    p.withoutNulls.effective.getD Json.null =
      (if p.value = some Json.null then p.unassigned else p).effective.getD Json.null := by
  split_ifs with hp
  · simp [withoutNulls, unassigned, effective, hp]
  · cases hv : p.value with
    | none => simp [withoutNulls, effective, hv]
    | some v =>
      have hkept : Json.notNull (some v) = some v := Json.notNull_eq_self.mpr (hv ▸ hp)
      simp [withoutNulls, effective, hv, hkept]

theorem effective_of_not_masked (h : ¬ p.Masked) :
    p.withoutNulls.effective.getD Json.null = p.effective.getD Json.null := by
  rw [effective_withoutNulls]
  split_ifs with hp
  · have hdefault : p.default.getD Json.null = Json.null := by
      cases hd : p.default with
      | none => rfl
      | some d => exact of_not_not fun hne => h ⟨hp, d, hd, hne⟩
    simp [unassigned, effective, hp, hdefault]
  · rfl

end Parameter

namespace ParameterSet

open Parameter

/-- A parameter stands for the key that its effective value names. -/
theorem keyOf?_eq_some {key : String} :
    keyOf? p = some key ↔ p.kind = .blackboardKey ∧ p.effective = some (Json.text key) := by
  rw [keyOf?]
  split
  · next hkind heff => simp [hkind, heff, Json.text]
  · next hother =>
    constructor
    · nofun
    · rintro ⟨hkind, heff⟩
      exact absurd heff (hother key hkind)

/-- A leaf sees what takes effect and takes null for what is missing. -/
theorem keyOf?_congr (hkind : p.kind = q.kind)
    (h : p.effective.getD Json.null = q.effective.getD Json.null) : keyOf? p = keyOf? q := by
  have htext : ∀ (key : String) (value : Option Json),
      value = some (Json.text key) ↔ value.getD Json.null = Json.text key := by
    intro key value
    cases value <;> simp [Json.null, Json.text]
  refine Option.ext fun key => ?_
  rw [keyOf?_eq_some, keyOf?_eq_some, htext, htext, hkind, h]

theorem resolved_congr (hkind : p.kind = q.kind)
    (h : p.effective.getD Json.null = q.effective.getD Json.null) : resolved p = resolved q := by
  funext board
  rw [resolved, resolved, keyOf?_congr hkind h, h]

theorem resolved_withoutNulls (p : Parameter) :
    resolved p.withoutNulls = resolved (if p.value = some Json.null then p.unassigned else p) := by
  refine resolved_congr ?_ (effective_withoutNulls p)
  split_ifs <;> rfl

/-- On some board, a default that is not null is shown as something else than null. -/
theorem exists_resolved_ne_null {d : Json} (hvalue : p.value = none) (hdefault : p.default = some d)
    (hd : d ≠ Json.null) : ∃ board, resolved p board ≠ Json.null := by
  have heff : p.effective = some d := by simp [effective, hvalue, hdefault]
  cases hkey : keyOf? p with
  | none => exact ⟨.empty, by simpa [resolved, hkey, heff] using hd⟩
  | some key =>
    refine ⟨Blackboard.empty.set key (Json.bool true), ?_⟩
    simp [resolved, hkey, Blackboard.set, Blackboard.get?, Json.bool, Json.null]

theorem resolved_of_null (h : p.value = some Json.null) (board : Blackboard) :
    resolved p board = Json.null := by
  have heff : p.effective = some Json.null := by simp [effective, h]
  have hkey : keyOf? p = none := by
    rw [keyOf?, heff]
    cases p.kind <;> rfl
  simp [resolved, hkey, heff]

theorem resolved_withoutNulls_of_not_masked (h : ¬ p.Masked) :
    resolved p.withoutNulls = resolved p := resolved_congr rfl (effective_of_not_masked h)

theorem keyOf?_withoutNulls_of_not_masked (h : ¬ p.Masked) :
    keyOf? p.withoutNulls = keyOf? p := keyOf?_congr rfl (effective_of_not_masked h)

inductive Reachable : ParameterSet → Prop where
  | empty : Reachable Dict.empty
  | define {set : ParameterSet} (hset : Reachable set) (name : String) {p : Parameter}
    (hp : p.Made) : Reachable (Dict.insert set name p)
  | assign {set later : ParameterSet} (hset : Reachable set) {name : String} {v : Json}
    (hv : v.Normal) (h : set.assign name v = .ok later) : Reachable later

/-- What is assigned is kept beside the default, which it covers. -/
theorem assign_eq_ok {later : ParameterSet} {name : String} {v : Json}
    (h : set.assign name v = .ok later) :
    ∃ p, Dict.get? set name = some p ∧ p.check name (some v) = .ok () ∧
      later = Dict.insert set name { p with value := some v } := by
  rw [assign] at h
  split at h
  · cases h
  · next p hp =>
    cases hcheck : p.check name (some v) with
    | error e => simp [hcheck, Bind.bind, Except.bind] at h
    | ok u =>
      rw [hcheck] at h
      exact ⟨p, hp, hcheck, (Except.ok.inj h).symm⟩

/-- All parameters of a set that a host has come by are in normal form. -/
theorem Reachable.normal (h : Reachable set) {name : String}
    (hp : Dict.get? set name = some p) : p.Normal := by
  induction h generalizing name p with
  | empty => simp at hp
  | define _ key hmade ih =>
    rw [Dict.get?_insert] at hp
    split_ifs at hp with hname
    · exact Option.some.inj hp ▸ hmade.normal
    · exact ih hp
  | assign _ hv hassign ih =>
    obtain ⟨before, hbefore, -, rfl⟩ := assign_eq_ok hassign
    rw [Dict.get?_insert] at hp
    split_ifs at hp with hname
    · obtain rfl := Option.some.inj hp
      exact ⟨fun w hw => Option.some.inj hw ▸ hv, (ih hbefore).default⟩
    · exact ih hp

/-- A set whose parameters hosts can come by is one that they can come by. -/
theorem reachable_of_made (h : ∀ e ∈ set.entries, e.2.Made) : Reachable set := by
  have hfold : ∀ (entries : List (String × Parameter)) (d : ParameterSet),
      (∀ e ∈ entries, e.2.Made) → Reachable d →
        Reachable (entries.foldl (fun d e => Dict.insert d e.1 e.2) d) := by
    intro entries
    induction entries with
    | nil => exact fun d _ hd => hd
    | cons e rest ih =>
      intro d hentries hd
      have hrest := fun x hx => hentries x (List.mem_cons_of_mem e hx)
      exact ih _ hrest (hd.define e.1 (hentries e List.mem_cons_self))
  rw [← Dict.ofList_entries set]
  exact hfold set.entries Dict.empty h Reachable.empty

def withoutNulls (set : ParameterSet) : ParameterSet :=
  Dict.map (fun _ => Parameter.withoutNulls) set

theorem get?_withoutNulls (set : ParameterSet) (name : String) :
    Dict.get? set.withoutNulls name = (Dict.get? set name).map Parameter.withoutNulls :=
  Dict.get?_map _ set name

theorem Reachable.reread_eq (h : Reachable set) : set.reread = set.withoutNulls := by
  refine Dict.eq_of_entries_eq (List.map_congr_left fun e he => ?_)
  have hnormal : e.2.Normal := h.normal (Dict.get?_eq_some.mpr he)
  exact Prod.ext rfl (Parameter.reread_eq_withoutNulls hnormal)

/-- A set is read back without its nulls. -/
theorem Reachable.read?_write (h : Reachable set) :
    read? (write set : Json) = some set.withoutNulls := by
  rw [ParameterSet.read?_write, h.reread_eq]

/-- What has come back from a save is again a set that hosts can come by. -/
theorem Reachable.withoutNulls (h : Reachable set) : Reachable set.withoutNulls := by
  refine reachable_of_made fun e he => ?_
  obtain ⟨x, hx, rfl⟩ := List.mem_map.mp he
  have hnormal : x.2.Normal := h.normal (Dict.get?_eq_some.mpr hx)
  have hread := Parameter.read?_write x.2
  rw [Parameter.reread_eq_withoutNulls hnormal] at hread
  exact .ofRead hread

theorem withoutNulls_withoutNulls (set : ParameterSet) :
    set.withoutNulls.withoutNulls = set.withoutNulls := by
  refine Dict.map_eq_self fun e he => ?_
  obtain ⟨x, -, rfl⟩ := List.mem_map.mp he
  exact x.2.withoutNulls_withoutNulls

theorem withoutNulls_eq_self : set.withoutNulls = set ↔
    ∀ name p, Dict.get? set name = some p →
      p.value ≠ some Json.null ∧ p.default ≠ some Json.null := by
  constructor
  · intro h name p hp
    have hsame : some p.withoutNulls = some p := by
      rw [← hp, ← Option.map_some, ← hp, ← get?_withoutNulls, h]
    exact Parameter.withoutNulls_eq_self.mp (Option.some.inj hsame)
  · intro h
    refine Dict.map_eq_self fun e he => ?_
    exact Parameter.withoutNulls_eq_self.mpr (h e.1 e.2 (Dict.get?_eq_some.mpr he))

theorem get?_resolve (set : ParameterSet) (board : Blackboard) (node name : String) :
    (set.resolve board node).1.get? name = (Dict.get? set name).map fun p => resolved p board :=
  Dict.get?_map _ set name

theorem trackAll_map {change : Parameter → Parameter} {entries : List (String × Parameter)}
    (h : ∀ e ∈ entries, keyOf? (change e.2) = keyOf? e.2) (node : String) (board : Blackboard) :
    trackAll node (entries.map fun e => (e.1, change e.2)) board = trackAll node entries board := by
  induction entries generalizing board with
  | nil => rfl
  | cons e rest ih =>
    have hkey : keyOf? (change e.2) = keyOf? e.2 := h e List.mem_cons_self
    have hrest := ih fun x hx => h x (List.mem_cons_of_mem _ hx)
    rw [List.map_cons, trackAll, trackAll, hkey]
    cases keyOf? e.2 with
    | none => exact hrest board
    | some key => exact hrest _

/-- A leaf sees no difference exactly if no default has been masked. -/
theorem resolve_withoutNulls_iff :
    (∀ board node, set.withoutNulls.resolve board node = set.resolve board node) ↔
      ∀ name p, Dict.get? set name = some p → ¬ p.Masked := by
  constructor
  · rintro h name p hp ⟨hnull, d, hdefault, hd⟩
    obtain ⟨board, hboard⟩ := exists_resolved_ne_null (p := p.unassigned) rfl hdefault hd
    have hsame := congrArg (fun shown => shown.1.get? name) (h board "")
    simp only [get?_resolve, get?_withoutNulls, hp, Option.map_some, Option.some.injEq] at hsame
    rw [resolved_withoutNulls, if_pos hnull, resolved_of_null hnull] at hsame
    exact hboard hsame
  · intro h board node
    have hentry : ∀ e ∈ set.entries, ¬ e.2.Masked := fun e he =>
      h e.1 e.2 (Dict.get?_eq_some.mpr he)
    refine Prod.ext (Dict.eq_of_entries_eq ?_) (trackAll_map (fun e he => ?_) node board)
    · simp only [resolve, ParameterSet.withoutNulls, Dict.map, List.map_map]
      refine List.map_congr_left fun e he => Prod.ext rfl ?_
      exact congrFun (resolved_withoutNulls_of_not_masked (hentry e he)) board
    · exact keyOf?_withoutNulls_of_not_masked (hentry e he)

/-- The set that comes back from a save, compared with the one that was saved. -/
structure ReadsBack (set saved : ParameterSet) : Prop where
  read : read? (write set : Json) = some saved
  reachable : Reachable saved
  /-- Nothing is lost but nulls. -/
  parameters : ∀ name, Dict.get? saved name = (Dict.get? set name).map Parameter.withoutNulls
  equal : saved = set ↔ ∀ name p, Dict.get? set name = some p →
    p.value ≠ some Json.null ∧ p.default ≠ some Json.null
  /-- A leaf is shown the default where a null was assigned, and what it was shown elsewhere. -/
  shown : ∀ name p, Dict.get? set name = some p → ∀ board node,
    (saved.resolve board node).1.get? name =
      some (resolved (if p.value = some Json.null then p.unassigned else p) board)
  alike : (∀ board node, saved.resolve board node = set.resolve board node) ↔
    ∀ name p, Dict.get? set name = some p → ¬ p.Masked
  /-- From the first save on, there is nothing left to lose. -/
  settled : read? (write saved : Json) = some saved

/-- Every set is read back without its nulls. Leaves see the same as before, unless a null was
assigned over a default. -/
theorem reads_back (h : Reachable set) : ∃ saved, ReadsBack set saved := by
  refine ⟨set.withoutNulls, h.read?_write, h.withoutNulls, get?_withoutNulls set,
    withoutNulls_eq_self, fun name p hp board node => ?_, resolve_withoutNulls_iff, ?_⟩
  · rw [get?_resolve, get?_withoutNulls, hp, ← resolved_withoutNulls]
    rfl
  · rw [h.withoutNulls.read?_write, withoutNulls_withoutNulls]

def halted : ParameterSet :=
  Dict.insert Dict.empty "speed"
    { kind := .number, value := some Json.null, default := some (Json.int 1) }

theorem reachable_halted : Reachable halted := by
  have hmade : Parameter.Made { kind := .number, default := some (Json.int 1) } :=
    .withDefault (.ofKind .number) rfl
  have hspeed := Reachable.empty.define "speed" hmade
  have hnull : assign (.insert .empty "speed" { kind := .number, default := some (Json.int 1) })
      "speed" Json.null = .ok halted := by rfl
  have hnormal : Json.null.Normal := rfl
  exact hspeed.assign hnormal hnull

/-- The halted speed goes on after a save. -/
theorem halted_reads_back : Reachable halted ∧ ∃ saved, ReadsBack halted saved :=
  ⟨reachable_halted, reads_back reachable_halted⟩

/-- The null is gone after a save, and a leaf is shown the default again. -/
theorem halted_moves_again : Reachable halted ∧ ∃ saved, read? (write halted : Json) = some saved ∧
    saved ≠ halted ∧
    (halted.resolve Blackboard.empty "walk").1.get? "speed" = some Json.null ∧
    (saved.resolve Blackboard.empty "walk").1.get? "speed" = some (Json.int 1) := by
  refine ⟨reachable_halted, halted.withoutNulls, reachable_halted.read?_write, ?_, rfl, rfl⟩
  exact fun h => (withoutNulls_eq_self.mp h "speed" _ rfl).1 rfl

end ParameterSet

end BehaviorTree
