import BehaviorTree.Blackboard
import BehaviorTree.Proofs.Dictionary
import Mathlib.Data.Finset.Card
import Mathlib.Data.List.Induction

/-!
A blackboard is its history. The value of a key is the one that was written last, unless the key has
been deleted or the contents have been replaced since, and the users of a key are the nodes on whose
behalf it has been read or written since it was last forgotten. The values and the users of a key go
their own ways: a read of a key without a value makes a user, and a write on nobody's behalf makes
none. A copy begins a history of its own, and from then on the two boards do not know of each other.
-/
namespace BehaviorTree

namespace Dict

universe u

variable {α : Type u}

theorem get?_erase (d : Dict α) (key k : String) :
    (d.erase key).get? k = if k = key then none else d.get? k := by
  simp only [get?, erase]
  induction d.entries with
  | nil => exact (ite_self _).symm
  | cons head rest ih =>
    obtain ⟨j, v⟩ := head
    rw [lookup_cons]
    by_cases hj : j = key
    · rw [List.filter_cons_of_neg (by simpa using hj), ih]
      by_cases hk : k = key
      · rw [if_pos hk, if_pos hk]
      · rw [if_neg hk, if_neg hk, if_neg (hj ▸ hk)]
    · rw [List.filter_cons_of_pos (by simpa using hj), lookup_cons, ih]
      by_cases hk : k = j
      · rw [if_pos hk, if_pos hk, if_neg (hk ▸ hj)]
      · rw [if_neg hk, if_neg hk]

theorem mem_keys_iff {d : Dict α} {key : String} : key ∈ d.keys ↔ (d.get? key).isSome := by
  rw [keys, List.mem_map, Option.isSome_iff_exists]
  constructor
  · rintro ⟨⟨k, value⟩, he, rfl⟩
    exact ⟨value, get?_eq_some.mpr he⟩
  · rintro ⟨value, h⟩
    exact ⟨(key, value), get?_eq_some.mp h, rfl⟩

end Dict

namespace NameSet

def ofNames (names : List String) : NameSet := names.foldr (fun name set => set.add name) Dict.empty

theorem mem_keys_add (names : NameSet) (name other : String) :
    other ∈ Dict.keys (names.add name) ↔ other = name ∨ other ∈ Dict.keys names := by
  rw [Dict.mem_keys_iff, Dict.mem_keys_iff, add, Dict.get?_insert]
  by_cases h : other = name <;> simp [h]

theorem mem_keys_ofNames (names : List String) (name : String) :
    name ∈ Dict.keys (ofNames names) ↔ name ∈ names := by
  induction names with
  | nil => simp [ofNames, Dict.keys, Dict.empty]
  | cons head rest ih =>
    have hcons : ofNames (head :: rest) = (ofNames rest).add head := rfl
    rw [hcons, mem_keys_add, ih, List.mem_cons]

end NameSet

namespace Blackboard

inductive Access where
  | set (key : String) (value : Json)
  | setBy (key : String) (value : Json) (node : String)
  | getBy (key node : String)
  | delete (key : String)
  | clear
  /-- Puts these values in place of everything. -/
  | replace (values : Dict Json)
  /-- A look at the board that leaves no trace. -/
  | look
  deriving DecidableEq

namespace Access

def value? (key : String) : Access → Option (Option Json)
  | set k value | setBy k value _ => if k = key then some (some value) else none
  | delete k => if k = key then some none else none
  | clear => some none
  | replace values => some (values.get? key)
  | getBy _ _ | look => none

def user? (key : String) : Access → Option String
  | setBy k _ node | getBy k node => if k = key then some node else none
  | set _ _ | delete _ | clear | replace _ | look => none

def forgets (key : String) : Access → Bool
  | delete k => k = key
  | clear | replace _ => true
  | set _ _ | setBy _ _ _ | getBy _ _ | look => false

def lastValue (key : String) (history : List Access) : Option Json :=
  (history.reverse.findSome? (value? key)).getD none

def usersSince (key : String) (history : List Access) : List String :=
  (history.reverse.takeWhile fun a => !a.forgets key).filterMap (user? key)

theorem lastValue_snoc (key : String) (history : List Access) (a : Access) :
    lastValue key (history ++ [a]) = (a.value? key).getD (lastValue key history) := by
  rw [lastValue, List.reverse_append, List.reverse_singleton, List.singleton_append,
    List.findSome?_cons]
  cases a.value? key <;> rfl

theorem usersSince_snoc (key : String) (history : List Access) (a : Access) :
    usersSince key (history ++ [a]) =
      if a.forgets key then [] else (a.user? key).toList ++ usersSince key history := by
  rw [usersSince, List.reverse_append, List.reverse_singleton, List.singleton_append]
  cases hforgets : a.forgets key with
  | true =>
    rw [List.takeWhile_cons_of_neg (by simp [hforgets])]
    rfl
  | false =>
    rw [List.takeWhile_cons_of_pos (by simp [hforgets])]
    cases huser : a.user? key <;> simp [usersSince, huser]

end Access

open Access

def access (b : Blackboard) : Access → Blackboard
  | .set key value => b.set key value
  | .setBy key value node => b.setBy key value node
  | .getBy key node => (b.getBy key node).2
  | .delete key => b.delete key
  | .clear => .empty
  | .replace values => .ofData values
  | .look => b

def run (b : Blackboard) (accesses : List Access) : Blackboard := accesses.foldl access b

def after (history : List Access) : Blackboard := empty.run history

theorem run_snoc (b : Blackboard) (accesses : List Access) (a : Access) :
    b.run (accesses ++ [a]) = (b.run accesses).access a := List.foldl_append

/-- One access changes the value of a key only if it decides it. -/
theorem get?_access (b : Blackboard) (a : Access) (key : String) :
    (b.access a).get? key = (a.value? key).getD (b.get? key) := by
  have hinsert : ∀ k value, (b.data.insert k value).get? key =
      (if k = key then some (some value) else none).getD (b.data.get? key) := by
    intro k value
    rw [Dict.get?_insert]
    by_cases h : k = key
    · rw [if_pos h, if_pos h.symm]
      rfl
    · rw [if_neg h, if_neg (Ne.symm h)]
      rfl
  cases a with
  | set k value => exact hinsert k value
  | setBy k value node => exact hinsert k value
  | getBy k node => rfl
  | delete k =>
    rw [access, delete, get?, Dict.get?_erase, value?]
    by_cases h : k = key
    · rw [if_pos h, if_pos h.symm]
      rfl
    · rw [if_neg h, if_neg (Ne.symm h)]
      rfl
  | clear => rfl
  | replace values => rfl
  | look => rfl

/-- A key has the value that was last decided. -/
theorem get?_after (history : List Access) (key : String) :
    (after history).get? key = lastValue key history := by
  induction history using List.reverseRecOn with
  | nil => rfl
  | append_singleton history a ih =>
    rw [after, run_snoc, get?_access, lastValue_snoc]
    exact congrArg _ ih

/-- Users on record; nobody is on record for a key that has never been used. -/
def recorded (names : List String) : Option NameSet :=
  if names = [] then none else some (.ofNames names)

theorem getD_recorded (names : List String) :
    (recorded names).getD Dict.empty = NameSet.ofNames names := by
  cases names <;> rfl

theorem usersOf_track (b : Blackboard) (k node key : String) (names : List String)
    (h : b.users.get? key = recorded names) :
    (b.track k node).users.get? key =
      recorded ((if k = key then some node else none).toList ++ names) := by
  rw [track, Dict.get?_insert]
  by_cases hk : k = key
  · subst hk
    rw [if_pos rfl, if_pos rfl, h, getD_recorded]
    rfl
  · rw [if_neg hk, if_neg (Ne.symm hk)]
    exact h

/-- One access adds its node to the users of its key, or makes the board forget them. -/
theorem usersOf_access {b : Blackboard} {key : String} {names : List String} (a : Access)
    (h : b.users.get? key = recorded names) :
    (b.access a).users.get? key =
      recorded (if a.forgets key then [] else (a.user? key).toList ++ names) := by
  cases a with
  | set k value => exact h
  | setBy k value node => exact usersOf_track b k node key names h
  | getBy k node => exact usersOf_track b k node key names h
  | delete k =>
    rw [access, delete, Dict.get?_erase, forgets]
    by_cases hk : k = key
    · rw [if_pos hk.symm, if_pos (decide_eq_true hk)]
      rfl
    · rw [if_neg (Ne.symm hk), if_neg (by simpa using hk)]
      exact h
  | clear => rfl
  | replace values => rfl
  | look => exact h

/-- The users on record are those since the key was last forgotten. -/
theorem usersOf_after (history : List Access) (key : String) :
    (after history).users.get? key = recorded (usersSince key history) := by
  induction history using List.reverseRecOn with
  | nil => rfl
  | append_singleton history a ih =>
    rw [after, run_snoc, usersSince_snoc]
    exact usersOf_access a ih

/-- Everything that a board shows follows from its history. -/
structure Shows (b : Blackboard) (history : List Access) : Prop where
  get : ∀ key, b.get? key = lastValue key history
  getBy : ∀ key node, (b.getBy key node).1 = lastValue key history
  has : ∀ key, b.has key = (lastValue key history).isSome
  keys : ∀ key, key ∈ b.data.keys ↔ (lastValue key history).isSome
  entries : ∀ key value, (key, value) ∈ b.data.entries ↔ lastValue key history = some value
  /-- Keys, and so entries, come in order, each of them once. -/
  ascending : b.data.keys.Pairwise (· < ·)
  size : ∀ keys : Finset String, (∀ key, key ∈ keys ↔ (lastValue key history).isSome) →
    b.data.size = keys.card
  /-- There is only one dictionary of these values, and it is what is written of the board. -/
  values : ∀ d : Dict Json, (∀ key, d.get? key = lastValue key history) → b.data = d
  users : ∀ key node, node ∈ (b.users? key).getD [] ↔ node ∈ usersSince key history
  /-- Without a use there is nothing on record, not even that nobody has used the key. -/
  unused : ∀ key, b.users? key = none ↔ usersSince key history = []

/-- A board shows nothing but what follows from its history. -/
theorem shows_after (history : List Access) : (after history).Shows history where
  get := get?_after history
  getBy key _ := get?_after history key
  has key := congrArg Option.isSome (get?_after history key)
  keys key := by
    rw [Dict.mem_keys_iff, ← get?_after history key]
    rfl
  entries key value := by
    rw [← Dict.get?_eq_some, ← get?_after history key]
    rfl
  ascending := Dict.keys_ascending _
  size keys hkeys := by
    have hnodup : (after history).data.keys.Nodup := Dict.keys_nodup _
    have hsame : (after history).data.keys.toFinset = keys := by
      ext key
      rw [List.mem_toFinset, hkeys, Dict.mem_keys_iff, ← get?_after history key]
      rfl
    rw [← hsame, List.toFinset_card_of_nodup hnodup, Dict.size, Dict.keys, List.length_map]
  values d hd := Dict.eq_of_get?_eq fun key => (get?_after history key).trans (hd key).symm
  users key node := by
    rw [users?, usersOf_after, recorded]
    split_ifs with h
    · simp [h]
    · exact NameSet.mem_keys_ofNames _ _
  unused key := by
    rw [users?, usersOf_after, recorded]
    split_ifs with h <;> simp [h]

inductive Handling where
  | access (board : ℕ) (a : Access)
  /-- Puts a copy of a board behind all boards. -/
  | copy (board : ℕ)

namespace Handling

def on? (i : ℕ) : Handling → Option Access
  | access j a => if j = i then some a else none
  | copy _ => none

def apply (boards : List Blackboard) : Handling → List Blackboard
  | access i a => boards.modify i fun b => b.access a
  | copy i => boards ++ (boards[i]?.map Blackboard.copy).toList

/-- Everything that is done to one of the boards. -/
def historyOf (i : ℕ) (handlings : List Handling) : List Access := handlings.filterMap (on? i)

/-- Handling several boards changes only the one that it is about. -/
theorem getElem?_apply {boards : List Blackboard} {i : ℕ} {b : Blackboard} (h : boards[i]? = some b)
    (handling : Handling) :
    (handling.apply boards)[i]? = some (b.run (handling.on? i).toList) := by
  cases handling with
  | access j a =>
    rw [apply, List.getElem?_modify, h, on?]
    split_ifs <;> rfl
  | copy j =>
    have hlt : i < boards.length := (List.getElem?_eq_some_iff.mp h).1
    rw [apply, List.getElem?_append_left hlt, h]
    rfl

/-- A board is what the accesses to it have made of it, whatever is done to the others. -/
theorem getElem?_foldl_apply {boards : List Blackboard} {i : ℕ} {b : Blackboard}
    (h : boards[i]? = some b) (handlings : List Handling) :
    (handlings.foldl apply boards)[i]? = some (b.run (historyOf i handlings)) := by
  induction handlings generalizing boards b with
  | nil => exact h
  | cons handling rest ih =>
    rw [List.foldl_cons, ih (getElem?_apply h handling)]
    simp only [historyOf, List.filterMap_cons]
    cases handling.on? i <;> rfl

end Handling

open Handling

/-- A board shows what follows from its history. A copy of a board begins with the values of the
board and without users; whatever is done to all boards from then on, the board goes on as the
accesses to it tell, and the copy goes on as if its history had begun with the values. -/
theorem determined_by_history :
    (∀ history, (after history).Shows history) ∧
      ∀ (before later : List Blackboard) (b : Blackboard) (handlings : List Handling),
        let boards := before ++ b :: later
        let copied := handlings.foldl Handling.apply ((Handling.copy before.length).apply boards)
        b.copy.data = b.data ∧ (∀ key, b.copy.users? key = none) ∧
          copied[before.length]? = some (b.run (historyOf before.length handlings)) ∧
          copied[boards.length]? =
            some (after (.replace b.data :: historyOf boards.length handlings)) := by
  refine ⟨shows_after, fun before later b handlings => ?_⟩
  intro boards copied
  have hboard : boards[before.length]? = some b := by
    rw [List.getElem?_append_right (Nat.le_refl _), Nat.sub_self]
    rfl
  have hcopied : (Handling.copy before.length).apply boards = boards ++ [b.copy] := by
    rw [Handling.apply, hboard]
    rfl
  refine ⟨rfl, fun _ => rfl, ?_, ?_⟩
  · apply getElem?_foldl_apply
    exact getElem?_apply hboard (.copy before.length)
  · apply getElem?_foldl_apply
    rw [hcopied]
    exact List.getElem?_concat_length

end Blackboard

end BehaviorTree
