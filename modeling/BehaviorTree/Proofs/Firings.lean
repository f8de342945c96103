import BehaviorTree.Clock
import Mathlib.Data.List.Induction

/-!
Firings are conserved. On a clock that comes due on command, every firing of a timer is either
pending or has been reported, and none has been reported twice, whatever is done with the other
timers in the meantime. All of this is as long as the pending firings can be counted.
-/
namespace BehaviorTree

inductive ClockCall where
  | arm (interval : ℕ)
  | disarm (id : TimerId)
  /-- Lets every armed timer fire so many times. -/
  | fire (count : UInt32)
  | poll (id : TimerId)
  deriving DecidableEq

namespace ClockCall

def timer? : ClockCall → Option TimerId
  | disarm id | poll id => some id
  | arm _ | fire _ => none

theorem timer?_ne (call : ClockCall) {id : TimerId} (hdisarm : call ≠ disarm id)
    (hpoll : call ≠ poll id) : call.timer? ≠ some id := by
  cases call with
  | arm | fire => nofun
  | disarm j => simpa [timer?] using hdisarm
  | poll j => simpa [timer?] using hpoll

def firings : ClockCall → ℕ
  | fire count => count.toNat
  | arm _ | disarm _ | poll _ => 0

/-- What happens to a timer until it is disarmed. -/
def untilDisarmed (id : TimerId) (calls : List ClockCall) : List ClockCall :=
  calls.takeWhile (· ≠ disarm id)

theorem untilDisarmed_cons {id : TimerId} {call : ClockCall} (h : call ≠ disarm id)
    (rest : List ClockCall) : untilDisarmed id (call :: rest) = call :: untilDisarmed id rest :=
  List.takeWhile_cons_of_pos (by simpa using h)

theorem untilDisarmed_disarm (id : TimerId) (rest : List ClockCall) :
    untilDisarmed id (disarm id :: rest) = [] :=
  List.takeWhile_cons_of_neg (by simp)

def fired : List ClockCall → ℕ
  | [] => 0
  | call :: rest => call.firings + fired rest

theorem fired_cons (call : ClockCall) (rest : List ClockCall) :
    fired (call :: rest) = call.firings + fired rest := rfl

end ClockCall

section Lists

variable {α : Type}

theorem lookup_cons_eq (j k : TimerId) (x : α) (rest : List (TimerId × α)) :
    ((k, x) :: rest).lookup j = if j = k then some x else rest.lookup j := by
  by_cases hj : j = k
  · rw [if_pos hj, hj, List.lookup_cons_self]
  · have hj' : (j == k) = false := by simpa using hj
    rw [if_neg hj, List.lookup_cons, hj']

/-- A timer that is added at the end is found under its number, unless there was one already. -/
theorem lookup_snoc (timers : List (TimerId × α)) (k : TimerId) (x : α) (j : TimerId) :
    (timers ++ [(k, x)]).lookup j = (timers.lookup j).or (if j = k then some x else none) := by
  rw [List.lookup_append, lookup_cons_eq, List.lookup_nil]

/-- What is done to every timer is done to the one that is looked up. -/
theorem lookup_mapTimers (g : TimerId → α → α) (timers : List (TimerId × α)) (j : TimerId) :
    (timers.map fun t => (t.1, g t.1 t.2)).lookup j = (timers.lookup j).map (g j) := by
  induction timers with
  | nil => rfl
  | cons t rest ih =>
    rw [List.map_cons, lookup_cons_eq, lookup_cons_eq, ih]
    by_cases hj : j = t.1
    · rw [if_pos hj, if_pos hj, Option.map_some, hj]
    · rw [if_neg hj, if_neg hj]

theorem lookup_updateTimer (id j : TimerId) (f : α → α) (timers : List (TimerId × α)) :
    (updateTimer id f timers).lookup j =
      if j = id then (timers.lookup j).map f else timers.lookup j := by
  have hmap : updateTimer id f timers =
      timers.map fun t => (t.1, if t.1 = id then f t.2 else t.2) := by
    refine List.map_congr_left fun t _ => ?_
    split <;> rfl
  rw [hmap, lookup_mapTimers (fun k x => if k = id then f x else x)]
  split
  · rfl
  · rw [Option.map_id']

theorem lookup_removeTimer (id j : TimerId) (timers : List (TimerId × α)) :
    (removeTimer id timers).lookup j = if j = id then none else timers.lookup j := by
  induction timers with
  | nil => exact (ite_self _).symm
  | cons t rest ih =>
    unfold removeTimer at ih ⊢
    rw [lookup_cons_eq]
    by_cases hid : t.1 = id
    · rw [List.filter_cons_of_neg (by simpa using hid), ih, hid]
      split <;> rfl
    · rw [List.filter_cons_of_pos (by simpa using hid), lookup_cons_eq, ih]
      by_cases hj : j = t.1
      · rw [if_pos hj, if_pos hj, if_neg (hj ▸ hid)]
      · rw [if_neg hj, if_neg hj]

end Lists

namespace ManualClock

open ClockCall

variable {c : ManualClock} {id j : TimerId}

def act (c : ManualClock) : ClockCall → ManualClock
  | .arm interval => (c.arm interval).2
  | .disarm id => c.disarm id
  | .fire count => c.fire count
  | .poll id => (c.poll id).2

def run (c : ManualClock) (calls : List ClockCall) : ManualClock := calls.foldl act c

def armedIn (c : ManualClock) : List ClockCall → List TimerId
  | [] => []
  | .arm interval :: rest => (c.arm interval).1 :: (c.arm interval).2.armedIn rest
  | call :: rest => (c.act call).armedIn rest

def reportedIn (id : TimerId) (c : ManualClock) : List ClockCall → ℕ
  | [] => 0
  | call :: rest =>
    (if call = .poll id then (c.poll id).1.toNat else 0) + reportedIn id (c.act call) rest

def RoomFor (c : ManualClock) (firings : ℕ) : Prop :=
  ∀ t ∈ c.timers, t.2.pending.toNat + firings < UInt32.size

instance (c : ManualClock) (firings : ℕ) : Decidable (c.RoomFor firings) :=
  inferInstanceAs (Decidable (∀ t ∈ c.timers, _))

def HasRoom (c : ManualClock) : List ClockCall → Prop
  | [] => True
  | call :: rest => c.RoomFor call.firings ∧ (c.act call).HasRoom rest

instance decidableHasRoom (c : ManualClock) (calls : List ClockCall) :
    Decidable (c.HasRoom calls) :=
  match calls with
  | [] => inferInstanceAs (Decidable True)
  | call :: rest =>
    have := decidableHasRoom (c.act call) rest
    inferInstanceAs (Decidable (_ ∧ _))

def timer? (c : ManualClock) (id : TimerId) : Option ManualTimer := c.timers.lookup id

theorem pending_eq (c : ManualClock) (id : TimerId) :
    c.pending id = (c.timer? id).elim 0 (·.pending) := rfl

def Fresh (c : ManualClock) : Prop := ∀ id, c.nextId ≤ id → c.timer? id = none

theorem timer?_arm (c : ManualClock) (interval : ℕ) (id : TimerId) :
    (c.arm interval).2.timer? id =
      (c.timer? id).or (if id = c.nextId then some ⟨interval, 0⟩ else none) :=
  lookup_snoc c.timers c.nextId ⟨interval, 0⟩ id

theorem timer?_disarm (c : ManualClock) (id j : TimerId) :
    (c.disarm id).timer? j = if j = id then none else c.timer? j :=
  lookup_removeTimer id j c.timers

theorem timer?_fire (c : ManualClock) (count : UInt32) (id : TimerId) :
    (c.fire count).timer? id =
      (c.timer? id).map fun t => { t with pending := t.pending + count } :=
  lookup_mapTimers (fun _ (t : ManualTimer) => { t with pending := t.pending + count }) c.timers id

/-- A poll takes the firings of its timer and of no other. -/
theorem timer?_poll (c : ManualClock) (id j : TimerId) :
    (c.poll id).2.timer? j =
      if j = id then (c.timer? j).map fun t => { t with pending := 0 } else c.timer? j :=
  lookup_updateTimer id j (fun t : ManualTimer => { t with pending := 0 }) c.timers

theorem Fresh.timer?_arm_self (h : c.Fresh) (interval : ℕ) :
    (c.arm interval).2.timer? c.nextId = some ⟨interval, 0⟩ := by
  rw [timer?_arm, h c.nextId (Nat.le_refl _), if_pos rfl, Option.none_or]

theorem timer?_arm_of_ne (interval : ℕ) (h : id ≠ c.nextId) :
    (c.arm interval).2.timer? id = c.timer? id := by
  rw [timer?_arm, if_neg h, Option.or_none]

/-- Only a call about a timer cancels it or takes its firings. -/
theorem timer?_act (call : ClockCall) {t : ManualTimer} (ht : c.timer? id = some t)
    (hother : call.timer? ≠ some id) :
    ∃ t', (c.act call).timer? id = some t' ∧
      t'.pending = t.pending + UInt32.ofNat call.firings := by
  cases call with
  | arm interval =>
    refine ⟨t, ?_, (UInt32.add_zero _).symm⟩
    rw [act, timer?_arm, ht, Option.some_or]
  | disarm j =>
    have hne : id ≠ j := fun h => hother (congrArg some h.symm)
    exact ⟨t, by rw [act, timer?_disarm, if_neg hne, ht], (UInt32.add_zero _).symm⟩
  | fire count =>
    refine ⟨_, by rw [act, timer?_fire, ht, Option.map_some], ?_⟩
    rw [ClockCall.firings, UInt32.ofNat_toNat]
  | poll j =>
    have hne : id ≠ j := fun h => hother (congrArg some h.symm)
    exact ⟨t, by rw [act, timer?_poll, if_neg hne, ht], (UInt32.add_zero _).symm⟩

/-- A timer stays armed until it is disarmed. -/
theorem exists_timer?_act {call : ClockCall} {t : ManualTimer} (ht : c.timer? id = some t)
    (hcall : call ≠ .disarm id) : ∃ t', (c.act call).timer? id = some t' := by
  by_cases hpoll : call = .poll id
  · subst hpoll
    exact ⟨_, by rw [act, timer?_poll, if_pos rfl, ht, Option.map_some]⟩
  · obtain ⟨t', ht', -⟩ := timer?_act call ht (call.timer?_ne hcall hpoll)
    exact ⟨t', ht'⟩

/-- Only arming brings a timer in, and it is the next one. -/
theorem exists_arm_of_act {call : ClockCall} (hbefore : c.timer? id = none)
    (hafter : (c.act call).timer? id ≠ none) :
    ∃ interval, call = .arm interval ∧ id = (c.arm interval).1 := by
  cases call with
  | arm interval =>
    refine ⟨interval, rfl, ?_⟩
    by_contra hid
    exact hafter ((timer?_arm_of_ne interval hid).trans hbefore)
  | disarm j => exact absurd (by rw [act, timer?_disarm, hbefore, ite_self]) hafter
  | fire count => exact absurd (by rw [act, timer?_fire, hbefore, Option.map_none]) hafter
  | poll j => exact absurd (by rw [act, timer?_poll, hbefore, Option.map_none, ite_self]) hafter

/-- No number of a timer is given out twice. -/
theorem nextId_le_act (c : ManualClock) (call : ClockCall) : c.nextId ≤ (c.act call).nextId := by
  cases call with
  | arm interval => exact Nat.le_succ _
  | disarm | fire | poll => exact Nat.le_refl _

theorem Fresh.act (h : c.Fresh) (call : ClockCall) : (c.act call).Fresh := by
  intro id hid
  by_contra hsome
  obtain ⟨interval, rfl, rfl⟩ :=
    exists_arm_of_act (h id (Nat.le_trans (nextId_le_act c call) hid)) hsome
  exact Nat.lt_irrefl _ hid

/-- New timers stay new, whatever is asked of the clock. -/
theorem Fresh.run (h : c.Fresh) (calls : List ClockCall) : (c.run calls).Fresh := by
  induction calls generalizing c with
  | nil => exact h
  | cons call rest ih => exact ih (h.act call)

theorem fresh_of_timers_eq_nil (h : c.timers = []) : c.Fresh := by
  intro id _
  rw [timer?, h]
  rfl

theorem mem_timers_of_timer? {t : ManualTimer} (h : c.timer? id = some t) :
    (id, t) ∈ c.timers := by
  obtain ⟨before, after, htimers, -⟩ := List.lookup_eq_some_iff.mp h
  rw [htimers]
  exact List.mem_append_right _ List.mem_cons_self

/-- Firings of a timer are counted, as long as there is room. -/
theorem pending_act (call : ClockCall) {t : ManualTimer} (ht : c.timer? id = some t)
    (hroom : c.RoomFor call.firings) (hother : call.timer? ≠ some id) :
    ((c.act call).pending id).toNat = (c.pending id).toNat + call.firings := by
  obtain ⟨t', ht', hpending⟩ := timer?_act call ht hother
  have hcount : t.pending.toNat + call.firings < UInt32.size := hroom _ (mem_timers_of_timer? ht)
  have hfirings : call.firings < UInt32.size := by omega
  rw [pending_eq, ht', pending_eq, ht, Option.elim_some, Option.elim_some, hpending,
    UInt32.toNat_add, UInt32.toNat_ofNat_of_lt' hfirings]
  exact Nat.mod_eq_of_lt hcount

/-- A timer that is cancelled reports nothing any more. -/
theorem reportedIn_eq_zero (calls : List ClockCall) (ht : c.timer? id = none)
    (hid : id < c.nextId) : reportedIn id c calls = 0 := by
  induction calls generalizing c with
  | nil => rfl
  | cons call rest ih =>
    have hnone : (c.act call).timer? id = none := by
      by_contra hsome
      obtain ⟨interval, -, hnext⟩ := exists_arm_of_act ht hsome
      exact Nat.ne_of_lt hid hnext
    have hpoll : (c.poll id).1 = 0 := by
      change c.pending id = 0
      rw [pending_eq, ht, Option.elim_none]
    rw [reportedIn, ih hnone (Nat.lt_of_lt_of_le hid (nextId_le_act c call)), hpoll]
    split <;> rfl

/-- What is pending at first and the firings until a timer is disarmed have been reported or are
pending at that time. -/
theorem reportedIn_add_pending {calls : List ClockCall} {t : ManualTimer}
    (ht : c.timer? id = some t) (hid : id < c.nextId) (hroom : c.HasRoom calls) :
    reportedIn id c calls + ((c.run (untilDisarmed id calls)).pending id).toNat =
      (c.pending id).toNat + fired (untilDisarmed id calls) := by
  induction calls generalizing c t with
  | nil => exact Nat.add_comm _ _
  | cons call rest ih =>
    obtain ⟨hfire, hrest⟩ := hroom
    have hid' : id < (c.act call).nextId := Nat.lt_of_lt_of_le hid (nextId_le_act c call)
    by_cases hdisarm : call = .disarm id
    · subst hdisarm
      have hnone : (c.act (.disarm id)).timer? id = none := by
        rw [act, timer?_disarm, if_pos rfl]
      rw [untilDisarmed_disarm, reportedIn, if_neg (by simp), reportedIn_eq_zero rest hnone hid']
      exact Nat.add_comm _ _
    rw [untilDisarmed_cons hdisarm, fired_cons, reportedIn, run, List.foldl_cons]
    by_cases hpoll : call = .poll id
    · subst hpoll
      have ht' : (c.act (.poll id)).timer? id = some { t with pending := 0 } := by
        rw [act, timer?_poll, if_pos rfl, ht, Option.map_some]
      have hpending : ((c.act (.poll id)).pending id).toNat = 0 := by
        rw [pending_eq, ht', Option.elim_some, UInt32.toNat_zero]
      have hsum := ih ht' hid' hrest
      have hreport : (c.poll id).1 = c.pending id := rfl
      have hfirings : (ClockCall.poll id).firings = 0 := rfl
      rw [if_pos rfl, hreport, hfirings]
      rw [hpending, run] at hsum
      omega
    · have hother : call.timer? ≠ some id := call.timer?_ne hdisarm hpoll
      obtain ⟨t', ht', -⟩ := timer?_act call ht hother
      have hsum := ih ht' hid' hrest
      rw [pending_act call ht hfire hother, run] at hsum
      rw [if_neg hpoll]
      omega

/-- The timers that calls arm are new, each later one with a higher number. -/
theorem pairwise_armedIn (c : ManualClock) (calls : List ClockCall) :
    (∀ id ∈ c.armedIn calls, c.nextId ≤ id) ∧ (c.armedIn calls).Pairwise (· < ·) := by
  induction calls generalizing c with
  | nil => exact ⟨nofun, .nil⟩
  | cons call rest ih =>
    obtain ⟨hlow, hsorted⟩ := ih (c.act call)
    have hnext := nextId_le_act c call
    cases call with
    | arm interval =>
      refine ⟨List.forall_mem_cons.mpr ⟨Nat.le_refl _, fun id hid => ?_⟩,
        List.pairwise_cons.mpr ⟨fun id hid => ?_, hsorted⟩⟩
      · exact Nat.le_trans hnext (hlow id hid)
      · exact hlow id hid
    | disarm | fire | poll => exact ⟨hlow, hsorted⟩

/-- A timer that is armed has been armed by a call and not been disarmed since. -/
theorem exists_arm_of_timer? (hnew : c.timers = []) (calls : List ClockCall) {t : ManualTimer}
    (ht : (c.run calls).timer? id = some t) :
    ∃ before interval after, calls = before ++ .arm interval :: after ∧
      id = ((c.run before).arm interval).1 ∧ .disarm id ∉ after := by
  induction calls using List.reverseRecOn generalizing t with
  | nil =>
    rw [run, List.foldl_nil, timer?, hnew] at ht
    cases ht
  | append_singleton calls call ih =>
    rw [run, List.foldl_append] at ht
    have hcall : call ≠ .disarm id := by
      rintro rfl
      rw [List.foldl_cons, List.foldl_nil, act, timer?_disarm, if_pos rfl] at ht
      cases ht
    by_cases hbefore : (c.run calls).timer? id = none
    · obtain ⟨interval, rfl, hid⟩ := exists_arm_of_act hbefore (by
        rw [List.foldl_cons, List.foldl_nil] at ht
        exact Option.ne_none_iff_exists'.mpr ⟨t, ht⟩)
      exact ⟨calls, interval, [], rfl, hid, nofun⟩
    · obtain ⟨t', ht'⟩ := Option.ne_none_iff_exists'.mp hbefore
      obtain ⟨before, interval, after, rfl, hid, hafter⟩ := ih ht'
      refine ⟨before, interval, after ++ [call], by simp, hid, ?_⟩
      rw [List.mem_append, List.mem_singleton]
      rintro (hmem | hmem)
      · exact hafter hmem
      · exact hcall hmem.symm

theorem hasRoom_append {before after : List ClockCall} (h : c.HasRoom (before ++ after)) :
    (c.run before).HasRoom after := by
  induction before generalizing c with
  | nil => exact h
  | cons call rest ih => exact ih h.2

structure Balanced (c : ManualClock) (calls : List ClockCall) : Prop where
  distinct : (c.armedIn calls).Nodup
  /-- What a timer has ever reported and what it has pending, at the end or when it is disarmed,
  are its firings from the time that it is armed. -/
  conserved : ∀ before interval after, calls = before ++ .arm interval :: after →
    let (id, armed) := (c.run before).arm interval
    reportedIn id armed after + ((armed.run (untilDisarmed id after)).pending id).toNat =
      fired (untilDisarmed id after)
  /-- A timer that has not been armed, or that has been disarmed since, reports nothing. -/
  silent : ∀ id, (∀ before interval after, calls = before ++ .arm interval :: after →
    id = ((c.run before).arm interval).1 → .disarm id ∈ after) → ((c.run calls).poll id).1 = 0
  /-- What is done with one timer is nothing to another. -/
  apart : ∀ call id, (∀ count, call ≠ .fire count) → call.timer? ≠ some id →
    ((c.run calls).act call).pending id = (c.run calls).pending id

/-- A call about another timer changes nothing about this one. -/
theorem Fresh.pending_act_of_ne (h : c.Fresh) {call : ClockCall}
    (hfire : ∀ count, call ≠ .fire count) (hother : call.timer? ≠ some id) :
    (c.act call).pending id = c.pending id := by
  have hfirings : UInt32.ofNat call.firings = 0 := by
    cases call with
    | fire count => exact absurd rfl (hfire count)
    | arm | disarm | poll => rfl
  cases ht : c.timer? id with
  | some t =>
    obtain ⟨t', ht', hpending⟩ := timer?_act call ht hother
    rw [pending_eq, pending_eq, ht, ht', Option.elim_some, Option.elim_some, hpending, hfirings,
      UInt32.add_zero]
  | none =>
    rw [pending_eq, pending_eq, ht, Option.elim_none]
    by_cases hnone : (c.act call).timer? id = none
    · rw [hnone, Option.elim_none]
    · obtain ⟨interval, rfl, rfl⟩ := exists_arm_of_act ht hnone
      have harmed : (c.act (.arm interval)).timer? (c.arm interval).1 = some ⟨interval, 0⟩ :=
        h.timer?_arm_self interval
      rw [harmed, Option.elim_some]

/-- No firing is lost and none is reported twice. -/
theorem balanced (hnew : c.timers = []) {calls : List ClockCall} (hroom : c.HasRoom calls) :
    c.Balanced calls where
  distinct := (pairwise_armedIn c calls).2.imp Nat.ne_of_lt
  conserved := by
    rintro before interval after rfl
    have hfresh : (c.run before).Fresh := (fresh_of_timers_eq_nil hnew).run before
    have harmed : _ = some _ := hfresh.timer?_arm_self interval
    have hpending : ((c.run before).arm interval).2.pending (c.run before).nextId = 0 := by
      rw [pending_eq, harmed, Option.elim_some]
    have hsum := reportedIn_add_pending harmed (Nat.lt_succ_self _) (hasRoom_append hroom).2
    rw [hpending, UInt32.toNat_zero, Nat.zero_add] at hsum
    exact hsum
  silent := by
    intro id hid
    change (c.run calls).pending id = 0
    rw [pending_eq]
    cases ht : (c.run calls).timer? id with
    | none => rfl
    | some t =>
      obtain ⟨before, interval, after, hcalls, hid', hafter⟩ := exists_arm_of_timer? hnew calls ht
      exact absurd (hid before interval after hcalls hid') hafter
  apart _ _ hfire hother := ((fresh_of_timers_eq_nil hnew).run calls).pending_act_of_ne hfire hother

end ManualClock

end BehaviorTree
