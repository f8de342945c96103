import BehaviorTree.Proofs.Firings

/-!
Timers do not drift. On a clock that goes with time, the firings of a timer that have been reported
say at which moment the next report starts: as many intervals after the arming. So no remainder is
dropped and none is counted twice, however often and whenever the timer is asked, and what one
answer cannot hold is left to the next ones.
-/
namespace BehaviorTree

inductive SteadyRequest where
  | arm (interval : ℕ)
  | disarm (id : TimerId)
  | poll (id : TimerId)
  deriving DecidableEq

structure SteadyCall where
  now : ℕ
  request : SteadyRequest
  deriving DecidableEq

namespace SteadyCall

def polls (id : TimerId) (calls : List SteadyCall) : ℕ := calls.countP (·.request = .poll id)

theorem polls_cons (id : TimerId) (call : SteadyCall) (rest : List SteadyCall) :
    polls id (call :: rest) = polls id rest + if call.request = .poll id then 1 else 0 := by
  rw [polls, List.countP_cons, polls]
  simp only [decide_eq_true_eq]

/-- Calls between two moments that do not go back in time and leave a timer armed. -/
structure Undisturbed (id : TimerId) (start finish : ℕ) (calls : List SteadyCall) : Prop where
  ordered : (start :: (calls.map (·.now) ++ [finish])).IsChain (· ≤ ·)
  kept : ∀ call ∈ calls, call.request ≠ .disarm id

instance (id : TimerId) (start finish : ℕ) (calls : List SteadyCall) :
    Decidable (Undisturbed id start finish calls) :=
  decidable_of_iff
    ((start :: (calls.map (·.now) ++ [finish])).IsChain (· ≤ ·) ∧
      ∀ call ∈ calls, call.request ≠ .disarm id)
    ⟨fun h => ⟨h.1, h.2⟩, fun h => ⟨h.1, h.2⟩⟩

variable {id : TimerId} {start finish : ℕ} {call : SteadyCall} {calls rest : List SteadyCall}

theorem Undisturbed.uncons (h : Undisturbed id start finish (call :: rest)) :
    start ≤ call.now ∧ call.request ≠ .disarm id ∧ Undisturbed id call.now finish rest := by
  obtain ⟨hstart, hrest⟩ := List.isChain_cons_cons.mp h.ordered
  obtain ⟨hcall, hkept⟩ := List.forall_mem_cons.mp h.kept
  exact ⟨hstart, hcall, hrest, hkept⟩

theorem Undisturbed.start_le (h : Undisturbed id start finish calls) : start ≤ finish := by
  induction calls generalizing start with
  | nil => exact (List.isChain_cons_cons.mp h.ordered).1
  | cons call rest ih =>
    obtain ⟨hstart, -, hrest⟩ := h.uncons
    exact Nat.le_trans hstart (ih hrest)

end SteadyCall

namespace SteadyClock

open SteadyCall

variable {c : SteadyClock} {id : TimerId} {call : SteadyCall} {calls : List SteadyCall}

def act (c : SteadyClock) (call : SteadyCall) : SteadyClock :=
  match call.request with
  | .arm interval => (c.arm call.now interval).2
  | .disarm id => c.disarm id
  | .poll id => (c.poll call.now id).2

def run (c : SteadyClock) (calls : List SteadyCall) : SteadyClock := calls.foldl act c

def reported (id : TimerId) (c : SteadyClock) (call : SteadyCall) : ℕ :=
  if call.request = .poll id then (c.poll call.now id).1 else 0

def reportedIn (id : TimerId) (c : SteadyClock) : List SteadyCall → ℕ
  | [] => 0
  | call :: rest => c.reported id call + reportedIn id (c.act call) rest

theorem run_cons (c : SteadyClock) (call : SteadyCall) (rest : List SteadyCall) :
    c.run (call :: rest) = (c.act call).run rest := rfl

theorem run_append (c : SteadyClock) (before after : List SteadyCall) :
    c.run (before ++ after) = (c.run before).run after := List.foldl_append

theorem reportedIn_append (c : SteadyClock) (before after : List SteadyCall) :
    reportedIn id c (before ++ after) =
      reportedIn id c before + reportedIn id (c.run before) after := by
  induction before generalizing c with
  | nil => exact (Nat.zero_add _).symm
  | cons call rest ih =>
    rw [List.cons_append, reportedIn, reportedIn, run_cons, ih, Nat.add_assoc]

def timer? (c : SteadyClock) (id : TimerId) : Option SteadyTimer := c.timers.lookup id

theorem timer?_arm (c : SteadyClock) (now interval : ℕ) (id : TimerId) :
    (c.arm now interval).2.timer? id =
      (c.timer? id).or (if id = c.nextId then some ⟨interval, now⟩ else none) :=
  lookup_snoc c.timers c.nextId ⟨interval, now⟩ id

theorem timer?_disarm (c : SteadyClock) (id j : TimerId) :
    (c.disarm id).timer? j = if j = id then none else c.timer? j :=
  lookup_removeTimer id j c.timers

/-- A poll accounts for whole intervals of its own timer. -/
theorem timer?_poll (c : SteadyClock) (now : ℕ) (id j : TimerId) :
    (c.poll now id).2.timer? j =
      if j = id then (c.timer? j).map fun t => { t with last := t.last + t.interval * due t now }
      else c.timer? j := by
  cases ht : c.timers.lookup id with
  | none =>
    have hsame : (c.poll now id).2 = c := by simp only [poll, ht]
    rw [hsame]
    split
    next hid =>
      have hnone : c.timer? j = none := hid ▸ ht
      rw [hnone, Option.map_none]
    · rfl
  | some t =>
    simp only [poll, ht, timer?]
    rw [lookup_updateTimer]
    split
    next hid => rw [hid, ht, Option.map_some, Option.map_some]
    · rfl

theorem poll_eq_due {t : SteadyTimer} (ht : c.timer? id = some t) (now : ℕ) :
    (c.poll now id).1 = due t now := by
  have hlookup : c.timers.lookup id = some t := ht
  simp only [poll, hlookup]

def Fresh (c : SteadyClock) : Prop := ∀ id, c.nextId ≤ id → c.timer? id = none

theorem nextId_poll (c : SteadyClock) (now : ℕ) (id : TimerId) :
    (c.poll now id).2.nextId = c.nextId := by
  unfold poll
  split <;> rfl

theorem fresh_new : new.Fresh := fun _ _ => rfl

theorem Fresh.act (h : c.Fresh) (call : SteadyCall) : (c.act call).Fresh := by
  intro id hid
  obtain ⟨now, request⟩ := call
  cases request with
  | arm interval =>
    have hlow : c.nextId < id := hid
    have hnone : c.timer? id = none := h id (Nat.le_of_lt hlow)
    change (c.arm now interval).2.timer? id = none
    rw [timer?_arm, hnone, Option.none_or, if_neg (Nat.ne_of_gt hlow)]
  | disarm j =>
    have hnone : c.timer? id = none := h id hid
    change (c.disarm j).timer? id = none
    rw [timer?_disarm, hnone, ite_self]
  | poll j =>
    have hnext : (c.poll now j).2.nextId ≤ id := hid
    rw [nextId_poll] at hnext
    have hnone : c.timer? id = none := h id hnext
    change (c.poll now j).2.timer? id = none
    rw [timer?_poll, hnone, Option.map_none, ite_self]

theorem Fresh.run (h : c.Fresh) (calls : List SteadyCall) : (c.run calls).Fresh := by
  induction calls generalizing c with
  | nil => exact h
  | cons call rest ih => exact ih (h.act call)

/-- Only a call about a timer cancels it or takes its firings. -/
theorem timer?_act_of_ne {t : SteadyTimer} (ht : c.timer? id = some t)
    (hdisarm : call.request ≠ .disarm id) (hpoll : call.request ≠ .poll id) :
    (c.act call).timer? id = some t := by
  obtain ⟨now, request⟩ := call
  cases request with
  | arm interval =>
    change (c.arm now interval).2.timer? id = some t
    rw [timer?_arm, ht, Option.some_or]
  | disarm j =>
    have hne : id ≠ j := fun h => hdisarm (congrArg SteadyRequest.disarm h.symm)
    change (c.disarm j).timer? id = some t
    rw [timer?_disarm, if_neg hne, ht]
  | poll j =>
    have hne : id ≠ j := fun h => hpoll (congrArg SteadyRequest.poll h.symm)
    change (c.poll now j).2.timer? id = some t
    rw [timer?_poll, if_neg hne, ht]

/-- A timer that was armed at `start` and has reported `total` firings: they are accounted for up to
the moment of the last of them, which is not later than `now`. -/
structure OnSchedule (c : SteadyClock) (id : TimerId) (interval start total now : ℕ) : Prop where
  timer : c.timer? id = some ⟨interval, start + interval * total⟩
  last_le : start + interval * total ≤ now

variable {interval start total now finish : ℕ}

theorem Fresh.onSchedule (h : c.Fresh) (start interval : ℕ) :
    (c.arm start interval).2.OnSchedule (c.arm start interval).1 interval start 0 start where
  timer := by
    have hnone : c.timer? c.nextId = none := h c.nextId (Nat.le_refl _)
    change (c.arm start interval).2.timer? c.nextId = _
    rw [timer?_arm, hnone, Option.none_or, if_pos rfl, Nat.mul_zero, Nat.add_zero]
  last_le := by omega

namespace OnSchedule

theorem later (h : c.OnSchedule id interval start total now) (hle : now ≤ finish) :
    c.OnSchedule id interval start total finish :=
  ⟨h.timer, Nat.le_trans h.last_le hle⟩

/-- No more is reported than has come due. -/
theorem total_le (h : c.OnSchedule id interval start total now) (hpos : 0 < interval) :
    total ≤ (now - start) / interval := by
  rw [Nat.le_div_iff_mul_le hpos, Nat.mul_comm]
  have hlast := h.last_le
  omega

/-- A timer reports what has come due since its arming, less what it has reported before. -/
theorem poll_eq (h : c.OnSchedule id interval start total now) (hpos : 0 < interval) :
    (c.poll now id).1 = min ((now - start) / interval - total) mostDue := by
  have hsub : now - (start + interval * total) = now - start - interval * total :=
    Nat.sub_add_eq _ _ _
  rw [poll_eq_due h.timer, due, if_neg (Nat.ne_of_gt hpos), hsub, Nat.sub_mul_div]

/-- A poll keeps the schedule, with what it reports added to the total. -/
theorem poll (h : c.OnSchedule id interval start total now) (hpos : 0 < interval) :
    (c.poll now id).2.OnSchedule id interval start (total + (c.poll now id).1) now where
  timer := by
    rw [timer?_poll, if_pos rfl, h.timer, Option.map_some, poll_eq_due h.timer, Nat.mul_add,
      Nat.add_assoc]
  last_le := by
    have hreport := h.poll_eq hpos
    have htotal := h.total_le hpos
    have hlast := h.last_le
    have hdue : total + (c.poll now id).1 ≤ (now - start) / interval := by omega
    rw [Nat.le_div_iff_mul_le hpos, Nat.mul_comm] at hdue
    omega

theorem act (h : c.OnSchedule id interval start total now) (hpos : 0 < interval)
    (hnow : now ≤ call.now) (hkept : call.request ≠ .disarm id) :
    (c.act call).OnSchedule id interval start (total + c.reported id call) call.now := by
  have hlater := h.later hnow
  by_cases hpoll : call.request = .poll id
  · have hact : c.act call = (c.poll call.now id).2 := by rw [SteadyClock.act, hpoll]
    rw [reported, if_pos hpoll, hact]
    exact hlater.poll hpos
  · rw [reported, if_neg hpoll]
    exact ⟨timer?_act_of_ne h.timer hkept hpoll, hlater.last_le⟩

theorem run (h : c.OnSchedule id interval start total now) (hpos : 0 < interval)
    (hcalls : Undisturbed id now finish calls) :
    (c.run calls).OnSchedule id interval start (total + reportedIn id c calls) finish := by
  induction calls generalizing c total now with
  | nil => exact h.later hcalls.start_le
  | cons call rest ih =>
    obtain ⟨hnow, hkept, hrest⟩ := hcalls.uncons
    have hlast := ih (h.act hpos hnow hkept) hrest
    rwa [Nat.add_assoc] at hlast

/-- What has come due by now is reported by as many polls as it takes. -/
theorem le_reportedIn (h : c.OnSchedule id interval start total now) (hpos : 0 < interval)
    (hcalls : Undisturbed id now finish calls) :
    min ((now - start) / interval) (total + polls id calls * mostDue) ≤
      total + reportedIn id c calls := by
  -- What is due now stays behind as the induction goes on to later moments.
  suffices hdue : ∀ due ≤ (now - start) / interval,
      min due (total + polls id calls * mostDue) ≤ total + reportedIn id c calls from
    hdue _ (Nat.le_refl _)
  intro due hdue
  induction calls generalizing c total now with
  | nil =>
    have hnone : polls id [] = 0 := rfl
    rw [hnone, Nat.zero_mul]
    exact Nat.min_le_right _ _
  | cons call rest ih =>
    obtain ⟨hnow, hkept, hrest⟩ := hcalls.uncons
    have hlater : (now - start) / interval ≤ (call.now - start) / interval :=
      Nat.div_le_div_right (by omega)
    have hstep := ih (h.act hpos hnow hkept) hrest (by omega)
    rw [polls_cons, reportedIn]
    by_cases hpoll : call.request = .poll id
    · have hreport : c.reported id call =
          min ((call.now - start) / interval - total) mostDue := by
        rw [reported, if_pos hpoll]
        exact (h.later hnow).poll_eq hpos
      have htotal := (h.later hnow).total_le hpos
      rw [if_pos hpoll, Nat.add_mul, Nat.one_mul]
      omega
    · rw [if_neg hpoll, Nat.add_zero]
      omega

end OnSchedule

/-- A timer that keeps time when it is asked at `now` after other calls, and from then on. -/
structure KeepsTime (armed : SteadyClock) (id : TimerId) (interval start : ℕ)
    (calls : List SteadyCall) (now : ℕ) : Prop where
  report : ((armed.run calls).poll now id).1 =
    min ((now - start) / interval - armed.reportedIn id calls) mostDue
  bounded : armed.reportedIn id (calls ++ [⟨now, .poll id⟩]) ≤ (now - start) / interval
  exact : ((armed.run calls).poll now id).1 < mostDue →
    armed.reportedIn id (calls ++ [⟨now, .poll id⟩]) = (now - start) / interval
  /-- Firings are accounted for up to the last one that has been reported, and not beyond now. -/
  stored : ∃ last, (armed.run (calls ++ [⟨now, .poll id⟩])).timer? id = some ⟨interval, last⟩ ∧
    last = start + interval * armed.reportedIn id (calls ++ [⟨now, .poll id⟩]) ∧ last ≤ now
  /-- What one answer cannot hold is reported by the next ones. -/
  caught_up : ∀ later finish, Undisturbed id now finish later →
    min ((now - start) / interval)
        (armed.reportedIn id (calls ++ [⟨now, .poll id⟩]) + polls id later * mostDue) ≤
      armed.reportedIn id (calls ++ ⟨now, .poll id⟩ :: later)

/-- A timer keeps time from its arming on. -/
theorem Fresh.keepsTime (h : c.Fresh) (hpos : 0 < interval)
    (hcalls : Undisturbed (c.arm start interval).1 start now calls) :
    KeepsTime (c.arm start interval).2 (c.arm start interval).1 interval start calls now := by
  have hrun := (h.onSchedule start interval).run hpos hcalls
  rw [Nat.zero_add] at hrun
  generalize (c.arm start interval).2 = armed at *
  generalize (c.arm start interval).1 = id at *
  have hreport := hrun.poll_eq hpos
  have htotal := hrun.total_le hpos
  have hpoll := hrun.poll hpos
  have hsum : armed.reportedIn id (calls ++ [⟨now, .poll id⟩]) =
      armed.reportedIn id calls + ((armed.run calls).poll now id).1 := by
    rw [reportedIn_append, reportedIn, reportedIn, reported, if_pos rfl, Nat.add_zero]
  have hafter : armed.run (calls ++ [⟨now, .poll id⟩]) = ((armed.run calls).poll now id).2 :=
    run_append armed calls _
  rw [← hsum, ← hafter] at hpoll
  refine ⟨hreport, hpoll.total_le hpos, fun hless => ?_, ⟨_, hpoll.timer, rfl, hpoll.last_le⟩,
    fun later finish hlater => ?_⟩
  · omega
  · have hcaught := hpoll.le_reportedIn hpos hlater
    rwa [← reportedIn_append, List.append_assoc, List.singleton_append] at hcaught

/-- A timer does not drift. Whatever the clock has been asked before, and whatever it is asked about
its other timers in between, the reports of a timer add up to what has come due since its arming,
unless the last answer is as large as an answer can be. So two hosts that arm a timer at the same
moment have the same total at any later one, however often and whenever they ask. -/
theorem does_not_drift (hpos : 0 < interval) (start now : ℕ) (before : List SteadyCall)
    (hcalls : Undisturbed ((new.run before).arm start interval).1 start now calls) :
    let (id, armed) := (new.run before).arm start interval
    KeepsTime armed id interval start calls now ∧
      ∀ before' calls',
        let (id', armed') := (new.run before').arm start interval
        Undisturbed id' start now calls' →
          ((armed.run calls).poll now id).1 < mostDue →
          ((armed'.run calls').poll now id').1 < mostDue →
          armed.reportedIn id (calls ++ [⟨now, .poll id⟩]) =
            armed'.reportedIn id' (calls' ++ [⟨now, .poll id'⟩]) := by
  have hkeeps := (fresh_new.run before).keepsTime hpos hcalls
  refine ⟨hkeeps, fun before' calls' hcalls' hless hless' => ?_⟩
  have hkeeps' := (fresh_new.run before').keepsTime hpos hcalls'
  exact (hkeeps.exact hless).trans (hkeeps'.exact hless').symm

/-- A timer with an interval of three that is armed at ten, on a clock with another timer, and left
alone for so long that one answer cannot hold what is due: the next one has the rest. Who has asked
at seventeen needs one answer less. -/
theorem does_not_drift_in_threes :
    let id := ((new.run [⟨5, .arm 1⟩]).arm 10 3).1
    let armed := ((new.run [⟨5, .arm 1⟩]).arm 10 3).2
    let late := 11 + 3 * (mostDue + 1)
    Undisturbed id 10 late [⟨late, .poll id⟩] ∧ KeepsTime armed id 3 10 [⟨late, .poll id⟩] late ∧
      armed.reportedIn id [⟨late, .poll id⟩] = mostDue ∧
      armed.reportedIn id [⟨late, .poll id⟩, ⟨late, .poll id⟩] = mostDue + 1 ∧
      armed.reportedIn id [⟨late, .poll id⟩, ⟨late, .poll id⟩] =
        armed.reportedIn id [⟨17, .poll id⟩, ⟨20, .poll 0⟩, ⟨late, .poll id⟩] := by
  intro id armed late
  have hcalls : Undisturbed id 10 late [⟨late, .poll id⟩] := by decide +kernel
  obtain ⟨hkeeps, hsame⟩ := does_not_drift (by decide : 0 < 3) 10 late [⟨5, .arm 1⟩] hcalls
  have hearly := hsame [⟨5, .arm 1⟩] [⟨17, .poll id⟩, ⟨20, .poll 0⟩] (by decide +kernel)
    (by decide +kernel) (by decide +kernel)
  exact ⟨hcalls, hkeeps, by decide +kernel, by decide +kernel, hearly⟩

end SteadyClock

end BehaviorTree
