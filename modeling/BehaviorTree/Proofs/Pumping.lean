import BehaviorTree.Proofs.Editing
import BehaviorTree.Proofs.Firings
import BehaviorTree.Proofs.Observation
import BehaviorTree.Proofs.Passes
import BehaviorTree.Proofs.Timekeeping

/-!
Pumping. A tree shares its clock with a host that has timers of its own. Whatever the two of them
do, and in whichever order, a running tree that is pumped makes one pass for every firing since it
last took up its timer, by arming it or by being pumped, and no other tree makes any. Firings from
before that are never made up for.
-/
namespace BehaviorTree

open ManualClock

def Call.firings : Call → UInt32
  | fire count => count
  | _ => 0

/-- Whether a call makes a tree begin to count the firings of its timer anew. -/
def Call.TakesUp (state : ExecutionState) : Call → Prop
  | start => state ≠ .running
  | setTickRate _ | pump => state = .running
  | _ => False

namespace Console

variable {c c' : Console} {own : List TimerId} {call : Call}

def owed (c : Console) : ℕ := c.timer.elim 0 fun id => (c.clock.pending id).toNat

/-- A console on a clock where some timers belong to somebody else. -/
structure Shares (c : Console) (own : List TimerId) : Prop where
  fresh : c.clock.Fresh
  known : ∀ id ∈ own, id < c.clock.nextId
  mine : ∀ id, c.timer = some id → id < c.clock.nextId ∧ id ∉ own
  held : c.state = .running → ∃ id t, c.timer = some id ∧ c.clock.timer? id = some t

inductive Turn (c : Console) (call : Call) : Console → Prop where
  | goesOn {c' : Console} (hcall : ¬ call.TakesUp c.state) (hstate : c'.state = c.state)
      (htimer : c'.timer = c.timer) (hclock : c'.clock = c.clock.fire call.firings) :
      Turn c call c'
  | leaves {c' : Console} (hcall : ¬ call.TakesUp c.state) (hstate : c'.state ≠ .running)
      (htimer : c'.timer = c.disarm.timer) (hclock : c'.clock = c.disarm.clock) : Turn c call c'
  | arms {c' : Console} (interval : ℕ) (hcall : call.TakesUp c.state) (hstate : c'.state = .running)
      (htimer : c'.timer = some (c.disarm.clock.arm interval).1)
      (hclock : c'.clock = (c.disarm.clock.arm interval).2) : Turn c call c'
  | polls {c' : Console} (id : TimerId) (hcall : call.TakesUp c.state) (hheld : c.timer = some id)
      (hstate : c'.state = c.state) (htimer : c'.timer = c.timer)
      (hclock : c'.clock = (c.clock.poll id).2) : Turn c call c'

theorem fire_zero (clock : ManualClock) : clock.fire 0 = clock := by
  have hsame : clock.timers.map (fun t => (t.1, { t.2 with pending := t.2.pending + 0 })) =
      clock.timers := by
    simp only [UInt32.add_zero, List.map_id']
  rw [fire, hsame]

/-- A call that is nothing to the console lets the timer go on. -/
theorem Turn.still (hcall : ¬ call.TakesUp c.state) (hfirings : call.firings = 0)
    (hstate : c'.state = c.state) (htimer : c'.timer = c.timer) (hclock : c'.clock = c.clock) :
    c.Turn call c' :=
  .goesOn hcall hstate htimer (by rw [hfirings, fire_zero, hclock])

/-- Every call is one of these. -/
theorem Shares.turn (h : c.Shares own) (call : Call) : c.Turn call (c.act call) := by
  cases call with
  | start =>
    by_cases hrun : c.state = .running
    · exact .still (not_not.mpr hrun) rfl (by simp [act, hrun]) (by simp [act, hrun])
        (by simp [act, hrun])
    · refine .arms (TickRate.interval c.disarm.rate) hrun ?_ ?_ ?_ <;> simp [act, hrun, arm]
  | pause =>
    by_cases hrun : c.state = .running
    · refine .leaves not_false ?_ ?_ ?_ <;> simp [act, hrun]
    · refine .still not_false rfl ?_ ?_ ?_ <;> simp [act, hrun]
  | stop => refine .leaves not_false ?_ ?_ ?_ <;> simp [act]
  | step =>
    cases hstate : c.state with
    | running => refine .leaves not_false ?_ ?_ ?_ <;> simp [act, hstate]
    | idle | paused => refine .still not_false rfl ?_ ?_ ?_ <;> simp [act, hstate]
  | pump =>
    by_cases hrun : c.state = .running
    · obtain ⟨id, t, htimer, -⟩ := h.held hrun
      refine .polls id hrun htimer ?_ ?_ ?_ <;> simp [act, poll, htimer, hrun]
    · refine .still hrun rfl ?_ ?_ ?_ <;> cases htimer : c.timer <;> simp [act, poll, htimer, hrun]
  | setTickRate rate =>
    by_cases hrun : c.state = .running
    · let d : Console := { c with rate := TickRate.clamp rate }
      have hact : c.act (.setTickRate rate) = d.arm := if_pos hrun
      have hclock : d.disarm.clock = c.disarm.clock := by
        simp only [d, disarm_withRate]
      rw [hact]
      refine .arms (TickRate.interval d.disarm.rate) hrun ((arm_keeps d).1.trans hrun) ?_ ?_
      · rw [← hclock]
        rfl
      · rw [← hclock]
        rfl
    · refine .still hrun rfl ?_ ?_ ?_ <;> simp [act, hrun]
  | fire count => exact .goesOn not_false rfl rfl rfl
  | tick | reset | resetAll | setRoot | setNodes | load | watchTicks | watchState | edit | write =>
    exact .still not_false rfl rfl rfl rfl

/-- Disarming leaves the timers of others alone, and no timer to the tree. -/
theorem Shares.disarm (h : c.Shares own) : c.disarm.clock.Fresh ∧
    (∀ id ∈ own, id < c.disarm.clock.nextId) ∧ c.disarm.timer = none := by
  cases htimer : c.timer with
  | none =>
    have hsame : c.disarm = c := by simp only [Console.disarm, htimer]
    rw [hsame]
    exact ⟨h.fresh, h.known, htimer⟩
  | some id =>
    have hclock : c.disarm.clock = c.clock.act (.disarm id) := by
      simp only [Console.disarm, htimer, ManualClock.act]
    have hnone : c.disarm.timer = none := by simp only [Console.disarm, htimer]
    rw [hclock]
    exact ⟨h.fresh.act _, h.known, hnone⟩

/-- What is asked of the clock without cancelling the timer of the tree. -/
theorem Shares.ask (h : c.Shares own) (asked : ClockCall)
    (hasked : ∀ id, c.timer = some id → asked ≠ .disarm id) (hstate : c'.state = c.state)
    (htimer : c'.timer = c.timer) (hclock : c'.clock = c.clock.act asked) : c'.Shares own := by
  have hnext : c.clock.nextId ≤ c'.clock.nextId := hclock ▸ nextId_le_act c.clock asked
  refine ⟨hclock ▸ h.fresh.act asked, fun id hid => Nat.lt_of_lt_of_le (h.known id hid) hnext,
    fun id hid => ?_, fun hrun => ?_⟩
  · obtain ⟨hlt, hmine⟩ := h.mine id (htimer ▸ hid)
    exact ⟨Nat.lt_of_lt_of_le hlt hnext, hmine⟩
  · obtain ⟨id, t, hid, ht⟩ := h.held (hstate ▸ hrun)
    obtain ⟨t', ht'⟩ := exists_timer?_act ht (hasked id hid)
    exact ⟨id, t', htimer.trans hid, hclock ▸ ht'⟩

theorem Turn.shares (hturn : c.Turn call c') (h : c.Shares own) : c'.Shares own := by
  obtain ⟨hfresh, hknown, hnone⟩ := h.disarm
  cases hturn with
  | goesOn hcall hstate htimer hclock =>
    exact h.ask (.fire call.firings) nofun hstate htimer hclock
  | leaves hcall hstate htimer hclock =>
    refine ⟨hclock ▸ hfresh, hclock ▸ hknown, ?_, fun hrun => absurd hrun hstate⟩
    rw [htimer, hnone]
    nofun
  | arms interval hcall hstate htimer hclock =>
    refine ⟨?_, ?_, ?_, fun _ => ?_⟩
    · rw [hclock]
      exact hfresh.act (.arm interval)
    · rw [hclock]
      exact fun id hid => Nat.lt_succ_of_lt (hknown id hid)
    · rw [htimer, hclock]
      rintro _ ⟨⟩
      exact ⟨Nat.lt_succ_self _, fun hmem => Nat.lt_irrefl _ (hknown _ hmem)⟩
    · exact ⟨_, _, htimer, hclock ▸ hfresh.timer?_arm_self interval⟩
  | polls id hcall hheld hstate htimer hclock =>
    exact h.ask (.poll id) nofun hstate htimer hclock

/-- Taking up the timer leaves nothing pending. -/
theorem Turn.owed_of_takesUp (hturn : c.Turn call c') (h : c.Shares own)
    (hcall : call.TakesUp c.state) : c'.owed = 0 := by
  cases hturn with
  | goesOn hnot | leaves hnot => exact absurd hcall hnot
  | arms interval _ hstate htimer hclock =>
    have harmed : c'.clock.timer? c.disarm.clock.nextId = some ⟨interval, 0⟩ :=
      hclock ▸ h.disarm.1.timer?_arm_self interval
    rw [owed, htimer, Option.elim_some]
    change (c'.clock.pending c.disarm.clock.nextId).toNat = 0
    rw [pending_eq, harmed, Option.elim_some, UInt32.toNat_zero]
  | polls id _ hheld hstate htimer hclock =>
    rw [owed, htimer, hheld, Option.elim_some, pending_eq, hclock, timer?_poll, if_pos rfl]
    cases c.clock.timer? id <;> rfl

/-- Otherwise a tree that is running has been running, and what fires is added. -/
theorem Turn.owed_of_not (hturn : c.Turn call c') (h : c.Shares own)
    (hcall : ¬ call.TakesUp c.state) (hrun : c'.state = .running)
    (hroom : c.clock.RoomFor call.firings.toNat) :
    c.state = .running ∧ c'.owed = c.owed + call.firings.toNat := by
  cases hturn with
  | goesOn _ hstate htimer hclock =>
    have hrun' : c.state = .running := hstate.symm.trans hrun
    obtain ⟨id, t, hid, ht⟩ := h.held hrun'
    have hpending := pending_act (.fire call.firings) ht hroom nofun
    refine ⟨hrun', ?_⟩
    rw [owed, owed, htimer, hid, Option.elim_some, Option.elim_some, hclock]
    exact hpending
  | leaves _ hstate => exact absurd hrun hstate
  | arms _ htakes | polls _ htakes => exact absurd htakes hcall

end Console

/-- What happens to a tree and to the clock that it shares with its host. A timer is known to whom
it has been armed for and to nobody else: the host refers to its own timers by their order. -/
inductive Deed where
  | call (call : Call)
  | arm (interval : ℕ)
  | disarm (index : ℕ)
  | poll (index : ℕ)

namespace Deed

def firings : Deed → ℕ
  | call c => c.firings.toNat
  | arm _ | disarm _ | poll _ => 0

def TakesUp (state : ExecutionState) : Deed → Prop
  | call c => c.TakesUp state
  | arm _ | disarm _ | poll _ => False

def fired : List Deed → ℕ
  | [] => 0
  | deed :: rest => deed.firings + fired rest

theorem fired_concat (deeds : List Deed) (deed : Deed) :
    fired (deeds ++ [deed]) = fired deeds + deed.firings := by
  induction deeds with
  | nil => exact Nat.add_comm _ _
  | cons first rest ih => rw [List.cons_append, fired, ih, fired, Nat.add_assoc]

end Deed

/-- A tree, and the timers of the host in the order in which they have been armed. -/
structure Shared (σ : Type) where
  engine : Engine σ
  own : List TimerId

namespace Shared

variable {σ : Type} {s : Shared σ} {ex : Executor σ}

def begin (rate : ℕ) (first : TimerId) (forest : Forest) (memory : σ) : Shared σ :=
  ⟨.begin rate first forest memory, []⟩

def ask (s : Shared σ) (asked : ClockCall) : Shared σ :=
  { s with engine := { s.engine with clock := s.engine.clock.act asked } }

def act (ex : Executor σ) (s : Shared σ) : Deed → Shared σ
  | .call c => { s with engine := s.engine.call ex c }
  | .arm interval =>
    { s.ask (.arm interval) with own := s.own ++ [(s.engine.clock.arm interval).1] }
  | .disarm index => s.own[index]?.elim s fun id => s.ask (.disarm id)
  | .poll index => s.own[index]?.elim s fun id => s.ask (.poll id)

def run (ex : Executor σ) (s : Shared σ) (deeds : List Deed) : Shared σ := deeds.foldl (act ex) s

def HasRoom (ex : Executor σ) (s : Shared σ) : List Deed → Prop
  | [] => True
  | deed :: rest => s.engine.clock.RoomFor deed.firings ∧ (s.act ex deed).HasRoom ex rest

instance decidableHasRoom (ex : Executor σ) (s : Shared σ) (deeds : List Deed) :
    Decidable (s.HasRoom ex deeds) :=
  match deeds with
  | [] => inferInstanceAs (Decidable True)
  | deed :: rest =>
    have := decidableHasRoom ex (s.act ex deed) rest
    inferInstanceAs (Decidable (_ ∧ _))

theorem run_append (deeds : List Deed) (deed : Deed) :
    s.run ex (deeds ++ [deed]) = (s.run ex deeds).act ex deed := by
  simp only [run, List.foldl_append, List.foldl_cons, List.foldl_nil]

/-- There is room for deeds only if there is room for the deeds before. -/
theorem hasRoom_append {deeds : List Deed} {deed : Deed} (h : s.HasRoom ex (deeds ++ [deed])) :
    s.HasRoom ex deeds ∧ (s.run ex deeds).engine.clock.RoomFor deed.firings := by
  induction deeds generalizing s with
  | nil => exact ⟨trivial, h.1⟩
  | cons first rest ih =>
    obtain ⟨hrest, hroom⟩ := ih h.2
    exact ⟨⟨h.1, hrest⟩, hroom⟩

def Apart (s : Shared σ) : Prop := s.engine.console.Shares s.own

theorem Apart.turn (h : s.Apart) (ex : Executor σ) (call : Call) :
    s.engine.console.Turn call (s.engine.call ex call).console := by
  rw [Engine.console_call]
  exact Console.Shares.turn h call

theorem Apart.ask (h : s.Apart) (asked : ClockCall)
    (hasked : ∀ id, s.engine.tree.timer = some id → asked ≠ .disarm id) : (s.ask asked).Apart :=
  Console.Shares.ask h asked hasked rfl rfl rfl

/-- What the host asks of the clock is not about the timer of the tree. -/
theorem Apart.act_host (h : s.Apart) (ex : Executor σ) {deed : Deed} (hdeed : ∀ c, deed ≠ .call c) :
    (s.act ex deed).engine = s.engine ∨ ∃ asked, (∀ count, asked ≠ .fire count) ∧
      (∀ id, s.engine.tree.timer = some id → asked.timer? ≠ some id) ∧
      (s.act ex deed).engine = (s.ask asked).engine := by
  have hne {index : ℕ} {id : TimerId} (hown : s.own[index]? = some id) :
      ∀ timer, s.engine.tree.timer = some timer → some id ≠ some timer := by
    rintro _ htimer ⟨⟩
    exact (h.mine id htimer).2 (List.mem_of_getElem? hown)
  cases deed with
  | call c => exact absurd rfl (hdeed c)
  | arm interval => exact .inr ⟨.arm interval, nofun, nofun, rfl⟩
  | disarm index =>
    cases hown : s.own[index]? with
    | none => exact .inl (by rw [Shared.act, hown, Option.elim_none])
    | some id =>
      exact .inr ⟨.disarm id, nofun, hne hown, by rw [Shared.act, hown, Option.elim_some]⟩
  | poll index =>
    cases hown : s.own[index]? with
    | none => exact .inl (by rw [Shared.act, hown, Option.elim_none])
    | some id => exact .inr ⟨.poll id, nofun, hne hown, by rw [Shared.act, hown, Option.elim_some]⟩

/-- The host keeps its timers, and gets a new one by arming. -/
theorem own_act (ex : Executor σ) (s : Shared σ) (deed : Deed) : (s.act ex deed).own = s.own ∨
    ∃ interval, deed = .arm interval ∧
      (s.act ex deed).own = s.own ++ [(s.engine.clock.arm interval).1] := by
  cases deed with
  | call => exact .inl rfl
  | arm interval => exact .inr ⟨interval, rfl, rfl⟩
  | disarm index | poll index => cases hown : s.own[index]? <;> simp [act, hown, ask]

theorem Apart.act (h : s.Apart) (deed : Deed) : (s.act ex deed).Apart := by
  by_cases hcall : ∃ c, deed = .call c
  · obtain ⟨c, rfl⟩ := hcall
    exact (h.turn ex c).shares h
  have hown : (s.act ex deed).engine.console.Shares s.own := by
    rcases h.act_host ex (not_exists.mp hcall) with hsame | ⟨asked, -, hother, hask⟩
    · rw [hsame]
      exact h
    · rw [hask]
      refine h.ask asked fun id htimer hasked => hother id htimer ?_
      rw [hasked, ClockCall.timer?]
  rcases own_act ex s deed with hsame | ⟨interval, rfl, hgiven⟩
  · rw [Apart, hsame]
    exact hown
  · obtain ⟨hfresh, hknown, hmine, hheld⟩ := hown
    rw [Apart, hgiven]
    refine ⟨hfresh, fun id hid => ?_, fun id hid => ⟨(hmine id hid).1, fun hmem => ?_⟩, hheld⟩
    · rcases List.mem_append.mp hid with hid | hid
      · exact hknown id hid
      · obtain rfl := List.mem_singleton.mp hid
        exact Nat.lt_succ_self _
    · rcases List.mem_append.mp hmem with hmem | hmem
      · exact (hmine id hid).2 hmem
      · obtain rfl := List.mem_singleton.mp hmem
        exact Nat.lt_irrefl _ (h.mine _ hid).1

/-- The timers are told apart from first to last. -/
theorem Apart.run (h : s.Apart) (ex : Executor σ) (deeds : List Deed) : (s.run ex deeds).Apart := by
  induction deeds generalizing s with
  | nil => exact h
  | cons deed rest ih => exact ih (h.act deed)

theorem apart_begin (rate : ℕ) (first : TimerId) (forest : Forest) (memory : σ) :
    (begin rate first forest memory).Apart :=
  ⟨fresh_of_timers_eq_nil rfl, nofun, nofun, nofun⟩

def owed (s : Shared σ) : ℕ := s.engine.console.owed

/-- Taking up the timer leaves nothing pending. -/
theorem Apart.owed_of_takesUp (h : s.Apart) {deed : Deed}
    (hdeed : deed.TakesUp s.engine.tree.state) : (s.act ex deed).owed = 0 := by
  cases deed with
  | call c => exact (h.turn ex c).owed_of_takesUp h hdeed
  | arm | disarm | poll => exact hdeed.elim

/-- Otherwise a tree that is running has been running, and what fires is added. -/
theorem Apart.owed_of_not (h : s.Apart) {deed : Deed} (hdeed : ¬ deed.TakesUp s.engine.tree.state)
    (hrun : (s.act ex deed).engine.tree.state = .running)
    (hroom : s.engine.clock.RoomFor deed.firings) :
    s.engine.tree.state = .running ∧ (s.act ex deed).owed = s.owed + deed.firings := by
  by_cases hcall : ∃ c, deed = .call c
  · obtain ⟨c, rfl⟩ := hcall
    exact (h.turn ex c).owed_of_not h hdeed hrun hroom
  have hfirings : deed.firings = 0 := by
    cases deed with
    | call c => exact absurd ⟨c, rfl⟩ hcall
    | arm | disarm | poll => rfl
  rw [hfirings, owed, owed]
  rcases h.act_host ex (not_exists.mp hcall) with hsame | ⟨asked, hfire, hother, hask⟩
  · rw [hsame] at hrun ⊢
    exact ⟨hrun, rfl⟩
  · rw [hask] at hrun ⊢
    obtain ⟨id, t, htimer, -⟩ := h.held hrun
    have hpending := h.fresh.pending_act_of_ne hfire (hother id htimer)
    have htimer' : (s.ask asked).engine.console.timer = some id := htimer
    refine ⟨hrun, ?_⟩
    rw [Console.owed, htimer', Console.owed, htimer]
    exact congrArg UInt32.toNat hpending

/-- How deeds divide at the last one by which the tree has taken up its timer. -/
structure LastTakenUp (ex : Executor σ) (s : Shared σ) (deeds before : List Deed) (deed : Deed)
    (after : List Deed) : Prop where
  split : deeds = before ++ deed :: after
  takesUp : deed.TakesUp (s.run ex before).engine.tree.state
  last : ∀ mid later, mid ++ [later] <+: after →
    ¬ later.TakesUp (s.run ex (before ++ deed :: mid)).engine.tree.state
  /-- The tree has been running ever since. -/
  running : ∀ mid, mid <+: after →
    (s.run ex (before ++ deed :: mid)).engine.tree.state = .running

/-- What is pending of a running tree has fired since it has taken up its timer. -/
theorem Apart.owed_run (h : s.Apart) {deeds : List Deed} (hroom : s.HasRoom ex deeds)
    (hrest : s.engine.tree.state ≠ .running)
    (hrun : (s.run ex deeds).engine.tree.state = .running) :
    ∃ before deed after, s.LastTakenUp ex deeds before deed after ∧
      (s.run ex deeds).owed = Deed.fired after := by
  induction deeds using List.reverseRecOn with
  | nil => exact absurd hrun hrest
  | append_singleton deeds deed ih =>
    obtain ⟨hbefore, hnow⟩ := hasRoom_append hroom
    rw [run_append] at hrun ⊢
    by_cases htakes : deed.TakesUp (s.run ex deeds).engine.tree.state
    · refine ⟨deeds, deed, [], ⟨rfl, htakes, ?_, ?_⟩, (h.run ex deeds).owed_of_takesUp htakes⟩
      · intro mid later hprefix
        simp at hprefix
      · intro mid hprefix
        rw [List.prefix_nil.mp hprefix, run_append]
        exact hrun
    · obtain ⟨hran, howed⟩ := (h.run ex deeds).owed_of_not htakes hrun hnow
      obtain ⟨before, first, after, hlast, hfired⟩ := ih hbefore hran
      have hwhole : before ++ first :: after = deeds := hlast.split.symm
      refine ⟨before, first, after ++ [deed], ⟨?_, hlast.takesUp, ?_, ?_⟩, ?_⟩
      · rw [← hwhole, List.append_assoc, List.cons_append]
      · intro mid later hprefix
        rcases List.prefix_concat_iff.mp hprefix with heq | hprefix
        · obtain ⟨rfl, hlater⟩ := List.append_inj' heq rfl
          obtain rfl := List.singleton_inj.mp hlater
          rwa [hwhole]
        · exact hlast.last mid later hprefix
      · intro mid hprefix
        rcases List.prefix_concat_iff.mp hprefix with rfl | hprefix
        · rw [← List.cons_append, ← List.append_assoc, hwhole, run_append]
          exact hrun
        · exact hlast.running mid hprefix
      · rw [howed, hfired, Deed.fired_concat]

/-- Only the timer of a running tree is asked. -/
theorem pump_of_not_running {e : Engine σ} (ex : Executor σ) (h : e.tree.state ≠ .running) :
    e.pump ex = (0, e) := by
  unfold Engine.pump
  split
  · rw [if_neg h]
  · rfl

/-- A running tree makes a pass for each firing that is pending. -/
theorem pump_of_running {e : Engine σ} {timer : TimerId} (ex : Executor σ)
    (hrun : e.tree.state = .running) (htimer : e.tree.timer = some timer) :
    e.pump ex = (e.clock.pending timer,
      { e with clock := (e.clock.poll timer).2 }.afterTicks ex
        (e.clock.pending timer).toNat) := by
  simp only [Engine.pump, htimer, if_pos hrun, ManualClock.poll, Engine.tickTimes_eq_afterTicks]

/-- No firing is lost and none counts twice. Each timer of a clock reports its firings once, and a
tree that is pumped makes a pass for each firing since it last took up its timer. -/
theorem firings_conserved {c : ManualClock} (hnew : c.timers = []) {calls : List ClockCall}
    (hcalls : c.HasRoom calls) (ex : Executor σ) (rate : ℕ) (first : TimerId) (forest : Forest)
    (memory : σ) {deeds : List Deed} (hdeeds : (begin rate first forest memory).HasRoom ex deeds) :
    c.Balanced calls ∧
      let s := begin rate first forest memory
      let e := (s.run ex deeds).engine
      (e.tree.state ≠ .running → e.pump ex = (0, e)) ∧
      (e.tree.state = .running → ∃ before deed after timer,
        s.LastTakenUp ex deeds before deed after ∧ e.tree.timer = some timer ∧
        (e.pump ex).1.toNat = Deed.fired after ∧
        (e.pump ex).2 =
          { e with clock := (e.clock.poll timer).2 }.afterTicks ex (Deed.fired after)) := by
  refine ⟨balanced hnew hcalls, pump_of_not_running ex, fun hrun => ?_⟩
  have hbegin := apart_begin rate first forest memory
  obtain ⟨before, deed, after, hlast, howed⟩ := hbegin.owed_run hdeeds nofun hrun
  obtain ⟨timer, t, htimer, -⟩ := (hbegin.run ex deeds).held hrun
  rw [owed, Console.owed, htimer, Option.elim_some] at howed
  refine ⟨before, deed, after, timer, hlast, htimer, ?_, ?_⟩
  · rw [pump_of_running ex hrun htimer]
    exact howed
  · rw [pump_of_running ex hrun htimer, ← howed]
    rfl

def twoTimers : List ClockCall :=
  [.arm 5, .arm 7, .fire 2, .poll 0, .fire 1, .disarm 0, .fire 3, .poll 0]

def sharedPatrol : Shared (List Status) := begin TickRate.standard 0 Forest.patrol []

def nightWatch : List Deed :=
  [.call (.setRoot (some 0)), .arm 5, .call (.fire 4), .call .start, .call (.fire 2), .poll 0,
    .call (.setTickRate 20), .call (.fire 1), .call .pump, .call (.fire 3), .disarm 0,
    .call (.fire 1)]

/-- At the end of the watch there are four passes to make. -/
theorem firings_conserved_nightWatch :
    let e := (sharedPatrol.run Executor.scripted nightWatch).engine
    ManualClock.new.HasRoom twoTimers ∧ ManualClock.new.Balanced twoTimers ∧
      (e.pump Executor.scripted).1 = 4 ∧
      (e.pump Executor.scripted).2.tree.tickCount = e.tree.tickCount + 4 ∧
      ∃ before deed after timer,
        sharedPatrol.LastTakenUp Executor.scripted nightWatch before deed after ∧
        Deed.fired after = 4 ∧
        (e.pump Executor.scripted).2 =
          { e with clock := (e.clock.poll timer).2 }.afterTicks Executor.scripted 4 := by
  intro e
  have hroom : ManualClock.new.HasRoom twoTimers := by decide
  have hdeeds : sharedPatrol.HasRoom Executor.scripted nightWatch := by decide +kernel
  have hrun : e.tree.state = .running := by decide +kernel
  have hpump : (e.pump Executor.scripted).1 = 4 := by decide +kernel
  obtain ⟨hbalanced, -, hrunning⟩ := firings_conserved rfl hroom Executor.scripted
    TickRate.standard 0 Forest.patrol [] hdeeds
  obtain ⟨before, deed, after, timer, hlast, -, hcount, hpasses⟩ := hrunning hrun
  have hfour : Deed.fired after = 4 := hcount.symm.trans (congrArg UInt32.toNat hpump)
  rw [hfour] at hpasses
  exact ⟨hroom, hbalanced, hpump, by decide +kernel, before, deed, after, timer, hlast, hfour,
    hpasses⟩

end Shared

end BehaviorTree
