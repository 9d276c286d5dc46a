import Mathlib.Tactic
import BundleTracker.Proofs.Broadcast
import BundleTracker.Proofs.Node.Runs

/-!
# What subscribers hear

What a call announces follows from its answer. A block that settles and whose periods end announces
all of it at once, after it went through, and nothing is announced of one that fails, except that a
stall is. A subscriber hears all that is announced while it listens, once and in order, whatever the
other subscribers do.
-/

namespace BundleTracker

namespace Node

variable {n : Node} {id : Nat} {waiting : List Event}

def error? (n : Node) : Call → Option ChainError
  | .reconcile height commitment =>
    match (n.reconcile height commitment).2 with
    | .ok _ => none
    | .error e => some e
  | .connect height outputs =>
    match (n.connectBlock height outputs).2 with
    | .ok _ => none
    | .error e => some e
  | _ => none

/-- What subscribers are to hear of a call, by its answer. -/
inductive Announces (n : Node) : Call → List Event → Prop
  | added (p : Package) : Announces n (.add p) []
  | reconciled {height : UInt64} {commitment hash : Digest} {source : Source} :
      (n.reconcile height commitment).2 = .ok hash → n.IsFirst height commitment source →
      Announces n (.reconcile height commitment)
        [.reconciled height hash source ((n.candidate height source).expired.map (·.bundle))]
  | connected {height : UInt64} {outputs : List Output} {outcome : BlockOutcome} :
      (n.connectBlock height outputs).2 = .ok outcome →
      Announces n (.connect height outputs) outcome.events
  | stalled {c : Call} {stall : Stall} : n.error? c = some (.stall stall) →
      Announces n c [.stalled stall]
  | failed {c : Call} {e : ChainError} : n.error? c = some e → (∀ stall, e ≠ .stall stall) →
      Announces n c []
  | reset : Announces n .reset [.reset]
  | subscribed : Announces n .subscribe []
  | taken (id : Nat) : Announces n (.next id) []
  | drained (id : Nat) : Announces n (.drain id) []
  | closed (id : Nat) : Announces n (.close id) []

inductive AnnouncesAll : Node → List Call → List Event → Prop
  | nil (n : Node) : AnnouncesAll n [] []
  | cons {n : Node} {c : Call} {rest : List Call} {events later : List Event} :
      n.Announces c events → AnnouncesAll (n.call c) rest later →
      AnnouncesAll n (c :: rest) (events ++ later)

/-- The events that a call takes out of a mailbox. -/
def takes (n : Node) (id : Nat) : Call → List Event
  | .next other => if other = id then (n.hub.next id).2.toList else []
  | .drain other => if other = id then (n.hub.drain id).2 else []
  | _ => []

def taken (n : Node) (id : Nat) : List Call → List Event
  | [] => []
  | c :: rest => n.takes id c ++ (n.call c).taken id rest

section Steps

theorem not_stall_of_checkHeight {c : Chain} {height : UInt64} {e : ChainError}
    (h : c.checkHeight height = .error e) (stall : Stall) : e ≠ .stall stall := by
  obtain ⟨next, -, -, rfl⟩ := Chain.checkHeight_eq_error h
  simp

theorem announces_reconcile (hlegal : n.chain.Legal) (height : UInt64) (commitment : Digest) :
    ∃ events, n.Announces (.reconcile height commitment) events ∧
      (n.reconcile height commitment).1.hub = n.hub.publishAll events := by
  have hstep := n.reconciles hlegal height commitment
  generalize hresult : n.reconcile height commitment = result at hstep
  cases hstep with
  | @refused e hheight =>
    have herror : n.error? (.reconcile height commitment) = some e := by
      rw [error?, hresult]
    exact ⟨[], .failed herror (not_stall_of_checkHeight hheight), rfl⟩
  | @settled source hheight hfirst =>
    have hok : (n.reconcile height commitment).2 = .ok (n.candidate height source).hash := by
      rw [hresult]
    exact ⟨_, .reconciled hok hfirst, rfl⟩
  | stalled hheight hnone =>
    have herror : n.error? (.reconcile height commitment) =
        some (.stall (n.chain.recordStall height commitment (n.selections height)).2) := by
      rw [error?, hresult]
    exact ⟨_, .stalled herror, rfl⟩

theorem announces_connect (hlegal : n.chain.Legal) (height : UInt64) (outputs : List Output) :
    ∃ events, n.Announces (.connect height outputs) events ∧
      (n.connectBlock height outputs).1.hub = n.hub.publishAll events := by
  have hstep := n.connects hlegal height outputs
  generalize hresult : n.connectBlock height outputs = result at hstep
  cases hstep with
  | @conflict conflict hfound =>
    have herror : n.error? (.connect height outputs) = some (.coinbase conflict) := by
      rw [error?, hresult]
    exact ⟨[], .failed herror (by simp), rfl⟩
  | @refused e hheight =>
    have herror : n.error? (.connect height outputs) = some e := by
      rw [error?, hresult]
    exact ⟨[], .failed herror (not_stall_of_checkHeight hheight), rfl⟩
  | @settled commitment source hfound hheight hfirst =>
    have hok : (n.connectBlock height outputs).2 = .ok ⟨some commitment, ((n.adopt
        (n.candidate height source)).finish height outputs
          [(n.candidate height source).event]).2⟩ := by
      rw [hresult]
    exact ⟨_, .connected hok, rfl⟩
  | @stalled commitment hfound hheight hnone =>
    have herror : n.error? (.connect height outputs) =
        some (.stall (n.chain.recordStall height commitment (n.selections height)).2) := by
      rw [error?, hresult]
    exact ⟨_, .stalled herror, rfl⟩
  | passed hfound hheight =>
    have hok : (n.connectBlock height outputs).2 =
        .ok ⟨none, ((n.pass height).finish height outputs []).2⟩ := by
      rw [hresult]
    exact ⟨_, .connected hok, rfl⟩

/-- A call adds what it announces at the end of a mailbox, and takes out only what it answers. -/
theorem Sound.announces (hn : n.Sound) (h : n.hub.Holds id waiting) {c : Call}
    (hc : c ≠ .close id) :
    ∃ events left, n.Announces c events ∧ (n.call c).hub.Holds id left ∧
      n.takes id c ++ left = waiting ++ events := by
  cases c with
  | add p =>
    refine ⟨[], waiting, .added p, ?_, by simp [takes]⟩
    rwa [Node.call, hub_addPackage]
  | reconcile height commitment =>
    obtain ⟨events, hevents, hhub⟩ := announces_reconcile hn.legal height commitment
    refine ⟨events, waiting ++ events, hevents, ?_, rfl⟩
    rw [Node.call, hhub]
    exact h.publishAll events
  | connect height outputs =>
    obtain ⟨events, hevents, hhub⟩ := announces_connect hn.legal height outputs
    refine ⟨events, waiting ++ events, hevents, ?_, rfl⟩
    rw [Node.call, hhub]
    exact h.publishAll events
  | reset => exact ⟨[.reset], _, .reset, h.publishAll [.reset], rfl⟩
  | subscribe => exact ⟨[], waiting, .subscribed, h.subscribe, by simp [takes]⟩
  | next other =>
    by_cases hid : other = id
    · subst hid
      obtain ⟨left, hleft, htakes⟩ := h.next
      exact ⟨[], left, .taken other, hleft, by simpa [takes] using htakes⟩
    · exact ⟨[], waiting, .taken other, h.next_of_ne hid, by simp [takes, hid]⟩
  | drain other =>
    by_cases hid : other = id
    · subst hid
      obtain ⟨hleft, htakes⟩ := h.drain
      exact ⟨[], [], .drained other, hleft, by simpa [takes] using htakes⟩
    · exact ⟨[], waiting, .drained other, h.drain_of_ne hid, by simp [takes, hid]⟩
  | close other =>
    have hid : other ≠ id := fun heq => hc (congrArg Call.close heq)
    exact ⟨[], waiting, .closed other, h.close_of_ne hid, by simp [takes]⟩

end Steps

section Runs

theorem Sound.announcesAll (hn : n.Sound) (h : n.hub.Holds id waiting) {calls : List Call}
    (hkept : Call.close id ∉ calls) :
    ∃ events left, n.AnnouncesAll calls events ∧ (n.run calls).hub.Holds id left ∧
      n.taken id calls ++ left = waiting ++ events := by
  induction calls generalizing n waiting with
  | nil => exact ⟨[], waiting, .nil n, h, by simp [taken]⟩
  | cons c rest ih =>
    obtain ⟨hc, hrest⟩ := not_or.mp (List.mem_cons.not.mp hkept)
    obtain ⟨events, held, hevents, hheld, htakes⟩ := hn.announces h (Ne.symm hc)
    obtain ⟨later, left, hlater, hleft, htaken⟩ := ih (hn.call c) hheld hrest
    refine ⟨events ++ later, left, .cons hevents hlater, hleft, ?_⟩
    calc n.taken id (c :: rest) ++ left
        = n.takes id c ++ ((n.call c).taken id rest ++ left) := List.append_assoc _ _ _
      _ = n.takes id c ++ held ++ later := by rw [htaken, List.append_assoc]
      _ = waiting ++ (events ++ later) := by rw [htakes, List.append_assoc]

/-- Subscribers hear exactly what happened. As long as a subscriber does not hang up, what it took
and what still waits for it are the announcements of all calls since it subscribed. -/
theorem subscribers_hear_what_happened (hn : n.Reachable) {calls : List Call}
    (hkept : Call.close n.hub.subscribe.2 ∉ calls) :
    ∃ events mailbox, (n.call .subscribe).AnnouncesAll calls events ∧
      ((n.call .subscribe).run calls).hub.mailbox? n.hub.subscribe.2 = some mailbox ∧
      (n.call .subscribe).taken n.hub.subscribe.2 calls ++ mailbox.waiting = events := by
  have hopened := hn.sound.call .subscribe
  have hempty : (n.call .subscribe).hub.Holds n.hub.subscribe.2 [] := n.hub.holds_subscribe
  obtain ⟨events, left, hevents, hleft, htaken⟩ := hopened.announcesAll hempty hkept
  exact ⟨events, _, hevents, hleft, htaken⟩

/-- One subscriber hangs up between two blocks, and the other one hears of both of them. -/
theorem subscribers_hear_both_blocks :
    let n := (fresh {}).call .subscribe
    let calls : List Call :=
      [.reconcile 5 State.empty.hash, .close 0, .next 1, .connect 9 [], .reset]
    let first : Event := .reconciled 5 State.empty.hash .noUpdate []
    n.Reachable ∧ Call.close n.hub.subscribe.2 ∉ calls ∧
      (∃ events mailbox, (n.call .subscribe).AnnouncesAll calls events ∧
        ((n.call .subscribe).run calls).hub.mailbox? 1 = some mailbox ∧
        [first] ++ mailbox.waiting = events) := by
  intro n calls first
  have hn : n.Reachable := reachable_fresh.call .subscribe
  have hkept : Call.close n.hub.subscribe.2 ∉ calls := by
    simp [calls, n, call, fresh, Hub.subscribe]
  have htaken : (n.call .subscribe).taken 1 calls = [first] := by decide +kernel
  obtain ⟨events, mailbox, hevents, hmailbox, hheard⟩ := subscribers_hear_what_happened hn hkept
  have hid : n.hub.subscribe.2 = 1 := rfl
  rw [hid] at hmailbox hheard
  rw [htaken] at hheard
  exact ⟨hn, hkept, events, mailbox, hevents, hmailbox, hheard⟩

end Runs

end Node

end BundleTracker
