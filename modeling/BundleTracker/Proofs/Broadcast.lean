import Mathlib.Tactic
import BundleTracker.Broadcast

/-!
# What a mailbox that is kept open holds

A mailbox that is open and attached stays so until it is closed. What is published is added at its
end, and only its own subscriber takes anything out of it.
-/

namespace BundleTracker

namespace Hub

variable {α : Type} {hub : Hub α} {id : Nat} {waiting : List α}

/-- The mailbox is open and attached, and holds these events. -/
def Holds (hub : Hub α) (id : Nat) (waiting : List α) : Prop :=
  hub.mailbox? id = some ⟨waiting, true, true⟩

theorem mailbox?_update (hub : Hub α) (id : Nat) (change : Mailbox α → Mailbox α) (other : Nat) :
    (hub.update id change).mailbox? other =
      if id = other then (hub.mailbox? other).map change else hub.mailbox? other := by
  rw [mailbox?, update, List.getElem?_modify]
  split_ifs <;> simp [mailbox?]

theorem holds_subscribe (hub : Hub α) : hub.subscribe.1.Holds hub.subscribe.2 [] :=
  List.getElem?_concat_length

namespace Holds

theorem subscribe (h : hub.Holds id waiting) : hub.subscribe.1.Holds id waiting := by
  obtain ⟨hid, -⟩ := List.getElem?_eq_some_iff.mp h
  exact (List.getElem?_append_left hid).trans h

theorem publish (h : hub.Holds id waiting) (event : α) :
    (hub.publish event).Holds id (waiting ++ [event]) := by
  rw [Holds, mailbox?] at h
  rw [Holds, mailbox?, Hub.publish, List.getElem?_map, h]
  rfl

theorem publishAll (h : hub.Holds id waiting) (events : List α) :
    (hub.publishAll events).Holds id (waiting ++ events) := by
  induction events generalizing hub waiting with
  | nil => rwa [List.append_nil]
  | cons event rest ih =>
    have hrest := ih (h.publish event)
    rwa [List.append_assoc] at hrest

theorem update_of_ne (h : hub.Holds id waiting) {other : Nat} (hne : other ≠ id)
    (change : Mailbox α → Mailbox α) : (hub.update other change).Holds id waiting := by
  rwa [Holds, mailbox?_update, if_neg hne]

theorem update (h : hub.Holds id waiting) (left : List α) :
    (hub.update id fun m => { m with waiting := left }).Holds id left := by
  rw [Holds] at h
  rw [Holds, mailbox?_update, if_pos rfl, h]
  rfl

theorem next_of_ne (h : hub.Holds id waiting) {other : Nat} (hne : other ≠ id) :
    (hub.next other).1.Holds id waiting := by
  unfold Hub.next
  cases (hub.mailbox? other).bind (·.waiting.head?) with
  | none => exact h
  | some event => exact h.update_of_ne hne _

theorem next (h : hub.Holds id waiting) :
    ∃ left, (hub.next id).1.Holds id left ∧ (hub.next id).2.toList ++ left = waiting := by
  have hhead : (hub.mailbox? id).bind (·.waiting.head?) = waiting.head? := by
    rw [Holds] at h
    rw [h, Option.bind_some]
  cases waiting with
  | nil =>
    rw [List.head?_nil] at hhead
    refine ⟨[], ?_, ?_⟩
    · simpa only [Hub.next, hhead] using h
    · simp only [Hub.next, hhead, Option.toList_none, List.append_nil]
  | cons event rest =>
    rw [List.head?_cons] at hhead
    refine ⟨rest, ?_, ?_⟩
    · have htail : (hub.mailbox? id).map (fun m => { m with waiting := m.waiting.tail }) =
          some ⟨rest, true, true⟩ := by
        rw [Holds] at h
        rw [h]
        rfl
      simp only [Hub.next, hhead]
      rw [Holds, mailbox?_update, if_pos rfl, htail]
    · simp only [Hub.next, hhead, Option.toList_some, List.singleton_append]

theorem drain_of_ne (h : hub.Holds id waiting) {other : Nat} (hne : other ≠ id) :
    (hub.drain other).1.Holds id waiting :=
  h.update_of_ne hne _

theorem drain (h : hub.Holds id waiting) :
    (hub.drain id).1.Holds id [] ∧ (hub.drain id).2 = waiting := by
  refine ⟨h.update [], ?_⟩
  rw [Holds] at h
  rw [Hub.drain, h]
  rfl

theorem close_of_ne (h : hub.Holds id waiting) {other : Nat} (hne : other ≠ id) :
    (hub.close other).1.Holds id waiting :=
  h.update_of_ne hne _

end Holds

end Hub

end BundleTracker
