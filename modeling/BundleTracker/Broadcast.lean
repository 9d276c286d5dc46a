/-!
# Broadcasting events

A hub delivers each event to every mailbox that is attached to it. Mailboxes
are numbered in the order of subscription and keep what has not been taken
yet. One that was closed stays attached until the next event finds it closed.
-/

namespace BundleTracker

structure Mailbox (α : Type) where
  waiting : List α := []
  /-- Whether the subscriber still listens. -/
  isOpen : Bool := true
  /-- Whether the hub still delivers to it. -/
  attached : Bool := true
  deriving DecidableEq

namespace Mailbox

variable {α : Type}

/-- Delivers an event, or lets go of a closed mailbox. -/
def deliver (event : α) (m : Mailbox α) : Mailbox α :=
  if m.attached then
    if m.isOpen then { m with waiting := m.waiting ++ [event] } else { m with attached := false }
  else m

def close (m : Mailbox α) : Mailbox α := { m with waiting := [], isOpen := false }

def detach (m : Mailbox α) : Mailbox α := { m with attached := false }

/-- The number of events that wait, while the mailbox is open. -/
def backlog? (m : Mailbox α) : Option Nat := if m.isOpen then some m.waiting.length else none

end Mailbox

structure Hub (α : Type) where
  mailboxes : List (Mailbox α) := []
  deriving DecidableEq

namespace Hub

variable {α : Type}

def mailbox? (hub : Hub α) (id : Nat) : Option (Mailbox α) := hub.mailboxes[id]?

/-- The number of mailboxes that are attached. -/
def subscribers (hub : Hub α) : Nat := hub.mailboxes.countP (·.attached)

/-- Opens a mailbox and returns its number. -/
def subscribe (hub : Hub α) : Hub α × Nat :=
  (⟨hub.mailboxes ++ [⟨[], true, true⟩]⟩, hub.mailboxes.length)

def publish (hub : Hub α) (event : α) : Hub α := ⟨hub.mailboxes.map (.deliver event)⟩

def publishAll (hub : Hub α) (events : List α) : Hub α := events.foldl publish hub

/-- Applies a change to one mailbox. -/
def update (hub : Hub α) (id : Nat) (change : Mailbox α → Mailbox α) : Hub α :=
  ⟨hub.mailboxes.modify id change⟩

/-- Closes a mailbox; whether it was open. -/
def close (hub : Hub α) (id : Nat) : Hub α × Bool :=
  (hub.update id .close, (hub.mailbox? id).any (·.isOpen))

/-- Takes the next event out of a mailbox. -/
def next (hub : Hub α) (id : Nat) : Hub α × Option α :=
  match (hub.mailbox? id).bind (·.waiting.head?) with
  | some event => (hub.update id fun m => { m with waiting := m.waiting.tail }, some event)
  | none => (hub, none)

/-- Takes all events out of a mailbox. -/
def drain (hub : Hub α) (id : Nat) : Hub α × List α :=
  (hub.update id fun m => { m with waiting := [] },
    ((hub.mailbox? id).map (·.waiting)).getD [])

/-- Lets go of all mailboxes. -/
def detachAll (hub : Hub α) : Hub α := ⟨hub.mailboxes.map .detach⟩

/-- Closes a mailbox; the events in it, if no further ones can come. -/
def collect (hub : Hub α) (id : Nat) : Hub α × Option (List α) :=
  (hub.update id .close,
    (hub.mailbox? id).bind fun m => if m.attached then none else some m.waiting)

end Hub

end BundleTracker
