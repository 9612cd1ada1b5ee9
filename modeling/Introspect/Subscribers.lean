/-!
Subscriptions to events. A notification goes to those who were subscribed when it began, whatever
they do to the list meanwhile. What a subscriber does when it is notified is its own affair: only
the changes that it makes to the list are seen here.
-/

namespace Introspect

/-- Subscriptions are numbered from 0 on. A count of 64 bits would wrap after `2 ^ 64` of them,
which no run reaches. -/
abbrev SubscriptionId := Nat

inductive SubscriberChange where
  | subscribe
  | unsubscribe (id : SubscriptionId)

/-- What each subscriber does to the list in reaction to an event, one change after another. -/
abbrev Reactions := SubscriptionId → List SubscriberChange

structure Subscribers where
  entries : List SubscriptionId
  nextId : SubscriptionId

namespace Subscribers

def empty : Subscribers := ⟨[], 0⟩

def label (id : SubscriptionId) : String := s!"subscription#{id}"

def size (s : Subscribers) : Nat := s.entries.length

def subscribe (s : Subscribers) : SubscriptionId × Subscribers :=
  (s.nextId, ⟨s.entries ++ [s.nextId], s.nextId + 1⟩)

/-- Takes a subscriber off the list, and tells whether it was there. -/
def unsubscribe (s : Subscribers) (id : SubscriptionId) : Bool × Subscribers :=
  let rest := s.entries.filter (· != id)
  (rest.length != s.entries.length, { s with entries := rest })

def apply (s : Subscribers) : SubscriberChange → Subscribers
  | .subscribe => s.subscribe.2
  | .unsubscribe id => (s.unsubscribe id).2

/-- The subscribers that a notification reaches, in their order, and the list after it. -/
def notify (s : Subscribers) (reactions : Reactions) : List SubscriptionId × Subscribers :=
  -- Over the entries from before: one that is dropped meanwhile still reacts.
  (s.entries, s.entries.foldl (fun s id => (reactions id).foldl apply s) s)

end Subscribers

end Introspect
