/-!
# A replica behind a queue

A sender keeps a receiver informed through a queue that delivers in order; the
receiver shows the value it received last.  What counts is not what the
receiver shows now but what it will show once the queue is empty: `settled`.
Delivery does not change it (`settled_deliver`), sending sets it
(`settled_send`), and once the queue is empty it is what is shown
(`settled_of_empty`).
-/

namespace BLERCCar.Lib

universe u v

/-- Messages in flight, oldest first, and the value that is shown. -/
structure Replica (α : Type u) (β : Type v) where
  queue : List α
  shown : β

namespace Replica

variable {α : Type u} {β : Type v} (decode : α → β)

/-- The value shown once everything in flight has been delivered. -/
def settled (r : Replica α β) : β := (r.queue.getLast?.map decode).getD r.shown

/-- Hand a message to the queue. -/
def send (a : α) (r : Replica α β) : Replica α β :=
  { r with queue := r.queue ++ [a] }

/-- Deliver the oldest message. -/
def deliver (r : Replica α β) : Option (Replica α β) :=
  match r.queue with
  | [] => none
  | a :: queue => some { queue := queue, shown := decode a }

theorem settled_send (a : α) (r : Replica α β) :
    (r.send a).settled decode = decode a := by
  simp [settled, send]

theorem settled_deliver {r r' : Replica α β} (h : r.deliver decode = some r') :
    r'.settled decode = r.settled decode := by
  obtain ⟨queue, shown⟩ := r
  cases queue with
  | nil => cases h
  | cons a queue =>
      cases h
      cases queue with
      | nil => rfl
      | cons b queue => simp [settled, List.getLast?_cons]

theorem settled_of_empty {r : Replica α β} (h : r.queue = []) :
    r.settled decode = r.shown := by
  rw [settled, h]
  rfl

end Replica

end BLERCCar.Lib
