import TokenEditor.Completion.Item

/-! # Items that come later

A request for items may be answered once, later, through a channel. What was sent before the
receiver turned away can still be taken, once; after that, and after either side has left, the
channel is closed. -/

namespace TokenEditor
variable {α V : Type}

/-- A channel for one message. -/
inductive Channel (α : Type) where
  /-- Both sides wait. -/
  | waiting
  | sent (message : α)
  | closed
deriving DecidableEq, Repr

/-- What the receiver finds. -/
inductive Poll (α : Type) where
  | ready (message : α)
  | pending
  | cancelled
deriving DecidableEq, Repr

namespace Channel

/-- Send the message; the answer tells whether it will be seen. -/
def send (message : α) : Channel α → Bool × Channel α
  | waiting => (true, sent message)
  | c => (false, c)

/-- The sender leaves, or the receiver wants nothing more. What was sent stays. -/
def close : Channel α → Channel α
  | waiting => closed
  | c => c

def poll : Channel α → Poll α × Channel α
  | waiting => (.pending, waiting)
  | sent message => (.ready message, closed)
  | closed => (.cancelled, closed)

end Channel

/-- All channels opened so far, by number. -/
abbrev Channels (V : Type) := List (Channel (List (Item V)))

/-- A request for items: answered at once, or through a channel. -/
inductive Promise (V : Type) where
  | ready (items : List (Item V))
  | channel (id : Nat)

namespace Promise

/-- Look for the answer. A ready answer is handed out once and is empty from then on. -/
def poll (channels : Channels V) : Promise V → Poll (List (Item V)) × Promise V × Channels V
  | ready items => (.ready items, ready [], channels)
  | channel id =>
    match channels[id]? with
    | none => (.cancelled, channel id, channels)
    | some c => (c.poll.1, channel id, channels.set id c.poll.2)

/-- Close the channel of the request. -/
def cancel (channels : Channels V) : Promise V → Channels V
  | ready _ => channels
  | channel id => channels.modify id Channel.close

end Promise

/-- How a language answers a request for later items. -/
inductive Later (V : Type) where
  /-- At once. -/
  | ready (items : List (Item V))
  /-- Some time; it also keeps the requests it had before. -/
  | queued
  /-- Some time; it gives up the request it had before. -/
  | latest

end TokenEditor
