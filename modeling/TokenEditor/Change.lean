/-! # Change notices

A change source keeps its listeners in subscription order. Firing it runs the listeners that were
subscribed when the firing began, each once; a listener may meanwhile leave, make others leave, or
bring in new ones. `Exchange` is a set of such sources together with the handles on them. -/

namespace TokenEditor

/-- The listeners of one source, oldest first, each under a number of its own. -/
structure Listeners (α : Type) where
  nextId : Nat := 0
  entries : List (Nat × α) := []

namespace Listeners
variable {α : Type}

def empty : Listeners α := {}

/-- Add a listener; its number is returned. -/
def subscribe (l : Listeners α) (listener : α) : Nat × Listeners α :=
  (l.nextId, { nextId := l.nextId + 1, entries := l.entries ++ [(l.nextId, listener)] })

def unsubscribe (l : Listeners α) (id : Nat) : Listeners α :=
  { l with entries := l.entries.filter fun e => e.1 != id }

def count (l : Listeners α) : Nat :=
  l.entries.length

/-- The listeners to run when the source fires now. -/
def snapshot (l : Listeners α) : List α :=
  l.entries.map Prod.snd

@[simp] theorem count_subscribe (l : Listeners α) (listener : α) :
    (l.subscribe listener).2.count = l.count + 1 := by
  simp [subscribe, count]

end Listeners

/-- A listener: it reports its number when it runs. It is meant to end the listed registrations then,
and perhaps to subscribe one plain listener to the source that fired. -/
structure Reaction where
  number : Nat
  ends : List Nat := []
  recruits : Bool := false
deriving DecidableEq, Repr

/-- Where a registration is held: a source and the number it has there. -/
structure Seat where
  source : Nat
  id : Nat
deriving DecidableEq, Repr

/-- Sources, the handles on them, and the registrations made so far. Handles and registrations are
numbered as they are created; `none` marks one that is gone. -/
structure Exchange where
  sources : List (Listeners Reaction) := []
  handles : List (Option Nat) := []
  registrations : List (Option Seat) := []

namespace Exchange

/-- The source behind a handle. -/
def sourceOf? (x : Exchange) (handle : Nat) : Option Nat :=
  x.handles[handle]?.join

def create (x : Exchange) : Exchange :=
  { x with
    sources := x.sources ++ [Listeners.empty]
    handles := x.handles ++ [some x.sources.length] }

/-- A second handle on the same source. -/
def share (x : Exchange) (handle : Nat) : Exchange :=
  { x with handles := x.handles ++ [x.sourceOf? handle] }

def dropHandle (x : Exchange) (handle : Nat) : Exchange :=
  { x with handles := x.handles.set handle none }

/-- Register a listener with a source; its number is that of the registration. -/
def register (x : Exchange) (source : Nat) (ends : List Nat) (recruits : Bool) : Exchange :=
  match x.sources[source]? with
  | none => { x with registrations := x.registrations ++ [none] }
  | some l =>
    let (id, l') := l.subscribe ⟨x.registrations.length, ends, recruits⟩
    { x with
      sources := x.sources.set source l'
      registrations := x.registrations ++ [some ⟨source, id⟩] }

def subscribe (x : Exchange) (handle : Nat) (ends : List Nat) (recruits : Bool) : Exchange :=
  match x.sourceOf? handle with
  | none => { x with registrations := x.registrations ++ [none] }
  | some source => x.register source ends recruits

/-- End a registration: its own listener leaves, all others stay. -/
def unsubscribe (x : Exchange) (registration : Nat) : Exchange :=
  match x.registrations[registration]?.join with
  | none => x
  | some seat =>
    { x with
      sources := x.sources.modify seat.source fun l => l.unsubscribe seat.id
      registrations := x.registrations.set registration none }

/-- What a listener may do while it runs. -/
inductive Act where
  /-- It ends a registration, its own or another. -/
  | ends (registration : Nat)
  /-- It subscribes a listener to the source that fired. -/
  | recruits (ends : List Nat) (recruits : Bool)
deriving DecidableEq, Repr

/-- A listener of `source` does one thing. -/
def act (source : Nat) (x : Exchange) : Act → Exchange
  | .ends registration => x.unsubscribe registration
  | .recruits ends recruits => x.register source ends recruits

/-- What a listener is meant to do. -/
def planned (r : Reaction) : List Act :=
  r.ends.map .ends ++ if r.recruits then [.recruits [] false] else []

/-- The listeners of a source, oldest first. -/
def listeners (x : Exchange) (source : Nat) : List Reaction :=
  ((x.sources[source]?).getD Listeners.empty).snapshot

/-- Fire the source behind a handle, where each listener does as `does` says this time: the numbers of
the listeners run, and what they left. -/
def fireWith (does : Reaction → List Act) (x : Exchange) (handle : Nat) : List Nat × Exchange :=
  match x.sourceOf? handle with
  | none => ([], x)
  | some source =>
    let running := x.listeners source
    (running.map Reaction.number, running.foldl (fun x r => (does r).foldl (act source) x) x)

/-- Fire the source behind a handle, where each listener does what it is meant to do. -/
def fire (x : Exchange) (handle : Nat) : List Nat × Exchange :=
  x.fireWith planned handle

/-- For every handle the number of listeners of its source, or nothing if the handle is gone. -/
def counts (x : Exchange) : List (Option Nat) :=
  x.handles.map fun h => h.map fun s => ((x.sources[s]?).getD Listeners.empty).count

end Exchange

end TokenEditor
