import TokenEditor.Editor.Basic

/-! # Offers

Which items are offered where, at once or later, and how the menu collects those that come later.
Later items count only as long as the row is the one they were asked for. -/

namespace TokenEditor
variable {V : Type}

namespace Supplier

/-- What kind of place it is, and the index that completed tokens go to. -/
def target (s : Supplier) (params : Params) : ContextKind × Nat :=
  match s with
  | token index => (.token, index)
  | side index delta => (.token, if params.endRight then index + 1 else index + delta)
  | placeholder => (.placeholder, 0)

def placement (s : Supplier) (params : Params) : Placement :=
  match s with
  | token _ => .replace
  | side _ _ => .beside params
  | placeholder => .fill

/-- What the language is told. -/
def context (s : Supplier) (params : Params) (r : Region V) : Context V where
  kind := (s.target params).1
  target := (s.target params).2
  tokens := r.tokens
  views := r.views
  objects := r.objects
  value := if (s.target params).1 = .token then r.value else none

/-- The requests made for items at once. Token items are left out of the menu if the settings say
so, extra items are for the menu only. -/
def calls (s : Supplier) (params : Params) (e : Editor V) : List (Call V) :=
  let context := s.context params e.region
  (if params.menu && e.settings.hideTokensInMenu then [] else [⟨.tokens, context, params⟩]) ++
    (if params.menu then [⟨.extras, context, params⟩] else [])

/-- The requests made for later items. -/
def laterCalls (s : Supplier) (params : Params) (e : Editor V) : List (Call V) :=
  if params.menu then [⟨.later, s.context params e.region, params⟩] else []

/-- The items offered at once. -/
def offer (s : Supplier) (params : Params) (e : Editor V) : Offer V where
  supplier := s
  items := (s.calls params e).flatMap (e.region.language.answer e.region.cells)
  kind := (s.target params).1
  target := (s.target params).2
  placement := s.placement params

end Supplier

namespace Editor

/-- A new channel that the language will answer. -/
def openChannel (e : Editor V) : Nat × Editor V :=
  (e.channels.length, { e with channels := e.channels ++ [.waiting] })

/-- The language gives up all requests it has. -/
def dropOwed (e : Editor V) : Editor V :=
  { e with
    channels := e.owed.foldl (fun cs id => cs.modify id Channel.close) e.channels
    owed := [] }

/-- Pass a request for later items to the language. -/
def promise (calls : List (Call V)) (e : Editor V) : Promise V × Editor V :=
  match calls with
  | [] => (.ready [], e)
  | call :: _ =>
    match e.region.language.laterItems e.region.cells call.context call.params with
    | .ready items => (.ready items, e)
    | .queued =>
      let (id, e) := e.openChannel
      (.channel id, { e with owed := e.owed ++ [id] })
    | .latest =>
      let (id, e) := e.dropOwed.openChannel
      (.channel id, { e with owed := [id] })

/-- Ask for later items. -/
def requestLater (s : Supplier) (params : Params) (e : Editor V) : Pending V × Editor V :=
  let (promise, e) := e.promise (s.laterCalls params e)
  ({ supplier := s
     promise := promise
     kind := (s.target params).1
     target := (s.target params).2
     placement := s.placement params
     generation := e.region.modifications }, e)

/-- The language answers the requests it has, all with the same items: how many it reached. -/
def answerOwed (items : List (Item V)) (e : Editor V) : Nat × Editor V :=
  let (reached, channels) := e.owed.foldl
    (fun (acc : Nat × Channels V) id =>
      match acc.2[id]? with
      | none => acc
      | some c => (if (c.send items).1 then acc.1 + 1 else acc.1, acc.2.set id (c.send items).2))
    (0, e.channels)
  (reached, { e with channels := channels, owed := [] })

end Editor

/-- What became of a request for later items. -/
inductive PendingPoll (V : Type) where
  | ready (offer : Offer V)
  | pending
  /-- Cancelled, or answered for a row that has changed since. -/
  | discarded

namespace Pending

/-- Look for the answer when the row has seen `generation` edits. -/
def poll (generation : Nat) (channels : Channels V) (p : Pending V) :
    PendingPoll V × Pending V × Channels V :=
  let (answer, promise, channels) := p.promise.poll channels
  let outcome := match answer with
    | .pending => .pending
    | .cancelled => .discarded
    | .ready items =>
      if generation = p.generation then
        .ready { supplier := p.supplier, items := items, kind := p.kind, target := p.target,
                 placement := p.placement }
      else .discarded
  (outcome, { p with promise := promise }, channels)

end Pending

namespace Editor

/-- Collect the later items that the menu waits for; tells whether new ones came. -/
def pollMenu (e : Editor V) : Bool × Editor V :=
  match e.menu.pending with
  | none => (false, e)
  | some p =>
    let generation := e.region.modifications
    let (outcome, p, channels) := p.poll generation e.channels
    let e := { e with channels := channels }
    match outcome with
    | .pending => (false, { e with menu := { e.menu with pending := some p } })
    | .discarded => (false, { e with menu := { e.menu with pending := none } })
    | .ready offer =>
      let menu := { e.menu with pending := none, received := some (generation, offer) }
      (true, { e with menu := menu })

/-- Later items that came for this place and this row. -/
def receivedItems (s : Supplier) (e : Editor V) : List (Item V) :=
  match e.menu.received with
  | some (generation, offer) =>
    if generation = e.region.modifications ∧ offer.supplier = s then offer.items else []
  | none => []

/-- What the menu completes: beside a value, behind a finished token, or the token itself. -/
def menuSupplier (e : Editor V) : Supplier × Params :=
  match e.focusedView? with
  | none => (.placeholder, .forMenu)
  | some (index, v) =>
    if !v.editable then (.side index (if v.caret = 0 then 0 else 1), .forMenu)
    else if v.caretAtEnd && !v.text.isEmpty && !(e.tokens[index]?).any Token.isError then
      (.side index 1, Params.forMenu.atEndRight)
    else (.token index, .forMenu)

/-- Everything the menu offers. -/
def menuOffer (e : Editor V) : Offer V :=
  let (s, params) := e.menuSupplier
  let offer := s.offer params e
  { offer with items := offer.items ++ e.receivedItems s }

/-- What typing completes with: while the menu is open its items count too. -/
def typingOffer (s : Supplier) (e : Editor V) : Offer V :=
  if e.menu.active then
    let offer := s.offer .forMenu e
    { offer with items := offer.items ++ e.receivedItems s }
  else s.offer .typing e

/-- Labels of the menu items that the text before the caret may grow into. -/
def menuLabels (e : Editor V) : List Text :=
  if e.menu.active then (Item.startedBy e.menuOffer.items e.textBeforeCaret).map Item.label else []

/-- Open the menu where the focus is. -/
def activateMenu (e : Editor V) : Editor V :=
  let (s, params) := e.menuSupplier
  let (pending, e) := e.requestLater s params
  let e := { e.closeMenu with menu := { active := true, pending := some pending } }
  e.pollMenu.2

/-- More than one item may become of the text before the caret. -/
def ambiguousBeforeCaret (e : Editor V) : Bool :=
  let s : Supplier := match e.focusedIndex? with
    | some index => .token index
    | none => .placeholder
  Item.isAmbiguous (s.offer .typing e).items e.textBeforeCaret

/-- Carry out a move of the caret. -/
def run (m : Move) (e : Editor V) : Editor V :=
  let e := match m.target with
    | .token index position => e.selectToken index position
    | .placeholder => e.focusPlaceholder
    | .unchanged => e
  let e := e.repairFocus
  if m.reopen && e.ambiguousBeforeCaret then e.activateMenu else e

end Editor

end TokenEditor
