import Mathlib.Data.List.AList
import SocketExchange.Lib.Bytes
import SocketExchange.Lib.Loop

/-!
# The order book

A translation of `src/trading/order_book.{hpp,cpp}`.

`std::list` iterators are stable: they name a *node*, not an index, and stay
valid while other nodes come and go.  A queue is therefore a list of `Node`s,
each carrying the address it was allocated at, and a `Location` is a queue
together with such an address.  An address that is no longer in the queue is a
dangling iterator; `Book.deref` returns `none` for it, so that "no lookup uses
the location of an erased order" is a statement about this model rather than
an artefact of it.

`long` is modelled by `Int`.  The only arithmetic on it is the id counter and
subtractions that keep their operands positive.

The one addition to the source is `Fill`: an execution together with the ids of
the two orders it consumed.  No definition of this file reads those ids; they
are recorded for the statements about histories.
-/

namespace SocketExchange.Trading.OrderBook

open SocketExchange.Lib
open SocketExchange.Lib.Bytes

/-- `enum class Side`. -/
inductive Side where
  | buy
  | sell
  deriving Repr, DecidableEq

/-- The side an incoming order is matched against. -/
def Side.opposite : Side → Side
  | .buy => .sell
  | .sell => .buy

/-- A resting order: accepted, with unfilled quantity. -/
structure Order where
  id : Int
  ownerFd : Int
  instrument : Bytes
  side : Side
  quantity : Int
  price : Int
  deriving Repr, DecidableEq

/-- One executed match, to be turned into BOUGHT / SOLD / TRADE messages. -/
structure TradeExecution where
  buyerFd : Int
  sellerFd : Int
  instrument : Bytes
  quantity : Int
  price : Int
  deriving Repr, DecidableEq

/-- An execution with the ids of the two orders that met. -/
structure Fill where
  incomingId : Int
  restingId : Int
  execution : TradeExecution
  deriving Repr, DecidableEq

/-- A node of a `std::list<Order>`. -/
structure Node where
  addr : Nat
  order : Order
  deriving Repr, DecidableEq

/-- Which of the per-instrument, per-side lists. -/
structure QueueId where
  side : Side
  instrument : Bytes
  deriving Repr, DecidableEq

/-- `OrderBook::Location`: a queue and an iterator into it. -/
structure Location where
  queue : QueueId
  it : Nat
  deriving Repr, DecidableEq

/-- One of `buys_` and `sells_`. -/
abbrev QueueMap := AList fun _ : Bytes => List Node

/-- `index_`: order id to position. -/
abbrev Index := AList fun _ : Int => Location

/-- `class OrderBook`.  `nextAddr` is the allocator's, not the class's. -/
structure Book where
  nextOrderId : Int := 1
  buys : QueueMap := ∅
  sells : QueueMap := ∅
  index : Index := ∅
  nextAddr : Nat := 0

/-- The book as constructed. -/
def Book.empty : Book := {}

/-- `buys_[instrument]` or `sells_[instrument]`.  `operator[]` of a missing key
yields an empty list, and nothing in the class distinguishes the two. -/
def Book.queue (b : Book) (q : QueueId) : List Node :=
  match q.side with
  | .buy => (b.buys.lookup q.instrument).getD []
  | .sell => (b.sells.lookup q.instrument).getD []

def Book.setQueue (b : Book) (q : QueueId) (nodes : List Node) : Book :=
  match q.side with
  | .buy => { b with buys := b.buys.insert q.instrument nodes }
  | .sell => { b with sells := b.sells.insert q.instrument nodes }

/-- Every node of every queue. -/
def Book.nodes (b : Book) : List Node :=
  b.buys.entries.flatMap (·.2) ++ b.sells.entries.flatMap (·.2)

/-- Every resting order. -/
def Book.orders (b : Book) : List Order := b.nodes.map Node.order

/-- `resting_order_count`. -/
def Book.restingOrderCount (b : Book) : Nat := b.index.entries.length

/-- `*location.it`, if the iterator is not dangling. -/
def Book.deref (b : Book) (loc : Location) : Option Node :=
  (b.queue loc.queue).find? fun n => n.addr = loc.it

/-- `list::erase(it)`. -/
def eraseNode (addr : Nat) (nodes : List Node) : List Node :=
  nodes.filter fun n => n.addr ≠ addr

/-- `location.queue->erase(location.it)`. -/
def Book.eraseFromQueue (b : Book) (loc : Location) : Book :=
  b.setQueue loc.queue (eraseNode loc.it (b.queue loc.queue))

/-- `OrderBook::erase_at`. -/
def Book.eraseAt (b : Book) (orderId : Int) (loc : Location) : Book :=
  let b := b.eraseFromQueue loc
  { b with index := b.index.erase orderId }

/-! ## `add_order` -/

/-- The arguments of `add_order`, with the id it has just assigned. -/
structure Incoming where
  orderId : Int
  ownerFd : Int
  instrument : Bytes
  side : Side
  price : Int
  deriving Repr, DecidableEq

/-- The queue `opposite` refers to. -/
def Incoming.oppositeQueue (o : Incoming) : QueueId :=
  ⟨o.side.opposite, o.instrument⟩

/-- The queue `own` refers to. -/
def Incoming.ownQueue (o : Incoming) : QueueId := ⟨o.side, o.instrument⟩

/-- The locals of the matching loop.  The opposite queue is
`passed ++ ahead`, and `it` points at the head of `ahead`. -/
structure MatchState where
  passed : List Node
  ahead : List Node
  remaining : Int
  index : Index
  fills : List Fill

/-- The execution pushed when `traded` units of a resting order are taken. -/
def Incoming.fill (o : Incoming) (resting : Order) (traded : Int) : Fill where
  incomingId := o.orderId
  restingId := resting.id
  execution :=
    { buyerFd := match o.side with
        | .buy => o.ownerFd
        | .sell => resting.ownerFd
      sellerFd := match o.side with
        | .buy => resting.ownerFd
        | .sell => o.ownerFd
      instrument := o.instrument
      quantity := traded
      price := o.price }

/-- A node whose order has lost `traded` units. -/
def Node.reduce (n : Node) (traded : Int) : Node :=
  { n with order := { n.order with quantity := n.order.quantity - traded } }

/-- One pass of the matching loop over the node `n` under the iterator. -/
def matchPass (o : Incoming) (σ : MatchState) (n : Node) (rest : List Node) :
    MatchState :=
  if n.order.price ≠ o.price then
    { σ with passed := σ.passed ++ [n], ahead := rest }
  else
    let traded := min σ.remaining n.order.quantity
    let n' := n.reduce traded
    let σ' := { σ with
      ahead := rest
      remaining := σ.remaining - traded
      fills := σ.fills ++ [o.fill n.order traded] }
    if n'.order.quantity = 0 then
      { σ' with index := σ.index.erase n.order.id }
    else
      -- a partially filled resting order keeps its queue position
      { σ' with passed := σ.passed ++ [n'] }

/-- `while (it != opposite.end() && remaining > 0)`. -/
def matchStep (o : Incoming) (σ : MatchState) : Option MatchState :=
  match σ.ahead with
  | [] => none
  | n :: rest => if σ.remaining > 0 then some (matchPass o σ n rest) else none

/-- The loop moves its iterator forward by one node in each pass. -/
def matchLoop (o : Incoming) (σ : MatchState) : MatchState :=
  Loop.loop (matchStep o) σ.ahead.length σ

/-- The loop's locals on entry. -/
def Book.matchStart (b : Book) (o : Incoming) (quantity : Int) : MatchState where
  passed := []
  ahead := b.queue o.oppositeQueue
  remaining := quantity
  index := b.index
  fills := []

/-- The book as it stands when the loop's locals are `σ`. -/
def Book.during (b : Book) (o : Incoming) (σ : MatchState) : Book :=
  { b.setQueue o.oppositeQueue (σ.passed ++ σ.ahead) with index := σ.index }

/-- The order that rests when `remaining` units are left. -/
def Incoming.rest (o : Incoming) (remaining : Int) : Order where
  id := o.orderId
  ownerFd := o.ownerFd
  instrument := o.instrument
  side := o.side
  quantity := remaining
  price := o.price

/-- `own.push_back(order)` and the index entry for it. -/
def Book.restRemainder (b : Book) (o : Incoming) (remaining : Int) : Book :=
  let own := b.queue o.ownQueue
  let node : Node := ⟨b.nextAddr, o.rest remaining⟩
  { b.setQueue o.ownQueue (own ++ [node]) with
    index := b.index.insert o.orderId ⟨o.ownQueue, b.nextAddr⟩
    nextAddr := b.nextAddr + 1 }

/-- What `add_order` returns and appends. -/
structure AddResult where
  book : Book
  orderId : Int
  fills : List Fill

/-- The executions appended to the caller's vector. -/
def AddResult.executions (r : AddResult) : List TradeExecution :=
  r.fills.map Fill.execution

/-- `OrderBook::add_order`. -/
def Book.addOrder (b : Book) (ownerFd : Int) (instrument : Bytes) (side : Side)
    (quantity price : Int) : AddResult :=
  let o : Incoming := ⟨b.nextOrderId, ownerFd, instrument, side, price⟩
  let b := { b with nextOrderId := b.nextOrderId + 1 }
  let σ := matchLoop o (b.matchStart o quantity)
  let b := b.during o σ
  { book := if σ.remaining > 0 then b.restRemainder o σ.remaining else b
    orderId := o.orderId
    fills := σ.fills }

/-! ## `cancel_order` and `remove_orders_of` -/

/-- What `cancel_order` returns, and the text it leaves in `error`. -/
structure CancelResult where
  book : Book
  ok : Bool
  error : Bytes

/-- `OrderBook::cancel_order`. -/
def Book.cancelOrder (b : Book) (orderId requesterFd : Int) : CancelResult :=
  match b.index.lookup orderId with
  | none =>
      -- unknown, fully executed and already cancelled orders look the same
      ⟨b, false,
        ascii "No such order with unfilled quantity: " ++ decimal orderId⟩
  | some loc =>
      if (b.deref loc).map (·.order.ownerFd) ≠ some requesterFd then
        ⟨b, false,
          ascii "Order " ++ decimal orderId ++ ascii " belongs to another trader"⟩
      else
        ⟨b.eraseAt orderId loc, true, []⟩

/-- One pass of the loop of `remove_orders_of` over an index entry. -/
def Book.removeEntry (ownerFd : Int) (b : Book) (entry : Sigma fun _ : Int => Location) :
    Book :=
  if (b.deref entry.2).map (·.order.ownerFd) = some ownerFd then
    b.eraseAt entry.1 entry.2
  else b

/-- `OrderBook::remove_orders_of`.  Erasing the current entry of an
`unordered_map` leaves the order of the others as it was, so the entries are
walked in the order they had on entry. -/
def Book.removeOrdersOf (order : HashOrder) (b : Book) (ownerFd : Int) : Book :=
  Loop.run (Book.removeEntry ownerFd) b (order.walk b.index.entries)

end SocketExchange.Trading.OrderBook
