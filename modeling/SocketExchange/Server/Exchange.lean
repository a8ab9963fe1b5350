import SocketExchange.Protocol.MessageParser
import SocketExchange.Trading.Market

/-!
# The exchange the server stands for

What the server is for, with no sockets in it.  People come, say lines and leave, one
thing at a time.  Each of them is a guest until the first command that takes a side, and
from then on a trader under a name or a watcher of some instruments.  A line is heard out
at once: it changes who somebody is or what is in the market, it gets one reply, and the
executions it makes are told to their parties and to the watchers of the instrument.

There are no buffers here, no descriptors to be closed later, no partial writes, no tables
that must agree with each other.  The texts are those of the source, since a client can
read them.
-/

namespace SocketExchange.Server

open SocketExchange.Lib
open SocketExchange.Lib.Bytes
open SocketExchange.Protocol
open SocketExchange.Trading.OrderBook

/-- What somebody is to the exchange. -/
inductive Member where
  | guest
  | trader (username : Bytes)
  | watcher (instruments : List Bytes)
  deriving Repr, DecidableEq

/-- Who is there, and what they want to trade. -/
structure Exchange where
  members : AList (fun _ : Int => Member) := ∅
  market : Market := {}

/-- What the exchange makes of a line. -/
structure Verdict where
  exchange : Exchange
  reply : Option Response := none
  executions : List TradeExecution := []

namespace Exchange

def enrol (x : Exchange) (fd : Int) (member : Member) : Exchange :=
  { x with members := x.members.insert fd member }

/-- Somebody trades under this name. -/
def named (x : Exchange) (username : Bytes) : Bool :=
  x.members.entries.any fun e => e.2 = .trader username

/-- Nothing happens, and the reply says why. -/
def refuse (x : Exchange) (reason : Bytes) : Verdict := { exchange := x, reply := some (.error reason) }

/-- Nothing happens: the command is for the other kind of client. -/
def misplaced (x : Exchange) (type : CommandType) (actual : Bytes) : Verdict :=
  x.refuse (verb type ++ ascii " is not permitted for a " ++ actual ++ ascii " client")

def login (x : Exchange) (fd : Int) (member : Member) (cmd : ParsedCommand) : Verdict :=
  match member with
  | .watcher _ => x.misplaced cmd.type (ascii "market-data")
  | .trader name => x.refuse (ascii "Already logged in as " ++ name)
  | .guest =>
      if x.named (cmd.arg 0) then
        x.refuse (ascii "Username " ++ cmd.arg 0 ++ ascii " is already in use")
      else { exchange := x.enrol fd (.trader (cmd.arg 0)), reply := some .ok }

/-- What somebody who is not a trader watches. -/
def subscribe (x : Exchange) (fd : Int) (instruments : List Bytes) (cmd : ParsedCommand) :
    Verdict :=
  { exchange := x.enrol fd (.watcher (instruments.insert cmd.instrument)), reply := some .ok }

def unsubscribe (x : Exchange) (fd : Int) (instruments : List Bytes) (cmd : ParsedCommand) :
    Verdict :=
  if !instruments.contains cmd.instrument then
    x.refuse (ascii "Not subscribed to " ++ cmd.instrument)
  else
    { exchange := x.enrol fd (.watcher (instruments.filter (· ≠ cmd.instrument)))
      reply := some .ok }

/-- A subscription command.  A guest watches nothing yet. -/
def watch (x : Exchange) (member : Member) (cmd : ParsedCommand)
    (act : List Bytes → ParsedCommand → Verdict) : Verdict :=
  match member with
  | .trader _ => x.misplaced cmd.type (ascii "trader")
  | .guest => act [] cmd
  | .watcher instruments => act instruments cmd

/-- A trading command, with what a trader gets out of it. -/
def trade (x : Exchange) (member : Member) (cmd : ParsedCommand) (act : Verdict) : Verdict :=
  match member with
  | .watcher _ => x.misplaced cmd.type (ascii "market-data")
  | .guest => x.refuse (ascii "Not logged in: send LOGIN <username> before trading")
  | .trader _ => act

/-- The market takes an order, and its counterparties execute. -/
def order (x : Exchange) (fd : Int) (side : Side) (cmd : ParsedCommand) : Verdict :=
  let o := x.market.incoming fd cmd.instrument side cmd.price
  { exchange := { x with market := x.market.addOrder o cmd.quantity }
    reply := some (.orderAccepted o.orderId)
    executions := (o.fillsOf (x.market.takings o cmd.quantity)).map Fill.execution }

def cancel (x : Exchange) (fd : Int) (cmd : ParsedCommand) : Verdict :=
  match x.market.cancelAnswer cmd.orderId fd with
  | .refused reason => x.refuse reason
  | _ =>
      { exchange := { x with market := x.market.step (.cancelOrder cmd.orderId fd) }
        reply := some (.orderCancelled cmd.orderId) }

/-- **A line is heard out.**  After a QUIT nothing is said, and its sender leaves when it
leaves. -/
def hear (x : Exchange) (fd : Int) (member : Member) (line : Bytes) : Verdict :=
  let cmd := parse line
  if !cmd.valid then x.refuse cmd.error
  else
    match cmd.type with
    | .quit => { exchange := x }
    | .login => x.login fd member cmd
    | .subscribe => x.watch member cmd (x.subscribe fd)
    | .unsubscribe => x.watch member cmd (x.unsubscribe fd)
    | .buy => x.trade member cmd (x.order fd .buy cmd)
    | .sell => x.trade member cmd (x.order fd .sell cmd)
    | .cancel => x.trade member cmd (x.cancel fd cmd)
    | .unknown => x.refuse (ascii "Unknown command")

/-- What an execution means for somebody. -/
def notices (x : Exchange) (dest : Int) (e : TradeExecution) : List Response :=
  (if dest = e.buyerFd then [.bought e.instrument e.quantity e.price] else []) ++
  (if dest = e.sellerFd then [.sold e.instrument e.quantity e.price] else []) ++
  (match x.members.lookup dest with
    | some (.watcher instruments) =>
        if instruments.contains e.instrument then [.trade e.instrument e.quantity e.price]
        else []
    | _ => [])

end Exchange

/-- What happens at an exchange. -/
inductive Happening where
  | joins (fd : Int)
  | speaks (fd : Int) (line : Bytes)
  | leaves (fd : Int)
  deriving Repr, DecidableEq

namespace Exchange

def verdict (x : Exchange) (fd : Int) (line : Bytes) : Verdict :=
  match x.members.lookup fd with
  | none => { exchange := x }
  | some member => x.hear fd member line

/-- Whoever leaves takes its orders along. -/
def next (x : Exchange) : Happening → Exchange
  | .joins fd => x.enrol fd .guest
  | .speaks fd line => (x.verdict fd line).exchange
  | .leaves fd =>
      { members := x.members.erase fd, market := x.market.step (.removeOrdersOf fd) }

/-- What is said to one client because of a happening. -/
def sayings (x : Exchange) (h : Happening) (dest : Int) : List Response :=
  match h with
  | .speaks fd line =>
      let v := x.verdict fd line
      (if dest = fd then v.reply.toList else []) ++
        v.executions.flatMap (x.notices dest)
  | _ => []

end Exchange

/-- The exchange as a machine, with what it says to whom. -/
def exchange : Refinement.Machine Happening Exchange (Int → List Response) :=
  ⟨{}, Exchange.next, Exchange.sayings⟩

end SocketExchange.Server
