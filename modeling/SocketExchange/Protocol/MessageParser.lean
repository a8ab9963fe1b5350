import SocketExchange.Lib.Bytes

/-!
# The wire protocol

A translation of `src/protocol/message_parser.{hpp,cpp}`: one line in, one
`ParsedCommand` out, and the text of every response.

`parse` fills its result field by field and may reject it half filled, so a
`ParsedCommand` is built here the same way, error texts included.  Responses
are an inductive type with a `render` function, because the server never looks
at the text again once it is queued.
-/

namespace SocketExchange.Protocol

open SocketExchange.Lib.Bytes

/-- `kInstruments`. -/
def kInstruments : List Bytes := [ascii "JNST", ascii "IMCT"]

def isValidInstrument (instrument : Bytes) : Bool := kInstruments.contains instrument

/-- `enum class CommandType`. -/
inductive CommandType where
  | unknown
  | login
  | buy
  | sell
  | cancel
  | subscribe
  | unsubscribe
  | quit
  deriving Repr, DecidableEq

/-- One parsed application-level message. -/
structure ParsedCommand where
  type : CommandType := .unknown
  args : List Bytes := []
  valid : Bool := false
  error : Bytes := []
  instrument : Bytes := []
  quantity : Int := 0
  price : Int := 0
  orderId : Int := 0
  deriving Repr, DecidableEq

/-- The wire verb of a command type. -/
def verb : CommandType → Bytes
  | .login => ascii "LOGIN"
  | .buy => ascii "BUY"
  | .sell => ascii "SELL"
  | .cancel => ascii "CANCEL"
  | .subscribe => ascii "SUBSCRIBE"
  | .unsubscribe => ascii "UNSUBSCRIBE"
  | .quit => ascii "QUIT"
  | .unknown => ascii "UNKNOWN"

/-! ## Lexing -/

/-- `std::isspace` in the C locale. -/
def isSpace (c : UInt8) : Bool := c = 32 || (9 ≤ c && c ≤ 13)

/-- `std::isdigit`. -/
def isDigit (c : UInt8) : Bool := 48 ≤ c && c ≤ 57

/-- The tokens of a text of which `token` has been read. -/
def tokensFrom : Bytes → Bytes → List Bytes
  | token, [] => if token = [] then [] else [token]
  | token, c :: rest =>
      if isSpace c then
        if token = [] then tokensFrom [] rest else token :: tokensFrom [] rest
      else tokensFrom (token ++ [c]) rest

/-- What repeated `stream >> token` yields: the maximal runs of bytes that are
not white space. -/
def tokens (line : Bytes) : List Bytes := tokensFrom [] line

/-- The digits of a number of which `value` has been read. -/
def parseDigits : Int → Bytes → Option Int
  | value, [] => some value
  | value, c :: rest =>
      if isDigit c then parseDigits (value * 10 + (c.toNat - 48 : Nat)) rest else none

/-- `parse_integer`: one to eighteen digits and nothing else. -/
def parseInteger (text : Bytes) : Option Int :=
  if text = [] ∨ 18 < text.length then none else parseDigits 0 text

def verbOf (token : Bytes) : CommandType :=
  if token = ascii "LOGIN" then .login
  else if token = ascii "BUY" then .buy
  else if token = ascii "SELL" then .sell
  else if token = ascii "CANCEL" then .cancel
  else if token = ascii "SUBSCRIBE" then .subscribe
  else if token = ascii "UNSUBSCRIBE" then .unsubscribe
  else if token = ascii "QUIT" then .quit
  else .unknown

/-! ## Parsing -/

def reject (cmd : ParsedCommand) (reason : Bytes) : ParsedCommand :=
  { cmd with valid := false, error := reason }

/-- The command as it leaves `parse` without an error. -/
def accept (cmd : ParsedCommand) : ParsedCommand := { cmd with valid := true }

/-- `cmd.args[i]`. -/
def ParsedCommand.arg (cmd : ParsedCommand) (i : Nat) : Bytes := cmd.args.getD i []

def parseLogin (cmd : ParsedCommand) : ParsedCommand :=
  if cmd.args.length ≠ 1 then reject cmd (ascii "Usage: LOGIN <username>")
  else if 64 < (cmd.arg 0).length then reject cmd (ascii "Username too long")
  else accept cmd

/-- `BUY` and `SELL`.  A number that was read stays in the command even if the
command is then rejected. -/
def parseOrder (cmd : ParsedCommand) : ParsedCommand :=
  if cmd.args.length ≠ 3 then
    reject cmd (ascii "Usage: " ++ verb cmd.type ++ ascii " <instrument> <quantity> <price>")
  else if !isValidInstrument (cmd.arg 0) then
    reject cmd (ascii "Unknown instrument " ++ cmd.arg 0)
  else
    match parseInteger (cmd.arg 1) with
    | none => reject cmd (ascii "Quantity must be a positive integer")
    | some quantity =>
        let cmd := { cmd with quantity := quantity }
        if quantity ≤ 0 then reject cmd (ascii "Quantity must be a positive integer")
        else
          match parseInteger (cmd.arg 2) with
          | none => reject cmd (ascii "Price must be a positive integer")
          | some price =>
              let cmd := { cmd with price := price }
              if price ≤ 0 then reject cmd (ascii "Price must be a positive integer")
              else accept { cmd with instrument := cmd.arg 0 }

def parseCancel (cmd : ParsedCommand) : ParsedCommand :=
  if cmd.args.length ≠ 1 then reject cmd (ascii "Usage: CANCEL <order_id>")
  else
    match parseInteger (cmd.arg 0) with
    | none => reject cmd (ascii "Order id must be a non-negative integer")
    | some orderId => accept { cmd with orderId := orderId }

/-- `SUBSCRIBE` and `UNSUBSCRIBE`. -/
def parseSubscription (cmd : ParsedCommand) : ParsedCommand :=
  if cmd.args.length ≠ 1 then
    reject cmd (ascii "Usage: " ++ verb cmd.type ++ ascii " <instrument>")
  else if !isValidInstrument (cmd.arg 0) then
    reject cmd (ascii "Unknown instrument " ++ cmd.arg 0)
  else accept { cmd with instrument := cmd.arg 0 }

def parseQuit (cmd : ParsedCommand) : ParsedCommand :=
  if cmd.args ≠ [] then reject cmd (ascii "Usage: QUIT") else accept cmd

/-- `parse`: one line, without its newline, to a command. -/
def parse (line : Bytes) : ParsedCommand :=
  match tokens line with
  | [] => reject {} (ascii "Empty message")
  | token :: args =>
      let cmd : ParsedCommand := { type := verbOf token, args := args }
      match cmd.type with
      | .unknown => reject cmd (ascii "Unknown command")
      | .login => parseLogin cmd
      | .buy => parseOrder cmd
      | .sell => parseOrder cmd
      | .cancel => parseCancel cmd
      | .subscribe => parseSubscription cmd
      | .unsubscribe => parseSubscription cmd
      | .quit => parseQuit cmd

example : parse (ascii "BUY  JNST 10 007\r") =
    { type := .buy, args := [ascii "JNST", ascii "10", ascii "007"], valid := true,
      instrument := ascii "JNST", quantity := 10, price := 7 } := by decide

/-! ## Responses -/

/-- The messages the server sends, one constructor per formatting helper. -/
inductive Response where
  | ok
  | error (reason : Bytes)
  | orderAccepted (orderId : Int)
  | orderCancelled (orderId : Int)
  | bought (instrument : Bytes) (quantity price : Int)
  | sold (instrument : Bytes) (quantity price : Int)
  | trade (instrument : Bytes) (quantity price : Int)
  deriving Repr, DecidableEq

def join (head instrument : Bytes) (quantity price : Int) : Bytes :=
  head ++ ascii " " ++ instrument ++ ascii " " ++ decimal quantity ++ ascii " " ++
    decimal price ++ [newline]

/-- The complete, newline-terminated message. -/
def Response.render : Response → Bytes
  | .ok => ascii "OK" ++ [newline]
  | .error reason => ascii "ERROR " ++ reason ++ [newline]
  | .orderAccepted orderId => ascii "ORDER_ACCEPTED " ++ decimal orderId ++ [newline]
  | .orderCancelled orderId => ascii "ORDER_CANCELLED " ++ decimal orderId ++ [newline]
  | .bought instrument quantity price => join (ascii "BOUGHT") instrument quantity price
  | .sold instrument quantity price => join (ascii "SOLD") instrument quantity price
  | .trade instrument quantity price => join (ascii "TRADE") instrument quantity price

/-! ## What a valid order carries -/

private theorem valid_reject (cmd : ParsedCommand) (reason : Bytes) :
    (reject cmd reason).valid = false := rfl

/-- **An accepted order is for a positive quantity at a positive price.** -/
theorem parseOrder_pos {cmd : ParsedCommand} (h : (parseOrder cmd).valid = true) :
    0 < (parseOrder cmd).quantity ∧ 0 < (parseOrder cmd).price := by
  unfold parseOrder at h ⊢
  split at h
  · simp [valid_reject] at h
  · next hargs =>
    rw [if_neg hargs]
    split at h
    · simp [valid_reject] at h
    · next hinst =>
      rw [if_neg hinst]
      split at h
      · simp [valid_reject] at h
      · next quantity hq =>
        dsimp only at h ⊢
        split at h
        · simp [valid_reject] at h
        · next hqpos =>
          rw [if_neg hqpos]
          split at h
          · simp [valid_reject] at h
          · next price hp =>
            split at h
            · simp [valid_reject] at h
            · next hppos =>
              rw [if_neg hppos]
              simp only [accept]
              omega

section CommandTypes

variable (cmd : ParsedCommand)

private theorem type_parseLogin : (parseLogin cmd).type = cmd.type := by
  unfold parseLogin
  split
  · rfl
  · split <;> rfl

private theorem type_parseCancel : (parseCancel cmd).type = cmd.type := by
  unfold parseCancel
  split
  · rfl
  · split <;> rfl

private theorem type_parseSubscription : (parseSubscription cmd).type = cmd.type := by
  unfold parseSubscription
  split
  · rfl
  · split <;> rfl

private theorem type_parseQuit : (parseQuit cmd).type = cmd.type := by
  unfold parseQuit
  split <;> rfl

end CommandTypes

/-- A valid `BUY` or `SELL` is for a positive quantity at a positive price. -/
theorem parse_order_pos {line : Bytes} (h : (parse line).valid = true)
    (htype : (parse line).type = .buy ∨ (parse line).type = .sell) :
    0 < (parse line).quantity ∧ 0 < (parse line).price := by
  unfold parse at h htype ⊢
  split
  · next hnil =>
    rw [hnil] at h
    cases h
  · next token args htokens =>
    rw [htokens] at h htype
    dsimp only at h htype ⊢
    cases hverb : verbOf token with
    | buy =>
        rw [hverb] at h
        exact parseOrder_pos h
    | sell =>
        rw [hverb] at h
        exact parseOrder_pos h
    | unknown =>
        rw [hverb] at h
        cases h
    | login => simp [hverb, type_parseLogin] at htype
    | cancel => simp [hverb, type_parseCancel] at htype
    | subscribe => simp [hverb, type_parseSubscription] at htype
    | unsubscribe => simp [hverb, type_parseSubscription] at htype
    | quit => simp [hverb, type_parseQuit] at htype

end SocketExchange.Protocol
