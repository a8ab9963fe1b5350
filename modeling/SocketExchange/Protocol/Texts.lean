import SocketExchange.Protocol.MessageParser

/-!
# What can stand in a message

Responses quote text that came from a client: a username, an instrument, a verb.
All of it went through `tokens`, and a token holds no white space.  So no line
end a client sends comes back in a message, except the one `render` puts at its
end.
-/

namespace SocketExchange.Protocol

open SocketExchange.Lib.Bytes

/-- A text without a line end. -/
structure Plain (text : Bytes) : Prop where
  no_newline : newline ∉ text
  no_return : carriageReturn ∉ text

instance (text : Bytes) : Decidable (Plain text) :=
  decidable_of_iff (newline ∉ text ∧ carriageReturn ∉ text)
    ⟨fun h => ⟨h.1, h.2⟩, fun h => ⟨h.1, h.2⟩⟩

theorem plain_nil : Plain [] := by decide

theorem Plain.append {a b : Bytes} (ha : Plain a) (hb : Plain b) : Plain (a ++ b) where
  no_newline := by simp [ha.no_newline, hb.no_newline]
  no_return := by simp [ha.no_return, hb.no_return]

/-- A text of bytes above the control characters. -/
theorem plain_of_forall {text : Bytes} (h : ∀ c ∈ text, 32 < c) : Plain text where
  no_newline := fun hmem => absurd (h _ hmem) (by decide)
  no_return := fun hmem => absurd (h _ hmem) (by decide)

/-! ## Numbers -/

private theorem digit_toUInt8 {c : Char} (h : c.isDigit = true) : 32 < c.toNat.toUInt8 := by
  simp only [Char.isDigit, Bool.and_eq_true, decide_eq_true_eq] at h
  obtain ⟨hlow, hhigh⟩ := h
  have hlow' : 48 ≤ c.toNat := hlow
  have hhigh' : c.toNat ≤ 57 := hhigh
  rw [UInt8.lt_iff_toNat_lt]
  simp only [Nat.toUInt8, UInt8.toNat_ofNat']
  show 32 < c.toNat % 256
  omega

private theorem plain_ascii_repr (n : Nat) : Plain (ascii n.repr) := by
  refine plain_of_forall fun b hb => ?_
  obtain ⟨c, hc, rfl⟩ := List.mem_map.mp hb
  rw [Nat.toList_repr] at hc
  exact digit_toUInt8 (Nat.isDigit_of_mem_toDigits (by decide) (by decide) hc)

theorem plain_decimal (n : Int) : Plain (decimal n) := by
  cases n with
  | ofNat n => exact plain_ascii_repr n
  | negSucc n =>
      have hsplit : decimal (Int.negSucc n) = ascii "-" ++ ascii (n + 1).repr := by
        show ascii ("-" ++ (n + 1).repr) = _
        simp [ascii]
      rw [hsplit]
      exact Plain.append (by decide) (plain_ascii_repr _)

/-! ## Commands -/

private theorem plain_of_no_space {token : Bytes} (h : ∀ c ∈ token, isSpace c = false) :
    Plain token where
  no_newline := fun hmem => absurd (h _ hmem) (by decide)
  no_return := fun hmem => absurd (h _ hmem) (by decide)

private theorem tokensFrom_no_space (token rest : Bytes)
    (h : ∀ c ∈ token, isSpace c = false) :
    ∀ t ∈ tokensFrom token rest, ∀ c ∈ t, isSpace c = false := by
  induction rest generalizing token with
  | nil =>
      intro t ht
      unfold tokensFrom at ht
      split at ht
      · cases ht
      · rw [List.mem_singleton.mp ht]
        exact h
  | cons c rest ih =>
      have hnil : ∀ c ∈ ([] : Bytes), isSpace c = false := by simp
      intro t ht
      unfold tokensFrom at ht
      split at ht
      · split at ht
        · exact ih [] hnil t ht
        · rcases List.mem_cons.mp ht with rfl | ht
          · exact h
          · exact ih [] hnil t ht
      · next hc =>
        refine ih (token ++ [c]) ?_ t ht
        intro x hx
        rcases List.mem_append.mp hx with hx | hx
        · exact h x hx
        · rw [List.mem_singleton.mp hx]
          simpa using hc

/-- **No line end gets through the lexer.** -/
theorem plain_tokens {line token : Bytes} (h : token ∈ tokens line) : Plain token :=
  plain_of_no_space (tokensFrom_no_space [] line (by simp) token h)

theorem plain_verb (type : CommandType) : Plain (verb type) := by
  cases type <;> decide

/-- A command whose texts are free of line ends. -/
structure PlainCommand (cmd : ParsedCommand) : Prop where
  args : ∀ a ∈ cmd.args, Plain a
  error : Plain cmd.error
  instrument : Plain cmd.instrument

namespace PlainCommand

variable {cmd : ParsedCommand} (h : PlainCommand cmd)

include h

theorem arg (i : Nat) : Plain (cmd.arg i) := by
  unfold ParsedCommand.arg
  rw [List.getD_eq_getElem?_getD]
  cases hi : cmd.args[i]? with
  | none => exact plain_nil
  | some a => exact h.args a (List.mem_of_getElem? hi)

theorem rejected {reason : Bytes} (hreason : Plain reason) : PlainCommand (reject cmd reason) :=
  ⟨h.args, hreason, h.instrument⟩

private theorem accepted : PlainCommand (accept cmd) := ⟨h.args, h.error, h.instrument⟩

private theorem forInstrument (i : Nat) :
    PlainCommand (accept { cmd with instrument := cmd.arg i }) :=
  ⟨h.args, h.error, h.arg i⟩

private theorem ofParseLogin : PlainCommand (parseLogin cmd) := by
  unfold parseLogin
  split
  · exact h.rejected (by decide)
  · split
    · exact h.rejected (by decide)
    · exact h.accepted

private theorem ofParseOrder : PlainCommand (parseOrder cmd) := by
  have hquantity : ∀ quantity, PlainCommand { cmd with quantity := quantity } :=
    fun quantity => ⟨h.args, h.error, h.instrument⟩
  have hprice : ∀ quantity price,
      PlainCommand { cmd with quantity := quantity, price := price } :=
    fun quantity price => ⟨h.args, h.error, h.instrument⟩
  unfold parseOrder
  split
  · exact h.rejected (((by decide : Plain (ascii "Usage: ")).append (plain_verb _)).append
      (by decide))
  · split
    · exact h.rejected ((by decide : Plain (ascii "Unknown instrument ")).append (h.arg 0))
    · split
      · exact h.rejected (by decide)
      · next quantity _ =>
        dsimp only
        split
        · exact (hquantity quantity).rejected (by decide)
        · split
          · exact (hquantity quantity).rejected (by decide)
          · next price _ =>
            split
            · exact (hprice quantity price).rejected (by decide)
            · exact (hprice quantity price).forInstrument 0

private theorem ofParseCancel : PlainCommand (parseCancel cmd) := by
  unfold parseCancel
  split
  · exact h.rejected (by decide)
  · split
    · exact h.rejected (by decide)
    · exact ⟨h.args, h.error, h.instrument⟩

private theorem ofParseSubscription : PlainCommand (parseSubscription cmd) := by
  unfold parseSubscription
  split
  · exact h.rejected (((by decide : Plain (ascii "Usage: ")).append (plain_verb _)).append
      (by decide))
  · split
    · exact h.rejected ((by decide : Plain (ascii "Unknown instrument ")).append (h.arg 0))
    · exact h.forInstrument 0

private theorem ofParseQuit : PlainCommand (parseQuit cmd) := by
  unfold parseQuit
  split
  · exact h.rejected (by decide)
  · exact h.accepted

end PlainCommand

/-- **Whatever the line, its command is plain.** -/
theorem plain_parse (line : Bytes) : PlainCommand (parse line) := by
  unfold parse
  split
  · exact ⟨by simp [reject], by decide, by decide⟩
  · next token args htokens =>
    have hcmd : PlainCommand { type := verbOf token, args := args } := by
      refine ⟨?_, plain_nil, plain_nil⟩
      intro a ha
      exact plain_tokens (htokens ▸ List.mem_cons_of_mem token ha)
    dsimp only
    split
    · exact hcmd.rejected (by decide)
    · exact hcmd.ofParseLogin
    · exact hcmd.ofParseOrder
    · exact hcmd.ofParseOrder
    · exact hcmd.ofParseCancel
    · exact hcmd.ofParseSubscription
    · exact hcmd.ofParseSubscription
    · exact hcmd.ofParseQuit

/-! ## Responses -/

/-- The text of a message, without its newline. -/
def Response.body : Response → Bytes
  | .ok => ascii "OK"
  | .error reason => ascii "ERROR " ++ reason
  | .orderAccepted orderId => ascii "ORDER_ACCEPTED " ++ decimal orderId
  | .orderCancelled orderId => ascii "ORDER_CANCELLED " ++ decimal orderId
  | .bought instrument quantity price =>
      ascii "BOUGHT" ++ ascii " " ++ instrument ++ ascii " " ++ decimal quantity ++
        ascii " " ++ decimal price
  | .sold instrument quantity price =>
      ascii "SOLD" ++ ascii " " ++ instrument ++ ascii " " ++ decimal quantity ++
        ascii " " ++ decimal price
  | .trade instrument quantity price =>
      ascii "TRADE" ++ ascii " " ++ instrument ++ ascii " " ++ decimal quantity ++
        ascii " " ++ decimal price

theorem render_eq_body (message : Response) : message.render = message.body ++ [newline] := by
  cases message <;> rfl

/-- An answer to a command, as opposed to the notice of an execution. -/
def Response.direct : Response → Bool
  | .ok => true
  | .error _ => true
  | .orderAccepted _ => true
  | .orderCancelled _ => true
  | _ => false

/-- The text a message quotes. -/
def Response.quoted : Response → Bytes
  | .error reason => reason
  | .bought instrument _ _ => instrument
  | .sold instrument _ _ => instrument
  | .trade instrument _ _ => instrument
  | _ => []

private theorem plain_notice {head instrument : Bytes} (hhead : Plain head)
    (h : Plain instrument) (quantity price : Int) :
    Plain (head ++ ascii " " ++ instrument ++ ascii " " ++ decimal quantity ++ ascii " " ++
      decimal price) := by
  have hspace : Plain (ascii " ") := by decide
  exact (((((hhead.append hspace).append h).append hspace).append
    (plain_decimal quantity)).append hspace).append (plain_decimal price)

/-- **A message is as plain as what it quotes.** -/
theorem plain_body {message : Response} (h : Plain message.quoted) : Plain message.body := by
  cases message with
  | ok => decide
  | error reason => exact Plain.append (by decide) h
  | orderAccepted orderId => exact Plain.append (by decide) (plain_decimal orderId)
  | orderCancelled orderId => exact Plain.append (by decide) (plain_decimal orderId)
  | bought instrument quantity price => exact plain_notice (by decide) h quantity price
  | sold instrument quantity price => exact plain_notice (by decide) h quantity price
  | trade instrument quantity price => exact plain_notice (by decide) h quantity price

end SocketExchange.Protocol
