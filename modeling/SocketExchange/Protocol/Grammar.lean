import Mathlib.Data.Nat.Digits.Defs
import SocketExchange.Protocol.MessageParser

/-!
# The command grammar

`parse` reads a line through a token loop, a verb table, argument counts, a digit
loop and two range checks, each with an error of its own.  What it accepts is a
grammar of seven productions over the words of the line, and every production
says what its command carries.

The grammar is stated without the code's loops: words are what is left between
white space, and a numeral has its positional value.
-/

namespace SocketExchange.Protocol

open SocketExchange.Lib.Bytes

/-! ## Words -/

/-- The maximal runs of bytes that are not white space. -/
noncomputable def words (line : Bytes) : List Bytes :=
  (line.splitOnP isSpace).filter (· ≠ [])

private theorem modifyHead_nil_append (texts : List Bytes) :
    texts.modifyHead (([] : Bytes) ++ ·) = texts := by
  cases texts <;> rfl

private theorem tokensFrom_eq (token rest : Bytes) :
    tokensFrom token rest =
      ((rest.splitOnP isSpace).modifyHead (token ++ ·)).filter (· ≠ []) := by
  induction rest generalizing token with
  | nil =>
      rw [tokensFrom, List.splitOnP_nil]
      split
      · next hempty => simp [hempty]
      · next hnonempty => simp [hnonempty]
  | cons c rest ih =>
      rw [tokensFrom, List.splitOnP_cons_eq_if_modifyHead]
      split
      · -- the pending token ends here, and the next one starts empty
        have hnext := ih []
        rw [modifyHead_nil_append] at hnext
        split
        · next hempty => simpa [hempty] using hnext
        · next hnonempty => simpa [hnonempty] using hnext
      · rw [ih, List.modifyHead_modifyHead]
        have hfun : ((token ++ [c] ++ ·) : Bytes → Bytes) = (token ++ ·) ∘ (c :: ·) := by
          funext tail
          simp
        rw [hfun]

/-- **The lexer yields the words of the line.** -/
theorem tokens_eq_words (line : Bytes) : tokens line = words line := by
  rw [tokens, tokensFrom_eq, modifyHead_nil_append]
  rfl

/-- A word is read to its end before anything is emitted. -/
private theorem tokensFrom_append (token word rest : Bytes)
    (h : ∀ c ∈ word, isSpace c = false) :
    tokensFrom token (word ++ rest) = tokensFrom (token ++ word) rest := by
  induction word generalizing token with
  | nil => simp
  | cons c word ih =>
      have hc : isSpace c = false := h c (by simp)
      rw [List.cons_append, tokensFrom, hc]
      simp only [Bool.false_eq_true, if_false]
      rw [ih (token ++ [c]) fun x hx => h x (List.mem_cons_of_mem c hx)]
      simp

private theorem tokens_word {word : Bytes} (hword : word ≠ [])
    (h : ∀ c ∈ word, isSpace c = false) {space : UInt8} (hspace : isSpace space = true)
    (rest : Bytes) : tokens (word ++ space :: rest) = word :: tokens rest := by
  rw [tokens, tokensFrom_append [] word _ h, List.nil_append, tokensFrom, if_pos hspace,
    if_neg hword]
  rfl

/-! ## Numerals -/

/-- One to eighteen decimal digits. -/
structure Numeral (text : Bytes) : Prop where
  nonempty : text ≠ []
  short : text.length ≤ 18
  digits : ∀ c ∈ text, isDigit c = true

/-- What a digit stands for. -/
def digit (c : UInt8) : Nat := c.toNat - 48

/-- The positional value of a text of digits, the most significant first. -/
def value (text : Bytes) : Nat := Nat.ofDigits 10 (text.reverse.map digit)

theorem digit_lt {c : UInt8} (h : isDigit c = true) : digit c < 10 := by
  simp only [isDigit, Bool.and_eq_true, decide_eq_true_eq, UInt8.le_iff_toNat_le] at h
  have hhigh : c.toNat ≤ 57 := h.2
  unfold digit
  omega

theorem value_cons (c : UInt8) (rest : Bytes) :
    value (c :: rest) = digit c * 10 ^ rest.length + value rest := by
  unfold value
  rw [List.reverse_cons, List.map_append, Nat.ofDigits_append]
  simp only [List.map_cons, List.map_nil, Nat.ofDigits_singleton, List.length_map,
    List.length_reverse]
  ring

theorem value_lt {text : Bytes} (h : ∀ c ∈ text, isDigit c = true) :
    value text < 10 ^ text.length := by
  have hlt : ∀ d ∈ text.reverse.map digit, d < 10 := by
    intro d hd
    obtain ⟨c, hc, rfl⟩ := List.mem_map.mp hd
    exact digit_lt (h c (List.mem_reverse.mp hc))
  simpa [value] using Nat.ofDigits_lt_base_pow_length (by decide) hlt

/-- **The digit loop computes the positional value.**  It starts from what has
been read and fails at the first byte that is no digit. -/
theorem parseDigits_eq_some_iff (start : Int) (text : Bytes) (n : Int) :
    parseDigits start text = some n ↔
      (∀ c ∈ text, isDigit c = true) ∧ n = start * 10 ^ text.length + value text := by
  induction text generalizing start with
  | nil =>
      simp only [parseDigits, value, List.reverse_nil, List.map_nil, Nat.ofDigits_nil,
        List.length_nil, pow_zero, mul_one, Nat.cast_zero, add_zero, Option.some.injEq]
      exact ⟨fun h => ⟨by simp, h.symm⟩, fun h => h.2.symm⟩
  | cons c rest ih =>
      rw [parseDigits]
      split
      · next hc =>
        rw [ih, value_cons]
        have hstep : (start * 10 + (c.toNat - 48 : Nat)) * 10 ^ rest.length + (value rest : Int) =
            start * 10 ^ (c :: rest).length +
              ((digit c * 10 ^ rest.length + value rest : Nat) : Int) := by
          push_cast [List.length_cons, digit]
          ring
        rw [hstep]
        simp [hc]
      · next hc =>
        simp [hc]

theorem parseInteger_eq_some_iff (text : Bytes) (n : Int) :
    parseInteger text = some n ↔ Numeral text ∧ n = value text := by
  unfold parseInteger
  split
  · next hlength =>
    refine ⟨fun h => by simp at h, fun h => ?_⟩
    have hnonempty := h.1.nonempty
    have hshort := h.1.short
    rcases hlength with hempty | hlong
    · exact absurd hempty hnonempty
    · omega
  · next hlength =>
    obtain ⟨hnonempty, hshort⟩ := not_or.mp hlength
    rw [parseDigits_eq_some_iff]
    simp only [zero_mul, zero_add]
    exact ⟨fun h => ⟨⟨hnonempty, by omega, h.1⟩, h.2⟩, fun h => ⟨h.1.digits, h.2⟩⟩

theorem parseInteger_of_numeral {text : Bytes} (h : Numeral text) :
    parseInteger text = some (value text : Int) :=
  (parseInteger_eq_some_iff text _).mpr ⟨h, rfl⟩

/-- **No intermediate value overflows.**  Before a digit of a text of at most
eighteen bytes is added, the loop holds the value of fewer than eighteen digits. -/
theorem parseDigits_step_bounded {before after : Bytes} {c : UInt8} {n : Int}
    (hshort : (before ++ c :: after).length ≤ 18) (hread : parseDigits 0 before = some n)
    (hc : isDigit c = true) :
    0 ≤ n * 10 ∧ n * 10 + (c.toNat - 48 : Nat) < 2 ^ 63 := by
  obtain ⟨hdigits, hn⟩ := (parseDigits_eq_some_iff 0 before n).mp hread
  have hlength : before.length ≤ 17 := by
    simp only [List.length_append, List.length_cons] at hshort
    omega
  have hvalue : value before < 10 ^ 17 :=
    lt_of_lt_of_le (value_lt hdigits) (Nat.pow_le_pow_right (by decide) hlength)
  have hdigit : c.toNat - 48 < 10 := digit_lt hc
  simp only [zero_mul, zero_add] at hn
  subst hn
  omega

/-! ## The productions -/

/-- The commands of the protocol, by their words, and what each is decoded to. -/
inductive Accepts : List Bytes → ParsedCommand → Prop
  | login {username : Bytes} (hlength : username.length ≤ 64) :
      Accepts [ascii "LOGIN", username] { type := .login, args := [username], valid := true }
  | buy {instrument quantity price : Bytes}
      (hinstrument : instrument = ascii "JNST" ∨ instrument = ascii "IMCT")
      (hquantity : Numeral quantity) (hquantity' : 0 < value quantity)
      (hprice : Numeral price) (hprice' : 0 < value price) :
      Accepts [ascii "BUY", instrument, quantity, price]
        { type := .buy, args := [instrument, quantity, price], valid := true,
          instrument := instrument, quantity := value quantity, price := value price }
  | sell {instrument quantity price : Bytes}
      (hinstrument : instrument = ascii "JNST" ∨ instrument = ascii "IMCT")
      (hquantity : Numeral quantity) (hquantity' : 0 < value quantity)
      (hprice : Numeral price) (hprice' : 0 < value price) :
      Accepts [ascii "SELL", instrument, quantity, price]
        { type := .sell, args := [instrument, quantity, price], valid := true,
          instrument := instrument, quantity := value quantity, price := value price }
  | cancel {orderId : Bytes} (horderId : Numeral orderId) :
      Accepts [ascii "CANCEL", orderId]
        { type := .cancel, args := [orderId], valid := true, orderId := value orderId }
  | subscribe {instrument : Bytes}
      (hinstrument : instrument = ascii "JNST" ∨ instrument = ascii "IMCT") :
      Accepts [ascii "SUBSCRIBE", instrument]
        { type := .subscribe, args := [instrument], valid := true, instrument := instrument }
  | unsubscribe {instrument : Bytes}
      (hinstrument : instrument = ascii "JNST" ∨ instrument = ascii "IMCT") :
      Accepts [ascii "UNSUBSCRIBE", instrument]
        { type := .unsubscribe, args := [instrument], valid := true, instrument := instrument }
  | quit : Accepts [ascii "QUIT"] { type := .quit, valid := true }

private theorem isValidInstrument_iff (instrument : Bytes) :
    isValidInstrument instrument = true ↔
      instrument = ascii "JNST" ∨ instrument = ascii "IMCT" := by
  simp [isValidInstrument, kInstruments]

/-! ### What is accepted is in the grammar -/

section Valid

variable {cmd : ParsedCommand}

private theorem args_of_length_one (h : ¬ cmd.args.length ≠ 1) :
    cmd.args = [cmd.arg 0] := by
  obtain ⟨a, ha⟩ := List.length_eq_one_iff.mp (not_not.mp h)
  simp [ParsedCommand.arg, ha]

private theorem parseLogin_valid (h : (parseLogin cmd).valid = true) :
    cmd.args = [cmd.arg 0] ∧ (cmd.arg 0).length ≤ 64 := by
  unfold parseLogin at h
  split at h
  · cases h
  · next hargs =>
    split at h
    · cases h
    · next hlength => exact ⟨args_of_length_one hargs, by omega⟩

private theorem parseOrder_valid (h : (parseOrder cmd).valid = true) :
    cmd.args = [cmd.arg 0, cmd.arg 1, cmd.arg 2] ∧ isValidInstrument (cmd.arg 0) = true ∧
      (Numeral (cmd.arg 1) ∧ 0 < value (cmd.arg 1)) ∧
      (Numeral (cmd.arg 2) ∧ 0 < value (cmd.arg 2)) := by
  unfold parseOrder at h
  split at h
  · cases h
  · next hargs =>
    have hshape : cmd.args = [cmd.arg 0, cmd.arg 1, cmd.arg 2] := by
      match hlist : cmd.args, not_not.mp hargs with
      | [a, b, c], _ => simp [ParsedCommand.arg, hlist]
    split at h
    · cases h
    · next hinstrument =>
      split at h
      · cases h
      · next quantity hquantity =>
        dsimp only at h
        split at h
        · cases h
        · next hquantity' =>
          split at h
          · cases h
          · next price hprice =>
            split at h
            · cases h
            · next hprice' =>
              obtain ⟨hq, rfl⟩ := (parseInteger_eq_some_iff _ _).mp hquantity
              obtain ⟨hp, rfl⟩ := (parseInteger_eq_some_iff _ _).mp hprice
              have hpos : 0 < value (cmd.arg 2) := by
                have hpos' : ¬ (value (cmd.arg 2) : Int) ≤ 0 := hprice'
                omega
              exact ⟨hshape, by simpa using hinstrument, ⟨hq, by omega⟩, ⟨hp, hpos⟩⟩

private theorem parseCancel_valid (h : (parseCancel cmd).valid = true) :
    cmd.args = [cmd.arg 0] ∧ Numeral (cmd.arg 0) := by
  unfold parseCancel at h
  split at h
  · cases h
  · next hargs =>
    split at h
    · cases h
    · next orderId horderId =>
      exact ⟨args_of_length_one hargs, ((parseInteger_eq_some_iff _ _).mp horderId).1⟩

private theorem parseSubscription_valid (h : (parseSubscription cmd).valid = true) :
    cmd.args = [cmd.arg 0] ∧ isValidInstrument (cmd.arg 0) = true := by
  unfold parseSubscription at h
  split at h
  · cases h
  · next hargs =>
    split at h
    · cases h
    · next hinstrument => exact ⟨args_of_length_one hargs, by simpa using hinstrument⟩

private theorem parseQuit_valid (h : (parseQuit cmd).valid = true) : cmd.args = [] := by
  unfold parseQuit at h
  split at h
  · cases h
  · next hargs => exact not_not.mp hargs

end Valid

/-- Only its own verb gives a command type. -/
private theorem eq_verb_of_verbOf {token : Bytes} {type : CommandType} (h : verbOf token = type)
    (htype : type ≠ .unknown) : token = verb type := by
  subst h
  unfold verbOf at htype ⊢
  repeat' split
  all_goals first
    | assumption
    | simp_all

private theorem exists_accepts {line : Bytes} (h : (parse line).valid = true) :
    ∃ cmd, Accepts (words line) cmd := by
  rw [← tokens_eq_words]
  unfold parse at h
  split at h
  · cases h
  · next token args htokens =>
    rw [htokens]
    dsimp only at h
    cases hverb : verbOf token with
    | unknown =>
        rw [hverb] at h
        cases h
    | login =>
        rw [hverb] at h
        obtain ⟨hargs, hlength⟩ := parseLogin_valid h
        rw [eq_verb_of_verbOf hverb (by decide), show args = _ from hargs]
        exact ⟨_, .login hlength⟩
    | buy =>
        rw [hverb] at h
        obtain ⟨hargs, hinstrument, hquantity, hprice⟩ := parseOrder_valid h
        rw [eq_verb_of_verbOf hverb (by decide), show args = _ from hargs]
        exact ⟨_, .buy ((isValidInstrument_iff _).mp hinstrument) hquantity.1 hquantity.2
          hprice.1 hprice.2⟩
    | sell =>
        rw [hverb] at h
        obtain ⟨hargs, hinstrument, hquantity, hprice⟩ := parseOrder_valid h
        rw [eq_verb_of_verbOf hverb (by decide), show args = _ from hargs]
        exact ⟨_, .sell ((isValidInstrument_iff _).mp hinstrument) hquantity.1 hquantity.2
          hprice.1 hprice.2⟩
    | cancel =>
        rw [hverb] at h
        obtain ⟨hargs, horderId⟩ := parseCancel_valid h
        rw [eq_verb_of_verbOf hverb (by decide), show args = _ from hargs]
        exact ⟨_, .cancel horderId⟩
    | subscribe =>
        rw [hverb] at h
        obtain ⟨hargs, hinstrument⟩ := parseSubscription_valid h
        rw [eq_verb_of_verbOf hverb (by decide), show args = _ from hargs]
        exact ⟨_, .subscribe ((isValidInstrument_iff _).mp hinstrument)⟩
    | unsubscribe =>
        rw [hverb] at h
        obtain ⟨hargs, hinstrument⟩ := parseSubscription_valid h
        rw [eq_verb_of_verbOf hverb (by decide), show args = _ from hargs]
        exact ⟨_, .unsubscribe ((isValidInstrument_iff _).mp hinstrument)⟩
    | quit =>
        rw [hverb] at h
        rw [eq_verb_of_verbOf hverb (by decide), show args = _ from parseQuit_valid h]
        exact ⟨_, .quit⟩

/-! ### What is in the grammar is decoded -/

private theorem parseOrder_of_numerals {type : CommandType} {instrument quantity price : Bytes}
    (hinstrument : instrument = ascii "JNST" ∨ instrument = ascii "IMCT")
    (hquantity : Numeral quantity) (hquantity' : 0 < value quantity)
    (hprice : Numeral price) (hprice' : 0 < value price) :
    parseOrder { type := type, args := [instrument, quantity, price] } =
      { type := type, args := [instrument, quantity, price], valid := true,
        instrument := instrument, quantity := value quantity, price := value price } := by
  have hvalid := (isValidInstrument_iff instrument).mpr hinstrument
  have hq : value quantity ≠ 0 := by omega
  have hp : value price ≠ 0 := by omega
  simp [parseOrder, ParsedCommand.arg, hvalid, parseInteger_of_numeral hquantity,
    parseInteger_of_numeral hprice, hq, hp, accept]

private theorem parseSubscription_of_instrument {type : CommandType} {instrument : Bytes}
    (hinstrument : instrument = ascii "JNST" ∨ instrument = ascii "IMCT") :
    parseSubscription { type := type, args := [instrument] } =
      { type := type, args := [instrument], valid := true, instrument := instrument } := by
  have hvalid := (isValidInstrument_iff instrument).mpr hinstrument
  simp [parseSubscription, ParsedCommand.arg, hvalid, accept]

/-- The words of a line decide which part of `parse` reads its arguments. -/
private theorem parse_of_words {line token : Bytes} {args : List Bytes}
    (h : words line = token :: args) :
    parse line =
      match verbOf token with
      | .unknown => reject { type := verbOf token, args := args } (ascii "Unknown command")
      | .login => parseLogin { type := verbOf token, args := args }
      | .buy => parseOrder { type := verbOf token, args := args }
      | .sell => parseOrder { type := verbOf token, args := args }
      | .cancel => parseCancel { type := verbOf token, args := args }
      | .subscribe => parseSubscription { type := verbOf token, args := args }
      | .unsubscribe => parseSubscription { type := verbOf token, args := args }
      | .quit => parseQuit { type := verbOf token, args := args } := by
  rw [← tokens_eq_words] at h
  cases hverb : verbOf token <;> simp only [parse, h, hverb]

private theorem parse_of_accepts {line : Bytes} {cmd : ParsedCommand}
    (h : Accepts (words line) cmd) : parse line = cmd := by
  generalize hwords : words line = ws at h
  cases h with
  | login hlength =>
      rw [parse_of_words hwords, show verbOf (ascii "LOGIN") = .login by decide]
      simp [parseLogin, ParsedCommand.arg, hlength, accept]
  | buy hinstrument hquantity hquantity' hprice hprice' =>
      rw [parse_of_words hwords, show verbOf (ascii "BUY") = .buy by decide]
      exact parseOrder_of_numerals hinstrument hquantity hquantity' hprice hprice'
  | sell hinstrument hquantity hquantity' hprice hprice' =>
      rw [parse_of_words hwords, show verbOf (ascii "SELL") = .sell by decide]
      exact parseOrder_of_numerals hinstrument hquantity hquantity' hprice hprice'
  | cancel horderId =>
      rw [parse_of_words hwords, show verbOf (ascii "CANCEL") = .cancel by decide]
      simp [parseCancel, ParsedCommand.arg, parseInteger_of_numeral horderId, accept]
  | subscribe hinstrument =>
      rw [parse_of_words hwords, show verbOf (ascii "SUBSCRIBE") = .subscribe by decide]
      exact parseSubscription_of_instrument hinstrument
  | unsubscribe hinstrument =>
      rw [parse_of_words hwords, show verbOf (ascii "UNSUBSCRIBE") = .unsubscribe by decide]
      exact parseSubscription_of_instrument hinstrument
  | quit =>
      rw [parse_of_words hwords, show verbOf (ascii "QUIT") = .quit by decide]
      rfl

private theorem valid_of_accepts {ws : List Bytes} {cmd : ParsedCommand} (h : Accepts ws cmd) :
    cmd.valid = true := by
  cases h <;> rfl

private theorem parse_congr {line line' : Bytes} (h : words line = words line') :
    parse line = parse line' := by
  rw [← tokens_eq_words, ← tokens_eq_words] at h
  rw [parse, parse, h]

/-! ## Order ids -/

private theorem toNat_digitByte {c : Char} (h : c.isDigit = true) :
    c.toNat.toUInt8.toNat = c.toNat ∧ 48 ≤ c.toNat ∧ c.toNat ≤ 57 := by
  simp only [Char.isDigit, Bool.and_eq_true, decide_eq_true_eq] at h
  have hlow : 48 ≤ c.toNat := h.1
  have hhigh : c.toNat ≤ 57 := h.2
  refine ⟨?_, hlow, hhigh⟩
  simp only [Nat.toUInt8, UInt8.toNat_ofNat']
  omega

private theorem isDigit_digitByte {c : Char} (h : c.isDigit = true) :
    isDigit c.toNat.toUInt8 = true := by
  obtain ⟨hbyte, hlow, hhigh⟩ := toNat_digitByte h
  simp only [isDigit, Bool.and_eq_true, decide_eq_true_eq, UInt8.le_iff_toNat_le, hbyte]
  exact ⟨hlow, hhigh⟩

private theorem isSpace_of_isDigit {c : UInt8} (h : isDigit c = true) : isSpace c = false := by
  simp only [isDigit, Bool.and_eq_true, decide_eq_true_eq, UInt8.le_iff_toNat_le] at h
  have hlow : 48 ≤ c.toNat := h.1
  simp only [isSpace, Bool.or_eq_false_iff, Bool.and_eq_false_iff, decide_eq_false_iff_not,
    UInt8.le_iff_toNat_le, ← UInt8.toNat_inj]
  refine ⟨?_, .inr ?_⟩
  · show ¬ c.toNat = 32
    omega
  · show ¬ c.toNat ≤ 13
    omega

/-- The value of a text of digits is the fold the standard library reads numbers with. -/
private theorem value_map_digits (l : List Char) (h : ∀ c ∈ l, c.isDigit = true) :
    value (l.map fun c => c.toNat.toUInt8) = Nat.ofDigitChars 10 l 0 := by
  induction l with
  | nil => rfl
  | cons c l ih =>
      have hc := (toNat_digitByte (h c (by simp))).1
      have hfold : Nat.ofDigitChars 10 (c :: l) 0 =
          10 ^ l.length * (c.toNat - 48) + Nat.ofDigitChars 10 l 0 := by
        rw [Nat.ofDigitChars_cons, Nat.ofDigitChars_eq_ofDigitChars_zero]
        simp
      rw [List.map_cons, value_cons, ih fun x hx => h x (List.mem_cons_of_mem c hx), hfold,
        digit, hc, List.length_map, Nat.mul_comm]

private theorem decimal_eq (n : Nat) :
    decimal n = (Nat.toDigits 10 n).map fun c => c.toNat.toUInt8 := by
  rw [decimal, ascii, show toString (n : Int) = n.repr from rfl, Nat.toList_repr]

private theorem isDigit_toDigits {n : Nat} {c : Char} (h : c ∈ Nat.toDigits 10 n) :
    c.isDigit = true :=
  Nat.isDigit_of_mem_toDigits (by decide) (by decide) h

theorem digits_decimal (n : Nat) : ∀ c ∈ decimal n, isDigit c = true := by
  intro b hb
  rw [decimal_eq] at hb
  obtain ⟨c, hc, rfl⟩ := List.mem_map.mp hb
  exact isDigit_digitByte (isDigit_toDigits hc)

private theorem decimal_ne_nil (n : Nat) : decimal n ≠ [] := by
  rw [decimal_eq]
  simp

/-- **A printed number reads back.** -/
theorem value_decimal (n : Nat) : value (decimal n) = n := by
  rw [decimal_eq, value_map_digits _ fun c hc => isDigit_toDigits hc]
  exact Nat.ofDigitChars_ten_toDigits

theorem numeral_decimal {n : Nat} (h : n < 10 ^ 18) : Numeral (decimal n) where
  nonempty := decimal_ne_nil n
  short := by
    rw [decimal_eq, List.length_map]
    exact (Nat.length_toDigits_le_iff (by decide) (by decide)).mpr h
  digits := digits_decimal n

private theorem words_orderAccepted (n : Nat) :
    words (Response.orderAccepted n).render = [ascii "ORDER_ACCEPTED", decimal n] := by
  have hsplit : (Response.orderAccepted n).render =
      ascii "ORDER_ACCEPTED" ++ 32 :: (decimal n ++ [newline]) := by
    simp [Response.render, ascii, newline]
  have hplain : ∀ c ∈ decimal n, isSpace c = false :=
    fun c hc => isSpace_of_isDigit (digits_decimal n c hc)
  have hhead : ∀ c ∈ ascii "ORDER_ACCEPTED", isSpace c = false := by decide +kernel
  rw [← tokens_eq_words, hsplit, tokens_word (by decide) hhead (by decide),
    tokens_word (decimal_ne_nil n) hplain (by decide)]
  rfl

/-- **`parse` accepts the grammar and decodes it.**  The words of a line decide
the result; the digit loop stays inside a `long`; and an order id below `10 ^ 18`
survives being printed by `order_accepted` and sent back in a `CANCEL`. -/
theorem parse_accepts_grammar :
    (∀ line, (parse line).valid = true ↔ ∃ cmd, Accepts (words line) cmd) ∧
    (∀ line cmd, Accepts (words line) cmd → parse line = cmd) ∧
    (∀ line line', words line = words line' → parse line = parse line') ∧
    (∀ (before after : Bytes) (c : UInt8) (n : Int), (before ++ c :: after).length ≤ 18 →
      parseDigits 0 before = some n → isDigit c = true →
      0 ≤ n * 10 ∧ n * 10 + (c.toNat - 48 : Nat) < 2 ^ 63) ∧
    (∀ n : Int, 0 ≤ n → n < 10 ^ 18 → ∃ text,
      words (Response.orderAccepted n).render = [ascii "ORDER_ACCEPTED", text] ∧
      ∀ line, words line = [ascii "CANCEL", text] →
        (parse line).valid = true ∧ (parse line).type = .cancel ∧ (parse line).orderId = n) := by
  refine ⟨?_, ?_, ?_, ?_, ?_⟩
  · intro line
    refine ⟨exists_accepts, ?_⟩
    rintro ⟨cmd, hcmd⟩
    rw [parse_of_accepts hcmd]
    exact valid_of_accepts hcmd
  · intro line cmd hcmd
    exact parse_of_accepts hcmd
  · intro line line' hwords
    exact parse_congr hwords
  · intro before after c n hshort hread hc
    exact parseDigits_step_bounded hshort hread hc
  · intro n hpos hlt
    obtain ⟨n, rfl⟩ := Int.eq_ofNat_of_zero_le hpos
    refine ⟨decimal n, words_orderAccepted n, ?_⟩
    intro line hline
    have hcancel : Accepts (words line) _ :=
      hline ▸ Accepts.cancel (numeral_decimal (n := n) (by omega))
    rw [parse_of_accepts hcancel]
    refine ⟨rfl, rfl, ?_⟩
    show (value (decimal n) : Int) = n
    rw [value_decimal]

end SocketExchange.Protocol
