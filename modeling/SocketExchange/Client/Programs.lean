import SocketExchange.Client.Everybody
import SocketExchange.Server.Alone

/-!
# The two client programs

A translation of `main` in `src/trader_client.cpp` and in `src/market_data_client.cpp`, up
to the call of `run_client_shell`.  A program looks at its arguments and either gives up
with status 2 or hands the shell an address and the commands to begin with.

What a market-data client shows, trades apart, depends on its arguments and on what is
typed.
-/

namespace SocketExchange.Client

open SocketExchange.Lib
open SocketExchange.Lib.Bytes
open SocketExchange.Network
open SocketExchange.Protocol
open SocketExchange.Server
open ExchangeServer Shell

/-! ## Arguments -/

/-- `ClientShellOptions`, without the texts for the terminal. -/
structure ClientShellOptions where
  host : Bytes := ascii "127.0.0.1"
  port : Int := 5000
  initialCommands : List Bytes := []
  deriving Repr, DecidableEq

/-- `strtol(text, nullptr, 10)`: white space, a sign, and digits.  Out of range it gives the
nearest `long`. -/
def strtol (text : Bytes) : Int :=
  -- the bytes of '-' and '+'
  let (negative, digits) := match text.dropWhile isSpace with
    | 45 :: rest => (true, rest)
    | 43 :: rest => (false, rest)
    | rest => (false, rest)
  let value := (digits.takeWhile isDigit).foldl
    (fun (value : Int) c => value * 10 + (c.toNat - 48 : Nat)) 0
  max (-2 ^ 63) (min (2 ^ 63 - 1) (if negative then -value else value))

/-- `std::atoi`, which cuts what `strtol` gives down to an `int`. -/
def atoi (text : Bytes) : Int := (strtol text).bmod (2 ^ 32)

/-- The first two arguments. -/
def addressOf : List Bytes → Except Nat ClientShellOptions
  | [] => .ok {}
  | [host] => .ok { host := host }
  | host :: port :: _ =>
      if atoi port ≤ 0 ∨ 65535 < atoi port then .error 2
      else .ok { host := host, port := atoi port }

/-- `trader_client`, for its arguments without the program's name. -/
def traderClient (args : List Bytes) : Except Nat ClientShellOptions :=
  if 3 < args.length then .error 2
  else
    match addressOf args with
    | .error status => .error status
    | .ok options =>
        match args[2]? with
        | none => .ok options
        | some username => .ok { options with initialCommands := [ascii "LOGIN " ++ username] }

def subscription (instrument : Bytes) : Bytes := ascii "SUBSCRIBE " ++ instrument

/-- The loop over the instruments. -/
def subscribeTo : List Bytes → ClientShellOptions → Except Nat ClientShellOptions
  | [], options => .ok options
  | instrument :: rest, options =>
      if !isValidInstrument instrument then .error 2
      else
        subscribeTo rest
          { options with initialCommands := options.initialCommands ++ [subscription instrument] }

/-- `market_data_client`, for its arguments without the program's name. -/
def marketDataClient (args : List Bytes) : Except Nat ClientShellOptions :=
  match addressOf args with
  | .error status => .error status
  | .ok options => subscribeTo (args.drop 2) options

theorem addressOf_ok {args : List Bytes} {options : ClientShellOptions}
    (h : addressOf args = .ok options) :
    (0 < options.port ∧ options.port ≤ 65535) ∧ options.initialCommands = [] := by
  unfold addressOf at h
  split at h
  · obtain rfl := Except.ok.inj h
    decide
  · obtain rfl := Except.ok.inj h
    exact ⟨⟨(by decide : (0 : Int) < 5000), (by decide : (5000 : Int) ≤ 65535)⟩, rfl⟩
  · split at h
    · cases h
    · next hport =>
        obtain rfl := Except.ok.inj h
        refine ⟨?_, rfl⟩
        show 0 < atoi _ ∧ atoi _ ≤ 65535
        omega

theorem subscribeTo_ok {instruments : List Bytes} {options options' : ClientShellOptions}
    (h : subscribeTo instruments options = .ok options') :
    (∀ instrument ∈ instruments, isValidInstrument instrument = true) ∧
      options' = { options with
        initialCommands := options.initialCommands ++ instruments.map subscription } := by
  induction instruments generalizing options with
  | nil =>
      obtain rfl := Except.ok.inj h
      refine ⟨by simp, ?_⟩
      rw [List.map_nil, List.append_nil]
  | cons instrument rest ih =>
      rw [subscribeTo] at h
      split at h
      · cases h
      · next hvalid =>
          obtain ⟨hrest, rfl⟩ := ih h
          refine ⟨fun i hi => ?_, ?_⟩
          · rcases List.mem_cons.mp hi with rfl | hi
            · simpa using hvalid
            · exact hrest i hi
          · simp

theorem marketDataClient_ok {args : List Bytes} {options : ClientShellOptions}
    (h : marketDataClient args = .ok options) :
    (∀ instrument ∈ args.drop 2, isValidInstrument instrument = true) ∧
      options.initialCommands = (args.drop 2).map subscription ∧
      0 < options.port ∧ options.port ≤ 65535 := by
  unfold marketDataClient at h
  split at h
  · cases h
  · next address haddress =>
      obtain ⟨hport, hnone⟩ := addressOf_ok haddress
      obtain ⟨hvalid, rfl⟩ := subscribeTo_ok h
      refine ⟨hvalid, ?_, hport⟩
      show address.initialCommands ++ _ = _
      rw [hnone, List.nil_append]

/-! ## Subscriptions -/

theorem subscription_cases {instrument : Bytes} (h : isValidInstrument instrument = true) :
    subscription instrument = ascii "SUBSCRIBE JNST" ∨
      subscription instrument = ascii "SUBSCRIBE IMCT" := by
  have hmem : instrument ∈ kInstruments := List.contains_iff_mem.mp h
  simp only [kInstruments, List.mem_cons, List.not_mem_nil, or_false] at hmem
  rcases hmem with rfl | rfl
  · exact Or.inl rfl
  · exact Or.inr rfl

theorem parse_subscription {instrument : Bytes} (h : isValidInstrument instrument = true) :
    (parse (subscription instrument)).valid = true ∧
      (parse (subscription instrument)).type = .subscribe := by
  rcases subscription_cases h with heq | heq <;> rw [heq] <;> decide

/-- Lines without a line break or a carriage return reach the server as they are. -/
theorem messagesOf_plain {lines : List Bytes}
    (h : ∀ line ∈ lines, newline ∉ line ∧ carriageReturn ∉ line) :
    messagesOf (onTheWire lines) = lines := by
  rw [messagesOf_onTheWire fun line hline => (h line hline).1]
  calc lines.map stripCarriageReturn
      = lines.map id := by
        refine List.map_congr_left fun line hline => if_neg fun hlast => ?_
        exact (h line hline).2 (List.mem_of_getLast? hlast)
    _ = lines := List.map_id _

theorem messagesOf_subscriptions {instruments : List Bytes}
    (h : ∀ instrument ∈ instruments, isValidInstrument instrument = true) :
    messagesOf (onTheWire (instruments.map subscription)) = instruments.map subscription := by
  refine messagesOf_plain fun line hline => ?_
  obtain ⟨instrument, hmem, rfl⟩ := List.mem_map.mp hline
  rcases subscription_cases (h instrument hmem) with heq | heq <;> rw [heq] <;> decide

theorem heardAt_alone_isPrefix (fd : Int) {lines lines' : List Bytes} (h : lines <+: lines') :
    heardAt fd (alone fd lines) <+: heardAt fd (alone fd lines') := by
  obtain ⟨rest, rfl⟩ := h
  induction rest using List.reverseRecOn with
  | nil => simp
  | append_singleton rest line ih =>
      rw [← List.append_assoc, heardAt_alone_concat]
      exact ih.trans (List.prefix_append _ _)

theorem verdict_subscription {x : Exchange} {fd : Int} {member : Member} {instrument : Bytes}
    (hmember : x.members.lookup fd = some member) (hwatches : member.watches = true)
    (h : isValidInstrument instrument = true) : ∃ instruments,
      x.verdict fd (subscription instrument) =
        { exchange := x.enrol fd (.watcher instruments), reply := some .ok } := by
  obtain ⟨hvalid, htype⟩ := parse_subscription h
  rw [Exchange.verdict, hmember]
  show ∃ _, x.hear fd member _ = _
  unfold Exchange.hear
  dsimp only
  rw [if_neg (by simp [hvalid]), htype]
  cases member with
  | trader => cases hwatches
  | guest | watcher => exact ⟨_, rfl⟩

/-- Somebody who has only subscribed was told `OK` every time. -/
theorem heardAt_subscriptions (fd : Int) {instruments : List Bytes}
    (h : ∀ instrument ∈ instruments, isValidInstrument instrument = true) :
    heardAt fd (alone fd (instruments.map subscription)) = instruments.map (fun _ => .ok) ∧
      ∃ member, (exchange.after (alone fd (instruments.map subscription))).members.lookup fd =
        some member ∧ member.watches = true := by
  induction instruments using List.reverseRecOn with
  | nil =>
      refine ⟨(asIfAlone_newcomer fd).replies.symm, .guest, ?_, rfl⟩
      show (Exchange.enrol {} fd .guest).members.lookup fd = _
      rw [lookup_enrol, if_pos rfl]
  | append_singleton instruments instrument ih =>
      obtain ⟨hheard, member, hmember, hwatches⟩ :=
        ih fun i hi => h i (List.mem_append_left _ hi)
      obtain ⟨watched, hverdict⟩ :=
        verdict_subscription hmember hwatches (h instrument (by simp))
      have hafter : exchange.after (alone fd ((instruments ++ [instrument]).map subscription)) =
          (exchange.after (alone fd (instruments.map subscription))).enrol fd
            (.watcher watched) := by
        rw [List.map_append, List.map_singleton, after_alone_concat, hverdict]
      constructor
      · have hanswer : exchange.answer (exchange.after (alone fd (instruments.map subscription)))
            (.speaks fd (subscription instrument)) fd = [.ok] := by
          show (if fd = fd then (Exchange.verdict _ fd _).reply.toList else []) ++
            (Exchange.verdict _ fd _).executions.flatMap _ = _
          rw [hverdict, if_pos rfl]
          rfl
        rw [List.map_append, List.map_singleton, heardAt_alone_concat, hheard, hanswer,
          List.map_append]
        rfl
      · refine ⟨.watcher watched, ?_, rfl⟩
        rw [hafter, lookup_enrol, if_pos rfl]

/-! ## The screen of a market-data client -/

/-- What is on a screen are messages of the server, and they begin what it was sent. -/
theorem World.Reachable.shown {c : Setup} {w : World} (h : World.Reachable c w) {fd : Int}
    {u : User} (hu : w.users fd = some u) : ∃ shown : List Response,
      u.shell.printed = shown.map Response.body ∧
      shown <+: messagesTo fd (run c w.turns).trace := by
  obtain ⟨hup, hdown⟩ := h.linked fd u hu
  obtain ⟨_, hprinted, _⟩ :=
    keyboard_to_screen c w.turns fd true u.commands u.script u.reads u.passes hup hdown
  have htake := List.prefix_iff_eq_take.mp hprinted
  rw [← List.map_take] at htake
  exact ⟨_, htake, List.take_prefix _ _⟩

/-- **The screen of a market-data client.**  However the server, the shells and the network
take their steps, and whatever everybody else does: if `market_data_client` was started with
`args` and nothing typed is a LOGIN, then

* the subscriptions on the command line are answered `OK`, one by one, before anything else
  is;
* the answers on the screen begin those the commands and the typed lines get at an exchange
  to which nobody else comes;
* when nothing is under way they are all of them, and the server has the subscriptions these
  lines leave there. -/
theorem market_data_client_screen {c : Setup} {w : World} (h : World.Reachable c w) {fd : Int}
    {u : User} (hu : w.users fd = some u) {args : List Bytes} {options : ClientShellOptions}
    (hmain : marketDataClient args = .ok options) (hcommands : u.commands = options.initialCommands)
    (hlines : ∀ line ∈ u.lines, ¬ LogsIn line) :
    (args.drop 2).map (fun _ => Response.ok) <+: heardAt fd (alone fd u.lines) ∧
    ∃ shown : List Response, u.shell.printed = shown.map Response.body ∧
      (ofLines shown).filter Response.direct <+: heardAt fd (alone fd u.lines) ∧
      (w.Idle c fd u → ∃ used, u.reads = used ++ u.shell.reads ∧
        let said := meant u.commands (typedLines (typed used))
        (ofLines shown).filter Response.direct = heardAt fd (alone fd said) ∧
        ∀ session, (run c w.turns).sessions.lookup fd = some session →
          (exchange.after (alone fd said)).members.lookup fd = some (memberOf session)) := by
  obtain ⟨hvalid, hsubscriptions, _⟩ := marketDataClient_ok hmain
  obtain ⟨hup, hdown⟩ := h.linked fd u hu
  obtain ⟨hhandled, hprinted, hidle⟩ :=
    keyboard_to_screen c w.turns fd true u.commands u.script u.reads u.passes hup hdown
  have halone := (run_conversation c w.turns).asIfAlone fd
    fun line hline => hlines line (hhandled.subset hline)
  obtain ⟨shown, hshown, hbegun⟩ := h.shown hu
  refine ⟨?_, shown, hshown, ?_, fun idle => ?_⟩
  · have hfirst : (args.drop 2).map subscription <+: u.lines := by
      rw [User.lines, hcommands, hsubscriptions, meant, messagesOf_subscriptions hvalid]
      exact List.prefix_append _ _
    rw [← (heardAt_subscriptions fd hvalid).1]
    exact heardAt_alone_isPrefix fd hfirst
  · have hanswers : (ofLines shown).filter Response.direct <+:
        repliesTo fd (run c w.turns).trace := (hbegun.filter _).filter _
    rw [halone.replies] at hanswers
    exact hanswers.trans (heardAt_alone_isPrefix fd hhandled)
  · obtain ⟨session, hsession, hclosing, hpending⟩ := idle.session
    obtain ⟨⟨used, hreads, hsaid⟩, hall⟩ :=
      hidle session hsession hclosing hpending idle.stays idle.reads idle.up idle.down
    have hwhole : shown = messagesTo fd (run c w.turns).trace :=
      List.map_injective_iff.mpr body_injective (hshown.symm.trans hall)
    rw [hsaid] at halone
    refine ⟨used, hreads, ?_, fun session' hsession' => ?_⟩
    · rw [hwhole]
      exact halone.replies
    · refine (halone.member _ ?_).1
      rw [(run_replayed c w.turns).members fd, hsession']
      rfl

/-- A market-data client is let in and served. -/
private def quotesServed : List Turn :=
  [{ input := .event { fd := 3, readable := true }
     answers := { accepts := [.connection 5 [] true] } },
   { input := .event { fd := 5, readable := true }
     answers :=
       { recvs := [.data ⟨ascii "SUBSCRIBE IMCT\nSUBSCRIBE JNST\n", by decide, by decide⟩]
         sends := fun _ => [.accepted 9, .accepted 9] } }]

private def quotesArgs : List Bytes :=
  [ascii "localhost", ascii " +5000x", ascii "IMCT", ascii "JNST"]

private def quotes : User where
  commands := [ascii "SUBSCRIBE IMCT", ascii "SUBSCRIBE JNST"]

private def quotesHear : Pass :=
  { poll := .ready true false, recvs := [.data ⟨ascii "OK\nOK\n", by decide, by decide⟩] }

private theorem quotes_reachable : World.Reachable {}
    { turns := quotesServed, users := only 5 (quotes.next quotesHear) } := by
  refine World.Reachable.visit quotesHear (by decide +kernel) rfl
    (List.prefix_iff_eq_append.mp (by decide +kernel)).symm ?_ ?_ ?_
  · decide +kernel
  · decide +kernel
  · decide +kernel

theorem market_data_client_screen_two_instruments :
    (quotes.next quotesHear).shell.printed = [ascii "OK", ascii "OK"] ∧
    [Response.ok, Response.ok] <+: heardAt 5 (alone 5 (quotes.next quotesHear).lines) := by
  refine ⟨by decide +kernel, ?_⟩
  have hmain : marketDataClient quotesArgs = .ok
      { host := ascii "localhost", port := 5000,
        initialCommands := [ascii "SUBSCRIBE IMCT", ascii "SUBSCRIBE JNST"] } := by
    decide +kernel
  exact (market_data_client_screen quotes_reachable (only_self 5 _) hmain rfl
    (by decide +kernel)).1

/-! ## The name of a trader -/

/-- A username that LOGIN takes. -/
structure Username (name : Bytes) : Prop where
  nonempty : name ≠ []
  word : ∀ c ∈ name, isSpace c = false
  short : name.length ≤ 64

def login (name : Bytes) : Bytes := ascii "LOGIN " ++ name

/-- One word is one token. -/
theorem tokensFrom_word {token word : Bytes} (h : ∀ c ∈ word, isSpace c = false)
    (hsome : token ++ word ≠ []) : tokensFrom token word = [token ++ word] := by
  induction word generalizing token with
  | nil =>
      rw [List.append_nil] at hsome ⊢
      rw [tokensFrom, if_neg hsome]
  | cons c word ih =>
      have hc : isSpace c = false := h c List.mem_cons_self
      have hrest : tokensFrom (token ++ [c]) word = [token ++ [c] ++ word] :=
        ih (fun x hx => h x (List.mem_cons_of_mem c hx)) (by simp)
      rw [tokensFrom, hc, if_neg (by simp), hrest, List.append_assoc]
      rfl

theorem parse_login {name : Bytes} (h : Username name) :
    parse (login name) = { type := .login, args := [name], valid := true } := by
  have htokens : tokens (login name) = [ascii "LOGIN", name] := by
    show ascii "LOGIN" :: tokensFrom [] name = _
    rw [tokensFrom_word h.word (by simpa using h.nonempty)]
    rfl
  have hverb : verbOf (ascii "LOGIN") = .login := by decide
  unfold parse
  rw [htokens]
  dsimp only
  rw [hverb]
  show parseLogin { type := .login, args := [name] } = _
  have hshort : ¬ 64 < (ParsedCommand.arg { type := .login, args := [name] } 0).length :=
    Nat.not_lt.mpr h.short
  rw [parseLogin, if_neg (by simp), if_neg hshort]
  rfl

theorem messagesOf_login {name : Bytes} (h : Username name) :
    messagesOf (onTheWire [login name]) = [login name] := by
  have hplain : ∀ c ∈ login name, c ≠ newline ∧ c ≠ carriageReturn := by
    intro c hc
    rcases List.mem_append.mp hc with hc | hc
    · have hverb : ∀ c ∈ ascii "LOGIN ", c ≠ newline ∧ c ≠ carriageReturn := by
        decide +kernel
      exact hverb c hc
    · have hspace := h.word c hc
      constructor <;> rintro rfl <;> cases hspace
  refine messagesOf_plain fun line hline => ?_
  rw [List.mem_singleton.mp hline]
  exact ⟨fun hmem => (hplain _ hmem).1 rfl, fun hmem => (hplain _ hmem).2 rfl⟩

/-- A trader stays one, whatever it says. -/
theorem verdict_trader {x : Exchange} {fd : Int} {name : Bytes}
    (h : x.members.lookup fd = some (.trader name)) (line : Bytes) :
    (x.verdict fd line).exchange.members.lookup fd = some (.trader name) := by
  rw [Exchange.verdict, h]
  show (x.hear fd (.trader name) line).exchange.members.lookup fd = _
  unfold Exchange.hear
  dsimp only
  split
  · exact h
  · cases (parse line).type with
    | cancel =>
        show (x.cancel fd (parse line)).exchange.members.lookup fd = _
        unfold Exchange.cancel
        split <;> exact h
    | unknown | login | buy | sell | subscribe | unsubscribe | quit => exact h

/-- What a LOGIN is answered if somebody trades under that name. -/
def inUse (name : Bytes) : Response :=
  .error (ascii "Username " ++ name ++ ascii " is already in use")

theorem verdict_login {x : Exchange} {fd : Int} {name : Bytes} (hname : Username name)
    (h : x.members.lookup fd = some .guest) :
    x.verdict fd (login name) =
      if x.named name then { exchange := x, reply := some (inUse name) }
      else { exchange := x.enrol fd (.trader name), reply := some .ok } := by
  rw [Exchange.verdict, h]
  show x.hear fd .guest (login name) = _
  unfold Exchange.hear
  rw [parse_login hname]
  rfl

/-- The first line was a LOGIN, and the answer to it tells who the client is. -/
def Opened (name : Bytes) (replies : List Response) (there : Option Member) : Prop :=
  (∃ later, replies = .ok :: later ∧ ∀ member, there = some member → member = .trader name) ∨
    ∃ later, replies = inUse name :: later

/-- What a first LOGIN leads to: before it the client is a guest and is told nothing, and
after it the answer tells who the client is. -/
structure Opening (name : Bytes) (lines : List Bytes) (replies : List Response)
    (there : Option Member) : Prop where
  unheard : lines = [] → replies = [] ∧ ∀ member, there = some member → member = .guest
  opened : ∀ rest, lines = login name :: rest → Opened name replies there

theorem Opened.lost {name : Bytes} {replies : List Response} {there : Option Member}
    (h : Opened name replies there) : Opened name replies none := by
  rcases h with ⟨later, hreplies, _⟩ | hrefused
  · exact Or.inl ⟨later, hreplies, fun member hmember => by cases hmember⟩
  · exact Or.inr hrefused

/-- Whatever the client says next, it is who it is. -/
theorem Opened.speaks {name : Bytes} {replies : List Response} {member : Member}
    (h : Opened name replies (some member)) {x : Exchange} {fd : Int}
    (hmember : x.members.lookup fd = some member) (line : Bytes) :
    Opened name (replies ++ (x.verdict fd line).reply.toList)
      ((x.verdict fd line).exchange.members.lookup fd) := by
  rcases h with ⟨later, rfl, htrader⟩ | ⟨later, rfl⟩
  · rw [htrader member rfl] at hmember
    refine Or.inl ⟨later ++ (x.verdict fd line).reply.toList, rfl, fun member' hmember' => ?_⟩
    rw [verdict_trader hmember line] at hmember'
    exact (Option.some.inj hmember').symm
  · exact Or.inr ⟨later ++ (x.verdict fd line).reply.toList, rfl⟩

theorem opened_login {x : Exchange} {fd : Int} {name : Bytes} (hname : Username name)
    (h : x.members.lookup fd = some .guest) :
    Opened name ((x.verdict fd (login name)).reply.toList)
      ((x.verdict fd (login name)).exchange.members.lookup fd) := by
  rw [verdict_login hname h]
  by_cases hnamed : x.named name = true
  · rw [if_pos hnamed]
    exact Or.inr ⟨[], rfl⟩
  · rw [if_neg hnamed]
    refine Or.inl ⟨[], rfl, fun member hmember => ?_⟩
    rw [lookup_enrol, if_pos rfl] at hmember
    exact (Option.some.inj hmember).symm

/-- **A first LOGIN**, over a whole conversation. -/
theorem opening_of_conversation {trace : List Obs} (h : Conversation trace) (dest : Int)
    {name : Bytes} (hname : Username name) :
    Opening name ((handledLines dest trace).map Prod.fst) (repliesTo dest trace)
      ((replay trace).members.lookup dest) := by
  refine Conversation.ownView (P := Opening name) ?_ ?_ ?_ h
  · refine ⟨fun _ => ⟨rfl, fun member hmember => (Option.some.inj hmember).symm⟩, ?_⟩
    intro rest hrest
    cases hrest
  · intro lines replies member hold
    refine ⟨fun hlines => ⟨(hold.unheard hlines).1, fun _ hnone => by cases hnone⟩, ?_⟩
    exact fun rest hrest => (hold.opened rest hrest).lost
  · intro x lines replies member line hold hmember
    refine ⟨fun hlines => by simp at hlines, fun rest hrest => ?_⟩
    cases lines with
    | nil =>
        obtain ⟨hreplies, hguest⟩ := hold.unheard rfl
        rw [hguest member rfl] at hmember
        rw [hreplies, List.nil_append, (List.cons.inj hrest).1]
        exact opened_login hname hmember
    | cons first lines =>
        rw [(List.cons.inj hrest).1] at hold
        exact (hold.opened lines rfl).speaks hmember line

theorem traderClient_ok {args : List Bytes} {options : ClientShellOptions}
    (h : traderClient args = .ok options) :
    (0 < options.port ∧ options.port ≤ 65535) ∧
      ∀ name, args[2]? = some name → options.initialCommands = [login name] := by
  unfold traderClient at h
  split at h
  · cases h
  · split at h
    · cases h
    · next address haddress =>
        obtain ⟨hport, hnone⟩ := addressOf_ok haddress
        split at h
        · next hmissing =>
            obtain rfl := Except.ok.inj h
            refine ⟨hport, fun name hname => ?_⟩
            rw [hmissing] at hname
            cases hname
        · next username husername =>
            obtain rfl := Except.ok.inj h
            refine ⟨hport, fun name hname => ?_⟩
            rw [husername] at hname
            rw [← Option.some.inj hname]
            rfl

/-- **The name of a trader.**  However the server, the shells and the network take their
steps: if `trader_client` was started with a username that LOGIN takes, the first answer on
the screen is that it is logged in, and then the server has it as a trader under that name
for as long as it is connected, or that the username is already in use. -/
theorem trader_client_screen {c : Setup} {w : World} (h : World.Reachable c w) {fd : Int}
    {u : User} (hu : w.users fd = some u) {args : List Bytes} {options : ClientShellOptions}
    (hmain : traderClient args = .ok options) (hcommands : u.commands = options.initialCommands)
    {name : Bytes} (hargs : args[2]? = some name) (hname : Username name) :
    ∃ shown : List Response, u.shell.printed = shown.map Response.body ∧
      ∀ reply ∈ ((ofLines shown).filter Response.direct).head?,
        (reply = .ok ∧ ∀ session, (run c w.turns).sessions.lookup fd = some session →
          session.role = .trader ∧ session.username = name) ∨
        reply = .error (ascii "Username " ++ name ++ ascii " is already in use") := by
  obtain ⟨hup, hdown⟩ := h.linked fd u hu
  obtain ⟨hhandled, _, _⟩ :=
    keyboard_to_screen c w.turns fd true u.commands u.script u.reads u.passes hup hdown
  obtain ⟨shown, hshown, hbegun⟩ := h.shown hu
  refine ⟨shown, hshown, fun reply hreply => ?_⟩
  have hopening := opening_of_conversation (run_conversation c w.turns) fd hname
  have hanswers : (ofLines shown).filter Response.direct <+:
      repliesTo fd (run c w.turns).trace := (hbegun.filter _).filter _
  have hfirst : reply ∈ (repliesTo fd (run c w.turns).trace).head? := by
    obtain ⟨later, hlater⟩ := hanswers
    rw [← hlater, List.head?_append, Option.mem_def.mp hreply]
    rfl
  rw [hcommands, (traderClient_ok hmain).2 name hargs, meant, messagesOf_login hname] at hhandled
  generalize (handledLines fd (run c w.turns).trace).map Prod.fst = said at hhandled hopening
  cases said with
  | nil =>
      -- nothing is answered before the LOGIN is handled
      rw [(hopening.unheard rfl).1] at hfirst
      cases hfirst
  | cons first rest =>
      have hlogin : first = login name := (List.cons_prefix_cons.mp hhandled).1
      rcases hopening.opened rest (by rw [hlogin]) with
        ⟨later, hreplies, htrader⟩ | ⟨later, hreplies⟩
      · rw [hreplies] at hfirst
        refine Or.inl ⟨(Option.some.inj hfirst).symm, fun session hsession => ?_⟩
        have hmember := htrader (memberOf session) (by
          rw [(run_replayed c w.turns).members fd, hsession]
          rfl)
        unfold memberOf at hmember
        split at hmember
        · cases hmember
        · next hrole => exact ⟨hrole, Member.trader.inj hmember⟩
        · cases hmember
      · rw [hreplies] at hfirst
        exact Or.inr (Option.some.inj hfirst).symm

/-- A trader is let in and logged in. -/
private def annServed : List Turn :=
  [{ input := .event { fd := 3, readable := true }
     answers := { accepts := [.connection 5 [] true] } },
   { input := .event { fd := 5, readable := true }
     answers := { recvs := [.data ⟨ascii "LOGIN ann\n", by decide, by decide⟩]
                  sends := fun _ => [.accepted 9] } }]

private def ann : User where
  commands := [ascii "LOGIN ann"]

private def annHears : Pass :=
  { poll := .ready true false, recvs := [.data ⟨ascii "OK\n", by decide, by decide⟩] }

private theorem ann_reachable : World.Reachable {}
    { turns := annServed, users := only 5 (ann.next annHears) } := by
  refine World.Reachable.visit annHears (by decide +kernel) rfl
    (List.prefix_iff_eq_append.mp (by decide +kernel)).symm ?_ ?_ ?_
  · decide +kernel
  · decide +kernel
  · decide +kernel

theorem trader_client_screen_ann :
    (ann.next annHears).shell.printed = [ascii "OK"] ∧
    ∀ session, (run {} annServed).sessions.lookup 5 = some session →
      session.username = ascii "ann" := by
  have hprinted : (ann.next annHears).shell.printed = [ascii "OK"] := by decide +kernel
  refine ⟨hprinted, fun session hsession => ?_⟩
  have hmain : traderClient [ascii "localhost", ascii "5000", ascii "ann"] = .ok
      { host := ascii "localhost", port := 5000, initialCommands := [ascii "LOGIN ann"] } := by
    decide +kernel
  have hann : World.users { turns := annServed, users := only 5 (ann.next annHears) } 5 =
      some (ann.next annHears) := only_self 5 _
  obtain ⟨shown, hshown, hfirst⟩ := trader_client_screen ann_reachable hann hmain rfl
    (rfl : _ = some (ascii "ann")) ⟨by decide, by decide +kernel, by decide⟩
  have hok : shown = [.ok] :=
    List.map_injective_iff.mpr body_injective (hshown.symm.trans hprinted)
  rw [hok] at hfirst
  rcases hfirst .ok rfl with ⟨_, htrader⟩ | hrefused
  · exact (htrader session hsession).2
  · cases hrefused

end SocketExchange.Client
