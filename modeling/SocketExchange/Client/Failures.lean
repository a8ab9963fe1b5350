import SocketExchange.Client.Typing

/-!
# A shell whose connection may fail

`Typing` is about a shell that nobody stops.  Here anything may go wrong at any point: a
`send` fails in the middle of a line, `poll` or `read` fails, a signal arrives, the server
closes, the loop ends while lines are still in the buffer.

Two things hold all the same.  What the kernel has taken is a beginning of what the shell
was asked to send, so that no line is repeated, reordered or made up, and nothing follows
a `QUIT`.  And what has been printed is the messages of the bytes received.
-/

namespace SocketExchange.Client

open SocketExchange.Lib
open SocketExchange.Lib.Bytes
open SocketExchange.Server
open ExchangeServer Shell

/-! ## One message -/

/-- The kernel takes a beginning of a message, and all of it unless there is an error. -/
theorem sendMessage_prefix (script : List SendResult) (line : Bytes) :
    (sendMessage script line).taken <+: line ∧
      ((sendMessage script line).error = none → (sendMessage script line).taken = line) := by
  induction script generalizing line with
  | nil => cases line <;> exact ⟨List.prefix_rfl, fun _ => rfl⟩
  | cons x script ih =>
      cases line with
      | nil => exact ⟨List.prefix_rfl, fun _ => rfl⟩
      | cons b line =>
          cases x with
          | wrote count pos =>
              obtain ⟨hbegins, hall⟩ := ih ((b :: line).drop count)
              have hline : (b :: line).take count ++ (b :: line).drop count = b :: line :=
                List.take_append_drop _ _
              refine ⟨?_, fun herror => ?_⟩
              · show (b :: line).take count ++ _ <+: b :: line
                conv => rhs; rw [← hline]
                exact (List.prefix_append_right_inj _).mpr hbegins
              · show (b :: line).take count ++ _ = b :: line
                rw [hall herror, hline]
          | eintr => exact ih (b :: line)
          | eagain wait =>
              cases wait with
              | room => exact ih (b :: line)
              | eintr => exact ih (b :: line)
              | failed => exact ⟨List.nil_prefix, fun herror => by cases herror⟩
          | failed => exact ⟨List.nil_prefix, fun herror => by cases herror⟩

/-- A message that got through changes nothing but the wire. -/
theorem send_cases (s : Shell) (script : List SendResult) (message : Bytes) :
    ((s.send script message).2.error = none ∧
      (s.send script message).1 = { s with wire := s.wire ++ message }) ∨
    ((s.send script message).2.error.isSome = true ∧ ∃ taken error, taken <+: message ∧
      (s.send script message).1 = { s with wire := s.wire ++ taken, error := error }) := by
  obtain ⟨hbegins, hall⟩ := sendMessage_prefix script message
  cases herror : (sendMessage script message).error with
  | none =>
      refine Or.inl ⟨herror, ?_⟩
      rw [Shell.send, hall herror, herror]
      rfl
  | some e =>
      refine Or.inr ⟨?_, _, _, hbegins, rfl⟩
      show (sendMessage script message).error.isSome = true
      rw [herror]
      rfl

/-! ## The lines of the buffer -/

/-- The first line of a buffer is the first line of whatever it grows into. -/
theorem typedLines_splitLine {buffer line rest : Bytes} (h : splitLine buffer = some (line, rest))
    (later : Bytes) : typedLines (buffer ++ later) =
      if stripCarriageReturn line = [] then typedLines (rest ++ later)
      else stripCarriageReturn line :: typedLines (rest ++ later) := by
  obtain ⟨rfl, hnot⟩ := splitLine_some h
  have hmessages : messagesOf (line ++ newline :: rest ++ later) =
      stripCarriageReturn line :: messagesOf (rest ++ later) := by
    rw [List.append_assoc, List.cons_append, messagesOf, Framing.lines_line hnot]
    rfl
  rw [typedLines, hmessages]
  split
  · next hempty => rw [List.filter_cons_of_neg (by simp [hempty]), typedLines]
  · next hempty => rw [List.filter_cons_of_pos (by simp [hempty]), typedLines]

/-- The shell does not send any more, and what it has sent is a beginning of what it was
asked to send. -/
structure Stopped (start input : Bytes) (s : Shell) : Prop where
  silent : s.left = true ∨ s.stdinOpen = false
  wire : s.wire <+: start ++ onTheWire (untilQuit (typedLines input))

theorem prefix_untilQuit {lines : List Bytes} (h : quit ∉ lines) (later : List Bytes) :
    onTheWire lines <+: onTheWire (untilQuit (lines ++ later)) := by
  rw [untilQuit_append h, onTheWire_append]
  exact List.prefix_append _ _

theorem untilQuit_cons (line : Bytes) (rest : List Bytes) :
    [line] <+: untilQuit (line :: rest) := by
  rw [untilQuit]
  split
  · exact List.prefix_rfl
  · exact (List.prefix_cons_inj line).mpr List.nil_prefix

section Stopped

variable {start a b text : Bytes} {s : Shell}

/-- The shell was stopped while it sent its first line, or by it. -/
theorem Stopped.of_first (hsilent : s.left = true ∨ s.stdinOpen = false) {rest : List Bytes}
    (hlines : typedLines a = text :: rest) {taken : Bytes} (htaken : taken <+: text ++ [newline])
    (hwire : s.wire = start ++ taken) : Stopped start a s := by
  refine ⟨hsilent, ?_⟩
  rw [hwire, hlines]
  obtain ⟨later, hlater⟩ := untilQuit_cons text rest
  have hfirst : text ++ [newline] <+: onTheWire (untilQuit (text :: rest)) := by
    rw [← hlater, onTheWire_append]
    simp [onTheWire]
  exact (List.prefix_append_right_inj start).mpr (htaken.trans hfirst)

/-- It was stopped after its first line. -/
theorem Stopped.cons (h : Stopped (start ++ (text ++ [newline])) b s)
    (hlines : typedLines a = text :: typedLines b) (hnot : text ≠ quit) : Stopped start a s := by
  refine ⟨h.silent, ?_⟩
  have hwire := h.wire
  rw [hlines, untilQuit, if_neg hnot]
  simpa [onTheWire] using hwire

end Stopped

/-- A buffer without a newline has nothing to be sent. -/
private theorem sentAll_eq_self {s : Shell} (h : newline ∉ s.stdinBuffer) :
    quit ∉ typedLines s.stdinBuffer ∧ s = sentAll s := by
  have hlines : typedLines s.stdinBuffer = [] := by
    rw [typedLines, messagesOf_of_notMem h, List.filter_nil]
  refine ⟨by simp [hlines], ?_⟩
  rw [sentAll, hlines, Framing.tail_of_notMem h]
  simp [onTheWire]

/-- **The loop over the lines of the buffer**, with any results of the `send` calls: all
lines are sent and none is a `QUIT`, or the shell stops. -/
theorem sendLines_cases (fuel : Nat) (script : List SendResult) (s : Shell)
    (hfuel : s.stdinBuffer.length ≤ fuel) :
    (quit ∉ typedLines s.stdinBuffer ∧ sendLines fuel script s = sentAll s) ∨
    ∀ later, Stopped s.wire (s.stdinBuffer ++ later) (sendLines fuel script s) := by
  induction fuel generalizing script s with
  | zero =>
      have hnil : s.stdinBuffer = [] := List.length_eq_zero_iff.mp (Nat.le_zero.mp hfuel)
      exact Or.inl (sentAll_eq_self (by simp [hnil]))
  | succ fuel ih =>
      unfold sendLines
      split
      · next hnone => exact Or.inl (sentAll_eq_self (splitLine_none hnone))
      · next line rest hline =>
        have hlines := typedLines_splitLine hline
        have htail := (messagesOf_splitLine hline).2
        have hlength : rest.length ≤ fuel := by
          rw [(splitLine_some hline).1] at hfuel
          simp at hfuel
          omega
        dsimp only
        generalize stripCarriageReturn line = text at hlines ⊢
        by_cases hempty : text = []
        · -- an empty line is skipped
          simp only [if_pos hempty] at hlines ⊢
          have hbuffer := hlines []
          rw [List.append_nil, List.append_nil] at hbuffer
          rcases ih script { s with stdinBuffer := rest } hlength with ⟨hnot, hsent⟩ | hstopped
          · simp only [sentAll, ← hbuffer, ← htail] at hnot hsent ⊢
            exact Or.inl ⟨hnot, hsent⟩
          · refine Or.inr fun later => ⟨(hstopped later).silent, ?_⟩
            rw [hlines later]
            exact (hstopped later).wire
        · simp only [if_neg hempty] at hlines ⊢
          have hbuffer := hlines []
          rw [List.append_nil, List.append_nil] at hbuffer
          rcases send_cases { s with stdinBuffer := rest } script (text ++ [newline]) with
            ⟨herror, hsend⟩ | ⟨herror, taken, error, htaken, hsend⟩
          · rw [herror, hsend]
            simp only [Option.isSome_none, Bool.false_eq_true, if_false]
            by_cases hquit : text = ascii "QUIT"
            · rw [if_pos hquit]
              exact Or.inr fun later =>
                Stopped.of_first (Or.inr rfl) (hlines later) List.prefix_rfl rfl
            · rw [if_neg hquit]
              have hother : text ≠ quit := hquit
              rcases ih (Shell.send { s with stdinBuffer := rest } script (text ++ [newline])).2.rest
                { s with stdinBuffer := rest, wire := s.wire ++ (text ++ [newline]) } hlength with
                ⟨hnot, hsent⟩ | hstopped
              · refine Or.inl ⟨?_, ?_⟩
                · rw [hbuffer, List.mem_cons, not_or]
                  exact ⟨Ne.symm hother, hnot⟩
                · rw [hsent, sentAll, sentAll, hbuffer, htail]
                  simp [onTheWire]
              · exact Or.inr fun later => (hstopped later).cons (hlines later) hother
          · rw [herror, hsend, if_pos rfl]
            exact Or.inr fun later => Stopped.of_first (Or.inl rfl) (hlines later) htaken rfl

/-! ## Standard input -/

theorem typed_append (a b : List ReadResult) : typed (a ++ b) = typed a ++ typed b :=
  List.flatMap_append

/-- What is read before the input ends or fails. -/
def readable (reads : List ReadResult) : List ReadResult := reads.takeWhile ReadResult.ongoing

/-- The shell reads on and has sent what was typed, or it has stopped. -/
def Serving (start : Bytes) (reads : List ReadResult) (s : Shell) : Prop :=
  (∃ used, reads = used ++ s.reads ∧ (∀ r ∈ used, r.ongoing = true) ∧
    Reading start (typed used) s) ∨
  Stopped start (typed (readable reads)) s

/-- A shell that reads on has sent a beginning of its lines, whatever is typed later. -/
theorem Reading.wire_prefix {start sofar : Bytes} {s : Shell} (h : Reading start sofar s)
    (later : Bytes) : s.wire <+: start ++ onTheWire (untilQuit (typedLines (sofar ++ later))) := by
  rw [h.wire, typedLines_append]
  exact (List.prefix_append_right_inj start).mpr (prefix_untilQuit h.noQuit _)

/-- A shell that stops at the lines it has just read has sent those before them. -/
theorem Reading.stopped_at {start sofar new : Bytes} {s s' : Shell} (h : Reading start sofar s)
    (hstopped : Stopped s.wire (s.stdinBuffer ++ new) s') : Stopped start (sofar ++ new) s' := by
  refine ⟨hstopped.silent, ?_⟩
  rw [typedLines_append, untilQuit_append h.noQuit, onTheWire_append, ← List.append_assoc,
    ← h.wire, ← h.buffer]
  exact hstopped.wire

theorem readable_append {used : List ReadResult} (h : ∀ r ∈ used, r.ongoing = true)
    (later : List ReadResult) : readable (used ++ later) = used ++ readable later :=
  List.takeWhile_append_of_pos h

section Read

variable {start : Bytes} {used : List ReadResult} {s : Shell} (h : Reading start (typed used) s)
  (script : List SendResult)

include h

/-- More was typed. -/
theorem Reading.data_cases {t : Typed} {reads : List ReadResult}
    (hreads : s.reads = .data t :: reads) :
    (Reading start (typed (used ++ [.data t])) (s.readStdin script) ∧
      (s.readStdin script).reads = reads) ∨
    ∀ later, Stopped start (typed used ++ (t.bytes ++ later)) (s.readStdin script) := by
  have hread : s.readStdin script = sendLines (s.stdinBuffer ++ t.bytes).length script
      { s with reads := reads, stdinBuffer := s.stdinBuffer ++ t.bytes } := by
    simp only [readStdin, hreads]
  have htyped : typed (used ++ [.data t]) = typed used ++ t.bytes := by
    rw [typed_append]
    simp [typed, ReadResult.bytes]
  have hlines : typedLines (typed used ++ t.bytes) =
      typedLines (typed used) ++ typedLines (s.stdinBuffer ++ t.bytes) := by
    rw [typedLines_append, h.buffer]
  rw [hread]
  rcases sendLines_cases (s.stdinBuffer ++ t.bytes).length script
    { s with reads := reads, stdinBuffer := s.stdinBuffer ++ t.bytes } (Nat.le_refl _) with
    ⟨hnot, hsent⟩ | hstopped
  · rw [hsent, htyped]
    refine Or.inl ⟨⟨h.left, h.stdinOpen, h.sentQuit, ?_, ?_, ?_⟩, rfl⟩
    · rw [hlines, List.mem_append, not_or]
      exact ⟨h.noQuit, hnot⟩
    · show Framing.tail newline (s.stdinBuffer ++ t.bytes) = _
      rw [Framing.tail_append (typed used), h.buffer]
    · show s.wire ++ onTheWire (typedLines (s.stdinBuffer ++ t.bytes)) = _
      rw [h.wire, hlines, onTheWire_append, List.append_assoc]
  · refine Or.inr fun later => h.stopped_at ?_
    rw [← List.append_assoc]
    exact hstopped later

/-- The input has ended, and the `QUIT` gets through or not. -/
theorem Reading.endOfInput_stopped {reads : List ReadResult}
    (hreads : s.reads = .endOfInput :: reads) :
    Stopped start (typed used) (s.readStdin script) := by
  have hread : s.readStdin script =
      { (Shell.send { s with reads := reads, stdinOpen := false, sentQuit := true } script
          (ascii "QUIT" ++ [newline])).1 with halfClosed := true } := by
    simp only [readStdin, hreads, h.sentQuit, Bool.false_eq_true, if_false]
  have hpart : ∀ taken, taken <+: ascii "QUIT" ++ [newline] →
      s.wire ++ taken <+: start ++ onTheWire (untilQuit (typedLines (typed used))) := by
    intro taken htaken
    rw [untilQuit_of_notMem h.noQuit, onTheWire_append, h.wire, ← List.append_assoc]
    refine (List.prefix_append_right_inj _).mpr ?_
    simpa [onTheWire, quit] using htaken
  rw [hread]
  rcases send_cases { s with reads := reads, stdinOpen := false, sentQuit := true } script
    (ascii "QUIT" ++ [newline]) with ⟨_, hsend⟩ | ⟨_, taken, error, htaken, hsend⟩
  · rw [hsend]
    exact ⟨Or.inr rfl, hpart _ List.prefix_rfl⟩
  · rw [hsend]
    exact ⟨Or.inr rfl, hpart taken htaken⟩

/-- **One `read`**, with any result. -/
theorem Reading.serving (hused : ∀ r ∈ used, r.ongoing = true) :
    Serving start (used ++ s.reads) (s.readStdin script) := by
  cases hreads : s.reads with
  | nil =>
      have hsame : s.readStdin script = s := by simp only [readStdin, hreads]
      rw [hsame]
      exact Or.inl ⟨used, by rw [hreads], hused, h⟩
  | cons r reads =>
      have hmore : r.ongoing = true → ∀ r' ∈ used ++ [r], r'.ongoing = true := by
        intro hr r' hr'
        rcases List.mem_append.mp hr' with hr' | hr'
        · exact hused r' hr'
        · rw [List.mem_singleton.mp hr']
          exact hr
      unfold Serving
      rw [readable_append hused, typed_append]
      cases r with
      | data t =>
          rcases h.data_cases script hreads with ⟨hreading, hrest⟩ | hstopped
          · exact Or.inl ⟨used ++ [.data t], by rw [hrest]; simp, hmore rfl, hreading⟩
          · exact Or.inr (hstopped (typed (readable reads)))
      | eintr =>
          have hread : s.readStdin script = { s with reads := reads } := by
            simp only [readStdin, hreads]
          have hsame : typed (used ++ [.eintr]) = typed used := by
            rw [typed_append]
            exact List.append_nil _
          refine Or.inl ⟨used ++ [.eintr], by rw [hread]; simp, hmore rfl, ?_⟩
          rw [hread, hsame]
          exact ⟨h.left, h.stdinOpen, h.sentQuit, h.noQuit, h.buffer, h.wire⟩
      | endOfInput =>
          refine Or.inr ?_
          rw [show typed (readable (.endOfInput :: reads)) = [] from rfl, List.append_nil]
          exact h.endOfInput_stopped script hreads
      | failed =>
          have hread : s.readStdin script = { s with reads := reads, stdinOpen := false } := by
            simp only [readStdin, hreads]
          rw [hread]
          exact Or.inr ⟨Or.inr rfl, h.wire_prefix _⟩

end Read

/-! ## What is heard -/

/-- The bytes that one call of `receive_messages` takes. -/
def receivedBytes : List Received → Bytes
  | .data segment :: results =>
      segment.bytes ++
        if segment.bytes.length < kReceiveBuffer then [] else receivedBytes results
  | .eintr :: results => receivedBytes results
  | _ => []

theorem receiveMessages_caughtUp (results : List Received) {sofar : Bytes} {client : TcpClient}
    {printed out : List Bytes} (h : CaughtUp sofar client (printed ++ out)) :
    CaughtUp (sofar ++ receivedBytes results) (receiveMessages results client out).client
      (printed ++ (receiveMessages results client out).out) := by
  induction results generalizing sofar client out with
  | nil => simpa [receivedBytes, receiveMessages] using h
  | cons x results ih =>
      cases x with
      | data segment =>
          have hsegment := h.segment segment.bytes
          unfold receiveMessages receivedBytes
          dsimp only
          split
          · rw [List.append_nil]
            exact hsegment
          · rw [← List.append_assoc]
            exact ih hsegment
      | eintr => exact ih h
      | fin | eagain | failed =>
          simp only [receiveMessages, receivedBytes, List.append_nil]
          exact ⟨h.out, h.inbuf⟩

/-- The bytes a pass takes from the server. -/
def Shell.hears (s : Shell) (p : Pass) : Bytes :=
  if s.left || p.signal then []
  else
    match p.poll with
    | .ready true _ => receivedBytes p.recvs
    | _ => []

/-- The bytes that the passes take from the server. -/
def heardIn (s : Shell) : List Pass → Bytes
  | [] => []
  | p :: passes => s.hears p ++ heardIn (s.pass p) passes

theorem heardIn_concat (s : Shell) (passes : List Pass) (p : Pass) :
    heardIn s (passes ++ [p]) = heardIn s passes ++ (Loop.run Shell.pass s passes).hears p := by
  induction passes generalizing s with
  | nil => simp [heardIn, Loop.run]
  | cons q passes ih =>
      rw [List.cons_append, heardIn, ih, heardIn, List.append_assoc]
      rfl

/-- Sending leaves alone what was received. -/
theorem sendLines_received (fuel : Nat) (script : List SendResult) (s : Shell) :
    (sendLines fuel script s).client = s.client ∧
      (sendLines fuel script s).printed = s.printed := by
  induction fuel generalizing script s with
  | zero => exact ⟨rfl, rfl⟩
  | succ fuel ih =>
      unfold sendLines
      split
      · exact ⟨rfl, rfl⟩
      · dsimp only
        split
        · exact ih _ _
        · split
          · exact ⟨rfl, rfl⟩
          · split
            · exact ⟨rfl, rfl⟩
            · exact ih _ _

theorem readStdin_received (s : Shell) (script : List SendResult) :
    (s.readStdin script).client = s.client ∧ (s.readStdin script).printed = s.printed := by
  unfold readStdin
  split
  · exact ⟨rfl, rfl⟩
  · exact ⟨rfl, rfl⟩
  · exact ⟨rfl, rfl⟩
  · dsimp only
    split <;> exact ⟨rfl, rfl⟩
  · exact sendLines_received _ _ _

/-! ## Passes -/

/-- A pass prints the messages of what it takes. -/
theorem pass_caughtUp {heard : Bytes} {s : Shell} (h : CaughtUp heard s.client s.printed)
    (p : Pass) : CaughtUp (heard ++ s.hears p) (s.pass p).client (s.pass p).printed := by
  unfold Shell.pass Shell.hears
  cases hleft : s.left with
  | true => simpa using h
  | false =>
      cases hsignal : p.signal with
      | true => simpa [leave] using h
      | false =>
          simp only [Bool.or_self, Bool.false_eq_true, if_false]
          cases hpoll : p.poll with
          | eintr => simpa using h
          | failed => simpa [leave] using h
          | ready socket stdin =>
              have hread : ∀ (t : Shell) (alive : Bool) (bytes : Bytes),
                  CaughtUp bytes t.client t.printed →
                  CaughtUp bytes
                    (if !alive then t.leave else if !t.stdinOpen then t
                      else if !stdin then t else t.readStdin p.sends).client
                    (if !alive then t.leave else if !t.stdinOpen then t
                      else if !stdin then t else t.readStdin p.sends).printed := by
                intro t alive bytes ht
                split
                · exact ht
                · split
                  · exact ht
                  · split
                    · exact ht
                    · rw [(readStdin_received t p.sends).1, (readStdin_received t p.sends).2]
                      exact ht
              cases socket with
              | false =>
                  rw [List.append_nil]
                  exact hread s true heard h
              | true =>
                  refine hread _ _ _ ?_
                  have hstart : CaughtUp heard s.client (s.printed ++ []) := by
                    rw [List.append_nil]
                    exact h
                  exact receiveMessages_caughtUp p.recvs hstart

/-- **The step lemma.**  Whatever happens in a pass, the shell reads on or stops. -/
theorem Serving.pass {start : Bytes} {reads : List ReadResult} {s : Shell}
    (h : Serving start reads s) (p : Pass) : Serving start reads (s.pass p) := by
  rcases h with ⟨used, rfl, hused, hreading⟩ | hstopped
  · have hstop : ∀ t : Shell, t.left = true → t.wire = s.wire →
        Serving start (used ++ s.reads) t := by
      intro t hleft hwire
      refine Or.inr ⟨Or.inl hleft, ?_⟩
      rw [readable_append hused, typed_append, hwire]
      exact hreading.wire_prefix _
    unfold Shell.pass
    rw [if_neg (by simp [hreading.left])]
    split
    · exact hstop _ rfl rfl
    · cases p.poll with
      | eintr => exact Or.inl ⟨used, rfl, hused, hreading⟩
      | failed => exact hstop _ rfl rfl
      | ready socket stdin =>
          -- hearing changes neither what is read nor what is sent
          have hread : ∀ (t : Shell) (alive : Bool), t.reads = s.reads → t.wire = s.wire →
              Reading start (typed used) t →
              Serving start (used ++ s.reads) (if !alive then t.leave
                else if !t.stdinOpen then t else if !stdin then t else t.readStdin p.sends) := by
            intro t alive hreads hwire ht
            split
            · exact hstop _ rfl hwire
            · split
              · next hclosed => simp [ht.stdinOpen] at hclosed
              · split
                · exact Or.inl ⟨used, by rw [hreads], hused, ht⟩
                · rw [← hreads]
                  exact ht.serving p.sends hused
          cases socket with
          | false => exact hread s true rfl rfl hreading
          | true =>
              refine hread _ _ rfl rfl ?_
              exact ⟨hreading.left, hreading.stdinOpen, hreading.sentQuit, hreading.noQuit,
                hreading.buffer, hreading.wire⟩
  · refine Or.inr ?_
    rcases hstopped.silent with hleft | hclosed
    · have hsame : s.pass p = s := by
        rw [Shell.pass, if_pos hleft]
      rw [hsame]
      exact hstopped
    · obtain ⟨hstill, hwire⟩ := pass_closed hclosed p
      refine ⟨Or.inr hstill, ?_⟩
      rw [hwire]
      exact hstopped.wire

/-! ## Whole sessions -/

/-- The initial commands, with any results of the `send` calls: all are sent, or the shell
is given up. -/
theorem sendInitial_cases (commands : List Bytes) (script : List SendResult) (s : Shell) :
    sendInitial commands script s = { s with wire := s.wire ++ onTheWire commands } ∨
    ((sendInitial commands script s).left = true ∧
      (sendInitial commands script s).client = s.client ∧
      (sendInitial commands script s).printed = s.printed ∧
      (sendInitial commands script s).wire <+: s.wire ++ onTheWire commands) := by
  induction commands generalizing script s with
  | nil => exact Or.inl (by simp [sendInitial, onTheWire])
  | cons command commands ih =>
      have hwire : s.wire ++ onTheWire (command :: commands) =
          s.wire ++ (command ++ [newline]) ++ onTheWire commands :=
        (List.append_assoc _ _ _).symm
      rcases send_cases s script (command ++ [newline]) with
        ⟨herror, hsend⟩ | ⟨herror, taken, error, htaken, hsend⟩
      · have hnext : sendInitial (command :: commands) script s =
            sendInitial commands (s.send script (command ++ [newline])).2.rest
              { s with wire := s.wire ++ (command ++ [newline]) } := by
          simp only [sendInitial, herror, hsend, Option.isSome_none, Bool.false_eq_true, if_false]
        rw [hnext, hwire]
        exact ih _ _
      · have hgiven : sendInitial (command :: commands) script s =
            { s with wire := s.wire ++ taken, error := error, status := 1, left := true } := by
          simp only [sendInitial, herror, hsend, if_true]
        rw [hgiven, hwire]
        refine Or.inr ⟨rfl, rfl, rfl, ?_⟩
        exact ((List.prefix_append_right_inj s.wire).mpr htaken).trans (List.prefix_append _ _)

/-- What the shell has heard of the server. -/
def heardBy (connected : Bool) (commands : List Bytes) (script : List SendResult)
    (reads : List ReadResult) (passes : List Pass) : Bytes :=
  if connected then heardIn (sendInitial commands script { reads := reads }) passes else []

/-- What the shell is asked to send, first by its options and then by its user. -/
def asked (commands : List Bytes) (reads : List ReadResult) : List Bytes :=
  commands ++ untilQuit (typedLines (typed (readable reads)))

/-- **The run lemma.** -/
theorem passes_serving {start heard : Bytes} {reads : List ReadResult} {s : Shell}
    (h : Serving start reads s) (hcaught : CaughtUp heard s.client s.printed)
    (passes : List Pass) :
    Serving start reads (Loop.run Shell.pass s passes) ∧
      CaughtUp (heard ++ heardIn s passes) (Loop.run Shell.pass s passes).client
        (Loop.run Shell.pass s passes).printed := by
  induction passes using List.reverseRecOn with
  | nil => exact ⟨h, by simpa [heardIn] using hcaught⟩
  | append_singleton passes p ih =>
      rw [Loop.run_concat, heardIn_concat, ← List.append_assoc]
      exact ⟨ih.1.pass p, pass_caughtUp ih.2 p⟩

/-- A shell that has not begun. -/
private theorem serving_start (commands : List Bytes) (reads : List ReadResult) :
    Serving (onTheWire commands) reads { reads := reads, wire := onTheWire commands } := by
  refine Or.inl ⟨[], rfl, by simp, rfl, rfl, rfl, ?_, rfl, ?_⟩
  · simp [typed, typedLines, messagesOf, Framing.lines, Framing.cut]
  · simp [typed, typedLines, messagesOf, Framing.lines, Framing.cut, onTheWire]

/-- A shell that has left stays as it is. -/
theorem passes_left {s : Shell} (h : s.left = true) (passes : List Pass) :
    Loop.run Shell.pass s passes = s := by
  induction passes with
  | nil => rfl
  | cons p passes ih =>
      rw [Loop.run_cons, Shell.pass, if_pos h]
      exact ih

theorem heardIn_left {s : Shell} (h : s.left = true) (passes : List Pass) :
    heardIn s passes = [] := by
  induction passes with
  | nil => rfl
  | cons p passes ih =>
      rw [heardIn, Shell.hears, if_pos (by simp [h]), Shell.pass, if_pos h]
      exact ih

section Session

variable (connected : Bool) (commands : List Bytes) (script : List SendResult)
  (reads : List ReadResult) (passes : List Pass)

/-- A shell fails at its initial commands, or it reads on or stops. -/
theorem runClientShell_serving :
    ((runClientShell connected commands script reads passes).left = true ∧
        (runClientShell connected commands script reads passes).wire <+: onTheWire commands ∨
      Serving (onTheWire commands) reads
        (runClientShell connected commands script reads passes)) ∧
    CaughtUp (heardBy connected commands script reads passes)
      (runClientShell connected commands script reads passes).client
      (runClientShell connected commands script reads passes).printed := by
  unfold runClientShell heardBy
  cases connected with
  | false => exact ⟨Or.inl ⟨rfl, List.nil_prefix⟩, rfl, rfl⟩
  | true =>
      simp only [Bool.not_true, Bool.false_eq_true, if_false, if_true]
      rcases sendInitial_cases commands script { reads := reads } with
        hsent | ⟨hleft, hclient, hprinted, hwire⟩
      · rw [hsent]
        have hnothing : CaughtUp [] ({} : TcpClient) [] := ⟨rfl, rfl⟩
        obtain ⟨hserving, hcaught⟩ :=
          passes_serving (serving_start commands reads) hnothing passes
        exact ⟨Or.inr hserving, hcaught⟩
      · rw [passes_left hleft, heardIn_left hleft]
        refine ⟨Or.inl ⟨hleft, hwire⟩, ?_, ?_⟩
        · rw [hprinted]
          rfl
        · rw [hclient]
          rfl

/-- What was sent begins what was asked. -/
theorem wire_prefix_asked :
    (runClientShell connected commands script reads passes).wire <+:
      onTheWire (asked commands reads) := by
  rw [asked, onTheWire_append]
  rcases (runClientShell_serving connected commands script reads passes).1 with
    ⟨_, hwire⟩ | ⟨used, hreads, hused, hreading⟩ | hstopped
  · exact hwire.trans (List.prefix_append _ _)
  · have hwire := hreading.wire_prefix
      (typed (readable (runClientShell connected commands script reads passes).reads))
    rw [← typed_append, ← readable_append hused, ← hreads] at hwire
    exact hwire
  · exact hstopped.wire

/-- A shell that reads on has sent what was read. -/
theorem wire_of_open
    (hleft : (runClientShell connected commands script reads passes).left = false)
    (hopen : (runClientShell connected commands script reads passes).stdinOpen = true) :
    ∃ used, reads = used ++ (runClientShell connected commands script reads passes).reads ∧
      (runClientShell connected commands script reads passes).wire =
        onTheWire (commands ++ typedLines (typed used)) := by
  rcases (runClientShell_serving connected commands script reads passes).1 with
    ⟨hgone, _⟩ | ⟨used, hreads, _, hreading⟩ | hstopped
  · rw [hgone] at hleft
    cases hleft
  · refine ⟨used, hreads, ?_⟩
    rw [onTheWire_append]
    exact hreading.wire
  · rcases hstopped.silent with hgone | hclosed
    · rw [hgone] at hleft
      cases hleft
    · rw [hclosed] at hopen
      cases hopen

end Session

/-- **A session that may fail anywhere.**  Whatever the results of `connect`, `send`,
`poll`, `recv` and `read`, and whenever a signal arrives:

* what the kernel has taken begins the initial commands and then what was typed up to the
  first `QUIT`, line by line, and a `QUIT` if none was typed;
* as long as the loop goes on and standard input is open, every line that was read has
  been sent, and nothing else;
* what was printed is the messages of the bytes received, and the rest of these bytes is
  in the buffer. -/
theorem shell_sends_prefix_prints_messages (connected : Bool) (commands : List Bytes)
    (script : List SendResult) (reads : List ReadResult) (passes : List Pass) :
    let s := runClientShell connected commands script reads passes
    let heard := heardBy connected commands script reads passes
    s.wire <+: onTheWire (asked commands reads) ∧
    (s.left = false → s.stdinOpen = true → ∃ used, reads = used ++ s.reads ∧
      s.wire = onTheWire (commands ++ typedLines (typed used))) ∧
    s.printed = messagesOf heard ∧ s.client.inbuf = Framing.tail newline heard := by
  intro s heard
  have hcaught := (runClientShell_serving connected commands script reads passes).2
  exact ⟨wire_prefix_asked connected commands script reads passes,
    wire_of_open connected commands script reads passes, hcaught.out, hcaught.inbuf⟩

end SocketExchange.Client
