import SocketExchange.Client.ClientShell

/-!
# What was typed and what is sent

The shell sends the lines of its input up to a `QUIT`, and a `QUIT` of its own at the end
of the input.  It takes lines out of its buffer only at a newline, and at the end of the
input it does not look into the buffer again.  So a last line without a newline is lost,
and that is the only thing that can be: the cuts of the input and the way the kernel
takes the messages do not matter.
-/

namespace SocketExchange.Client

open SocketExchange.Lib
open SocketExchange.Lib.Bytes
open SocketExchange.Server
open ExchangeServer
open Shell

/-! ## What should be sent -/

/-- The line that ends a session. -/
def quit : Bytes := ascii "QUIT"

/-- The lines of an input that are not empty and end in a newline. -/
def typedLines (input : Bytes) : List Bytes := (messagesOf input).filter (· ≠ [])

/-- What follows the last newline of an input. -/
def lastLine (input : Bytes) : Bytes := stripCarriageReturn (Framing.tail newline input)

/-- The lines up to and including the first `QUIT`; all of them and a `QUIT` if there is
none. -/
def untilQuit : List Bytes → List Bytes
  | [] => [quit]
  | line :: rest => if line = quit then [line] else line :: untilQuit rest

/-- Each line with a newline. -/
def onTheWire (lines : List Bytes) : Bytes := lines.flatMap (· ++ [newline])

/-- What an input asks to be sent, a last line without a newline being a line. -/
def shouldSend (input : Bytes) : Bytes :=
  onTheWire (untilQuit ((messagesOf input ++ [lastLine input]).filter (· ≠ [])))

theorem onTheWire_append (a b : List Bytes) :
    onTheWire (a ++ b) = onTheWire a ++ onTheWire b :=
  List.flatMap_append

theorem typedLines_append (x y : Bytes) :
    typedLines (x ++ y) = typedLines x ++ typedLines (Framing.tail newline x ++ y) := by
  rw [typedLines, messagesOf_append, List.filter_append, typedLines, typedLines]

theorem untilQuit_append {a : List Bytes} (h : quit ∉ a) (b : List Bytes) :
    untilQuit (a ++ b) = a ++ untilQuit b := by
  induction a with
  | nil => rfl
  | cons line a ih =>
      rw [List.mem_cons, not_or] at h
      obtain ⟨hline, ha⟩ := h
      rw [List.cons_append, untilQuit, if_neg (Ne.symm hline), ih ha, List.cons_append]

theorem untilQuit_of_mem {a : List Bytes} (h : quit ∈ a) (b : List Bytes) :
    untilQuit (a ++ b) = untilQuit a := by
  induction a with
  | nil => cases h
  | cons line a ih =>
      rw [List.cons_append, untilQuit, untilQuit]
      split
      · rfl
      · next hline =>
        rcases List.mem_cons.mp h with heq | ha
        · exact absurd heq.symm hline
        · rw [ih ha]

theorem untilQuit_of_notMem {a : List Bytes} (h : quit ∉ a) : untilQuit a = a ++ [quit] := by
  simpa [untilQuit] using untilQuit_append h []

/-! ## Messages get through -/

/-- The result is no failure of the connection. -/
def SendResult.ok : SendResult → Bool
  | .failed => false
  | .eagain .failed => false
  | _ => true

/-- **Short writes and interruptions do not show.** -/
theorem sendMessage_ok (script : List SendResult) (h : ∀ r ∈ script, r.ok = true)
    (line : Bytes) :
    (sendMessage script line).taken = line ∧ (sendMessage script line).error = none ∧
      ∀ r ∈ (sendMessage script line).rest, r.ok = true := by
  induction script generalizing line with
  | nil => cases line <;> exact ⟨rfl, rfl, by simp [sendMessage]⟩
  | cons x script ih =>
      have hrest : ∀ r ∈ script, r.ok = true := fun r hr => h r (List.mem_cons_of_mem x hr)
      cases line with
      | nil => exact ⟨rfl, rfl, h⟩
      | cons c line =>
          cases x with
          | wrote count pos =>
              obtain ⟨htaken, herror, hlater⟩ := ih hrest ((c :: line).drop count)
              refine ⟨?_, herror, hlater⟩
              simp only [sendMessage, htaken]
              exact List.take_append_drop count (c :: line)
          | eintr => exact ih hrest (c :: line)
          | eagain wait =>
              cases wait with
              | room => exact ih hrest (c :: line)
              | eintr => exact ih hrest (c :: line)
              | failed => cases h _ List.mem_cons_self
          | failed => cases h _ List.mem_cons_self

theorem send_ok (s : Shell) {script : List SendResult} (h : ∀ r ∈ script, r.ok = true)
    (message : Bytes) :
    (s.send script message).1 = { s with wire := s.wire ++ message } ∧
      (s.send script message).2.error = none ∧
      ∀ r ∈ (s.send script message).2.rest, r.ok = true := by
  obtain ⟨htaken, herror, hrest⟩ := sendMessage_ok script h message
  refine ⟨?_, herror, hrest⟩
  simp only [send, htaken, herror, Option.none_or]

theorem sendInitial_ok (commands : List Bytes) {script : List SendResult}
    (h : ∀ r ∈ script, r.ok = true) (s : Shell) :
    sendInitial commands script s = { s with wire := s.wire ++ onTheWire commands } := by
  induction commands generalizing script s with
  | nil => simp [sendInitial, onTheWire]
  | cons command commands ih =>
      obtain ⟨hsend, herror, hrest⟩ := send_ok s h (command ++ [newline])
      simp only [sendInitial, herror, Option.isSome_none, Bool.false_eq_true, if_false]
      rw [ih hrest, hsend]
      simp [onTheWire]

/-! ## Lines leave the buffer -/

/-- The buffer after its lines have been sent, without a `QUIT` among them. -/
def sentAll (s : Shell) : Shell :=
  { s with
    stdinBuffer := Framing.tail newline s.stdinBuffer
    wire := s.wire ++ onTheWire (typedLines s.stdinBuffer) }

/-- The shell after a `QUIT`. -/
def sentThroughQuit (s : Shell) (rest : Bytes) : Shell :=
  { s with
    stdinBuffer := rest
    wire := s.wire ++ onTheWire (untilQuit (typedLines s.stdinBuffer))
    sentQuit := true
    stdinOpen := false
    halfClosed := true }

/-- A buffer without a newline has nothing to be sent. -/
private theorem sentAll_of_notMem {s : Shell} (h : newline ∉ s.stdinBuffer) :
    quit ∉ typedLines s.stdinBuffer ∧ s = sentAll s := by
  have hlines : typedLines s.stdinBuffer = [] := by
    rw [typedLines, messagesOf_of_notMem h, List.filter_nil]
  refine ⟨by simp [hlines], ?_⟩
  rw [sentAll, hlines, Framing.tail_of_notMem h]
  simp [onTheWire]

/-- **The loop over the lines of the buffer.**  Fuel for its length is enough. -/
theorem sendLines_eq (fuel : Nat) {script : List SendResult} (h : ∀ r ∈ script, r.ok = true)
    (s : Shell) (hfuel : s.stdinBuffer.length ≤ fuel) :
    (quit ∉ typedLines s.stdinBuffer ∧ sendLines fuel script s = sentAll s) ∨
    (quit ∈ typedLines s.stdinBuffer ∧
      ∃ rest, sendLines fuel script s = sentThroughQuit s rest) := by
  induction fuel generalizing script s with
  | zero =>
      have hnil : s.stdinBuffer = [] := List.length_eq_zero_iff.mp (Nat.le_zero.mp hfuel)
      exact Or.inl (sentAll_of_notMem (by simp [hnil]))
  | succ fuel ih =>
      unfold sendLines
      split
      · next hnone => exact Or.inl (sentAll_of_notMem (splitLine_none hnone))
      · next line rest hline =>
        obtain ⟨hmessages, htail⟩ := messagesOf_splitLine hline
        have hlength : rest.length ≤ fuel := by
          rw [(splitLine_some hline).1] at hfuel
          simp at hfuel
          omega
        dsimp only
        generalize stripCarriageReturn line = text at hmessages ⊢
        by_cases hempty : text = []
        · -- an empty line is skipped
          rw [if_pos hempty]
          have hlines : typedLines s.stdinBuffer = typedLines rest := by
            rw [typedLines, hmessages, typedLines, List.filter_cons_of_neg (by simp [hempty])]
          have hrest := ih h { s with stdinBuffer := rest } hlength
          simp only [sentAll, sentThroughQuit, hlines, htail] at hrest ⊢
          exact hrest
        · rw [if_neg hempty]
          have hlines : typedLines s.stdinBuffer = text :: typedLines rest := by
            rw [typedLines, hmessages, typedLines, List.filter_cons_of_pos (by simp [hempty])]
          obtain ⟨hsend, herror, hlater⟩ :=
            send_ok { s with stdinBuffer := rest } h (text ++ [newline])
          rw [herror, hsend]
          simp only [Option.isSome_none, Bool.false_eq_true, if_false]
          by_cases hquit : text = ascii "QUIT"
          · rw [if_pos hquit]
            refine Or.inr ⟨?_, rest, ?_⟩
            · rw [hlines, hquit]
              exact List.mem_cons_self
            · rw [sentThroughQuit, hlines, untilQuit, if_pos (show text = quit from hquit)]
              simp [onTheWire]
          · rw [if_neg hquit]
            have hrest := ih hlater
              { s with stdinBuffer := rest, wire := s.wire ++ (text ++ [newline]) } hlength
            have hother : ¬ text = quit := hquit
            have hmem : quit ∈ text :: typedLines rest ↔ quit ∈ typedLines rest := by
              rw [List.mem_cons]
              exact or_iff_right (Ne.symm hother)
            simp only [sentAll, sentThroughQuit, hlines, htail, hmem, untilQuit, if_neg hother,
              onTheWire, List.flatMap_cons, List.append_assoc] at hrest ⊢
            exact hrest

/-! ## Passes -/

/-- The bytes of a `read` result. -/
def ReadResult.bytes : ReadResult → Bytes
  | .data typed => typed.bytes
  | _ => []

/-- There is more to come. -/
def ReadResult.ongoing : ReadResult → Bool
  | .data _ => true
  | .eintr => true
  | _ => false

/-- The input that was read in these pieces. -/
def typed (pieces : List ReadResult) : Bytes := pieces.flatMap ReadResult.bytes

/-- Nobody stops the shell, and its connection does not fail. -/
structure Pass.Sound (p : Pass) : Prop where
  signal : p.signal = false
  poll : p.poll ≠ .failed
  recvs : ∀ r ∈ p.recvs, r.live = true
  sends : ∀ r ∈ p.sends, r.ok = true

instance (p : Pass) : Decidable p.Sound :=
  decidable_of_iff (p.signal = false ∧ p.poll ≠ .failed ∧ (∀ r ∈ p.recvs, r.live = true) ∧
      ∀ r ∈ p.sends, r.ok = true)
    ⟨fun h => ⟨h.1, h.2.1, h.2.2.1, h.2.2.2⟩, fun h => ⟨h.signal, h.poll, h.recvs, h.sends⟩⟩

/-- Standard input is ready. -/
def Pass.stdinReady (p : Pass) : Bool :=
  match p.poll with
  | .ready _ stdin => stdin
  | _ => false

/-- The shell has sent what was typed, there was no `QUIT`, and it reads on. -/
structure Reading (start sofar : Bytes) (s : Shell) : Prop where
  left : s.left = false
  stdinOpen : s.stdinOpen = true
  sentQuit : s.sentQuit = false
  noQuit : quit ∉ typedLines sofar
  buffer : s.stdinBuffer = Framing.tail newline sofar
  wire : s.wire = start ++ onTheWire (typedLines sofar)

/-- The shell has sent a `QUIT` and does not read any more. -/
structure Finished (start input : Bytes) (s : Shell) : Prop where
  stdinOpen : s.stdinOpen = false
  wire : s.wire = start ++ onTheWire (untilQuit (typedLines input))

section Read

variable {start sofar : Bytes} {s : Shell} (h : Reading start sofar s)

include h

/-- More was typed. -/
theorem Reading.data {t : Typed} {reads : List ReadResult} (hreads : s.reads = .data t :: reads)
    {script : List SendResult} (hscript : ∀ r ∈ script, r.ok = true) :
    (Reading start (sofar ++ t.bytes) (s.readStdin script) ∧
      (s.readStdin script).reads = reads) ∨
    ∀ later, Finished start (sofar ++ t.bytes ++ later) (s.readStdin script) := by
  have hlines : typedLines (sofar ++ t.bytes) =
      typedLines sofar ++ typedLines (s.stdinBuffer ++ t.bytes) := by
    rw [typedLines_append, h.buffer]
  have hread : s.readStdin script = sendLines (s.stdinBuffer ++ t.bytes).length script
      { s with reads := reads, stdinBuffer := s.stdinBuffer ++ t.bytes } := by
    simp only [readStdin, hreads]
  rw [hread]
  rcases sendLines_eq (s.stdinBuffer ++ t.bytes).length hscript
    { s with reads := reads, stdinBuffer := s.stdinBuffer ++ t.bytes } (Nat.le_refl _) with
    ⟨hnot, hsent⟩ | ⟨hquit, rest, hsent⟩
  · rw [hsent]
    refine Or.inl ⟨⟨h.left, h.stdinOpen, h.sentQuit, ?_, ?_, ?_⟩, rfl⟩
    · rw [hlines, List.mem_append, not_or]
      exact ⟨h.noQuit, hnot⟩
    · show Framing.tail newline (s.stdinBuffer ++ t.bytes) = _
      rw [Framing.tail_append sofar, h.buffer]
    · show s.wire ++ onTheWire (typedLines (s.stdinBuffer ++ t.bytes)) = _
      rw [h.wire, hlines, onTheWire_append, List.append_assoc]
  · rw [hsent]
    refine Or.inr fun later => ⟨rfl, ?_⟩
    show s.wire ++ onTheWire (untilQuit (typedLines (s.stdinBuffer ++ t.bytes))) = _
    have hmem : quit ∈ typedLines sofar ++ typedLines (s.stdinBuffer ++ t.bytes) :=
      List.mem_append_right _ hquit
    rw [typedLines_append (sofar ++ t.bytes), hlines, untilQuit_of_mem hmem,
      untilQuit_append h.noQuit, onTheWire_append, h.wire, List.append_assoc]

/-- The input has ended. -/
theorem Reading.endOfInput {reads : List ReadResult} (hreads : s.reads = .endOfInput :: reads)
    {script : List SendResult} (hscript : ∀ r ∈ script, r.ok = true) :
    Finished start sofar (s.readStdin script) := by
  have hsend := (send_ok { s with reads := reads, stdinOpen := false, sentQuit := true } hscript
    (ascii "QUIT" ++ [newline])).1
  have hread : s.readStdin script =
      { s with
        reads := reads, stdinOpen := false, sentQuit := true,
        wire := s.wire ++ (ascii "QUIT" ++ [newline]), halfClosed := true } := by
    simp only [readStdin, hreads, h.sentQuit, Bool.false_eq_true, if_false, hsend]
  rw [hread]
  refine ⟨rfl, ?_⟩
  show s.wire ++ (ascii "QUIT" ++ [newline]) = _
  rw [untilQuit_of_notMem h.noQuit, onTheWire_append, h.wire, List.append_assoc]
  simp [onTheWire, quit]

end Read

/-- A server that sends and does not close. -/
theorem receiveMessages_alive (results : List Received) (h : ∀ r ∈ results, r.live = true)
    (client : TcpClient) (out : List Bytes) :
    (receiveMessages results client out).alive = true := by
  induction results generalizing client out with
  | nil => rfl
  | cons x results ih =>
      have hrest : ∀ r ∈ results, r.live = true := fun r hr => h r (List.mem_cons_of_mem x hr)
      cases x with
      | data segment =>
          unfold receiveMessages
          dsimp only
          split
          · rfl
          · exact ih hrest _ _
      | eintr => exact ih hrest _ _
      | eagain => rfl
      | fin => cases h _ List.mem_cons_self
      | failed => cases h _ List.mem_cons_self

/-- Hearing from the server changes what is printed and what is left of its stream. -/
private theorem hear_eq (s : Shell) (socket : Bool) (results : List Received) :
    ∃ client printed alive, (if socket then s.receive results else (s, true)) =
        ({ s with client := client, printed := printed }, alive) ∧
      ((∀ r ∈ results, r.live = true) → alive = true) := by
  cases socket with
  | false => exact ⟨s.client, s.printed, true, rfl, fun _ => rfl⟩
  | true => exact ⟨_, _, _, rfl, fun h => receiveMessages_alive results h s.client []⟩

/-- What a sound pass does: the messages of the server are printed, and standard input is
read if it is open and ready. -/
theorem pass_sound {s : Shell} {p : Pass} (hp : p.Sound) (hleft : s.left = false)
    (hopen : s.stdinOpen = true) : ∃ client printed,
      s.pass p =
        if p.stdinReady then { s with client := client, printed := printed }.readStdin p.sends
        else { s with client := client, printed := printed } := by
  unfold Shell.pass
  rw [if_neg (by simp [hleft]), if_neg (by simp [hp.signal])]
  cases hpoll : p.poll with
  | eintr => exact ⟨s.client, s.printed, by simp [Pass.stdinReady, hpoll]⟩
  | failed => exact absurd hpoll hp.poll
  | ready socket stdin =>
      obtain ⟨client, printed, alive, hhear, halive⟩ := hear_eq s socket p.recvs
      refine ⟨client, printed, ?_⟩
      dsimp only
      rw [hhear, halive hp.recvs]
      simp only [Bool.not_true, Bool.false_eq_true, if_false]
      rw [if_neg (by simp [hopen])]
      cases stdin <;> simp [Pass.stdinReady, hpoll]

/-- **A shell that does not read does not send**, whatever happens to it. -/
theorem pass_closed {s : Shell} (h : s.stdinOpen = false) (p : Pass) :
    (s.pass p).stdinOpen = false ∧ (s.pass p).wire = s.wire := by
  unfold Shell.pass
  split
  · exact ⟨h, rfl⟩
  · split
    · exact ⟨h, rfl⟩
    · cases p.poll with
      | eintr => exact ⟨h, rfl⟩
      | failed => exact ⟨h, rfl⟩
      | ready socket stdin =>
          obtain ⟨client, printed, alive, hhear, _⟩ := hear_eq s socket p.recvs
          dsimp only
          rw [hhear]
          dsimp only
          split
          · exact ⟨h, rfl⟩
          · rw [if_pos (by simp [h])]
            exact ⟨h, rfl⟩

theorem Finished.passes {start input : Bytes} {s : Shell} (h : Finished start input s)
    (passes : List Pass) : Finished start input (Loop.run Shell.pass s passes) := by
  refine Loop.run_invariant (I := Finished start input) (P := fun _ => True) ?_ h
    (fun _ _ => trivial)
  intro s p _ hs
  obtain ⟨hclosed, hwire⟩ := pass_closed hs.stdinOpen p
  exact ⟨hclosed, hwire.trans hs.wire⟩

/-! ## Whole sessions -/

/-- How often standard input was found ready. -/
def readies (passes : List Pass) : Nat := passes.countP Pass.stdinReady

/-- One piece of the input is read, or its end. -/
private theorem Reading.read {start : Bytes} {s : Shell} {used later : List ReadResult}
    (h : Reading start (typed used) s) (hreads : s.reads = later ++ [.endOfInput])
    (hlater : ∀ r ∈ later, r.ongoing = true) {script : List SendResult}
    (hscript : ∀ r ∈ script, r.ok = true) :
    (∃ r later', later = r :: later' ∧ Reading start (typed (used ++ [r])) (s.readStdin script) ∧
      (s.readStdin script).reads = later' ++ [.endOfInput]) ∨
    Finished start (typed (used ++ later)) (s.readStdin script) := by
  have htyped : ∀ a b, typed (a ++ b) = typed a ++ typed b := fun a b => List.flatMap_append
  cases later with
  | nil =>
      rw [List.append_nil]
      exact Or.inr (h.endOfInput hreads hscript)
  | cons r later =>
      cases r with
      | data t =>
          rcases h.data hreads hscript with ⟨hreading, hrest⟩ | hfinished
          · refine Or.inl ⟨.data t, later, rfl, ?_, hrest⟩
            rw [htyped]
            simpa [typed, ReadResult.bytes] using hreading
          · refine Or.inr ?_
            have hsplit : typed (used ++ .data t :: later) =
                typed used ++ t.bytes ++ typed later := by
              rw [htyped, List.append_assoc]
              rfl
            rw [hsplit]
            exact hfinished (typed later)
      | eintr =>
          refine Or.inl ⟨.eintr, later, rfl, ?_, ?_⟩
          · have hsame : typed (used ++ [.eintr]) = typed used := by
              rw [htyped]
              exact List.append_nil _
            rw [hsame, readStdin, hreads]
            exact ⟨h.left, h.stdinOpen, h.sentQuit, h.noQuit, h.buffer, h.wire⟩
          · rw [readStdin, hreads]
            rfl
      | endOfInput => cases hlater _ List.mem_cons_self
      | failed => cases hlater _ List.mem_cons_self

/-- **The run lemma.**  Each pass that finds standard input ready reads one piece more,
until there is a `QUIT` or the input ends. -/
theorem passes_reading {start : Bytes} {s : Shell} {pieces : List ReadResult}
    (hpieces : ∀ r ∈ pieces, r.ongoing = true) (hstart : Reading start [] s)
    (hreads : s.reads = pieces ++ [.endOfInput]) {during : List Pass}
    (hsound : ∀ p ∈ during, p.Sound) :
    (∃ used later, pieces = used ++ later ∧ used.length = readies during ∧
      Reading start (typed used) (Loop.run Shell.pass s during) ∧
      (Loop.run Shell.pass s during).reads = later ++ [.endOfInput]) ∨
    Finished start (typed pieces) (Loop.run Shell.pass s during) := by
  induction during using List.reverseRecOn with
  | nil => exact Or.inl ⟨[], pieces, rfl, rfl, hstart, hreads⟩
  | append_singleton during p ih =>
      have hp : p.Sound := hsound p (by simp)
      rw [Loop.run_concat]
      rcases ih fun q hq => hsound q (by simp [hq]) with
        ⟨used, later, rfl, hcount, hreading, hlater⟩ | hfinished
      · generalize Loop.run Shell.pass s during = t at hreading hlater ⊢
        obtain ⟨client, printed, hpass⟩ := pass_sound hp hreading.left hreading.stdinOpen
        have hheard : Reading start (typed used) { t with client := client, printed := printed } :=
          ⟨hreading.left, hreading.stdinOpen, hreading.sentQuit, hreading.noQuit,
            hreading.buffer, hreading.wire⟩
        have hongoing : ∀ r ∈ later, r.ongoing = true :=
          fun r hr => hpieces r (List.mem_append_right _ hr)
        cases hready : p.stdinReady with
        | false =>
            refine Or.inl ⟨used, later, rfl, ?_, ?_⟩
            · simp [readies, hready] at hcount ⊢
              exact hcount
            · rw [hpass, hready]
              exact ⟨hheard, hlater⟩
        | true =>
            rw [hpass, hready, if_pos rfl]
            rcases hheard.read hlater hongoing hp.sends with
              ⟨r, later', rfl, hmore, hrest⟩ | hfinished
            · refine Or.inl ⟨used ++ [r], later', by simp, ?_, hmore, hrest⟩
              simp [readies, hready] at hcount ⊢
              exact hcount
            · exact Or.inr hfinished
      · exact Or.inr (hfinished.passes [p])

/-- **Only a last line without a newline can be lost.** -/
theorem eq_shouldSend_iff (input : Bytes) :
    onTheWire (untilQuit (typedLines input)) = shouldSend input ↔
      quit ∈ typedLines input ∨ lastLine input = [] ∨ lastLine input = quit := by
  have hlines : (messagesOf input ++ [lastLine input]).filter (· ≠ []) =
      typedLines input ++ [lastLine input].filter (· ≠ []) := by
    rw [List.filter_append, typedLines]
  rw [shouldSend, hlines]
  by_cases hquit : quit ∈ typedLines input
  · rw [untilQuit_of_mem hquit]
    exact iff_of_true rfl (Or.inl hquit)
  · rw [untilQuit_append hquit, untilQuit_of_notMem hquit]
    by_cases hempty : lastLine input = []
    · simp [hempty, untilQuit]
    · rw [List.filter_cons_of_pos (by simp [hempty]), List.filter_nil]
      by_cases hlast : lastLine input = quit
      · rw [hlast]
        exact iff_of_true (by simp [untilQuit]) (Or.inr (Or.inr rfl))
      · -- the line that is missing makes a difference
        refine iff_of_false ?_ (by simp [hquit, hempty, hlast])
        intro heq
        have hlength := congrArg List.length heq
        simp only [untilQuit, if_neg hlast, onTheWire, List.flatMap_append, List.flatMap_cons,
          List.flatMap_nil, List.length_append, List.length_cons, List.length_nil] at hlength
        omega

/-- **The shell sends what was typed, except for a last line without a newline.**  Take any
initial commands, any input, any cut of it into `read` results and any pattern of short
writes, interruptions and full buffers.  Once standard input was found ready often enough,
the shell has stopped reading; and when it has, then, whatever happens afterwards, it has
sent what the input asks for exactly if the input has a terminated `QUIT`, or what follows
its last newline is empty or a `QUIT`. -/
theorem shell_sends_typed_iff (commands : List Bytes) (script : List SendResult)
    (hscript : ∀ r ∈ script, r.ok = true) (pieces : List ReadResult)
    (hpieces : ∀ r ∈ pieces, r.ongoing = true) (during after : List Pass)
    (hsound : ∀ p ∈ during, p.Sound) :
    (pieces.length < readies during →
      (runClientShell true commands script (pieces ++ [.endOfInput]) during).stdinOpen =
        false) ∧
    ((runClientShell true commands script (pieces ++ [.endOfInput]) during).stdinOpen = false →
      ((runClientShell true commands script (pieces ++ [.endOfInput])
          (during ++ after)).wire = onTheWire commands ++ shouldSend (typed pieces) ↔
        quit ∈ typedLines (typed pieces) ∨ lastLine (typed pieces) = [] ∨
          lastLine (typed pieces) = quit)) := by
  have hrun : ∀ passes, runClientShell true commands script (pieces ++ [.endOfInput]) passes =
      Loop.run Shell.pass { reads := pieces ++ [.endOfInput], wire := onTheWire commands }
        passes := by
    intro passes
    rw [runClientShell, sendInitial_ok commands hscript]
    rfl
  have hstart : Reading (onTheWire commands) []
      { reads := pieces ++ [.endOfInput], wire := onTheWire commands } := by
    refine ⟨rfl, rfl, rfl, ?_, rfl, ?_⟩
    · simp [typedLines, messagesOf, Framing.lines, Framing.cut]
    · simp [typedLines, messagesOf, Framing.lines, Framing.cut, onTheWire]
  rw [hrun, hrun, Loop.run_append]
  rcases passes_reading hpieces hstart rfl hsound with
    ⟨used, later, rfl, hcount, hreading, _⟩ | hfinished
  · refine ⟨fun henough => ?_, fun hclosed => ?_⟩
    · rw [List.length_append] at henough
      omega
    · rw [hreading.stdinOpen] at hclosed
      cases hclosed
  · refine ⟨fun _ => hfinished.stdinOpen, fun _ => ?_⟩
    rw [(hfinished.passes after).wire, List.append_cancel_left_eq]
    exact eq_shouldSend_iff (typed pieces)

/-- Two lines, an empty line and the beginning of a third, in two pieces. -/
private def threeLines : List ReadResult :=
  [.data ⟨ascii "SELL JNST 2 7\r\n\nCANC", by decide, by decide⟩, .eintr,
   .data ⟨ascii "EL 4\nBUY IMCT 1 3\n", by decide, by decide⟩]

/-- The socket takes three bytes, is interrupted, is full, and takes the rest. -/
private def slowPass : Pass where
  poll := .ready false true
  sends := [.wrote 3 (by decide), .eintr, .eagain .eintr, .eagain .room, .wrote 5 (by decide)]

theorem shell_sends_typed_iff_three_lines :
    (runClientShell true [ascii "LOGIN zoe"] [.eintr] (threeLines ++ [.endOfInput])
        (List.replicate 4 slowPass ++ [{ poll := .ready true false, recvs := [.fin] }])).wire =
      ascii "LOGIN zoe\nSELL JNST 2 7\nCANCEL 4\nBUY IMCT 1 3\nQUIT\n" := by
  have hstopped := (shell_sends_typed_iff [ascii "LOGIN zoe"] [.eintr] (by decide) threeLines
    (by decide) (List.replicate 4 slowPass) [{ poll := .ready true false, recvs := [.fin] }]
    (by decide)).1 (by decide)
  have hsent := ((shell_sends_typed_iff [ascii "LOGIN zoe"] [.eintr] (by decide) threeLines
    (by decide) (List.replicate 4 slowPass) [{ poll := .ready true false, recvs := [.fin] }]
    (by decide)).2 hstopped).mpr (by decide +kernel)
  rw [hsent]
  decide +kernel

/-- The second line is not terminated. -/
private def unterminated : List ReadResult :=
  [.data ⟨ascii "LOGIN yan\nBUY JNST 1 5", by decide, by decide⟩]

theorem shell_loses_last_line :
    (runClientShell true [] [] (unterminated ++ [.endOfInput])
        (List.replicate 2 { poll := .ready false true })).stdinOpen = false ∧
      (runClientShell true [] [] (unterminated ++ [.endOfInput])
        (List.replicate 2 { poll := .ready false true })).wire = ascii "LOGIN yan\nQUIT\n" ∧
      shouldSend (typed unterminated) = ascii "LOGIN yan\nBUY JNST 1 5\nQUIT\n" ∧
      ascii "LOGIN yan\nQUIT\n" ≠ ascii "LOGIN yan\nBUY JNST 1 5\nQUIT\n" := by
  refine ⟨?_, ?_, ?_, ?_⟩
  all_goals decide +kernel

end SocketExchange.Client
