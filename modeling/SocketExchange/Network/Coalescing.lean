import SocketExchange.Lib.Grouping
import SocketExchange.Network.Waiting

/-!
# Kernel events are coalesced without loss

`kevent` reports each filter separately, so one descriptor can come several times, with
other descriptors in between.  `kq_wait` makes one event of it, "so the caller sees the same
shape of event as with the poll backend".  It does so in place: `seen` has the index of the
event of each descriptor, and what is reported later is added to that event.

What comes out is stated without the index and without the order of the updates: the
descriptors in the order in which they first appear, each with all that was reported
of it.
-/

namespace SocketExchange.Network

open SocketExchange.Lib

/-- All that is reported of `fd`, as one event. -/
def eventFor (kevents : List Kevent) (fd : Int) : Event where
  fd := fd
  readable := kevents.any fun k => k.fd = fd && (k.filter = Filter.read.code || k.eof)
  writable := kevents.any fun k => k.fd = fd && k.filter = Filter.write.code
  hangup := kevents.any fun k => k.fd = fd && k.error

/-! ## One descriptor -/

/-- Flags are only ever set, so the order of two kernel events does not matter. -/
instance : RightCommutative Event.merge where
  right_comm := by
    intro ev k k'
    simp only [Event.merge, Event.mk.injEq, true_and]
    refine ⟨?_, ?_, ?_⟩ <;> ac_rfl

theorem foldl_merge (kevents : List Kevent) (ev : Event) :
    kevents.foldl Event.merge ev =
      { fd := ev.fd
        readable := ev.readable || kevents.any fun k => k.filter = Filter.read.code || k.eof
        writable := ev.writable || kevents.any fun k => k.filter = Filter.write.code
        hangup := ev.hangup || kevents.any Kevent.error } := by
  induction kevents generalizing ev with
  | nil => simp
  | cons k kevents ih =>
      rw [List.foldl_cons, ih]
      simp only [Event.merge, List.any_cons, Bool.or_assoc]

theorem eventFor_eq_total (kevents : List Kevent) :
    eventFor kevents = fun fd =>
      Grouping.total Kevent.fd (fun fd => { fd := fd }) Event.merge fd kevents := by
  funext fd
  rw [Grouping.total, foldl_merge]
  simp only [eventFor, List.any_filter, Bool.false_or]

theorem eventFor_perm {kevents kevents' : List Kevent} (h : kevents.Perm kevents') :
    eventFor kevents = eventFor kevents' := by
  rw [eventFor_eq_total, eventFor_eq_total]
  funext fd
  exact Grouping.total_perm h fd

/-! ## The loop -/

/-- Between two statements of the loop: `fds` are the descriptors that have been looked up,
and `kevents` what has been added. -/
structure Coalesced.Holds (c : Coalesced) (fds : List Int) (kevents : List Kevent) : Prop where
  seen : ∀ fd, c.seen.lookup fd = fds.eraseDups.idxOf? fd
  out : c.out = fds.eraseDups.map (eventFor kevents)

namespace Coalesced.Holds

variable {c : Coalesced} {fds : List Int} {kevents : List Kevent}

theorem isSome_lookup (h : c.Holds fds kevents) (fd : Int) :
    (c.seen.lookup fd).isSome = true ↔ fd ∈ fds := by
  rw [h.seen, List.isSome_idxOf?, List.mem_eraseDups]

/-- A descriptor of which nothing has been reported starts with an event without flags. -/
theorem note (h : c.Holds fds kevents) {fd : Int}
    (hknown : ∀ k ∈ kevents, k.fd = fd → fd ∈ fds) :
    (c.note fd).Holds (fds ++ [fd]) kevents := by
  cases hlookup : c.seen.lookup fd with
  | some i =>
      have hmem : fd ∈ fds := by
        rw [← h.isSome_lookup, hlookup]
        rfl
      have hnote : c.note fd = c := by
        rw [Coalesced.note, hlookup]
      have hfirsts := Grouping.eraseDups_concat_of_mem hmem
      rw [hnote]
      constructor
      · rw [hfirsts]
        exact h.seen
      · rw [hfirsts]
        exact h.out
  | none =>
      have hmem : fd ∉ fds := by
        rw [← h.isSome_lookup, hlookup]
        exact Bool.false_ne_true
      have hnote : c.note fd =
          { seen := c.seen.insert fd c.out.length, out := c.out ++ [{ fd := fd }] } := by
        rw [Coalesced.note, hlookup]
      have hfirsts := Grouping.eraseDups_concat_of_notMem hmem
      rw [hnote]
      constructor
      · intro fd'
        rw [hfirsts]
        by_cases hfd : fd' = fd
        · subst hfd
          rw [AList.lookup_insert, h.out, List.length_map,
            Grouping.idxOf?_concat_self (mt List.mem_eraseDups.mp hmem)]
        · rw [AList.lookup_insert_ne hfd, Grouping.idxOf?_concat_of_ne hfd]
          exact h.seen fd'
      · have hfirst : eventFor kevents fd = { fd := fd } := by
          rw [eventFor_eq_total]
          exact Grouping.total_of_absent fun k hk hfd => hmem (hknown k hk hfd)
        rw [hfirsts, List.map_append, List.map_singleton, hfirst, h.out]

/-- What is added in place goes to the descriptor it was reported for. -/
theorem merge (h : c.Holds fds kevents) {k : Kevent} {i : Nat}
    (hi : c.seen.lookup k.fd = some i) :
    { c with out := c.out.modify i fun ev => ev.merge k }.Holds fds (kevents ++ [k]) where
  seen := h.seen
  out := by
    rw [h.seen] at hi
    rw [h.out, eventFor_eq_total, eventFor_eq_total]
    exact (Grouping.map_total_concat (Grouping.nodup_eraseDups fds) kevents hi).symm

/-- **The step lemma.**  One pass of the loop. -/
theorem report (h : c.Holds (kevents.map Kevent.fd) kevents) (k : Kevent) :
    (c.report k).Holds ((kevents ++ [k]).map Kevent.fd) (kevents ++ [k]) := by
  have hnoted : (c.note k.fd).Holds (kevents.map Kevent.fd ++ [k.fd]) kevents := by
    apply h.note
    intro k' hk' hfd
    rw [← hfd]
    exact List.mem_map_of_mem hk'
  have hsome : ((c.note k.fd).seen.lookup k.fd).isSome = true := by
    rw [hnoted.isSome_lookup]
    exact List.mem_concat_self
  obtain ⟨i, hi⟩ := Option.isSome_iff_exists.mp hsome
  rw [Coalesced.report, List.map_append, List.map_singleton]
  simp only [hi]
  exact hnoted.merge hi

end Coalesced.Holds

/-- **The run lemma.** -/
theorem coalesced_holds (kevents : List Kevent) :
    (Loop.run Coalesced.report {} kevents).Holds (kevents.map Kevent.fd) kevents := by
  induction kevents using List.reverseRecOn with
  | nil => exact ⟨fun fd => rfl, rfl⟩
  | append_singleton kevents k ih =>
      rw [Loop.run_concat]
      exact ih.report k

/-! ## What is returned -/

/-- **`kq_wait` as a function of the kernel's list.** -/
theorem kqWait_eq (kevents : List Kevent) :
    EventLoop.kqWait kevents = (kevents.map Kevent.fd).eraseDups.map (eventFor kevents) :=
  (coalesced_holds kevents).out

theorem kqWait_fds (kevents : List Kevent) :
    (EventLoop.kqWait kevents).map Event.fd = (kevents.map Kevent.fd).eraseDups := by
  rw [kqWait_eq, List.map_map]
  exact List.map_id _

theorem mem_kqWait {kevents : List Kevent} {e : Event} (h : e ∈ EventLoop.kqWait kevents) :
    ∃ k ∈ kevents, k.fd = e.fd := by
  have hfd : e.fd ∈ (kevents.map Kevent.fd).eraseDups := by
    rw [← kqWait_fds]
    exact List.mem_map_of_mem h
  exact List.mem_map.mp (List.mem_eraseDups.mp hfd)

theorem kqWait_perm {kevents kevents' : List Kevent} (h : kevents.Perm kevents') :
    (EventLoop.kqWait kevents).Perm (EventLoop.kqWait kevents') := by
  rw [kqWait_eq, kqWait_eq, eventFor_perm h]
  exact (Grouping.eraseDups_perm (h.map _)).map _

/-- **Kernel events are coalesced without loss.**  Whatever list `kevent` returns, `kq_wait`
returns one event for each descriptor in it, in the order in which the descriptors first
appear.  The event is readable if `EVFILT_READ` or `EV_EOF` was reported of the descriptor,
writable if `EVFILT_WRITE` was, and a hangup if `EV_ERROR` was, and not otherwise.  So the
same list in another order gives the same events in another order. -/
theorem kevents_coalesced (kevents : List Kevent) :
    (EventLoop.kqWait kevents).map Event.fd = (kevents.map Kevent.fd).eraseDups ∧
    (∀ e ∈ EventLoop.kqWait kevents,
      (e.readable = true ↔
        ∃ k ∈ kevents, k.fd = e.fd ∧ (k.filter = Filter.read.code ∨ k.eof = true)) ∧
      (e.writable = true ↔ ∃ k ∈ kevents, k.fd = e.fd ∧ k.filter = Filter.write.code) ∧
      (e.hangup = true ↔ ∃ k ∈ kevents, k.fd = e.fd ∧ k.error = true)) ∧
    ∀ kevents', kevents.Perm kevents' →
      (EventLoop.kqWait kevents).Perm (EventLoop.kqWait kevents') := by
  refine ⟨kqWait_fds kevents, ?_, fun kevents' h => kqWait_perm h⟩
  intro e he
  rw [kqWait_eq] at he
  obtain ⟨fd, _, rfl⟩ := List.mem_map.mp he
  simp [eventFor]

/-- Descriptor 5 can be written to and its peer has closed, 4 has failed; the last event is of
neither filter. -/
private def interleaved : List Kevent :=
  [{ ident := 5, filter := Filter.write.code },
   { ident := 4, filter := Filter.read.code },
   { ident := 5, filter := Filter.write.code, flags := evEof },
   { ident := 4, filter := Filter.write.code, flags := evError },
   { ident := 6, filter := -3 }]

theorem kevents_coalesced_interleaved :
    EventLoop.kqWait interleaved =
        [⟨5, true, true, false⟩, ⟨4, true, true, true⟩, ⟨6, false, false, false⟩] ∧
      EventLoop.kqWait interleaved.reverse =
        [⟨6, false, false, false⟩, ⟨4, true, true, true⟩, ⟨5, true, true, false⟩] ∧
      (EventLoop.kqWait interleaved).Perm (EventLoop.kqWait interleaved.reverse) :=
  ⟨by decide +kernel, by decide +kernel,
    (kevents_coalesced interleaved).2.2 interleaved.reverse (List.reverse_perm interleaved).symm⟩

end SocketExchange.Network
