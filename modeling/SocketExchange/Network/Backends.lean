import Mathlib.Data.Finmap
import SocketExchange.Lib.Loop
import SocketExchange.Network.Registration

/-!
# The two backends are interchangeable

`event_loop.hpp` promises that the same server runs under `poll` and under `kqueue`.
What a caller can rely on is a finite map: for each registered descriptor, the interest
that was requested last.  Adding a descriptor that is there updates it, updating one that
is not there adds it, and removing one that is not there does nothing.

Whatever calls are made, the array with its index under `poll`, and the copy with the
filters in the kernel under `kqueue`, are that map.
-/

namespace SocketExchange.Network

open SocketExchange.Lib

/-- A call that changes what is registered. -/
inductive LoopCall where
  | add (fd : Int) (wantRead wantWrite : Bool)
  | update (fd : Int) (wantRead wantWrite : Bool)
  | remove (fd : Int)
  deriving Repr, DecidableEq

def EventLoop.call (l : EventLoop) : LoopCall → EventLoop
  | .add fd wantRead wantWrite => (l.add fd wantRead wantWrite).1
  | .update fd wantRead wantWrite => (l.update fd wantRead wantWrite).1
  | .remove fd => l.remove fd

/-- The event loop after some calls, none of whose changes the kernel rejects. -/
def loopAfter (backend : Backend) (calls : List LoopCall) : EventLoop :=
  Loop.run EventLoop.call { backend := backend } calls

/-! ## The map -/

/-- The interest requested last, for each descriptor that is registered. -/
abbrev Registrations := Finmap fun _ : Int => Interest

def Registrations.call (m : Registrations) : LoopCall → Registrations
  | .add fd wantRead wantWrite => m.insert fd ⟨wantRead, wantWrite⟩
  | .update fd wantRead wantWrite => m.insert fd ⟨wantRead, wantWrite⟩
  | .remove fd => m.erase fd

def registered (calls : List LoopCall) : Registrations := Loop.run Registrations.call ∅ calls

/-- The map as a table. -/
def Registrations.table (m : Registrations) : Interests := fun fd => m.lookup fd

theorem table_insert (m : Registrations) (fd : Int) (want : Interest) :
    Registrations.table (m.insert fd want) = Function.update m.table fd (some want) := by
  funext fd'
  by_cases hfd : fd' = fd
  · subst hfd
    rw [Function.update_self]
    exact Finmap.lookup_insert m
  · rw [Function.update_of_ne hfd]
    exact Finmap.lookup_insert_of_ne m hfd

theorem table_erase (m : Registrations) (fd : Int) :
    Registrations.table (m.erase fd) = Function.update m.table fd none := by
  funext fd'
  by_cases hfd : fd' = fd
  · subst hfd
    rw [Function.update_self]
    exact Finmap.lookup_erase fd' m
  · rw [Function.update_of_ne hfd]
    exact Finmap.lookup_erase_ne hfd

/-- **The step lemma.**  A call on the event loop is a call on the map. -/
theorem EventLoop.Holds.call {l : EventLoop} {backend : Backend} {m : Registrations}
    (h : l.Holds backend m.table) (c : LoopCall) :
    (l.call c).Holds backend (m.call c).table := by
  cases c with
  | add fd wantRead wantWrite =>
      rw [Registrations.call, table_insert]
      exact (h.add fd wantRead wantWrite).2
  | update fd wantRead wantWrite =>
      rw [Registrations.call, table_insert]
      exact h.update fd wantRead wantWrite
  | remove fd =>
      rw [Registrations.call, table_erase]
      exact h.remove fd

/-- **The run lemma.** -/
theorem loopAfter_holds (backend : Backend) (calls : List LoopCall) :
    (loopAfter backend calls).Holds backend (registered calls).table := by
  have hrun : ∀ (l : EventLoop) (m : Registrations), l.Holds backend m.table →
      (Loop.run EventLoop.call l calls).Holds backend
        (Registrations.table (Loop.run Registrations.call m calls)) := by
    induction calls with
    | nil => exact fun l m h => h
    | cons c calls ih => exact fun l m h => ih (l.call c) (m.call c) (h.call c)
  exact hrun _ ∅ (holds_empty backend)

/-! ## What the backends keep -/

/-- The array has one entry for each registered descriptor, and the index is the inverse
of the array. -/
structure EventLoop.PollKeeps (l : EventLoop) (m : Registrations) : Prop where
  entries : ∀ fd want, ⟨fd, want⟩ ∈ l.pollfds ↔ m.lookup fd = some want
  once : (l.pollfds.map PollFd.fd).Nodup
  inverse : ∀ fd i, l.pollIndex.lookup fd = some i ↔ (l.pollfds.map PollFd.fd)[i]? = some fd

/-- The copy and the filters in the kernel are the map. -/
structure EventLoop.KqKeeps (l : EventLoop) (m : Registrations) : Prop where
  copy : ∀ fd, l.kqInterest.lookup fd = m.lookup fd
  filters : ∀ fd f, (fd, f) ∈ l.kq.filters ↔
    ∃ want, m.lookup fd = some want ∧ want.wants f = true

section Poll

variable {l : EventLoop} {m : Registrations} (h : l.PollHolds m.table)

include h

private theorem pollHolds_index (fd : Int) (i : Nat) :
    l.pollIndex.lookup fd = some i ↔ (l.pollfds.map PollFd.fd)[i]? = some fd := by
  rw [List.getElem?_map, Option.map_eq_some_iff]
  constructor
  · intro hi
    cases htable : m.table fd with
    | none =>
        rw [(h.known fd).mpr htable] at hi
        cases hi
    | some want => exact ⟨⟨fd, want⟩, (h.entry i ⟨fd, want⟩).mpr ⟨hi, htable⟩, rfl⟩
  · rintro ⟨e, he, rfl⟩
    exact ((h.entry i e).mp he).1

theorem EventLoop.PollHolds.keeps : l.PollKeeps m where
  entries := by
    intro fd want
    constructor
    · intro hmem
      obtain ⟨i, hi⟩ := List.mem_iff_getElem?.mp hmem
      exact ((h.entry i ⟨fd, want⟩).mp hi).2
    · intro hlookup
      have hknown : l.pollIndex.lookup fd ≠ none := by
        rw [Ne, h.known fd, Registrations.table, hlookup]
        exact Option.some_ne_none want
      obtain ⟨i, hi⟩ := Option.ne_none_iff_exists'.mp hknown
      exact List.mem_of_getElem? ((h.entry i ⟨fd, want⟩).mpr ⟨hi, hlookup⟩)
  once := by
    rw [List.nodup_iff_getElem?_ne_getElem?]
    intro i j hij hj heq
    obtain ⟨fd, hfd⟩ : ∃ fd, (l.pollfds.map PollFd.fd)[j]? = some fd :=
      ⟨_, List.getElem?_eq_getElem hj⟩
    have hi := (pollHolds_index h fd i).mpr (heq.trans hfd)
    rw [(pollHolds_index h fd j).mpr hfd] at hi
    cases hi
    exact Nat.lt_irrefl _ hij
  inverse := pollHolds_index h

end Poll

theorem EventLoop.KqHolds.keeps {l : EventLoop} {m : Registrations} (h : l.KqHolds m.table) :
    l.KqKeeps m where
  copy := h.copy
  filters := by
    intro fd f
    rw [h.filters]
    show (((m.lookup fd).getD {}).wants f = true) ↔ _
    cases m.lookup fd with
    | none =>
        refine iff_of_false ?_ (by simp)
        cases f <;> decide
    | some want => simp

theorem EventLoop.PollKeeps.length {l : EventLoop} {m : Registrations} (h : l.PollKeeps m) :
    l.pollfds.length = m.keys.card := by
  have hkeys : (l.pollfds.map PollFd.fd).toFinset = m.keys := by
    ext fd
    rw [List.mem_toFinset, Finmap.mem_keys, ← Finmap.lookup_isSome, Option.isSome_iff_exists,
      List.mem_map]
    constructor
    · rintro ⟨⟨fd, want⟩, he, rfl⟩
      exact ⟨want, (h.entries fd want).mp he⟩
    · rintro ⟨want, hlookup⟩
      exact ⟨⟨fd, want⟩, (h.entries fd want).mpr hlookup, rfl⟩
  rw [← hkeys, List.toFinset_card_of_nodup h.once, List.length_map]

theorem EventLoop.KqKeeps.length {l : EventLoop} {m : Registrations} (h : l.KqKeeps m) :
    l.kqInterest.entries.length = m.keys.card := by
  have hsame : l.kqInterest.toFinmap = m :=
    Finmap.ext_lookup fun fd => (Finmap.lookup_toFinmap fd _).trans (h.copy fd)
  rw [← hsame]
  exact (List.length_map _).symm

/-- **The backends are interchangeable.**  After any calls, both hold the interest
requested last for each registered descriptor, and both have the size of that map. -/
theorem backends_interchangeable (calls : List LoopCall) :
    (loopAfter .poll calls).PollKeeps (registered calls) ∧
      (loopAfter .kqueue calls).KqKeeps (registered calls) ∧
      (loopAfter .poll calls).size = (registered calls).keys.card ∧
      (loopAfter .kqueue calls).size = (registered calls).keys.card := by
  obtain ⟨hpoll, hpollHolds⟩ := loopAfter_holds .poll calls
  obtain ⟨hkq, hkqHolds⟩ := loopAfter_holds .kqueue calls
  refine ⟨hpollHolds.keeps, hkqHolds.keeps, ?_, ?_⟩
  · rw [EventLoop.size, hpoll]
    exact hpollHolds.keeps.length
  · rw [EventLoop.size, hkq]
    exact hkqHolds.keeps.length

end SocketExchange.Network
