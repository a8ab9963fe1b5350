import Mathlib.Logic.Function.Basic
import SocketExchange.Network.EventLoop

/-!
# The event loop is a table of interests

Both backends keep the same thing in different ways: for each registered
descriptor, what it is watched for.  The abstract event loop is that table, a
function to `Option Interest`; `add`, `update` and `remove` write one entry of it.

* The poll backend keeps an array and an index into it.  Removal moves the last
  entry into the gap, and the index has to follow.
* The kqueue backend keeps a copy of the table and a set of filters in the kernel.
  They agree as long as the kernel rejects no change.
-/

namespace SocketExchange.Network

/-- What each descriptor is watched for. -/
abbrev Interests := Int → Option Interest

/-! ## poll -/

/-- The array and its index hold the table. -/
structure EventLoop.PollHolds (l : EventLoop) (table : Interests) : Prop where
  entry : ∀ (i : Nat) (e : PollFd), l.pollfds[i]? = some e ↔
    l.pollIndex.lookup e.fd = some i ∧ table e.fd = some e.events
  known : ∀ fd, l.pollIndex.lookup fd = none ↔ table fd = none

section Poll

variable {l : EventLoop} {table : Interests} (h : l.PollHolds table)

include h

/-- The entry an index points at. -/
private theorem entry_of_index {fd : Int} {i : Nat} (hi : l.pollIndex.lookup fd = some i) :
    ∃ want, table fd = some want ∧ l.pollfds[i]? = some ⟨fd, want⟩ := by
  cases htable : table fd with
  | none =>
      rw [(h.known fd).mpr htable] at hi
      cases hi
  | some want => exact ⟨want, rfl, (h.entry i ⟨fd, want⟩).mpr ⟨hi, htable⟩⟩

private theorem index_lt {fd : Int} {i : Nat} (hi : l.pollIndex.lookup fd = some i) :
    i < l.pollfds.length := by
  obtain ⟨want, _, hentry⟩ := entry_of_index h hi
  exact (List.getElem?_eq_some_iff.mp hentry).1

private theorem PollHolds.push {fd : Int} (hnew : l.pollIndex.lookup fd = none)
    (want : Interest) :
    (l.pollPush fd want).PollHolds (Function.update table fd (some want)) where
  entry := by
    intro i e
    show (l.pollfds ++ [⟨fd, want⟩])[i]? = some e ↔
      (l.pollIndex.insert fd l.pollfds.length).lookup e.fd = some i ∧ _
    by_cases hfd : e.fd = fd
    · rw [hfd, AList.lookup_insert, Function.update_self]
      constructor
      · intro hi
        by_cases hlt : i < l.pollfds.length
        · rw [List.getElem?_append_left hlt, h.entry i e, hfd, hnew] at hi
          cases hi.1
        · rw [List.getElem?_append_right (Nat.le_of_not_lt hlt)] at hi
          obtain ⟨hlt', he⟩ := List.getElem?_eq_some_iff.mp hi
          have hzero : i - l.pollfds.length = 0 := by simpa using hlt'
          simp only [hzero, List.getElem_cons_zero] at he
          rw [← he]
          exact ⟨congrArg some (by omega), rfl⟩
      · rintro ⟨hi, hwant⟩
        cases hi
        rw [List.getElem?_append_right (Nat.le_refl _), Nat.sub_self]
        cases hwant
        cases e
        cases hfd
        rfl
    · rw [AList.lookup_insert_ne hfd, Function.update_of_ne hfd, ← h.entry i e]
      by_cases hlt : i < l.pollfds.length
      · rw [List.getElem?_append_left hlt]
      · rw [List.getElem?_append_right (Nat.le_of_not_lt hlt),
          List.getElem?_eq_none (Nat.le_of_not_lt hlt)]
        constructor
        · intro hi
          have hmem := List.mem_of_getElem? hi
          rw [List.mem_singleton.mp hmem] at hfd
          exact absurd rfl hfd
        · intro hi
          cases hi
  known := by
    intro fd'
    show (l.pollIndex.insert fd l.pollfds.length).lookup fd' = none ↔ _
    by_cases hfd : fd' = fd
    · rw [hfd, AList.lookup_insert, Function.update_self]
      simp
    · rw [AList.lookup_insert_ne hfd, Function.update_of_ne hfd]
      exact h.known fd'

theorem EventLoop.PollHolds.update (fd : Int) (want : Interest) :
    (l.pollUpdate fd want).PollHolds (Function.update table fd (some want)) := by
  unfold EventLoop.pollUpdate
  split
  · next hnew => exact PollHolds.push h hnew want
  · next idx hidx =>
    refine ⟨?_, ?_⟩
    · intro i e
      show (l.pollfds.modify idx _)[i]? = some e ↔ l.pollIndex.lookup e.fd = some i ∧ _
      rw [List.getElem?_modify]
      by_cases hi : idx = i
      · subst hi
        -- the entry under the index is the one of `fd`
        obtain ⟨old, _, hentry⟩ := entry_of_index h hidx
        rw [hentry]
        simp only [if_true, Option.map_eq_map, Option.map_some, Option.some.injEq]
        constructor
        · rintro rfl
          exact ⟨hidx, by rw [Function.update_self]⟩
        · rintro ⟨hlookup, hwant⟩
          by_cases hfd : e.fd = fd
          · rw [hfd, Function.update_self] at hwant
            cases hwant
            cases e
            cases hfd
            rfl
          · rw [Function.update_of_ne hfd] at hwant
            have he := (h.entry idx e).mpr ⟨hlookup, hwant⟩
            rw [hentry] at he
            cases he
            exact absurd rfl hfd
      · simp only [if_neg hi, Option.map_eq_map, Option.map_id_fun', id_eq]
        rw [h.entry i e]
        by_cases hfd : e.fd = fd
        · rw [hfd, hidx]
          constructor
          · rintro ⟨heq, _⟩
            cases heq
            exact absurd rfl hi
          · rintro ⟨heq, _⟩
            cases heq
            exact absurd rfl hi
        · rw [Function.update_of_ne hfd]
    · intro fd'
      by_cases hfd : fd' = fd
      · rw [hfd, Function.update_self]
        simp [hidx]
      · rw [Function.update_of_ne hfd]
        exact h.known fd'

theorem EventLoop.PollHolds.add (fd : Int) (want : Interest) :
    (l.pollAdd fd want).PollHolds (Function.update table fd (some want)) := by
  unfold EventLoop.pollAdd
  split
  · exact h.update fd want
  · next hnew => exact PollHolds.push h (by simpa using hnew) want

omit h in
/-- The entries left when the one at `idx` is overwritten by the last one, which is
then popped. -/
private theorem getElem?_swap_pop {α : Type*} {xs : List α} {moved : α} {idx : Nat}
    (hidx : idx < xs.length) (i : Nat) :
    (xs.set idx moved).dropLast[i]? =
      if i < xs.length - 1 then if i = idx then some moved else xs[i]? else none := by
  rw [List.getElem?_dropLast, List.length_set, List.getElem?_set]
  split
  · by_cases heq : idx = i
    · rw [if_pos heq, if_pos heq.symm]
    · rw [if_neg heq, if_neg (Ne.symm heq)]
  · rfl

/-- **The index follows the entry that is moved.** -/
private theorem PollHolds.removed {l' : EventLoop} {fd : Int} {idx : Nat} {moved : PollFd}
    (hidx : l.pollIndex.lookup fd = some idx)
    (hmoved : l.pollfds[l.pollfds.length - 1]? = some moved)
    (hfds : ∀ i, l'.pollfds[i]? =
      if i < l.pollfds.length - 1 then if i = idx then some moved else l.pollfds[i]? else none)
    (hindex : ∀ g, l'.pollIndex.lookup g =
      if g = fd then none else if g = moved.fd then some idx else l.pollIndex.lookup g) :
    l'.PollHolds (Function.update table fd none) := by
  obtain ⟨hlast, hwant⟩ := (h.entry _ moved).mp hmoved
  have hlt := index_lt h hidx
  -- the entry that is moved belongs to `fd` only if there is none to move
  have hself : idx = l.pollfds.length - 1 ↔ moved.fd = fd := by
    constructor
    · intro heq
      obtain ⟨want, _, hentry⟩ := entry_of_index h hidx
      rw [heq, hmoved] at hentry
      cases hentry
      rfl
    · intro heq
      rw [heq, hidx] at hlast
      cases hlast
      rfl
  refine ⟨?_, ?_⟩
  · intro i e
    rw [hfds i, hindex e.fd]
    constructor
    · intro he
      split at he
      · next hi =>
        split at he
        · next heq =>
          cases he
          have hne : moved.fd ≠ fd := fun hfd => by
            have := hself.mpr hfd
            omega
          rw [if_neg hne, if_pos rfl, Function.update_of_ne hne, heq]
          exact ⟨rfl, hwant⟩
        · next hne =>
          obtain ⟨hlookup, htable⟩ := (h.entry i e).mp he
          have hfd : e.fd ≠ fd := by
            intro hfd
            rw [hfd, hidx] at hlookup
            cases hlookup
            exact hne rfl
          have hmovedFd : e.fd ≠ moved.fd := by
            intro hfd
            rw [hfd, hlast] at hlookup
            cases hlookup
            omega
          rw [if_neg hfd, if_neg hmovedFd, Function.update_of_ne hfd]
          exact ⟨hlookup, htable⟩
      · cases he
    · rintro ⟨hlookup, htable⟩
      split at hlookup
      · cases hlookup
      · next hfd =>
        rw [Function.update_of_ne hfd] at htable
        split at hlookup
        · next hmovedFd =>
          cases hlookup
          have hne : idx ≠ l.pollfds.length - 1 := fun heq =>
            hfd (hmovedFd.trans (hself.mp heq))
          rw [if_pos (by omega), if_pos rfl]
          rw [hmovedFd, hwant, Option.some.injEq] at htable
          obtain ⟨fd', want'⟩ := e
          obtain rfl : fd' = moved.fd := hmovedFd
          obtain rfl : moved.events = want' := htable
          rfl
        · next hmovedFd =>
          have he := (h.entry i e).mpr ⟨hlookup, htable⟩
          have hi := index_lt h hlookup
          have hne : i ≠ l.pollfds.length - 1 := by
            rintro rfl
            rw [hmoved] at he
            cases he
            exact hmovedFd rfl
          have hne' : i ≠ idx := by
            rintro rfl
            obtain ⟨want, _, hentry⟩ := entry_of_index h hidx
            rw [hentry] at he
            cases he
            exact hfd rfl
          rw [if_pos (by omega), if_neg hne']
          exact he
  · intro g
    rw [hindex g]
    by_cases hfd : g = fd
    · rw [if_pos hfd, hfd, Function.update_self]
      simp
    · rw [if_neg hfd, Function.update_of_ne hfd]
      by_cases hmovedFd : g = moved.fd
      · rw [if_pos hmovedFd, hmovedFd, hwant]
        simp
      · rw [if_neg hmovedFd]
        exact h.known g

theorem EventLoop.PollHolds.remove (fd : Int) :
    (l.pollRemove fd).PollHolds (Function.update table fd none) := by
  unfold EventLoop.pollRemove
  split
  · next hnew =>
    have hnone := (h.known fd).mp hnew
    rw [← hnone, Function.update_eq_self]
    exact h
  · next idx hidx =>
    have hlt := index_lt h hidx
    obtain ⟨moved, hmoved⟩ : ∃ moved, l.pollfds[l.pollfds.length - 1]? = some moved :=
      ⟨_, List.getElem?_eq_getElem (by omega)⟩
    dsimp only
    rw [hmoved]
    dsimp only
    refine PollHolds.removed h hidx hmoved ?_ ?_
    · intro i
      split
      · exact getElem?_swap_pop hlt i
      · next hpos =>
        have hpos' : idx = l.pollfds.length - 1 := by simpa using hpos
        rw [List.getElem?_dropLast]
        split
        · rw [if_neg (by omega)]
        · rfl
    · intro g
      by_cases hfd : g = fd
      · rw [if_pos hfd, hfd]
        exact AList.lookup_erase _ _
      · rw [if_neg hfd]
        refine (AList.lookup_erase_ne hfd).trans ?_
        split
        · by_cases hmovedFd : g = moved.fd
          · rw [if_pos hmovedFd, hmovedFd]
            exact AList.lookup_insert _
          · rw [if_neg hmovedFd]
            exact AList.lookup_insert_ne hmovedFd
        · next hpos =>
          have hpos' : idx = l.pollfds.length - 1 := by simpa using hpos
          rw [if_neg]
          rintro rfl
          obtain ⟨want, _, hentry⟩ := entry_of_index h hidx
          rw [hpos', hmoved] at hentry
          cases hentry
          exact hfd rfl

end Poll

/-! ## kqueue -/

/-- The kernel will reject none of the next changes. -/
def Kqueue.Granted (kq : Kqueue) : Prop := ∀ a ∈ kq.answers, a = .applied

/-- What is watched for under one filter. -/
def Interest.wants (want : Interest) : Filter → Bool
  | .read => want.read
  | .write => want.write

section Changes

variable {kq : Kqueue} (hg : kq.Granted)

include hg

private theorem answer_granted : kq.answer.1 = .applied ∧ kq.answer.2.Granted ∧
    kq.answer.2.filters = kq.filters := by
  unfold Kqueue.answer
  split
  · exact ⟨rfl, hg, rfl⟩
  · next a answers heq =>
    have hall : ∀ x ∈ a :: answers, x = .applied := heq ▸ hg
    exact ⟨hall a (by simp), fun x hx => hall x (by simp [hx]), rfl⟩

/-- One change that the kernel does not reject. -/
private theorem kevent_cons (c : Change) (changes : List Change)
    (hthere : c.install = false → (c.ident, c.filter) ∈ kq.filters) :
    ∃ kq' : Kqueue, kq.kevent (c :: changes) = kq'.kevent changes ∧ kq'.Granted ∧
      ∀ p, p ∈ kq'.filters ↔
        if p = (c.ident, c.filter) then c.install = true else p ∈ kq.filters := by
  obtain ⟨happlied, hgranted, hfilters⟩ := answer_granted hg
  cases hanswer : kq.answer with
  | mk a kq₁ =>
      rw [hanswer] at happlied hgranted hfilters
      dsimp only at happlied hgranted hfilters
      subst happlied
      have hrun : ∀ kq' : Kqueue, kq₁.applyChange c = some kq' →
          kq.kevent (c :: changes) = kq'.kevent changes := by
        intro kq' happly
        simp only [Kqueue.kevent, hanswer, happly]
      cases hinstall : c.install with
      | true =>
          refine ⟨{ kq₁ with filters := kq₁.filters.insert (c.ident, c.filter) },
            hrun _ (by rw [Kqueue.applyChange, if_pos hinstall]), hgranted, ?_⟩
          intro p
          rw [List.mem_insert_iff, hfilters]
          by_cases hp : p = (c.ident, c.filter)
          · simp [hp]
          · simp [hp]
      | false =>
          have hmem : (c.ident, c.filter) ∈ kq₁.filters := hfilters ▸ hthere hinstall
          refine ⟨{ kq₁ with filters := kq₁.filters.filter (· ≠ (c.ident, c.filter)) },
            hrun _ (by rw [Kqueue.applyChange, if_neg (by simp [hinstall]), if_pos hmem]),
            hgranted, ?_⟩
          intro p
          rw [List.mem_filter, hfilters]
          by_cases hp : p = (c.ident, c.filter)
          · simp [hp]
          · simp [hp]

/-- The change for one filter, if there is one to make. -/
private theorem kevent_adjust (fd : Int) (f : Filter) (want : Bool) {old : Bool}
    (hold : (fd, f) ∈ kq.filters ↔ old = true) (changes : List Change) :
    ∃ kq' : Kqueue,
      kq.kevent ((if want ≠ old then [⟨fd, f, want⟩] else []) ++ changes) =
        kq'.kevent changes ∧ kq'.Granted ∧
      ∀ p, p ∈ kq'.filters ↔ if p = (fd, f) then want = true else p ∈ kq.filters := by
  by_cases hsame : want = old
  · rw [if_neg (not_not.mpr hsame), List.nil_append]
    refine ⟨kq, rfl, hg, ?_⟩
    intro p
    by_cases hp : p = (fd, f)
    · rw [if_pos hp, hp, hsame]
      exact hold
    · rw [if_neg hp]
  · rw [if_pos hsame]
    refine kevent_cons hg ⟨fd, f, want⟩ changes ?_
    intro hfalse
    rw [hold]
    dsimp only at hfalse
    subst hfalse
    simpa using hsame

/-- **From one interest to another**, no change fails. -/
private theorem kevent_interestChanges (fd : Int) (want : Interest) {old : Interest}
    (hold : ∀ f, (fd, f) ∈ kq.filters ↔ old.wants f = true) :
    (kq.kevent (interestChanges fd old want)).2 = none ∧
      (kq.kevent (interestChanges fd old want)).1.Granted ∧
      ∀ g f, (g, f) ∈ (kq.kevent (interestChanges fd old want)).1.filters ↔
        if g = fd then want.wants f = true else (g, f) ∈ kq.filters := by
  obtain ⟨kq₁, hrun₁, hgranted₁, hmem₁⟩ := kevent_adjust hg fd .read want.read
    (hold .read) ((if want.write ≠ old.write then [⟨fd, .write, want.write⟩] else []) ++ [])
  have hwrite : (fd, Filter.write) ∈ kq₁.filters ↔ old.write = true := by
    rw [hmem₁, if_neg (by simp)]
    exact hold .write
  obtain ⟨kq₂, hrun₂, hgranted₂, hmem₂⟩ := kevent_adjust hgranted₁ fd .write want.write
    hwrite []
  have hrun : kq.kevent (interestChanges fd old want) = (kq₂, none) := by
    rw [List.append_nil] at hrun₁ hrun₂
    exact (hrun₁.trans hrun₂).trans rfl
  rw [hrun]
  refine ⟨rfl, hgranted₂, ?_⟩
  intro g f
  rw [hmem₂]
  by_cases hg : g = fd
  · subst hg
    rw [if_pos rfl]
    cases f with
    | read =>
        rw [if_neg (by simp), hmem₁, if_pos rfl]
        rfl
    | write =>
        rw [if_pos rfl]
        rfl
  · rw [if_neg hg, if_neg (by simp [hg]), hmem₁, if_neg (by simp [hg])]

end Changes

/-- The copy and the filters in the kernel hold the table. -/
structure EventLoop.KqHolds (l : EventLoop) (table : Interests) : Prop where
  copy : ∀ fd, l.kqInterest.lookup fd = table fd
  filters : ∀ fd f, (fd, f) ∈ l.kq.filters ↔ ((table fd).getD {}).wants f = true
  granted : l.kq.Granted

section Kq

variable {l : EventLoop} {table : Interests} (h : l.KqHolds table)

include h

theorem EventLoop.KqHolds.apply (fd : Int) (want : Interest) :
    (l.kqApply fd want).2 = true ∧
      (l.kqApply fd want).1.KqHolds (Function.update table fd (some want)) := by
  have hold : ∀ f, (fd, f) ∈ l.kq.filters ↔
      ((l.kqInterest.lookup fd).getD {}).wants f = true := by
    intro f
    rw [h.copy]
    exact h.filters fd f
  obtain ⟨hnone, hgranted, hmem⟩ := kevent_interestChanges h.granted fd want hold
  have happly : l.kqApply fd want =
      ({ l with
          kq := (l.kq.kevent (interestChanges fd ((l.kqInterest.lookup fd).getD {}) want)).1
          kqInterest := (l.kqInterest.insert fd ((l.kqInterest.lookup fd).getD {})).insert fd
            want }, true) := by
    unfold EventLoop.kqApply
    dsimp only
    rw [hnone]
  rw [happly]
  refine ⟨rfl, ?_, ?_, hgranted⟩
  · intro g
    dsimp only
    by_cases hg : g = fd
    · rw [hg, AList.lookup_insert, Function.update_self]
    · rw [AList.lookup_insert_ne hg, AList.lookup_insert_ne hg, Function.update_of_ne hg]
      exact h.copy g
  · intro g f
    rw [hmem]
    by_cases hg : g = fd
    · rw [if_pos hg, hg, Function.update_self]
      rfl
    · rw [if_neg hg, Function.update_of_ne hg]
      exact h.filters g f

theorem EventLoop.KqHolds.remove (fd : Int) :
    (l.kqRemove fd).KqHolds (Function.update table fd none) := by
  unfold EventLoop.kqRemove
  split
  · next hnone =>
    rw [h.copy] at hnone
    rw [← hnone, Function.update_eq_self]
    exact h
  · next interest hinterest =>
    have hold : ∀ f, (fd, f) ∈ l.kq.filters ↔ interest.wants f = true := by
      intro f
      rw [h.filters, ← h.copy, hinterest]
      rfl
    obtain ⟨_, hgranted, hmem⟩ := kevent_interestChanges h.granted fd {} hold
    refine ⟨?_, ?_, hgranted⟩
    · intro g
      dsimp only
      by_cases hg : g = fd
      · rw [hg, AList.lookup_erase, Function.update_self]
      · rw [AList.lookup_erase_ne hg, Function.update_of_ne hg]
        exact h.copy g
    · intro g f
      rw [hmem]
      by_cases hg : g = fd
      · rw [if_pos hg, hg, Function.update_self]
        rfl
      · rw [if_neg hg, Function.update_of_ne hg]
        exact h.filters g f

end Kq

/-! ## Both -/

/-- The event loop has this backend and holds the table. -/
def EventLoop.Holds (l : EventLoop) (backend : Backend) (table : Interests) : Prop :=
  l.backend = backend ∧
    match backend with
    | .poll => l.PollHolds table
    | .kqueue => l.KqHolds table

section Backends

variable (l : EventLoop) (fd : Int)

private theorem backend_pollUpdate (want : Interest) :
    (l.pollUpdate fd want).backend = l.backend := by
  unfold EventLoop.pollUpdate
  split <;> rfl

private theorem backend_pollAdd (want : Interest) :
    (l.pollAdd fd want).backend = l.backend := by
  unfold EventLoop.pollAdd
  split
  · exact backend_pollUpdate l fd want
  · rfl

private theorem backend_pollRemove : (l.pollRemove fd).backend = l.backend := by
  unfold EventLoop.pollRemove
  split
  · rfl
  · dsimp only
    split
    · split <;> rfl
    · rfl

private theorem backend_kqApply (want : Interest) :
    (l.kqApply fd want).1.backend = l.backend := by
  unfold EventLoop.kqApply
  dsimp only
  split <;> rfl

private theorem backend_kqRemove : (l.kqRemove fd).backend = l.backend := by
  unfold EventLoop.kqRemove
  split <;> rfl

variable (wantRead wantWrite : Bool)

theorem backend_add : (l.add fd wantRead wantWrite).1.backend = l.backend := by
  unfold EventLoop.add
  split
  · exact backend_pollAdd l fd _
  · exact backend_kqApply l fd _

theorem backend_update : (l.update fd wantRead wantWrite).1.backend = l.backend := by
  unfold EventLoop.update
  split
  · exact backend_pollUpdate l fd _
  · exact backend_kqApply l fd _

theorem backend_remove : (l.remove fd).backend = l.backend := by
  unfold EventLoop.remove
  split
  · exact backend_pollRemove l fd
  · exact backend_kqRemove l fd

end Backends

section Holds

variable {l : EventLoop} {backend : Backend} {table : Interests} (h : l.Holds backend table)
  (fd : Int) (wantRead wantWrite : Bool)

include h

/-- **Registering writes one entry**, and succeeds. -/
theorem EventLoop.Holds.add : (l.add fd wantRead wantWrite).2 = true ∧
    (l.add fd wantRead wantWrite).1.Holds backend
      (Function.update table fd (some ⟨wantRead, wantWrite⟩)) := by
  obtain ⟨hb, htable⟩ := h
  unfold EventLoop.add
  rw [hb]
  cases backend with
  | poll =>
      exact ⟨rfl, (backend_pollAdd l fd _).trans hb, htable.add fd _⟩
  | kqueue =>
      obtain ⟨hok, hholds⟩ := htable.apply fd ⟨wantRead, wantWrite⟩
      exact ⟨hok, (backend_kqApply l fd _).trans hb, hholds⟩

/-- **Updating writes one entry.** -/
theorem EventLoop.Holds.update : (l.update fd wantRead wantWrite).1.Holds backend
    (Function.update table fd (some ⟨wantRead, wantWrite⟩)) := by
  obtain ⟨hb, htable⟩ := h
  unfold EventLoop.update
  rw [hb]
  cases backend with
  | poll =>
      exact ⟨(backend_pollUpdate l fd _).trans hb, htable.update fd _⟩
  | kqueue =>
      exact ⟨(backend_kqApply l fd _).trans hb, (htable.apply fd _).2⟩

/-- **Removing clears one entry.** -/
theorem EventLoop.Holds.remove :
    (l.remove fd).Holds backend (Function.update table fd none) := by
  obtain ⟨hb, htable⟩ := h
  unfold EventLoop.remove
  rw [hb]
  cases backend with
  | poll =>
      exact ⟨(backend_pollRemove l fd).trans hb, htable.remove fd⟩
  | kqueue =>
      exact ⟨(backend_kqRemove l fd).trans hb, htable.remove fd⟩

/-- New answers of the kernel, none of which rejects a change. -/
theorem EventLoop.Holds.answers {answers : List KeventAnswer}
    (hanswers : backend = .kqueue → ∀ a ∈ answers, a = .applied) :
    EventLoop.Holds { l with kq := { l.kq with answers := answers } } backend table := by
  obtain ⟨hb, htable⟩ := h
  cases backend with
  | poll => exact ⟨hb, htable.entry, htable.known⟩
  | kqueue => exact ⟨hb, htable.copy, htable.filters, hanswers rfl⟩

end Holds

/-- An event loop with nothing registered. -/
theorem holds_empty (backend : Backend) :
    EventLoop.Holds { backend := backend } backend fun _ => none := by
  cases backend with
  | poll => exact ⟨rfl, by simp, by simp⟩
  | kqueue =>
      refine ⟨rfl, by simp, ?_, by simp [Kqueue.Granted]⟩
      intro fd f
      cases f <;> simp [Interest.wants]

/-! ## What the kernel sees -/

/-- The kernel watches `fd` for `want` and for nothing else: the array given to
`poll` has one entry for it, or its filters are installed. -/
def EventLoop.Watches (l : EventLoop) (fd : Int) (want : Interest) : Prop :=
  match l.backend with
  | .poll => l.pollfds.filter (fun e => e.fd = fd) = [⟨fd, want⟩]
  | .kqueue => l.kqInterest.lookup fd = some want ∧
      ∀ f, (fd, f) ∈ l.kq.filters ↔ want.wants f = true

/-- Each descriptor has one entry. -/
private theorem PollHolds.filter_eq {l : EventLoop} {table : Interests}
    (h : l.PollHolds table) {fd : Int} {want : Interest} (hfd : table fd = some want) :
    l.pollfds.filter (fun e => e.fd = fd) = [⟨fd, want⟩] := by
  obtain ⟨i, hi⟩ : ∃ i, l.pollIndex.lookup fd = some i := by
    rw [← Option.ne_none_iff_exists', Ne, h.known fd, hfd]
    simp
  have hentry := (h.entry i ⟨fd, want⟩).mpr ⟨hi, hfd⟩
  obtain ⟨hlt, hget⟩ := List.getElem?_eq_some_iff.mp hentry
  have hother : ∀ (j : Nat) (e : PollFd), l.pollfds[j]? = some e → j ≠ i → ¬ e.fd = fd := by
    intro j e he hne hefd
    have hj := ((h.entry j e).mp he).1
    rw [hefd, hi] at hj
    cases hj
    exact hne rfl
  have hbefore : (l.pollfds.take i).filter (fun e => e.fd = fd) = [] := by
    rw [List.filter_eq_nil_iff]
    intro e he
    obtain ⟨j, hj⟩ := List.mem_iff_getElem?.mp he
    rw [List.getElem?_take] at hj
    split at hj
    · next hlt =>
      simpa using hother j e hj (by omega)
    · cases hj
  have hafter : (l.pollfds.drop (i + 1)).filter (fun e => e.fd = fd) = [] := by
    rw [List.filter_eq_nil_iff]
    intro e he
    obtain ⟨j, hj⟩ := List.mem_iff_getElem?.mp he
    rw [List.getElem?_drop] at hj
    simpa using hother (i + 1 + j) e hj (by omega)
  have hsplit : l.pollfds = l.pollfds.take i ++ ⟨fd, want⟩ :: l.pollfds.drop (i + 1) := by
    rw [← hget, List.getElem_cons_drop, List.take_append_drop]
  rw [hsplit, List.filter_append, hbefore, List.nil_append, List.filter_cons_of_pos (by simp),
    hafter]

/-- **What is in the table is what the kernel watches.** -/
theorem EventLoop.Holds.watches {l : EventLoop} {backend : Backend} {table : Interests}
    (h : l.Holds backend table) {fd : Int} {want : Interest} (hfd : table fd = some want) :
    l.Watches fd want := by
  obtain ⟨hb, htable⟩ := h
  unfold EventLoop.Watches
  rw [hb]
  cases backend with
  | poll => exact PollHolds.filter_eq htable hfd
  | kqueue =>
      refine ⟨by rw [htable.copy, hfd], ?_⟩
      intro f
      rw [htable.filters, hfd]
      rfl

end SocketExchange.Network
