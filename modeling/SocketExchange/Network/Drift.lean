import Mathlib.Data.List.Induction
import SocketExchange.Network.Backends

/-!
# When the kernel rejects a change

`kq_apply` submits up to two changes and then writes the table once, or not at all.
The kernel takes them one at a time and stops at the first it rejects, so after a failure
the filters may be those before the call, those after it, or neither.

`verdict` says how far the kernel gets.  The table and the filters still agree after the
call exactly if nothing was rejected, or if a registration failed on its very first change
for a reason other than `ENOENT`: then neither has moved.  A second change that fails, an
`ENOENT` that is taken for success, and any failure of `kq_remove` leave them apart.
-/

namespace SocketExchange.Network

open SocketExchange.Lib

/-! ## How far the kernel gets -/

/-- How many of `n` changes take effect, and what stopped the others. -/
def verdict : Nat → List KeventAnswer → Nat × Option Errno
  | 0, _ => (0, none)
  | n + 1, [] => (n + 1, none)
  | n + 1, .applied :: answers => ((verdict n answers).1 + 1, (verdict n answers).2)
  | _ + 1, .rejected errno :: _ => (0, some errno)

theorem verdict_nil (n : Nat) : verdict n [] = (n, none) := by
  cases n <;> rfl

/-- Everything took effect, or something stopped it. -/
theorem verdict_cases (n : Nat) (answers : List KeventAnswer) :
    ((verdict n answers).2 = none ∧ (verdict n answers).1 = n) ∨
      (∃ errno, (verdict n answers).2 = some errno) ∧ (verdict n answers).1 < n := by
  fun_induction verdict n answers with
  | case1 => exact Or.inl ⟨rfl, rfl⟩
  | case2 n => exact Or.inl ⟨rfl, rfl⟩
  | case3 n answers ih =>
      rcases ih with ⟨hnone, hall⟩ | ⟨hsome, hlt⟩
      · exact Or.inl ⟨hnone, congrArg (· + 1) hall⟩
      · exact Or.inr ⟨hsome, Nat.succ_lt_succ hlt⟩
  | case4 n errno answers => exact Or.inr ⟨⟨errno, rfl⟩, Nat.succ_pos n⟩

theorem verdict_none_iff (n : Nat) (answers : List KeventAnswer) :
    (verdict n answers).2 = none ↔ ∀ a ∈ answers.take n, a = .applied := by
  fun_induction verdict n answers with
  | case1 => simp
  | case2 n => simp
  | case3 n answers ih => simpa using ih
  | case4 n errno answers => simp

/-- The first change is the one that is rejected. -/
theorem verdict_zero_iff {n : Nat} (hn : 0 < n) (answers : List KeventAnswer) (errno : Errno) :
    verdict n answers = (0, some errno) ↔ ∃ rest, answers = .rejected errno :: rest := by
  cases n with
  | zero => cases hn
  | succ n =>
      cases answers with
      | nil => simp [verdict]
      | cons a answers =>
          cases a with
          | applied => simp [verdict]
          | rejected errno' => simp [verdict]

/-- The filter a change is about. -/
def Change.key (c : Change) : Int × Filter := (c.ident, c.filter)

/-- What some changes make of a set of filters. -/
def Change.Leaves (changes : List Change) (filters : List (Int × Filter)) (p : Int × Filter) :
    Prop :=
  (∃ c ∈ changes, c.key = p ∧ c.install = true) ∨ p ∈ filters ∧ ∀ c ∈ changes, c.key ≠ p

private theorem leaves_nil {filters : List (Int × Filter)} {p : Int × Filter} :
    Change.Leaves [] filters p ↔ p ∈ filters := by
  simp [Change.Leaves]

/-- The changes after the first one, on what the first one left. -/
private theorem leaves_cons {c : Change} {changes : List Change}
    {filters filters' : List (Int × Filter)} (hnew : c.key ∉ changes.map Change.key)
    {p : Int × Filter}
    (hfirst : p ∈ filters' ↔ if c.key = p then c.install = true else p ∈ filters) :
    Change.Leaves changes filters' p ↔ Change.Leaves (c :: changes) filters p := by
  unfold Change.Leaves
  rw [hfirst]
  by_cases hp : c.key = p
  · have hnone : ∀ d ∈ changes, d.key ≠ p := by
      intro d hd heq
      exact hnew (hp.trans heq.symm ▸ List.mem_map_of_mem hd)
    rw [if_pos hp]
    constructor
    · rintro (⟨d, hd, hkey, _⟩ | ⟨hinstall, _⟩)
      · exact absurd hkey (hnone d hd)
      · exact Or.inl ⟨c, by simp, hp, hinstall⟩
    · rintro (⟨d, hd, hkey, hinstall⟩ | ⟨_, hall⟩)
      · rcases List.mem_cons.mp hd with rfl | hd
        · exact Or.inr ⟨hinstall, hnone⟩
        · exact absurd hkey (hnone d hd)
      · exact absurd hp (hall c (by simp))
  · rw [if_neg hp]
    simp [hp]

private theorem applyChange_spec (kq : Kqueue) {c : Change}
    (hthere : c.install = false → c.key ∈ kq.filters) :
    ∃ filters, kq.applyChange c = some { kq with filters := filters } ∧
      ∀ p, p ∈ filters ↔ if c.key = p then c.install = true else p ∈ kq.filters := by
  cases hinstall : c.install with
  | true =>
      refine ⟨kq.filters.insert c.key, by rw [Kqueue.applyChange, if_pos hinstall]; rfl,
        fun p => ?_⟩
      rw [List.mem_insert_iff]
      by_cases hp : c.key = p
      · simp [hp]
      · simp [hp, Ne.symm hp]
  | false =>
      have hmem : (c.ident, c.filter) ∈ kq.filters := hthere hinstall
      refine ⟨kq.filters.filter (· ≠ c.key), by
        rw [Kqueue.applyChange, if_neg (by simp [hinstall]), if_pos hmem]; rfl, fun p => ?_⟩
      rw [List.mem_filter]
      by_cases hp : c.key = p
      · simp [hp]
      · simp [hp, Ne.symm hp]

/-- **`kevent` gets as far as the verdict says**, if no change deletes a filter that is
not there. -/
theorem kevent_verdict (changes : List Change) (kq : Kqueue)
    (hdistinct : (changes.map Change.key).Nodup)
    (hthere : ∀ c ∈ changes, c.install = false → c.key ∈ kq.filters) :
    (kq.kevent changes).2 = (verdict changes.length kq.answers).2 ∧
      ∀ p, p ∈ (kq.kevent changes).1.filters ↔
        Change.Leaves (changes.take (verdict changes.length kq.answers).1) kq.filters p := by
  induction changes generalizing kq with
  | nil => exact ⟨rfl, fun p => leaves_nil.symm⟩
  | cons c changes ih =>
      rw [List.map_cons, List.nodup_cons] at hdistinct
      -- the first change is applied, and the others go on from there
      have happlied : ∀ answers : List KeventAnswer,
          let kq₁ : Kqueue := { kq with answers := answers }
          (∀ filters, kq₁.applyChange c = some { kq₁ with filters := filters } →
            kq.kevent (c :: changes) =
              Kqueue.kevent { kq₁ with filters := filters } changes) →
          (kq.kevent (c :: changes)).2 = (verdict changes.length answers).2 ∧
            ∀ p, p ∈ (kq.kevent (c :: changes)).1.filters ↔
              Change.Leaves (c :: changes.take (verdict changes.length answers).1)
                kq.filters p := by
        intro answers kq₁ hrun
        obtain ⟨filters, happly, hfirst⟩ :=
          applyChange_spec kq₁ (hthere c (by simp))
        have hthere' : ∀ d ∈ changes, d.install = false → d.key ∈ filters := by
          intro d hd hdelete
          have hne : c.key ≠ d.key := fun heq => hdistinct.1 (heq ▸ List.mem_map_of_mem hd)
          rw [hfirst, if_neg hne]
          exact hthere d (by simp [hd]) hdelete
        obtain ⟨herrno, hfilters⟩ := ih { kq₁ with filters := filters } hdistinct.2 hthere'
        rw [hrun filters happly]
        refine ⟨herrno, fun p => (hfilters p).trans (leaves_cons ?_ (hfirst p))⟩
        intro hmem
        rw [List.map_take] at hmem
        exact hdistinct.1 (List.mem_of_mem_take hmem)
      cases hanswers : kq.answers with
      | nil =>
          have hsame : ({ kq with answers := [] } : Kqueue) = kq := by rw [← hanswers]
          have hspec := happlied [] fun filters happly => by
            rw [hsame] at happly ⊢
            simp only [Kqueue.kevent, Kqueue.answer, hanswers, happly]
          rw [verdict_nil] at hspec
          exact hspec
      | cons a answers =>
          cases a with
          | applied =>
              exact happlied answers fun filters happly => by
                simp only [Kqueue.kevent, Kqueue.answer, hanswers, happly]
          | rejected errno =>
              have hrun : kq.kevent (c :: changes) =
                  ({ kq with answers := answers }, some errno) := by
                simp only [Kqueue.kevent, Kqueue.answer, hanswers]
              rw [hrun]
              exact ⟨rfl, fun p => leaves_nil.symm⟩

/-! ## The changes of one call -/

section Changes

variable {fd : Int} {old want : Interest}

theorem mem_interestChanges {c : Change} :
    c ∈ interestChanges fd old want ↔
      c.ident = fd ∧ c.install = want.wants c.filter ∧
        want.wants c.filter ≠ old.wants c.filter := by
  obtain ⟨ident, filter, install⟩ := c
  unfold interestChanges
  cases filter with
  | read =>
      by_cases hread : want.read = old.read
      · by_cases hwrite : want.write = old.write <;> simp [hread, hwrite, Interest.wants]
      · by_cases hwrite : want.write = old.write <;> simp [hread, hwrite, Interest.wants]
  | write =>
      by_cases hread : want.read = old.read
      · by_cases hwrite : want.write = old.write <;> simp [hread, hwrite, Interest.wants]
      · by_cases hwrite : want.write = old.write <;> simp [hread, hwrite, Interest.wants]

variable (fd old want) in
theorem interestChanges_distinct :
    ((interestChanges fd old want).map Change.key).Nodup := by
  unfold interestChanges
  split
  · split
    · simp [Change.key]
    · simp
  · split
    · simp
    · simp

variable {filters : List (Int × Filter)} (hold : ∀ f, (fd, f) ∈ filters ↔ old.wants f = true)
  (k : Nat)

theorem leaves_other {g : Int} (hne : g ≠ fd) (f : Filter) :
    Change.Leaves ((interestChanges fd old want).take k) filters (g, f) ↔ (g, f) ∈ filters := by
  have hkey : ∀ c ∈ (interestChanges fd old want).take k, c.key ≠ (g, f) := by
    intro c hc heq
    have hident := (mem_interestChanges.mp (List.mem_of_mem_take hc)).1
    exact hne ((congrArg Prod.fst heq).symm.trans hident)
  constructor
  · rintro (⟨c, hc, hckey, _⟩ | ⟨hmem, _⟩)
    · exact absurd hckey (hkey c hc)
    · exact hmem
  · exact fun hmem => Or.inr ⟨hmem, hkey⟩

variable (filters) in
/-- A filter whose change took effect. -/
theorem leaves_changed {c : Change} (hc : c ∈ (interestChanges fd old want).take k) :
    Change.Leaves ((interestChanges fd old want).take k) filters (fd, c.filter) ↔
      want.wants c.filter = true := by
  obtain ⟨hident, hinstall, _⟩ := mem_interestChanges.mp (List.mem_of_mem_take hc)
  have hkey : c.key = (fd, c.filter) := congrArg (·, c.filter) hident
  constructor
  · rintro (⟨d, hd, hdkey, hdinstall⟩ | ⟨_, hall⟩)
    · have hfilter : d.filter = c.filter := congrArg Prod.snd hdkey
      rw [← hfilter, ← (mem_interestChanges.mp (List.mem_of_mem_take hd)).2.1]
      exact hdinstall
    · exact absurd hkey (hall c hc)
  · exact fun hwant => Or.inl ⟨c, hc, hkey, hinstall.trans hwant⟩

include hold

/-- A filter whose change did not, or that has none. -/
theorem leaves_unchanged {f : Filter}
    (hnone : ∀ c ∈ (interestChanges fd old want).take k, c.filter ≠ f) :
    Change.Leaves ((interestChanges fd old want).take k) filters (fd, f) ↔
      old.wants f = true := by
  have hkey : ∀ c ∈ (interestChanges fd old want).take k, c.key ≠ (fd, f) :=
    fun c hc heq => hnone c hc (congrArg Prod.snd heq)
  rw [← hold f]
  constructor
  · rintro (⟨c, hc, hckey, _⟩ | ⟨hmem, _⟩)
    · exact absurd hckey (hkey c hc)
    · exact hmem
  · exact fun hmem => Or.inr ⟨hmem, hkey⟩

/-- **A table that records the new interest** is right if all changes took effect. -/
theorem leaves_want_iff (hk : k ≤ (interestChanges fd old want).length) :
    (∀ f, want.wants f = true ↔
      Change.Leaves ((interestChanges fd old want).take k) filters (fd, f)) ↔
      k = (interestChanges fd old want).length := by
  constructor
  · intro hsync
    by_contra hne
    have hlt : k < (interestChanges fd old want).length := by omega
    -- the change that stopped the kernel
    obtain ⟨c, hc⟩ : ∃ c, (interestChanges fd old want)[k]? = some c :=
      ⟨_, List.getElem?_eq_getElem hlt⟩
    have hmem := mem_interestChanges.mp (List.mem_of_getElem? hc)
    have hlater : ∀ d ∈ (interestChanges fd old want).take k, d.filter ≠ c.filter := by
      intro d hd heq
      have hident := (mem_interestChanges.mp (List.mem_of_mem_take hd)).1
      obtain ⟨i, hi⟩ := List.mem_iff_getElem?.mp hd
      rw [List.getElem?_take] at hi
      split at hi
      · next hik =>
        refine List.nodup_iff_getElem?_ne_getElem?.mp (interestChanges_distinct fd old want)
          i k hik (by rw [List.length_map]; exact hlt) ?_
        rw [List.getElem?_map, List.getElem?_map, hi, hc]
        exact congrArg some (congrArg₂ Prod.mk (hident.trans hmem.1.symm) heq)
      · cases hi
    have hboth := (hsync c.filter).trans (leaves_unchanged hold k hlater)
    exact hmem.2.2 (Bool.eq_iff_iff.mpr hboth)
  · rintro rfl f
    rw [List.take_length]
    by_cases hsame : want.wants f = old.wants f
    · have hnone : ∀ c ∈ interestChanges fd old want, c.filter ≠ f := by
        rintro c hc rfl
        exact (mem_interestChanges.mp hc).2.2 hsame
      have hleaves := leaves_unchanged hold (interestChanges fd old want).length
        (by rw [List.take_length]; exact hnone)
      rw [List.take_length] at hleaves
      rw [hleaves, hsame]
    · have hc : (⟨fd, f, want.wants f⟩ : Change) ∈ interestChanges fd old want :=
        mem_interestChanges.mpr ⟨rfl, rfl, hsame⟩
      have hleaves := leaves_changed filters (interestChanges fd old want).length
        (c := ⟨fd, f, want.wants f⟩) (by rw [List.take_length]; exact hc)
      rw [List.take_length] at hleaves
      exact hleaves.symm

/-- **A table that still records the old interest** is right if no change did. -/
theorem leaves_old_iff (hk : k ≤ (interestChanges fd old want).length) :
    (∀ f, old.wants f = true ↔
      Change.Leaves ((interestChanges fd old want).take k) filters (fd, f)) ↔ k = 0 := by
  constructor
  · intro hsync
    by_contra hne
    obtain ⟨c, hc⟩ : ∃ c, c ∈ (interestChanges fd old want).take k := by
      refine List.exists_mem_of_length_pos ?_
      rw [List.length_take]
      omega
    have hboth := (leaves_changed filters k hc).symm.trans (hsync c.filter).symm
    exact (mem_interestChanges.mp (List.mem_of_mem_take hc)).2.2 (Bool.eq_iff_iff.mpr hboth)
  · rintro rfl f
    exact (leaves_unchanged hold 0 (by simp)).symm

end Changes

/-! ## Calls with the kernel's answers -/

/-- What the table records for a descriptor.  Without an entry that is no interest. -/
def EventLoop.recorded (l : EventLoop) (fd : Int) : Interest := (l.kqInterest.lookup fd).getD {}

/-- The table records an interest exactly if the kernel holds the filter for it. -/
def EventLoop.InSync (l : EventLoop) : Prop :=
  ∀ fd f, (l.recorded fd).wants f = true ↔ (fd, f) ∈ l.kq.filters

/-- A call, and the kernel's answers to the changes it makes. -/
structure AnsweredCall where
  call : LoopCall
  answers : List KeventAnswer := []
  deriving Repr, DecidableEq

def EventLoop.answered (l : EventLoop) (answers : List KeventAnswer) : EventLoop :=
  { l with kq := { l.kq with answers := answers } }

def EventLoop.callAnswered (l : EventLoop) (c : AnsweredCall) : EventLoop :=
  (l.answered c.answers).call c.call

/-- The event loop after some calls, whatever the kernel answers. -/
def kqueueAfter (calls : List AnsweredCall) : EventLoop :=
  Loop.run EventLoop.callAnswered { backend := .kqueue } calls

def LoopCall.fd : LoopCall → Int
  | .add fd _ _ => fd
  | .update fd _ _ => fd
  | .remove fd => fd

/-- The interest that a call asks for. -/
def LoopCall.want : LoopCall → Interest
  | .add _ wantRead wantWrite => ⟨wantRead, wantWrite⟩
  | .update _ wantRead wantWrite => ⟨wantRead, wantWrite⟩
  | .remove _ => {}

/-- `add` and `update`, as opposed to `remove`. -/
def LoopCall.registers : LoopCall → Bool
  | .add _ _ _ => true
  | .update _ _ _ => true
  | .remove _ => false

/-- The changes a call submits: the difference between what is recorded and what is
wanted. -/
def EventLoop.changes (l : EventLoop) (c : LoopCall) : List Change :=
  interestChanges c.fd (l.recorded c.fd) c.want

/-- None of the changes is rejected, or the call is a registration whose first change is
rejected with another error than `ENOENT`. -/
def AnsweredCall.Tolerated (l : EventLoop) (c : AnsweredCall) : Prop :=
  (∀ a ∈ c.answers.take (l.changes c.call).length, a = .applied) ∨
    c.call.registers = true ∧ ∃ code rest, c.answers = .rejected (.other code) :: rest

section Step

variable {l : EventLoop} (hsync : l.InSync)

include hsync

/-- What a call does to the filters, and the error it stops at. -/
private theorem kevent_changes (c : LoopCall) (answers : List KeventAnswer) :
    ((l.answered answers).kq.kevent (l.changes c)).2 =
        (verdict (l.changes c).length answers).2 ∧
      ∀ p, p ∈ ((l.answered answers).kq.kevent (l.changes c)).1.filters ↔
        Change.Leaves ((l.changes c).take (verdict (l.changes c).length answers).1)
          l.kq.filters p := by
  refine kevent_verdict (l.changes c) (l.answered answers).kq
    (interestChanges_distinct _ _ _) fun d hd hdelete => ?_
  obtain ⟨hident, hinstall, hne⟩ := mem_interestChanges.mp hd
  -- only a filter that is recorded is ever deleted
  rw [hinstall] at hdelete
  rw [hdelete] at hne
  have hrecorded : (l.recorded d.ident).wants d.filter = true := by
    rw [hident]
    exact Bool.eq_true_of_not_eq_false (Ne.symm hne)
  exact (hsync d.ident d.filter).mp hrecorded

/-- The table and the filters after a call that records `now`. -/
private theorem inSync_iff {l' : EventLoop} (c : LoopCall) (k : Nat) (now : Interest)
    (hrecorded : ∀ g, l'.recorded g = if g = c.fd then now else l.recorded g)
    (hfilters : ∀ p, p ∈ l'.kq.filters ↔
      Change.Leaves ((l.changes c).take k) l.kq.filters p) :
    l'.InSync ↔ ∀ f, now.wants f = true ↔
      Change.Leaves ((l.changes c).take k) l.kq.filters (c.fd, f) := by
  constructor
  · intro hsync' f
    have := hsync' c.fd f
    rwa [hrecorded, if_pos rfl, hfilters] at this
  · intro hnow g f
    rw [hrecorded, hfilters]
    by_cases hg : g = c.fd
    · rw [if_pos hg, hg]
      exact hnow f
    · rw [if_neg hg]
      exact (hsync g f).trans (leaves_other k hg f).symm

omit hsync in
/-- `kq_apply` gives up on any error but `ENOENT`. -/
private theorem kqApply_failed {c : LoopCall} {code : Nat}
    (h : (l.kq.kevent (l.changes c)).2 = some (.other code)) :
    l.kqApply c.fd c.want =
      ({ l with
          kqInterest := l.kqInterest.insert c.fd (l.recorded c.fd)
          kq := (l.kq.kevent (l.changes c)).1 }, false) := by
  unfold EventLoop.kqApply
  dsimp only
  split
  · rfl
  · next hnot => exact absurd h (hnot code)

omit hsync in
/-- Otherwise it records what it was asked for. -/
private theorem kqApply_done {c : LoopCall}
    (h : ∀ code, (l.kq.kevent (l.changes c)).2 ≠ some (.other code)) :
    l.kqApply c.fd c.want =
      ({ l with
          kqInterest := (l.kqInterest.insert c.fd (l.recorded c.fd)).insert c.fd c.want
          kq := (l.kq.kevent (l.changes c)).1 }, true) := by
  unfold EventLoop.kqApply
  dsimp only
  split
  · next code hcode => exact absurd hcode (h code)
  · rfl

/-- **`kq_apply`** loses the table unless everything, or nothing at all, took effect. -/
private theorem kqApply_inSync_iff (c : LoopCall) (answers : List KeventAnswer) :
    ((l.answered answers).kqApply c.fd c.want).1.InSync ↔
      (verdict (l.changes c).length answers).2 = none ∨
        ∃ code, verdict (l.changes c).length answers = (0, some (.other code)) := by
  obtain ⟨herrno, hfilters⟩ := kevent_changes hsync c answers
  have hold : ∀ f, (c.fd, f) ∈ l.kq.filters ↔ (l.recorded c.fd).wants f = true :=
    fun f => (hsync c.fd f).symm
  have hinsert : ∀ (index : AList fun _ : Int => Interest) (now : Interest) (g : Int),
      ((index.insert c.fd now).lookup g).getD {} =
        if g = c.fd then now else (index.lookup g).getD {} := by
    intro index now g
    by_cases hg : g = c.fd
    · rw [if_pos hg, hg, AList.lookup_insert]
      rfl
    · rw [if_neg hg, AList.lookup_insert_ne hg]
  -- the entry that `kq_interest_[fd]` made does not show
  have hentry : ∀ g, ((l.kqInterest.insert c.fd (l.recorded c.fd)).lookup g).getD {} =
      if g = c.fd then l.recorded c.fd else l.recorded g := fun g => hinsert _ _ g
  have hwanted : ∀ g, (((l.kqInterest.insert c.fd (l.recorded c.fd)).insert c.fd
      c.want).lookup g).getD {} = if g = c.fd then c.want else l.recorded g := by
    intro g
    rw [hinsert, hentry]
    split
    · rfl
    · rfl
  rcases verdict_cases (l.changes c).length answers with ⟨hnone, hall⟩ | ⟨⟨errno, hsome⟩, hlt⟩
  · have hnoErrno : ∀ code, ((l.answered answers).kq.kevent (l.changes c)).2 ≠
        some (.other code) := by simp [herrno, hnone]
    rw [kqApply_done hnoErrno, hnone]
    refine (inSync_iff hsync c (verdict (l.changes c).length answers).1 c.want ?_ ?_).trans ?_
    · exact hwanted
    · exact hfilters
    · exact iff_of_true ((leaves_want_iff hold _ (Nat.le_of_eq hall)).mpr hall) (Or.inl rfl)
  · cases errno with
    | enoent =>
        have hnoEntry : ∀ code, ((l.answered answers).kq.kevent (l.changes c)).2 ≠
            some (.other code) := by simp [herrno, hsome]
        rw [kqApply_done hnoEntry, hsome]
        refine (inSync_iff hsync c (verdict (l.changes c).length answers).1 c.want ?_ ?_).trans ?_
        · exact hwanted
        · exact hfilters
        · refine (leaves_want_iff hold _ (Nat.le_of_lt hlt)).trans ?_
          refine iff_of_false (Nat.ne_of_lt hlt) ?_
          rintro (h | ⟨code, h⟩)
          · cases h
          · rw [h] at hsome
            cases hsome
    | other code =>
        rw [kqApply_failed (herrno.trans hsome), hsome]
        refine (inSync_iff hsync c (verdict (l.changes c).length answers).1 (l.recorded c.fd) ?_
          ?_).trans ?_
        · exact hentry
        · exact hfilters
        · refine (leaves_old_iff hold _ (Nat.le_of_lt hlt)).trans ?_
          constructor
          · intro hzero
            exact Or.inr ⟨code, Prod.ext hzero hsome⟩
          · rintro (h | ⟨code', h⟩)
            · cases h
            · rw [h]

/-- **`kq_remove`** loses the table unless everything took effect. -/
private theorem kqRemove_inSync_iff (fd : Int) (answers : List KeventAnswer) :
    ((l.answered answers).kqRemove fd).InSync ↔
      (verdict (l.changes (.remove fd)).length answers).2 = none := by
  obtain ⟨_, hfilters⟩ := kevent_changes hsync (.remove fd) answers
  have hold : ∀ f, (fd, f) ∈ l.kq.filters ↔ (l.recorded fd).wants f = true :=
    fun f => (hsync fd f).symm
  unfold EventLoop.kqRemove
  split
  · next hnone =>
    -- nothing is recorded, so there is nothing to submit
    have hrecorded : l.recorded fd = {} := by
      rw [EventLoop.recorded, show l.kqInterest.lookup fd = none from hnone]
      rfl
    have hchanges : l.changes (.remove fd) = [] := by
      rw [EventLoop.changes]
      show interestChanges fd (l.recorded fd) {} = []
      rw [hrecorded]
      rfl
    rw [hchanges]
    exact iff_of_true hsync rfl
  · next interest hinterest =>
    have hrecorded : l.recorded fd = interest := by
      rw [EventLoop.recorded, show l.kqInterest.lookup fd = some interest from hinterest]
      rfl
    have hchanges : interestChanges fd interest {} = l.changes (.remove fd) := by
      rw [← hrecorded]
      rfl
    have herased : ∀ g, ((l.kqInterest.erase fd).lookup g).getD {} =
        if g = fd then {} else l.recorded g := by
      intro g
      by_cases hg : g = fd
      · rw [if_pos hg, hg, AList.lookup_erase]
        rfl
      · rw [if_neg hg, AList.lookup_erase_ne hg]
        rfl
    rw [hchanges]
    refine (inSync_iff hsync (.remove fd) _ {} ?_ hfilters).trans ?_
    · exact herased
    rcases verdict_cases (l.changes (.remove fd)).length answers with
      ⟨hnone, hall⟩ | ⟨⟨errno, hsome⟩, hlt⟩
    · exact iff_of_true ((leaves_want_iff hold _ (Nat.le_of_eq hall)).mpr hall) hnone
    · refine iff_of_false (fun h => ?_) (by rw [hsome]; exact Option.some_ne_none errno)
      exact Nat.ne_of_lt hlt ((leaves_want_iff hold _ (Nat.le_of_lt hlt)).mp h)

end Step

private theorem tolerated_registers (n : Nat) (answers : List KeventAnswer) :
    ((verdict n answers).2 = none ∨ ∃ code, verdict n answers = (0, some (.other code))) ↔
      (∀ a ∈ answers.take n, a = .applied) ∨
        ∃ code rest, answers = .rejected (.other code) :: rest := by
  rw [verdict_none_iff]
  cases n with
  | zero => exact iff_of_true (Or.inl (by simp)) (Or.inl (by simp))
  | succ n =>
      refine or_congr_right ?_
      exact exists_congr fun code => verdict_zero_iff (Nat.succ_pos n) answers (.other code)

/-- **The step lemma.**  From a table in step with the kernel, a call leads to one exactly
if its failures are tolerated. -/
theorem callAnswered_inSync_iff {l : EventLoop} (hb : l.backend = .kqueue) (hsync : l.InSync)
    (c : AnsweredCall) : (l.callAnswered c).InSync ↔ c.Tolerated l := by
  obtain ⟨call, answers⟩ := c
  have hb' : (l.answered answers).backend = .kqueue := hb
  cases call with
  | add fd wantRead wantWrite =>
      have hcall : l.callAnswered ⟨.add fd wantRead wantWrite, answers⟩ =
          ((l.answered answers).kqApply fd ⟨wantRead, wantWrite⟩).1 := by
        simp only [EventLoop.callAnswered, EventLoop.call, EventLoop.add, hb']
      rw [hcall]
      refine (kqApply_inSync_iff hsync (.add fd wantRead wantWrite) answers).trans ?_
      simp only [AnsweredCall.Tolerated, LoopCall.registers, true_and]
      exact tolerated_registers _ answers
  | update fd wantRead wantWrite =>
      have hcall : l.callAnswered ⟨.update fd wantRead wantWrite, answers⟩ =
          ((l.answered answers).kqApply fd ⟨wantRead, wantWrite⟩).1 := by
        simp only [EventLoop.callAnswered, EventLoop.call, EventLoop.update, hb']
      rw [hcall]
      refine (kqApply_inSync_iff hsync (.update fd wantRead wantWrite) answers).trans ?_
      simp only [AnsweredCall.Tolerated, LoopCall.registers, true_and]
      exact tolerated_registers _ answers
  | remove fd =>
      have hcall : l.callAnswered ⟨.remove fd, answers⟩ =
          (l.answered answers).kqRemove fd := by
        simp only [EventLoop.callAnswered, EventLoop.call, EventLoop.remove, hb']
      rw [hcall]
      refine (kqRemove_inSync_iff hsync fd answers).trans ?_
      simp only [AnsweredCall.Tolerated, LoopCall.registers, Bool.false_eq_true, false_and,
        or_false]
      exact verdict_none_iff _ answers

/-! ## Runs -/

theorem kqueueAfter_concat (calls : List AnsweredCall) (c : AnsweredCall) :
    kqueueAfter (calls ++ [c]) = (kqueueAfter calls).callAnswered c :=
  Loop.run_concat _ _ _ _

theorem kqueueAfter_backend (calls : List AnsweredCall) :
    (kqueueAfter calls).backend = .kqueue := by
  refine Loop.run_invariant (I := fun l : EventLoop => l.backend = .kqueue)
    (P := fun _ => True) ?_ rfl (fun _ _ => trivial)
  rintro l ⟨call, answers⟩ - hb
  cases call with
  | add fd wantRead wantWrite => exact (backend_add (l.answered answers) fd _ _).trans hb
  | update fd wantRead wantWrite => exact (backend_update (l.answered answers) fd _ _).trans hb
  | remove fd => exact (backend_remove (l.answered answers) fd).trans hb

theorem inSync_empty : EventLoop.InSync { backend := .kqueue } := by
  intro fd f
  cases f <;> simp [EventLoop.recorded, Interest.wants]

/-- **The table stays in step with the kernel through a run exactly if each failure in it
is tolerated**: after every call the two agree, or some call was left half done. -/
theorem kqueue_in_sync_iff (calls : List AnsweredCall) :
    (∀ before, before <+: calls → (kqueueAfter before).InSync) ↔
      ∀ before c, before ++ [c] <+: calls → c.Tolerated (kqueueAfter before) := by
  constructor
  · intro hsync before c hprefix
    have hbefore := hsync before ((List.prefix_append before [c]).trans hprefix)
    have hafter := hsync _ hprefix
    rw [kqueueAfter_concat] at hafter
    exact (callAnswered_inSync_iff (kqueueAfter_backend before) hbefore c).mp hafter
  · intro htolerated before
    induction before using List.reverseRecOn with
    | nil => exact fun _ => inSync_empty
    | append_singleton before c ih =>
        intro hprefix
        have hbefore := ih ((List.prefix_append before [c]).trans hprefix)
        rw [kqueueAfter_concat]
        exact (callAnswered_inSync_iff (kqueueAfter_backend before) hbefore c).mpr
          (htolerated before c hprefix)

/-- A client that is leaving is to be watched for writing instead of reading.  The kernel
uninstalls the one filter and has no memory for the other: the table goes on saying that
the client is watched for reading. -/
theorem kqueue_drifts :
    ¬ ∀ (calls : List AnsweredCall) (before : List AnsweredCall), before <+: calls →
      (kqueueAfter before).InSync := by
  intro hsync
  have h := hsync [⟨.add 5 true false, []⟩,
    ⟨.update 5 false true, [.applied, .rejected (.other 12)]⟩] _ (List.prefix_refl _) 5 .read
  revert h
  decide

end SocketExchange.Network
