import Xv6.Sched.OneCpu
import Xv6.Sched.Slots

/-!
# Parents, children and waiting

`wait_lock` protects the parent pointers and the handover from an exiting child to a parent
that waits.  `Asserts` says what a thread knows at each place of `fork`, `exit` and `wait`.
A thread that holds the lock keeps what it knows because nobody else adopts, reparents,
exits or goes to sleep in `wait` meanwhile; the others know only what does not depend on
the lock.
-/

namespace Xv6.Sched

theorem Proc.woken_cases (q : Proc) (chan : Option Chan) : q.woken chan = q ∨
      q.state = .sleeping ∧ q.chan = chan ∧ q.woken chan = { q with state := .runnable } := by
  unfold Proc.woken
  split_ifs with asleep
  · exact .inr ⟨asleep.1, asleep.2, rfl⟩
  · exact .inl rfl

namespace State

variable {C : Type} {s s' : State C} {p q np r : Fin nproc} {pc : Pc}

/-- A process sleeps in `wait` or `waitx`: on itself. -/
def Waiting (s : State C) (p : Fin nproc) : Prop :=
  (s.proc p).state = .sleeping ∧ (s.proc p).chan = some (.proc p)

/-- The process in a slot has become `RUNNABLE`. -/
def Born (r : Proc) : Prop := r.state ≠ .unused ∧ r.state ≠ .used

/-- The process in a slot can run, now or later. -/
def Lives (r : Proc) : Prop := Born r ∧ r.state ≠ .zombie

theorem lives_of_running {r : Proc} (running : r.state = .running) : Lives r := by
  rw [Lives, Born, running]
  decide

/-- What the thread of `p` knows at a place. -/
def Asserts (s : State C) (p : Fin nproc) : Pc → Prop
  | .start np _ => (s.proc np).parent = some p
  | .exit _ => p ≠ initproc
  | .reparent _ i => p ≠ initproc ∧ ∀ q : Fin nproc, q.val < i → (s.proc q).parent ≠ some p
  | .wakeInit _ i j =>
    p ≠ initproc ∧ (∀ q : Fin nproc, q.val ≤ i → (s.proc q).parent ≠ some p) ∧
      (0 < j → ¬ s.Waiting initproc)
  | .wakeParent _ j =>
    p ≠ initproc ∧ (∀ q, (s.proc q).parent ≠ some p) ∧
      ∀ r : Fin nproc, (s.proc p).parent = some r → r.val < j → ¬ s.Waiting r
  | .zombie _ =>
    p ≠ initproc ∧ (∀ q, (s.proc q).parent ≠ some p) ∧
      ∀ r, (s.proc p).parent = some r → ¬ s.Waiting r
  | .scan _ i _ =>
    ∀ q : Fin nproc, q.val < i → (s.proc q).parent = some p → (s.proc q).state ≠ .zombie
  | .scanned _ _ | .sleep _ =>
    ∀ q, (s.proc q).parent = some p → (s.proc q).state ≠ .zombie
  | _ => True

/-- The invariant of the process tree. -/
structure Family (s : State C) : Prop where
  holds : ∀ p, (s.thread p).pc.holdsWaitLock → s.waitLock = some p
  /-- Nobody is the child of a process that has exited. -/
  parent_alive : ∀ q r, (s.proc q).parent = some r →
    (s.proc r).state ≠ .unused ∧ (s.proc r).state ≠ .zombie
  has_parent : ∀ q, q ≠ initproc → Born (s.proc q) → (s.proc q).parent ≠ none
  first : Lives (s.proc initproc) ∧ (s.proc initproc).parent = none
  dead : ∀ p, ¬ Lives (s.proc p) → (s.thread p).pc = .user
  /-- A process that waits has no zombie child, unless it is the first process and has just
  been given one. -/
  no_zombie : ∀ p q, s.Waiting p → (s.proc q).parent = some p → (s.proc q).state = .zombie →
    p = initproc ∧ ∃ r status i, (s.thread r).pc = .wakeInit status i 0
  asserts : ∀ p, s.Asserts p (s.thread p).pc

/-- What a thread knows survives a step that adopts nobody, ends nobody and sends nobody to
sleep in `wait`. -/
theorem Asserts.frame (known : s.Asserts p pc)
    (parents : ∀ q r, (s'.proc q).parent = some r → (s.proc q).parent = some r)
    (child : ∀ np pid, pc = .start np pid → (s'.proc np).parent = (s.proc np).parent)
    (zombies : ∀ q, (s'.proc q).state = .zombie → (s.proc q).state = .zombie)
    (waiting : ∀ q, s'.Waiting q → s.Waiting q) : s'.Asserts p pc := by
  have none (q : Fin nproc) (other : (s.proc q).parent ≠ some p) : (s'.proc q).parent ≠ some p :=
    fun eq => other (parents q p eq)
  cases pc with
  | start np pid => exact (child np pid rfl).trans known
  | reparent status i => exact ⟨known.1, fun q lt => none q (known.2 q lt)⟩
  | wakeInit status i j =>
    exact ⟨known.1, fun q le => none q (known.2.1 q le), fun pos wait =>
      known.2.2 pos (waiting _ wait)⟩
  | wakeParent status j =>
    exact ⟨known.1, fun q => none q (known.2.1 q), fun r parent lt wait =>
      known.2.2 r (parents p r parent) lt (waiting r wait)⟩
  | zombie status =>
    exact ⟨known.1, fun q => none q (known.2.1 q), fun r parent wait =>
      known.2.2 r (parents p r parent) (waiting r wait)⟩
  | scan w i kids =>
    exact fun q lt parent zombie => known q lt (parents q p parent) (zombies q zombie)
  | scanned | sleep =>
    exact fun q parent zombie => known q (parents q p parent) (zombies q zombie)
  | exit status => exact known
  | user | alloc | adopt | wait | wakeup | kill | setpriority | prioritize | yield => trivial

/-- What a thread without `wait_lock` knows depends only on the child it is creating. -/
theorem Asserts.unheld (known : s.Asserts p pc) (free : pc.holdsWaitLock = false)
    (child : ∀ np pid, pc = .start np pid → (s'.proc np).parent = (s.proc np).parent) :
    s'.Asserts p pc := by
  cases pc with
  | start np pid => exact (child np pid rfl).trans known
  | exit status => exact known
  | reparent | wakeInit | wakeParent | zombie | scan | scanned | sleep => cases free
  | user | alloc | adopt | wait | wakeup | kill | setpriority | prioritize | yield => trivial

namespace Family

section

variable (family : s.Family)
include family

/-- A step that leaves every thread where it is, adopts nobody, ends nobody, wakes some that
wait and sends nobody to sleep there. -/
theorem frame (threads : ∀ r, (s'.thread r).pc = (s.thread r).pc) (lock : s'.waitLock = s.waitLock)
    (parents : ∀ q r, (s'.proc q).parent = some r → (s.proc q).parent = some r)
    (keeps : ∀ q, (s.proc q).state ≠ .unused → (s.proc q).state ≠ .zombie →
      (s'.proc q).parent = (s.proc q).parent) (born : ∀ q, Born (s'.proc q) →
      Born (s.proc q) ∧ (s'.proc q).parent = (s.proc q).parent)
    (live : ∀ q, Lives (s.proc q) → Lives (s'.proc q))
    (used : ∀ q, (s.proc q).state = .used → (s'.proc q).state = .used)
    (zombies : ∀ q, (s'.proc q).state = .zombie → (s.proc q).state = .zombie)
    (waiting : ∀ q, s'.Waiting q → s.Waiting q) (inv : s.Inv) : s'.Family := by
  obtain ⟨holds, alive, hasParent, first, dead, noZombie, known⟩ := family
  constructor
  case asserts =>
    intro p
    rw [threads]
    refine (known p).frame parents (fun np pid pc => ?_) zombies waiting
    have state := inv.child p np (by rw [pc]; rfl)
    exact keeps np (by rw [state]; decide) (by rw [state]; decide)
  case no_zombie =>
    intro p q wait parent zombie
    obtain ⟨eq, r, status, i, pc⟩ :=
      noZombie p q (waiting p wait) (parents q p parent) (zombies q zombie)
    exact ⟨eq, r, status, i, by rw [threads, pc]⟩
  all_goals grind [Lives, Born]

section

variable (running : (s.proc p).state = .running)
include running

/-- A thread moves on to a place whose assertion it has established. -/
theorem goto (held : pc.holdsWaitLock → s.waitLock = some p) (known : s.Asserts p pc)
    (woken : ∀ status i, (s.thread p).pc = .wakeInit status i 0 → ¬ s.Waiting initproc) :
    (s.goto p pc).Family := by
  have at_ (r : Fin nproc) : ((s.goto p pc).thread r).pc =
      if r = p then pc else (s.thread r).pc := by
    simp only [State.goto, setThread, Function.update_apply]
    split_ifs <;> rfl
  have lives := lives_of_running running
  obtain ⟨holds, alive, hasParent, first, dead, noZombie, asserts⟩ := family
  constructor
  case parent_alive => exact alive
  case has_parent => exact hasParent
  case first => exact first
  case no_zombie =>
    intro q r wait parent zombie
    obtain ⟨rfl, t, status, i, there⟩ := noZombie q r wait parent zombie
    refine ⟨rfl, t, status, i, ?_⟩
    rw [at_, if_neg, there]
    rintro rfl
    exact woken status i there wait
  case asserts =>
    intro r
    rw [at_]
    split_ifs with same
    · rw [same]
      exact known
    · exact asserts r
  case holds =>
    intro r here
    change s.waitLock = some r
    grind
  case dead =>
    intro r gone
    change ¬ Lives (s.proc r) at gone
    grind

/-- `acquire(&wait_lock)`. -/
theorem acquire (free : s.waitLock = none)
    (known : s.Asserts p pc) : ((s.setWaitLock (some p)).goto p pc).Family := by
  have nobody (r : Fin nproc) : (s.thread r).pc.holdsWaitLock = false := by
    by_contra held
    have := family.holds r (by simpa using held)
    rw [free] at this
    cases this
  have locked : (s.setWaitLock (some p)).Family := by
    refine ⟨fun r held => ?_, family.parent_alive, family.has_parent, family.first, family.dead,
      family.no_zombie, family.asserts⟩
    rw [show ((s.setWaitLock (some p)).thread r).pc.holdsWaitLock = false from nobody r] at held
    cases held
  refine locked.goto running (fun _ => rfl) known fun status i here => ?_
  have := nobody p
  rw [show (s.thread p).pc = .wakeInit status i 0 from here] at this
  cases this

/-- `release(&wait_lock)` by the thread that has it. -/
theorem release (held : (s.thread p).pc.holdsWaitLock)
    (other : ∀ status i, (s.thread p).pc ≠ .wakeInit status i 0) (free : pc.holdsWaitLock = false)
    (known : s.Asserts p pc) : ((s.setWaitLock none).goto p pc).Family := by
  have moved : (s.goto p pc).Family :=
    family.goto running (fun here => by rw [free] at here; cases here) known
      fun status i here => absurd here (other status i)
  refine ⟨fun r here => ?_, moved.parent_alive, moved.has_parent, moved.first, moved.dead,
    moved.no_zombie, moved.asserts⟩
  have locked : s.waitLock = some r := moved.holds r here
  rw [family.holds p held] at locked
  cases locked
  simp only [State.goto, setThread, Function.update_self, free] at here
  cases here

end

/-- A change of a slot that leaves the parent alone and moves the process only between
running, sleeping and waiting for a CPU. -/
theorem edit {f : Proc → Proc} (inv : s.Inv) (parent : (f (s.proc q)).parent = (s.proc q).parent)
    (state : (f (s.proc q)).state = (s.proc q).state ∨ Lives (s.proc q) ∧ Lives (f (s.proc q)))
    (waiting : (s.modify q f).Waiting q → s.Waiting q) : (s.modify q f).Family := by
  have self : (s.modify q f).proc q = f (s.proc q) := by simp [modify]
  have others (r : Fin nproc) (other : r ≠ q) : (s.modify q f).proc r = s.proc r := by
    simp [modify, other]
  have parents (r : Fin nproc) : ((s.modify q f).proc r).parent = (s.proc r).parent := by
    by_cases same : r = q
    · rw [same, self, parent]
    · rw [others r same]
  have states (r : Fin nproc) : ((s.modify q f).proc r).state = (s.proc r).state ∨
      Lives (s.proc r) ∧ Lives ((s.modify q f).proc r) := by
    by_cases same : r = q
    · rw [same, self]
      exact state
    · rw [others r same]
      exact .inl rfl
  refine family.frame (fun _ => rfl) rfl (fun r t eq => by rwa [parents] at eq)
    (fun r _ _ => parents r) (fun r born => ⟨?_, parents r⟩) (fun r lives => ?_)
    (fun r used => ?_) (fun r zombie => ?_) (fun r wait => ?_) inv
  · grind [Lives, Born]
  · grind [Lives, Born]
  · grind [Lives, Born]
  · grind [Lives, Born]
  · by_cases same : r = q
    · rw [same] at wait ⊢
      exact waiting wait
    · rwa [Waiting, others r same] at wait

/-- `freeproc` of a zombie, or of a slot that was taken in vain. -/
theorem free {f : Proc → Proc} (inv : s.Inv)
    (dead : (s.proc q).state = .zombie ∨ (s.proc q).state = .unused)
    (unused : (f (s.proc q)).state = .unused) (parent : (f (s.proc q)).parent = none) :
    (s.modify q f).Family := by
  have self : (s.modify q f).proc q = f (s.proc q) := by simp [modify]
  have others (r : Fin nproc) (other : r ≠ q) : (s.modify q f).proc r = s.proc r := by
    simp [modify, other]
  refine family.frame (fun _ => rfl) rfl (fun r t eq => ?_) (fun r present live => ?_)
    (fun r born => ?_) (fun r lives => ?_) (fun r used => ?_) (fun r zombie => ?_)
    (fun r wait => ?_) inv
  all_goals grind [Lives, Born, Waiting]

theorem wakeSlot {me : Option (Fin nproc)} {chan : Option Chan} (inv : s.Inv)
    (wake : s.wakeSlot me chan q = some s') : s'.Family := by
  obtain ⟨-, rfl⟩ | ⟨-, -, rfl⟩ := wakeSlot_cases wake
  · exact family
  · rcases Proc.woken_cases (s.proc q) chan with eq | ⟨asleep, -, eq⟩
    · refine family.edit inv (by rw [eq]) (.inl (by rw [eq])) fun wait => ?_
      simpa [Waiting, modify, eq] using wait
    · refine family.edit inv (by rw [eq]) (.inr ?_) fun wait => ?_
      · simp [Lives, Born, asleep, eq]
      · simp [Waiting, modify, eq] at wait

/-- While `wait_lock` is free or held by `p`, no other thread is inside. -/
theorem outside (lock : s.waitLock = none ∨ s.waitLock = some p) (other : r ≠ p) :
    (s.thread r).pc.holdsWaitLock = false := by
  by_contra inside
  have held := family.holds r (by simpa using inside)
  rcases lock with free | mine
  · rw [free] at held
    cases held
  · rw [mine] at held
    cases held
    exact other rfl

end

end Family

/-- A section of the thread of `p`: it changes slot `x`, goes on at `pc` and leaves
`wait_lock` to `holder`. -/
structure Section (s t : State C) (p : Fin nproc) (pc : Pc) (holder : Option (Fin nproc))
    (x : Fin nproc) (f : Proc → Proc) : Prop where
  self : t.proc x = f (s.proc x)
  others : ∀ q, q ≠ x → t.proc q = s.proc q
  mine : (t.thread p).pc = pc
  threads : ∀ r, r ≠ p → (t.thread r).pc = (s.thread r).pc
  lock : t.waitLock = holder

theorem section_goto (x : Fin nproc) (f : Proc → Proc) :
    Section s ((s.modify x f).goto p pc) p pc s.waitLock x f := by
  constructor
  case lock => rfl
  all_goals simp +contextual [State.goto, setThread, modify]

attribute [local grind cases eager] Section Family
attribute [local grind] Lives Born Waiting

namespace Family

variable {t : State C} {x : Fin nproc} {f : Proc → Proc} {holder : Option (Fin nproc)}
  {pid status : Int}

section

variable (family : s.Family)
include family

section

variable (sect : Section s t p pc holder x f) (lock : s.waitLock = none ∨ s.waitLock = some p)
include sect lock

/-- After a section that began with `wait_lock` free or in the hands of `p`, the others are
outside. -/
theorem holds_section (held : pc.holdsWaitLock → holder = some p) (r : Fin nproc)
    (here : (t.thread r).pc.holdsWaitLock) : t.waitLock = some r := by
  by_cases same : r = p
  · rw [same, sect.mine] at here
    rw [same, sect.lock, held here]
  · rw [sect.threads r same, family.outside lock same] at here
    cases here

/-- What the others know after such a section, when it is not their child that changes. -/
theorem asserts_section (child : ∀ r pid, r ≠ p → (s.thread r).pc = .start x pid →
      (f (s.proc x)).parent = (s.proc x).parent) (known : t.Asserts p pc) (r : Fin nproc) :
    t.Asserts r (t.thread r).pc := by
  by_cases same : r = p
  · rw [same, sect.mine]
    exact known
  · rw [sect.threads r same]
    refine (family.asserts r).unheld (family.outside lock same) fun np pid there => ?_
    by_cases here : np = x
    · subst here
      rw [sect.self, child r pid same there]
    · rw [sect.others np here]

end

/-- During such a section nobody waits who has a zombie child, unless it is the thread itself that
has handed one to the first process. -/
theorem still (lock : s.waitLock = none ∨ s.waitLock = some p)
    (elsewhere : ∀ status i, (s.thread p).pc ≠ .wakeInit status i 0) (r y : Fin nproc)
    (wait : s.Waiting r) (parent : (s.proc y).parent = some r) : (s.proc y).state ≠ .zombie := by
  intro zombie
  obtain ⟨-, z, status, i, there⟩ := family.no_zombie r y wait parent zombie
  by_cases same : z = p
  · rw [same] at there
    exact elsewhere status i there
  · have out := family.outside lock same
    rw [there] at out
    cases out

/-- `fork` sets the parent of the child. -/
theorem adopt (inv : s.Inv) (free : s.waitLock = none) (at_ : (s.thread p).pc = .adopt np pid)
    (running : (s.proc p).state = .running) :
    ((s.modify np fun q => { q with parent := some p }).goto p (.start np pid)).Family := by
  have used := inv.child p np (by rw [at_]; rfl)
  have sect : Section s _ p (.start np pid) _ np _ :=
    section_goto np (fun q => { q with parent := some p })
  generalize (s.modify np fun q => { q with parent := some p }).goto p (.start np pid) = t at sect
  have still := family.still (.inl free) fun _ _ => by rw [at_]; rintro ⟨⟩
  refine ⟨family.holds_section sect (.inl free) (by rintro ⟨⟩), ?_, ?_, ?_, ?_, ?_,
    family.asserts_section sect (.inl free) (fun r pid' other there => ?_) ?_⟩
  case refine_6 => exact absurd (inv.forker r p np (by rw [there]; rfl) (by rw [at_]; rfl)) other
  case refine_7 =>
    change (t.proc np).parent = some p
    rw [sect.self]
  all_goals
    grind

/-- `exit` hands a child to the first process. -/
theorem reparent (at_ : (s.thread p).pc = .reparent status q)
    (running : (s.proc p).state = .running) (child : (s.proc q).parent = some p) :
    ((s.modify q fun r => { r with parent := some initproc }).goto p
      (.wakeInit status q 0)).Family := by
  have held := family.holds p (by rw [at_]; rfl)
  have known := family.asserts p
  rw [at_] at known
  have sect : Section s _ p (.wakeInit status q 0) _ q _ :=
    section_goto q (fun r => { r with parent := some initproc })
  generalize (s.modify q fun r => { r with parent := some initproc }).goto p
    (.wakeInit status q 0) = t at sect
  have still := family.still (.inr held) fun _ _ => by rw [at_]; rintro ⟨⟩
  refine ⟨family.holds_section sect (.inr held) (fun _ => held), ?_, ?_, ?_, ?_,
    fun r x wait parent zombie => ?_,
    family.asserts_section sect (.inr held) (fun r pid other there => ?_) ⟨known.1, ?_, ?_⟩⟩
  case refine_5 =>
    have moved := sect.mine
    obtain ⟨self, others, -, -, -⟩ := sect
    refine ⟨?_, p, status, q, moved⟩
    grind
  case refine_6 =>
    have mine := family.asserts r
    rw [there] at mine
    exact absurd (Option.some.inj (mine.symm.trans child)) other
  case refine_8 => exact fun pos => absurd pos (lt_irrefl 0)
  all_goals
    obtain ⟨notFirst, childless⟩ := known
    grind

/-- A process exits. -/
theorem exit (at_ : (s.thread p).pc = .zombie status)
    (parent : (f (s.proc p)).parent = (s.proc p).parent) (sect : Section s t p .user none p f) :
    t.Family := by
  have held := family.holds p (by rw [at_]; rfl)
  have known := family.asserts p
  rw [at_] at known
  obtain ⟨notFirst, childless, parentAwake⟩ := known
  have still := family.still (.inr held) fun _ _ => by rw [at_]; rintro ⟨⟩
  refine ⟨family.holds_section sect (.inr held) (by rintro ⟨⟩), ?_, ?_, ?_, ?_, ?_,
    family.asserts_section sect (.inr held) (fun _ _ _ _ => parent) trivial⟩
  all_goals
    grind

/-- A process goes to sleep in `wait`. -/
theorem sleep {w : Wait} (at_ : (s.thread p).pc = .sleep w)
    (asleep : (f (s.proc p)).state = .sleeping) (parent : (f (s.proc p)).parent = (s.proc p).parent)
    (sect : Section s t p (.wait w) none p f) : t.Family := by
  have held := family.holds p (by rw [at_]; rfl)
  have known := family.asserts p
  rw [at_] at known
  change ∀ q, (s.proc q).parent = some p → (s.proc q).state ≠ .zombie at known
  have still := family.still (.inr held) fun _ _ => by rw [at_]; rintro ⟨⟩
  refine ⟨family.holds_section sect (.inr held) (by rintro ⟨⟩), ?_, ?_, ?_, ?_, ?_,
    family.asserts_section sect (.inr held) (fun _ _ _ _ => parent) trivial⟩
  all_goals
    grind

/-- A thread outside of `wait_lock` goes on; the parents are the same and nobody else waits or has
exited. -/
theorem outside_step (out : (s.thread p).pc.holdsWaitLock = false) (mine : (t.thread p).pc = pc)
    (free : pc.holdsWaitLock = false) (known : t.Asserts p pc)
    (threads : ∀ r, r ≠ p → (t.thread r).pc = (s.thread r).pc) (lock : t.waitLock = s.waitLock)
    (parents : ∀ q, (t.proc q).parent = (s.proc q).parent)
    (zombies : ∀ q, (t.proc q).state = .zombie → (s.proc q).state = .zombie)
    (waiting : ∀ q, t.Waiting q → s.Waiting q)
    (used : ∀ q, (s.proc q).state ≠ .unused → (t.proc q).state ≠ .unused)
    (parent : ∀ q, q ≠ initproc → Born (t.proc q) → (s.proc q).parent ≠ none)
    (first : Lives (t.proc initproc)) (dead : ∀ q, ¬ Lives (t.proc q) → (t.thread q).pc = .user) :
    t.Family := by
  constructor
  case holds => grind [family.holds]
  case parent_alive => grind [family.parent_alive]
  case has_parent => grind
  case first => exact ⟨first, (parents initproc).trans family.first.2⟩
  case dead => exact dead
  case no_zombie =>
    intro r x wait eq dead
    rw [parents] at eq
    obtain ⟨first, y, status, i, there⟩ :=
      family.no_zombie r x (waiting r wait) eq (zombies x dead)
    refine ⟨first, y, status, i, ?_⟩
    rw [threads y, there]
    rintro rfl
    rw [there] at out
    cases out
  case asserts =>
    intro r
    by_cases same : r = p
    · rw [same, mine]
      exact known
    · rw [threads r same]
      exact (family.asserts r).frame (fun q y eq => by rwa [parents] at eq)
        (fun q pid _ => parents q) zombies waiting

/-- `fork` makes the child `RUNNABLE`. -/
theorem start (inv : s.Inv) (at_ : (s.thread p).pc = .start np pid) :
    ((s.modify np fun q => { q with state := .runnable }).goto p .user).Family := by
  have used := inv.child p np (by rw [at_]; rfl)
  have known := family.asserts p
  rw [at_] at known
  change (s.proc np).parent = some p at known
  obtain ⟨self, others, mine, threads, lock⟩ : Section s _ p .user _ np _ :=
    section_goto np (fun q => { q with state := .runnable })
  generalize (s.modify np fun q => { q with state := .runnable }).goto p .user = t at *
  refine family.outside_step (by rw [at_]; rfl) mine rfl trivial threads lock ?_ ?_ ?_ ?_ ?_ ?_ ?_
  all_goals grind

/-- `fork` takes a slot for a child. -/
theorem alloc (unused : (s.proc np).state = .unused) (running : (s.proc p).state = .running)
    (outside : (s.thread p).pc.holdsWaitLock = false) : (s.allocSlot p np true).Family := by
  have other : np ≠ p := by
    rintro rfl
    rw [running] at unused
    cases unused
  have sleeps : (s.thread np).pc = .user := family.dead np fun lives => lives.1.1 unused
  generalize result : s.allocSlot p np true = t
  have self : (t.proc np).state = .used ∧ (t.proc np).parent = (s.proc np).parent := by
    simp [← result, allocSlot, modify, setThread, State.goto, record, Proc.claimed, Proc.started]
  have others (q : Fin nproc) (ne : q ≠ np) : t.proc q = s.proc q := by
    simp [← result, allocSlot, modify, setThread, State.goto, record, ne]
  have mine : (t.thread p).pc = .adopt np (cInt s.nextpid) := by
    simp [← result, allocSlot, modify, setThread, State.goto, record]
  have threads (r : Fin nproc) (ne : r ≠ p) : (t.thread r).pc = (s.thread r).pc := by
    by_cases same : r = np
    · subst same
      rw [sleeps]
      simp [← result, allocSlot, modify, setThread, State.goto, record, other]
    · simp [← result, allocSlot, modify, setThread, State.goto, record, ne, same]
  have lock : t.waitLock = s.waitLock := by
    rw [← result]
    rfl
  refine family.outside_step outside mine rfl trivial threads lock ?_ ?_ ?_ ?_ ?_ ?_ ?_
  all_goals grind

end

end Family

end State
end Xv6.Sched
