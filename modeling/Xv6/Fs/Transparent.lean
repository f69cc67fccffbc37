import Xv6.Fs.Buffers

/-!
# The buffer cache is transparent

What the process that commits knows about the buffers that it has: it writes a block home
before it unpins it, and it releases no buffer that it has changed and not written.  With
the invariant of the buffers this is preserved by every step of every process, as long as
processes outside `commit` write or log what they change before they release it.
-/

namespace Xv6.Fs

open Function Option List Fs.System Cmd Transitions

variable {T D : Type} {cs ds : List (Cmd D)}

namespace Cmd

/-- The blocks that are still to be unpinned. -/
def unpins : List (Cmd D) → List Nat
  | [] => []
  | .bunpin b :: cs => b :: unpins cs
  | _ :: cs => unpins cs

/-- A process that has changed the buffer of the block does not release it unwritten.  If it
has the buffer when it reads the block it waits for itself. -/
def Safe (b : Nat) : List (Cmd D) → Prop
  | [] => True
  | .bread b' :: cs | .bwrite b' :: cs => b' = b ∨ Safe b cs
  | .brelse b' :: cs => b' ≠ b ∧ Safe b cs
  | _ :: cs => Safe b cs

/-- The commands of `commit` in order: a buffer that is changed is not released unwritten,
and a buffer that is unpinned has just been written. -/
def Tidy (start : Nat) : List (Cmd D) → Prop
  | [] => True
  | c :: cs =>
    (match c with
      | .copy _ dst => Safe dst cs
      | .head => Safe start cs
      | .bread _ | .bwrite _ | .brelse _ | .bunpin _ | .clear => True
      | .modify _ _ | .logWrite _ | .beginOp | .endOp | .finish => False) ∧
    (∀ b rest, cs = .bunpin b :: rest → c = .bwrite b) ∧ Tidy start cs

theorem Safe.append {b : Nat} (first : Safe b cs) (second : Safe b ds) : Safe b (cs ++ ds) := by
  induction cs with
  | nil => exact second
  | cons c cs ih =>
    cases c with
    | bread b' | bwrite b' => exact first.imp id ih
    | brelse b' => exact ⟨first.1, ih first.2⟩
    | modify | logWrite | beginOp | endOp | copy | head | bunpin | clear | finish =>
      exact ih first

theorem Tidy.append {start : Nat} (first : Tidy start cs) (second : Tidy start ds)
    (safe : ∀ b, Safe b ds) (joint : ∀ b rest, ds ≠ .bunpin b :: rest) : Tidy start (cs ++ ds) := by
  induction cs with
  | nil => exact second
  | cons c cs ih =>
    refine ⟨?_, fun b rest next => ?_, ih first.2.2⟩
    · cases c with
      | copy src dst => exact Safe.append first.1 (safe dst)
      | head => exact Safe.append first.1 (safe start)
      | bread | bwrite | brelse | bunpin | clear => trivial
      | modify | logWrite | beginOp | endOp | finish => exact first.1
    · cases cs with
      | nil => exact absurd next (joint b rest)
      | cons c' cs =>
        cases next
        exact first.2.1 b cs rfl

/-- A part of `commit` that may follow any other. -/
structure Part (start : Nat) (cs : List (Cmd D)) : Prop where
  tidy : Tidy start cs
  safe : ∀ b, Safe b cs
  opens : ∀ b rest, cs ≠ .bunpin b :: rest

theorem Part.append {start : Nat} (first : Part start cs) (second : Part start ds) :
    Part start (cs ++ ds) := by
  refine ⟨first.tidy.append second.tidy second.safe second.opens,
    fun b => (first.safe b).append (second.safe b), fun b rest eq => ?_⟩
  cases cs with
  | nil => exact second.opens b rest eq
  | cons c cs =>
    cases eq
    exact first.opens b cs rfl

theorem part_rounds {start : Nat} {round : Nat → Nat → List (Cmd D)}
    (each : ∀ l b, Part start (round l b)) (lh : List Nat) (tail : Nat) :
    Part start (rounds round start tail lh) := by
  induction lh generalizing tail with
  | nil => exact ⟨trivial, fun _ => trivial, by rintro _ _ ⟨⟩⟩
  | cons b lh ih => exact (each _ _).append (ih (tail + 1))

theorem part_writeLogRound (start l b : Nat) : Part start (writeLogRound l b : List (Cmd D)) :=
  ⟨by simp [writeLogRound, Tidy, Safe], fun c => by simp only [writeLogRound, Safe]; tauto,
    by rintro _ _ ⟨⟩⟩

theorem part_installRound (start l b : Nat) : Part start (installRound l b : List (Cmd D)) :=
  ⟨by simp [installRound, Tidy, Safe], fun c => by simp only [installRound, Safe]; tauto,
    by rintro _ _ ⟨⟩⟩

theorem part_writeHead (start : Nat) : Part start (writeHead start : List (Cmd D)) :=
  ⟨by simp [writeHead, Tidy, Safe], fun c => by simp only [writeHead, Safe]; tauto,
    by rintro _ _ ⟨⟩⟩

/-- The commands of `commit` before its end. -/
def commitBody (start : Nat) (lh : List Nat) : List (Cmd D) :=
  if lh = [] then []
  else writeLog start lh ++ (writeHead start ++ (installTrans start lh ++
    (.clear :: writeHead start)))

theorem part_commitBody (start : Nat) (lh : List Nat) :
    Part start (commitBody start lh : List (Cmd D)) := by
  unfold commitBody
  split_ifs
  · exact ⟨trivial, fun _ => trivial, by rintro _ _ ⟨⟩⟩
  · have head := part_writeHead (D := D) start
    have clears : Part start [(.clear : Cmd D)] :=
      ⟨⟨trivial, by rintro _ _ ⟨⟩, trivial⟩, fun _ => trivial, by rintro _ _ ⟨⟩⟩
    exact (part_rounds (part_writeLogRound start) lh 0).append
      (head.append ((part_rounds (part_installRound start) lh 0).append (clears.append head)))

theorem clear_mem_commitBody (start : Nat) (lh : List Nat) :
    (.clear : Cmd D) ∈ commitBody start lh ∨ lh = [] := by
  unfold commitBody
  split_ifs with none
  · exact .inr none
  · exact .inl (by simp)

theorem unpins_append (cs ds : List (Cmd D)) : unpins (cs ++ ds) = unpins cs ++ unpins ds := by
  induction cs with
  | nil => rfl
  | cons c cs ih => cases c <;> simp [unpins, ih]

theorem unpins_writeLog (start tail : Nat) (lh : List Nat) :
    unpins (rounds writeLogRound start tail lh : List (Cmd D)) = [] := by
  induction lh generalizing tail with
  | nil => rfl
  | cons b lh ih => simp [rounds, writeLogRound, unpins, ih]

theorem unpins_installTrans (start tail : Nat) (lh : List Nat) :
    unpins (rounds installRound start tail lh : List (Cmd D)) = lh := by
  induction lh generalizing tail with
  | nil => rfl
  | cons b lh ih => simp [rounds, installRound, unpins, ih]

/-- `commit` unpins the blocks of the header. -/
theorem unpins_commitBody (start : Nat) (lh : List Nat) :
    unpins (commitBody start lh : List (Cmd D)) = lh := by
  unfold commitBody
  split_ifs with none
  · rw [none]
    rfl
  · simp [unpins_append, writeLog, installTrans, unpins_writeLog, unpins_installTrans, writeHead,
      unpins]

theorem commit_eq (start : Nat) (lh : List Nat) :
    (commit start lh : List (Cmd D)) = commitBody start lh ++ [.finish] := rfl

end Cmd

namespace System

variable {init : Nat → D} {area : Area D} {s s' : System T D} {t u v : T} {i j : Fin nbuf}
  {b : Nat} {cmd : Cmd D} {body : List (Cmd D)} {cache : Bcache D}

/-- The blocks that are pinned: those in the log, or those that `commit` has still to unpin. -/
def owed (s : System T D) : List Nat :=
  match s.log.committing with
  | none => s.log.lh
  | some t => unpins (s.thread t).todo

/-- What the process that commits knows, with what is left of `commit` before its end. -/
structure Committing (start : Nat) (s : System T D) (t : T) (body : List (Cmd D)) : Prop where
  todo : (s.thread t).todo = body ++ [.finish]
  tidy : Cmd.Tidy start body
  clears : .clear ∈ body ∨ s.log.lh = []
  covered : ∀ i, s.lock i = some t → s.touched i →
    Cmd.Safe (s.cache.buf i).blockno body ∨ (s.thread t).phase = .waiting i
  written : ∀ b rest, body = .bunpin b :: rest → (s.thread t).phase = .idle ∧
    ∀ i, s.lock i = some t → (s.cache.buf i).dev = rootdev → (s.cache.buf i).blockno = b →
      (s.cache.buf i).data = s.disk b

/-- What a step of another process leaves to process `v`. -/
structure Aside (v : T) (s s' : System T D) : Prop where
  thread : s'.thread v = s.thread v
  log : s'.log = s.log
  lock : ∀ i, s'.lock i = some v → s.lock i = some v
  touched : ∀ i, s.lock i = some v → s'.touched i = s.touched i
  buf : ∀ i, s.lock i = some v → ∃ n, s'.cache.buf i = { s.cache.buf i with refcnt := n }
  disk : ∀ i, s.lock i = some v → (s.cache.buf i).dev = rootdev →
    s'.disk (s.cache.buf i).blockno = s.disk (s.cache.buf i).blockno

namespace Committing

variable {start : Nat}

theorem aside (commits : Committing start s v body) (aside : Aside v s s') :
    Committing start s' v body := by
  refine ⟨?_, commits.tidy, ?_, fun i held changed => ?_, fun b rest eq => ?_⟩
  · rw [aside.thread]
    exact commits.todo
  · rw [aside.log]
    exact commits.clears
  · have before := aside.lock i held
    obtain ⟨n, same⟩ := aside.buf i before
    rw [aside.touched i before] at changed
    rw [same, aside.thread]
    exact commits.covered i before changed
  · obtain ⟨idle, home⟩ := commits.written b rest eq
    refine ⟨by rw [aside.thread, idle], fun i held dev blockno => ?_⟩
    have before := aside.lock i held
    obtain ⟨n, same⟩ := aside.buf i before
    rw [same] at dev blockno ⊢
    change (s.cache.buf i).blockno = b at blockno
    rw [← blockno, aside.disk i before dev, blockno]
    exact home i before dev blockno

/-- The process that commits goes on inside `bread` or `brelse`. -/
theorem inside (commits : Committing start s t body) (busy : (s.thread t).phase ≠ .idle)
    (todo : (s'.thread t).todo = (s.thread t).todo) (log : s'.log = s.log)
    (held : ∀ i, s'.lock i = some t → s'.touched i → s.lock i = some t ∧ s.touched i ∧
      (s'.cache.buf i).blockno = (s.cache.buf i).blockno ∧ (s.thread t).phase ≠ .waiting i) :
    Committing start s' t body := by
  refine ⟨todo.trans commits.todo, commits.tidy, ?_, fun i mine changed => ?_, fun b rest eq => ?_⟩
  · rw [log]
    exact commits.clears
  · obtain ⟨before, touched, blockno, ready⟩ := held i mine changed
    rw [blockno]
    exact .inl ((commits.covered i before touched).resolve_right ready)
  · exact absurd (commits.written b rest eq).1 busy

section

variable (commits : Committing start s t (cmd :: body))
include commits

/-- The process that commits goes on to its next command. -/
theorem next (todo : (s'.thread t).todo = body ++ [.finish])
    (clears : .clear ∈ body ∨ s'.log.lh = []) (covered : ∀ i, s'.lock i = some t → s'.touched i →
      Cmd.Safe (s'.cache.buf i).blockno body ∨ (s'.thread t).phase = .waiting i)
    (written : ∀ b, cmd = .bwrite b → (s'.thread t).phase = .idle ∧
      ∀ i, s'.lock i = some t → (s'.cache.buf i).dev = rootdev → (s'.cache.buf i).blockno = b →
        (s'.cache.buf i).data = s'.disk b) : Committing start s' t body :=
  ⟨todo, commits.tidy.2.2, clears, covered, fun b rest eq => written b (commits.tidy.2.1 b rest eq)⟩

/-- What is safe for the process that commits before a command. -/
theorem safe (idle : (s.thread t).phase = .idle) (held : s.lock i = some t)
    (changed : s.touched i) :
    Cmd.Safe (s.cache.buf i).blockno (cmd :: body) := by
  refine (commits.covered i held changed).resolve_right fun waiting => ?_
  rw [idle] at waiting
  cases waiting

theorem still_clears (other : cmd ≠ .clear) : .clear ∈ body ∨ s.log.lh = [] :=
  commits.clears.imp (fun mem => (mem_cons.1 mem).resolve_left other.symm) id

end

end Committing

/-- `bget` leaves the buffers alone that are in use. -/
theorem bget_buf (used : (s.cache.buf j).refcnt ≠ 0)
    (got : s.cache.bget rootdev b = some (i, cache)) :
    ∃ n, cache.buf j = { s.cache.buf j with refcnt := n } := by
  obtain ⟨-, rfl⟩ | ⟨-, free, rfl⟩ := Bcache.bget_cases got <;> rw [Core.modify_buf]
  · split_ifs with same
    · exact ⟨_, by rw [same]⟩
    · exact ⟨_, rfl⟩
  · rw [if_neg]
    · exact ⟨_, rfl⟩
    · rintro rfl
      exact used (Core.unused_some free)

/-- `bget` returns the buffer of the block. -/
theorem bget_hit (lru : ∀ i, i ∈ s.cache.lru) (dev : (s.cache.buf j).dev = rootdev)
    (home : (s.cache.buf j).blockno = b) (got : s.cache.bget rootdev b = some (i, cache)) :
    (s.cache.buf i).dev = rootdev ∧ (s.cache.buf i).blockno = b := by
  obtain ⟨found, -⟩ | ⟨missing, -, -⟩ := Bcache.bget_cases got
  · exact Core.cached_some found
  · have := find?_eq_none.1 missing j (lru j)
    simp [dev, home] at this

/-- The invariant of the system. -/
structure Inv [Fintype T] (area : Area D) (init : Nat → D) (s : System T D) : Prop where
  core : Core init s.owed s
  quiet : ∀ t, s.log.committing ≠ some t → (s.thread t).todo = []
  closed : ∀ t, s.log.committing = some t → s.log.outstanding ≤ 0
  commits : ∀ t, s.log.committing = some t → ∃ body, Committing area.start s t body

namespace Inv

variable [Fintype T]

theorem boot (zero : D) : Inv area init (boot T zero init) :=
  ⟨Core.boot zero, fun _ _ => rfl, by rintro t ⟨⟩, by rintro t ⟨⟩⟩

section

variable (inv : Inv area init s)
include inv

/-- A step that changes neither who commits nor the open operations. -/
theorem keeps (committing : s'.log.committing = s.log.committing)
    (outstanding : s'.log.outstanding = s.log.outstanding) (core : Core init s'.owed s')
    (todo : ∀ u, s.log.committing ≠ some u → (s'.thread u).todo = (s.thread u).todo)
    (commits : ∀ u, s.log.committing = some u → ∃ body, Committing area.start s' u body) :
    Inv area init s' := by
  refine ⟨core, fun u other => ?_, fun u same => ?_, fun u same => commits u (committing ▸ same)⟩
  · rw [committing] at other
    rw [todo u other]
    exact inv.quiet u other
  · rw [outstanding]
    exact inv.closed u (committing ▸ same)

/-- What `begin_op`, `log_write` and a step that leaves the log alone have in common, while
nobody commits. -/
theorem opened (free : s.log.committing = none)
    (free' : s'.log.committing = none) (core : Core init s'.log.lh s')
    (todo : ∀ u, (s'.thread u).todo = (s.thread u).todo) : Inv area init s' := by
  refine ⟨?_, fun u _ => ?_, fun u same => ?_, fun u same => ?_⟩
  · have owed : s'.owed = s'.log.lh := by simp only [owed, free']
    rw [owed]
    exact core
  · rw [todo]
    exact inv.quiet u (by simp [free])
  all_goals
    rw [free'] at same
    cases same

/-- `end_op`, when it commits. -/
theorem enters (free : s.log.committing = none)
    (core : Core init s.log.lh s') (others : ∀ u, u ≠ t → s'.thread u = s.thread u)
    (todo : (s'.thread t).todo = commit area.start s.log.lh)
    (log : s'.log = { s.log with outstanding := s.log.outstanding - 1, committing := some t })
    (last : s.log.outstanding - 1 = 0) : Inv area init s' := by
  have part := part_commitBody (D := D) area.start s.log.lh
  refine ⟨?_, fun u other => ?_, fun u same => ?_, fun u same => ?_⟩
  · have owed : s'.owed = s.log.lh := by
      simp only [owed, log, todo, commit_eq, unpins_append, unpins_commitBody]
      simp [unpins]
    rw [owed]
    exact core
  · rw [log] at other
    rw [others u fun same => other (by rw [same])]
    exact inv.quiet u (by simp [free])
  · rw [log]
    exact last.le
  · rw [log] at same
    cases same
    refine ⟨_, todo, part.tidy, ?_, fun i _ _ => .inl (part.safe _),
      fun b rest eq => absurd eq (part.opens b rest)⟩
    rw [log]
    exact clear_mem_commitBody area.start s.log.lh

/-- A step of the process that commits, with what has to hold after it. -/
theorem proceeds (committing : s.log.committing = some t)
    (log : s'.log.committing = s.log.committing ∧ s'.log.outstanding = s.log.outstanding)
    (others : ∀ u, u ≠ t → s'.thread u = s.thread u)
    (core : Core init (unpins (body ++ [.finish])) s')
    (commits : Committing area.start s' t body) : Inv area init s' := by
  have owed : s'.owed = unpins (body ++ [.finish]) := by
    simp only [owed, log.1, committing, commits.todo]
  refine inv.keeps log.1 log.2 (owed ▸ core) (fun u other => ?_) fun u same => ?_
  · rw [others u fun same => other (by rw [same, committing])]
  · rw [committing] at same
    cases same
    exact ⟨body, commits⟩

end

end Inv

/-- The processes that have a buffer: the one that has its lock, and those that have released
it and not yet given up their reference. -/
def holders [Fintype T] (s : System T D) (i : Fin nbuf) : Nat :=
  (if s.lock i = none then 0 else 1) + Fintype.card { t // (s.thread t).phase = .releasing i }

/-- The processes that wait for the lock of a buffer. -/
def waiters [Fintype T] (s : System T D) (i : Fin nbuf) : Nat :=
  Fintype.card { t // (s.thread t).phase = .waiting i }

theorem sum_uses_eq [Fintype T] (s : System T D) (i : Fin nbuf) :
    ∑ t, (s.thread t).phase.uses i = Fintype.card { t // (s.thread t).phase = .releasing i } +
      s.waiters i := by
  rw [waiters, Fintype.card_subtype, Fintype.card_subtype, Finset.card_filter, Finset.card_filter,
    ← Finset.sum_add_distrib]
  refine Finset.sum_congr rfl fun t _ => ?_
  cases (s.thread t).phase <;> simp [Phase.uses]

variable [DecidableEq T]

theorem holds_some (eq : s.holds t b = some i) :
    s.lock i = some t ∧ (s.cache.buf i).dev = rootdev ∧ (s.cache.buf i).blockno = b := by
  simpa [holds] using find?_some eq

theorem pop_thread (ne : u ≠ t) : (s.pop t).thread u = s.thread u := update_of_ne ne _ _

theorem pop_todo : ((s.pop t).thread t).todo = (s.thread t).todo.tail := by
  simp [pop, setThread]

theorem pop_phase (u : T) : ((s.pop t).thread u).phase = (s.thread u).phase := by
  by_cases same : u = t
  · simp [same, pop, setThread]
  · rw [pop_thread same]

theorem setPhase_todo (s : System T D) (t u : T) (phase : Phase) :
    ((s.setPhase t phase).thread u).todo = (s.thread u).todo := by
  simp only [setPhase, setThread, update_apply]
  split_ifs with mine
  · rw [mine]
  · rfl

theorem pop_eq (empty : (s.thread t).todo = []) : s.pop t = s := by
  have same : { s.thread t with todo := (s.thread t).todo.tail } = s.thread t := by
    rw [empty, tail_nil, ← empty]
  rw [pop, setThread, same, update_eq_self]

section Perform

/-- The commands that change the log in memory. -/
def Logs : Cmd D → Bool
  | .logWrite _ | .beginOp | .endOp | .clear | .finish => true
  | _ => false

/-- A command changes its own process only, `endOp` alone what is left of `commit`, and few
commands the log. -/
theorem perform_frame (eq : s.perform area t cmd = some s') :
    (∀ u, u ≠ t → s'.thread u = s.thread u) ∧
      (cmd ≠ .endOp → (s'.thread t).todo = (s.thread t).todo) ∧
      (Logs cmd = false → s'.log = s.log) := by
  have other {u : T} {th : Thread D} (ne : u ≠ t) : update s.thread t th u = s.thread u :=
    update_of_ne ne _ _
  have own {th : Thread D} (same : th.todo = (s.thread t).todo) :
      (update s.thread t th t).todo = (s.thread t).todo := by
    rw [update_self, same]
  cases performs eq with
  | bread | brelse => exact ⟨fun u => other, fun _ => own rfl, fun _ => rfl⟩
  | beginOp => exact ⟨fun u => other, fun _ => own rfl, by rintro ⟨⟩⟩
  | endOp | commit => exact ⟨fun u => other, fun ne => absurd rfl ne, by rintro ⟨⟩⟩
  | modify | bwrite | copy | head | bunpin => exact ⟨fun u _ => rfl, fun _ => rfl, fun _ => rfl⟩
  | absorb | pin | clear | finish => exact ⟨fun u _ => rfl, fun _ => rfl, by rintro ⟨⟩⟩

namespace Committing

/-- The process that commits releases only what it has written. -/
theorem released (commits : Committing area.start s t (.brelse b :: body))
    (idle : (s.thread t).phase = .idle) (held : s.holds t b = some i) : s.touched i = false := by
  obtain ⟨lock, -, home⟩ := holds_some held
  by_contra changed
  rcases commits.covered i lock (by simpa using changed) with safe | waiting
  · exact safe.1 home.symm
  · rw [idle] at waiting
    cases waiting

theorem left (commits : Committing area.start s t (cmd :: body)) :
    ((s.pop t).thread t).todo = body ++ [.finish] := by
  rw [pop_todo, commits.todo]
  rfl

/-- The process that commits changes a buffer that it goes on to write. -/
theorem give (commits : Committing area.start s t (cmd :: body)) (idle : (s.thread t).phase = .idle)
    (held : s.holds t b = some i) (after : Cmd.Safe b body) (d : D)
    (kind : (∃ src dst, cmd = .copy src dst) ∨ cmd = .head) :
    Committing area.start ((s.pop t).give i d) t body := by
  have blockno := Core.field Buf.blockno
    (Core.modify_buf s.cache i · fun b => { b with data := d }) rfl
  refine commits.next commits.left (commits.still_clears ?_) (fun k mine changed => .inl ?_) ?_
  · rcases kind with ⟨src, dst, rfl⟩ | rfl <;> simp
  · change Cmd.Safe ((s.cache.modify i fun b => { b with data := d }).buf k).blockno body
    rw [blockno]
    by_cases same : k = i
    · rw [same, (holds_some held).2.2]
      exact after
    · have touched : s.touched k := by
        rw [← changed]
        exact (update_of_ne same _ _).symm
      have safe := commits.safe idle mine touched
      rcases kind with ⟨src, dst, rfl⟩ | rfl <;> exact safe
  · rcases kind with ⟨src, dst, rfl⟩ | rfl <;> rintro b ⟨⟩

end Committing

variable [Fintype T] {owed : List Nat}

/-- A command that leaves the pinned blocks as they are. -/
theorem Core.perform (core : Core init owed s) (idle : (s.thread t).phase = .idle)
    (eq : s.perform area t cmd = some s')
    (released : ∀ b i, cmd = .brelse b → s.holds t b = some i → s.touched i = false)
    (unlogged : ∀ b, cmd ≠ .logWrite b) (pinned : ∀ b, cmd ≠ .bunpin b) : Core init owed s' := by
  have given {i : Fin nbuf} {b : Nat} {d : D} (held : s.holds t b = some i) :
      Core init owed (s.give i d) :=
    core.give (holds_some held).1 (core.valid_of_held idle (holds_some held).1)
  have phases {th : Thread D} (same : th.phase = (s.thread t).phase) (u : T) :
      (update s.thread t th u).phase = (s.thread u).phase := by
    by_cases mine : u = t
    · rw [mine, update_self, same]
    · rw [update_of_ne mine]
  cases performs eq with
  | bread got => exact core.bget idle got
  | modify held | copy _ held | head held => exact given held
  | bwrite held =>
    obtain ⟨lock, -, home⟩ := holds_some held
    exact core.bwrite lock (core.valid_of_held idle lock) home
  | absorb | pin => exact absurd rfl (unlogged _)
  | bunpin => exact absurd rfl (pinned _)
  | brelse held => exact core.brelse idle (holds_some held).1 (released _ _ rfl held)
  | beginOp | endOp | commit => exact core.congr rfl rfl rfl (phases rfl) rfl rfl rfl
  | clear | finish => exact core.congr rfl rfl rfl (fun _ => rfl) rfl rfl rfl

/-- `log_write`, with the blocks in the log pinned. -/
theorem Core.logWrite (core : Core init s.log.lh s) (idle : (s.thread t).phase = .idle)
    (eq : s.perform area t (.logWrite b) = some s') : Core init s'.log.lh s' := by
  cases performs eq with
  | absorb _ held old =>
    obtain ⟨lock, -, home⟩ := holds_some held
    exact core.absorb lock (core.valid_of_held idle lock) (by rwa [home])
  | pin _ held new =>
    obtain ⟨lock, -, home⟩ := holds_some held
    exact (core.pin lock (core.valid_of_held idle lock) home new).congr rfl rfl rfl (fun _ => rfl)
      rfl rfl rfl

theorem Aside.bget (core : Core init owed s) (got : s.cache.bget rootdev b = some (i, cache))
    (ne : v ≠ t) : Aside v s ({ s with cache := cache }.setPhase t (.waiting i)) :=
  ⟨update_of_ne ne _ _, rfl, fun _ => id, fun _ _ => rfl,
    fun _ yours => bget_buf (core.held_busy yours) got, fun _ _ _ => rfl⟩

/-- A command of another process during `commit`. -/
theorem Aside.perform (core : Core init owed s) (eq : s.perform area t cmd = some s')
    (client : cmd.client) (ne : v ≠ t) (commits : s.log.committing = some v)
    (closed : s.log.outstanding ≤ 0) : Aside v s s' := by
  have apart {i k : Fin nbuf} (mine : s.lock i = some t) (yours : s.lock k = some v) : k ≠ i := by
    rintro rfl
    rw [mine] at yours
    cases yours
    exact ne rfl
  have gives {i : Fin nbuf} {b : Nat} {d : D} (held : s.holds t b = some i) :
      Aside v s (s.give i d) := by
    have mine := (holds_some held).1
    refine ⟨rfl, rfl, fun k => id, fun k yours => ?_, fun k yours => ⟨(s.cache.buf k).refcnt, ?_⟩,
      fun k _ _ => rfl⟩
    · exact update_of_ne (apart mine yours) _ _
    · exact (Core.modify_buf s.cache i k fun b => { b with data := d }).trans
        (if_neg (apart mine yours))
  cases performs eq with
  | bread got => exact .bget core got ne
  | modify held => exact gives held
  | bwrite held =>
    obtain ⟨mine, dev, home⟩ := holds_some held
    refine ⟨rfl, rfl, fun k => id, fun k yours => ?_, fun k yours => ⟨_, rfl⟩,
      fun k yours root => ?_⟩
    · exact update_of_ne (apart mine yours) _ _
    · refine update_of_ne (fun same => apart mine yours ?_) _ _
      exact core.distinct dev root (same.trans home.symm)
  | absorb opened | pin opened => omega
  | @brelse b i held =>
    refine ⟨update_of_ne ne _ _, rfl, fun k yours => ?_, fun k _ => rfl,
      fun k yours => ⟨_, rfl⟩, fun k _ _ => rfl⟩
    have lock := (Core.setLock_lock s i k none).symm.trans yours
    split_ifs at lock
    exact lock
  | beginOp free | endOp free | commit free =>
    rw [free] at commits
    cases commits
  | copy | head | bunpin | clear | finish => cases client

namespace Committing

/-- The process that commits reads a block.  When it has changed its buffer before `commit`
it waits for itself. -/
theorem bread (core : Core init owed s) (commits : Committing area.start s t (.bread b :: body))
    (idle : (s.thread t).phase = .idle) (got : s.cache.bget rootdev b = some (i, cache)) :
    Committing area.start ({ s.pop t with cache := cache }.setPhase t (.waiting i)) t body := by
  refine commits.next ?_ (commits.still_clears (by simp)) (fun k mine changed => ?_) (by simp)
  · refine Eq.trans ?_ commits.left
    simp [setPhase, setThread]
  · have used := core.held_busy mine
    have root := core.device k (.inr used)
    obtain ⟨n, same⟩ := bget_buf used got
    have blockno : (cache.buf k).blockno = (s.cache.buf k).blockno := by rw [same]
    rcases commits.safe idle mine changed with this | safe
    · obtain ⟨dev, home⟩ := bget_hit core.lru root this.symm got
      rw [core.distinct dev root (this.symm.trans home.symm)]
      exact .inr (by simp [setPhase, setThread])
    · exact .inl (by rwa [← blockno] at safe)

/-- A command of the process that commits. -/
theorem perform (core : Core init owed s) (commits : Committing area.start s t (cmd :: body))
    (idle : (s.thread t).phase = .idle) (eq : (s.pop t).perform area t cmd = some s') :
    Committing area.start s' t body := by
  have tidy := commits.tidy.1
  cases performs eq with
  | modify | absorb | pin | beginOp | endOp | commit | finish => cases tidy
  | bread got => exact commits.bread core idle got
  | copy _ held => exact commits.give idle held tidy _ (.inl ⟨_, _, rfl⟩)
  | head held => exact commits.give idle held tidy _ (.inr rfl)
  | @bwrite b i held =>
    obtain ⟨lock, dev, home⟩ := holds_some held
    refine commits.next commits.left (commits.still_clears (by simp))
      (fun k mine changed => .inl ?_) fun b' same => ?_
    · have ne : k ≠ i := by
        rintro rfl
        simp [setTouched] at changed
      have touched : s.touched k := by
        rw [← changed]
        exact (update_of_ne ne _ _).symm
      refine (commits.safe idle mine touched).resolve_left fun same => ne ?_
      exact core.distinct dev (core.device k (.inr (core.held_busy mine)))
        (same.symm.trans home.symm)
    · cases same
      refine ⟨by rw [← idle]; exact pop_phase t, fun k mine root same => ?_⟩
      have : k = i := core.distinct dev root (same.trans home.symm)
      rw [this]
      exact (update_self b (s.cache.buf i).data s.disk).symm
  | @brelse b i held =>
    refine commits.next ?_ (commits.still_clears (by simp)) (fun k mine changed => .inl ?_)
      (by simp)
    · refine Eq.trans ?_ commits.left
      simp [setPhase, setThread, setLock]
    · have lock := (Core.setLock_lock s i k none).symm.trans mine
      split_ifs at lock
      exact (commits.safe idle lock changed).2
  | @bunpin b i held =>
    refine commits.next commits.left (commits.still_clears (by simp))
      (fun k mine changed => .inl ?_) (by simp)
    have blockno := Core.field Buf.blockno
      (Core.modify_buf s.cache i · fun b => { b with refcnt := b.refcnt - 1 }) rfl k
    have safe := commits.safe idle mine changed
    rw [← blockno] at safe
    exact safe
  | clear =>
    exact commits.next commits.left (.inr rfl)
      (fun k mine changed => .inl (commits.safe idle mine changed)) (by simp)

end Committing

end Perform

/-- A process outside `commit` releases only buffers whose changes it has written or logged. -/
def Disciplined (s : System T D) : T × Cmd D → Prop
  | (t, .brelse b) => (s.thread t).phase = .idle → (s.thread t).todo = [] →
      ∀ i, s.holds t b = some i → s.touched i = false
  | _ => True

instance (s : System T D) : (label : T × Cmd D) → Decidable (s.Disciplined label)
  | (t, .brelse b) => inferInstanceAs (Decidable ((s.thread t).phase = .idle →
      (s.thread t).todo = [] → ∀ i, s.holds t b = some i → s.touched i = false))
  | (_, .bread _) | (_, .modify _ _) | (_, .bwrite _) | (_, .logWrite _) | (_, .beginOp)
  | (_, .endOp) | (_, .copy _ _) | (_, .head) | (_, .bunpin _) | (_, .clear) | (_, .finish) =>
    isTrue trivial

namespace Inv

variable [Fintype T]

/-- A step that leaves the log and the commands of `commit` as they are. -/
theorem inside (inv : Inv area init s) (core : Core init s.owed s')
    (todo : ∀ u, (s'.thread u).todo = (s.thread u).todo) (log : s'.log = s.log)
    (aside : ∀ v, v ≠ t → Aside v s s') (busy : (s.thread t).phase ≠ .idle)
    (held : ∀ i, s'.lock i = some t → s'.touched i → s.lock i = some t ∧ s.touched i ∧
      (s'.cache.buf i).blockno = (s.cache.buf i).blockno ∧ (s.thread t).phase ≠ .waiting i) :
    Inv area init s' := by
  have owed : s'.owed = s.owed := by simp only [owed, log, todo]
  refine inv.keeps (by rw [log]) (by rw [log]) (owed ▸ core) (fun u _ => todo u) fun u same => ?_
  obtain ⟨body, commits⟩ := inv.commits u same
  refine ⟨body, ?_⟩
  by_cases mine : u = t
  · subst mine
    exact commits.inside busy (todo u) log held
  · exact commits.aside (aside u mine)

theorem acquired (inv : Inv area init s) (wait : (s.thread t).phase = .waiting i)
    (eq : s.acquired t i = some s') : Inv area init s' := by
  have core := inv.core.acquired wait eq
  unfold System.acquired at eq
  split_ifs at eq with free valid
  all_goals
    cases eq
    refine inv.inside (t := t) core (setPhase_todo _ t · _) rfl (fun v ne => ?_) (by simp [wait])
      fun k held changed => ?_
    · refine ⟨update_of_ne ne _ _, rfl, fun k yours => ?_, fun k _ => rfl,
        fun k _ => ⟨_, rfl⟩, fun k _ _ => rfl⟩
      have lock := (Core.setLock_lock s i k (some t)).symm.trans yours
      split_ifs at lock
      · exact absurd (some.inj lock).symm ne
      · exact lock
    · have ne : k ≠ i := by
        rintro rfl
        exact inv.core.touched k changed free
      have lock := (Core.setLock_lock s i k (some t)).symm.trans held
      rw [if_neg ne] at lock
      refine ⟨lock, changed, rfl, ?_⟩
      rw [wait]
      rintro ⟨⟩
      exact ne rfl

theorem filled (inv : Inv area init s) (filling : (s.thread t).phase = .filling i) :
    Inv area init (s.filled t i) := by
  have mine := (inv.core.filling i t filling).1
  have bufs := (Core.modify_buf s.cache i · fun b =>
    { b with data := s.disk b.blockno, valid := true })
  refine inv.inside (t := t) (inv.core.filled filling) (setPhase_todo _ t · _) rfl (fun v ne => ?_)
    (by simp [filling]) fun k held changed => ⟨held, changed, ?_, by simp [filling]⟩
  · refine ⟨update_of_ne ne _ _, rfl, fun k => id, fun k _ => rfl,
      fun k yours => ⟨(s.cache.buf k).refcnt, (bufs k).trans (if_neg ?_)⟩, fun k _ _ => rfl⟩
    rintro rfl
    rw [mine] at yours
    exact ne (some.inj yours).symm
  · exact Core.field Buf.blockno bufs rfl k

theorem released (inv : Inv area init s) (leaving : (s.thread t).phase = .releasing i) :
    Inv area init ({ s with cache := s.cache.brelse i }.setPhase t .idle) := by
  have bufs (k : Fin nbuf) :
      ∃ n, (s.cache.brelse i).buf k = { s.cache.buf k with refcnt := n } := by
    refine ⟨if k = i then (s.cache.buf i).refcnt - 1 else (s.cache.buf k).refcnt, ?_⟩
    rw [Bcache.brelse]
    split_ifs <;> simp [Core.modify_buf, *]
  refine inv.inside (t := t) (inv.core.released leaving) (setPhase_todo _ t · _) rfl
    (fun v ne => ?_)
    (by simp [leaving]) fun k held changed => ⟨held, changed, ?_, by simp [leaving]⟩
  · exact ⟨update_of_ne ne _ _, rfl, fun k => id, fun k _ => rfl, fun k _ => bufs k,
      fun k _ _ => rfl⟩
  · obtain ⟨n, eq⟩ := bufs k
    exact (congrArg Buf.blockno eq :)

section

variable (inv : Inv area init s) (idle : (s.thread t).phase = .idle)
  (eq : s.perform area t cmd = some s') (allowed : cmd.client)
  (released : ∀ b i, cmd = .brelse b → s.holds t b = some i → s.touched i = false)
include inv idle eq allowed released

/-- A command of a process while nobody commits. -/
theorem client (free : s.log.committing = none) : Inv area init s' := by
  have core : Core init s.log.lh s := by
    have owed : s.owed = s.log.lh := by simp only [owed, free]
    rw [← owed]
    exact inv.core
  obtain ⟨others, own, log⟩ := perform_frame eq
  have todo (ne : cmd ≠ .endOp) (u : T) : (s'.thread u).todo = (s.thread u).todo := by
    by_cases mine : u = t
    · rw [mine]
      exact own ne
    · rw [others u mine]
  have plain (unlogged : Logs cmd = false) : Inv area init s' := by
    have same := log unlogged
    refine inv.opened free (by rw [same, free]) ?_ (todo ?_)
    · rw [same]
      refine core.perform idle eq released ?_ ?_
      · rintro b rfl
        cases unlogged
      · rintro b rfl
        cases allowed
    · rintro rfl
      cases unlogged
  cases performs eq with
  | bread | modify | bwrite | brelse => exact plain rfl
  | copy | head | bunpin | clear | finish => cases allowed
  | absorb | pin => exact inv.opened free free (core.logWrite idle eq) (todo (by simp))
  | beginOp =>
    exact inv.opened free free (core.perform idle eq released (by simp) (by simp)) (todo (by simp))
  | commit _ last =>
    exact inv.enters (t := t) free (core.perform idle eq released (by simp) (by simp)) others
      (by simp [setThread]) rfl last
  | endOp =>
    refine inv.opened free free (core.perform idle eq released (by simp) (by simp)) fun u => ?_
    by_cases mine : u = t
    · rw [mine, inv.quiet t (by simp [free])]
      simp [setThread]
    · rw [others u mine]

/-- A command of another process during `commit`. -/
theorem during (commits : s.log.committing = some v) (ne : v ≠ t) : Inv area init s' := by
  have aside : Aside v s s' := .perform inv.core eq allowed ne commits (inv.closed v commits)
  obtain ⟨body, committing⟩ := inv.commits v commits
  obtain ⟨others, own, -⟩ := perform_frame eq
  have kept : ∀ b, cmd ≠ .logWrite b := by
    rintro b rfl
    have closed := inv.closed v commits
    cases performs eq <;> omega
  have core := inv.core.perform idle eq released kept (by rintro b rfl; cases allowed)
  have ends : cmd ≠ .endOp := by
    rintro rfl
    cases performs eq <;> simp_all
  have owed : s'.owed = s.owed := by simp only [owed, aside.log, commits, aside.thread]
  refine inv.keeps (by rw [aside.log]) (by rw [aside.log]) (owed ▸ core) (fun u _ => ?_)
    fun u same => ?_
  · by_cases mine : u = t
    · rw [mine, own ends]
    · rw [others u mine]
  · rw [commits] at same
    cases same
    exact ⟨body, committing.aside aside⟩

end

section

variable (inv : Inv area init s) (committing : s.log.committing = some t)

include inv committing

/-- The last command of `commit`. -/
theorem finish (commits : Committing area.start s t []) :
    Inv area init { s.pop t with log := { s.log with committing := none } } := by
  have empty : s.log.lh = [] := commits.clears.resolve_left (by simp)
  have core := inv.core
  have owed : s.owed = [] := by
    simp only [owed, committing, commits.todo]
    rfl
  rw [owed] at core
  refine ⟨?_, fun u _ => ?_, (by rintro u ⟨⟩), (by rintro u ⟨⟩)⟩
  · change Core init s.log.lh _
    rw [empty]
    exact core.congr rfl rfl rfl pop_phase rfl rfl rfl
  · change ((s.pop t).thread u).todo = []
    by_cases mine : u = t
    · rw [mine, pop_todo, commits.todo]
      rfl
    · rw [pop_thread mine]
      refine inv.quiet u fun same => mine ?_
      rw [committing] at same
      exact (some.inj same).symm

/-- A command of the process that commits. -/
theorem commit (commits : Committing area.start s t (cmd :: body))
    (idle : (s.thread t).phase = .idle) (eq : (s.pop t).perform area t cmd = some s') :
    Inv area init s' := by
  obtain ⟨others, -, log⟩ := perform_frame eq
  have core : Core init (unpins (cmd :: body ++ [.finish])) s := by
    have owed : s.owed = unpins (cmd :: body ++ [.finish]) := by
      simp only [owed, committing, commits.todo]
    rw [← owed]
    exact inv.core
  have popped : Core init (unpins (cmd :: body ++ [.finish])) (s.pop t) :=
    core.congr rfl rfl rfl pop_phase rfl rfl rfl
  have idle' : ((s.pop t).thread t).phase = .idle := by rw [pop_phase, idle]
  refine inv.proceeds committing ?_ (fun u ne => (others u ne).trans (pop_thread ne)) ?_
    (commits.perform core idle eq)
  · by_cases clear : cmd = .clear
    · subst clear
      cases eq
      exact ⟨rfl, rfl⟩
    · have tidy := commits.tidy.1
      rw [log (by cases cmd <;> first | rfl | exact absurd rfl clear | cases tidy)]
      exact ⟨rfl, rfl⟩
  · have released (b : Nat) (i : Fin nbuf) (same : cmd = .brelse b)
        (held : (s.pop t).holds t b = some i) : (s.pop t).touched i = false := by
      subst same
      exact commits.released idle held
    by_cases unpin : ∃ b, cmd = .bunpin b
    · obtain ⟨b, rfl⟩ := unpin
      cases performs eq with
      | @bunpin _ i held =>
      obtain ⟨lock, dev, home⟩ := holds_some held
      exact popped.bunpin lock (popped.valid_of_held idle' lock) home
        ((commits.written b body rfl).2 i lock dev home)
    · have kept : unpins (cmd :: body ++ [.finish]) = unpins (body ++ [.finish]) := by
        cases cmd <;> first | rfl | exact absurd ⟨_, rfl⟩ unpin
      rw [kept] at popped
      refine popped.perform idle' eq released ?_ fun b same => unpin ⟨b, same⟩
      rintro b rfl
      exact commits.tidy.1

end

/-- A step of a process. -/
theorem step {label : T × Cmd D} (inv : Inv area init s) (disciplined : s.Disciplined label)
    (eq : s.step area label = some s') : Inv area init s' := by
  obtain ⟨t, chosen⟩ := label
  simp only [System.step] at eq
  split at eq
  case h_1 i wait => exact inv.acquired wait eq
  case h_2 i filling =>
    cases eq
    exact inv.filled filling
  case h_3 i leaving =>
    cases eq
    exact inv.released leaving
  case h_4 idle =>
    obtain ⟨cmd, command, eq⟩ := bind_eq_some_iff.1 eq
    by_cases mine : s.log.committing = some t
    · obtain ⟨body, commits⟩ := inv.commits t mine
      cases body with
      | nil =>
        have last : cmd = .finish := by
          simp only [System.command, commits.todo] at command
          exact (some.inj command).symm
        subst last
        cases eq
        exact inv.finish mine commits
      | cons c body =>
        have next : cmd = c := by
          simp only [System.command, commits.todo] at command
          exact (some.inj command).symm
        subst next
        exact inv.commit mine commits idle eq
    · have empty := inv.quiet t mine
      rw [System.command, empty] at command
      simp only at command
      split_ifs at command with client
      cases command
      rw [pop_eq empty] at eq
      have released (b : Nat) (i : Fin nbuf) (same : chosen = .brelse b)
          (held : s.holds t b = some i) : s.touched i = false := by
        subst same
        exact disciplined idle empty i held
      cases committing : s.log.committing with
      | none => exact inv.client idle eq client released committing
      | some v =>
        refine inv.during idle eq client released committing fun same => mine ?_
        rw [committing, same]

end Inv

end System

/-- In every run in which a process writes or logs what it changes before it releases it, a
block has one buffer, a buffer counts its holders, waiters and pins, and every `bread` has
returned what the block was last given, whatever was recycled in between. -/
theorem cache_transparent [DecidableEq T] [Fintype T] {area : Area D} {zero : D} {init : Nat → D}
    {run : List (T × Cmd D)} {s : System T D}
    (runs : exec (System.step area) (boot T zero init) run = some s)
    (disciplined : Transitions.Meets (System.step area) System.Disciplined
      (boot T zero init) run) :
    (∀ i j, (s.cache.buf i).dev ≠ 0 → (s.cache.buf i).dev = (s.cache.buf j).dev →
      (s.cache.buf i).blockno = (s.cache.buf j).blockno → i = j) ∧
    (∀ i, (s.cache.buf i).refcnt = s.holders i + s.waiters i + s.pins i) ∧
    ∀ b d older, .read b d :: older <:+ s.events → d = latest init older b := by
  have inv : s.Inv area init := run_meets_invariant (System.Inv area init)
    (fun _ _ _ inv cond taken => inv.step cond taken) (.boot zero) disciplined runs
  refine ⟨inv.core.unique, fun i => ?_, inv.core.past⟩
  have count := inv.core.refcnt i
  have uses := s.sum_uses_eq i
  rw [holders]
  omega

/-- Process `t` changes block 7 in a transaction and commits it; process `u` reads other
blocks through all buffers, and then block 7. -/
def evictRun (t u : T) (others : List Nat) : List (T × Cmd Nat) :=
  flatten [[(t, .beginOp)], replicate 3 (t, .bread 7),
    [(t, .modify 7 1), (t, .logWrite 7)], replicate 2 (t, .brelse 7),
    replicate 38 (t, .endOp),
    (others.map fun b => replicate 3 (u, .bread b) ++ replicate 2 (u, .brelse b)).flatten,
    replicate 3 (u, .bread 7)]

/-- The header of a log, for blocks that hold a number. -/
def countArea : Area Nat := ⟨2, 30, fun lh _ => lh.length⟩

/-- A committed block is recycled, and read back from the disk as it was changed. -/
theorem cache_transparent_evicted : ∃ (s : System Bool Nat) (older : List (Event Nat)),
    exec (System.step countArea) (boot Bool 0 fun _ => 0)
      (evictRun false true (range' 100 30)) = some s ∧
    s.events = .read 7 1 :: older ∧ latest (fun _ => 0) older 7 = 1 := by
  have disciplined : Transitions.Meets (System.step countArea) System.Disciplined
      (boot Bool 0 fun _ => 0) (evictRun false true (range' 100 30)) := by
    decide +kernel
  obtain ⟨s, run, head⟩ : ∃ s, exec (System.step countArea) (boot Bool 0 fun _ => 0)
      (evictRun false true (range' 100 30)) = some s ∧ s.events.head? = some (.read 7 1) :=
    exists_exec _ (by decide +kernel) fun _ _ => id
  obtain ⟨older, events⟩ := head?_eq_some_iff.1 head
  refine ⟨s, older, run, events, ?_⟩
  exact ((cache_transparent run disciplined).2.2 7 1 older (by rw [events])).symm

end Xv6.Fs
