import Xv6.Spaces
import Xv6.Fs.Transparent

/-!
# The buffers can run out

`NBUF` is chosen for the log: a transaction pins at most `LOGSIZE` blocks.  But a process that
reads has a buffer while it waits for the disk, whether it is in a transaction or not, and there
are more processes than buffers: when `NBUF` of them wait for different blocks, the next `bread`
panics.

A buffer is referenced by the process that has its lock, by those that wait for the lock or are
about to give up their reference, and by the log.  While there are fewer references than
buffers, `bget` finds one.
-/

namespace Xv6.Fs

open Option Transitions Function List

variable {T D : Type} {area : Area D} {s s' : System T D} {t : T} {i : Fin nbuf}

namespace System

variable [Fintype T]

/-- How often a buffer is referenced. -/
def references (s : System T D) : Nat := ∑ i, (s.holders i + s.waiters i + s.pins i)

/-- A buffer that counts a reference has one. -/
structure Bounded (s : System T D) : Prop where
  lru : ∀ i, i ∈ s.cache.lru
  refcnt : ∀ i, (s.cache.buf i).refcnt ≤
    (if s.lock i = none then 0 else 1) + ∑ t, (s.thread t).phase.uses i + s.pins i

/-- When there are fewer references than buffers, one of the buffers is not in use. -/
theorem Bounded.finds (bounded : s.Bounded) (few : s.references < nbuf) (b : Nat) :
    (s.cache.bget rootdev b).isSome := by
  unfold Bcache.bget
  cases s.cache.cached rootdev b with
  | some k => rfl
  | none =>
    have free : ∃ i, (s.cache.buf i).refcnt = 0 := by
      by_contra busy
      push Not at busy
      have each (i : Fin nbuf) : 1 ≤ s.holders i + s.waiters i + s.pins i := by
        have uses := s.sum_uses_eq i
        have count := bounded.refcnt i
        have used := busy i
        rw [holders]
        omega
      have total : ∑ _i : Fin nbuf, 1 ≤ s.references := Finset.sum_le_sum fun i _ => each i
      rw [Finset.sum_const, Finset.card_univ, Fintype.card_fin, smul_eq_mul, mul_one] at total
      omega
    obtain ⟨i, zero⟩ := free
    have found : s.cache.unused.isSome := by
      rw [Bcache.unused, find?_isSome]
      exact ⟨i, mem_reverse.2 (bounded.lru i), by simpa using zero⟩
    simpa using found

namespace Bounded

theorem boot (zero : D) (disk : Nat → D) : (System.boot T zero disk).Bounded :=
  ⟨by simp [System.boot, Bcache.binit], by simp [System.boot, Bcache.binit]⟩

theorem congr (bounded : s.Bounded) (cache : s'.cache = s.cache) (lock : s'.lock = s.lock)
    (phase : ∀ t, (s'.thread t).phase = (s.thread t).phase) (pins : s'.pins = s.pins) :
    s'.Bounded := by
  constructor
  all_goals simp only [cache, lock, phase, pins]
  · exact bounded.lru
  · exact bounded.refcnt

variable [DecidableEq T] {n p : Nat}

/-- A step that changes the references of buffer `i`. -/
theorem turn {phase : Phase} {holder : Option T} (bounded : s.Bounded)
    (refcnts : ∀ j, (s'.cache.buf j).refcnt = if j = i then n else (s.cache.buf j).refcnt)
    (locks : ∀ j, s'.lock j = if j = i then holder else s.lock j)
    (threads : ∀ u, (s'.thread u).phase = if u = t then phase else (s.thread u).phase)
    (pins : ∀ j, s'.pins j = if j = i then p else s.pins j) (lru : ∀ i, i ∈ s'.cache.lru)
    (elsewhere : ∀ j, j ≠ i → (s.thread t).phase.uses j ≤ phase.uses j)
    (count : n = 0 ∨ n + (if s.lock i = none then 0 else 1) + (s.thread t).phase.uses i + s.pins i ≤
      (s.cache.buf i).refcnt + (if holder = none then 0 else 1) + phase.uses i + p) :
    s'.Bounded := by
  refine ⟨lru, fun j => ?_⟩
  have moved := Core.sum_uses threads j
  have before := bounded.refcnt j
  rw [refcnts, locks, pins]
  by_cases same : j = i
  · subst same
    simp only [if_true]
    rcases count with zero | less
    · omega
    · omega
  · have more := elsewhere j same
    simp only [if_neg same]
    omega

theorem modify_refcnt (c : Bcache D) (i j : Fin nbuf) (f : Buf D → Buf D) :
    ((c.modify i f).buf j).refcnt = if j = i then (f (c.buf i)).refcnt else (c.buf j).refcnt := by
  rw [Core.modify_buf]
  split_ifs <;> rfl

section

variable (bounded : s.Bounded)
include bounded

theorem acquired (wait : (s.thread t).phase = .waiting i)
    (eq : s.acquired t i = some s') : s'.Bounded := by
  unfold System.acquired at eq
  split_ifs at eq with free valid
  all_goals
    cases eq
    refine bounded.turn (i := i) (t := t) (Core.same_at (fun j => (s.cache.buf j).refcnt) i)
      (Core.setLock_lock s i · (some t)) (Core.setPhase_phase (s.setLock i (some t)) t · _)
      (Core.same_at s.pins i) bounded.lru (fun j other => ?_) (.inr ?_)
    · rw [wait, (Core.uses_of_ne other).1]
      exact Nat.zero_le _
    · rw [wait, free]
      simp [Phase.uses]

theorem filled (filling : (s.thread t).phase = .filling i) : (s.filled t i).Bounded := by
  refine bounded.turn (i := i) (t := t) (modify_refcnt s.cache i · fun b =>
      { b with data := s.disk b.blockno, valid := true })
    (Core.same_at s.lock i) (Core.setPhase_phase _ t · .idle) (Core.same_at s.pins i) bounded.lru
    (fun j _ => ?_) (.inr ?_)
  · rw [filling]
    exact Nat.zero_le _
  · rw [filling]
    simp [Phase.uses]

theorem released (leaving : (s.thread t).phase = .releasing i) :
    ({ s with cache := s.cache.brelse i }.setPhase t .idle).Bounded := by
  refine bounded.turn (i := i) (t := t) (n := (s.cache.buf i).refcnt - 1) (fun j => ?_)
    (Core.same_at s.lock i) (Core.setPhase_phase _ t · .idle) (Core.same_at s.pins i)
    (fun j => Core.brelse_lru (bounded.lru j)) (fun j other => ?_) ?_
  · change ((s.cache.brelse i).buf j).refcnt = _
    rw [Bcache.brelse]
    split_ifs <;> simp [Core.modify_buf, *]
  · rw [leaving, (Core.uses_of_ne other).2]
    exact Nat.zero_le _
  · rw [leaving]
    simp only [Phase.uses, if_true]
    omega

theorem bget {cache : Bcache D} {b : Nat}
    (idle : (s.thread t).phase = .idle) (got : s.cache.bget rootdev b = some (i, cache)) :
    ({ s with cache := cache }.setPhase t (.waiting i)).Bounded := by
  have turns {f : Buf D → Buf D} (count : (f (s.cache.buf i)).refcnt ≤ (s.cache.buf i).refcnt + 1) :
      ({ s with cache := s.cache.modify i f }.setPhase t (.waiting i)).Bounded := by
    refine bounded.turn (i := i) (t := t) (modify_refcnt s.cache i · f) (Core.same_at s.lock i)
      (Core.setPhase_phase _ t · (.waiting i)) (Core.same_at s.pins i) bounded.lru
      (fun j _ => ?_) (.inr ?_)
    · rw [idle]
      exact Nat.zero_le _
    · rw [idle]
      simp only [Phase.uses, if_true]
      omega
  obtain ⟨-, rfl⟩ | ⟨-, -, rfl⟩ := Bcache.bget_cases got
  · exact turns le_rfl
  · exact turns (Nat.le_add_left 1 _)

omit [DecidableEq T] in
theorem give (d : D) : (s.give i d).Bounded := by
  refine ⟨bounded.lru, fun j => ?_⟩
  have kept :=
    Core.field Buf.refcnt (Core.modify_buf s.cache i · fun b => { b with data := d }) rfl j
  change ((s.cache.modify i fun b => { b with data := d }).buf j).refcnt ≤ _
  rw [kept]
  exact bounded.refcnt j

omit [DecidableEq T] in
/-- A buffer is pinned or unpinned. -/
theorem repin (cache : s'.cache = s.cache.modify i fun b => { b with refcnt := n })
    (lock : s'.lock = s.lock) (thread : s'.thread = s.thread)
    (pins : s'.pins = update s.pins i p)
    (count : n = 0 ∨ n + s.pins i ≤ (s.cache.buf i).refcnt + p) : s'.Bounded := by
  refine ⟨fun j => ?_, fun j => ?_⟩
  · rw [cache]
    exact bounded.lru j
  · have before := bounded.refcnt j
    rw [cache, lock, thread, pins, modify_refcnt, update_apply]
    by_cases same : j = i
    · subst same
      simp only [if_true]
      omega
    · simp only [if_neg same]
      exact before

theorem perform {cmd : Cmd D} (idle : (s.thread t).phase = .idle)
    (eq : s.perform area t cmd = some s') : s'.Bounded := by
  have own {th : Thread D} (same : th.phase = (s.thread t).phase) (u : T) :
      (update s.thread t th u).phase = (s.thread u).phase := by
    by_cases mine : u = t
    · rw [mine, update_self, same]
    · rw [update_of_ne mine]
  cases performs eq with
  | bread got => exact bounded.bget idle got
  | modify | copy | head => exact bounded.give _
  | bwrite | absorb | clear | finish => exact bounded.congr rfl rfl (fun _ => rfl) rfl
  | pin => exact bounded.repin rfl rfl rfl rfl (.inr (by omega))
  | @brelse b i held =>
    obtain ⟨lock, -, -⟩ := holds_some held
    refine bounded.turn (i := i) (t := t) (Core.same_at (fun j => (s.cache.buf j).refcnt) i)
      (Core.setLock_lock s i · none) (Core.setPhase_phase (s.setLock i none) t · (.releasing i))
      (Core.same_at s.pins i) bounded.lru (fun j _ => ?_) (.inr ?_)
    · rw [idle]
      exact Nat.zero_le _
    · rw [idle, lock]
      simp [Phase.uses]
  | beginOp | endOp | commit => exact bounded.congr rfl rfl (own rfl) rfl
  | bunpin => exact bounded.repin rfl rfl rfl rfl (by omega)

theorem step {label : T × Cmd D} (eq : s.step area label = some s') : s'.Bounded := by
  obtain ⟨t, chosen⟩ := label
  simp only [System.step] at eq
  split at eq
  case h_1 i wait => exact bounded.acquired wait eq
  case h_2 i filling =>
    cases eq
    exact bounded.filled filling
  case h_3 i leaving =>
    cases eq
    exact bounded.released leaving
  case h_4 idle =>
    obtain ⟨cmd, -, eq⟩ := bind_eq_some_iff.1 eq
    have popped : (s.pop t).Bounded := bounded.congr rfl rfl pop_phase rfl
    exact popped.perform ((pop_phase t).trans idle) eq

end

end Bounded

end System

/-- In every state that any processes reach, `bget` finds a buffer for every block while there
are fewer references to buffers than buffers. -/
theorem bget_finds [Fintype T] [DecidableEq T] {zero : D} {disk : Nat → D}
    {run : List (T × Cmd D)}
    (runs : exec (System.step area) (System.boot T zero disk) run = some s)
    (few : s.references < nbuf) (b : Nat) : (s.cache.bget rootdev b).isSome := by
  have bounded : s.Bounded := run_invariant System.Bounded
    (fun _ _ _ bounded taken => bounded.step taken) (.boot zero disk) runs
  exact bounded.finds few b

/-- Processes read a block each, and wait for the disk. -/
def readersRun (ts : List T) : List (T × Cmd Nat) :=
  ts.zipIdx.flatMap fun (t, b) => replicate 2 (t, .bread b)

/-- A process logs two blocks, another one waits for a block that is read, and 25 more processes
read a block each. -/
def busyRun (t : Nat → T) : List (T × Cmd Nat) :=
  (t 0, .beginOp) ::
    [0, 1].flatMap (fun b => replicate 3 (t 0, .bread b) ++ [(t 0, .logWrite b)] ++
      replicate 2 (t 0, .brelse b)) ++
    [(t 1, .bread 2), (t 1, .bread 2), (t 2, .bread 2)] ++
    (range' 3 25).flatMap fun b => replicate 2 (t b, .bread b)

/-- Two pins, a waiter and 26 holders: there is still a buffer for another block. -/
theorem bget_finds_last : ∃ s : System (Fin nproc) Nat,
    exec (System.step countArea) (System.boot (Fin nproc) 0 fun _ => 0)
      (busyRun (Fin.ofNat nproc)) = some s ∧ s.references = nbuf - 1 ∧ ∑ i, s.pins i = 2 ∧
      ∑ i, s.waiters i = 1 ∧ (s.cache.bget rootdev 99).isSome := by
  exact exists_exec (fun s => s.references = nbuf - 1 ∧ ∑ i, s.pins i = 2 ∧
    ∑ i, s.waiters i = 1) (by decide +kernel) fun s run ⟨most, pins, waits⟩ =>
      ⟨most, pins, waits, bget_finds run (by rw [most]; decide) 99⟩

/-- Thirty of the processes read a block each; the next one that reads another block finds no
buffer. -/
theorem bget_exhausted : ∃ s : System (Fin nproc) Nat,
    exec (System.step countArea) (System.boot (Fin nproc) 0 fun _ => 0)
      (readersRun ((finRange nproc).take nbuf)) = some s ∧
    (s.thread 30).phase = .idle ∧ s.log.lh = [] ∧ s.cache.bget rootdev 30 = none := by
  exact exists_exec (fun s => (s.thread 30).phase = .idle ∧ s.log.lh = [] ∧
    (s.cache.bget rootdev 30).isNone) (by decide +kernel) fun s _ ⟨idle, empty, full⟩ =>
      ⟨idle, empty, isNone_iff_eq_none.1 full⟩

end Xv6.Fs
