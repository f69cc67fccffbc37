import Xv6.Lib.Transitions
import Xv6.Param

/-!
# The buffer cache and the log

The buffers of `bio.c` with their sleep locks and the transactions of `log.c`, used by any
number of processes at once.  A step is a section under `bcache.lock` or `log.lock`, a
transfer from or to the disk, or a change of a buffer whose lock the process has; a process
that commits goes through the commands of `commit` one after the other.

The kernel has one disk, and every caller of `bread` passes `ROOTDEV`.  Buffer contents are
of any type `D`; `head` writes a log header into the contents of a buffer.
-/

namespace Xv6.Fs

open Function

abbrev nbuf : Nat := maxopblocks * 3

def rootdev : Nat := 1

structure Buf (D : Type) where
  valid : Bool
  dev : Nat
  blockno : Nat
  refcnt : Nat
  data : D

/-- The buffers, and their list from `head.next` to `head.prev`. -/
structure Bcache (D : Type) where
  buf : Fin nbuf → Buf D
  lru : List (Fin nbuf)

namespace Bcache

variable {D : Type}

def binit (zero : D) : Bcache D :=
  ⟨fun _ => ⟨false, 0, 0, 0, zero⟩, (List.finRange nbuf).reverse⟩

def modify (c : Bcache D) (i : Fin nbuf) (f : Buf D → Buf D) : Bcache D :=
  { c with buf := update c.buf i (f (c.buf i)) }

/-- The buffer of a block that is cached. -/
def cached (c : Bcache D) (dev blockno : Nat) : Option (Fin nbuf) :=
  c.lru.find? fun i => (c.buf i).dev = dev ∧ (c.buf i).blockno = blockno

/-- The least recently used buffer that nobody uses. -/
def unused (c : Bcache D) : Option (Fin nbuf) :=
  c.lru.reverse.find? fun i => (c.buf i).refcnt = 0

/-- `bget` up to `acquiresleep`; it panics when there is no free buffer. -/
def bget (c : Bcache D) (dev blockno : Nat) : Option (Fin nbuf × Bcache D) :=
  match c.cached dev blockno with
  | some i => some (i, c.modify i fun b => { b with refcnt := b.refcnt + 1 })
  | none =>
    c.unused.map fun i => (i, c.modify i fun b =>
      { b with dev := dev, blockno := blockno, valid := false, refcnt := 1 })

/-- `brelse` after `releasesleep`. -/
def brelse (c : Bcache D) (i : Fin nbuf) : Bcache D :=
  let less := c.modify i fun b => { b with refcnt := b.refcnt - 1 }
  if (less.buf i).refcnt = 0 then { less with lru := i :: less.lru.erase i } else less

def bpin (c : Bcache D) (i : Fin nbuf) : Bcache D :=
  c.modify i fun b => { b with refcnt := b.refcnt + 1 }

def bunpin (c : Bcache D) (i : Fin nbuf) : Bcache D :=
  c.modify i fun b => { b with refcnt := b.refcnt - 1 }

end Bcache

/-- The log in memory: the block numbers of the header, and the process that commits while
`committing` is set. -/
structure Log (T : Type) where
  lh : List Nat
  outstanding : Int
  committing : Option T

namespace Log

variable {T : Type}

/-- `begin_op`, when it does not sleep. -/
def beginOp (l : Log T) : Option (Log T) :=
  if l.committing.isSome then none
  else if l.lh.length + (l.outstanding + 1) * maxopblocks > logsize then none
  else some { l with outstanding := l.outstanding + 1 }

/-- The capacity test of `log_write`. -/
def full (l : Log T) (size : Int) : Bool := l.lh.length ≥ (logsize : Int) ∨ l.lh.length ≥ size - 1

/-- `log_write`, when it does not panic, and whether the block is new and has to be pinned. -/
def write (l : Log T) (size : Int) (blockno : Nat) : Option (Log T × Bool) :=
  if l.full size then none
  else if l.outstanding < 1 then none
  else if blockno ∈ l.lh then some (l, false)
  else some ({ l with lh := l.lh ++ [blockno] }, true)

/-- `end_op` up to `commit`, when it does not panic, and whether it commits. -/
def endOp (l : Log T) (t : T) : Option (Log T × Bool) :=
  if l.committing.isSome then none
  else if l.outstanding - 1 = 0 then
    some ({ l with outstanding := l.outstanding - 1, committing := some t }, true)
  else some ({ l with outstanding := l.outstanding - 1 }, false)

end Log

/-- What a process does with buffers.  The commands after `endOp` occur only in `commit`. -/
inductive Cmd (D : Type)
  | bread (b : Nat)
  | modify (b : Nat) (d : D)
  | bwrite (b : Nat)
  | logWrite (b : Nat)
  | brelse (b : Nat)
  | beginOp
  | endOp
  /-- `memmove(dst->data, src->data, BSIZE)`. -/
  | copy (src dst : Nat)
  /-- The header is written into the buffer of the first block of the log. -/
  | head
  | bunpin (b : Nat)
  /-- `log.lh.n = 0`. -/
  | clear
  /-- `log.committing = 0`. -/
  | finish

namespace Cmd

variable {D : Type}

/-- A command that any process may give at any time. -/
def client : Cmd D → Bool
  | .bread _ | .modify _ _ | .bwrite _ | .logWrite _ | .brelse _ | .beginOp | .endOp => true
  | _ => false

/-- One round of `write_log`, for a log block and a cached block. -/
def writeLogRound (dst src : Nat) : List (Cmd D) :=
  [.bread dst, .bread src, .copy src dst, .bwrite dst, .brelse src, .brelse dst]

/-- One round of `install_trans`, when it is not called for recovery. -/
def installRound (lbuf dbuf : Nat) : List (Cmd D) :=
  [.bread lbuf, .bread dbuf, .copy lbuf dbuf, .bwrite dbuf, .bunpin dbuf, .brelse lbuf,
    .brelse dbuf]

/-- A loop over the header: the block `start + tail + 1` of the log goes with `block[tail]`. -/
def rounds (round : Nat → Nat → List (Cmd D)) (start tail : Nat) : List Nat → List (Cmd D)
  | [] => []
  | b :: bs => round (start + tail + 1) b ++ rounds round start (tail + 1) bs

def writeLog (start : Nat) (lh : List Nat) : List (Cmd D) := rounds writeLogRound start 0 lh

def writeHead (start : Nat) : List (Cmd D) := [.bread start, .head, .bwrite start, .brelse start]

def installTrans (start : Nat) (lh : List Nat) : List (Cmd D) := rounds installRound start 0 lh

/-- `commit` and the end of `end_op`. -/
def commit (start : Nat) (lh : List Nat) : List (Cmd D) :=
  (if lh = [] then []
    else writeLog start lh ++ (writeHead start ++ (installTrans start lh ++
      (.clear :: writeHead start)))) ++ [.finish]

end Cmd

/-- Where a process is inside `bread` or `brelse`. -/
inductive Phase
  | idle
  /-- In `acquiresleep`. -/
  | waiting (i : Fin nbuf)
  /-- Before the transfer from the disk. -/
  | filling (i : Fin nbuf)
  /-- After `releasesleep`. -/
  | releasing (i : Fin nbuf)
deriving DecidableEq

structure Thread (D : Type) where
  phase : Phase
  /-- What is left of `commit`. -/
  todo : List (Cmd D)
  /-- Between `begin_op` and `end_op`. -/
  op : Bool

/-- What a block was read as, and what was written into its buffer. -/
inductive Event (D : Type)
  | read (b : Nat) (d : D)
  | gave (b : Nat) (d : D)
deriving DecidableEq

/-- The first block of the log, its size, and the format of its header. -/
structure Area (D : Type) where
  start : Nat
  size : Int
  head : List Nat → D → D

structure System (T D : Type) where
  cache : Bcache D
  lock : Fin nbuf → Option T
  disk : Nat → D
  log : Log T
  thread : T → Thread D
  /-- Buffers that have been changed and not been passed to `bwrite` or `log_write` since. -/
  touched : Fin nbuf → Bool
  /-- How often a buffer has been pinned and not been unpinned. -/
  pins : Fin nbuf → Nat
  events : List (Event D)

namespace System

variable {T D : Type} [DecidableEq T]

def setThread (s : System T D) (t : T) (th : Thread D) : System T D :=
  { s with thread := update s.thread t th }

def setPhase (s : System T D) (t : T) (phase : Phase) : System T D :=
  s.setThread t { s.thread t with phase := phase }

def setLock (s : System T D) (i : Fin nbuf) (holder : Option T) : System T D :=
  { s with lock := update s.lock i holder }

def setTouched (s : System T D) (i : Fin nbuf) (touched : Bool) : System T D :=
  { s with touched := update s.touched i touched }

def setPins (s : System T D) (i : Fin nbuf) (n : Nat) : System T D :=
  { s with pins := update s.pins i n }

/-- The buffer of a block whose lock the process has. -/
def holds (s : System T D) (t : T) (b : Nat) : Option (Fin nbuf) :=
  (List.finRange nbuf).find? fun i =>
    s.lock i = some t ∧ (s.cache.buf i).dev = rootdev ∧ (s.cache.buf i).blockno = b

/-- A change of the contents of a buffer. -/
def give (s : System T D) (i : Fin nbuf) (d : D) : System T D :=
  { s.setTouched i true with
    cache := s.cache.modify i fun b => { b with data := d }
    events := .gave (s.cache.buf i).blockno d :: s.events }

/-- `bread` returns. -/
def returned (s : System T D) (t : T) (i : Fin nbuf) : System T D :=
  { s.setPhase t .idle with
    events := .read (s.cache.buf i).blockno (s.cache.buf i).data :: s.events }

/-- The process gets the sleep lock it waits for. -/
def acquired (s : System T D) (t : T) (i : Fin nbuf) : Option (System T D) :=
  if s.lock i = none then
    if (s.cache.buf i).valid then some ((s.setLock i (some t)).returned t i)
    else some ((s.setLock i (some t)).setPhase t (.filling i))
  else none

/-- The transfer from the disk. -/
def filled (s : System T D) (t : T) (i : Fin nbuf) : System T D :=
  let read := { s with cache := s.cache.modify i fun b =>
    { b with data := s.disk b.blockno, valid := true } }
  read.returned t i

/-- The first step of a command. -/
def perform (area : Area D) (s : System T D) (t : T) : Cmd D → Option (System T D)
  | .bread b =>
    (s.cache.bget rootdev b).map fun (i, cache) =>
      { s with cache := cache }.setPhase t (.waiting i)
  | .modify b d => (s.holds t b).map fun i => s.give i d
  | .bwrite b =>
    (s.holds t b).map fun i =>
      { s.setTouched i false with disk := update s.disk b (s.cache.buf i).data }
  | .logWrite b =>
    (s.holds t b).bind fun i =>
      (s.log.write area.size b).map fun (log, new) =>
        if new then
          { (s.setTouched i false).setPins i (s.pins i + 1) with
            log := log, cache := s.cache.bpin i }
        else { s.setTouched i false with log := log }
  | .brelse b => (s.holds t b).map fun i => (s.setLock i none).setPhase t (.releasing i)
  | .beginOp =>
    if (s.thread t).op then none
    else s.log.beginOp.map fun log => { s.setThread t { s.thread t with op := true } with
      log := log }
  | .endOp =>
    if (s.thread t).op then
      (s.log.endOp t).map fun (log, doCommit) =>
        { s.setThread t
            { s.thread t with
              op := false
              todo := if doCommit then Cmd.commit area.start s.log.lh else [] } with
          log := log }
    else none
  | .copy src dst =>
    (s.holds t src).bind fun i =>
      (s.holds t dst).map fun j => s.give j (s.cache.buf i).data
  | .head =>
    (s.holds t area.start).map fun i => s.give i (area.head s.log.lh (s.cache.buf i).data)
  | .bunpin b =>
    (s.holds t b).map fun i =>
      { s.setPins i (s.pins i - 1) with cache := s.cache.bunpin i }
  | .clear => some { s with log := { s.log with lh := [] } }
  | .finish => some { s with log := { s.log with committing := none } }

/-- What the first step of each command does when it succeeds. -/
inductive Performs (area : Area D) (s : System T D) (t : T) : Cmd D → System T D → Prop
  | bread {b i cache} (got : s.cache.bget rootdev b = some (i, cache)) :
    Performs area s t (.bread b) ({ s with cache := cache }.setPhase t (.waiting i))
  | modify {b i d} (held : s.holds t b = some i) : Performs area s t (.modify b d) (s.give i d)
  | bwrite {b i} (held : s.holds t b = some i) : Performs area s t (.bwrite b)
      { s.setTouched i false with disk := update s.disk b (s.cache.buf i).data }
  | absorb {b i} (opened : 1 ≤ s.log.outstanding) (held : s.holds t b = some i)
      (old : b ∈ s.log.lh) : Performs area s t (.logWrite b) (s.setTouched i false)
  | pin {b i} (opened : 1 ≤ s.log.outstanding) (held : s.holds t b = some i)
      (new : b ∉ s.log.lh) : Performs area s t (.logWrite b)
      { (s.setTouched i false).setPins i (s.pins i + 1) with
        log := { s.log with lh := s.log.lh ++ [b] }
        cache := s.cache.bpin i }
  | brelse {b i} (held : s.holds t b = some i) :
    Performs area s t (.brelse b) ((s.setLock i none).setPhase t (.releasing i))
  | beginOp (free : s.log.committing = none) : Performs area s t .beginOp
      { s.setThread t { s.thread t with op := true } with
        log := { s.log with outstanding := s.log.outstanding + 1 } }
  | endOp (free : s.log.committing = none) : Performs area s t .endOp
      { s.setThread t { s.thread t with op := false, todo := [] } with
        log := { s.log with outstanding := s.log.outstanding - 1 } }
  | commit (free : s.log.committing = none) (last : s.log.outstanding - 1 = 0) :
    Performs area s t .endOp
      { s.setThread t { s.thread t with op := false, todo := Cmd.commit area.start s.log.lh } with
        log := { s.log with outstanding := s.log.outstanding - 1, committing := some t } }
  | copy {src dst i j} (source : s.holds t src = some i) (held : s.holds t dst = some j) :
    Performs area s t (.copy src dst) (s.give j (s.cache.buf i).data)
  | head {i} (held : s.holds t area.start = some i) :
    Performs area s t .head (s.give i (area.head s.log.lh (s.cache.buf i).data))
  | bunpin {b i} (held : s.holds t b = some i) : Performs area s t (.bunpin b)
      { s.setPins i (s.pins i - 1) with cache := s.cache.bunpin i }
  | clear : Performs area s t .clear { s with log := { s.log with lh := [] } }
  | finish : Performs area s t .finish { s with log := { s.log with committing := none } }

theorem performs {area : Area D} {s s' : System T D} {t : T} {cmd : Cmd D}
    (eq : s.perform area t cmd = some s') : Performs area s t cmd s' := by
  cases cmd with
  | bread | modify | bwrite | brelse | head | bunpin =>
    obtain ⟨i, held, rfl⟩ := Option.map_eq_some_iff.1 eq
    constructor
    exact held
  | logWrite b =>
    obtain ⟨i, held, eq⟩ := Option.bind_eq_some_iff.1 eq
    obtain ⟨⟨log, new⟩, logged, rfl⟩ := Option.map_eq_some_iff.1 eq
    unfold Log.write at logged
    split_ifs at logged with full closed old <;> cases logged
    · exact .absorb (by omega) held old
    · exact .pin (by omega) held old
  | beginOp =>
    simp only [perform, Log.beginOp] at eq
    split_ifs at eq with inside committing <;> cases eq
    exact .beginOp (by simpa using committing)
  | endOp =>
    simp only [perform, Log.endOp] at eq
    split_ifs at eq with inside committing last <;> cases eq
    · exact .commit (by simpa using committing) last
    · exact .endOp (by simpa using committing)
  | copy src dst =>
    obtain ⟨i, source, eq⟩ := Option.bind_eq_some_iff.1 eq
    obtain ⟨j, held, rfl⟩ := Option.map_eq_some_iff.1 eq
    exact .copy source held
  | clear | finish =>
    cases eq
    constructor

/-- The next command of a process: what is left of `commit`, or one that it chooses. -/
def command (s : System T D) (t : T) (chosen : Cmd D) : Option (Cmd D) :=
  match (s.thread t).todo with
  | next :: _ => some next
  | [] => if chosen.client then some chosen else none

def pop (s : System T D) (t : T) : System T D :=
  s.setThread t { s.thread t with todo := (s.thread t).todo.tail }

/-- A step of process `t`. -/
def step (area : Area D) (s : System T D) : T × Cmd D → Option (System T D)
  | (t, chosen) =>
    match (s.thread t).phase with
    | .waiting i => s.acquired t i
    | .filling i => some (s.filled t i)
    | .releasing i => some ({ s with cache := s.cache.brelse i }.setPhase t .idle)
    | .idle => (s.command t chosen).bind ((s.pop t).perform area t)

end System

/-- After `binit`.  `recover_from_log` runs before any operation begins, and to the buffers it
is a process that reads, changes, writes and releases them. -/
def System.boot (T : Type) {D : Type} (zero : D) (disk : Nat → D) : System T D :=
  { cache := Bcache.binit zero
    lock := fun _ => none
    disk := disk
    log := ⟨[], 0, none⟩
    thread := fun _ => ⟨.idle, [], false⟩
    touched := fun _ => false
    pins := fun _ => 0
    events := [] }

end Xv6.Fs
