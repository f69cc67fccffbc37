import Xv6.Inodes.Contents
import Xv6.Lib.Transitions
import Xv6.Syscalls

/-!
# Writers that share a descriptor

`filewrite` on an inode cuts a write into chunks.  Each chunk is a transaction of its own in which
the lock of the inode is held from before `f->off` is read until after it has been advanced.  The
calls of several processes on one `struct file` are therefore interleaved chunk by chunk: a step of
the system is the beginning of a call, or one such section of a call that has begun.

The chunks that were written are kept beside the state in the order of the sections.
-/

namespace Xv6.Inodes

open Transitions Fallible List Disk

/-! ## Pieces that follow each other -/

/-- The pieces, each a start and a length, follow each other from `a` to `b`. -/
def Tiles (a : Nat) : List (Nat × Nat) → Nat → Prop
  | [], b => a = b
  | piece :: rest, b => piece.1 = a ∧ Tiles (a + piece.2) rest b

namespace Tiles

variable {a b n : Nat} {pieces : List (Nat × Nat)}

section

variable (tiles : Tiles a pieces b)
include tiles

theorem snoc (n : Nat) : Tiles a (pieces ++ [(b, n)]) (b + n) := by
  induction pieces generalizing a with
  | nil =>
    cases tiles
    exact ⟨rfl, rfl⟩
  | cons piece rest ih => exact ⟨tiles.1, ih tiles.2⟩

theorem sum : b = a + (pieces.map Prod.snd).sum := by
  induction pieces generalizing a with
  | nil =>
    cases tiles
    rfl
  | cons piece rest ih =>
    rw [ih tiles.2, map_cons, sum_cons, Nat.add_assoc]

theorem after : ∀ piece ∈ pieces, a ≤ piece.1 := by
  induction pieces generalizing a with
  | nil =>
    intro piece mem
    cases mem
  | cons first rest ih =>
    intro piece mem
    rcases mem_cons.1 mem with rfl | mem
    · exact tiles.1.ge
    · exact (Nat.le_add_right _ _).trans (ih tiles.2 piece mem)

/-- No two of them overlap. -/
theorem disjoint : pieces.Pairwise fun first second => first.1 + first.2 ≤ second.1 := by
  induction pieces generalizing a with
  | nil => exact .nil
  | cons piece rest ih =>
    refine .cons (fun second mem => ?_) (ih tiles.2)
    rw [tiles.1]
    exact tiles.2.after second mem

end

end Tiles

/-! ## The system -/

/-- A call `filewrite(f, addr, n)`: the bytes written so far, and what it has returned. -/
structure FileWrite where
  addr : Nat
  n : Int
  i : Nat
  ret : Option Int

/-- A chunk: the call it belongs to, its place in the buffer of the call, its place in the file and
its bytes. -/
structure Chunk where
  call : Nat
  src : Nat
  start : Nat
  bytes : List UInt8

/-- A `struct file` for an inode, open for writing, with the disk and the calls made on it. -/
structure SharedFile where
  disk : Disk
  off : Nat
  calls : List FileWrite
  chunks : List Chunk

/-- A call begins, or the call with a number goes through its loop once.  The memory of its process
is what it is at that time. -/
inductive FileEvent
  | call (addr : Nat) (n : Int)
  | chunk (k : Nat) (mem : Kmem) (pt : PageTable)

/-- `begin_op()`, when it has found room. -/
def Disk.beginOp (d : Disk) : Disk := { d with outstanding := d.outstanding + 1 }

/-- `end_op()`: the last one commits the blocks that were logged. -/
def Disk.endOp (d : Disk) : Disk :=
  { d with
    outstanding := d.outstanding - 1
    logged := if d.outstanding = 1 then [] else d.logged }

namespace FileWrite

/-- A call before its loop; a loop that has nothing to do is over. -/
def begin (addr : Nat) (n : Int) : FileWrite :=
  ⟨addr, n, 0, if 0 < n then none else some (if n = 0 then n else -1)⟩

/-- The length of the next chunk. -/
def n1 (c : FileWrite) : Nat := min (c.n - c.i).toNat maxChunk

/-- The call after `writei` has returned `r` for a chunk. -/
def next (c : FileWrite) (r : Int) : FileWrite :=
  if r = c.n1 then
    let i := c.i + c.n1
    { c with i, ret := if (i : Int) < c.n then none else some (if i = c.n then c.n else -1) }
  else { c with ret := some (-1) }

/-- What `writei` copies from. -/
def source (c : FileWrite) (mem : Kmem) (pt : PageTable) : Source :=
  .user mem pt ((c.addr + c.i) % 2 ^ 64)

end FileWrite

namespace SharedFile

/-- One round of the loop of `filewrite` for the call `c`, which has number `k`. -/
def round (inum : Nat) (s : SharedFile) (k : Nat) (c : FileWrite) (mem : Kmem) (pt : PageTable) :
    Except String SharedFile := do
  let d := s.disk.beginOp
  let (d, _, r) ← d.writei inum (d.dinode inum) (c.source mem pt) s.off c.n1
  .ok
    { disk := d.endOp
      off := if 0 < r then (s.off + r.toNat) % 2 ^ 32 else s.off
      calls := s.calls.set k (c.next r)
      chunks := if 0 < r then s.chunks ++ [⟨k, c.i, s.off, (c.source mem pt).take r.toNat⟩]
        else s.chunks }

def step (inum : Nat) (s : SharedFile) : FileEvent → Option SharedFile
  | .call addr n => some { s with calls := s.calls ++ [.begin addr n] }
  | .chunk k mem pt =>
    (s.calls[k]?).bind fun c =>
      if c.ret = none then (s.round inum k c mem pt).toOption else none

/-- No call has returned an error. -/
def NoError (s : SharedFile) : Prop := ∀ c ∈ s.calls, c.ret ≠ some (-1)

/-- The file system is well formed, and the file has no holes. -/
structure Sound (inum : Nat) (d : Disk) : Prop where
  holds : d.Holds d.dinode []
  live : d.Live d.dinode inum
  holeFree : d.HoleFree (d.dinode inum)

/-- A call has written the first `i` bytes of its buffer, and has returned when these are all. -/
structure Progress (chunks : List Chunk) (k : Nat) (c : FileWrite) : Prop where
  order : Tiles 0 ((chunks.filter (·.call = k)).map fun x => (x.src, x.bytes.length)) c.i
  running : c.ret = none → (c.i : Int) < c.n
  returned : ∀ r, c.ret = some r → r = c.n ∧ (c.i : Int) = c.n

/-- What a run without errors has done since the state `s`. -/
structure Appended (inum : Nat) (s s' : SharedFile) : Prop where
  sound : Sound inum s'.disk
  bound : s'.off < 2 ^ 32
  consecutive : Tiles s.off (s'.chunks.map fun x => (x.start, x.bytes.length)) s'.off
  calls : ∀ k c, s'.calls[k]? = some c → Progress s'.chunks k c
  known : ∀ x ∈ s'.chunks, x.call < s'.calls.length
  total : s'.off = s.off + (s'.calls.map FileWrite.i).sum
  inside : s'.chunks ≠ [] → s.off ≤ (s.disk.dinode inum).size
  size : (s'.disk.dinode inum).size =
    if s'.chunks = [] then (s.disk.dinode inum).size else max (s.disk.dinode inum).size s'.off
  contents : s'.disk.contents inum =
    Disk.overwrite (s.disk.contents inum) s.off (s'.chunks.flatMap Chunk.bytes)

variable {inum k addr : Nat} {d : Disk} {s s' s₀ : SharedFile} {c : FileWrite} {mem : Kmem}
  {pt : PageTable} {e : FileEvent} {chunks : List Chunk} {n : Int} {calls : List FileWrite}

theorem Sound.beginOp (sound : Sound inum d) : Sound inum d.beginOp :=
  ⟨⟨sound.holds.layout, sound.holds.exact⟩, sound.live, sound.holeFree⟩

theorem Sound.endOp (sound : Sound inum d) : Sound inum d.endOp :=
  ⟨⟨sound.holds.layout, sound.holds.exact⟩, sound.live, sound.holeFree⟩

theorem n1_lt (c : FileWrite) : c.n1 < 2 ^ 32 :=
  (min_le_right _ _).trans_lt (by decide)

/-- A call that is in its loop can take its next round when the log has the room that `begin_op`
waits for. -/
theorem round_ok (sound : Sound inum s.disk) (k : Nat) (c : FileWrite) (mem : Kmem)
    (pt : PageTable) (room : s.disk.beginOp.HasRoom maxopblocks) :
    ∃ s', s.round inum k c mem pt = .ok s' := by
  have begun := sound.beginOp
  obtain ⟨result, run, -⟩ | ⟨-, full⟩ := writei_logs (c.source mem pt) inum s.off (n1_lt c)
    begun.holeFree room.1
  · unfold round
    simp only [run, bind, Except.bind]
    exact ⟨_, rfl⟩
  · exact absurd (room.mono (logNeed_chunk _ (min_le_right _ _))) full

theorem step_chunk (taken : s.step inum (.chunk k mem pt) = some s') :
    ∃ c, s.calls[k]? = some c ∧ c.ret = none ∧ s.round inum k c mem pt = .ok s' := by
  obtain ⟨c, here, taken⟩ := Option.bind_eq_some_iff.1 taken
  refine ⟨c, here, ?_⟩
  split at taken
  · cases run : s.round inum k c mem pt with
    | error message =>
      rw [run] at taken
      cases taken
    | ok s₁ =>
      rw [run] at taken
      cases taken
      exact ⟨‹_›, rfl⟩
  · cases taken

theorem round_calls (run : s.round inum k c mem pt = .ok s') :
    ∃ r, s'.calls = s.calls.set k (c.next r) := by
  unfold round at run
  obtain ⟨result, -, run⟩ := of_bind_ok run
  cases run
  exact ⟨_, rfl⟩

/-- An error that has been returned stays. -/
theorem NoError.before (taken : s.step inum e = some s') (fine : s'.NoError) : s.NoError := by
  intro c mem
  cases e with
  | call addr n =>
    cases taken
    exact fine c (mem_append_left _ mem)
  | chunk k kmem pt =>
    obtain ⟨c', here, running, run⟩ := step_chunk taken
    obtain ⟨r, calls⟩ := round_calls run
    obtain ⟨j, there⟩ := mem_iff_getElem?.1 mem
    rcases eq_or_ne k j with rfl | ne
    · rw [here] at there
      cases there
      rw [running]
      exact nofun
    · apply fine c
      rw [calls]
      apply mem_iff_getElem?.2
      exact ⟨j, (getElem?_set_ne ne).trans there⟩

/-- What a round does that leaves its call without an error. -/
structure Round (inum : Nat) (s : SharedFile) (k : Nat) (c : FileWrite) (src : Source)
    (s' : SharedFile) : Prop where
  inside : s.off ≤ (s.disk.dinode inum).size
  sound : Sound inum s'.disk
  bound : s'.off < 2 ^ 32
  size : (s'.disk.dinode inum).size = max (s.disk.dinode inum).size (s.off + c.n1)
  contents : s'.disk.contents inum =
    Disk.overwrite (s.disk.contents inum) s.off (src.take c.n1)
  off : s'.off = s.off + c.n1
  calls : s'.calls = s.calls.set k (c.next c.n1)
  chunks : s'.chunks = s.chunks ++ [⟨k, c.i, s.off, src.take c.n1⟩]

theorem round_spec (sound : Sound inum s.disk) (bound : s.off < 2 ^ 32)
    (here : s.calls[k]? = some c) (more : (c.i : Int) < c.n) (fine : s'.NoError)
    (run : s.round inum k c mem pt = .ok s') : Round inum s k c (c.source mem pt) s' := by
  have begun := sound.beginOp
  have limit : maxfile * bsize = 274432 := by decide
  unfold round at run
  obtain ⟨⟨d', ip, r⟩, write, run⟩ := of_bind_ok run
  cases run
  have all : r = c.n1 := by
    have lt : k < s.calls.length := (List.getElem?_eq_some_iff.1 here).1
    have ok := fine (c.next r) (mem_set lt _)
    by_contra short
    rw [FileWrite.next, if_neg short] at ok
    exact ok rfl
  rw [all] at write ⊢
  obtain ⟨inside, written⟩ := writei_complete begun.holds begun.live ⟨bound, n1_lt c⟩ write
  have positive : 0 < c.n1 := by
    have chunk : 0 < maxChunk := by decide
    unfold FileWrite.n1
    omega
  have grown : s.off + c.n1 < 2 ^ 32 := by
    have := inside.2
    rw [limit] at this
    omega
  have live' : d'.Live d'.dinode inum := by
    refine ⟨?_, ?_⟩
    · rw [written.sb]
      exact begun.live.1
    · rw [written.type]
      exact begun.live.2
  have sound' : Sound inum d' :=
    ⟨written.holds, live', written.holeFree begun.holeFree inside.1⟩
  have some : (0 : Int) < c.n1 := by omega
  have length : (s.off + (c.n1 : Int).toNat) % 2 ^ 32 = s.off + c.n1 := Nat.mod_eq_of_lt grown
  refine ⟨inside.1, sound'.endOp, ?_, written.size, written.contents begun.holeFree inside.1, ?_,
    rfl, ?_⟩
  · simp only [if_pos some, length]
    exact grown
  · simp only [if_pos some, length]
  · simp only [if_pos some, Int.toNat_natCast]

/-! ## Runs -/

theorem appended_start (sound : Sound inum s.disk) (bound : s.off < 2 ^ 32) (first : s.calls = [])
    (none : s.chunks = []) : Appended inum s s where
  sound := sound
  bound := bound
  consecutive := by rw [none]; rfl
  calls := fun k c here => by rw [first] at here; cases here
  known := fun x mem => by rw [none] at mem; cases mem
  total := by rw [first]; rfl
  inside := fun some => absurd none some
  size := by rw [if_pos none]
  contents := by rw [none, flatMap_nil, overwrite_nil]

theorem progress_begin (known : ∀ x ∈ chunks, x.call < k)
    (fine : (FileWrite.begin addr n).ret ≠ some (-1)) : Progress chunks k (.begin addr n) := by
  have none : chunks.filter (·.call = k) = [] := by
    rw [filter_eq_nil_iff]
    intro x mem same
    have := known x mem
    have := of_decide_eq_true same
    omega
  refine ⟨?_, ?_, ?_⟩
  · rw [none]
    rfl
  · intro running
    unfold FileWrite.begin at running ⊢
    split at running
    · assumption
    · cases running
  · intro r returned
    unfold FileWrite.begin at returned fine ⊢
    split at returned
    · cases returned
    · rw [if_neg ‹_›] at fine
      split at returned
      · cases returned
        exact ⟨rfl, show ((0 : Nat) : Int) = n by omega⟩
      · cases returned
        rw [if_neg ‹_›] at fine
        exact (fine rfl).elim

theorem Progress.other {x : Chunk} (progress : Progress chunks k c) (ne : x.call ≠ k) :
    Progress (chunks ++ [x]) k c := by
  refine ⟨?_, progress.running, progress.returned⟩
  rw [filter_append, filter_singleton, decide_eq_false ne]
  simpa using progress.order

theorem Progress.next {start : Nat} {bytes : List UInt8} (progress : Progress chunks k c)
    (more : (c.i : Int) < c.n) (length : bytes.length = c.n1) :
    Progress (chunks ++ [⟨k, c.i, start, bytes⟩]) k (c.next c.n1) := by
  have le : (c.i : Int) + c.n1 ≤ c.n := by
    unfold FileWrite.n1
    omega
  have next : c.next c.n1 = { c with i := c.i + c.n1, ret :=
      (if ((c.i + c.n1 : Nat) : Int) < c.n then none
        else some (if (c.i + c.n1 : Nat) = c.n then c.n else -1)) } := if_pos rfl
  rw [next]
  refine ⟨?_, ?_, ?_⟩
  · have grown := progress.order.snoc c.n1
    rw [← length] at grown ⊢
    rw [filter_append, map_append]
    simpa using grown
  · intro running
    split at running
    · assumption
    · cases running
  · intro r returned
    split at returned
    · cases returned
    · rw [if_pos (by push_cast; omega)] at returned
      cases returned
      exact ⟨rfl, by push_cast; omega⟩

theorem Appended.begin (appended : Appended inum s₀ s)
    (fine : (FileWrite.begin addr n).ret ≠ some (-1)) :
    Appended inum s₀ { s with calls := s.calls ++ [.begin addr n] } where
  __ := appended
  calls := by
    intro k c here
    rcases lt_or_ge k s.calls.length with lt | ge
    · rw [getElem?_append_left lt] at here
      exact appended.calls k c here
    · rw [getElem?_append_right ge, getElem?_singleton] at here
      split at here
      · cases here
        have last : k = s.calls.length := by omega
        rw [last]
        exact progress_begin appended.known fine
      · cases here
  known := by
    intro x mem
    have := appended.known x mem
    rw [length_append]
    omega
  total := by
    rw [map_append, sum_append]
    exact appended.total

/-- The lengths of all calls, when one of them has moved on. -/
theorem sum_set {c' : FileWrite} (here : calls[k]? = some c) {n : Nat} (next : c'.i = c.i + n) :
    ((calls.set k c').map FileWrite.i).sum = (calls.map FileWrite.i).sum + n := by
  induction calls generalizing k with
  | nil => cases here
  | cons head rest ih =>
    cases k with
    | zero =>
      cases here
      simp only [set_cons_zero, map_cons, sum_cons, next]
      omega
    | succ k =>
      simp only [set_cons_succ, map_cons, sum_cons, ih here]
      omega

section

variable (appended : Appended inum s₀ s)
include appended

/-- The first chunk was in range. -/
theorem Appended.start_le (le : s.off ≤ (s.disk.dinode inum).size) :
    s₀.off ≤ (s₀.disk.dinode inum).size := by
  by_cases none : s.chunks = []
  · have consecutive := appended.consecutive
    rw [none] at consecutive
    rw [appended.size, if_pos none] at le
    exact (show s₀.off = s.off from consecutive).trans_le le
  · exact appended.inside none

theorem Appended.round {src : Source} (here : s.calls[k]? = some c)
    (more : (c.i : Int) < c.n) (round : Round inum s k c src s') : Appended inum s₀ s' where
  sound := round.sound
  bound := round.bound
  consecutive := by
    rw [round.chunks, round.off, map_append]
    simp only [map_cons, map_nil, Disk.length_take]
    exact appended.consecutive.snoc c.n1
  calls := by
    intro j c' there
    rw [round.calls] at there
    rw [round.chunks]
    rcases eq_or_ne k j with rfl | ne
    · rw [List.getElem?_set_self (List.getElem?_eq_some_iff.1 here).1] at there
      cases there
      exact (appended.calls k c here).next more (Disk.length_take src c.n1)
    · rw [getElem?_set_ne ne] at there
      exact (appended.calls j c' there).other ne
  known := by
    intro x mem
    rw [round.chunks] at mem
    rw [round.calls, length_set]
    rcases mem_append.1 mem with mem | mem
    · exact appended.known x mem
    · cases mem_singleton.1 mem
      exact (List.getElem?_eq_some_iff.1 here).1
  total := by
    have next : (c.next c.n1).i = c.i + c.n1 := by rw [FileWrite.next, if_pos rfl]
    rw [round.off, round.calls, sum_set here next, appended.total, Nat.add_assoc]
  inside := fun _ => appended.start_le round.inside
  size := by
    have some : s'.chunks ≠ [] := by
      rw [round.chunks]
      exact concat_ne_nil _ _
    rw [if_neg some, round.size, round.off, appended.size]
    split
    · rfl
    · omega
  contents := by
    have off : s.off = s₀.off + (s.chunks.flatMap Chunk.bytes).length := by
      rw [appended.consecutive.sum, length_flatMap, map_map]
      rfl
    have le : s₀.off ≤ (s₀.disk.contents inum).length := by
      rw [Disk.contents, Disk.length_bytes]
      exact appended.start_le round.inside
    rw [round.contents, round.chunks, appended.contents, off, Disk.overwrite_append le,
      flatMap_append, flatMap_singleton]

theorem Appended.step (taken : s.step inum e = some s')
    (fine : s'.NoError) : Appended inum s₀ s' := by
  cases e with
  | call addr n =>
    cases taken
    apply appended.begin
    apply fine
    exact mem_append_right _ mem_cons_self
  | chunk k mem pt =>
    obtain ⟨c, here, running, run⟩ := step_chunk taken
    have more := (appended.calls k c here).running running
    exact appended.round here more (round_spec appended.sound appended.bound here more fine run)

end

theorem sum_of_returned (all : ∀ c ∈ calls, (c.i : Int) = c.n) :
    ((calls.map FileWrite.i).sum : Int) = (calls.map FileWrite.n).sum := by
  induction calls with
  | nil => rfl
  | cons c rest ih =>
    rw [map_cons, sum_cons, map_cons, sum_cons, Nat.cast_add,
      all c mem_cons_self, ih fun c mem => all c (mem_cons_of_mem _ mem)]

/-- Writers that share a descriptor do not overwrite each other.  In every run without an error the
chunks follow each other in the file from the first offset on, those of one call follow each other
in its buffer, and the offset and the size have grown by all of them; what the file holds is all the
chunks in this order.  A call that has not returned can go on once `begin_op` finds room. -/
theorem shared_writes_consecutive {events : List FileEvent} (sound : Sound inum s.disk)
    (uint : s.off < 2 ^ 32) (first : s.calls = []) (none : s.chunks = [])
    (run : exec (step inum) s events = some s') (fine : s'.NoError) :
    Tiles s.off (s'.chunks.map fun x => (x.start, x.bytes.length)) s'.off ∧
    (s'.chunks.Pairwise fun x y => x.start + x.bytes.length ≤ y.start) ∧
    (∀ k c, s'.calls[k]? = some c →
      Tiles 0 ((s'.chunks.filter (·.call = k)).map fun x => (x.src, x.bytes.length)) c.i ∧
      (c.ret = .none ∧ (c.i : Int) < c.n ∧ (s'.disk.beginOp.HasRoom maxopblocks →
          ∀ mem pt, (s'.step inum (.chunk k mem pt)).isSome) ∨
        c.ret = some c.n ∧ (c.i : Int) = c.n)) ∧
    s'.off = s.off + (s'.calls.map FileWrite.i).sum ∧
    ((∀ c ∈ s'.calls, c.ret ≠ .none) → (s'.off : Int) = s.off + (s'.calls.map FileWrite.n).sum) ∧
    (s'.disk.dinode inum).size =
      (if s'.chunks = [] then (s.disk.dinode inum).size
        else max (s.disk.dinode inum).size s'.off) ∧
    s'.disk.contents inum =
      Disk.overwrite (s.disk.contents inum) s.off (s'.chunks.flatMap Chunk.bytes) := by
  have appended : Appended inum s s' := by
    refine run_invariant (fun t => t.NoError → Appended inum s t) ?_
      (fun _ => appended_start sound uint first none) run fine
    intro t e t' holds taken fine
    exact (holds (fine.before taken)).step taken fine
  refine ⟨appended.consecutive, ?_, ?_, appended.total, ?_, appended.size, appended.contents⟩
  · exact pairwise_map.1 appended.consecutive.disjoint
  · intro k c here
    have progress := appended.calls k c here
    refine ⟨progress.order, ?_⟩
    cases ret : c.ret with
    | none =>
      refine .inl ⟨rfl, progress.running ret, fun room mem pt => ?_⟩
      obtain ⟨t, next⟩ := round_ok appended.sound k c mem pt room
      simp only [SharedFile.step, here, Option.bind_some, if_pos ret, next]
      rfl
    | some r =>
      obtain ⟨rfl, all⟩ := progress.returned r ret
      exact .inr ⟨rfl, all⟩
  · intro finished
    rw [appended.total, ← sum_of_returned fun c mem => ?_]
    · push_cast
      rfl
    · obtain ⟨k, here⟩ := mem_iff_getElem?.1 mem
      obtain ⟨r, ret⟩ := Option.ne_none_iff_exists'.1 (finished c mem)
      exact ((appended.calls k c here).returned r ret).2

/-- Two calls of the first process on an empty file; the one that began last writes first. -/
theorem shared_writes_three : ∃ (mem : Kmem) (pt : PageTable) (s' : SharedFile),
    exec (step 1) ⟨Disk.emptyFile, 0, [], []⟩
      [.call 0 2, .call 0 1, .chunk 1 mem pt, .chunk 0 mem pt] = some s' ∧ s'.off = 3 ∧
    Tiles 0 (s'.chunks.map fun x => (x.start, x.bytes.length)) 3 := by
  have pass : Kernel.boots 24 (fun s =>
      (s.machine.space (.proc 0)).any fun sp =>
        (exec (step 1) ⟨emptyFile, 0, [], []⟩ [.call 0 2, .call 0 1,
          .chunk 1 s.machine.kmem sp.pagetable, .chunk 0 s.machine.kmem sp.pagetable]).any fun s' =>
            decide (s'.off = 3) && s'.calls.all fun c => decide (c.ret ≠ some (-1))) = true := by
    decide +kernel
  obtain ⟨s, -, test⟩ := Kernel.of_boots pass
  obtain ⟨sp, space, test⟩ := (Option.any_eq_true _ _).1 test
  obtain ⟨s', run, test⟩ := (Option.any_eq_true _ _).1 test
  obtain ⟨off, returned⟩ := Bool.and_eq_true_iff.1 test
  have off : s'.off = 3 := of_decide_eq_true off
  have fine : s'.NoError := fun c mem => of_decide_eq_true (all_eq_true.1 returned c mem)
  have sound : Sound 1 emptyFile := ⟨emptyFile_holds, by decide, emptyDisk_holeFree 2 4⟩
  obtain ⟨tiles, -⟩ := shared_writes_consecutive (s := ⟨emptyFile, 0, [], []⟩) sound (by decide)
    rfl rfl run fine
  rw [off] at tiles
  exact ⟨_, _, s', run, off, tiles⟩

end SharedFile

end Xv6.Inodes
