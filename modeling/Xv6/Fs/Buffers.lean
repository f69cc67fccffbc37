import Xv6.Lib.Ownership
import Xv6.Fs.Bio

/-!
# The invariant of the buffers

A buffer that differs from the disk is in use: the process that has changed it has its
lock, or the log has pinned it.  So only buffers that agree with the disk are recycled, and
a block that is not cached is read back as it was last given.

`Core` says this for a list of blocks that are pinned.  Steps that only change who uses a
buffer, and steps of the process that has the lock of a buffer, have one lemma each.
-/

namespace Xv6.Fs

open Function List

variable {T D : Type}

/-- The contents that a block was last given. -/
def latest (init : Nat → D) : List (Event D) → Nat → D
  | [], b => init b
  | .gave b' d :: es, b => if b' = b then d else latest init es b
  | .read _ _ :: es, b => latest init es b

theorem Bcache.bget_cases {c c' : Bcache D} {dev b : Nat} {i : Fin nbuf}
    (got : c.bget dev b = some (i, c')) :
    c.cached dev b = some i ∧ c' = c.modify i (fun b => { b with refcnt := b.refcnt + 1 }) ∨
      c.cached dev b = none ∧ c.unused = some i ∧ c' = c.modify i fun old =>
        { old with dev := dev, blockno := b, valid := false, refcnt := 1 } := by
  unfold bget at got
  cases found : c.cached dev b with
  | some k =>
    rw [found] at got
    cases got
    exact .inl ⟨rfl, rfl⟩
  | none =>
    rw [found] at got
    obtain ⟨k, free, pair⟩ := Option.map_eq_some_iff.1 got
    cases pair
    exact .inr ⟨rfl, free, rfl⟩

/-- The use that a process makes of a buffer without its lock: it waits for it, or has
released it and not yet given up its reference. -/
def Phase.uses (i : Fin nbuf) : Phase → Nat
  | .waiting j | .releasing j => if j = i then 1 else 0
  | .idle | .filling _ => 0

namespace System

variable {init : Nat → D} {s s' : System T D} {owed : List Nat} {t u : T} {i j : Fin nbuf}
  {b n : Nat} {d : D} {phase : Phase} {c : Bcache D} {α : Type}

/-- The invariant of the buffers, for a list of blocks that are pinned. -/
structure Core [Fintype T] (init : Nat → D) (owed : List Nat) (s : System T D) : Prop where
  lru : ∀ i, i ∈ s.cache.lru
  unique : ∀ i j, (s.cache.buf i).dev ≠ 0 → (s.cache.buf i).dev = (s.cache.buf j).dev →
    (s.cache.buf i).blockno = (s.cache.buf j).blockno → i = j
  refcnt : ∀ i, (s.cache.buf i).refcnt =
    (if s.lock i = none then 0 else 1) + ∑ t, (s.thread t).phase.uses i + s.pins i
  device : ∀ i, (s.cache.buf i).valid ∨ (s.cache.buf i).refcnt ≠ 0 → (s.cache.buf i).dev = rootdev
  locked : ∀ i t, s.lock i = some t → (s.cache.buf i).valid ∨ (s.thread t).phase = .filling i
  filling : ∀ i t, (s.thread t).phase = .filling i → s.lock i = some t ∧ ¬ (s.cache.buf i).valid
  touched : ∀ i, s.touched i → s.lock i ≠ none
  /-- A buffer has what its block was last given. -/
  current : ∀ i, (s.cache.buf i).valid →
    (s.cache.buf i).data = latest init s.events (s.cache.buf i).blockno
  /-- A block without a buffer is on the disk as it was last given. -/
  stored : ∀ b, (∀ i, (s.cache.buf i).valid → (s.cache.buf i).blockno ≠ b) →
    s.disk b = latest init s.events b
  /-- A buffer that is neither changed nor pinned agrees with the disk. -/
  clean : ∀ i, (s.cache.buf i).valid → s.touched i = false → (s.cache.buf i).blockno ∉ owed →
    (s.cache.buf i).data = s.disk (s.cache.buf i).blockno
  pinned : ∀ i, s.pins i =
    if (s.cache.buf i).dev = rootdev ∧ (s.cache.buf i).blockno ∈ owed then 1 else 0
  present : ∀ b ∈ owed, ∃ i, (s.cache.buf i).dev = rootdev ∧ (s.cache.buf i).blockno = b
  nodup : owed.Nodup
  /-- What was read so far. -/
  past : ∀ b d older, .read b d :: older <:+ s.events → d = latest init older b

namespace Core

theorem modify_buf (c : Bcache D) (i j : Fin nbuf) (f : Buf D → Buf D) :
    (c.modify i f).buf j = if j = i then f (c.buf i) else c.buf j := by
  simp only [Bcache.modify, update_apply]

theorem setLock_lock (s : System T D) (i j : Fin nbuf) (holder : Option T) :
    (s.setLock i holder).lock j = if j = i then holder else s.lock j := by
  simp only [System.setLock, update_apply]

theorem uses_of_ne (ne : j ≠ i) : (Phase.waiting i).uses j = 0 ∧ (Phase.releasing i).uses j = 0 :=
  ⟨if_neg ne.symm, if_neg ne.symm⟩

/-- What does not change is the same at one buffer and at the others. -/
theorem same_at (f : Fin nbuf → α) (i j : Fin nbuf) : f j = if j = i then f i else f j := by
  split_ifs with same
  · rw [same]
  · rfl

/-- `brelse` keeps the buffers in the list. -/
theorem brelse_lru (there : j ∈ c.lru) : j ∈ (c.brelse i).lru := by
  rw [Bcache.brelse]
  split_ifs
  · by_cases same : j = i
    · rw [same]
      exact mem_cons_self
    · exact mem_cons_of_mem _ ((mem_erase_of_ne same).2 there)
  · exact there

theorem cached_some {dev blockno : Nat} (found : c.cached dev blockno = some i) :
    (c.buf i).dev = dev ∧ (c.buf i).blockno = blockno := by
  have := find?_some found
  simpa using this

/-- What a change of one buffer leaves alone. -/
theorem field {old after : Fin nbuf → Buf D} {new : Buf D} (f : Buf D → α)
    (bufs : ∀ j, after j = if j = i then new else old j) (same : f new = f (old i)) (j : Fin nbuf) :
    f (after j) = f (old j) := by
  rw [bufs]
  split_ifs with eq
  · rw [same, eq]
  · rfl

theorem unused_some (found : c.unused = some i) : (c.buf i).refcnt = 0 := by
  have := find?_some found
  simpa using this

variable [Fintype T]

theorem boot (zero : D) : Core init [] (boot T zero init) := by
  constructor
  case lru => simp [System.boot, Bcache.binit]
  case unique => exact fun i j dev => absurd rfl dev
  case device => simp [System.boot, Bcache.binit]
  case refcnt => simp [System.boot, Bcache.binit, Phase.uses]
  case past =>
    intro b d older suffix
    exact absurd (suffix_nil.1 suffix) (by simp)
  case stored => exact fun b _ => rfl
  all_goals simp [System.boot, Bcache.binit]

section

variable (core : Core init owed s)
include core

/-- `bread` returns what the block was last given. -/
theorem read (eq : d = latest init s.events b) :
    Core init owed { s with events := .read b d :: s.events } := by
  refine ⟨core.lru, core.unique, core.refcnt, core.device, core.locked, core.filling, core.touched,
    core.current, core.stored, core.clean, core.pinned, core.present, core.nodup,
    fun b' d' older suffix => ?_⟩
  rcases suffix_cons_iff.1 suffix with here | before
  · cases here
    exact eq
  · exact core.past b' d' older before

/-- A buffer that is in use is not recycled. -/
theorem busy (used : s.lock i ≠ none ∨ s.pins i ≠ 0) : (s.cache.buf i).refcnt ≠ 0 := by
  rw [core.refcnt i]
  split_ifs with free
  · have := used.resolve_left (absurd free)
    omega
  · omega

/-- A buffer that a process has is in use. -/
theorem held_busy (held : s.lock i = some t) : (s.cache.buf i).refcnt ≠ 0 :=
  core.busy (.inl (by simp [held]))

/-- A block that is pinned has a buffer that is in use. -/
theorem busy_of_owed (dev : (s.cache.buf i).dev = rootdev) (mem : (s.cache.buf i).blockno ∈ owed) :
    (s.cache.buf i).refcnt ≠ 0 := by
  refine core.busy (.inr ?_)
  rw [core.pinned i, if_pos ⟨dev, mem⟩]
  decide

/-- A buffer that nobody uses agrees with the disk. -/
theorem clean_of_unused (unused : (s.cache.buf i).refcnt = 0) (valid : (s.cache.buf i).valid) :
    (s.cache.buf i).data = s.disk (s.cache.buf i).blockno := by
  refine core.clean i valid ?_ fun mem => ?_
  · by_contra touched
    exact core.busy (.inl (core.touched i (by simpa using touched))) unused
  · exact core.busy_of_owed (core.device i (.inl valid)) mem unused

/-- A step that changes who uses which buffer, and no contents. -/
theorem moves (lru : ∀ i, i ∈ s'.cache.lru)
    (bufs : ∀ i, ∃ n, s'.cache.buf i = { s.cache.buf i with refcnt := n }) (disk : s'.disk = s.disk)
    (touched : s'.touched = s.touched) (pins : s'.pins = s.pins) (events : s'.events = s.events)
    (refcnt : ∀ i, (s'.cache.buf i).refcnt =
      (if s'.lock i = none then 0 else 1) + ∑ t, (s'.thread t).phase.uses i + s.pins i)
    (device : ∀ i, (s'.cache.buf i).refcnt ≠ 0 → (s.cache.buf i).dev = rootdev)
    (locked : ∀ i t, s'.lock i = some t → (s.cache.buf i).valid ∨ (s'.thread t).phase = .filling i)
    (filling : ∀ i t, (s'.thread t).phase = .filling i →
      s'.lock i = some t ∧ ¬ (s.cache.buf i).valid) (held : ∀ i, s.touched i → s'.lock i ≠ none) :
    Core init owed s' := by
  have kept {α : Type} {f : Buf D → α} (same : ∀ b n, f { b with refcnt := n } = f b)
      (i : Fin nbuf) : f (s'.cache.buf i) = f (s.cache.buf i) := by
    obtain ⟨n, eq⟩ := bufs i
    rw [eq, same]
  have valid := kept (f := Buf.valid) fun _ _ => rfl
  have dev := kept (f := Buf.dev) fun _ _ => rfl
  have blockno := kept (f := Buf.blockno) fun _ _ => rfl
  have data := kept (f := Buf.data) fun _ _ => rfl
  constructor
  case lru => exact lru
  case nodup => exact core.nodup
  all_goals simp only [valid, dev, blockno, data, disk, touched, pins, events]
  case unique => exact core.unique
  case refcnt => exact refcnt
  case device => exact fun i used => used.elim (fun valid => core.device i (.inl valid)) (device i)
  case locked => exact locked
  case filling => exact filling
  case touched => exact held
  case current => exact core.current
  case stored => exact core.stored
  case clean => exact core.clean
  case pinned => exact core.pinned
  case present => exact core.present
  case past => exact core.past

/-- What Core does not mention may change. -/
theorem congr (cache : s'.cache = s.cache) (lock : s'.lock = s.lock) (disk : s'.disk = s.disk)
    (phase : ∀ t, (s'.thread t).phase = (s.thread t).phase) (touched : s'.touched = s.touched)
    (pins : s'.pins = s.pins) (events : s'.events = s.events) : Core init owed s' := by
  refine core.moves (cache ▸ core.lru) (fun i => ⟨(s.cache.buf i).refcnt, by rw [cache]⟩) disk
    touched pins events ?_ ?_ ?_ ?_ ?_
  all_goals simp only [cache, lock, phase]
  · exact core.refcnt
  · exact fun i used => core.device i (.inr used)
  · exact core.locked
  · exact core.filling
  · exact core.touched

/-- Buffers of one block are one buffer. -/
theorem distinct (one : (s.cache.buf i).dev = rootdev) (two : (s.cache.buf j).dev = rootdev)
    (same : (s.cache.buf j).blockno = (s.cache.buf i).blockno) : j = i := by
  refine core.unique j i ?_ (two.trans one.symm) same
  rw [two]
  decide

/-- The buffer of a block without a valid buffer agrees with what the block was last given
once it is filled. -/
theorem disk_of_invalid (invalid : ¬ (s.cache.buf i).valid) (used : (s.cache.buf i).refcnt ≠ 0) :
    s.disk (s.cache.buf i).blockno = latest init s.events (s.cache.buf i).blockno := by
  refine core.stored _ fun j valid same => invalid ?_
  rw [core.distinct (core.device j (.inl valid)) (core.device i (.inr used)) same.symm]
  exact valid

/-- A process changes the buffer whose lock it has, its pins, or its block on the disk. -/
theorem change {owed' : List Nat} {p : Nat} (held : s.lock i ≠ none) (valid : (s.cache.buf i).valid)
    (bufs : ∀ j, s'.cache.buf j =
      if j = i then { s.cache.buf i with refcnt := n, data := d } else s.cache.buf j)
    (lru : s'.cache.lru = s.cache.lru) (lock : s'.lock = s.lock)
    (threads : ∀ u, (s'.thread u).phase = (s.thread u).phase)
    (pins : ∀ j, s'.pins j = if j = i then p else s.pins j)
    (touched : ∀ j, j ≠ i → s'.touched j = s.touched j)
    (count : n + s.pins i = (s.cache.buf i).refcnt + p)
    (pinned : p = if (s.cache.buf i).blockno ∈ owed' then 1 else 0)
    (others : ∀ b, b ≠ (s.cache.buf i).blockno → s'.disk b = s.disk b ∧
      latest init s'.events b = latest init s.events b ∧ (b ∈ owed' ↔ b ∈ owed))
    (nodup : owed'.Nodup) (current : d = latest init s'.events (s.cache.buf i).blockno)
    (clean : s'.touched i = false → (s.cache.buf i).blockno ∉ owed' →
      d = s'.disk (s.cache.buf i).blockno)
    (past : ∀ b d older, .read b d :: older <:+ s'.events → .read b d :: older <:+ s.events) :
    Core init owed' s' := by
  have root := core.device i (.inl valid)
  have dev := field Buf.dev bufs rfl
  have blockno := field Buf.blockno bufs rfl
  have valids := field Buf.valid bufs rfl
  have elsewhere (j : Fin nbuf) (here : (s.cache.buf j).dev = rootdev) (ne : j ≠ i) :
      (s.cache.buf j).blockno ≠ (s.cache.buf i).blockno :=
    fun same => ne (core.distinct root here same)
  have mine : s'.cache.buf i = { s.cache.buf i with refcnt := n, data := d } := by
    rw [bufs, if_pos rfl]
  have other (j : Fin nbuf) (ne : j ≠ i) : s'.cache.buf j = s.cache.buf j := by
    rw [bufs, if_neg ne]
  constructor
  case nodup => exact nodup
  case past => exact fun b d older suffix => core.past b d older (past b d older suffix)
  all_goals simp only [dev, blockno, valids, lru, lock, threads]
  case lru => exact core.lru
  case unique => exact core.unique
  case locked => exact core.locked
  case filling => exact core.filling
  case refcnt =>
    intro j
    have old := core.refcnt j
    by_cases same : j = i
    · subst same
      rw [mine, pins, if_pos rfl]
      change n = _
      omega
    · rw [other j same, pins, if_neg same]
      exact old
  case device => grind [core.device]
  case touched => grind [core.touched]
  case current =>
    intro j here
    by_cases same : j = i
    · rw [same, mine]
      exact current
    · rw [other j same, (others _ (elsewhere j (core.device j (.inl here)) same)).2.1]
      exact core.current j here
  case stored =>
    intro b none
    obtain ⟨disk, last, -⟩ := others b (none i valid).symm
    rw [disk, last]
    exact core.stored b none
  case clean =>
    intro j here unchanged out
    by_cases same : j = i
    · rw [same] at unchanged out ⊢
      rw [mine]
      exact clean unchanged out
    · obtain ⟨disk, -, mem⟩ := others _ (elsewhere j (core.device j (.inl here)) same)
      rw [touched j same] at unchanged
      rw [other j same, disk]
      exact core.clean j here unchanged (mt mem.2 out)
  case pinned =>
    intro j
    by_cases same : j = i
    · rw [pins, if_pos same, pinned, same]
      simp only [root, true_and]
    · rw [pins, if_neg same, core.pinned j]
      by_cases here : (s.cache.buf j).dev = rootdev
      · simp only [here, true_and, (others _ (elsewhere j here same)).2.2]
      · simp only [here, false_and]
  case present =>
    intro b mem
    by_cases same : b = (s.cache.buf i).blockno
    · exact ⟨i, root, same.symm⟩
    · exact core.present b ((others b same).2.2.1 mem)

/-- The buffers that a process has, once it is not in `bread`. -/
theorem valid_of_held (idle : (s.thread t).phase = .idle) (held : s.lock i = some t) :
    (s.cache.buf i).valid := by
  refine (core.locked i t held).resolve_right fun filling => ?_
  rw [idle] at filling
  cases filling

theorem pins_eq (valid : (s.cache.buf i).valid) :
    s.pins i = if (s.cache.buf i).blockno ∈ owed then 1 else 0 := by
  rw [core.pinned i]
  simp only [core.device i (.inl valid), true_and]

end

section

variable (core : Core init owed s) (held : s.lock i = some t) (valid : (s.cache.buf i).valid)
include core held valid

/-- The contents of a buffer are changed. -/
theorem give : Core init owed (s.give i d) := by
  refine core.change (n := (s.cache.buf i).refcnt) (p := s.pins i) (by simp [held]) valid
    (modify_buf s.cache i · fun b => { b with data := d }) rfl rfl (fun _ => rfl)
    (same_at s.pins i) (fun j ne => update_of_ne ne _ _) rfl (core.pins_eq valid)
    (fun b ne => ⟨rfl, if_neg ne.symm, .rfl⟩)
    core.nodup (if_pos rfl).symm ?_ fun b d older suffix => ?_
  · intro unchanged
    have : (s.give i d).touched i = true := update_self ..
    rw [this] at unchanged
    cases unchanged
  · exact (suffix_cons_iff.1 suffix).resolve_left (by rintro ⟨⟩)

/-- The changes of a buffer are on the disk, or in the log. -/
theorem settle {disk : Nat → D}
    (others : ∀ b, b ≠ (s.cache.buf i).blockno → disk b = s.disk b)
    (done : (s.cache.buf i).blockno ∉ owed →
      (s.cache.buf i).data = disk (s.cache.buf i).blockno) :
    Core init owed { s.setTouched i false with disk := disk } :=
  core.change (n := (s.cache.buf i).refcnt) (p := s.pins i) (by simp [held]) valid
    (same_at s.cache.buf i) rfl rfl (fun _ => rfl) (same_at s.pins i)
    (fun j ne => update_of_ne ne _ _) rfl (core.pins_eq valid)
    (fun b ne => ⟨others b ne, rfl, .rfl⟩) core.nodup (core.current i valid)
    (fun _ out => done out) fun b d older suffix => suffix

theorem bwrite (home : (s.cache.buf i).blockno = b) :
    Core init owed { s.setTouched i false with disk := update s.disk b (s.cache.buf i).data } := by
  subst home
  exact core.settle held valid (fun b ne => update_of_ne ne _ _) fun _ => by rw [update_self]

/-- `log_write` of a block that is in the log already. -/
theorem absorb (mem : (s.cache.buf i).blockno ∈ owed) : Core init owed (s.setTouched i false) :=
  core.settle held valid (fun _ _ => rfl) (absurd mem)

/-- `log_write` of a block that is not in the log. -/
theorem pin (home : (s.cache.buf i).blockno = b) (new : b ∉ owed) :
    Core init (owed ++ [b]) { (s.setTouched i false).setPins i (s.pins i + 1) with
      cache := s.cache.bpin i } := by
  subst home
  have unpinned : s.pins i = 0 := by rw [core.pinned i, if_neg fun both => new both.2]
  refine core.change (n := (s.cache.buf i).refcnt + 1) (p := 1) (by simp [held]) valid
    (modify_buf s.cache i · fun b => { b with refcnt := b.refcnt + 1 }) rfl rfl (fun _ => rfl)
    (fun j => ?_) (fun j ne => update_of_ne ne _ _) (by rw [unpinned]) (by simp)
    (fun b ne => ⟨rfl, rfl, by simp [ne]⟩) ?_ (core.current i valid)
    (fun _ out => absurd (by simp) out) fun b d older suffix => suffix
  · simp only [setPins, update_apply, unpinned]
    rfl
  · rw [nodup_append_comm]
    exact nodup_cons.2 ⟨new, core.nodup⟩

end

/-- `bunpin` of a block that is written. -/
theorem bunpin (core : Core init (b :: owed) s) (held : s.lock i = some t)
    (valid : (s.cache.buf i).valid) (home : (s.cache.buf i).blockno = b)
    (written : (s.cache.buf i).data = s.disk b) :
    Core init owed { s.setPins i (s.pins i - 1) with cache := s.cache.bunpin i } := by
  subst home
  have pinned : s.pins i = 1 := by
    rw [core.pinned i, if_pos ⟨core.device i (.inl valid), mem_cons_self⟩]
  have used := core.held_busy held
  have distinct := nodup_cons.1 core.nodup
  refine core.change (n := (s.cache.buf i).refcnt - 1) (p := 0) (by simp [held]) valid
    (modify_buf s.cache i · fun b => { b with refcnt := b.refcnt - 1 }) rfl rfl (fun _ => rfl)
    (fun j => ?_) (fun j ne => rfl) (by omega) (by rw [if_neg distinct.1])
    (fun b ne => ⟨rfl, rfl, by simp [ne]⟩) distinct.2 (core.current i valid)
    (fun _ _ => written) fun b d older suffix => suffix
  simp only [setPins, update_apply, pinned]

variable [DecidableEq T]

/-- The references of a process move with its phase. -/
theorem sum_uses (threads : ∀ u, (s'.thread u).phase = if u = t then phase else (s.thread u).phase)
    (i : Fin nbuf) : ∑ u, (s'.thread u).phase.uses i + (s.thread t).phase.uses i =
      ∑ u, (s.thread u).phase.uses i + phase.uses i := by
  have change := Ownership.sum_change (f := fun u => (s.thread u).phase.uses i)
    (g := fun u => (s'.thread u).phase.uses i) (Finset.mem_univ t)
    fun u _ other => by rw [threads, if_neg other]
  rwa [threads, if_pos rfl] at change

/-- A step of process `t` that changes who uses buffer `i`, and no contents. -/
theorem turn {holder : Option T} (core : Core init owed s) (bufs : ∀ j, s'.cache.buf j =
      if j = i then { s.cache.buf i with refcnt := n } else s.cache.buf j)
    (locks : ∀ j, s'.lock j = if j = i then holder else s.lock j)
    (threads : ∀ u, (s'.thread u).phase = if u = t then phase else (s.thread u).phase)
    (lru : ∀ i, i ∈ s'.cache.lru) (disk : s'.disk = s.disk) (touched : s'.touched = s.touched)
    (pins : s'.pins = s.pins) (events : s'.events = s.events)
    (before : ∀ j, (s.thread t).phase ≠ .filling j)
    (elsewhere : ∀ j, j ≠ i → (s.thread t).phase.uses j = 0 ∧ phase.uses j = 0)
    (count : n + (if s.lock i = none then 0 else 1) + (s.thread t).phase.uses i =
      (s.cache.buf i).refcnt + (if holder = none then 0 else 1) + phase.uses i)
    (dev : n ≠ 0 → (s.cache.buf i).dev = rootdev)
    (holds : ∀ u, holder = some u → s.lock i = some u ∨
      u = t ∧ ((s.cache.buf i).valid ∨ phase = .filling i))
    (gets : ∀ u, s.lock i = some u → u ≠ t → holder = some u)
    (fills : ∀ j, phase = .filling j → j = i ∧ holder = some t ∧ ¬ (s.cache.buf i).valid)
    (keeps : s.touched i → holder ≠ none) : Core init owed s' := by
  refine core.moves lru (fun j => ?_) disk touched pins events (fun j => ?_) (fun j used => ?_)
    (fun j u here => ?_) (fun j u here => ?_) fun j changed => ?_
  · rw [bufs]
    split_ifs with same
    · exact ⟨n, by rw [same]⟩
    · exact ⟨_, rfl⟩
  · have moved := sum_uses threads j
    have old := core.refcnt j
    rw [bufs, locks]
    by_cases same : j = i
    · subst same
      rw [if_pos rfl, if_pos rfl]
      change n = _
      omega
    · have none := elsewhere j same
      rw [if_neg same, if_neg same]
      omega
  · grind [core.device j]
  · have before := core.locked j u
    grind
  · have before := core.filling j u
    grind
  · grind [core.touched j]

omit [Fintype T] in
theorem setPhase_phase (s : System T D) (t u : T) (phase : Phase) :
    ((s.setPhase t phase).thread u).phase = if u = t then phase else (s.thread u).phase := by
  simp only [System.setPhase, setThread, update_apply]
  split_ifs <;> rfl

section

variable (core : Core init owed s)
include core

/-- A process gets the lock it waits for. -/
theorem lock (wait : (s.thread t).phase = .waiting i) (free : s.lock i = none)
    (next : phase = if (s.cache.buf i).valid then .idle else .filling i) :
    Core init owed ((s.setLock i (some t)).setPhase t phase) := by
  have quiet (j : Fin nbuf) : phase.uses j = 0 := by
    rw [next]
    split_ifs <;> rfl
  refine core.turn (i := i) (same_at s.cache.buf i) (setLock_lock s i · (some t))
    (setPhase_phase (s.setLock i (some t)) t · phase) core.lru rfl rfl rfl rfl ?_ ?_ ?_
    (fun used => core.device i (.inr used)) ?_ ?_ ?_ fun _ => by simp
  · simp [wait]
  · intro j other
    rw [wait]
    exact ⟨(uses_of_ne other).1, quiet j⟩
  · rw [wait, free, quiet]
    simp [Phase.uses]
  · rintro u ⟨⟩
    rw [next]
    split_ifs with valid
    · exact .inr ⟨rfl, .inl valid⟩
    · exact .inr ⟨rfl, .inr rfl⟩
  · intro u held
    rw [free] at held
    cases held
  · intro j filling
    rw [next] at filling
    split_ifs at filling with invalid
    cases filling
    exact ⟨rfl, rfl, invalid⟩

/-- The end of `brelse`. -/
theorem released (leaving : (s.thread t).phase = .releasing i) :
    Core init owed ({ s with cache := s.cache.brelse i }.setPhase t .idle) := by
  have positive : (s.cache.buf i).refcnt ≠ 0 := by
    have here : (s.thread t).phase.uses i ≤ ∑ u, (s.thread u).phase.uses i :=
      Finset.single_le_sum (f := fun u => (s.thread u).phase.uses i) (fun _ _ => Nat.zero_le _)
        (Finset.mem_univ t)
    have one : (s.thread t).phase.uses i = 1 := by simp [leaving, Phase.uses]
    have count := core.refcnt i
    omega
  refine core.turn (i := i) (n := (s.cache.buf i).refcnt - 1) (fun j => ?_) (same_at s.lock i)
    (setPhase_phase { s with cache := s.cache.brelse i } t · .idle)
    (fun j => brelse_lru (core.lru j)) rfl rfl rfl rfl ?_ ?_ ?_
    (fun _ => core.device i (.inr positive)) (fun u held => .inl held)
    (fun u held _ => held) ?_ (core.touched i)
  · change (s.cache.brelse i).buf j = _
    rw [Bcache.brelse]
    split_ifs <;> simp [modify_buf, *]
  · simp [leaving]
  · intro j other
    rw [leaving]
    exact ⟨(uses_of_ne other).2, rfl⟩
  · rw [leaving]
    simp only [Phase.uses, if_true]
    omega
  · rintro j ⟨⟩

/-- The start of `brelse`, for a buffer whose changes are written or logged. -/
theorem brelse (idle : (s.thread t).phase = .idle) (held : s.lock i = some t)
    (written : s.touched i = false) :
    Core init owed ((s.setLock i none).setPhase t (.releasing i)) := by
  refine core.turn (i := i) (same_at s.cache.buf i) (setLock_lock s i · none)
    (setPhase_phase (s.setLock i none) t · (.releasing i)) core.lru rfl rfl rfl rfl ?_ ?_ ?_
    (fun used => core.device i (.inr used)) ?_ ?_ ?_ ?_
  · simp [idle]
  · intro j other
    rw [idle]
    exact ⟨rfl, (uses_of_ne other).2⟩
  · rw [idle, held]
    simp [Phase.uses]
  · rintro u ⟨⟩
  · intro u here other
    rw [held] at here
    cases here
    exact absurd rfl other
  · rintro j ⟨⟩
  · rw [written]
    rintro ⟨⟩

/-- `bget` finds the block in the cache. -/
theorem hit (idle : (s.thread t).phase = .idle) (found : s.cache.cached rootdev b = some i) :
    Core init owed ({ s with cache := s.cache.modify i fun b =>
      { b with refcnt := b.refcnt + 1 } }.setPhase t (.waiting i)) := by
  refine core.turn (i := i) (n := (s.cache.buf i).refcnt + 1)
    (modify_buf s.cache i · fun b => { b with refcnt := b.refcnt + 1 }) (same_at s.lock i)
    (setPhase_phase _ t · (.waiting i)) core.lru rfl rfl rfl rfl ?_ ?_ ?_
    (fun _ => (cached_some found).1) (fun u held => .inl held) (fun u held _ => held) ?_
    (core.touched i)
  · simp [idle]
  · intro j other
    rw [idle]
    exact ⟨rfl, (uses_of_ne other).1⟩
  · rw [idle]
    simp only [Phase.uses, if_true]
    omega
  · rintro j ⟨⟩

section

variable (lru : s'.cache.lru = s.cache.lru) (lock : s'.lock = s.lock) (disk : s'.disk = s.disk)
  (touched : s'.touched = s.touched) (pins : s'.pins = s.pins) (events : s'.events = s.events)
include lru lock disk touched pins events

/-- The transfer from the disk. -/
theorem fill (filling : (s.thread t).phase = .filling i) (bufs : ∀ j, s'.cache.buf j =
      if j = i then { s.cache.buf i with data := s.disk (s.cache.buf i).blockno, valid := true }
      else s.cache.buf j)
    (threads : ∀ u, (s'.thread u).phase = if u = t then .idle else (s.thread u).phase) :
    Core init owed s' := by
  obtain ⟨held, invalid⟩ := core.filling i t filling
  have used : (s.cache.buf i).refcnt ≠ 0 := core.held_busy held
  have dev := field Buf.dev bufs rfl
  have blockno := field Buf.blockno bufs rfl
  have refcnt := field Buf.refcnt bufs rfl
  have valid (j : Fin nbuf) (other : j ≠ i) : s'.cache.buf j = s.cache.buf j := by
    rw [bufs, if_neg other]
  have full : s'.cache.buf i =
      { s.cache.buf i with data := s.disk (s.cache.buf i).blockno, valid := true } := by
    rw [bufs, if_pos rfl]
  constructor
  case nodup => exact core.nodup
  all_goals simp only [dev, blockno, refcnt, lru, lock, disk, touched, pins, events]
  case lru => exact core.lru
  case touched => exact core.touched
  case past => exact core.past
  case unique => exact core.unique
  case pinned => exact core.pinned
  case present => exact core.present
  case refcnt =>
    intro j
    have moved := sum_uses threads j
    have none : (s.thread t).phase.uses j = 0 := by rw [filling]; rfl
    rw [core.refcnt j]
    change _ = ∑ u, (s.thread u).phase.uses j + 0 at moved
    omega
  case device => grind [core.device]
  case locked => grind [core.locked]
  case filling => grind [core.filling]
  case current =>
    have filled := core.disk_of_invalid invalid used
    grind [core.current]
  case stored =>
    intro b none
    refine core.stored b fun j here => none j ?_
    grind
  case clean => grind [core.clean]

/-- `bget` recycles a buffer. -/
theorem recycle (idle : (s.thread t).phase = .idle) (missing : s.cache.cached rootdev b = none)
    (found : s.cache.unused = some i) (bufs : ∀ j, s'.cache.buf j =
      if j = i then { s.cache.buf i with dev := rootdev, blockno := b, valid := false, refcnt := 1 }
      else s.cache.buf j)
    (threads : ∀ u, (s'.thread u).phase = if u = t then .waiting i else (s.thread u).phase) :
    Core init owed s' := by
  have unused := unused_some found
  have count := core.refcnt i
  have absent (j : Fin nbuf) (dev : (s.cache.buf j).dev = rootdev) :
      (s.cache.buf j).blockno ≠ b := by
    intro same
    have := find?_eq_none.1 missing j (core.lru j)
    simp [dev, same] at this
  have free : s.lock i = none := by
    by_contra held
    rw [if_neg held] at count
    omega
  have other (j : Fin nbuf) (ne : j ≠ i) : s'.cache.buf j = s.cache.buf j := by
    rw [bufs, if_neg ne]
  have fresh : s'.cache.buf i =
      { s.cache.buf i with dev := rootdev, blockno := b, valid := false, refcnt := 1 } := by
    rw [bufs, if_pos rfl]
  constructor
  case nodup => exact core.nodup
  case unique => grind [core.unique]
  case device => grind [core.device]
  case present =>
    intro b' mem
    obtain ⟨j, dev, blockno⟩ := core.present b' mem
    refine ⟨j, ?_⟩
    rw [other]
    · exact ⟨dev, blockno⟩
    · rintro rfl
      exact core.busy_of_owed dev (by rwa [blockno]) unused
  all_goals simp only [lru, lock, disk, touched, pins, events]
  case lru => exact core.lru
  case touched => exact core.touched
  case past => exact core.past
  case refcnt =>
    intro j
    have moved := sum_uses threads j
    have none : (s.thread t).phase.uses j = 0 := by rw [idle]; rfl
    have new : (Phase.waiting i).uses j = if i = j then 1 else 0 := rfl
    by_cases same : j = i
    · subst same
      rw [fresh]
      rw [if_pos rfl] at new
      change 1 = _
      omega
    · rw [other j same, core.refcnt j]
      rw [if_neg (Ne.symm same)] at new
      omega
  case locked => grind [core.locked]
  case filling => grind [core.filling]
  case current => grind [core.current]
  case stored =>
    intro b' none
    by_cases old : (s.cache.buf i).valid ∧ (s.cache.buf i).blockno = b'
    · obtain ⟨valid, rfl⟩ := old
      rw [← core.clean_of_unused unused valid]
      exact core.current i valid
    · refine core.stored b' fun j here same => ?_
      by_cases mine : j = i
      · rw [mine] at here same
        exact old ⟨here, same⟩
      · refine none j ?_ ?_
        all_goals rwa [other j mine]
  case clean => grind [core.clean]
  case pinned =>
    intro j
    by_cases same : j = i
    · subst same
      rw [fresh, if_neg]
      · omega
      · rintro ⟨-, mem⟩
        obtain ⟨k, dev, blockno⟩ := core.present b mem
        exact absent k dev blockno
    · rw [other j same]
      exact core.pinned j

end

/-- A process gets the lock of a buffer, and what it reads. -/
theorem acquired (wait : (s.thread t).phase = .waiting i) (eq : s.acquired t i = some s') :
    Core init owed s' := by
  unfold System.acquired at eq
  split_ifs at eq with free valid <;> cases eq
  · exact (core.lock wait free (by rw [if_pos valid])).read (core.current i valid)
  · exact core.lock wait free (by rw [if_neg valid])

theorem filled (filling : (s.thread t).phase = .filling i) : Core init owed (s.filled t i) := by
  have bufs := (modify_buf s.cache i · fun b =>
    { b with data := s.disk b.blockno, valid := true })
  have full : Core init owed ({ s with cache := s.cache.modify i fun b =>
      { b with data := s.disk b.blockno, valid := true } }.setPhase t .idle) :=
    core.fill rfl rfl rfl rfl rfl rfl filling bufs (setPhase_phase _ t · .idle)
  refine full.read (full.current i ?_)
  exact congrArg Buf.valid ((bufs i).trans (if_pos rfl))

/-- `bget` up to `acquiresleep`. -/
theorem bget {cache : Bcache D} (idle : (s.thread t).phase = .idle)
    (eq : s.cache.bget rootdev b = some (i, cache)) :
    Core init owed ({ s with cache := cache }.setPhase t (.waiting i)) := by
  obtain ⟨found, rfl⟩ | ⟨missing, free, rfl⟩ := Bcache.bget_cases eq
  · exact core.hit idle found
  · exact core.recycle rfl rfl rfl rfl rfl rfl idle missing free (modify_buf s.cache i · fun c =>
      { c with dev := rootdev, blockno := b, valid := false, refcnt := 1 })
      (setPhase_phase _ t · (.waiting i))

end

end Core

end System

end Xv6.Fs
