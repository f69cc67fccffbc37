import Xv6.Fs.Recovery

/-!
# Transactions are atomic

A run is a sequence of transactions, cut off after any number of commands.  Until the header of
a transaction is written only blocks of the log are, so recovery restores what was there
before; from then on it restores what the transaction has made of it.
-/

namespace Xv6.Fs

open Function Cmd Store

variable {D : Type} {area : LogArea D} {us : List (Nat × D)} {lh : List Nat} {b x : Nat}
  {c : Nat → D} {m : Store D}

/-- The contents of the blocks after a list of changes. -/
def contents (c : Nat → D) (us : List (Nat × D)) : Nat → D :=
  us.foldl (fun c u => Function.update c u.1 u.2) c

/-- Changes of blocks outside the log, few enough for it. -/
structure Transaction (area : LogArea D) where
  updates : List (Nat × D)
  home : ∀ u ∈ updates, area.Home u.1
  uint : ∀ u ∈ updates, u.1 < 2 ^ 32
  room : ((Cmd.logged [] updates).length : Int) ≤ area.size - 1
  length : (Cmd.logged [] updates).length ≤ logsize

namespace Cmd

theorem mem_logged : b ∈ logged lh us ↔ b ∈ lh ∨ ∃ u ∈ us, u.1 = b := by
  induction us generalizing lh with
  | nil => simp [logged]
  | cons u us ih =>
    rw [logged, ih]
    split_ifs with old
    · constructor
      · rintro (mem | ⟨v, there, rfl⟩)
        · exact .inl mem
        · exact .inr ⟨v, List.mem_cons_of_mem u there, rfl⟩
      · rintro (mem | ⟨v, there, rfl⟩)
        · exact .inl mem
        · rcases List.mem_cons.1 there with rfl | rest
          · exact .inl old
          · exact .inr ⟨v, rest, rfl⟩
    · simp only [List.mem_append, List.mem_cons, List.not_mem_nil, or_false, exists_eq_or_imp]
      rw [or_assoc, eq_comm]

theorem nodup_logged (nodup : lh.Nodup) : (logged lh us).Nodup := by
  induction us generalizing lh with
  | nil => exact nodup
  | cons u us ih =>
    rw [logged]
    split_ifs with old
    · exact ih nodup
    · refine ih ?_
      rw [List.nodup_append_comm]
      exact List.nodup_cons.2 ⟨old, nodup⟩

end Cmd

theorem contents_of_notMem (out : b ∉ logged lh us) : contents c us b = c b := by
  induction us generalizing c with
  | nil => rfl
  | cons u us ih =>
    rw [mem_logged, not_or] at out
    rw [contents, List.foldl_cons]
    refine (ih (c := update c u.1 u.2) ?_).trans (update_of_ne ?_ _ _)
    · rw [mem_logged, not_or]
      exact ⟨out.1, fun ⟨v, mem, eq⟩ => out.2 ⟨v, List.mem_cons_of_mem u mem, eq⟩⟩
    · exact fun same => out.2 ⟨u, List.mem_cons_self, same.symm⟩

theorem contents_congr {c' : Nat → D} (same : c' b = c b) : contents c' us b = contents c us b := by
  induction us generalizing c c' with
  | nil => exact same
  | cons u us ih =>
    refine ih ?_
    simp only [update_apply, same]

theorem Transaction.fits (tx : Transaction area) : area.Fits (logged [] tx.updates) := by
  refine ⟨nodup_logged List.nodup_nil, by have := tx.room; omega, tx.length, ?_, ?_⟩
  · intro b mem
    obtain ⟨u, there, rfl⟩ := (mem_logged.1 mem).resolve_left (by simp)
    exact tx.home u there
  · intro b mem
    obtain ⟨u, there, rfl⟩ := (mem_logged.1 mem).resolve_left (by simp)
    exact tx.uint u there

namespace Store

/-- The changes of a transaction stay in memory. -/
theorem exec_updates (m : Store D) (us : List (Nat × D)) : m.exec area.toArea (us.flatMap update) =
    ⟨contents m.mem us, m.disk, logged m.lh us⟩ := by
  induction us generalizing m with
  | nil => rfl
  | cons u us ih =>
    rw [List.flatMap_cons, exec_append, ih]
    rfl

end Store

namespace LogArea

/-- Between two transactions. -/
structure Rest (area : LogArea D) (m : Store D) (c : Nat → D) : Prop where
  lh : m.lh = []
  disk : area.Recovers m.disk c []
  mem : ∀ b, area.Home b → m.mem b = c b

theorem writeLog_slot {start tail : Nat}
    (mem : .bwrite x ∈ (rounds writeLogRound start tail lh : List (Cmd D))) :
    ∃ p ∈ slots start tail lh, p.1 = x := by
  induction lh generalizing tail with
  | nil => cases mem
  | cons b lh ih =>
    rcases List.mem_append.1 mem with here | rest
    · simp only [writeLogRound, List.mem_cons, List.not_mem_nil, or_false, reduceCtorEq,
        false_or, bwrite.injEq] at here
      exact ⟨_, List.mem_cons_self, here.symm⟩
    · obtain ⟨p, there, eq⟩ := ih rest
      exact ⟨p, List.mem_cons_of_mem _ there, eq⟩

/-- A transaction writes only blocks of the log before its header. -/
theorem before_writes (mem : .bwrite x ∈ before area.start us) :
    ∃ p ∈ slots area.start 0 (logged [] us), p.1 = x := by
  simp only [before, List.mem_append, List.mem_cons, reduceCtorEq, false_or,
    List.mem_flatMap] at mem
  rcases mem with ⟨u, -, here⟩ | rest
  · simp [Cmd.update] at here
  · split_ifs at rest
    · simp at rest
    · simp only [List.mem_append, List.mem_cons, reduceCtorEq, List.not_mem_nil, or_false] at rest
      exact writeLog_slot rest

theorem before_take (tx : Transaction area) (disk : area.Recovers m.disk c []) (k : Nat) :
    area.Recovers (m.exec area.toArea ((before area.start tx.updates).take k)).disk c [] := by
  refine exec_take (fun m => area.Recovers m.disk c []) (fun cmd mem m recovers => ?_) disk k
  by_cases write : ∃ x, cmd = .bwrite x
  · obtain ⟨x, rfl⟩ := write
    obtain ⟨p, slot, rfl⟩ := before_writes mem
    exact recovers.write_slot (tx.fits.slot slot).1 (tx.fits.slot slot).2 (m.mem p.1)
  · rw [apply_disk fun b same => write ⟨b, same⟩]
    exact recovers

/-- The header is about to be written. -/
structure Ready (area : LogArea D) (m : Store D) (c : Nat → D) (lh : List Nat) : Prop where
  header : ∃ d, m.mem area.start = area.head lh d
  copied : ∀ p ∈ slots area.start 0 lh, m.mem p.1 = c p.2 ∧ m.disk p.1 = c p.2
  mem : ∀ b, area.Home b → m.mem b = c b
  others : ∀ b, area.Home b → b ∉ lh → m.disk b = c b

theorem before_all (tx : Transaction area) (rest : area.Rest m c)
    (some : logged [] tx.updates ≠ []) :
    area.Ready (m.exec area.toArea (before area.start tx.updates)) (contents c tx.updates)
      (logged [] tx.updates) := by
  have fits := tx.fits
  have room := rest.disk.room
  let changed : Store D := ⟨contents m.mem tx.updates, m.disk, logged [] tx.updates⟩
  let log : List (Nat × Nat) := (slots area.start 0 (logged [] tx.updates)).map Prod.swap
  have updates : m.exec area.toArea (.beginOp :: tx.updates.flatMap update) = changed := by
    have run : m.exec area.toArea (tx.updates.flatMap update) =
        ⟨contents m.mem tx.updates, m.disk, logged m.lh tx.updates⟩ :=
      exec_updates m tx.updates
    rw [rest.lh] at run
    exact run
  have split : m.exec area.toArea (before area.start tx.updates) =
      (log.foldl transfer changed).exec area.toArea [.bread area.start, .head] := by
    rw [before, if_neg some, exec_append, updates, ← exec_rounds Prod.swap
      exec_writeLogRound changed area.start 0, ← exec_append]
    rfl
  have targets : log.map Prod.snd = (slots area.start 0 (logged [] tx.updates)).map Prod.fst := by
    rw [List.map_map]
    rfl
  have swapped (p : Nat × Nat) (mem : p ∈ log) :
      (p.2, p.1) ∈ slots area.start 0 (logged [] tx.updates) := by
    obtain ⟨q, there, rfl⟩ := List.mem_map.1 mem
    exact there
  have apart (p : Nat × Nat) (mem : p ∈ log) (q : Nat × Nat) (there : q ∈ log) : p.1 ≠ q.2 :=
    fun same => (fits.slot (swapped q there)).2
      (same ▸ fits.home p.1 (slots_fst (swapped p mem)).2.2)
  obtain ⟨moved, kept, lh⟩ := transfers changed apart (by rw [targets]; exact slots_nodup _ _ _)
  have home (b : Nat) (out : area.Home b) : (log.foldl transfer changed).mem b =
      contents c tx.updates b ∧ (log.foldl transfer changed).disk b = m.disk b := by
    have apart : b ∉ log.map Prod.snd := by
      rw [targets]
      intro mem
      obtain ⟨p, there, rfl⟩ := List.mem_map.1 mem
      exact (fits.slot there).2 out
    exact ⟨(kept b apart).1.trans (contents_congr (rest.mem b out)), (kept b apart).2⟩
  rw [split]
  refine ⟨?_, fun p slot => ?_, fun b out => ?_, fun b out unlisted => ?_⟩
  · have header : (log.foldl transfer changed).lh = logged [] tx.updates := lh
    rw [← header]
    exact ⟨_, update_self ..⟩
  · obtain ⟨mem, disk⟩ := moved (p.2, p.1) (List.mem_map.2 ⟨p, slot, rfl⟩)
    have value : contents m.mem tx.updates p.2 = contents c tx.updates p.2 :=
      contents_congr (rest.mem p.2 (fits.home p.2 (slots_fst slot).2.2))
    refine ⟨?_, disk.trans value⟩
    exact (update_of_ne (fits.slot slot).1.ne' _ _).trans (mem.trans value)
  · exact (update_of_ne (ne_start out room) _ _).trans (home b out).1
  · refine (home b out).2.trans ?_
    rw [contents_of_notMem unlisted]
    exact rest.disk.others b out (by simp)

/-- The header is written. -/
theorem Ready.commits (ready : area.Ready m c lh) (fits : area.Fits lh) :
    area.Recovers (m.apply area.toArea (.bwrite area.start)).disk c lh := by
  have room : 1 ≤ area.size := by
    have := fits.room
    omega
  obtain ⟨d, header⟩ := ready.header
  refine ⟨?_, fits, fun p slot => ?_, fun b out unlisted => ?_⟩
  · have written : (m.apply area.toArea (.bwrite area.start)).disk area.start = m.mem area.start :=
      update_self ..
    rw [written, header]
    exact area.read_head lh d fits.length fits.uint
  · exact (update_of_ne (fits.slot slot).1.ne' _ _).trans (ready.copied p slot).2
  · exact (update_of_ne (ne_start out room) _ _).trans (ready.others b out unlisted)

/-- The commands after the header is written. -/
theorem after_eq (some : logged [] us ≠ []) (start : Nat) : after start us =
    .bwrite start :: .brelse start :: (installed start installRound (logged [] us) ++
      .bwrite start :: [.brelse start, .finish]) := by
  simp [after, some, installed, installTrans, writeHead]

section

variable (tx : Transaction area) (some : logged [] tx.updates ≠ [])
  (ready : area.Ready m c (logged [] tx.updates))
include tx some ready

theorem after_take (k : Nat) : ∃ lh, area.Recovers
      (m.exec area.toArea ((after area.start tx.updates).take (k + 1))).disk c lh := by
  have committed := ready.commits tx.fits
  rw [after_eq some]
  cases k with
  | zero => exact ⟨_, committed⟩
  | succ k =>
    exact committed.finish_take area.installs_installRound (fun p slot => (ready.copied p slot).1)
      (by simp) k

theorem after_all : area.Rest (m.exec area.toArea (after area.start tx.updates)) c := by
  obtain ⟨disk, lh, mem⟩ := (ready.commits tx.fits).finish area.installs_installRound
    (fun p slot => (ready.copied p slot).1)
    (fun _ => rfl : ∀ m, exec area.toArea m [.brelse area.start, .finish] = m)
  rw [after_eq some]
  refine ⟨lh, disk, fun b out => (mem b out).trans ?_⟩
  split_ifs
  · rfl
  · exact ready.mem b out

end

/-- A transaction that changes nothing. -/
theorem updates_nil (none : logged [] us = []) : us = [] := by
  cases us with
  | nil => rfl
  | cons u us =>
    have mem : u.1 ∈ logged [] (u :: us) :=
      mem_logged.2 (.inr ⟨u, List.mem_cons_self, rfl⟩)
    rw [none] at mem
    cases mem

/-- A transaction that is cut off. -/
theorem transaction_take (tx : Transaction area) (rest : area.Rest m c) (k : Nat) :
    ∃ lh, area.Recovers (m.exec area.toArea ((transaction area.start tx.updates).take k)).disk
      (if k ≤ (before area.start tx.updates).length then c else contents c tx.updates) lh := by
  rw [transaction_eq, List.take_append, exec_append]
  by_cases none : logged [] tx.updates = []
  · have same : contents c tx.updates = c := by rw [updates_nil none]; rfl
    rw [after, if_pos none, List.take_nil, same, ite_self]
    exact ⟨[], before_take tx rest.disk k⟩
  · split_ifs with inside
    · rw [Nat.sub_eq_zero_of_le inside]
      exact ⟨[], before_take tx rest.disk k⟩
    · obtain ⟨j, eq⟩ : ∃ j, k - (before area.start tx.updates).length = j + 1 :=
        ⟨k - (before area.start tx.updates).length - 1, by omega⟩
      rw [eq, List.take_of_length_le (by omega)]
      exact after_take tx none (before_all tx rest none) j

theorem transaction_all (tx : Transaction area) (rest : area.Rest m c) :
    area.Rest (m.exec area.toArea (transaction area.start tx.updates)) (contents c tx.updates) := by
  by_cases none : logged [] tx.updates = []
  · rw [updates_nil none]
    exact rest
  · rw [transaction_eq, exec_append]
    exact after_all tx none (before_all tx rest none)

/-- The commands of a sequence of transactions. -/
def run (area : LogArea D) (txs : List (Transaction area)) : List (Cmd D) :=
  txs.flatMap fun tx => Cmd.transaction area.start tx.updates

/-- How many transactions have written their header within a number of commands. -/
def committed (area : LogArea D) : List (Transaction area) → Nat → Nat
  | [], _ => 0
  | tx :: txs, k =>
    if k ≤ (Cmd.before area.start tx.updates).length then 0
    else area.committed txs (k - (Cmd.transaction area.start tx.updates).length) + 1

theorem committed_zero (txs : List (Transaction area)) : area.committed txs 0 = 0 := by
  cases txs with
  | nil => rfl
  | cons tx txs => exact if_pos (Nat.zero_le _)

/-- A sequence of transactions that is cut off. -/
theorem run_take (txs : List (Transaction area)) (rest : area.Rest m c) (k : Nat) :
    ∃ lh, area.Recovers (m.exec area.toArea ((area.run txs).take k)).disk
      (contents c ((txs.take (area.committed txs k)).flatMap Transaction.updates)) lh := by
  induction txs generalizing m c k with
  | nil =>
    rw [run, List.flatMap_nil, List.take_nil]
    exact ⟨[], rest.disk⟩
  | cons tx txs ih =>
    obtain ⟨lh, first⟩ := transaction_take tx rest k
    rw [run, List.flatMap_cons, List.take_append, exec_append, committed]
    split_ifs at first ⊢ with open_
    · have inside : k ≤ (transaction area.start tx.updates).length := by
        rw [transaction_eq, List.length_append]
        omega
      rw [Nat.sub_eq_zero_of_le inside]
      exact ⟨lh, first⟩
    · rw [List.take_succ_cons, List.flatMap_cons, contents, List.foldl_append]
      rcases Nat.le_total k (transaction area.start tx.updates).length with inside | beyond
      · rw [Nat.sub_eq_zero_of_le inside, committed_zero]
        exact ⟨lh, first⟩
      · rw [List.take_of_length_le beyond]
        exact ih (transaction_all tx rest) _

/-- Recovery may crash any number of times. -/
theorem Recovers.crashes {disk : Nat → D} (recovers : ∃ lh, area.Recovers disk c lh)
    (ks : List Nat) : ∃ lh, area.Recovers (ks.foldl area.crashed disk) c lh := by
  induction ks generalizing disk with
  | nil => exact recovers
  | cons k ks ih =>
    obtain ⟨lh, recovers⟩ := recovers
    exact ih (recovers.crashed k)

end LogArea

/-- Transactions run on a disk with an empty log and are cut off after any number of commands;
recovery is cut off any number of times and then runs to its end.  Every block outside the log
has what the transactions that have written their header have made of it. -/
theorem crash_atomic (start : Nat) (size : Int) (room : 1 ≤ size) (disk : Nat → Block)
    (empty : readHeader (disk start) = []) (txs : List (Transaction (diskLog start size)))
    (k : Nat) (ks : List Nat) (b : Nat) (home : (diskLog start size).Home b) :
    (diskLog start size).recovered (ks.foldl (diskLog start size).crashed
      (Store.exec (diskLog start size).toArea ⟨disk, disk, []⟩
        (((diskLog start size).run txs).take k)).disk) b =
    contents disk ((txs.take ((diskLog start size).committed txs k)).flatMap
      Transaction.updates) b := by
  have header : (diskLog start size).read (disk (diskLog start size).start) = [] := by
    rw [← empty, diskLog]
  have clean : (diskLog start size).Recovers disk disk [] :=
    ⟨header, .nil room, by rintro p ⟨⟩, fun _ _ _ => rfl⟩
  have cut := LogArea.run_take txs (m := ⟨disk, disk, []⟩) ⟨rfl, clean, fun _ _ => rfl⟩ k
  obtain ⟨lh, recovers⟩ := LogArea.Recovers.crashes cut ks
  exact recovers.recovered.others b home (by simp)

/-- Two blocks are changed. -/
def pairTx : Transaction (diskLog 2 30) where
  updates := [(100, fun _ => 1), (101, fun _ => 2)]
  home := by simp [LogArea.Home, diskLog]
  uint := by simp
  room := by simp [Cmd.logged, diskLog]
  length := by simp [Cmd.logged, logsize, maxopblocks]

/-- A crash inside `install_trans` and two more inside recovery; and a crash when the header is
about to be written. -/
theorem crash_atomic_pair :
    (diskLog 2 30).recovered ([3, 5].foldl (diskLog 2 30).crashed
      (Store.exec (diskLog 2 30).toArea ⟨fun _ _ => 0, fun _ _ => 0, []⟩
        (((diskLog 2 30).run [pairTx]).take 30)).disk) 101 = (fun _ => 2) ∧
    (diskLog 2 30).recovered ([3, 5].foldl (diskLog 2 30).crashed
      (Store.exec (diskLog 2 30).toArea ⟨fun _ _ => 0, fun _ _ => 0, []⟩
        (((diskLog 2 30).run [pairTx]).take 24)).disk) 101 = fun _ => 0 := by
  have empty : readHeader ((fun _ _ => 0 : Nat → Block) 2) = [] := by decide +kernel
  have home : (diskLog 2 30).Home 101 := by simp [LogArea.Home, diskLog]
  exact ⟨crash_atomic 2 30 (by decide) (fun _ _ => 0) empty [pairTx] 30 [3, 5] 101 home,
    crash_atomic 2 30 (by decide) (fun _ _ => 0) empty [pairTx] 24 [3, 5] 101 home⟩

end Xv6.Fs
