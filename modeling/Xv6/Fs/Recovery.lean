import Xv6.Lib.Bytes
import Xv6.Fs.Bio

/-!
# Crash recovery from the log

The commands of `commit` on the contents of the blocks: what `bread` returns, what is on the
disk, and the header in memory.  A crash leaves the disk as the writes so far have made it;
then `recover_from_log` runs, and may crash itself any number of times.

`Recovers` says which contents recovery restores: a header that lists blocks, a copy of each
of them in the log, and every other block in its place.  A write of a listed block keeps it, and
writing the header is the only step that changes what is restored.
-/

namespace Xv6.Fs

open Function List Cmd

/-- `BSIZE` bytes. -/
abbrev Block : Type := Nat → UInt8

/-- `struct logheader` is written over a block: `n`, then the block numbers. -/
def writeHeader (lh : List Nat) (data : Block) : Block :=
  Bytes.putAll (Bytes.putLE data 0 lh.length 4) 4 4 lh

/-- `n` is an `int`. -/
def readHeader (data : Block) : List Nat :=
  (List.range (Int.bmod (Bytes.getLE data 0 4) (2 ^ 32)).toNat).map fun i =>
    Bytes.getLE data (4 + 4 * i) 4

theorem readHeader_writeHeader {lh : List Nat} (data : Block) (length : lh.length ≤ logsize)
    (uint : ∀ b ∈ lh, b < 2 ^ 32) : readHeader (writeHeader lh data) = lh := by
  have small : lh.length ≤ 30 := length
  have count : Bytes.getLE (writeHeader lh data) 0 4 = lh.length := by
    rw [writeHeader, Bytes.getLE_putAll_apart (by omega), Bytes.getLE_putLE_of_lt (by omega)]
  have signed : (Int.bmod (lh.length : Int) (2 ^ 32)).toNat = lh.length := by
    rw [Int.bmod_eq_of_le (by omega) (by omega), Int.toNat_natCast]
  rw [readHeader, count]
  refine ext_getElem (by rw [length_map, length_range, signed]) fun i low high => ?_
  rw [getElem_map, getElem_range, writeHeader]
  exact Bytes.getLE_putAll high (uint _ (getElem_mem high))

/-- The place of the log on the disk and the format of its header. -/
structure LogArea (D : Type) extends Area D where
  read : D → List Nat
  read_head : ∀ lh d, lh.length ≤ logsize → (∀ b ∈ lh, b < 2 ^ 32) → read (head lh d) = lh

/-- The log as it is on the disk. -/
def diskLog (start : Nat) (size : Int) : LogArea Block where
  start := start
  size := size
  head := writeHeader
  read := readHeader
  read_head _ data length uint := readHeader_writeHeader data length uint

variable {D : Type} {start tail : Nat} {cmd : Cmd D}

/-- The contents of the blocks: what `bread` returns for them, what the disk has, and the
header in memory. -/
structure Store (D : Type) where
  mem : Nat → D
  disk : Nat → D
  lh : List Nat

namespace Store

def apply (area : Area D) (m : Store D) : Cmd D → Store D
  | .modify b d => { m with mem := update m.mem b d }
  | .bwrite b => { m with disk := update m.disk b (m.mem b) }
  | .logWrite b => { m with lh := if b ∈ m.lh then m.lh else m.lh ++ [b] }
  | .copy src dst => { m with mem := update m.mem dst (m.mem src) }
  | .head => { m with mem := update m.mem area.start (area.head m.lh (m.mem area.start)) }
  | .clear => { m with lh := [] }
  | .bread _ | .brelse _ | .beginOp | .endOp | .bunpin _ | .finish => m

def exec (area : Area D) (m : Store D) (cmds : List (Cmd D)) : Store D := cmds.foldl (apply area) m

end Store

namespace Cmd

/-- A call changes a block. -/
def update (u : Nat × D) : List (Cmd D) := [.bread u.1, .modify u.1 u.2, .logWrite u.1, .brelse u.1]

/-- The header after a list of changes. -/
def logged (lh : List Nat) : List (Nat × D) → List Nat
  | [] => lh
  | u :: us => logged (if u.1 ∈ lh then lh else lh ++ [u.1]) us

/-- A transaction up to the write of its header. -/
def before (start : Nat) (us : List (Nat × D)) : List (Cmd D) :=
  .beginOp :: us.flatMap update ++ .endOp ::
    if logged [] us = [] then [.finish]
    else writeLog start (logged [] us) ++ [.bread start, .head]

def after (start : Nat) (us : List (Nat × D)) : List (Cmd D) :=
  if logged [] us = [] then []
  else .bwrite start :: .brelse start :: installTrans start (logged [] us) ++
    (.clear :: writeHead start) ++ [.finish]

/-- The changes of a transaction, and its commit. -/
def transaction (start : Nat) (us : List (Nat × D)) : List (Cmd D) :=
  .beginOp :: us.flatMap update ++ .endOp :: commit start (logged [] us)

theorem transaction_eq (start : Nat) (us : List (Nat × D)) :
    transaction start us = before start us ++ after start us := by
  unfold transaction before after commit
  split_ifs <;> simp [writeHead]

/-- One round of `install_trans` for recovery. -/
def recoverRound (lbuf dbuf : Nat) : List (Cmd D) :=
  [.bread lbuf, .bread dbuf, .copy lbuf dbuf, .bwrite dbuf, .brelse lbuf, .brelse dbuf]

/-- `recover_from_log` after `read_head`. -/
def recover (start : Nat) (lh : List Nat) : List (Cmd D) :=
  rounds recoverRound start 0 lh ++ .clear :: writeHead start

end Cmd

namespace LogArea

variable {area : LogArea D} {lh : List Nat} {b : Nat} {p : Nat × Nat}

/-- Outside the log. -/
def Home (area : LogArea D) (b : Nat) : Prop := b < area.start ∨ area.start + area.size ≤ b

/-- Blocks that a header may list. -/
structure Fits (area : LogArea D) (lh : List Nat) : Prop where
  nodup : lh.Nodup
  room : (lh.length : Int) + 1 ≤ area.size
  length : lh.length ≤ logsize
  home : ∀ b ∈ lh, area.Home b
  uint : ∀ b ∈ lh, b < 2 ^ 32

/-- The blocks of the log that go with the blocks of a header. -/
def slots (start tail : Nat) : List Nat → List (Nat × Nat)
  | [] => []
  | b :: bs => (start + tail + 1, b) :: slots start (tail + 1) bs

theorem slots_snd (start tail : Nat) (lh : List Nat) : (slots start tail lh).map Prod.snd = lh := by
  induction lh generalizing tail with
  | nil => rfl
  | cons b lh ih => rw [slots, map_cons, ih]

theorem slots_fst (mem : p ∈ slots start tail lh) :
    start + tail < p.1 ∧ p.1 ≤ start + tail + lh.length ∧ p.2 ∈ lh := by
  induction lh generalizing tail with
  | nil => cases mem
  | cons b lh ih =>
    rw [length_cons]
    rcases mem_cons.1 mem with rfl | rest
    · exact ⟨by omega, by omega, mem_cons_self⟩
    · obtain ⟨low, high, there⟩ := ih rest
      exact ⟨by omega, by omega, mem_cons_of_mem b there⟩

theorem slots_nodup (start tail : Nat) (lh : List Nat) :
    ((slots start tail lh).map Prod.fst).Nodup := by
  induction lh generalizing tail with
  | nil => exact nodup_nil
  | cons b lh ih =>
    refine nodup_cons.2 ⟨fun mem => ?_, ih (tail + 1)⟩
    obtain ⟨p, there, eq⟩ := mem_map.1 mem
    have := (slots_fst there).1
    change p.1 = start + tail + 1 at eq
    omega

/-- A block of a header has its slot. -/
theorem exists_slot (start tail : Nat) (mem : b ∈ lh) : ∃ l, (l, b) ∈ slots start tail lh := by
  rw [← slots_snd start tail lh] at mem
  obtain ⟨⟨l, c⟩, there, rfl⟩ := mem_map.1 mem
  exact ⟨l, there⟩

/-- The slots of a header lie behind it, in the log. -/
theorem Fits.slot (fits : area.Fits lh) (mem : p ∈ slots area.start 0 lh) :
    area.start < p.1 ∧ ¬ area.Home p.1 := by
  obtain ⟨low, high, -⟩ := slots_fst mem
  have room := fits.room
  refine ⟨by omega, fun home => ?_⟩
  rcases home with below | above <;> omega

theorem Fits.nil (room : 1 ≤ area.size) : area.Fits [] :=
  ⟨nodup_nil, by simpa using room, Nat.zero_le _, by simp, by simp⟩

theorem ne_start (home : area.Home b) (room : 1 ≤ area.size) : b ≠ area.start := by
  rcases home with below | above <;> omega

/-- The contents that recovery restores from a disk. -/
structure Recovers (area : LogArea D) (disk c : Nat → D) (lh : List Nat) : Prop where
  header : area.read (disk area.start) = lh
  fits : area.Fits lh
  copied : ∀ p ∈ slots area.start 0 lh, disk p.1 = c p.2
  others : ∀ b, area.Home b → b ∉ lh → disk b = c b

namespace Recovers

variable {disk c : Nat → D}

theorem room (recovers : area.Recovers disk c lh) : 1 ≤ area.size := by
  have := recovers.fits.room
  omega

/-- A block that the header lists is written. -/
theorem write_listed (recovers : area.Recovers disk c lh) (mem : b ∈ lh) (d : D) :
    area.Recovers (update disk b d) c lh := by
  have home := recovers.fits.home b mem
  refine ⟨?_, recovers.fits, fun p slot => ?_, fun b' out unlisted => ?_⟩
  · rw [update_of_ne (ne_start home recovers.room).symm]
    exact recovers.header
  · rw [update_of_ne]
    · exact recovers.copied p slot
    · rintro rfl
      exact (recovers.fits.slot slot).2 home
  · rw [update_of_ne]
    · exact recovers.others b' out unlisted
    · rintro rfl
      exact unlisted mem

/-- A block of the log behind the header is written while the header lists nothing. -/
theorem write_slot (recovers : area.Recovers disk c []) (behind : area.start < b)
    (inside : ¬ area.Home b) (d : D) : area.Recovers (update disk b d) c [] := by
  refine ⟨?_, recovers.fits, by rintro p ⟨⟩, fun b' out unlisted => ?_⟩
  · rw [update_of_ne behind.ne]
    exact recovers.header
  · rw [update_of_ne]
    · exact recovers.others b' out unlisted
    · rintro rfl
      exact inside out

end Recovers

end LogArea

namespace Store

variable {area : Area D} {m : Store D}

theorem exec_append (m : Store D) (cmds more : List (Cmd D)) :
    m.exec area (cmds ++ more) = (m.exec area cmds).exec area more :=
  foldl_append

/-- What every command of a list keeps, any beginning of the list keeps. -/
theorem exec_take (P : Store D → Prop) {cmds : List (Cmd D)}
    (each : ∀ cmd ∈ cmds, ∀ m, P m → P (m.apply area cmd)) (start : P m) (k : Nat) :
    P (m.exec area (cmds.take k)) := by
  induction cmds generalizing m k with
  | nil => rwa [take_nil]
  | cons cmd cmds ih =>
    cases k with
    | zero => exact start
    | succ k =>
      refine ih (fun other mem => each other (mem_cons_of_mem cmd mem)) ?_ k
      exact each cmd mem_cons_self m start

/-- A block is copied to another in memory and written to the disk. -/
def transfer (m : Store D) (p : Nat × Nat) : Store D :=
  { m with
    mem := update m.mem p.2 (m.mem p.1)
    disk := update m.disk p.2 (m.mem p.1) }

theorem exec_writeLogRound (m : Store D) (dst src : Nat) :
    m.exec area (writeLogRound dst src) = m.transfer (src, dst) := by
  simp [exec, writeLogRound, apply, transfer]

theorem exec_installRound (m : Store D) (src dst : Nat) :
    m.exec area (installRound src dst) = m.transfer (src, dst) := by
  simp [exec, installRound, apply, transfer]

theorem exec_recoverRound (m : Store D) (src dst : Nat) :
    m.exec area (recoverRound src dst) = m.transfer (src, dst) := by
  simp [exec, recoverRound, apply, transfer]

/-- The loops of `write_log` and `install_trans`. -/
theorem exec_rounds {round : Nat → Nat → List (Cmd D)} (way : Nat × Nat → Nat × Nat)
    (each : ∀ m l b, exec area m (round l b) = m.transfer (way (l, b))) (m : Store D)
    (start tail : Nat) (lh : List Nat) : m.exec area (rounds round start tail lh) =
      ((LogArea.slots start tail lh).map way).foldl transfer m := by
  induction lh generalizing m tail with
  | nil => rfl
  | cons b lh ih => rw [rounds, exec_append, each, ih, LogArea.slots, map_cons, foldl_cons]

/-- Blocks are copied to distinct places, none of which is read. -/
theorem transfers (m : Store D) {ps : List (Nat × Nat)} (apart : ∀ p ∈ ps, ∀ q ∈ ps, p.1 ≠ q.2)
    (nodup : (ps.map Prod.snd).Nodup) : (∀ p ∈ ps, (ps.foldl transfer m).mem p.2 = m.mem p.1 ∧
      (ps.foldl transfer m).disk p.2 = m.mem p.1) ∧
    (∀ x, x ∉ ps.map Prod.snd → (ps.foldl transfer m).mem x = m.mem x ∧
      (ps.foldl transfer m).disk x = m.disk x) ∧ (ps.foldl transfer m).lh = m.lh := by
  induction ps generalizing m with
  | nil => exact ⟨by rintro p ⟨⟩, fun x _ => ⟨rfl, rfl⟩, rfl⟩
  | cons p ps ih =>
    obtain ⟨fresh, nodup⟩ := nodup_cons.1 nodup
    obtain ⟨moved, kept, lh⟩ := ih (m.transfer p)
      (fun q mem r there => apart q (mem_cons_of_mem p mem) r (mem_cons_of_mem p there))
      nodup
    have here : (m.transfer p).mem p.2 = m.mem p.1 ∧ (m.transfer p).disk p.2 = m.mem p.1 :=
      ⟨update_self .., update_self ..⟩
    refine ⟨fun q mem => ?_, fun x out => ?_, lh⟩
    · rcases mem_cons.1 mem with rfl | rest
      · obtain ⟨mem, disk⟩ := kept q.2 fresh
        exact ⟨mem.trans here.1, disk.trans here.2⟩
      · have source : (m.transfer p).mem q.1 = m.mem q.1 :=
          update_of_ne (apart q mem p mem_cons_self) _ _
        rw [← source]
        exact moved q rest
    · rw [map_cons, mem_cons, not_or] at out
      obtain ⟨mem, disk⟩ := kept x out.2
      refine ⟨mem.trans ?_, disk.trans ?_⟩
      · exact update_of_ne out.1 _ _
      · exact update_of_ne out.1 _ _

theorem apply_disk (quiet : ∀ b, cmd ≠ .bwrite b) : (m.apply area cmd).disk = m.disk := by
  cases cmd with
  | bwrite b => exact absurd rfl (quiet b)
  | bread | modify | logWrite | brelse | beginOp | endOp | copy | head | bunpin | clear | finish =>
    rfl

end Store

namespace LogArea

variable {area : LogArea D} {lh : List Nat} {c disk : Nat → D} {m : Store D}
  {round : Nat → Nat → List (Cmd D)} {more : List (Cmd D)}

/-- A round of `install_trans` copies a block of the log home, and writes nothing else. -/
structure Installs (area : LogArea D) (round : Nat → Nat → List (Cmd D)) : Prop where
  copies : ∀ m l b, Store.exec area.toArea m (round l b) = m.transfer (l, b)
  writes : ∀ l b x, .bwrite x ∈ round l b → x = b

theorem installs_installRound (area : LogArea D) : area.Installs installRound :=
  ⟨Store.exec_installRound, by simp [installRound]⟩

theorem installs_recoverRound (area : LogArea D) : area.Installs recoverRound :=
  ⟨Store.exec_recoverRound, by simp [recoverRound]⟩

theorem Installs.listed (installs : area.Installs round) {x : Nat}
    (mem : .bwrite x ∈ rounds round start tail lh) : x ∈ lh := by
  induction lh generalizing tail with
  | nil => cases mem
  | cons b lh ih =>
    rcases mem_append.1 mem with here | rest
    · rw [installs.writes _ _ x here]
      exact mem_cons_self
    · exact mem_cons_of_mem b (ih rest)

/-- A command that writes only what the header lists. -/
theorem Recovers.apply (recovers : area.Recovers m.disk c lh)
    (listed : ∀ b, cmd = .bwrite b → b ∈ lh) :
    area.Recovers (m.apply area.toArea cmd).disk c lh := by
  by_cases write : ∃ b, cmd = .bwrite b
  · obtain ⟨b, rfl⟩ := write
    exact recovers.write_listed (listed b rfl) (m.mem b)
  · rw [Store.apply_disk fun b same => write ⟨b, same⟩]
    exact recovers

/-- The header is erased once every block is in its place. -/
theorem Recovers.erase {disk : Nat → D} (recovers : area.Recovers disk c lh)
    (home : ∀ b ∈ lh, disk b = c b) (d : D) :
    area.Recovers (update disk area.start (area.head [] d)) c [] := by
  refine ⟨?_, .nil recovers.room, by rintro p ⟨⟩, fun b out _ => ?_⟩
  · rw [update_self]
    exact area.read_head [] d (Nat.zero_le _) (by simp)
  · rw [update_of_ne (ne_start out recovers.room)]
    by_cases mem : b ∈ lh
    · exact home b mem
    · exact recovers.others b out mem

/-- `install_trans`, `log.lh.n = 0` and `write_head` up to its write. -/
def installed (start : Nat) (round : Nat → Nat → List (Cmd D)) (lh : List Nat) : List (Cmd D) :=
  rounds round start 0 lh ++ [.clear, .bread start, .head]

theorem Recovers.install_take (recovers : area.Recovers m.disk c lh)
    (installs : area.Installs round) (k : Nat) :
    area.Recovers (m.exec area.toArea ((installed area.start round lh).take k)).disk c lh := by
  refine Store.exec_take (fun m => area.Recovers m.disk c lh) (fun cmd mem m recovers => ?_)
    recovers k
  refine recovers.apply ?_
  rintro b rfl
  rcases mem_append.1 mem with here | rest
  · exact installs.listed here
  · simp at rest

section

variable (recovers : area.Recovers m.disk c lh) (installs : area.Installs round)
  (copied : ∀ p ∈ slots area.start 0 lh, m.mem p.1 = c p.2)
include recovers installs copied

/-- After `install_trans` every block of the header is in its place. -/
theorem Recovers.install :
    ∃ d, (m.exec area.toArea (installed area.start round lh)).mem area.start = area.head [] d ∧
      (m.exec area.toArea (installed area.start round lh)).lh = [] ∧
      (∀ b ∈ lh, (m.exec area.toArea (installed area.start round lh)).disk b = c b) ∧
      ∀ b, area.Home b → (m.exec area.toArea (installed area.start round lh)).mem b =
        if b ∈ lh then c b else m.mem b := by
  have loop := Store.exec_rounds id installs.copies m area.start 0 lh
  rw [map_id] at loop
  have apart (p : Nat × Nat) (mem : p ∈ slots area.start 0 lh) (q : Nat × Nat)
      (there : q ∈ slots area.start 0 lh) : p.1 ≠ q.2 := fun same =>
    (recovers.fits.slot mem).2 (same ▸ recovers.fits.home q.2 (slots_fst there).2.2)
  obtain ⟨moved, kept, -⟩ := Store.transfers m apart (by rw [slots_snd]; exact recovers.fits.nodup)
  rw [slots_snd] at kept
  rw [installed, Store.exec_append, loop]
  refine ⟨_, update_self .., rfl, fun b mem => ?_, fun b home => ?_⟩
  · obtain ⟨l, slot⟩ := exists_slot area.start 0 mem
    exact (moved _ slot).2.trans (copied _ slot)
  · refine (update_of_ne (ne_start home recovers.room) _ _).trans ?_
    split_ifs with mem
    · obtain ⟨l, slot⟩ := exists_slot area.start 0 mem
      exact (moved _ slot).1.trans (copied _ slot)
    · exact (kept b mem).1

/-- The end of `install_trans` and of `write_head`: at any point in it the same contents are
restored. -/
theorem Recovers.finish_take (quiet : ∀ b, .bwrite b ∉ more) (k : Nat) :
    ∃ lh', area.Recovers (m.exec area.toArea
      ((installed area.start round lh ++ .bwrite area.start :: more).take k)).disk c lh' := by
  rw [take_append, Store.exec_append]
  rcases Nat.le_total k (installed area.start round lh).length with inside | beyond
  · rw [Nat.sub_eq_zero_of_le inside]
    exact ⟨lh, recovers.install_take installs k⟩
  · obtain ⟨d, header, -, home, -⟩ := recovers.install installs copied
    have all := recovers.install_take installs k
    rw [take_of_length_le beyond] at all ⊢
    cases k - (installed area.start round lh).length with
    | zero => exact ⟨lh, all⟩
    | succ j =>
      have erased := all.erase home d
      rw [← header] at erased
      refine ⟨[], Store.exec_take (fun m => area.Recovers m.disk c [])
        (fun cmd mem m recovers => recovers.apply ?_) erased j⟩
      rintro b rfl
      exact absurd mem (quiet b)

theorem Recovers.finish (skips : ∀ m, Store.exec area.toArea m more = m) :
    area.Recovers (m.exec area.toArea
      (installed area.start round lh ++ .bwrite area.start :: more)).disk c [] ∧
    (m.exec area.toArea (installed area.start round lh ++ .bwrite area.start :: more)).lh = [] ∧
    ∀ b, area.Home b → (m.exec area.toArea
      (installed area.start round lh ++ .bwrite area.start :: more)).mem b =
        if b ∈ lh then c b else m.mem b := by
  obtain ⟨d, header, empty, home, mem⟩ := recovers.install installs copied
  have all := recovers.install_take installs (installed area.start round lh).length
  rw [take_length] at all
  have erased := all.erase home d
  rw [← header] at erased
  rw [Store.exec_append]
  change area.Recovers (Store.exec area.toArea (Store.apply area.toArea _ _) more).disk c [] ∧
    (Store.exec area.toArea (Store.apply area.toArea _ _) more).lh = [] ∧
    ∀ b, area.Home b → (Store.exec area.toArea (Store.apply area.toArea _ _) more).mem b = _
  rw [skips]
  exact ⟨erased, empty, mem⟩

end

/-- After a crash the buffers are empty and `read_head` has read the header. -/
def reboot (area : LogArea D) (disk : Nat → D) : Store D :=
  ⟨disk, disk, area.read (disk area.start)⟩

/-- The disk after a crash at some point of `recover_from_log`. -/
def crashed (area : LogArea D) (disk : Nat → D) (k : Nat) : Nat → D :=
  ((area.reboot disk).exec area.toArea
    ((recover area.start (area.read (disk area.start))).take k)).disk

/-- The disk after `recover_from_log`. -/
def recovered (area : LogArea D) (disk : Nat → D) : Nat → D :=
  ((area.reboot disk).exec area.toArea (recover area.start (area.read (disk area.start)))).disk

theorem recover_eq (start : Nat) (lh : List Nat) : (recover start lh : List (Cmd D)) =
    installed start recoverRound lh ++ .bwrite start :: [.brelse start] := by
  simp [recover, installed, writeHead]

theorem Recovers.crashed (recovers : area.Recovers disk c lh) (k : Nat) :
    ∃ lh', area.Recovers (area.crashed disk k) c lh' := by
  rw [LogArea.crashed, recovers.header, recover_eq]
  exact Recovers.finish_take (m := area.reboot disk) recovers area.installs_recoverRound
    recovers.copied (by simp) k

theorem Recovers.recovered (recovers : area.Recovers disk c lh) :
    area.Recovers (area.recovered disk) c [] := by
  rw [LogArea.recovered, recovers.header, recover_eq]
  exact (Recovers.finish (m := area.reboot disk) recovers area.installs_recoverRound
    recovers.copied fun _ => rfl).1

end LogArea

end Xv6.Fs
