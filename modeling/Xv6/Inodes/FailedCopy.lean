import Xv6.Inodes.Contents
import Xv6.Syscalls

/-!
# A user copy that fails

`either_copyin` copies straight into the cached block.  When it fails inside a chunk the chunk does
not count for the result of `writei`, and the block is not logged; but the bytes copied before the
bad page stay in the cache, where `readi` finds them.
-/

namespace Xv6.Inodes

open Fallible

namespace Disk

variable {d d' : Disk} {i off n x : Nat}

/-- What `readi` of one byte delivers. -/
def readByte (d : Disk) (i x : Nat) : Except String (List UInt8) :=
  (d.readi (d.dinode i) toKernel [] x 1).map fun result => result.2.2.1

/-- Outside of the `r` bytes at `off` the file reads as before. -/
def Preserved (d d' : Disk) (i off : Nat) (r : Int) : Prop :=
  ∀ x < 2 ^ 32, ¬ (off ≤ x ∧ (x : Int) < off + r) → d'.readByte i x = d.readByte i x

/-- The part of the source that is copied into the same block as the first byte that cannot be
read is already there, as far as the file goes. -/
def Harmless (d : Disk) (ip : Dinode) (src : Source) (off n : Nat) : Prop :=
  ∀ bad < n, src.byte bad = none → (∀ x < bad, (src.byte x).isSome) →
    ∀ x < bad, (off + x) / bsize = (off + bad) / bsize → off + x < ip.size →
      src.byte x = d.byte ip (off + x)

theorem readByte_eq (holeFree : d.HoleFree (d.dinode i)) (uint : x < 2 ^ 32) :
    d.readByte i x =
      .ok (if x < (d.dinode i).size then [(d.byte (d.dinode i) x).getD 0] else []) := by
  have size := (getDinode_fits (d.block (d.sb.iblock i)) (i % ipb)).size
  obtain ⟨chunks, flat, run⟩ := readi_spec holeFree (show x < 2 ^ 32 ∧ 1 < 2 ^ 32 by omega) size
  have whole : chunks.flatten =
      if x < (d.dinode i).size then [(d.byte (d.dinode i) x).getD 0] else [] := by
    rw [flat, ← range_eq_take_drop, range]
    unfold dinode at size ⊢
    by_cases inside : x < (getDinode (d.block (d.sb.iblock i)) (i % ipb)).size
    · rw [if_pos inside, if_pos (by omega), min_eq_left (by omega)]
      rfl
    · rw [if_neg inside, min_eq_right (by omega),
        show (getDinode (d.block (d.sb.iblock i)) (i % ipb)).size - x = 0 by omega]
      exact ite_self _
  rw [readByte, run, deliver_toKernel, whole]
  rfl

/-- Bytes that are the same read the same. -/
theorem preserved_of_byte {r : Nat} (holeFree : d.HoleFree (d.dinode i))
    (holeFree' : d'.HoleFree (d'.dinode i)) (le : off ≤ (d.dinode i).size)
    (size : (d'.dinode i).size = max (d.dinode i).size (off + r)) :
    Preserved d d' i off r ↔ ∀ x < (d.dinode i).size, ¬ (off ≤ x ∧ x < off + r) →
      d'.byte (d'.dinode i) x = d.byte (d.dinode i) x := by
  have fits : (d.dinode i).size < 2 ^ 32 := (getDinode_fits _ _).size
  have some := holeFree_iff.1 holeFree
  have some' := holeFree_iff.1 holeFree'
  constructor
  · intro preserved x lt outside
    have read := preserved x (by omega) (by omega)
    rw [readByte_eq holeFree (by omega), readByte_eq holeFree' (by omega), if_pos lt,
      if_pos (by omega)] at read
    obtain ⟨v, old⟩ := Option.isSome_iff_exists.1 (some x lt)
    obtain ⟨v', new⟩ := Option.isSome_iff_exists.1 (some' x (by omega))
    rw [old, new] at read ⊢
    cases read
    rfl
  · intro same x uint outside
    rw [readByte_eq holeFree uint, readByte_eq holeFree' uint]
    by_cases lt : x < (d.dinode i).size
    · rw [if_pos lt, if_pos (by omega), same x lt (by omega)]
    · rw [if_neg lt, if_neg (by omega)]

/-- A `writei` that returns less than it was asked for leaves the rest of the file as it was exactly
if the request is refused or the bytes before the bad one, in its block, are the old ones.  It
returns, unless the log has no room for the blocks that it can log. -/
theorem writei_preserves_iff (src : Source) (holds : d.Holds d.dinode []) (live : d.Live d.dinode i)
    (holeFree : d.HoleFree (d.dinode i)) (trans : 0 < d.outstanding)
    (uint : off < 2 ^ 32 ∧ n < 2 ^ 32) :
    (d.writei i (d.dinode i) src off n = .error "too big a transaction" ∧
      ¬ d.HasRoom (logNeed off n)) ∨
    ∃ (d' : Disk) (r : Int), d.writei i (d.dinode i) src off n = .ok (d', d'.dinode i, r) ∧
      ((r < n → Preserved d d' i off r) ↔
        (InRange (d.dinode i) off n → Harmless d (d.dinode i) src off n)) := by
  obtain ⟨⟨d', ip, r⟩, run, -⟩ | full := writei_logs src i off uint.2 holeFree trans
  case inr => exact .inl full
  right
  by_cases inside : InRange (d.dinode i) off n
  · obtain ⟨done, extra, rfl, rfl, written, stopped⟩ := writei_spec holds live inside run
    have holeFree' := written.holeFree holeFree inside.1
    have some := holeFree_iff.1 holeFree
    refine ⟨d', done, run, ?_⟩
    rw [preserved_of_byte holeFree holeFree' inside.1 written.size]
    -- a byte that cannot be read is not among those copied
    have late {x : Nat} (unreadable : src.byte x = none) : done + extra ≤ x := by
      by_contra early
      obtain ⟨value, there⟩ := written.written (off + x) (by omega) (by omega)
      rw [value, show off + x - off = x by omega, unreadable] at there
      cases there
    cases stopped with
    | finished all none =>
      refine iff_of_true (fun short => by omega) fun _ bad lt unreadable => ?_
      have past := late unreadable
      omega
    | full full hole short none =>
      refine iff_of_true (fun _ x lt outside => written.kept x (by omega) (some x lt)) ?_
      intro _ bad lt unreadable _ x before block old
      -- the block is there, so the loop does not stop before the bad byte
      exfalso
      have behind := late unreadable
      have there := isSome_byte.1 (some (off + x) old)
      have absent : ¬ (d.byte (d.dinode i) (off + done)).isSome := by
        intro there
        have kept := written.kept (off + done) (by omega) there
        rw [hole] at kept
        rw [← kept] at there
        cases there
      have past : (d.dinode i).size ≤ off + done := by
        by_contra early
        exact absent (some _ (by omega))
      rw [isSome_byte, show (off + done) / bsize = (off + x) / bsize from ?_] at absent
      · exact absent there
      · have size : bsize = 1024 := rfl
        rw [size] at block ⊢
        omega
    | unreadable short start block bad =>
      constructor
      · intro preserved _ first lt unreadable before x early same old
        have here : first = done + extra := by
          by_contra ne
          have behind := late unreadable
          have there := before (done + extra) (by omega)
          rw [bad] at there
          cases there
        rw [here, ← Nat.add_assoc, block] at same
        -- the chunk begins at its block or at the start of the range
        have chunk : done ≤ x := by
          have size : bsize = 1024 := rfl
          rw [size] at same start
          omega
        obtain ⟨value, -⟩ := written.written (off + x) (by omega) (by omega)
        rw [show off + x - off = x by omega] at value
        rw [← value]
        exact preserved (by omega) (off + x) old (by omega)
      · intro harmless _ x lt outside
        by_cases copied : off ≤ x ∧ x < off + done + extra
        · obtain ⟨value, -⟩ := written.written x copied.1 copied.2
          have readable (y : Nat) (lt : y < done + extra) : (src.byte y).isSome :=
            Option.isSome_iff_ne_none.2 fun none => absurd (late none) (by omega)
          have same := harmless inside (done + extra) short bad readable (x - off) (by omega) (by
              have size : bsize = 1024 := rfl
              rw [size] at block ⊢
              omega) (by omega)
          rw [value, same, show off + (x - off) = x by omega]
        · exact written.kept x copied (some x lt)
  · refine ⟨d, -1, writei_refused uint inside, iff_of_true (fun _ _ _ _ => rfl) ?_⟩
    exact fun there => absurd there inside

/-- A disk with a file of two bytes `v`. -/
def twoBytes (v : UInt8) : Except String Disk := do
  let result ← emptyFile.writei 1 (emptyFile.dinode 1) (.kernel (fun _ => v) 0) 0 2
  pure result.1

theorem twoBytes_ready {v : UInt8} (two : twoBytes v = .ok d) :
    d.Holds d.dinode [] ∧ d.Live d.dinode 1 ∧ d.HoleFree (d.dinode 1) := by
  have live : emptyFile.Live emptyFile.dinode 1 := by decide
  obtain ⟨_, run⟩ := of_fst_ok two
  obtain ⟨done, extra, -, -, written, -⟩ := writei_spec emptyFile_holds live
    (show InRange (emptyFile.dinode 1) 0 2 from ⟨Nat.zero_le _, by decide⟩) run
  refine ⟨written.holds, ⟨?_, ?_⟩, written.holeFree (emptyDisk_holeFree 2 4) (Nat.zero_le _)⟩
  · rw [written.sb]
    exact live.1
  · rw [written.type]
    exact live.2

/-- The first process has one page, of zeros.  It writes two bytes from the end of it to the
file. -/
def lastByte (v : UInt8) (test : Disk → Disk × Dinode × Int → Bool) : Bool :=
  Kernel.boots 24 fun s => (s.machine.space (.proc 0)).any fun sp => yields (twoBytes v) fun d =>
    decide (userByte s.machine.kmem sp.pagetable 4095 = some 0) &&
      yields (d.writei 1 (d.dinode 1) (.user s.machine.kmem sp.pagetable 4095) 0 2) (test d)

theorem of_lastByte {v : UInt8} {test : Disk → Disk × Dinode × Int → Bool}
    (pass : lastByte v test = true) : ∃ (s : Kernel) (sp : Space) (d : Disk) (result : _),
    s.Booted ∧
      s.machine.space (.proc 0) = some sp ∧ twoBytes v = .ok d ∧
      (Source.user s.machine.kmem sp.pagetable 4095).byte 0 = some 0 ∧
      d.writei 1 (d.dinode 1) (.user s.machine.kmem sp.pagetable 4095) 0 2 = .ok result ∧
      test d result = true := by
  obtain ⟨s, booted, pass⟩ := Kernel.of_boots pass
  obtain ⟨sp, space, pass⟩ := (Option.any_eq_true _ _).1 pass
  obtain ⟨d, two, pass⟩ := of_yields pass
  obtain ⟨last, pass⟩ := Bool.and_eq_true_iff.1 pass
  obtain ⟨result, run, pass⟩ := of_yields pass
  exact ⟨s, sp, d, result, booted, space, two, of_decide_eq_true last, run, pass⟩

/-- The first byte of the file was seven.  The call returns zero, and it is zero now. -/
theorem failed_copy_damages : ∃ (s : Kernel) (sp : Space) (d d' : Disk), s.Booted ∧
    s.machine.space (.proc 0) = some sp ∧ d.Holds d.dinode [] ∧ d.Live d.dinode 1 ∧
    d.HoleFree (d.dinode 1) ∧
    d.writei 1 (d.dinode 1) (.user s.machine.kmem sp.pagetable 4095) 0 2 =
      .ok (d', d'.dinode 1, 0) ∧
    d.readByte 1 0 = .ok [7] ∧ d'.readByte 1 0 = .ok [0] ∧ ¬ Preserved d d' 1 0 0 := by
  have pass : lastByte 7 (fun d result => decide (result.2.2 = 0) &&
      (decide ((d.dinode 1).size = 2) &&
        yields (d.readByte 1 0) fun byte => decide (byte = [7]))) = true := by decide +kernel
  obtain ⟨s, sp, d, ⟨d', ip, r⟩, booted, space, two, last, run, test⟩ := of_lastByte pass
  obtain ⟨holds, live, holeFree⟩ := twoBytes_ready two
  obtain ⟨zero, test⟩ := Bool.and_eq_true_iff.1 test
  obtain ⟨size, before⟩ := Bool.and_eq_true_iff.1 test
  have size : (d.dinode 1).size = 2 := of_decide_eq_true size
  obtain ⟨old, read, seven⟩ := of_yields before
  rw [of_decide_eq_true seven] at read
  obtain rfl : r = 0 := of_decide_eq_true zero
  obtain ⟨done, extra, rfl, none, written, stopped⟩ :=
    writei_spec holds live (show InRange _ 0 2 from ⟨Nat.zero_le _, by decide⟩) run
  obtain rfl : done = 0 := by omega
  -- one byte was stored by the copy that failed
  have stored : 0 < extra := by
    cases stopped with
    | finished all _ => cases all
    | full full hole short nothing =>
      have there := holeFree_iff.1 holeFree 0 (by omega)
      have kept := written.kept 0 (by omega) there
      rw [hole] at kept
      rw [← kept] at there
      cases there
    | unreadable short start block bad =>
      by_contra nothing
      rw [show 0 + extra = 0 by omega, last] at bad
      cases bad
  obtain ⟨value, -⟩ := written.written 0 (Nat.zero_le _) (by omega)
  have read' : d'.readByte 1 0 = .ok [0] := by
    rw [readByte_eq (written.holeFree holeFree (Nat.zero_le _)) (by decide), value, Nat.sub_zero,
      last, written.size, size]
    rfl
  refine ⟨s, sp, d, d', booted, space, holds, live, holeFree, run, read, read', fun preserved => ?_⟩
  have same := preserved 0 (by decide) (by decide)
  rw [read, read'] at same
  cases same

/-- The bytes of the file were zero: the copy fails after it has stored one of them, and the file
is as before. -/
theorem writei_preserves_zeros : ∃ (s : Kernel) (sp : Space) (d d' : Disk), s.Booted ∧
    s.machine.space (.proc 0) = some sp ∧ twoBytes 0 = .ok d ∧
    d.writei 1 (d.dinode 1) (.user s.machine.kmem sp.pagetable 4095) 0 2 =
      .ok (d', d'.dinode 1, 0) ∧
    Preserved d d' 1 0 0 := by
  have pass : lastByte 0 (fun d result => decide (result.2.2 = 0) &&
      (decide (d.byte (d.dinode 1) 0 = some 0) && decide (0 < d.outstanding))) = true := by
    decide +kernel
  obtain ⟨s, sp, d, ⟨d₁, ip, r⟩, booted, space, two, last, run, test⟩ := of_lastByte pass
  obtain ⟨holds, live, holeFree⟩ := twoBytes_ready two
  obtain ⟨zero, test⟩ := Bool.and_eq_true_iff.1 test
  obtain ⟨first, trans⟩ := Bool.and_eq_true_iff.1 test
  obtain rfl : r = 0 := of_decide_eq_true zero
  have preserves :=
    writei_preserves_iff (.user s.machine.kmem sp.pagetable 4095) holds live holeFree
    (of_decide_eq_true trans) (show 0 < 2 ^ 32 ∧ 2 < 2 ^ 32 by decide)
  rw [run] at preserves
  obtain ⟨no, -⟩ | ⟨d', r, same, iff⟩ := preserves
  · cases no
  · cases same
    refine ⟨s, sp, d, _, booted, space, two, run, iff.2 ?_ (by decide)⟩
    intro _ bad lt unreadable _ x early _ _
    have here : x = 0 := by omega
    rw [here, last]
    exact (of_decide_eq_true first).symm

end Disk

end Xv6.Inodes
