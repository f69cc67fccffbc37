import Xv6.Inodes.Writing
import Xv6.Inodes.Reserved

/-!
# The contents of files

For an inode without holes `readi` and `writei` read and write an array of bytes: `readi` copies
out the bytes of its range, in order, and `writei` replaces bytes and lets the file grow, up to
where the disk is full.
-/

namespace Xv6.Inodes

open Fallible List Option Nat

namespace Disk

variable {d d' : Disk} {i j off n tot x done extra : Nat} {ip : Dinode}
  {src : Source} {old new : List UInt8}

theorem length_bytes : (d.bytes ip).length = ip.size := by
  rw [bytes, length_map, length_range]

theorem getElem?_bytes :
    (d.bytes ip)[x]? = if x < ip.size then some ((d.byte ip x).getD 0) else none := by
  by_cases lt : x < ip.size
  · rw [if_pos lt, bytes, getElem?_map, getElem?_range lt, map_some]
  · rw [if_neg lt, getElem?_eq_none]
    rw [length_bytes]
    omega

/-- The array with some bytes replaced, which may make it longer. -/
def overwrite (old : List UInt8) (off : Nat) (new : List UInt8) : List UInt8 :=
  old.take off ++ new ++ old.drop (off + new.length)

theorem getElem?_overwrite (le : off ≤ old.length) : (overwrite old off new)[x]? =
      if off ≤ x ∧ x < off + new.length then new[x - off]? else old[x]? := by
  have first : (old.take off).length = off := by rw [length_take, min_eq_left le]
  unfold overwrite
  by_cases before : x < off
  · rw [if_neg (by omega), append_assoc, getElem?_append_left (by omega),
      getElem?_take_of_lt before]
  · by_cases inside : x < off + new.length
    · rw [if_pos ⟨by omega, inside⟩, append_assoc, getElem?_append_right (by omega), first,
        getElem?_append_left (by omega)]
    · rw [if_neg (by omega), getElem?_append_right (by rw [length_append]; omega),
        getElem?_drop, length_append, first]
      congr 1
      omega

theorem length_overwrite (le : off ≤ old.length) :
    (overwrite old off new).length = max old.length (off + new.length) := by
  unfold overwrite
  rw [length_append, length_append, length_take, length_drop]
  omega

theorem overwrite_nil (old : List UInt8) (off : Nat) : overwrite old off [] = old := by
  unfold overwrite
  rw [append_nil, length_nil, add_zero, take_append_drop]

/-- Two writes that follow each other are one. -/
theorem overwrite_append {first second : List UInt8} (le : off ≤ old.length) :
    overwrite (overwrite old off first) (off + first.length) second =
      overwrite old off (first ++ second) := by
  apply ext_getElem?
  intro x
  have after : off + first.length ≤ (overwrite old off first).length := by
    rw [length_overwrite le]
    exact le_max_right _ _
  rw [getElem?_overwrite after, getElem?_overwrite le, getElem?_overwrite le, length_append]
  by_cases low : x < off + first.length
  · rw [if_neg (by omega)]
    by_cases inside : off ≤ x
    · rw [if_pos ⟨inside, low⟩, if_pos (by omega), getElem?_append_left (by omega)]
    · rw [if_neg (by omega), if_neg (by omega)]
  · rw [if_neg (show ¬ (off ≤ x ∧ x < off + first.length) by omega)]
    by_cases inside : x < off + first.length + second.length
    · rw [if_pos (by omega), if_pos (by omega), getElem?_append_right (by omega), Nat.sub_sub]
    · rw [if_neg (by omega), if_neg (by omega)]

theorem range_eq_take_drop : d.range ip off (min n (ip.size - off)) =
    ((d.bytes ip).drop off).take n := by
  apply ext_getElem?
  intro y
  rw [range, getElem?_map, getElem?_take, getElem?_drop, getElem?_bytes]
  by_cases lt : y < min n (ip.size - off)
  · rw [getElem?_range lt, if_pos (by omega), if_pos (by omega), map_some]
  · rw [getElem?_eq_none (by rw [length_range]; omega), map_none]
    by_cases short : y < n
    · rw [if_pos short, if_neg (by omega)]
    · rw [if_neg short]

/-- The contents after a write, from the bytes. -/
theorem bytes_overwrite {ip' : Dinode} (le : off ≤ ip.size)
    (size : ip'.size = max ip.size (off + new.length))
    (written : ∀ x, off ≤ x → x < off + new.length → d'.byte ip' x = new[x - off]?)
    (kept : ∀ x < ip.size, ¬ (off ≤ x ∧ x < off + new.length) → d'.byte ip' x = d.byte ip x) :
    d'.bytes ip' = overwrite (d.bytes ip) off new := by
  apply ext_getElem?
  intro x
  rw [getElem?_overwrite (by rw [length_bytes]; exact le), getElem?_bytes, getElem?_bytes, size]
  by_cases new' : off ≤ x ∧ x < off + new.length
  · have value : new[x - off]? = some ((new[x - off]?).getD 0) := by
      rw [getElem?_eq_getElem (by omega)]
      rfl
    rw [if_pos new', if_pos (by omega), written x new'.1 new'.2, ← value]
  · rw [if_neg new']
    by_cases lt : x < ip.size
    · rw [if_pos lt, if_pos (by omega), kept x lt new']
    · rw [if_neg lt, if_neg (by omega)]

theorem getElem?_take (src : Source) (n : Nat) (lt : x < n) :
    (src.take n)[x]? = some ((src.byte x).getD 0) := by
  rw [Source.take, getElem?_map, getElem?_range lt, map_some]

/-- What `readi` of any range copies out. -/
theorem readi_spec (holeFree : d.HoleFree ip) (uint : off < 2 ^ 32 ∧ n < 2 ^ 32)
    (size : ip.size < 2 ^ 32) : ∃ chunks : List (List UInt8),
      chunks.flatten = (if off + n < 2 ^ 32 then ((d.bytes ip).drop off).take n else []) ∧
      ∀ (δ : Type) (copyout : Copyout δ) (x : δ), d.readi ip copyout x off n =
        (deliver copyout x 0 chunks).map fun result => (d, ip, result) := by
  unfold readi
  by_cases refused : ip.size < off ∨ (off + n) % 2 ^ 32 < off
  · refine ⟨[], ?_, fun δ copyout x => by rw [if_pos refused]; rfl⟩
    by_cases wraps : off + n < 2 ^ 32
    · have past : (d.bytes ip).length ≤ off := by
        rw [length_bytes]
        omega
      rw [if_pos wraps, drop_eq_nil_of_le past, take_nil]
      rfl
    · rw [if_neg wraps]
      rfl
  · have small : (off + n) % 2 ^ 32 = off + n := mod_eq_of_lt (by omega)
    rw [small] at refused ⊢
    have count : (if ip.size < off + n then ip.size - off else n) = min n (ip.size - off) := by
      split
      · omega
      · omega
    have there : ∀ x, off ≤ x → x < off + (min n (ip.size - off) - 0) →
        d.ptr ip (x / bsize) ≠ 0 := by
      intro x low high
      exact isSome_byte.1 (holeFree_iff.1 holeFree x (by omega))
    obtain ⟨chunks, flat, run⟩ := readiLoop_spec (sub_le (min n (ip.size - off)) 0) there
    refine ⟨chunks, ?_, fun δ copyout x => ?_⟩
    · rw [flat, Nat.sub_zero, range_eq_take_drop, if_pos (by omega)]
    · rw [if_neg refused, count]
      exact run δ copyout x

theorem deliver_toKernel (chunks : List (List UInt8)) (old : List UInt8) (tot : Nat) :
    deliver toKernel old tot chunks =
      .ok (old ++ chunks.flatten, ((tot + chunks.flatten.length : Nat) : Int)) := by
  induction chunks generalizing old tot with
  | nil => simp [deliver]
  | cons chunk chunks ih =>
    have fine : (0 : Int) ≠ -1 := by decide
    simp only [deliver, toKernel, bind, Except.bind, if_neg fine, ih, flatten_cons,
      length_append, append_assoc, add_assoc]

/-- `readi` into a buffer of the kernel. -/
theorem readi_kernel (holeFree : d.HoleFree ip) (small : off + n < 2 ^ 32)
    (size : ip.size < 2 ^ 32) :
    d.readi ip toKernel [] off n = .ok (d, ip, ((d.bytes ip).drop off).take n,
      ((((d.bytes ip).drop off).take n).length : Int)) := by
  obtain ⟨chunks, flat, run⟩ := readi_spec holeFree (show off < 2 ^ 32 ∧ n < 2 ^ 32 by omega) size
  rw [run, deliver_toKernel, flat, if_pos small]
  rw [nil_append, zero_add]
  rfl

/-- A file stays without holes. -/
theorem Written.holeFree (written : Written d d' i src off done extra)
    (holeFree : d.HoleFree (d.dinode i)) (le : off ≤ (d.dinode i).size) :
    d'.HoleFree (d'.dinode i) := by
  rw [holeFree_iff] at holeFree ⊢
  intro x lt
  rw [written.size] at lt
  by_cases new : off ≤ x ∧ x < off + done + extra
  · exact (written.written x new.1 new.2).2
  · have old : x < (d.dinode i).size := by omega
    rw [written.kept x new (holeFree x old)]
    exact holeFree x old

/-- The other files keep their contents. -/
theorem Written.contents_ne (written : Written d d' i src off done extra) (ne : j ≠ i)
    (live : d.Live d.dinode j) : d'.contents j = d.contents j := by
  unfold contents bytes
  rw [written.dinode j live.1 ne]
  apply map_congr_left
  intro x _
  have same := written.others j ne live x
  rw [written.dinode j live.1 ne] at same
  rw [same]

theorem length_take (src : Source) (n : Nat) : (src.take n).length = n := by
  rw [Source.take, length_map, length_range]

/-- The contents after a write that stored nothing but what it counts. -/
theorem Written.contents (written : Written d d' i src off done 0)
    (holeFree : d.HoleFree (d.dinode i)) (le : off ≤ (d.dinode i).size) :
    d'.contents i = overwrite (d.contents i) off (src.take done) := by
  refine bytes_overwrite le ?_ ?_ ?_
  · rw [length_take]
    exact written.size
  · intro x low high
    rw [length_take] at high
    obtain ⟨value, some⟩ := written.written x low (by omega)
    rw [getElem?_take _ _ (by omega), value]
    rw [value] at some
    obtain ⟨v, eq⟩ := isSome_iff_exists.1 some
    rw [eq, getD_some]
  · intro x lt outside
    rw [length_take] at outside
    exact written.kept x (by omega) (holeFree_iff.1 holeFree x lt)

/-- `writei` from a source that can be read writes everything, or stops where the disk is full. -/
theorem writei_contents {r : Int} (holds : d.Holds d.dinode []) (live : d.Live d.dinode i)
    (holeFree : d.HoleFree (d.dinode i)) (inside : InRange (d.dinode i) off n)
    (readable : ∀ x < n, (src.byte x).isSome)
    (run : d.writei i (d.dinode i) src off n = .ok (d', ip, r)) :
    ∃ done : Nat, ip = d'.dinode i ∧ r = done ∧ Written d d' i src off done 0 ∧
      (done = n ∨ (done < n ∧ d'.Full ∧ d'.byte (d'.dinode i) (off + done) = none)) ∧
      d'.contents i = overwrite (d.contents i) off (src.take done) := by
  obtain ⟨done, extra, inode, count, written, stopped⟩ := writei_spec holds live inside run
  have whole : extra = 0 ∧
      (done = n ∨ (done < n ∧ d'.Full ∧ d'.byte (d'.dinode i) (off + done) = none)) := by
    cases stopped with
    | finished all none => exact ⟨none, .inl all⟩
    | full full hole short none => exact ⟨none, .inr ⟨short, full, hole⟩⟩
    | unreadable short start block bad =>
      have some := readable _ short
      rw [bad] at some
      cases some
  obtain ⟨rfl, ends⟩ := whole
  exact ⟨done, inode, count, written, ends, written.contents holeFree inside.1⟩

/-- A `writei` that returns its whole length was in range and has written all its bytes. -/
theorem writei_complete (holds : d.Holds d.dinode []) (live : d.Live d.dinode i)
    (uint : off < 2 ^ 32 ∧ n < 2 ^ 32)
    (run : d.writei i (d.dinode i) src off n = .ok (d', ip, (n : Int))) :
    InRange (d.dinode i) off n ∧ Written d d' i src off n 0 := by
  by_cases inside : InRange (d.dinode i) off n
  · obtain ⟨done, extra, -, count, written, stopped⟩ := writei_spec holds live inside run
    obtain rfl : n = done := by omega
    have none : extra = 0 := by
      cases stopped with
      | finished all none => exact none
      | full full hole short none => exact none
      | unreadable short start block bad => omega
    rw [none] at written
    exact ⟨inside, written⟩
  · rw [writei_refused uint inside] at run
    cases run

/-- An inode without holes is an array of bytes.  A `writei` inside the limits replaces bytes and
lets the file grow, all of them unless the disk fills up; one outside is refused.  It panics only if
the log has no room for the blocks that it can log.  A `readi` copies out the bytes of its range, as
far as the file goes. -/
theorem inode_is_byte_array (holds : d.Holds d.dinode []) (live : d.Live d.dinode i)
    (holeFree : d.HoleFree (d.dinode i)) (uint : off < 2 ^ 32 ∧ n < 2 ^ 32) :
    (0 < d.outstanding → ∀ src : Source,
      (¬ InRange (d.dinode i) off n →
        d.writei i (d.dinode i) src off n = .ok (d, d.dinode i, -1)) ∧
      (InRange (d.dinode i) off n → (∀ x < n, (src.byte x).isSome) →
        (d.writei i (d.dinode i) src off n = .error "too big a transaction" ∧
          ¬ d.HasRoom (logNeed off n)) ∨
        ∃ (d' : Disk) (r : Nat),
          d.writei i (d.dinode i) src off n = .ok (d', d'.dinode i, (r : Int)) ∧
          r ≤ n ∧ (r < n → d'.Full) ∧
          (d'.dinode i).size = max (d.dinode i).size (off + r) ∧
          d'.contents i = overwrite (d.contents i) off (src.take r) ∧
          ∀ j ≠ i, d.Live d.dinode j → d'.contents j = d.contents j)) ∧
    ∃ chunks : List (List UInt8),
      chunks.flatten = (if off + n < 2 ^ 32 then ((d.contents i).drop off).take n else []) ∧
      ∀ (δ : Type) (copyout : Copyout δ) (x : δ), d.readi (d.dinode i) copyout x off n =
        (deliver copyout x 0 chunks).map fun result => (d, d.dinode i, result) := by
  refine ⟨fun trans src => ⟨writei_refused uint, fun inside readable => ?_⟩,
    readi_spec holeFree uint (getDinode_fits _ _).size⟩
  rcases writei_logs src i off uint.2 holeFree trans with ⟨⟨d', ip, r⟩, run, -⟩ | full
  · obtain ⟨done, rfl, rfl, written, ends, contents⟩ :=
      writei_contents holds live holeFree inside readable run
    refine .inr ⟨d', done, run, by omega, fun short => ?_, written.size, contents,
      fun j ne live => written.contents_ne ne live⟩
    rcases ends with all | ⟨-, full, -⟩
    · omega
    · exact full
  · exact .inl full

/-- A disk on which no file has a block. -/
theorem holds_of_empty (layout : d.sb.Layout)
    (marks : ∀ b < d.sb.size, d.bit b = decide (b < d.sb.nmeta))
    (empty : ∀ i < d.sb.ninodes, (d.dinode i).type ≠ 0 → ∀ k, (d.dinode i).addrs k = 0) :
    d.Holds d.dinode [] := by
  have none : ∀ x, d.owners d.dinode x = 0 := by
    intro x
    unfold owners
    split
    · rename_i inside
      have addr : ∀ k, (d.dinode x.1).addr k = 0 := by
        intro k
        unfold Dinode.addr
        split
        · exact empty x.1 inside.1.1 inside.1.2 _
        · rfl
      unfold slot
      rw [addr, addr, if_pos rfl, ite_self]
    · rfl
  refine ⟨layout, layout.boot, ?_, ?_, ?_, nodup_nil, ?_⟩
  · exact fun x some => absurd (none x) some
  · exact fun x _ some => absurd (none x) some
  · exact fun b mem => absurd mem not_mem_nil
  · intro b lt
    rw [marks b lt, decide_eq_true_eq]
    constructor
    · exact .inl
    · rintro (low | ⟨x, rfl⟩ | mem)
      · exact low
      · rw [none x]
        exact layout.boot
      · cases mem

theorem emptyFile_holds : emptyFile.Holds emptyFile.dinode [] := by
  refine holds_of_empty ⟨by decide, by decide, by decide, by decide⟩ (by decide) (by decide)

/-- Three bytes are written to an empty file. -/
theorem byte_array_three : ∃ d' : Disk,
    emptyFile.writei 1 (emptyFile.dinode 1) (.kernel (fun _ => 7) 0) 0 3 =
      .ok (d', d'.dinode 1, 3) ∧ d'.contents 1 = [7, 7, 7] := by
  have three : yields (emptyFile.writei 1 (emptyFile.dinode 1) (.kernel (fun _ => 7) 0) 0 3)
      (fun result => decide (result.2.2 = 3)) = true := by decide +kernel
  obtain ⟨write, -⟩ := inode_is_byte_array (i := 1) emptyFile_holds (by decide)
    (emptyDisk_holeFree 2 4) (show 0 < 2 ^ 32 ∧ 3 < 2 ^ 32 by decide)
  obtain ⟨-, full⟩ | ⟨d', r, run, -, -, -, contents, -⟩ :=
    (write (by decide) (.kernel (fun _ => 7) 0)).2 ⟨zero_le _, by decide⟩ (fun _ _ => rfl)
  · exact absurd (by decide) full
  · rw [run] at three
    have count : (r : Int) = 3 := of_decide_eq_true three
    obtain rfl : r = 3 := by omega
    refine ⟨d', run, contents.trans ?_⟩
    decide

/-- The disk and the largest file have room for 28 blocks more, but no transaction has: with an
empty log `writei` of as many bytes panics. -/
theorem writei_too_big : ∃ d : Disk, d = emptyDisk 2 64 ∧ d.Holds d.dinode [] ∧ d.Live d.dinode 1 ∧
    d.HoleFree (d.dinode 1) ∧ d.HasRoom 29 ∧ InRange (d.dinode 1) 0 28672 ∧
    d.writei 1 (d.dinode 1) (.kernel (fun _ => 7) 0) 0 28672 = .error "too big a transaction" := by
  refine ⟨_, rfl, ?_, by decide, emptyDisk_holeFree 2 64, by decide, ⟨zero_le _, by decide⟩, ?_⟩
  · exact holds_of_empty ⟨by decide, by decide, by decide, by decide⟩ (by decide) (by decide)
  · apply of_raises
    decide +kernel

end Disk

end Xv6.Inodes
