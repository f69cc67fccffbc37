import Xv6.Lib.SlotMap
import Xv6.Inodes.Contents

/-!
# Directories

A directory is a file of records with an inode number and a name of fourteen characters; a record
with the number zero is free.  A name that is shorter ends in a NUL and one of fourteen characters
does not.  `namecmp` compares two names as far as they go, `dirlookup` scans for a name, and
`dirlink` writes a record into the first free place or at the end.

A directory without equal names is a finite map from names to inode numbers.
-/

namespace Xv6.Inodes

open Fallible SlotMap List Option Function Nat

/-- `T_DIR`. -/
def tDir : BitVec 16 := 1

/-! ## Strings -/

/-- The string after its first character. -/
def tail (p : Nat → UInt8) : Nat → UInt8 := fun x => p (x + 1)

/-- `strncmp(p, q, n)`. -/
def strncmp (p q : Nat → UInt8) : Nat → Int
  | 0 => 0
  | n + 1 =>
    if p 0 ≠ 0 ∧ p 0 = q 0 then strncmp (tail p) (tail q) n
    else (p 0).toNat - (q 0).toNat

/-- The bytes that `strncpy(s, t, n)` stores. -/
def strncpy (t : Nat → UInt8) : Nat → List UInt8
  | 0 => []
  | n + 1 => if t 0 = 0 then List.replicate (n + 1) 0 else t 0 :: strncpy (tail t) n

/-- The characters of a string, at most `n` of them. -/
def chars (p : Nat → UInt8) : Nat → List UInt8
  | 0 => []
  | n + 1 => if p 0 = 0 then [] else p 0 :: chars (tail p) n

/-- `strncmp` is zero for strings that agree. -/
theorem strncmp_eq_zero (p q : Nat → UInt8) (n : Nat) :
    strncmp p q n = 0 ↔ chars p n = chars q n := by
  induction n generalizing p q with
  | zero => exact iff_of_true rfl rfl
  | succ n ih =>
    unfold strncmp chars
    by_cases goes : p 0 ≠ 0 ∧ p 0 = q 0
    · rw [if_pos goes, ih, if_neg goes.1, if_neg (goes.2 ▸ goes.1), cons.injEq]
      exact ⟨fun same => ⟨goes.2, same⟩, fun same => same.2⟩
    · rw [if_neg goes, sub_eq_zero, Nat.cast_inj, UInt8.toNat_inj]
      constructor
      · intro same
        have ends : p 0 = 0 := by
          by_contra some
          exact goes ⟨some, same⟩
        rw [if_pos ends, if_pos (same ▸ ends)]
      · intro same
        by_cases ends : p 0 = 0
        · rw [if_pos ends] at same
          by_contra ne
          rw [if_neg fun zero => ne (ends.trans zero.symm)] at same
          cases same
        · rw [if_neg ends] at same
          by_cases stop : q 0 = 0
          · rw [if_pos stop] at same
            cases same
          · rw [if_neg stop, cons.injEq] at same
            exact same.1

theorem length_strncpy (t : Nat → UInt8) (n : Nat) : (strncpy t n).length = n := by
  induction n generalizing t with
  | zero => rfl
  | succ n ih =>
    unfold strncpy
    split
    · exact length_replicate
    · rw [length_cons, ih]

theorem chars_congr {p q : Nat → UInt8} {n : Nat} (same : ∀ x < n, p x = q x) :
    chars p n = chars q n := by
  induction n generalizing p q with
  | zero => rfl
  | succ n ih =>
    unfold chars
    have rest : chars (tail p) n = chars (tail q) n := ih fun x lt => same (x + 1) (by omega)
    rw [same 0 (by omega), rest]

/-- A copy of a string has its characters. -/
theorem chars_strncpy (t : Nat → UInt8) (n : Nat) :
    chars (fun x => (strncpy t n).getD x 0) n = chars t n := by
  induction n generalizing t with
  | zero => rfl
  | succ n ih =>
    by_cases ends : t 0 = 0
    · rw [strncpy, if_pos ends, chars, if_pos (by simp), chars, if_pos ends]
    · rw [strncpy, if_neg ends, chars, chars, if_neg ends, getD_cons_zero, if_neg ends, cons.injEq]
      exact ⟨rfl, ih (tail t)⟩

/-! ## Records -/

/-- `de.inum`. -/
def inumOf (de : List UInt8) : Nat := (de.getD 0 0).toNat + 256 * (de.getD 1 0).toNat

/-- `de.name`. -/
def nameOf (de : List UInt8) : Nat → UInt8 := fun x => de.getD (2 + x) 0

/-- A record with a number and the copy of a name. -/
def dirent (inum : Nat) (name : Nat → UInt8) : List UInt8 :=
  [UInt8.ofNat inum, UInt8.ofNat (inum / 256)] ++ strncpy name dirsiz

theorem length_dirent (inum : Nat) (name : Nat → UInt8) :
    (dirent inum name).length = direntSize := by
  rw [dirent, length_append, length_strncpy]
  rfl

theorem inumOf_dirent {inum : Nat} (short : inum < 2 ^ 16) (name : Nat → UInt8) :
    inumOf (dirent inum name) = inum := by
  have low : (UInt8.ofNat inum).toNat = inum % 256 := UInt8.toNat_ofNat'
  have high : (UInt8.ofNat (inum / 256)).toNat = inum / 256 % 256 := UInt8.toNat_ofNat'
  unfold inumOf dirent
  simp only [cons_append, nil_append, getD_cons_zero, getD_cons_succ]
  rw [low, high]
  omega

theorem chars_dirent (inum : Nat) (name : Nat → UInt8) :
    chars (nameOf (dirent inum name)) dirsiz = chars name dirsiz := by
  rw [← chars_strncpy name dirsiz]
  apply chars_congr
  intro x _
  unfold nameOf dirent
  rw [getD_append_right _ _ _ _ (by simp)]
  congr 1
  simp

/-- The record with number `k` of a directory with the given contents. -/
def record (c : List UInt8) (k : Nat) : List UInt8 := (c.drop (direntSize * k)).take direntSize

/-- The table of names and numbers that a directory stands for. -/
def table (c : List UInt8) : Table (List UInt8) Nat where
  count := c.length / direntSize
  slot := fun k =>
    if inumOf (record c k) = 0 then none
    else some (chars (nameOf (record c k)) dirsiz, inumOf (record c k))

namespace Disk

/-! ## The functions -/

/-- The loop over the records of a directory from offset `off` on, up to the first that passes the
test: where it stops, and the record. -/
def scan (why : String) (test : List UInt8 → Bool) :
    Nat → Disk → Dinode → Nat → Except String (Disk × Dinode × Nat × Option (List UInt8))
  | 0, d, dp, off => .ok (d, dp, off, none)
  | fuel + 1, d, dp, off =>
    if dp.size ≤ off then .ok (d, dp, off, none)
    else do
      let (d, dp, de, r) ← d.readi dp toKernel [] off direntSize
      if r ≠ direntSize then .error why
      else if test de then .ok (d, dp, off, some de)
      else scan why test fuel d dp (off + direntSize)

/-- `namecmp(name, de.name) == 0` for a record that is not free. -/
def named (name : Nat → UInt8) (de : List UInt8) : Bool :=
  inumOf de ≠ 0 ∧ strncmp name (nameOf de) dirsiz = 0

/-- `dirlookup(dp, name, &off)`: the number of the inode and the offset. -/
def dirlookup (d : Disk) (dp : Dinode) (name : Nat → UInt8) :
    Except String (Disk × Dinode × Option (Nat × Nat)) :=
  if dp.type ≠ tDir then .error "dirlookup not DIR"
  else do
    let (d, dp, off, found) ← scan "dirlookup read" (named name) dp.size d dp 0
    .ok (d, dp, found.map fun de => (inumOf de, off))

/-- A buffer of the kernel as the source of a copy. -/
def buffer (bytes : List UInt8) : Source := .kernel (fun x => bytes.getD x 0) 0

/-- `dirlink(dp, name, inum)` for the directory with number `i`. -/
def dirlink (d : Disk) (i : Nat) (dp : Dinode) (name : Nat → UInt8) (inum : Nat) :
    Except String (Disk × Dinode × Int) := do
  let (d, dp, found) ← d.dirlookup dp name
  if found.isSome then .ok (d, dp, -1)
  else do
    -- Look for an empty dirent.
    let (d, dp, off, _) ← scan "dirlink read" (fun de => inumOf de = 0) dp.size d dp 0
    let (d, dp, r) ← d.writei i dp (buffer (dirent inum name)) off direntSize
    .ok (d, dp, if r ≠ direntSize then -1 else 0)

/-- `writei` of a record of zeros, as `sys_unlink` does at the offset of `dirlookup`. -/
def clearDirent (d : Disk) (i : Nat) (dp : Dinode) (off : Nat) :
    Except String (Disk × Dinode × Int) :=
  d.writei i dp (buffer (List.replicate direntSize 0)) off direntSize

/-! ## Scans -/

variable {d d' : Disk} {i k off inum v : Nat} {dp : Dinode} {name : Nat → UInt8}
  {c new w : List UInt8}

/-- A file without holes is not larger than the maximum. -/
theorem HoleFree.size_le (holeFree : d.HoleFree dp) : dp.size ≤ maxfile * bsize := by
  by_contra large
  exact holeFree maxfile (by omega) (if_neg (lt_irrefl _))

/-- A scan reads the records in order. -/
theorem scan_spec (why : String) (test : List UInt8 → Bool) {fuel : Nat} (holeFree : d.HoleFree dp)
    (whole : dp.size % direntSize = 0) (enough : dp.size ≤ direntSize * k + fuel)
    (le : k ≤ dp.size / direntSize) :
    ∃ stop found, scan why test fuel d dp (direntSize * k) = .ok (d, dp, direntSize * stop, found) ∧
      k ≤ stop ∧ (∀ l, k ≤ l → l < stop → test (record (d.bytes dp) l) = false) ∧
      ((stop = dp.size / direntSize ∧ found = none) ∨ (stop < dp.size / direntSize ∧
        test (record (d.bytes dp) stop) = true ∧ found = some (record (d.bytes dp) stop))) := by
  have size : direntSize = 16 := rfl
  induction fuel generalizing k with
  | zero =>
    rw [size] at whole enough le
    exact ⟨k, none, rfl, le_rfl, fun l low high => by omega, .inl ⟨by rw [size]; omega, rfl⟩⟩
  | succ fuel ih =>
    unfold scan
    by_cases past : dp.size ≤ direntSize * k
    · rw [if_pos past]
      refine ⟨k, none, rfl, le_rfl, fun l low high => by omega, .inl ⟨?_, rfl⟩⟩
      rw [size] at whole past le ⊢
      omega
    · have limit : maxfile * bsize = 274432 := by decide
      have small := holeFree.size_le
      rw [limit] at small
      have read := readi_kernel holeFree (show direntSize * k + direntSize < 2 ^ 32 by
        rw [size] at past ⊢; omega) (by omega)
      have length : (((d.bytes dp).drop (direntSize * k)).take direntSize).length = direntSize := by
        rw [List.length_take, List.length_drop, length_bytes]
        rw [size] at whole past ⊢
        omega
      rw [length] at read
      simp only [if_neg past, read, bind, Except.bind, ne_eq, not_true_eq_false, if_false]
      cases hit : test (((d.bytes dp).drop (direntSize * k)).take direntSize) with
      | true =>
        refine ⟨k, _, rfl, le_rfl, fun l low high => by omega, .inr ⟨?_, hit, rfl⟩⟩
        rw [size] at whole past ⊢
        omega
      | false =>
        obtain ⟨stop, found, run, later, missed, ends⟩ := @ih (k + 1)
          (by rw [size] at enough ⊢; omega) (by rw [size] at whole past ⊢; omega)
        rw [show direntSize * (k + 1) = direntSize * k + direntSize from mul_succ _ _] at run
        refine ⟨stop, found, run, by omega, fun l low high => ?_, ends⟩
        rcases eq_or_lt_of_le low with rfl | low
        · exact hit
        · exact missed l low high

theorem slot_some : (table c).slot k = some (w, v) ↔
    inumOf (record c k) ≠ 0 ∧ chars (nameOf (record c k)) dirsiz = w ∧ inumOf (record c k) = v := by
  unfold table
  by_cases free : inumOf (record c k) = 0
  · simp [free]
  · simp [free]

theorem slot_none : (table c).slot k = none ↔ inumOf (record c k) = 0 := by
  unfold table
  by_cases free : inumOf (record c k) = 0
  · simp [free]
  · simp [free]

theorem named_iff : named name (record c k) = true ↔
    (table c).slot k = some (chars name dirsiz, inumOf (record c k)) := by
  unfold named
  rw [decide_eq_true_eq, strncmp_eq_zero, slot_some]
  exact ⟨fun h => ⟨h.1, h.2.symm, rfl⟩, fun h => ⟨h.1, h.2.1.symm⟩⟩

/-! ## The map -/

/-- A directory that is well formed, on a disk that is. -/
structure Directory (d : Disk) (i : Nat) : Prop where
  holds : d.Holds d.dinode []
  live : d.Live d.dinode i
  holeFree : d.HoleFree (d.dinode i)
  type : (d.dinode i).type = tDir
  whole : (d.dinode i).size % direntSize = 0
  unique : (table (d.contents i)).Unique

/-- The inode number that a directory has for a name, compared by its first `DIRSIZ` characters. -/
def binding (d : Disk) (i : Nat) : List UInt8 → Option Nat := (table (d.contents i)).get

theorem count_table (d : Disk) (i : Nat) :
    (table (d.contents i)).count = (d.dinode i).size / direntSize := by
  unfold table contents
  rw [length_bytes]

/-- `dirlookup` finds the first record with the name. -/
theorem dirlookup_spec (dir : d.Directory i) (name : Nat → UInt8) :
    d.dirlookup (d.dinode i) name = .ok (d, d.dinode i,
      ((table (d.contents i)).find (chars name dirsiz)).map fun k =>
        (inumOf (record (d.contents i) k), direntSize * k)) := by
  have count := count_table d i
  obtain ⟨stop, found, run, -, missed, ends⟩ := scan_spec (k := 0) "dirlookup read" (named name)
    dir.holeFree dir.whole (le_add_left _ _) (zero_le _)
  rw [mul_zero] at run
  unfold dirlookup
  rw [if_neg (not_not.2 dir.type)]
  simp only [run, bind, Except.bind]
  rcases ends with ⟨rfl, rfl⟩ | ⟨lt, hit, rfl⟩
  · have absent : (table (d.contents i)).find (chars name dirsiz) = none := by
      rw [Table.find_none, count]
      intro k lt v here
      rw [← (slot_some.1 here).2.2, ← named_iff] at here
      have miss := missed k (zero_le k) lt
      rw [show record (d.bytes (d.dinode i)) k = record (d.contents i) k from rfl, here] at miss
      cases miss
    rw [absent]
    rfl
  · have here := named_iff.1 hit
    have first : (table (d.contents i)).find (chars name dirsiz) = some stop := by
      cases place : (table (d.contents i)).find (chars name dirsiz) with
      | none => exact absurd here (Table.find_none.1 place stop (by rw [count]; exact lt) _)
      | some k =>
        obtain ⟨ltk, v, there⟩ := Table.of_find place
        rw [dir.unique k ltk stop (by rw [count]; exact lt) _ _ _ there here]
    rw [first]
    rfl

section

variable (whole : c.length % direntSize = 0) (le : k ≤ c.length / direntSize)
include whole le

section

variable (length : new.length = direntSize)
include length

/-- A record that is written changes one record, or is a new one at the end. -/
theorem record_overwrite (l : Nat) :
    record (overwrite c (direntSize * k) new) l = if l = k then new else record c l := by
  have size : direntSize = 16 := rfl
  have inside : direntSize * k ≤ c.length := by
    rw [size] at whole le ⊢
    omega
  apply ext_getElem?
  intro y
  unfold record
  rw [List.getElem?_take, List.getElem?_drop, getElem?_overwrite inside, length]
  rcases eq_or_ne l k with rfl | ne
  · rw [if_pos rfl]
    by_cases lt : y < direntSize
    · rw [if_pos lt, if_pos (by omega), show direntSize * l + y - direntSize * l = y by omega]
    · rw [if_neg lt, getElem?_eq_none (by omega)]
  · rw [if_neg ne, List.getElem?_take, List.getElem?_drop]
    by_cases lt : y < direntSize
    · have outside : ¬ (direntSize * k ≤ direntSize * l + y ∧
          direntSize * l + y < direntSize * k + direntSize) := by
        rw [size] at lt ⊢
        omega
      rw [if_pos lt, if_pos lt, if_neg outside]
    · rw [if_neg lt, if_neg lt]

/-- The table after a record was written. -/
theorem slot_overwrite :
    (table (overwrite c (direntSize * k) new)).slot = update (table c).slot k
      (if inumOf new = 0 then none else some (chars (nameOf new) dirsiz, inumOf new)) := by
  funext l
  unfold table
  simp only [record_overwrite whole le length]
  rcases eq_or_ne l k with rfl | ne
  · rw [if_pos rfl, update_self]
  · rw [if_neg ne, update_of_ne ne]

theorem count_overwrite :
    (table (overwrite c (direntSize * k) new)).count = max (table c).count (k + 1) := by
  have size : direntSize = 16 := rfl
  unfold table
  simp only
  rw [length_overwrite (by rw [size] at whole le ⊢; omega), length, size]
  rw [size] at whole le
  omega

end

theorem table_put (some : inum ≠ 0) (short : inum < 2 ^ 16) (name : Nat → UInt8) :
    table (overwrite c (direntSize * k) (dirent inum name)) =
      (table c).put k (chars name dirsiz) inum := by
  apply Table.ext
  · exact count_overwrite whole le (length_dirent inum name)
  · rw [slot_overwrite whole le (length_dirent inum name), inumOf_dirent short, if_neg some,
      chars_dirent]
    rfl

end

theorem table_clear (whole : c.length % direntSize = 0) (lt : k < c.length / direntSize) :
    table (overwrite c (direntSize * k) (replicate direntSize 0)) = (table c).clear k := by
  have length : (replicate direntSize (0 : UInt8)).length = direntSize := length_replicate
  apply Table.ext
  · rw [count_overwrite whole lt.le length]
    exact max_eq_left lt
  · rw [slot_overwrite whole lt.le length, if_pos (by decide)]
    rfl

/-- The bytes of a buffer can be read. -/
theorem buffer_readable (new : List UInt8) (n : Nat) : ∀ x < n, ((buffer new).byte x).isSome :=
  fun _ _ => rfl

theorem buffer_take (new : List UInt8) : (buffer new).take new.length = new := by
  apply ext_getElem?
  intro x
  by_cases lt : x < new.length
  · rw [getElem?_take _ _ lt, getElem?_eq_getElem lt]
    simp [buffer, Source.byte, lt]
  · rw [getElem?_eq_none (by rw [Source.take, length_map, length_range]; omega),
      getElem?_eq_none (by omega)]

/-- A record costs at most its block, the indirect block, a block of the bitmap for each of the two
and the block of the inode. -/
theorem logNeed_record (k : Nat) : logNeed (direntSize * k) direntSize ≤ 5 := by
  have size : direntSize = 16 := rfl
  have block : bsize = 1024 := rfl
  unfold logNeed dataNeed blocksOf
  rw [size, block]
  split
  · decide
  · omega

/-- A record is written whole or not at all. -/
theorem writei_record (dir : d.Directory i) (room : d.HasRoom 5)
    (length : new.length = direntSize) (le : k ≤ (d.dinode i).size / direntSize)
    (fits : direntSize * k + direntSize ≤ maxfile * bsize) : ∃ (d' : Disk) (r : Nat),
      d.writei i (d.dinode i) (buffer new) (direntSize * k) direntSize =
        .ok (d', d'.dinode i, (r : Int)) ∧
      Written d d' i (buffer new) (direntSize * k) r 0 ∧ d'.HoleFree (d'.dinode i) ∧
      ((r = direntSize ∧ d'.contents i = overwrite (d.contents i) (direntSize * k) new) ∨
        (r = 0 ∧ d'.Full ∧ k = (d.dinode i).size / direntSize ∧ d'.contents i = d.contents i)) := by
  have size : direntSize = 16 := rfl
  have block : bsize = 1024 := rfl
  have inside : direntSize * k ≤ (d.dinode i).size := by
    rw [size] at le ⊢
    omega
  obtain ⟨⟨d', ip, result⟩, run, -⟩ | ⟨-, full⟩ := writei_logs (buffer new) i (direntSize * k)
    (show direntSize < 2 ^ 32 by decide) dir.holeFree room.1
  case inr => exact absurd (room.mono (logNeed_record k)) full
  obtain ⟨r, rfl, rfl, written, ends, contents⟩ := writei_contents dir.holds dir.live dir.holeFree
    ⟨inside, fits⟩ (buffer_readable new _) run
  refine ⟨d', r, run, written, written.holeFree dir.holeFree inside, ?_⟩
  rcases ends with rfl | ⟨short, full, hole⟩
  · rw [← length, buffer_take, length] at contents
    exact .inl ⟨rfl, contents⟩
  · -- the record is inside one block, and the block is not there
    have absent : d'.ptr (d'.dinode i) ((direntSize * k + r) / bsize) = 0 := by
      by_contra there
      have some := isSome_byte.2 there
      rw [hole] at some
      cases some
    have none : r = 0 := by
      by_contra positive
      have some := (written.written (direntSize * k) le_rfl (by omega)).2
      rw [isSome_byte] at some
      apply some
      rw [← absent, size, block]
      congr 1
      rw [size] at short
      omega
    subst none
    refine .inr ⟨rfl, full, ?_, ?_⟩
    · by_contra ne
      have old : direntSize * k < (d.dinode i).size := by
        rw [size] at le ne ⊢
        omega
      have some := holeFree_iff.1 dir.holeFree _ old
      rw [← written.kept (direntSize * k) (by omega) some] at some
      rw [add_zero] at hole
      rw [hole] at some
      cases some
    · rw [contents, Source.take, range_zero, map_nil, overwrite, append_nil,
        length_nil, add_zero, take_append_drop]

/-- A directory stays one when a write keeps its names unique. -/
theorem Directory.of_written {src : Source} {done extra : Nat} (dir : d.Directory i)
    (written : Written d d' i src off done extra) (holeFree : d'.HoleFree (d'.dinode i))
    (whole : (d'.dinode i).size % direntSize = 0) (unique : (table (d'.contents i)).Unique) :
    d'.Directory i := by
  refine ⟨written.holds, ⟨?_, ?_⟩, holeFree, ?_, whole, unique⟩
  · rw [written.sb]
    exact dir.live.1
  · rw [written.type]
    exact dir.live.2
  · rw [written.type]
    exact dir.type

theorem length_contents (d : Disk) (i : Nat) : (d.contents i).length = (d.dinode i).size :=
  length_bytes

/-- Clearing a record takes its binding away. -/
theorem clearDirent_spec (dir : d.Directory i) (room : d.HasRoom 5)
    (lt : k < (table (d.contents i)).count) (here : (table (d.contents i)).slot k = some (w, v)) :
    ∃ d', d.clearDirent i (d.dinode i) (direntSize * k) =
      .ok (d', d'.dinode i, (direntSize : Int)) ∧
      d'.Directory i ∧ d'.binding i = update (d.binding i) w none := by
  have size : direntSize = 16 := rfl
  have limit : maxfile * bsize = 274432 := by decide
  have small := dir.holeFree.size_le
  have whole := dir.whole
  have inside := lt
  rw [count_table] at inside
  obtain ⟨d', r, run, written, holeFree, ends⟩ := writei_record dir room
    (length_replicate : (replicate direntSize (0 : UInt8)).length = _) inside.le (by
      rw [limit] at small ⊢
      rw [size] at inside whole ⊢
      omega)
  rcases ends with ⟨rfl, contents⟩ | ⟨-, -, last, -⟩
  · rw [← length_contents] at inside whole
    have same := table_clear whole inside
    rw [← contents] at same
    refine ⟨d', run, dir.of_written written holeFree ?_ ?_, ?_⟩
    · rw [written.size, ← length_contents]
      rw [size] at inside whole ⊢
      omega
    · rw [same]
      exact dir.unique.clear k
    · unfold binding
      rw [same]
      exact Table.get_clear dir.unique lt here
  · omega

/-- The scan of `dirlink` stops at the first free record, or at the end. -/
theorem scan_free (dir : d.Directory i) : ∃ stop found,
    scan "dirlink read" (fun de => decide (inumOf de = 0)) (d.dinode i).size d (d.dinode i) 0 =
      .ok (d, d.dinode i, direntSize * stop, found) ∧
    stop ≤ (table (d.contents i)).count ∧
    (stop < (table (d.contents i)).count → (table (d.contents i)).slot stop = none) ∧
    ∀ l < stop, (table (d.contents i)).slot l ≠ none := by
  have count := count_table d i
  obtain ⟨stop, found, run, -, taken, ends⟩ := scan_spec (k := 0) "dirlink read"
    (fun de => decide (inumOf de = 0)) dir.holeFree dir.whole (le_add_left _ _) (zero_le _)
  rw [mul_zero] at run
  refine ⟨stop, found, run, ?_, ?_, fun l lt free => ?_⟩
  · rcases ends with ⟨last, -⟩ | ⟨lt, -⟩
    · rw [count]
      exact last.le
    · rw [count]
      exact lt.le
  · intro lt
    rcases ends with ⟨last, -⟩ | ⟨-, free, -⟩
    · omega
    · exact slot_none.2 (of_decide_eq_true free)
  · have miss := taken l (zero_le l) lt
    rw [decide_eq_false_iff_not] at miss
    exact miss (slot_none.1 free)

/-- What `dirlink` leaves behind when the name was not there: the binding in the record with number
`k`, or the directory as it was because it could not grow. -/
inductive Linked (d d' : Disk) (i : Nat) (name : Nat → UInt8) (inum k : Nat) : Int → Prop
  | added (contents : d'.contents i = overwrite (d.contents i) (direntSize * k) (dirent inum name))
      (binding : d'.binding i = update (d.binding i) (chars name dirsiz) (some inum)) :
      Linked d d' i name inum k 0
  | refused (contents : d'.contents i = d.contents i) (last : k = (table (d.contents i)).count)
      (cause : d'.Full ∨ maxfile * bsize < (d.dinode i).size + direntSize) :
      Linked d d' i name inum k (-1)

theorem dirlink_absent (dir : d.Directory i) (room : d.HasRoom 5) (some : inum ≠ 0)
    (short : inum < 2 ^ 16) (absent : d.binding i (chars name dirsiz) = none) :
    ∃ (d' : Disk) (r : Int) (k : Nat), d.dirlink i (d.dinode i) name inum =
      .ok (d', d'.dinode i, r) ∧
      d'.Directory i ∧ k ≤ (table (d.contents i)).count ∧
      (k < (table (d.contents i)).count → (table (d.contents i)).slot k = none) ∧
      (∀ l < k, (table (d.contents i)).slot l ≠ none) ∧ Linked d d' i name inum k r := by
  have size : direntSize = 16 := rfl
  have limit : maxfile * bsize = 274432 := by decide
  have small := dir.holeFree.size_le
  have whole := dir.whole
  have count := count_table d i
  have missing := Table.get_none.1 absent
  obtain ⟨stop, found, run, le, free, taken⟩ := scan_free dir
  unfold dirlink
  simp only [dirlookup_spec dir name, missing, bind, Except.bind, map_none,
    isSome_none, Bool.false_eq_true, if_false, run]
  by_cases fits : direntSize * stop + direntSize ≤ maxfile * bsize
  · obtain ⟨d', r, write, written, holeFree, ends⟩ :=
      writei_record dir room (length_dirent inum name) (by rw [← count]; exact le) fits
    rw [write]
    rcases ends with ⟨rfl, contents⟩ | ⟨rfl, disk, last, contents⟩
    · have inside := le
      rw [count, ← length_contents] at inside
      rw [← length_contents] at whole
      have same := table_put whole inside some short name
      rw [← contents] at same
      refine ⟨d', 0, stop, by simp, dir.of_written written holeFree ?_ ?_, le, free, taken,
        .added contents ?_⟩
      · rw [written.size, ← length_contents]
        rw [size] at inside whole ⊢
        omega
      · rw [same]
        exact dir.unique.put absent le
      · unfold binding
        rw [same]
        exact Table.get_put dir.unique absent le free
    · refine ⟨d', -1, stop, by rw [size]; rfl, dir.of_written written holeFree ?_ ?_, le, free,
        taken,
        .refused contents (last.trans count.symm) (.inl disk)⟩
      · rw [← length_contents, contents, length_contents]
        exact whole
      · rw [contents]
        exact dir.unique
  · rw [count] at le
    rw [limit] at fits small
    have refused :
        d.writei i (d.dinode i) (buffer (dirent inum name)) (direntSize * stop) direntSize =
        .ok (d, d.dinode i, -1) := by
      refine writei_refused ?_ fun inside => ?_
      · rw [size] at le ⊢
        omega
      · have := inside.2
        omega
    rw [refused]
    refine ⟨d, -1, stop, by rw [size]; rfl, dir, by rw [count]; exact le, free, taken,
      .refused rfl ?_ (.inr ?_)⟩
    · rw [count]
      rw [size] at fits le whole ⊢
      omega
    · rw [limit]
      rw [size] at fits le whole ⊢
      omega

/-- A `dirlink` of a name that was not there, when it returns zero. -/
theorem dirlink_new {ip : Dinode} (dir : d.Directory i) (room : d.HasRoom 5) (some : inum ≠ 0)
    (short : inum < 2 ^ 16) (absent : d.binding i (chars name dirsiz) = none)
    (run : d.dirlink i (d.dinode i) name inum = .ok (d', ip, 0)) : ip = d'.dinode i ∧
      d'.Directory i ∧
      d'.binding i = update (d.binding i) (chars name dirsiz) (Option.some inum) := by
  obtain ⟨d₁, r, k, again, dir', -, -, -, linked⟩ := dirlink_absent dir room some short absent
  rw [run] at again
  cases again
  cases linked with
  | added contents binding => exact ⟨rfl, dir', binding⟩

/-- A well-formed directory is a finite map on names of up to `DIRSIZ` characters.  `dirlookup`
finds the binding of a name, and clearing the record where it found it takes away that binding and
no other.  `dirlink` returns `-1` and leaves the records alone when the name is there, or when there
is no free record and the directory cannot grow; otherwise it adds the binding, in the first free
record or at the end.  The log has room for the blocks that one record can cost. -/
theorem directory_is_finite_map (dir : d.Directory i) (room : d.HasRoom 5)
    (name : Nat → UInt8) (range : 1 ≤ inum ∧ inum ≤ 65535) :
    (∃ found, d.dirlookup (d.dinode i) name = .ok (d, d.dinode i, found) ∧
      found.map Prod.fst = d.binding i (chars name dirsiz) ∧
      ∀ ino off, found = some (ino, off) → ∃ d', d.clearDirent i (d.dinode i) off =
        .ok (d', d'.dinode i, (direntSize : Int)) ∧ d'.Directory i ∧
          d'.binding i = update (d.binding i) (chars name dirsiz) none) ∧
    ∃ (d' : Disk) (r : Int), d.dirlink i (d.dinode i) name inum = .ok (d', d'.dinode i, r) ∧
      d'.Directory i ∧
      ((d.binding i (chars name dirsiz)).isSome → r = -1 ∧ d'.contents i = d.contents i) ∧
      (d.binding i (chars name dirsiz) = none →
        ∃ k ≤ (table (d.contents i)).count,
          (k < (table (d.contents i)).count → (table (d.contents i)).slot k = none) ∧
          (∀ l < k, (table (d.contents i)).slot l ≠ none) ∧ Linked d d' i name inum k r) := by
  constructor
  · refine ⟨_, dirlookup_spec dir name, ?_, fun ino off found => ?_⟩
    · unfold binding Table.get
      cases place : (table (d.contents i)).find (chars name dirsiz) with
      | none => rfl
      | some k =>
        obtain ⟨-, v, here⟩ := Table.of_find place
        rw [bind_some, here]
        exact congrArg some (slot_some.1 here).2.2
    · obtain ⟨k, place, value⟩ := map_eq_some_iff.1 found
      cases value
      obtain ⟨lt, v, here⟩ := Table.of_find place
      exact clearDirent_spec dir room lt here
  · cases present : d.binding i (chars name dirsiz) with
    | none =>
      obtain ⟨d', r, k, run, dir', le, free, taken, linked⟩ :=
        dirlink_absent dir room (show inum ≠ 0 by omega) (show inum < 2 ^ 16 by omega) present
      refine ⟨d', r, run, dir', fun there => ?_, fun _ => ⟨k, le, free, taken, linked⟩⟩
      cases there
    | some v =>
      refine ⟨d, -1, ?_, dir, fun _ => ⟨rfl, rfl⟩, fun none => (some_ne_none v none).elim⟩
      have there : (table (d.contents i)).find (chars name dirsiz) ≠ none := by
        intro none
        rw [binding, Table.get_none.2 none] at present
        cases present
      obtain ⟨k, place⟩ := ne_none_iff_exists'.1 there
      unfold dirlink
      simp only [dirlookup_spec dir name, place, bind, Except.bind, map_some,
        isSome_some, if_true]

/-- A disk with an empty directory. -/
def emptyDirectory : Disk := emptyDisk 1 4

theorem emptyDirectory_directory : emptyDirectory.Directory 1 where
  holds := holds_of_empty ⟨by decide, by decide, by decide, by decide⟩ (by decide) (by decide)
  live := by decide
  holeFree := emptyDisk_holeFree 1 4
  type := by decide
  whole := by decide
  unique := fun k lt => absurd lt (not_lt_zero k)

/-- A name of one character. -/
def letter (c : UInt8) : Nat → UInt8 := fun x => if x = 0 then c else 0

/-- The names `a` and `b` are entered in an empty directory, `a` is taken out, and the name `c` gets
its record. -/
theorem finite_map_reuse : ∃ d₁ d₂ d₃ d₄ : Disk,
    emptyDirectory.dirlink 1 (emptyDirectory.dinode 1) (letter 97) 5 = .ok (d₁, d₁.dinode 1, 0) ∧
    d₁.dirlink 1 (d₁.dinode 1) (letter 98) 6 = .ok (d₂, d₂.dinode 1, 0) ∧
    d₂.clearDirent 1 (d₂.dinode 1) 0 = .ok (d₃, d₃.dinode 1, (direntSize : Int)) ∧
    d₃.dirlink 1 (d₃.dinode 1) (letter 99) 7 = .ok (d₄, d₄.dinode 1, 0) ∧
    (d₄.binding 1 [97], d₄.binding 1 [98], d₄.binding 1 [99]) = (none, some 6, some 7) := by
  have pass : yields (emptyDirectory.dirlink 1 (emptyDirectory.dinode 1) (letter 97) 5) (fun x =>
      decide (x.2.2 = 0 ∧ x.1.HasRoom 5) &&
      yields (x.1.dirlink 1 (x.1.dinode 1) (letter 98) 6) fun y =>
        decide (y.2.2 = 0 ∧ y.1.HasRoom 5 ∧ 0 < (table (y.1.contents 1)).count ∧
          inumOf (record (y.1.contents 1) 0) ≠ 0 ∧
          chars (nameOf (record (y.1.contents 1) 0)) dirsiz = [97]) &&
        yields (y.1.clearDirent 1 (y.1.dinode 1) 0) fun z =>
          decide (z.1.HasRoom 5 ∧ 0 < (table (z.1.contents 1)).count ∧
            inumOf (record (z.1.contents 1) 0) = 0)) = true := by decide +kernel
  obtain ⟨⟨d₁, ip₁, r₁⟩, run₁, pass⟩ := of_yields pass
  obtain ⟨test₁, pass⟩ := Bool.and_eq_true_iff.1 pass
  obtain ⟨⟨d₂, ip₂, r₂⟩, run₂, pass⟩ := of_yields pass
  obtain ⟨test₂, pass⟩ := Bool.and_eq_true_iff.1 pass
  obtain ⟨⟨d₃, ip₃, r₃⟩, run₃, test₃⟩ := of_yields pass
  obtain ⟨rfl, room₁⟩ : r₁ = 0 ∧ d₁.HasRoom 5 := of_decide_eq_true test₁
  obtain ⟨rfl, room₂, some₂, taken, named⟩ := of_decide_eq_true test₂
  obtain ⟨room₃, some₃, free⟩ := of_decide_eq_true test₃
  obtain ⟨rfl, dir₁, binding₁⟩ := dirlink_new emptyDirectory_directory (by decide) (by decide)
    (by decide) (Table.get_none.2 (by decide)) run₁
  obtain ⟨rfl, dir₂, binding₂⟩ := dirlink_new dir₁ room₁ (by decide) (by decide)
    (by rw [binding₁]; decide) run₂
  obtain ⟨d, again, dir₃, binding₃⟩ := clearDirent_spec dir₂ room₂ some₂
    (slot_some.2 ⟨taken, named, rfl⟩)
  rw [mul_zero, run₃] at again
  cases again
  obtain ⟨-, d₄, r, run₄, -, -, absent⟩ := directory_is_finite_map dir₃ room₃ (letter 99)
    (show 1 ≤ 7 ∧ 7 ≤ 65535 by decide)
  obtain ⟨k, -, -, full, linked⟩ := absent (by rw [binding₃, binding₂, binding₁]; decide)
  cases linked with
  | added contents binding₄ =>
    refine ⟨d₁, d₂, d₃, d₄, run₁, run₂, run₃, run₄, ?_⟩
    rw [binding₄, binding₃, binding₂, binding₁]
    decide
  | refused contents last cause =>
    exact absurd (slot_none.2 free) (full 0 (by rw [last]; exact some₃))

end Disk

end Xv6.Inodes
