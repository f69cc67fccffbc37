import Xv6.Fileread
import Xv6.Inodes.Directory
import Xv6.Names.Disk

/-!
# What the other parts see of a file

To `fileread` a file is the list of its bytes, and to the name space a directory is the list of its
entries.  Both are views of the blocks: `readi` delivers to user memory what it delivers of the
list, and `dirlookup` and `dirlink` do to the records of a directory what the name space does to its
entries.  The name space counts blocks where `balloc` and `bmap` use the bitmap; when a write ends
in the same way there, it leaves the same entries.
-/

namespace Xv6.Inodes.Disk

open List
open Names (Dirent findEntry emptySlot)

variable {d d' : Disk} {ip : Dinode} {i k off n inum : Nat} {name : Nat → UInt8} {new : List UInt8}

/-! ## Bytes -/

/-- A copy to the user, from the start of the buffer on. -/
def toUser (id : SpaceId) (dst : Nat) : Copyout Recorded :=
  fun u tot bytes => u.copyout id ((dst + tot) % 2 ^ 64) bytes

theorem readiLoop_user {fuel tot : Nat} (id : SpaceId) (dst : Nat) (u : Recorded)
    (holeFree : d.HoleFree ip) (inside : off + (n - tot) ≤ ip.size) :
    readiLoop (toUser id dst) n fuel d ip u off tot =
      (Xv6.readiLoop id (d.bytes ip) n fuel u (dst + tot) off tot).map fun x => (d, ip, x) := by
  induction fuel generalizing u off tot with
  | zero => rfl
  | succ fuel ih =>
    unfold readiLoop Xv6.readiLoop
    by_cases done : n ≤ tot
    · rw [if_pos done, if_pos done]
      rfl
    · have some : d.ptr ip (off / bsize) ≠ 0 :=
        holeFree _ ((Nat.div_mul_le_self _ _).trans_lt (by omega))
      generalize len : min (n - tot) (bsize - off % bsize) = m
      have chunk : d.range ip off m = ((d.bytes ip).drop off).take m := by
        rw [← range_eq_take_drop, Nat.min_eq_left (by omega)]
      simp only [if_neg done, bmap_of_ptr some, bind, Except.bind, if_neg some]
      rw [memget_block some (by omega), chunk, toUser]
      cases u.copyout id ((dst + tot) % 2 ^ 64) (((d.bytes ip).drop off).take m) with
      | error why => rfl
      | ok result =>
        simp only
        split
        · rfl
        · rw [ih result.1 (by omega), add_assoc]

/-- `readi` to user memory delivers the bytes of the file. -/
theorem readi_user (id : SpaceId) (dst : Nat) (u : Recorded) (holeFree : d.HoleFree ip)
    (uint : n < 2 ^ 32) :
    d.readi ip (toUser id dst) u off n =
      (Xv6.readi (d.bytes ip) u id dst off n).map fun x => (d, ip, x) := by
  unfold readi Xv6.readi
  rw [length_bytes]
  split
  · rfl
  · exact readiLoop_user id dst u holeFree (by split <;> omega)

/-! ## Entries -/

/-- The entry in a record. -/
def entryOf (de : List UInt8) : Dirent := ⟨inumOf de, chars (nameOf de) dirsiz⟩

/-- The entries of a directory. -/
def entries (d : Disk) (i : Nat) : List Dirent :=
  (List.range (table (d.contents i)).count).map fun k => entryOf (record (d.contents i) k)

theorem findEntry_map (w : List UInt8) (f : Nat → Dirent) (n m : Nat) :
    findEntry w n ((range' n m).map f) = ((range' n m).find? fun k =>
      decide ((f k).inum ≠ 0 ∧ (f k).name = w)).map fun k => (k, (f k).inum) := by
  induction m generalizing n with
  | zero => rfl
  | succ m ih =>
    rw [range'_succ, map_cons, findEntry, find?_cons, ih]
    by_cases here : (f n).inum ≠ 0 ∧ (f n).name = w
    · rw [if_pos here, decide_eq_true here]
      rfl
    · rw [if_neg here, decide_eq_false here]

/-- `dirlookup` finds the entry. -/
theorem dirlookup_entries (dir : d.Directory i) (name : Nat → UInt8) :
    d.dirlookup (d.dinode i) name = .ok (d, d.dinode i,
      (findEntry (chars name dirsiz) 0 (d.entries i)).map fun x => (x.2, direntSize * x.1)) := by
  have find : (table (d.contents i)).find (chars name dirsiz) =
      (List.range (table (d.contents i)).count).find? fun k => decide
        ((entryOf (record (d.contents i) k)).inum ≠ 0 ∧
          (entryOf (record (d.contents i) k)).name = chars name dirsiz) := by
    unfold SlotMap.Table.find
    congr 1
    funext k
    by_cases free : inumOf (record (d.contents i) k) = 0
    · simp [slot_none.2 free, entryOf, free]
    · simp [slot_some.2 ⟨free, rfl, rfl⟩, entryOf, free]
  rw [dirlookup_spec dir, find, entries, range_eq_range', findEntry_map, Option.map_map]
  rfl

/-- The first free record is the first empty slot. -/
theorem emptySlot_entries (le : k ≤ (table (d.contents i)).count)
    (free : k < (table (d.contents i)).count → (table (d.contents i)).slot k = none)
    (taken : ∀ l < k, (table (d.contents i)).slot l ≠ none) : emptySlot (d.entries i) = k := by
  have used (l : Nat) (lt : l < k) : inumOf (record (d.contents i) l) ≠ 0 :=
    fun none => taken l lt (slot_none.2 none)
  rcases le.lt_or_eq with lt | rfl
  · refine (findIdx_eq (by simpa [entries] using lt)).2 ⟨?_, fun l below => ?_⟩
    · simpa [entries, entryOf] using slot_none.1 (free lt)
    · simpa [entries, entryOf] using used l below
  · refine (findIdx_eq_length.2 fun de mem => ?_).trans (by simp [entries])
    obtain ⟨l, below, rfl⟩ := mem_map.1 mem
    exact decide_eq_false (used l (mem_range.1 below))

/-- Writing a record writes an entry. -/
theorem entries_overwrite (dir : d.Directory i) (le : k ≤ (table (d.contents i)).count)
    (length : new.length = direntSize)
    (contents : d'.contents i = overwrite (d.contents i) (direntSize * k) new) :
    d'.entries i = Names.Disk.put k (entryOf new) (d.entries i) := by
  have whole : (d.contents i).length % direntSize = 0 := by
    rw [length_contents]
    exact dir.whole
  have records := record_overwrite whole le length
  have count := count_overwrite whole le length
  unfold entries Names.Disk.put
  rw [contents, count, length_map, length_range]
  rcases le.lt_or_eq with lt | rfl
  · rw [if_pos lt, max_eq_left (Nat.succ_le_of_lt lt)]
    apply ext_getElem
    · simp
    · intro l _ _
      simp only [records, getElem_map, getElem_range, getElem_set, eq_comm (a := k)]
      split_ifs <;> rfl
  · rw [if_neg (lt_irrefl _), max_eq_right (Nat.le_succ _), range_succ, map_append]
    congr 1
    · refine map_congr_left fun l mem => ?_
      rw [records, if_neg (mem_range.1 mem).ne]
    · simp [records]

/-- A directory, and a directory of the name space with the same entries.  Where the name is there,
both refuse it.  Where it is not, both write the entry to the first empty slot, and if they agree on
whether that succeeds they return the same and leave the same entries. -/
theorem dirlink_entries {e : Names.Disk} (dir : d.Directory i) (room : d.HasRoom 5)
    (range : 1 ≤ inum ∧ inum ≤ 65535) (same : (e.node i).entries = d.entries i) :
    ∃ (d' : Disk) (r : Int), d.dirlink i (d.dinode i) name inum = .ok (d', d'.dinode i, r) ∧
      d'.Directory i ∧
      match findEntry (chars name dirsiz) 0 (e.node i).entries with
      | some _ => r = -1 ∧ d'.entries i = (e.node i).entries
      | none => (r = 0 ↔ e.fits i (emptySlot (e.node i).entries) = true) →
        r = (if (e.writei i (emptySlot (e.node i).entries) ⟨inum, chars name dirsiz⟩).1 = direntSize
          then 0 else -1) ∧
        d'.entries i = ((e.writei i (emptySlot (e.node i).entries)
          ⟨inum, chars name dirsiz⟩).2.node i).entries := by
  have look := dirlookup_entries dir name
  rw [same]
  cases found : findEntry (chars name dirsiz) 0 (d.entries i) with
  | some x =>
    rw [found] at look
    refine ⟨d, -1, ?_, dir, rfl, rfl⟩
    simp only [dirlink, look, bind, Except.bind, Option.map_some, Option.isSome_some, if_true]
  | none =>
    rw [found, dirlookup_spec dir] at look
    have absent : d.binding i (chars name dirsiz) = none := by
      rw [binding, SlotMap.Table.get_none]
      simpa using look
    obtain ⟨d', r, k, run, dir', le, free, taken, linked⟩ :=
      dirlink_absent dir room (show inum ≠ 0 by omega) (show inum < 2 ^ 16 by omega) absent
    refine ⟨d', r, run, dir', fun agree => ?_⟩
    rw [emptySlot_entries le free taken] at agree ⊢
    cases linked with
    | added contents =>
      obtain ⟨written, -, node⟩ :=
        Names.Disk.writei_of_fits ⟨inum, chars name dirsiz⟩ (agree.1 rfl)
      rw [written, if_pos rfl, node, Function.update_self, same,
        entries_overwrite dir le (length_dirent inum name) contents, entryOf, chars_dirent,
        inumOf_dirent (by omega)]
      exact ⟨rfl, rfl⟩
    | refused contents =>
      have full : e.fits i k = false := by
        by_contra fits
        exact absurd (agree.2 (by simpa using fits)) (by decide)
      obtain ⟨short, -, node⟩ := Names.Disk.writei_of_full ⟨inum, chars name dirsiz⟩ full
      have size : direntSize = 16 := rfl
      rw [if_neg (by rw [size]; omega), node, same, entries, contents]
      exact ⟨rfl, rfl⟩

end Xv6.Inodes.Disk
