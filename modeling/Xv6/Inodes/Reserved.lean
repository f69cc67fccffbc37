import Xv6.Inodes.Transfer

/-!
# The blocks that one `writei` logs

`log_write` panics when the log is full, and this is the only way in which `writei` can fail.  What
it needs is counted in blocks: a new block costs itself and a block of the bitmap, the first
indirect block the same, and the block of the inode comes at the end.  A range that does not begin
at a block begins in one that the file has already.

`filewrite` cuts a write into chunks of three blocks so that each fits the `MAXOPBLOCKS` blocks
that `begin_op` reserves.  The count does not need the bitmap to be right.
-/

namespace Xv6.Inodes

open Fallible Finset Nat

/-- `((MAXOPBLOCKS-1-1-2) / 2) * BSIZE`. -/
def maxChunk : Nat := (maxopblocks - 1 - 1 - 2) / 2 * bsize

/-- The number of blocks in a range that begins at a block. -/
def blocksOf (n : Nat) : Nat := (n + bsize - 1) / bsize

/-- The blocks of data that `writei` of a range can log, and those of the bitmap for them. -/
def dataNeed (off n : Nat) : Nat :=
  if off % bsize = 0 then 2 * blocksOf n else 1 + 2 * blocksOf (n - (bsize - off % bsize))

/-- With the indirect block, its block of the bitmap, and the block of the inode. -/
def logNeed (off n : Nat) : Nat := dataNeed off n + 3

namespace Disk

variable {d d₀ : Disk} {ip : Dinode} {a b bn k off n room tot : Nat} {src : Source} {data : Block}
  {t t' : Finset Nat}

/-- In a transaction whose log takes `k` more blocks. -/
def HasRoom (d : Disk) (k : Nat) : Prop :=
  0 < d.outstanding ∧ d.lhn + k ≤ min logsize (d.sb.nlog - 1)

instance (d : Disk) (k : Nat) : Decidable (d.HasRoom k) := inferInstanceAs (Decidable (_ ∧ _))

theorem HasRoom.mono (has : d.HasRoom k) (le : room ≤ k) : d.HasRoom room :=
  ⟨has.1, (Nat.add_le_add_left le _).trans has.2⟩

/-- The blocks logged since, and those of `t`, are at most `k`. -/
structure Spent (d₀ d : Disk) (t : Finset Nat) (k : Nat) : Prop where
  sb : d.sb = d₀.sb
  trans : 0 < d.outstanding
  calls : ∃ calls, d.logged = d₀.logged ++ calls ∧ (calls.toFinset ∪ t).card ≤ k

/-- It returns, or panics because the log had no room at the start. -/
def Fits {α : Type} (d₀ : Disk) (room : Nat) : Except String α → (α → Prop) → Prop :=
  ReturnsOr "too big a transaction" (¬ d₀.HasRoom room)

/-- The indirect block, once there is one. -/
def tableOf (ip : Dinode) : Finset Nat := if ip.addr ndirect = 0 then ∅ else {ip.addr ndirect}

/-- What an indirect block still costs. -/
def owes (ip : Dinode) : Nat := if ip.addr ndirect = 0 then 2 else 0

namespace Spent

theorem start (trans : 0 < d.outstanding) : Spent d d t t.card :=
  ⟨rfl, trans, [], (List.append_nil _).symm, by rw [List.toFinset_nil, empty_union]⟩

variable (spent : Spent d₀ d t k)

include spent

theorem mono {k' : Nat} (sub : t' ⊆ t) (le : k ≤ k') : Spent d₀ d t' k' := by
  obtain ⟨calls, logged, card⟩ := spent.calls
  exact ⟨spent.sb, spent.trans, calls, logged,
    (card_le_card (union_subset_union_right sub)).trans (card.trans le)⟩

theorem insert (b : Nat) : Spent d₀ d (insert b t) (k + 1) := by
  obtain ⟨calls, logged, card⟩ := spent.calls
  refine ⟨spent.sb, spent.trans, calls, logged, ?_⟩
  rw [union_insert]
  exact (card_insert_le _ _).trans (succ_le_succ card)

theorem logAt (mem : b ∈ t) : Spent d₀ (d.logAt b data) t k := by
  obtain ⟨calls, logged, card⟩ := spent.calls
  refine ⟨spent.sb, spent.trans, calls ++ [b], ?_, (card_le_card ?_).trans card⟩
  · rw [← List.append_assoc, ← logged]
    rfl
  · intro c here
    rw [List.toFinset_append, mem_union, mem_union, List.mem_toFinset, List.mem_toFinset,
      List.mem_singleton] at here
    rw [mem_union, List.mem_toFinset]
    rcases here with (old | rfl) | old
    · exact .inl old
    · exact .inr mem
    · exact .inr old

theorem store : Spent d₀ (d.store b data) t k := ⟨spent.sb, spent.trans, spent.calls⟩

theorem lhn_le : d.lhn ≤ d₀.lhn + k := by
  obtain ⟨calls, logged, card⟩ := spent.calls
  unfold lhn
  rw [← List.card_toFinset, ← List.card_toFinset, logged, List.toFinset_append]
  have both := card_union_le d₀.logged.toFinset calls.toFinset
  have few := card_le_card (subset_union_left : calls.toFinset ⊆ calls.toFinset ∪ t)
  omega

/-- One more block, which is counted by now. -/
theorem logWrite {k' : Nat} (lt : k < room) (next : Spent d₀ d t' k') (mem : b ∈ t') :
    Fits d₀ room (d.logWrite b data) fun d' => Spent d₀ d' t' k' := by
  unfold Disk.logWrite
  by_cases full : logsize ≤ d.lhn ∨ d.sb.nlog - 1 ≤ d.lhn
  · rw [if_pos full]
    refine .inr ⟨rfl, fun has => ?_⟩
    have le := spent.lhn_le
    have most := has.2
    rw [spent.sb] at full
    omega
  · have trans := spent.trans
    rw [if_neg full, if_neg (by omega)]
    exact .ok (next.logAt mem)

/-- A new block costs itself and its block of the bitmap. -/
theorem balloc (lt : k + 2 < room) :
    Fits d₀ room d.balloc fun r => Spent d₀ r.1 (Insert.insert r.2 t) (k + 2) := by
  unfold Disk.balloc
  cases d.firstFree with
  | none => exact .ok ((spent.insert 0).mono Subset.rfl (le_succ _))
  | some b =>
    have both := (spent.insert b).insert (d.sb.bblock b)
    refine (both.logWrite lt both (mem_insert_self _ _)).bind fun d₁ spent₁ => ?_
    refine (spent₁.logWrite lt spent₁ (mem_insert_of_mem (mem_insert_self _ _))).bind
      fun d₂ spent₂ => ?_
    exact .ok (spent₂.mono (subset_insert _ _) le_rfl)

theorem loadAddr (lt : k + 2 < room) (ip : Dinode) (j : Nat) :
    Fits d₀ room (d.loadAddr ip j) fun r => Spent d₀ r.1 (Insert.insert r.2.2 t) (k + 2) ∧
      ((ip.addr j ≠ 0 ∧ r = (d, ip, ip.addr j)) ∨ (ip.addr j = 0 ∧
        (r.2.2 = 0 ∧ r.2.1 = ip ∨ r.2.2 ≠ 0 ∧ r.2.1 = ip.setAddr j r.2.2))) := by
  unfold Disk.loadAddr
  by_cases empty : ip.addr j = 0
  · rw [if_pos empty]
    refine (spent.balloc lt).bind fun r spent' => ?_
    by_cases none : r.2 = 0
    · simp only [if_pos none]
      exact .ok ⟨none ▸ spent', .inr ⟨empty, .inl ⟨rfl, rfl⟩⟩⟩
    · simp only [if_neg none]
      exact .ok ⟨spent', .inr ⟨empty, .inr ⟨none, rfl⟩⟩⟩
  · rw [if_neg empty]
    exact .ok ⟨(spent.insert _).mono Subset.rfl (le_succ _), .inl ⟨empty, rfl⟩⟩

theorem loadEntry {table : Nat} (mem : table ∈ t) (lt : k + 2 < room) (j : Nat) :
    Fits d₀ room (d.loadEntry table j) fun r => Spent d₀ r.1 (Insert.insert r.2 t) (k + 2) := by
  unfold Disk.loadEntry
  by_cases empty : d.entry table j = 0
  · rw [if_pos empty]
    refine (spent.balloc lt).bind fun r spent' => ?_
    by_cases none : r.2 = 0
    · simp only [if_pos none]
      exact .ok (none ▸ spent')
    · simp only [if_neg none]
      exact (spent'.logWrite lt spent' (mem_insert_of_mem mem)).bind fun d₁ spent₁ => .ok spent₁
  · rw [if_neg empty]
    exact .ok ((spent.insert _).mono Subset.rfl (le_succ _))

end Spent

/-- One call of `bmap`. -/
theorem Spent.bmap (spent : Spent d₀ d (tableOf ip) k) (lt : bn < maxfile)
    (less : k + owes ip + 2 < room) : Fits d₀ room (d.bmap ip bn) fun r =>
      ∃ k', Spent d₀ r.1 (Insert.insert r.2.2 (tableOf r.2.1)) k' ∧
        k' + owes r.2.1 ≤ k + owes ip + 2 := by
  unfold Disk.bmap
  by_cases direct : bn < ndirect
  · rw [if_pos direct]
    rcases spent.loadAddr (show k + 2 < room by omega) ip bn with ⟨r, run, spent', ends⟩ | full
    · have table : r.2.1.addr ndirect = ip.addr ndirect := by
        rcases ends with ⟨-, rfl⟩ | ⟨-, ⟨-, same⟩ | ⟨-, new⟩⟩
        · rfl
        · rw [same]
        · rw [new, Dinode.addr_setAddr_ne (by omega)]
      refine .inl ⟨r, run, k + 2, ?_, ?_⟩
      · rw [tableOf, table]
        exact spent'
      · rw [owes, table, ← owes]
        omega
    · exact .inr full
  · have inside : bn - ndirect < nindirect := by
      unfold maxfile at lt
      omega
    -- the number in the indirect block, once this is counted
    have rest {d₁ : Disk} {ip₁ : Dinode} {k₁ : Nat} (some : ip₁.addr ndirect ≠ 0)
        (spent₁ : Spent d₀ d₁ {ip₁.addr ndirect} k₁) (few : k₁ ≤ k + owes ip) :
        Fits d₀ room (do
          let r ← d₁.loadEntry (ip₁.addr ndirect) (bn - ndirect)
          .ok (r.1, ip₁, r.2)) fun r =>
            ∃ k', Spent d₀ r.1 (Insert.insert r.2.2 (tableOf r.2.1)) k' ∧
              k' + owes r.2.1 ≤ k + owes ip + 2 := by
      refine (spent₁.loadEntry (mem_singleton_self _) (show k₁ + 2 < room by omega) _).bind
        fun r spent' => .ok ⟨k₁ + 2, ?_, ?_⟩
      · rw [tableOf, if_neg some]
        exact spent'
      · rw [owes, if_neg some]
        omega
    rw [if_neg direct, if_pos inside]
    refine (spent.loadAddr (show k + 2 < room by omega) ip ndirect).bind fun r result => ?_
    rcases result with ⟨spent₁, ⟨some, rfl⟩ | ⟨empty, ⟨zero, same⟩ | ⟨nonzero, new⟩⟩⟩
    · rw [tableOf, if_neg some] at spent
      simp only [if_neg some]
      exact rest some spent (le_add_right _ _)
    · simp only [if_pos zero]
      refine .ok ⟨k + 2, ?_, ?_⟩
      · rw [same, ← zero]
        exact spent₁
      · rw [same]
        omega
    · have here : r.2.1.addr ndirect = r.2.2 := by rw [new, Dinode.addr_setAddr_self (by omega)]
      simp only [if_neg nonzero]
      rw [← here] at nonzero spent₁ ⊢
      refine rest nonzero (spent₁.mono (singleton_subset_iff.2 (mem_insert_self _ _)) le_rfl) ?_
      rw [owes, if_pos empty]

/-- The loop from an offset at the beginning of a block. -/
theorem Spent.writeiLoop (src : Source) (fuel : Nat) (aligned : off % bsize = 0 ∨ n ≤ tot)
    (fits : off + (n - tot) ≤ maxfile * bsize) (spent : Spent d₀ d (tableOf ip) k)
    (most : k + owes ip + 2 * blocksOf (n - tot) ≤ room) :
    Fits d₀ (room + 1) (Disk.writeiLoop src n fuel d ip off tot) fun r => Spent d₀ r.1 ∅ room := by
  have ends {d' : Disk} {t : Finset Nat} {k' : Nat} (spent : Spent d₀ d' t k') (le : k' ≤ room) :
      Spent d₀ d' ∅ room := spent.mono (empty_subset _) le
  induction fuel generalizing d ip off tot k with
  | zero => exact .ok (ends spent (by omega))
  | succ fuel ih =>
    unfold Disk.writeiLoop
    by_cases finished : n ≤ tot
    · rw [if_pos finished]
      exact .ok (ends spent (by omega))
    · have block : off / bsize < maxfile := by
        apply Nat.div_lt_of_lt_mul
        rw [Nat.mul_comm]
        omega
      have size : bsize = 1024 := rfl
      generalize len : min (n - tot) (bsize - off % bsize) = m
      have fewer : blocksOf (n - (tot + m)) + 1 ≤ blocksOf (n - tot) := by
        unfold blocksOf
        rw [size] at aligned len ⊢
        omega
      rw [if_neg finished]
      refine (spent.bmap block (show k + owes ip + 2 < room + 1 by omega)).bind fun r mapped => ?_
      obtain ⟨k₁, spent₁, le⟩ := mapped
      by_cases zero : r.2.2 = 0
      · simp only [if_pos zero]
        exact .ok (ends spent₁ (by omega))
      · obtain ⟨new, result, copied, -⟩ := eitherCopyin_spec src tot m
        simp only [if_neg zero, copied]
        by_cases failed : result = -1
        · simp only [bind, Except.bind, if_pos failed]
          exact .ok (ends spent₁.store (by omega))
        · simp only [bind, Except.bind, if_neg failed]
          refine (spent₁.logWrite (show k₁ < room + 1 by omega) spent₁ (mem_insert_self _ _)).bind
            fun d₂ spent₂ => ?_
          exact ih (by rw [size] at aligned len ⊢; omega) (by omega)
            (spent₂.mono (subset_insert _ _) le_rfl)
            (show k₁ + owes r.2.1 + 2 * blocksOf (n - (tot + m)) ≤ room by omega)

/-- The loop of a range that may begin inside a block of the file. -/
theorem Spent.writeiLoop_range (src : Source) (holeFree : d.HoleFree ip) (le : off ≤ ip.size)
    (fits : off + n ≤ maxfile * bsize) (spent : Spent d₀ d (tableOf ip) k)
    (two : k + owes ip ≤ 2) : Fits d₀ (logNeed off n) (Disk.writeiLoop src n n d ip off 0) fun r =>
      Spent d₀ r.1 ∅ (dataNeed off n + 2) := by
  have size : bsize = 1024 := rfl
  unfold logNeed dataNeed
  by_cases aligned : off % bsize = 0
  · rw [if_pos aligned]
    exact spent.writeiLoop src n (.inl aligned) fits (by rw [Nat.sub_zero]; omega)
  · rw [if_neg aligned]
    cases n with
    | zero => exact .ok (spent.mono (empty_subset _) (by omega))
    | succ fuel =>
      have there : d.ptr ip (off / bsize) ≠ 0 := by
        apply holeFree
        rw [size] at aligned ⊢
        omega
      unfold Disk.writeiLoop
      generalize len : min (fuel + 1 - 0) (bsize - off % bsize) = m
      obtain ⟨new, result, copied, -⟩ := eitherCopyin_spec src 0 m
      simp only [bmap_of_ptr there, bind, Except.bind, if_neg there, copied,
        if_neg (not_succ_le_zero fuel)]
      by_cases failed : result = -1
      · rw [if_pos failed]
        exact .ok (spent.store.mono (empty_subset _) (by omega))
      · rw [if_neg failed]
        refine (spent.logWrite (by omega) (spent.insert _) (mem_insert_self _ _)).bind
          fun d₁ spent₁ => ?_
        refine (spent₁.mono (subset_insert _ _) le_rfl).writeiLoop src fuel ?_
          (show off + m + (fuel + 1 - (0 + m)) ≤ maxfile * bsize by omega) ?_
        · rw [size] at aligned len ⊢
          omega
        · have rest : blocksOf (fuel + 1 - (0 + m)) =
              blocksOf (fuel + 1 - (bsize - off % bsize)) := by
            congr 1
            omega
          omega

/-- `writei` logs no more blocks than it needs, and returns if the log has room for these. -/
theorem writei_logs (src : Source) (i off : Nat) (uint : n < 2 ^ 32) (holeFree : d.HoleFree ip)
    (trans : 0 < d.outstanding) : Fits d (logNeed off n) (d.writei i ip src off n) fun r =>
      ∃ calls : List Nat, r.1.logged = d.logged ++ calls ∧ calls.toFinset.card ≤ logNeed off n := by
  unfold writei
  by_cases refused : ip.size < off ∨ (off + n) % 2 ^ 32 < off
  · rw [if_pos refused]
    exact .ok ⟨[], (List.append_nil _).symm, zero_le _⟩
  · rw [if_neg refused]
    by_cases large : maxfile * bsize < (off + n) % 2 ^ 32
    · rw [if_pos large]
      exact .ok ⟨[], (List.append_nil _).symm, zero_le _⟩
    · rw [if_neg large]
      have limit : maxfile * bsize = 274432 := by decide
      have two : (tableOf ip).card + owes ip ≤ 2 := by
        unfold tableOf owes
        split
        · rw [card_empty]
        · rw [card_singleton]
          decide
      refine ((Spent.start trans).writeiLoop_range src holeFree (by omega) (by omega) two).bind
        fun r spent => ?_
      refine (spent.logWrite (lt_succ_self _) (spent.insert _) (mem_insert_self _ _)).bind
        fun d₂ spent₂ => ?_
      obtain ⟨calls, logged, few⟩ := spent₂.calls
      exact .ok ⟨calls, logged, (card_le_card subset_union_left).trans few⟩

theorem logNeed_chunk (off : Nat) (small : n ≤ maxChunk) : logNeed off n ≤ maxopblocks := by
  have size : bsize = 1024 := rfl
  have chunk : maxChunk = 3072 := rfl
  have ten : maxopblocks = 10 := rfl
  unfold logNeed dataNeed blocksOf
  rw [size]
  split
  · omega
  · omega

/-- One `writei` of a chunk logs at most `MAXOPBLOCKS` blocks, whatever the bitmap says and however
many blocks it has. -/
theorem writei_fits_reservation (src : Source) (i off : Nat) (holeFree : d.HoleFree ip)
    (small : n ≤ maxChunk) (room : d.HasRoom maxopblocks) :
    ∃ (d' : Disk) (ip' : Dinode) (r : Int) (calls : List Nat),
      d.writei i ip src off n = .ok (d', ip', r) ∧ d'.logged = d.logged ++ calls ∧
        calls.toFinset.card ≤ maxopblocks := by
  have need := logNeed_chunk off small
  rcases writei_logs src i off (small.trans_lt (by decide)) holeFree room.1 with
    ⟨⟨d', ip', r⟩, run, calls, logged, few⟩ | ⟨-, full⟩
  · exact ⟨d', ip', r, calls, run, logged, few.trans need⟩
  · exact absurd (room.mono need) full

/-- A disk in a transaction, with an empty log of thirty blocks, one block of inodes, one of the
bitmap and `nblocks` of data.  The only inode has number one and no bytes. -/
def emptyDisk (type : UInt8) (nblocks : Nat) : Disk where
  sb := ⟨0x10203040, 34 + nblocks, nblocks, 16, 30, 2, 32, 33⟩
  block := fun b x => if b = 32 ∧ x = 64 then type else
    if b = 33 ∧ x < 4 then 255 else if b = 33 ∧ x = 4 then 3 else 0
  logged := []
  outstanding := 1

theorem emptyDisk_holeFree (type : UInt8) (nblocks : Nat) :
    (emptyDisk type nblocks).HoleFree ((emptyDisk type nblocks).dinode 1) :=
  holeFree_iff.2 fun x lt => absurd lt (not_lt_zero x)

/-- The inode is a file. -/
def emptyFile : Disk := emptyDisk 2 4

/-- A chunk of three blocks at the beginning of an empty file. -/
theorem writei_fits_three : ∃ (d' : Disk) (ip' : Dinode) (r : Int) (calls : List Nat),
    emptyFile.writei 1 (emptyFile.dinode 1) (.kernel (fun _ => 7) 0) 0 3072 = .ok (d', ip', r) ∧
      d'.logged = emptyFile.logged ++ calls ∧ calls.toFinset.card ≤ maxopblocks :=
  writei_fits_reservation (.kernel (fun _ => 7) 0) 1 0 (emptyDisk_holeFree 2 4) (by decide)
    (by decide)

end Disk

end Xv6.Inodes
