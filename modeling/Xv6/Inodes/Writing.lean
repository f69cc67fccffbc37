import Xv6.Inodes.Transfer

/-!
# What `writei` leaves behind

The loop of `writei` round by round: `bmap`, which can add a block of zeros, and a store into one
block.  Neither changes another file, and the bitmap stays exact.  At the end the inode is written
back.
-/

namespace Xv6.Inodes

open Fallible Function

namespace Disk

variable {d d' : Disk} {V V' : Nat → Dinode} {a bn i j off n tot x : Nat} {ip : Dinode}
  {src : Source} {new : List UInt8}

/-! ## Writing -/

/-- A store into a block of a file changes the bytes of that block, and nothing else. -/
theorem Holds.store (holds : d.Holds V []) (live : d.Live V i) (lt : bn < maxfile)
    (some : d.ptr (V i) bn ≠ 0) (data : Block) :
    Same d (d.store (d.ptr (V i) bn) data) ∧ (d.store (d.ptr (V i) bn) data).Holds V [] ∧
      ∀ j, d.Live V j → ∀ x, (d.store (d.ptr (V i) bn) data).byte (V j) x =
        if j = i ∧ x / bsize = bn then .some (data (x % bsize)) else d.byte (V j) x := by
  have here := ptr_eq_owners live lt
  rw [here] at some ⊢
  obtain ⟨low, high⟩ := holds.exact.range _ some
  have layout := holds.layout
  generalize place : d.owners V (i, index bn) = a at *
  -- the block is in this slot only, so it is no indirect block
  have alone : ∀ y, d.owners V y = a → y = (i, index bn) := by
    intro y same
    exact holds.exact.unique _ _ (same ▸ some) (same.trans place.symm)
  have same : Same d (d.store a data) := .store layout (layout.bmapstart_lt.le.trans low)
  have owners : (d.store a data).owners V = d.owners V := by
    apply owners_congr same
    intro j liveJ table k
    apply entry_store
    intro eq
    rw [← Holds.table liveJ] at eq
    exact index_ne bn (congrArg Prod.snd (alone _ eq)).symm
  refine ⟨same, ⟨layout, ?_⟩, ?_⟩
  · rw [owners]
    exact holds.exact.congr (fun c inside => bit_store_data layout low inside) fun _ => rfl
  · intro j liveJ x
    rw [byte_eq (same.live.2 liveJ), byte_eq liveJ, owners]
    by_cases hit : j = i ∧ x / bsize = bn
    · obtain ⟨rfl, rfl⟩ := hit
      rw [place, if_pos ⟨lt, some⟩, if_pos ⟨rfl, rfl⟩, block_store_self]
    · rw [if_neg hit]
      by_cases inside : x / bsize < maxfile ∧ d.owners V (j, index (x / bsize)) ≠ 0
      · have other : d.owners V (j, index (x / bsize)) ≠ a := by
          intro eq
          have eq := alone _ eq
          exact hit ⟨congrArg Prod.fst eq, index_inj (congrArg Prod.snd eq)⟩
        rw [if_pos inside, if_pos inside, block_store_ne other]
      · rw [if_neg inside, if_neg inside]

/-- Bytes are stored at an offset of a file, inside one block. -/
theorem Holds.put (holds : d.Holds V []) (live : d.Live V i) (lt : off / bsize < maxfile)
    (some : d.ptr (V i) (off / bsize) ≠ 0) (inside : new.length ≤ bsize - off % bsize)
    (live' : d.Live V j) : (d.store (d.ptr (V i) (off / bsize))
        (memput (d.block (d.ptr (V i) (off / bsize))) (off % bsize) new)).byte (V j) x =
      if j = i ∧ off ≤ x ∧ x < off + new.length then .some (new.getD (x - off) 0)
      else d.byte (V j) x := by
  obtain ⟨-, -, bytes⟩ := holds.store live lt some
    (memput (d.block (d.ptr (V i) (off / bsize))) (off % bsize) new)
  have size : bsize = 1024 := rfl
  rw [bytes j live']
  by_cases hit : j = i ∧ x / bsize = off / bsize
  · obtain ⟨rfl, block⟩ := hit
    rw [if_pos ⟨rfl, block⟩]
    have window : (off % bsize ≤ x % bsize ∧ x % bsize < off % bsize + new.length) ↔
        off ≤ x ∧ x < off + new.length := by
      rw [size] at block inside ⊢
      omega
    unfold memput
    by_cases written : off ≤ x ∧ x < off + new.length
    · rw [if_pos (window.2 written), if_pos ⟨rfl, written⟩]
      congr 2
      rw [size] at block ⊢
      omega
    · rw [if_neg (mt window.1 written), if_neg fun h => written h.2, byte, block, if_neg some]
  · rw [if_neg hit, if_neg]
    rintro ⟨rfl, low, high⟩
    refine hit ⟨rfl, ?_⟩
    rw [size] at inside ⊢
    omega

/-- What the loop of `writei` has done when it stops at offset `stop`, after `done` bytes.  The
`extra` bytes after that were stored by a copy that failed. -/
structure Wrote (d : Disk) (V : Nat → Dinode) (d' : Disk) (ip : Dinode) (i : Nat) (src : Source)
    (off tot stop done extra : Nat) : Prop where
  same : Same d d'
  holds : d'.Holds (Function.update V i ip) []
  fields : ip.Alike (V i)
  progress : tot ≤ done ∧ stop = off + (done - tot)
  others : ∀ j ≠ i, d.Live V j → ∀ x, d'.byte (V j) x = d.byte (V j) x
  written : ∀ x, off ≤ x → x < stop + extra → d'.byte ip x = src.byte (tot + (x - off)) ∧
    (d'.byte ip x).isSome
  kept : ∀ x, ¬ (off ≤ x ∧ x < stop + extra) → (d.byte (V i) x).isSome →
    d'.byte ip x = d.byte (V i) x

/-- Why the loop stops: all bytes are written, the disk is full, or a byte of the source cannot be
read. -/
inductive Stopped (d : Disk) (ip : Dinode) (src : Source) (off n stop done extra : Nat) : Prop
  | finished (all : done = n) (none : extra = 0)
  | full (full : d.Full) (hole : d.byte ip stop = none) (short : done < n) (none : extra = 0)
  | unreadable (short : done + extra < n) (start : stop = off ∨ stop % bsize = 0)
      (block : (stop + extra) / bsize = stop / bsize) (bad : src.byte (done + extra) = none)

theorem Stopped.le {stop done extra : Nat} (stopped : Stopped d ip src off n stop done extra) :
    done ≤ n := by
  cases stopped with
  | finished all none => exact all.le
  | full full hole short none => exact short.le
  | unreadable short start block bad => omega

namespace Wrote

variable {stop done extra : Nat}

/-- The loop has not begun. -/
theorem start (holds : d.Holds V []) : Wrote d V d (V i) i src off tot off tot 0 where
  same := .refl d
  holds := by rw [update_eq_self]; exact holds
  fields := .refl _
  progress := ⟨le_rfl, by omega⟩
  others := fun _ _ _ _ => rfl
  written := fun x low high => by omega
  kept := fun _ _ _ => rfl

/-- `bmap` alone. -/
theorem of_mapped (mapped : Mapped d V d' ip i bn a) (live : d.Live V i) :
    Wrote d V d' ip i src off tot off tot 0 where
  same := mapped.same
  holds := mapped.holds
  fields := mapped.fields
  progress := ⟨le_rfl, by omega⟩
  others := by
    intro j ne liveJ x
    have later := mapped.byte j liveJ x
    rw [update_of_ne ne, if_neg fun h => ne h.1] at later
    exact later
  written := fun x low high => by omega
  kept := by
    intro x _ some
    have later := mapped.byte i live x
    rw [update_self] at later
    rw [later]
    by_cases new : i = i ∧ x / bsize = bn ∧ d.ptr (V i) bn = 0 ∧ a ≠ 0
    · obtain ⟨-, rfl, none, -⟩ := new
      exact absurd none (isSome_byte.1 some)
    · rw [if_neg new]

/-- `bmap` and a copy into its block. -/
theorem of_put (mapped : Mapped d V d' ip i (off / bsize) a) (live : d.Live V i)
    (lt : off / bsize < maxfile) (nonzero : a ≠ 0) (inside : new.length ≤ bsize - off % bsize)
    (stored : ∀ x < new.length, src.byte (tot + x) = some (new.getD x 0)) :
    Wrote d V (d'.store a (memput (d'.block a) (off % bsize) new)) ip i src off tot off tot
      new.length := by
  have type : ip.type = (V i).type := mapped.fields.type
  have lives : ∀ j, d.Live V j → d'.Live (update V i ip) j :=
    fun j liveJ => (live_update type).2 (mapped.same.live.2 liveJ)
  have here : update V i ip i = ip := update_self _ _ _
  have place : d'.ptr (update V i ip i) (off / bsize) = a := by rw [here]; exact mapped.ptr
  have some : d'.ptr (update V i ip i) (off / bsize) ≠ 0 := by rw [place]; exact nonzero
  obtain ⟨same, holds, -⟩ := mapped.holds.store (lives i live) lt some
    (memput (d'.block a) (off % bsize) new)
  have bytes := fun j liveJ x =>
    mapped.holds.put (x := x) (lives i live) lt some inside (lives j liveJ)
  rw [place] at same holds bytes
  have first : Wrote d V d' ip i src off tot off tot 0 := of_mapped mapped live
  refine ⟨mapped.same.trans same, holds, mapped.fields, ⟨le_rfl, by omega⟩, ?_, ?_, ?_⟩
  · intro j ne liveJ x
    have later := bytes j liveJ x
    rw [update_of_ne ne, if_neg fun h => ne h.1] at later
    rw [later]
    exact first.others j ne liveJ x
  · intro x low high
    have later := bytes i live x
    rw [here, if_pos ⟨rfl, low, high⟩] at later
    rw [later, stored (x - off) (by omega)]
    exact ⟨rfl, rfl⟩
  · intro x outside some
    have later := bytes i live x
    rw [here, if_neg fun h => outside h.2] at later
    rw [later]
    exact first.kept x (by omega) some

/-- One round and the rounds after it. -/
theorem trans {d₁ : Disk} {ip₁ : Dinode} {m : Nat}
    (first : Wrote d V d₁ ip₁ i src off tot off tot m)
    (rest : Wrote d₁ (update V i ip₁) d' ip i src (off + m) (tot + m) stop done extra) :
    Wrote d V d' ip i src off tot stop done extra := by
  have here : update V i ip₁ i = ip₁ := update_self _ _ _
  have type : ip₁.type = (V i).type := first.fields.type
  have progress := rest.progress
  refine ⟨first.same.trans rest.same, ?_, ?_, ⟨by omega, by omega⟩, ?_, ?_, ?_⟩
  · have holds := rest.holds
    rw [update_idem] at holds
    exact holds
  · have later := rest.fields
    rw [here] at later
    exact later.trans first.fields
  · intro j ne liveJ x
    have later := rest.others j ne ((live_update type).2 (first.same.live.2 liveJ)) x
    rw [update_of_ne ne] at later
    exact later.trans (first.others j ne liveJ x)
  · intro x low high
    by_cases early : x < off + m
    · obtain ⟨value, some⟩ := first.written x low early
      have kept := rest.kept x (by omega) (by rw [here]; exact some)
      rw [here] at kept
      rw [kept]
      exact ⟨value, some⟩
    · have later := rest.written x (by omega) high
      rw [show tot + m + (x - (off + m)) = tot + (x - off) by omega] at later
      exact later
  · intro x outside some
    have before := first.kept x (by omega) some
    have later := rest.kept x (by omega) (by rw [here, before]; exact some)
    rw [here] at later
    exact later.trans before

end Wrote

/-- The loop of `writei` when it returns. -/
theorem writeiLoop_spec {fuel stop done : Nat} (holds : d.Holds V []) (live : d.Live V i)
    (enough : n - tot ≤ fuel) (le : tot ≤ n) (fits : off + (n - tot) ≤ maxfile * bsize)
    (run : writeiLoop src n fuel d (V i) off tot = .ok (d', ip, stop, done)) :
    ∃ extra, Wrote d V d' ip i src off tot stop done extra ∧
      Stopped d' ip src off n stop done extra := by
  induction fuel generalizing d V off tot with
  | zero =>
    cases run
    exact ⟨0, .start holds, .finished (by omega) rfl⟩
  | succ fuel ih =>
    unfold writeiLoop at run
    by_cases finished : n ≤ tot
    · rw [if_pos finished] at run
      cases run
      exact ⟨0, .start holds, .finished (by omega) rfl⟩
    · have block : off / bsize < maxfile := by
        apply Nat.div_lt_of_lt_mul
        rw [Nat.mul_comm]
        omega
      rw [if_neg finished] at run
      obtain ⟨⟨d₁, ip₁, a⟩, map, run⟩ := of_bind_ok run
      have mapped := bmap_spec holds live block map
      by_cases zero : a = 0
      · simp only [if_pos zero] at run
        cases run
        have hole : d'.byte ip stop = none := by
          rw [byte, mapped.ptr, if_pos zero]
        exact ⟨0, .of_mapped mapped live, .full (mapped.full zero) hole (by omega) rfl⟩
      · have offset := Nat.mod_lt off (show 0 < bsize by decide)
        generalize len : min (n - tot) (bsize - off % bsize) = m at run
        obtain ⟨new, r, copied, stored, result⟩ := eitherCopyin_spec src tot m
        simp only [if_neg zero] at run
        obtain ⟨_, copy, run⟩ := of_bind_ok run
        rw [copied] at copy
        cases copy
        simp only at run
        rcases result with ⟨rfl, all⟩ | ⟨rfl, short, bad⟩
        · have put := Wrote.of_put mapped live block zero (by omega) stored
          rw [all] at put
          have type : ip₁.type = (V i).type := mapped.fields.type
          have live₂ := (live_update type).2 (put.same.live.2 live)
          have again := put.holds
          rw [if_neg (by decide)] at run
          obtain ⟨d₂, write, rest⟩ := of_bind_ok run
          obtain rfl := of_logWrite write
          obtain ⟨extra, wrote, stopped⟩ := @ih
            (d₁.logAt a (memput (d₁.block a) (off % bsize) new)) (update V i ip₁)
            (off + m) (tot + m) ⟨again.layout, again.exact⟩ ⟨live₂.1, live₂.2⟩
            (by omega) (by omega) (by omega) (by rw [update_self]; exact rest)
          refine ⟨extra, Wrote.trans ?_ wrote, ?_⟩
          · exact ⟨⟨put.same.sb, put.same.dinode⟩, ⟨again.layout, again.exact⟩,
              put.fields, put.progress, put.others, put.written, put.kept⟩
          · cases stopped with
            | finished all none => exact .finished all none
            | full full hole short none => exact .full full hole short none
            | unreadable short start same bad =>
              -- a round that is cut by the count is the last one
              have progress := wrote.progress
              refine .unreadable short (.inr ?_) same bad
              rcases start with here | aligned
              · have size : bsize = 1024 := rfl
                rw [here]
                rw [size] at len offset ⊢
                omega
              · exact aligned
        · rw [if_pos rfl] at run
          cases run
          refine ⟨new.length, .of_put mapped live block zero (by omega) stored,
            .unreadable (by omega) (.inl rfl) ?_ bad⟩
          have size : bsize = 1024 := rfl
          rw [size] at len offset ⊢
          omega

/-! ## The inode is written back -/

theorem slot_view (addrs : (V' i).addrs = (V i).addrs) (k : Nat) :
    d.slot (V' i) k = d.slot (V i) k := by
  have addr : ∀ k, (V' i).addr k = (V i).addr k := by
    intro k
    unfold Dinode.addr
    rw [addrs]
  unfold slot
  rw [addr, addr]

section

variable (holds : d.Holds V []) (sb : d'.sb = d.sb)
  (blocks : ∀ a, d.sb.nmeta ≤ a → d'.block a = d.block a)
  (view : ∀ j < d.sb.ninodes, (V' j).type = (V j).type ∧ (V' j).addrs = (V j).addrs)

include holds sb blocks view

/-- What the disk says of the files depends on the data blocks only. -/
theorem owners_blocks : d'.owners V' = d.owners V := by
  have lives : ∀ j, d'.Live V' j ↔ d.Live V j := by
    intro j
    unfold Live
    rw [sb]
    constructor
    · exact fun h => ⟨h.1, (view j h.1).1 ▸ h.2⟩
    · exact fun h => ⟨h.1, (view j h.1).1.symm ▸ h.2⟩
  funext ⟨j, k⟩
  unfold owners
  by_cases inside : d.Live V j ∧ k < nslots
  · rw [if_pos inside, if_pos ⟨(lives j).2 inside.1, inside.2⟩, slot_view (view j inside.1.1).2]
    unfold slot
    by_cases none : (V j).addr ndirect = 0
    · rw [if_pos none, if_pos none]
    · rw [if_neg none, if_neg none, entry, entry, blocks _ (holds.table_ge inside.1 none).1]
  · rw [if_neg inside, if_neg fun h => inside ⟨(lives j).1 h.1, h.2⟩]

/-- The file that an inode stands for is given by its addresses and the data blocks. -/
theorem byte_blocks (live : d.Live V j) : d'.byte (V' j) x = d.byte (V j) x := by
  have live' : d'.Live V' j := ⟨by rw [sb]; exact live.1, (view j live.1).1.symm ▸ live.2⟩
  rw [byte_eq live', byte_eq live, owners_blocks holds sb blocks view]
  by_cases inside : x / bsize < maxfile ∧ d.owners V (j, index (x / bsize)) ≠ 0
  · rw [if_pos inside, if_pos inside, blocks _ (holds.exact.range _ inside.2).1]
  · rw [if_neg inside, if_neg inside]

end

/-- The addresses of an allocated inode have 31 bits. -/
theorem Holds.addrs_lt (holds : d.Holds V []) (live : d.Live V i) (k : Fin (ndirect + 1)) :
    (V i).addrs k < 2 ^ 32 := by
  have slots : (k : Nat) < nslots := k.isLt.trans_le (by decide)
  have here : d.owners V (i, k) = (V i).addrs k := by
    rw [owners_live live slots, slot_addr k.isLt, Dinode.addr, dif_pos k.isLt]
  by_cases zero : (V i).addrs k = 0
  · rw [zero]
    decide
  · rw [← here] at zero ⊢
    exact (holds.exact.range _ zero).2.trans_le (holds.layout.size.trans (by decide))

/-- `iupdate` of an inode whose type and addresses are those of the view. -/
theorem Holds.iupdate (ip : Dinode) (holds : d.Holds V []) (live : d.Live V i)
    (others : ∀ j < d.sb.ninodes, j ≠ i → d.dinode j = V j) (type : ip.type = (V i).type)
    (addrs : ip.addrs = (V i).addrs) (size : ip.size < 2 ^ 32) (run : d.iupdate i ip = .ok d') :
    d'.sb = d.sb ∧ d'.dinode i = ip ∧ (∀ j < d.sb.ninodes, j ≠ i → d'.dinode j = V j) ∧
      d'.Holds d'.dinode [] ∧ (∀ c, d'.bit c = d.bit c) ∧
      ∀ j, d.Live V j → ∀ x, d'.byte (d'.dinode j) x = d.byte (V j) x := by
  have fits : ip.Fits := ⟨size, fun k => by rw [addrs]; exact holds.addrs_lt live k⟩
  obtain ⟨sb, dinode, bits, blocks⟩ := iupdate_spec holds.layout live.1 fits run
  have here : d'.dinode i = ip := by rw [dinode, update_self]
  have there : ∀ j < d.sb.ninodes, j ≠ i → d'.dinode j = V j := by
    intro j lt ne
    rw [dinode, update_of_ne ne, others j lt ne]
  have view : ∀ j < d.sb.ninodes,
      (d'.dinode j).type = (V j).type ∧ (d'.dinode j).addrs = (V j).addrs := by
    intro j lt
    rcases eq_or_ne j i with rfl | ne
    · rw [here]
      exact ⟨type, addrs⟩
    · rw [there j lt ne]
      exact ⟨rfl, rfl⟩
  refine ⟨sb, here, there, ⟨by rw [sb]; exact holds.layout, ?_⟩, bits, ?_⟩
  · rw [sb, owners_blocks holds sb blocks view]
    exact holds.exact.congr (fun c _ => bits c) fun _ => rfl
  · exact fun j liveJ x => byte_blocks holds sb blocks view liveJ

/-! ## The array of bytes -/

/-- A request that `writei` takes. -/
def InRange (ip : Dinode) (off n : Nat) : Prop := off ≤ ip.size ∧ off + n ≤ maxfile * bsize

/-- What `writei` has done: the first `done` bytes are in the file, and `extra` bytes after them
were stored by a copy that failed. -/
structure Written (d d' : Disk) (i : Nat) (src : Source) (off done extra : Nat) : Prop where
  sb : d'.sb = d.sb
  holds : d'.Holds d'.dinode []
  dinode : ∀ j < d.sb.ninodes, j ≠ i → d'.dinode j = d.dinode j
  type : (d'.dinode i).type = (d.dinode i).type
  size : (d'.dinode i).size = max (d.dinode i).size (off + done)
  others : ∀ j ≠ i, d.Live d.dinode j → ∀ x,
    d'.byte (d'.dinode j) x = d.byte (d.dinode j) x
  written : ∀ x, off ≤ x → x < off + done + extra →
    d'.byte (d'.dinode i) x = src.byte (x - off) ∧ (d'.byte (d'.dinode i) x).isSome
  kept : ∀ x, ¬ (off ≤ x ∧ x < off + done + extra) → (d.byte (d.dinode i) x).isSome →
    d'.byte (d'.dinode i) x = d.byte (d.dinode i) x

theorem writei_refused (uint : off < 2 ^ 32 ∧ n < 2 ^ 32) (out : ¬ InRange ip off n) :
    d.writei i ip src off n = .ok (d, ip, -1) := by
  unfold writei
  unfold InRange at out
  have limit : maxfile * bsize = 274432 := by decide
  rw [limit] at out ⊢
  by_cases first : ip.size < off ∨ (off + n) % 2 ^ 32 < off
  · rw [if_pos first]
  · rw [if_neg first, if_pos (by omega)]

/-- `writei` of a range that it takes, when it returns. -/
theorem writei_spec {r : Int} (holds : d.Holds d.dinode []) (live : d.Live d.dinode i)
    (inside : InRange (d.dinode i) off n)
    (run : d.writei i (d.dinode i) src off n = .ok (d', ip, r)) :
    ∃ done extra : Nat, ip = d'.dinode i ∧ r = done ∧ Written d d' i src off done extra ∧
      Stopped d' (d'.dinode i) src off n (off + done) done extra := by
  have limit : maxfile * bsize = 274432 := by decide
  have fits := inside.2
  rw [limit] at fits
  have small : (off + n) % 2 ^ 32 = off + n := Nat.mod_eq_of_lt (by omega)
  unfold writei at run
  rw [small, if_neg (by have := inside.1; omega), if_neg (by rw [limit]; omega)] at run
  obtain ⟨⟨d₁, ip₁, stop, done⟩, loop, run⟩ := of_bind_ok run
  obtain ⟨extra, wrote, stopped⟩ := writeiLoop_spec holds live (Nat.sub_le n 0) (Nat.zero_le n)
    (show off + (n - 0) ≤ maxfile * bsize by rw [limit]; omega) loop
  have here : update d.dinode i ip₁ i = ip₁ := update_self _ _ _
  have live₁ := (live_update wrote.fields.type).2 (wrote.same.live.2 live)
  have end₁ : stop = off + done := by
    have := wrote.progress
    omega
  have before : (d.dinode i).size < 2 ^ 32 := (getDinode_fits _ _).size
  have bound : stop ≤ 274432 := by
    have := stopped.le
    omega
  have grown : (if ip₁.size < stop then { ip₁ with size := stop } else ip₁).size =
      max (d.dinode i).size (off + done) := by
    rw [← wrote.fields.size, ← end₁]
    split
    · exact (max_eq_right (show ip₁.size ≤ stop by omega)).symm
    · exact (max_eq_left (show stop ≤ ip₁.size by omega)).symm
  have alike : (if ip₁.size < stop then { ip₁ with size := stop } else ip₁).type = ip₁.type ∧
      (if ip₁.size < stop then { ip₁ with size := stop } else ip₁).addrs = ip₁.addrs := by
    split
    · exact ⟨rfl, rfl⟩
    · exact ⟨rfl, rfl⟩
  obtain ⟨d₂, update, last⟩ := of_bind_ok run
  cases last
  generalize (if ip₁.size < stop then { ip₁ with size := stop } else ip₁) = ip at *
  obtain ⟨sb, dinode, others, holds', bits, bytes⟩ :=
    wrote.holds.iupdate ip live₁ (fun j lt ne => by
      rw [update_of_ne ne]
      exact wrote.same.dinode j (wrote.same.sb ▸ lt)) (by rw [here]; exact alike.1)
      (by rw [here]; exact alike.2) (by omega) update
  refine ⟨done, extra, dinode.symm, rfl, ?_, ?_⟩
  · refine ⟨sb.trans wrote.same.sb, holds', ?_, ?_, ?_, ?_, ?_, ?_⟩
    · intro j lt ne
      rw [others j (wrote.same.sb.symm ▸ lt) ne, update_of_ne ne]
    · rw [dinode, alike.1]
      exact wrote.fields.type
    · rw [dinode]
      exact grown
    · intro j ne liveJ x
      rw [bytes j ((live_update wrote.fields.type).2 (wrote.same.live.2 liveJ)) x, update_of_ne ne]
      exact wrote.others j ne liveJ x
    · intro x low high
      rw [bytes i live₁ x, here]
      rw [← end₁] at high
      have value := wrote.written x low high
      rw [Nat.zero_add] at value
      exact value
    · intro x outside some
      rw [bytes i live₁ x, here]
      rw [← end₁] at outside
      exact wrote.kept x outside some
  · rw [← end₁]
    cases stopped with
    | finished all none => exact .finished all none
    | full full hole short none =>
      refine .full (fun c lt => ?_) ?_ short none
      · rw [bits]
        exact full c (sb ▸ lt)
      · rw [bytes i live₁, here]
        exact hole
    | unreadable short start block bad => exact .unreadable short start block bad

end Disk

end Xv6.Inodes
