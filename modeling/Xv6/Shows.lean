import Xv6.Copyout
import Xv6.Eager
import Xv6.SpacesStep

/-!
# What an address space shows

An address space shows an image when it has the size of the image, maps every page of it,
and these pages hold its bytes.  For each function on address spaces: what the space it
works on shows afterwards.  All other spaces keep what they show (`Touches.shows`).
-/

namespace Xv6

open Ownership Fallible Nat PageTable

structure PageTable.Shows (pt : PageTable) (k : Kmem) (sz : Nat) (im : Image) : Prop where
  size : sz = im.sz
  full : ∀ v < npages sz, (pt.entry v).isSome
  bytes : ∀ a < npages sz * pgsize, shown k pt a = im.mem a

theorem page_lt {a n : Nat} (lt : a < n * pgsize) : a / pgsize < n :=
  (div_lt_iff_lt_mul (by decide)).2 lt

section Table

variable {k k' : Kmem} {pt pt' : PageTable} {sz : Nat} {im : Image}

/-- The same pages with the same bytes show the same image. -/
theorem PageTable.Shows.same (small : sz ≤ trapframeVa) (shows : pt.Shows k sz im)
    (full : ∀ v < npages sz, (pt'.entry v).isSome)
    (bytes : ∀ v < userPages, (pt.entry v).isSome → (pt'.entry v).isSome →
      SameBytes k pt k' pt' v) : pt'.Shows k' sz im := by
  refine ⟨shows.size, full, fun a lt => ?_⟩
  have page := page_lt lt
  rw [← shows.bytes a lt]
  exact shown_of_sameBytes (bytes _ (page.trans_le (npages_le_userPages small))
    (shows.full _ page) (full _ page))

end Table

namespace Machine

variable {m m' m₁ m₂ : Machine} {id : SpaceId} {im : Image} {ids : Set SpaceId}
  {va newsz r sz : Nat} {src : List UInt8} {pt : PageTable}

def Shows (m : Machine) (id : SpaceId) (im : Image) : Prop :=
  ∃ pt sz, m.space id = some ⟨pt, sz⟩ ∧ pt.Shows m.kmem sz im

theorem Touches.shows (touches : Touches m m' ids) (inv : m.Inv) (out : id ∉ ids)
    (shows : m.Shows id im) : m'.Shows id im := by
  obtain ⟨pt, sz, space, shows⟩ := shows
  refine ⟨pt, sz, by rw [touches.others id out, space], ?_⟩
  exact shows.same (inv.table id _ space).small shows.full fun v user before _ =>
    touches.bytes id out _ space v user before

/-- A call that works on the spaces in `ids` and leaves the pages of the kernel alone. -/
structure Works (m m' : Machine) (ids : Set SpaceId) : Prop where
  touches : Touches m m' ids
  held : m'.held = m.held

theorem Works.refl (inv : m.Inv) (ids : Set SpaceId) : Works m m ids :=
  ⟨⟨inv, fun _ _ => rfl, fun _ _ _ _ _ _ _ => .refl _ _ _⟩, rfl⟩

theorem Touches.trans (first : Touches m m₁ ids) (second : Touches m₁ m₂ ids) :
    Touches m m₂ ids := by
  refine ⟨second.inv, fun j out => ?_, fun j out sp space v user mapped => ?_⟩
  · rw [second.others j out, first.others j out]
  · have space₁ := first.others j out
    rw [space] at space₁
    exact (first.bytes j out sp space v user mapped).trans
      (second.bytes j out sp space₁ v user mapped)

theorem Touches.mono {ids' : Set SpaceId} (touches : Touches m m' ids) (sub : ids ⊆ ids') :
    Touches m m' ids' :=
  ⟨touches.inv, fun j out => touches.others j fun mem => out (sub mem),
    fun j out => touches.bytes j fun mem => out (sub mem)⟩

theorem Works.trans (first : Works m m₁ ids) (second : Works m₁ m₂ ids) : Works m m₂ ids :=
  ⟨first.touches.trans second.touches, by rw [second.held, first.held]⟩

/-! ## Setting up and resizing -/

section

variable (inv : m.Inv)
include inv

theorem procPagetable_shows {trapframe : Nat} (none : m.space id = none)
    (run : m.procPagetable id trapframe = .ok (m', true)) : m'.Shows id .empty := by
  obtain ⟨-, -, made, -⟩ := procPagetable_touches inv none run
  obtain ⟨pt, space, -⟩ := made rfl
  have zero : npages 0 = 0 := rfl
  refine ⟨_, _, space, rfl, fun v lt => ?_, fun a lt => ?_⟩
  · rw [zero] at lt
    exact absurd lt (not_lt_zero v)
  · rw [zero, zero_mul] at lt
    exact absurd lt (not_lt_zero a)

theorem uvmalloc_shows {xperm : Pte} (perms : xperm ∈ segmentPerms) (shows : m.Shows id im)
    (run : m.uvmalloc id newsz xperm = .ok (m', r)) : Works m m' {id} ∧ (r = 0 → m'.Shows id im) ∧
      (r ≠ 0 → r = (im.grow newsz).sz ∧ m'.Shows id (im.grow newsz)) := by
  obtain ⟨pt, sz, space, shows⟩ := shows
  obtain ⟨k, pt', grown, rfl, touches, evolves⟩ := uvmalloc_touches inv perms space run
  have table := inv.table id _ space
  obtain ⟨-, result⟩ := uvmalloc_spec (plainPerm_segment perms) table.small table.trapframe grown
    (inv.owned space)
  simp only at result
  have small : npages sz ≤ userPages := npages_le_userPages table.small
  have size : sz = im.sz := shows.size
  refine ⟨⟨touches, rfl⟩, fun zero => ⟨_, _, put_space _, ?_⟩, fun nonzero => ?_⟩
  · rw [if_pos zero]
    show pt'.Shows k sz im
    refine shows.same table.small (fun v (lt : v < npages sz) => ?_) evolves.bytes
    have ltV := userPage_lt (lt.trans_le small)
    rcases result with ⟨sized, -, -, others⟩ | ⟨-, same⟩
    · rw [others v ltV (by omega)]
      exact shows.full v lt
    · rw [same v ltV]
      exact shows.full v lt
  · rcases result with ⟨sized, top, fresh, others⟩ | ⟨zero, -⟩
    · have kept (v : Nat) (lt : v < npages sz) : (pt'.entry v).isSome := by
        rw [others v (userPage_lt (lt.trans_le small)) (by omega)]
        exact shows.full v lt
      have grownSize : r = (im.grow newsz).sz := by
        unfold Image.grow
        split
        · omega
        · simp only
          omega
      refine ⟨grownSize, _, _, put_space _, ?_⟩
      rw [if_neg nonzero]
      refine ⟨grownSize, fun v lt => ?_, fun a lt => ?_⟩
      · by_cases old : v < npages sz
        · exact kept v old
        · obtain ⟨-, -, pa, entry⟩ := fresh v (Nat.le_of_not_lt old) lt
          rw [entry]
          rfl
      · have page := page_lt lt
        have user : a / pgsize < userPages := page.trans_le (npages_le_userPages top)
        by_cases old : a < npages sz * pgsize
        · have was := page_lt old
          have same := shown_of_sameBytes (evolves.bytes _ user (shows.full _ was) (kept _ was))
          rw [show shown (m.put id k _).kmem pt' a = shown k pt' a from rfl, same,
            shows.bytes a old]
          simp only [Image.grow]
          split
          · rfl
          · simp only
            rw [if_pos (by rwa [← size])]
        · have new : npages sz ≤ a / pgsize := (le_div_iff_mul_le (by decide)).2 (by omega)
          obtain ⟨-, zero, -⟩ := fresh _ new page
          have isZero : shown k pt' a = 0 := zero _ (mod_lt _ (by decide))
          rw [show shown (m.put id k _).kmem pt' a = shown k pt' a from rfl, isZero]
          simp only [Image.grow]
          split
          · rename_i shrinks
            rw [show r = sz by omega] at page
            omega
          · simp only
            rw [if_neg (by rwa [← size])]
    · exact absurd zero nonzero

theorem uvmdealloc_shows (shows : m.Shows id im) (run : m.uvmdealloc id newsz = .ok (m', r)) :
    Works m m' {id} ∧ m'.Shows id (im.shrink newsz) := by
  obtain ⟨pt, sz, space, shows⟩ := shows
  obtain ⟨k, pt', shrunk, rfl, touches, evolves⟩ := uvmdealloc_touches inv space run
  have table := inv.table id _ space
  obtain ⟨-, rfl, entries⟩ := uvmdealloc_spec table.small shrunk (inv.owned space)
  simp only at entries
  have small : npages sz ≤ userPages := npages_le_userPages table.small
  have size : sz = im.sz := shows.size
  have fewer : npages (min sz newsz) ≤ npages sz := npages_mono (min_le_left _ _)
  have kept (v : Nat) (lt : v < npages (min sz newsz)) : (pt'.entry v).isSome := by
    have below : npages (min sz newsz) ≤ npages newsz := npages_mono (min_le_right _ _)
    rw [entries v (userPage_lt (by omega)), if_neg (by omega)]
    exact shows.full v (by omega)
  refine ⟨⟨touches, rfl⟩, _, _, put_space _, ?_, kept, fun a lt => ?_⟩
  · simp only [Image.shrink, size]
  · have page := page_lt lt
    have old : a < npages sz * pgsize := lt.trans_le (mul_le_mul_right _ fewer)
    have was := page_lt old
    exact (shown_of_sameBytes (evolves.bytes _ (was.trans_le small) (shows.full _ was)
      (kept _ page))).trans (shows.bytes a old)

/-! ## Copies and writes -/

theorem dupPg_shows {r : Int} (shows : m.Shows id im)
    (run : m.dupPg id va = .ok (m', r)) : Works m m' {id} ∧ m'.Shows id im := by
  obtain ⟨pt, sz, space, shows⟩ := shows
  obtain ⟨k, pt', dup, rfl, touches, evolves⟩ := dupPg_touches inv space run
  have table := inv.table id _ space
  obtain ⟨-, -, mapped, -⟩ := dupPg_keeps table dup (inv.owned space)
  refine ⟨⟨touches, rfl⟩, _, _, put_space _, shows.same table.small (fun v lt => ?_) evolves.bytes⟩
  rw [mapped v (lt.trans_le (npages_le_userPages table.small))]
  exact shows.full v lt

/-- A write of the kernel or of the user to a page without the mark. -/
theorem write_shows {e : Pte} (space : m.space id = some ⟨pt, sz⟩) (shows : pt.Shows m.kmem sz im)
    (user : va / pgsize < userPages) (mapped : pt.entry (va / pgsize) = some e)
    (plain : e.has pteCow = false) (fits : va % pgsize + src.length ≤ pgsize)
    (run : m.write id va src = .ok m') : Works m m' {id} ∧ m'.Shows id (im.write va src) := by
  obtain ⟨rfl, touches, others⟩ := write_touches inv space user mapped plain fits run
  refine ⟨⟨touches, rfl⟩, pt, sz, put_space _, shows.size, shows.full, fun a lt => ?_⟩
  have page := page_lt lt
  have userA := page.trans_le (npages_le_userPages (inv.table id _ space).small)
  have leaf := (entry_eq_some.1 mapped).1
  have old := shows.bytes a lt
  have split := div_add_mod va pgsize
  have splitA := div_add_mod a pgsize
  have smallA : a % pgsize < pgsize := mod_lt _ (by decide)
  simp only [Image.write, memput]
  by_cases here : a / pgsize = va / pgsize
  · simp only [shown, put, memput] at old ⊢
    rw [here, leaf] at old ⊢
    rw [here] at splitA
    by_cases inside : va ≤ a ∧ a < va + src.length
    · rw [if_pos (by omega), if_pos inside]
      congr 1
      omega
    · rw [if_neg (by omega), if_neg inside, old]
  · rw [shown_of_sameBytes (others _ userA here (shows.full _ page)), old, if_neg]
    rintro ⟨low, high⟩
    apply here
    have : a < (va / pgsize + 1) * pgsize := by
      rw [add_mul, one_mul, mul_comm]
      omega
    exact Nat.le_antisymm (Nat.le_of_lt_succ (page_lt this)) (Nat.div_le_div_right low)

theorem copyout_shows {dstva : Nat} {r : Int} (shows : m.Shows id im)
    (run : m.copyout id dstva src = .ok (m', r)) :
    Works m m' {id} ∧ ∃ n ≤ src.length, m'.Shows id (im.write dstva (src.take n)) ∧
      ((r = 0 ∧ n = src.length) ∨ r = -1) := by
  obtain ⟨pt, sz, space, shows⟩ := shows
  unfold copyout at run
  obtain ⟨⟨k, pt', r⟩, copied, last⟩ := of_bind_ok (of_get_ok space run)
  cases last
  have table := inv.table id _ space
  obtain ⟨n, le, spec, result, -⟩ := copyoutLoop_spec table le_rfl copied (inv.owned space)
  have small : npages sz ≤ userPages := npages_le_userPages table.small
  refine ⟨⟨inv.touches spec.owned spec.framed spec.table, rfl⟩, n, le,
    ⟨_, _, put_space _, shows.size, fun v lt => ?_, fun a lt => ?_⟩, result⟩
  · rw [spec.mapped v (lt.trans_le small)]
    exact shows.full v lt
  · have page := page_lt lt
    have new := spec.bytes a (page.trans_le small) (shows.full _ page)
    rw [show shown (m.put id k _).kmem pt' a = shown k pt' a from rfl, new, shows.bytes a lt]
    simp only [Image.write, memput, List.length_take, min_eq_left le]
    split
    · rename_i inside
      rw [List.getD_eq_getElem?_getD, List.getD_eq_getElem?_getD,
        List.getElem?_take_of_lt (by omega)]
    · rfl

theorem uvmclear_shows (shows : m.Shows id im) (user : va / pgsize < userPages)
    (aligned : va % pgsize = 0) (run : m.uvmclear id va = .ok m') :
    Works m m' {id} ∧ m'.Shows id im := by
  obtain ⟨pt, sz, space, shows⟩ := shows
  obtain ⟨pt', cleared, rfl, touches, evolves⟩ := uvmclear_touches inv space user aligned run
  have table := inv.table id _ space
  have page : va = va / pgsize * pgsize :=
    (Nat.div_mul_cancel (Nat.dvd_of_mod_eq_zero aligned)).symm
  rw [page] at cleared
  obtain ⟨-, entries, -⟩ := uvmclear_spec user cleared (inv.owned space)
  refine ⟨⟨touches, rfl⟩, _, _, put_space _, shows.same table.small (fun v lt => ?_) evolves.bytes⟩
  rw [entries v (userPage_lt (lt.trans_le (npages_le_userPages table.small)))]
  split
  · rename_i here
    rw [← here, Option.isSome_map]
    exact shows.full v lt
  · exact shows.full v lt

theorem roundSz_shows (shows : m.Shows id im) (run : m.roundSz id = .ok (m', sz)) :
    Works m m' {id} ∧ m'.Shows id im.round ∧ sz = im.round.sz := by
  obtain ⟨pt, sz, space, shows⟩ := shows
  unfold roundSz at run
  cases of_get_ok space run
  have table := inv.table id _ space
  have small : sz ≤ trapframeVa := table.small
  have rounded : pgroundup sz = npages sz * pgsize :=
    pgroundup_eq (small.trans (by decide))
  have pages : npages (pgroundup sz) = npages sz := by
    rw [rounded, npages_mul]
  have size : sz = im.sz := shows.size
  have table' : UserTable pt (pgroundup sz) := by
    refine ⟨?_, fun v user mapped => ?_, table.readonly, table.top, table.trapframe⟩
    · rw [rounded]
      exact userPages_room (npages_le_userPages small)
    · rw [pages]
      exact table.below v user mapped
  refine ⟨⟨inv.touches (inv.owned space) (.refl _ _) table', rfl⟩, ⟨_, _, put_space _, ?_, ?_, ?_⟩,
    ?_⟩
  · simp only [Image.round, size]
  · simp only [pages]
    exact shows.full
  · simp only [pages]
    exact shows.bytes
  · simp only [Image.round, size]

/-! ## Fork, the first process and exec -/

theorem uvmcowpy_shows {parent child : SpaceId} (distinct : parent ≠ child)
    (shows : m.Shows parent im) (empty : m.space child = some ⟨pt, 0⟩)
    (run : m.uvmcowpy parent child = .ok (m', 0)) :
    Works m m' {parent, child} ∧ m'.Shows parent im ∧ m'.Shows child im := by
  obtain ⟨old, sz, space, shows⟩ := shows
  obtain ⟨k, old', new', -, rfl, touches, copied⟩ :=
    uvmcowpy_touches inv distinct space empty rfl run
  have table := inv.table parent _ space
  have small : npages sz ≤ userPages := npages_le_userPages table.small
  have fits : 0 + npages sz ≤ userPages := by
    rw [zero_add]
    exact small
  obtain ⟨-, all, -⟩ | ⟨no, -⟩ := copied.child
  · refine ⟨⟨touches, rfl⟩, ⟨old', sz, ?_, shows.size, fun v lt => ?_, fun a lt => ?_⟩,
      ⟨new', sz, put_space _, shows.size, fun v lt => ?_, fun a lt => ?_⟩⟩
    · rw [put_other _ distinct, put_space]
    · obtain ⟨e, -, marked, -⟩ := all v (zero_le v) (by rwa [zero_add])
      rw [marked]
      rfl
    · have page := page_lt lt
      exact (shown_of_sameBytes (copied.parent_bytes (page.trans_le small)
        (shows.full _ page))).trans (shows.bytes a lt)
    · obtain ⟨e, -, -, -, entry⟩ := all v (zero_le v) (by rwa [zero_add])
      rw [entry]
      rfl
    · have page := page_lt lt
      exact (shown_of_sameBytes (copied.child_bytes fits (zero_le _)
        (by rwa [zero_add]))).trans (shows.bytes a lt)
  · exact absurd no (by decide)

theorem uvmfirst_shows (space : m.space id = some ⟨pt, 0⟩)
    (room : 3 ≤ m.kmem.freelist.length) (run : m.uvmfirst id src = .ok m') :
    Works m m' {id} ∧ m'.Shows id ⟨pgsize, fun a => src.getD a 0⟩ := by
  obtain ⟨touches, pt', mem, space', entries, bytes⟩ := uvmfirst_touches inv space rfl room run
  have held : m'.held = m.held := by
    unfold uvmfirst at run
    obtain ⟨⟨k, pt⟩, -, last⟩ := of_bind_ok (of_get_ok space run)
    cases last
    rfl
  have one : npages pgsize = 1 := by decide
  have first (v : Nat) (lt : v < 1) : v = 0 := by omega
  refine ⟨⟨touches, held⟩, pt', pgsize, space', rfl, fun v lt => ?_, fun a lt => ?_⟩
  · rw [one] at lt
    rw [first v lt, entries 0 (by decide), if_pos rfl]
    rfl
  · rw [one, one_mul] at lt
    unfold shown
    rw [div_eq_of_lt lt, mod_eq_of_lt lt, bytes a lt]

theorem commit_shows {p : Fin nproc} (shows : m.Shows (.image p) im) (run : m.commit p = .ok m') :
    Works m m' {.proc p, .image p} ∧ m'.Shows (.proc p) im ∧ m'.space (.image p) = none := by
  obtain ⟨pt, sz, space, shows⟩ := shows
  obtain ⟨touches, proc, image, held, bytes⟩ := commit_touches inv space run
  exact ⟨⟨touches, held⟩, ⟨pt, sz, proc, shows.same (inv.table _ _ space).small shows.full
    fun v user before _ => bytes v user before⟩, image⟩

end

end Machine

end Xv6
