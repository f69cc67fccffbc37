import Xv6.Contiguous
import Xv6.CopyoutRights
import Xv6.ForkExhaustion

/-!
# Calls on contiguous address spaces

While every address space is contiguous no call of a memory function panics, and every one
leaves the address spaces contiguous: all that is asked of the machine is that the space the
call works on is there.
-/

namespace Xv6

open Ownership Fallible

namespace Machine

variable {m₀ m m' : Machine} {id : SpaceId} {ids : Set SpaceId} {sp : Space} {k : Kmem}
  {pt : PageTable} {sz : Nat}

/-- The address spaces in `ids` map the pages of `[0, PGROUNDUP(sz))`. -/
def SoundOn (m : Machine) (ids : Set SpaceId) : Prop :=
  ∀ id ∈ ids, ∀ sp, m.space id = some sp → Contiguous sp.pagetable (npages sp.sz)

/-- What every call leaves that works on the address spaces in `ids`. -/
structure KeepsOn (ids : Set SpaceId) (m m' : Machine) : Prop where
  inv : m'.Inv
  sound : m'.SoundOn ids
  kend : m'.kmem.kend = m.kmem.kend

theorem SoundOn.put (sound : m.SoundOn ids) (pages : Contiguous pt (npages sz)) :
    (m.put id k (some ⟨pt, sz⟩)).SoundOn ids := by
  intro j mem sp space
  by_cases here : j = id
  · subst here
    rw [put_space] at space
    cases space
    exact pages
  · rw [put_other _ here] at space
    exact sound j mem sp space

theorem SoundOn.remove (sound : m.SoundOn ids) : (m.put id k none).SoundOn ids := by
  intro j mem sp space
  by_cases here : j = id
  · subst here
    rw [put_space] at space
    cases space
  · rw [put_other _ here] at space
    exact sound j mem sp space

/-- A call that changes one address space. -/
theorem KeepsOn.put (keeps : KeepsOn ids m₀ m)
    (owned : Owned k pt (m.exclOf (all.erase id)) (m.sharedOf (all.erase id)))
    (table : UserTable pt sz) (pages : Contiguous pt (npages sz)) (kend : k.kend = m.kmem.kend) :
    KeepsOn ids m₀ (m.put id k (some ⟨pt, sz⟩)) :=
  ⟨keeps.inv.put owned table, keeps.sound.put pages, kend.trans keeps.kend⟩

theorem get_of_space (space : m.space id = some sp) : m.get id = .ok sp := by
  unfold get
  rw [space]

/-- A call on an address space that is there. -/
theorem get_returns {β : Type} {f : Space → Except String β} {Q : β → Prop}
    (space : m.space id = some sp) (rest : Returns (f sp) Q) : Returns (m.get id >>= f) Q := by
  rwa [get_of_space space]

/-! ## Pages of the kernel -/

theorem kalloc_keeps {r : Option Nat} (keeps : KeepsOn ids m₀ m) (run : m.kalloc = (m', r)) :
    KeepsOn ids m₀ m' := by
  obtain ⟨touches, spaces⟩ := kalloc_touches keeps.inv run
  refine ⟨touches.inv, fun j mem sp space => ?_, Eq.trans ?_ keeps.kend⟩
  · rw [spaces] at space
    exact keeps.sound j mem sp space
  · unfold kalloc at run
    split at run
    · rename_i none
      cases run
      obtain ⟨rfl, -⟩ := kalloc_none none
      rfl
    · rename_i some
      cases run
      obtain ⟨-, framed, -⟩ := kalloc_some keeps.inv.holds some
      exact framed.kend

theorem kfree_keeps {pa : Nat} (keeps : KeepsOn ids m₀ m) (held : pa ∈ m.held) :
    Returns (m.kfree pa) (KeepsOn ids m₀) := by
  have holds := keeps.inv.holds
  rw [exclOf_of_held held] at holds
  obtain ⟨k, freed, -, framed, -⟩ := kfree_excl holds
  have run : m.kfree pa = .ok { m with kmem := k, held := m.held.erase pa } := by
    unfold kfree
    rw [freed]
    rfl
  exact ⟨_, run, (kfree_touches keeps.inv held run).1.inv, keeps.sound,
    framed.kend.trans keeps.kend⟩

/-! ## Setting up and tearing down -/

theorem procPagetable_keeps (trapframe : Nat) (keeps : KeepsOn ids m₀ m)
    (none : m.space id = none) :
    Returns (m.procPagetable id trapframe) fun r => KeepsOn ids m₀ r.1 := by
  obtain ⟨k, result, made, pages⟩ := procPagetable_succeeds trapframe (holds_rest keeps.inv none)
  obtain ⟨framed, -⟩ := procPagetable_spec made (holds_rest keeps.inv none)
  have kend := framed.kend.trans keeps.kend
  cases result with
  | none =>
    have run : m.procPagetable id trapframe = .ok ({ m with kmem := k }, false) := by
      unfold procPagetable
      rw [made]
      rfl
    exact ⟨_, run, (procPagetable_touches keeps.inv none run).1.inv, keeps.sound, kend⟩
  | some pt =>
    have run : m.procPagetable id trapframe = .ok (m.put id k (some ⟨pt, 0⟩), true) := by
      unfold procPagetable
      rw [made]
      rfl
    exact ⟨_, run, (procPagetable_touches keeps.inv none run).1.inv,
      keeps.sound.put (pages pt rfl), kend⟩

section

variable (keeps : KeepsOn ids m₀ m)

include keeps

theorem procFreepagetable_keeps (mem : id ∈ ids)
    (space : m.space id = some sp) : Returns (m.procFreepagetable id) (KeepsOn ids m₀) := by
  have small := (keeps.inv.table id sp space).small
  have owned := keeps.inv.owned space
  obtain ⟨k, freed⟩ := (keeps.sound id mem sp space).free_succeeds small owned
  obtain ⟨-, framed⟩ := procFreepagetable_spec small freed owned
  have run : m.procFreepagetable id = .ok (m.put id k none) := by
    unfold procFreepagetable
    rw [get_of_space space]
    simp only [bind, Except.bind, freed]
  exact ⟨_, run, (procFreepagetable_touches keeps.inv run).1.inv, keeps.sound.remove,
    framed.kend.trans keeps.kend⟩

theorem freePagetable_keeps (mem : id ∈ ids) :
    Returns (m.freePagetable id) (KeepsOn ids m₀) := by
  unfold freePagetable
  cases space : m.space id with
  | none => exact .ok keeps
  | some sp => exact procFreepagetable_keeps keeps mem space

/-- The commit of `exec`. -/
theorem commit_keeps {p : Fin nproc} {image old : Space}
    (memImage : .image p ∈ ids) (memProc : .proc p ∈ ids)
    (made : m.space (.image p) = some image) (space : m.space (.proc p) = some old) :
    Returns (m.commit p) (KeepsOn ids m₀) := by
  have small := (keeps.inv.table _ old space).small
  have owned := keeps.inv.owned space
  obtain ⟨k, freed⟩ := (keeps.sound _ memProc old space).free_succeeds small owned
  obtain ⟨-, framed⟩ := procFreepagetable_spec small freed owned
  have run :
      m.commit p = .ok { (m.put (.proc p) m.kmem (some image)).put (.image p) m.kmem none with
      kmem := k } := by
    unfold commit
    rw [get_of_space made, get_of_space space]
    simp only [bind, Except.bind, put, freed]
  refine ⟨_, run, (commit_touches keeps.inv made run).1.inv, ?_, framed.kend.trans keeps.kend⟩
  exact (keeps.sound.put (keeps.sound _ memImage image made)).remove (k := k)

end

/-! ## Resizing -/

theorem uvmalloc_keeps (newsz : Nat) {xperm : Pte} (keeps : KeepsOn ids m₀ m) (mem : id ∈ ids)
    (perms : xperm ∈ segmentPerms) (space : m.space id = some sp) :
    Returns (m.uvmalloc id newsz xperm) fun r => KeepsOn ids m₀ r.1 := by
  have table := keeps.inv.table id sp space
  have plain := plainPerm_segment perms
  have pages := keeps.sound id mem sp space
  have owned := keeps.inv.owned space
  refine get_returns space ((pages.uvmalloc_succeeds newsz plain table.small owned).next
    fun ⟨k, pt, r⟩ grown => .ok ?_)
  obtain ⟨evolves, -⟩ := uvmalloc_spec plain table.small table.trapframe grown owned
  exact keeps.put evolves.owned (table.grow plain grown owned)
    (pages.grow plain table owned grown) evolves.framed.kend

theorem uvmdealloc_keeps (newsz : Nat) (keeps : KeepsOn ids m₀ m) (mem : id ∈ ids)
    (space : m.space id = some sp) :
    Returns (m.uvmdealloc id newsz) fun r => KeepsOn ids m₀ r.1 := by
  have table := keeps.inv.table id sp space
  have pages := keeps.sound id mem sp space
  have owned := keeps.inv.owned space
  refine get_returns space ((pages.uvmdealloc_succeeds newsz table.small owned).next
    fun ⟨k, pt, r⟩ shrunk => .ok ?_)
  obtain ⟨evolves, -⟩ := uvmdealloc_spec table.small shrunk owned
  exact keeps.put evolves.owned (table.shrink shrunk owned)
    (pages.shrink table.small owned shrunk) evolves.framed.kend

/-! ## Copying and writing -/

theorem dupPg_keeps (va : Nat) (keeps : KeepsOn ids m₀ m) (mem : id ∈ ids)
    (space : m.space id = some sp) : Returns (m.dupPg id va) fun r => KeepsOn ids m₀ r.1 := by
  have table := keeps.inv.table id sp space
  have owned := keeps.inv.owned space
  obtain ⟨k, pt, r, dup⟩ := dupPg_total table owned va
  obtain ⟨evolves, table', -⟩ := Xv6.dupPg_keeps table dup owned
  refine get_returns space (Succeeds.next ⟨_, dup⟩ fun _ again => ?_)
  rw [dup] at again
  cases again
  exact .ok (keeps.put evolves.owned table' ((keeps.sound id mem sp space).dup table owned dup)
    evolves.framed.kend)

/-- No entry of the page table is marked. -/
def Plain (sp : Space) : Prop :=
  ∀ v e, v * pgsize < maxva → sp.pagetable.entry v = some e → e.has pteCow = false

/-- `copyout` to a page table without marks leaves its entries. -/
theorem Plain.copyoutLoop {k' : Kmem} {fuel dstva : Nat} {src : List UInt8} {r : Int}
    (plain : Plain sp) (run : copyoutLoop fuel k sp.pagetable dstva src = .ok (k', pt, r)) :
    pt = sp.pagetable := by
  induction fuel generalizing k dstva src with
  | zero =>
    cases run
    rfl
  | succ fuel ih =>
    unfold Xv6.copyoutLoop at run
    split at run
    · cases run
      rfl
    · obtain ⟨⟨k₁, pt₁, r₁⟩, dup, run⟩ := of_bind_ok run
      have same : pt₁ = sp.pagetable := by
        cases dupPg_ends dup with
        | copied accepted mapped marked =>
          have page : pgrounddown dstva / pgsize * pgsize < maxva :=
            (Nat.div_mul_le_self _ _).trans_lt (accepted_lt accepted).2
          rw [plain _ _ page mapped] at marked
          cases marked
        | _ => rfl
      simp only [same] at run
      split at run
      · cases run
        rfl
      · obtain ⟨pa, -, run⟩ := of_bind_ok run
        split at run
        · cases run
          rfl
        · exact ih run

theorem copyout_keeps (dstva : Nat) (src : List UInt8) (keeps : KeepsOn ids m₀ m)
    (mem : id ∈ ids) (space : m.space id = some sp) :
    Returns (m.copyout id dstva src) fun r => KeepsOn ids m₀ r.1 ∧ r.1.held = m.held ∧
      (Plain sp → r.1.space id = some sp) := by
  have table := keeps.inv.table id sp space
  have owned := keeps.inv.owned space
  obtain ⟨k, pt, r, copied⟩ := copyoutLoop_total src.length table owned dstva src
  obtain ⟨n, -, spec, -⟩ := copyoutLoop_spec table le_rfl copied owned
  refine get_returns space (Succeeds.next ⟨_, copied⟩ fun _ again => ?_)
  unfold Xv6.copyout at again
  rw [copied] at again
  cases again
  refine .ok ⟨keeps.put spec.owned spec.table
    ((keeps.sound id mem sp space).copyoutLoop table owned copied) spec.framed.kend, rfl,
    fun plain => ?_⟩
  rw [put_space, plain.copyoutLoop copied]

section

variable (keeps : KeepsOn ids m₀ m) (mem : id ∈ ids) (space : m.space id = some sp)
include keeps mem space

theorem write_keeps {va : Nat} {e : Pte} (user : va / pgsize < userPages)
    (mapped : sp.pagetable.entry (va / pgsize) = some e) (plain : e.has pteCow = false)
    (src : List UInt8) (fits : va % pgsize + src.length ≤ pgsize) :
    Returns (m.write id va src) fun m' => KeepsOn ids m₀ m' ∧ m'.space id = some sp := by
  obtain ⟨m', run⟩ : Succeeds (m.write id va src) := by
    unfold write
    rw [get_of_space space]
    exact .ok _
  obtain ⟨rfl, touches, -⟩ := write_touches keeps.inv space user mapped plain fits run
  exact ⟨_, run, ⟨touches.inv, keeps.sound.put (keeps.sound id mem sp space), keeps.kend⟩,
    put_space _⟩

theorem uvmclear_keeps {v : Nat} (lt : v < npages sp.sz) :
    Returns (m.uvmclear id (v * pgsize)) fun m' => KeepsOn ids m₀ m' ∧
      ∃ pt, m'.space id = some ⟨pt, sp.sz⟩ ∧ ∀ w, w * pgsize < maxva → pt.entry w =
        if w = v then (sp.pagetable.entry v).map (· &&& ~~~pteU) else sp.pagetable.entry w := by
  have pages := keeps.sound id mem sp space
  have owned := keeps.inv.owned space
  have user := lt.trans_le pages.fits
  obtain ⟨pt, cleared⟩ := pages.clear_succeeds lt
  have run : m.uvmclear id (v * pgsize) = .ok (m.put id m.kmem (some ⟨pt, sp.sz⟩)) := by
    unfold uvmclear
    rw [get_of_space space]
    simp only [bind, Except.bind, cleared]
  obtain ⟨-, -, -, touches, -⟩ := uvmclear_touches keeps.inv space (by rwa [page_div])
    (Nat.mul_mod_left _ _) run
  obtain ⟨-, entries, -⟩ := uvmclear_spec user cleared owned
  exact ⟨_, run, ⟨touches.inv, keeps.sound.put (pages.clear lt owned cleared), keeps.kend⟩, pt,
    put_space _, entries⟩

end

/-- `uvmcowpy` into an empty address space, when it returns zero. -/
theorem uvmcowpy_keeps {parent child : SpaceId} {sc : Space} (keeps : KeepsOn ids m₀ m)
    (memParent : parent ∈ ids) (memChild : child ∈ ids) (distinct : parent ≠ child)
    (space : m.space parent = some sp) (empty : m.space child = some sc) (zero : sc.sz = 0)
    (run : m.uvmcowpy parent child = .ok (m', 0)) : KeepsOn ids m₀ m' := by
  obtain ⟨k, old, new, copied, rfl, touches, spec⟩ :=
    uvmcowpy_touches keeps.inv distinct space empty zero run
  have childTable := keeps.inv.table child sc empty
  have childPages := keeps.sound child memChild sc empty
  rw [zero] at childTable childPages
  obtain ⟨pagesOld, pagesNew⟩ := Contiguous.copy (keeps.inv.table parent sp space) childTable
    (keeps.sound parent memParent sp space) childPages (keeps.inv.pairOwned distinct space empty)
    copied
  exact ⟨touches.inv, (keeps.sound.put pagesOld).put pagesNew,
    spec.passes.framed.kend.trans keeps.kend⟩

end Machine

end Xv6
