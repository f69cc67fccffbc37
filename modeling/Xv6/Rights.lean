import Xv6.PageAccounting

/-!
# Access rights under copy-on-write

`exec` and `sbrk` map a page with the rights of a segment; `uvmcowpy` then takes the
write permission away and marks the page, and `dup_pg` writes a new entry.  A tracked
machine remembers the rights each page was mapped with, and whether a marked page was
writable before it was marked.  The rights survive a run exactly when every page that
`dup_pg` copies had been mapped readable, writable and executable.
-/

namespace Xv6

open Fallible Function PageTable Option

/-- The permission bits of an entry. -/
structure Rights where
  user : Bool
  read : Bool
  write : Bool
  exec : Bool
deriving DecidableEq

/-- The permissions of an entry as they stand. -/
def rightsOf (e : Pte) : Rights := ⟨e.has pteU, e.has pteR, e.has pteW, e.has pteX⟩

/-- What `dup_pg` gives to every page it copies. -/
def allRights : Rights := ⟨true, true, true, true⟩

/-- The valid entry of a user page. -/
def Machine.entryAt (m : Machine) (id : SpaceId) (v : Nat) : Option Pte :=
  (m.space id).bind fun sp => sp.pagetable.entry v

/-- A machine with the rights every page was mapped with, and for marked pages whether
they were writable before. -/
structure Tracked where
  machine : Machine
  granted : SpaceId → Nat → Rights
  wasWritable : SpaceId → Nat → Bool

namespace Tracked

/-- The rights under which a page can be accessed, a marked page counting as writable
if it was so before it was marked. -/
def rights (t : Tracked) (id : SpaceId) (v : Nat) (e : Pte) : Rights :=
  { rightsOf e with write := if e.has pteCow then t.wasWritable id v else e.has pteW }

/-- Every mapped page has the rights it was mapped with. -/
def Preserved (t : Tracked) : Prop :=
  ∀ id v e, v < userPages → t.machine.entryAt id v = some e → t.rights id v e = t.granted id v

/-- The pages of a space that `m'` maps and `m` does not are granted the rights of
their entries. -/
def grant (t : Tracked) (m' : Machine) (id : SpaceId) : SpaceId → Nat → Rights :=
  fun j v =>
    match t.machine.entryAt j v, m'.entryAt j v with
    | none, some e => if j = id then rightsOf e else t.granted j v
    | _, _ => t.granted j v

/-- Whether each page of a space was writable before its mark, once all are marked. -/
def markedWritable (t : Tracked) (id : SpaceId) (v : Nat) : Bool :=
  match t.machine.entryAt id v with
  | some e => if e.has pteCow then t.wasWritable id v else e.has pteW
  | none => false

/-- What a call that leads to `m'` does to the tracked rights. -/
def note (t : Tracked) (m' : Machine) : Call → Tracked
  | .uvmfirst id _ => ⟨m', t.grant m' id, t.wasWritable⟩
  | .uvmalloc id _ _ => ⟨m', t.grant m' id, t.wasWritable⟩
  | .uvmcowpy parent child =>
    ⟨m', update t.granted child (t.granted parent),
      update (update t.wasWritable parent (t.markedWritable parent)) child
        (t.markedWritable parent)⟩
  | .uvmclear id va =>
    ⟨m', update t.granted id (update (t.granted id) (va / pgsize)
      { t.granted id (va / pgsize) with user := false }), t.wasWritable⟩
  | .commit p =>
    ⟨m', update t.granted (.proc p) (t.granted (.image p)),
      update t.wasWritable (.proc p) (t.wasWritable (.image p))⟩
  | _ => ⟨m', t.granted, t.wasWritable⟩

/-- A call of the kernel, with the rights tracked. -/
def call (t : Tracked) (c : Call) : Except String Tracked := do
  let m' ← t.machine.call c
  .ok (t.note m' c)

def boot (k : Kmem) : Tracked := ⟨.boot k, fun _ _ => allRights, fun _ _ => false⟩

end Tracked

/-- `dup_pg` called for `va` copies its page. -/
def Machine.Copies (m : Machine) (id : SpaceId) (va : Nat) : Prop :=
  ∃ sp ∈ m.space id, Duplicates m.kmem sp.pagetable va

instance (m : Machine) (id : SpaceId) (va : Nat) : Decidable (m.Copies id va) :=
  inferInstanceAs (Decidable (∃ sp ∈ m.space id, Duplicates m.kmem sp.pagetable va))

namespace Tracked

/-- The condition on a step: a page that `dup_pg` copies was mapped with all rights. -/
def Condition (t : Tracked) : Call → Prop
  | .dupPg id va => t.machine.Copies id va → t.granted id (va / pgsize) = allRights
  | _ => True

/-- The calls are made as the kernel makes them, and none panics. -/
def Legal : Tracked → List Call → Prop
  | _, [] => True
  | t, c :: cs => t.machine.Allows c ∧
      match t.call c with
      | .ok t' => t'.Legal cs
      | .error _ => False

/-- Every state of the run has the property. -/
def Throughout (P : Tracked → Prop) : Tracked → List Call → Prop
  | t, [] => P t
  | t, c :: cs => P t ∧
      match t.call c with
      | .ok t' => t'.Throughout P cs
      | .error _ => True

/-- Every step of the run meets the condition. -/
def Meets : Tracked → List Call → Prop
  | _, [] => True
  | t, c :: cs => t.Condition c ∧
      match t.call c with
      | .ok t' => t'.Meets cs
      | .error _ => True

end Tracked

instance (t : Tracked) : (c : Call) → Decidable (t.Condition c)
  | .dupPg id va => inferInstanceAs
      (Decidable (t.machine.Copies id va → t.granted id (va / pgsize) = allRights))
  | .kalloc | .kfree _ | .procPagetable _ _ | .uvmfirst _ _ | .uvmalloc _ _ _ | .uvmdealloc _ _
  | .uvmcowpy _ _ | .write _ _ _ | .uvmclear _ _ | .procFreepagetable _ | .commit _ =>
    isTrue trivial

instance Tracked.decidableLegal : (t : Tracked) → (cs : List Call) → Decidable (t.Legal cs)
  | _, [] => isTrue trivial
  | t, c :: cs =>
    match called : t.call c with
    | .ok t' =>
      have := decidableLegal t' cs
      decidable_of_iff (t.machine.Allows c ∧ t'.Legal cs) (by simp [Legal, called])
    | .error _ => isFalse (by simp [Legal, called])

instance Tracked.decidableMeets : (t : Tracked) → (cs : List Call) → Decidable (t.Meets cs)
  | _, [] => isTrue trivial
  | t, c :: cs =>
    match called : t.call c with
    | .ok t' =>
      have := decidableMeets t' cs
      decidable_of_iff (t.Condition c ∧ t'.Meets cs) (by simp [Meets, called])
    | .error _ => decidable_of_iff (t.Condition c) (by simp [Meets, called])

/-! ## Entries and their rights -/

theorem rightsOf_dupEntry (pa : Nat) : rightsOf (dupEntry pa) = allRights := by
  have bit (m : Pte) (small : m.toNat < 1024) (keeps : ~~~pteCow &&& m = m)
      (there : (pteU ||| pteV ||| pteW ||| pteX ||| pteR).has m = true) :
      (dupEntry pa).has m = true := by
    rw [dupEntry, Pte.has_and_of_subset keeps]
    simp only [Pte.has_or, Pte.has_pa2pte pa small, Bool.false_or] at there ⊢
    exact there
  rw [rightsOf, allRights, bit pteU (by decide) (by decide) (by decide),
    bit pteR (by decide) (by decide) (by decide), bit pteW (by decide) (by decide) (by decide),
    bit pteX (by decide) (by decide) (by decide)]

theorem cowEntry_keeps {e m : Pte} (keeps : ~~~pteW &&& m = m) (other : pteCow.has m = false) :
    (cowEntry e).has m = e.has m := by
  rw [cowEntry_has keeps, other, Bool.or_false]

theorem childEntry_keeps {e m : Pte} (small : m.toNat < 1024) (flag : 0x3FF#64 &&& m = m)
    (keeps : ~~~pteW &&& m = m) (other : pteCow.has m = false) (valid : pteV.has m = false) :
    (childEntry e).has m = e.has m := by
  rw [childEntry, mapEntry_has small, valid, Bool.or_false, Pte.has_or, other, Bool.or_false,
    Pte.has_pteFlags flag, cowEntry_keeps keeps other]

theorem childEntry_cow (e : Pte) : (childEntry e).has pteCow = true := by
  rw [childEntry, mapEntry_cow]
  exact (cowFlags e).2

namespace Tracked

variable {t t' : Tracked} {id : SpaceId} {v : Nat} {e : Pte} {m' : Machine}

theorem note_machine (t : Tracked) (m' : Machine) (c : Call) : (t.note m' c).machine = m' := by
  cases c <;> rfl

/-- The rights of an entry that has just been marked. -/
theorem rights_marked (e' : Pte) (cow : e'.has pteCow = true) (user : e'.has pteU = e.has pteU)
    (read : e'.has pteR = e.has pteR) (exec : e'.has pteX = e.has pteX)
    (mapped : t.machine.entryAt id v = some e) {j : SpaceId}
    (was : t'.wasWritable j v = t.markedWritable id v) : t'.rights j v e' = t.rights id v e := by
  simp only [rights, rightsOf, user, read, exec, cow, if_true, was, markedWritable, mapped]

/-- A call that only drops entries, or none. -/
theorem preserved_sub (preserved : t.Preserved)
    (sub : ∀ j v e, v < userPages → m'.entryAt j v = some e → t.machine.entryAt j v = some e) :
    (⟨m', t.granted, t.wasWritable⟩ : Tracked).Preserved :=
  fun j v e user mapped => preserved j v e user (sub j v e user mapped)

/-- A call that maps new pages without the mark. -/
theorem preserved_grant (preserved : t.Preserved)
    (others : ∀ j ≠ id, ∀ v, m'.entryAt j v = t.machine.entryAt j v)
    (here : ∀ v < userPages, m'.entryAt id v = t.machine.entryAt id v ∨
      (t.machine.entryAt id v = none ∧ ∃ e, m'.entryAt id v = some e ∧ e.has pteCow = false)) :
    (⟨m', t.grant m' id, t.wasWritable⟩ : Tracked).Preserved := by
  intro j v e user mapped
  have same (before : t.machine.entryAt j v = some e) :
      (⟨m', t.grant m' id, t.wasWritable⟩ : Tracked).rights j v e =
        (⟨m', t.grant m' id, t.wasWritable⟩ : Tracked).granted j v := by
    have old := preserved j v e user before
    simp only [grant, before, mapped]
    exact old
  by_cases isId : j = id
  · subst isId
    rcases here v user with unchanged | ⟨absent, e', present, plain⟩
    · exact same (by rw [← unchanged, mapped])
    · rw [mapped] at present
      cases present
      simp only [grant, absent, mapped, if_true, rights, rightsOf, plain, Bool.false_eq_true,
        if_false]
  · exact same (by rw [← others j isId v, mapped])

end Tracked

namespace Machine

variable {m m' : Machine} {id : SpaceId} {sp : Space} {ids : Set SpaceId}

theorem entryAt_space (space : m.space id = some sp) (v : Nat) :
    m.entryAt id v = sp.pagetable.entry v := by
  rw [entryAt, space, bind_some]

theorem entryAt_none (space : m.space id = none) (v : Nat) : m.entryAt id v = none := by
  rw [entryAt, space, bind_none]

theorem Touches.entryAt (touches : Touches m m' ids) {j : SpaceId} (other : j ∉ ids) (v : Nat) :
    m'.entryAt j v = m.entryAt j v := by
  unfold Machine.entryAt
  rw [touches.others j other]

/-- A call that drops entries of one space. -/
theorem Touches.entryAt_sub (touches : Touches m m' {id})
    (sub : ∀ v e, v < userPages → m'.entryAt id v = some e → m.entryAt id v = some e) (j : SpaceId)
    (v : Nat) (e : Pte) (user : v < userPages) (mapped : m'.entryAt j v = some e) :
    m.entryAt j v = some e := by
  by_cases isId : j = id
  · subst isId
    exact sub v e user mapped
  · rwa [touches.entryAt isId] at mapped

end Machine

/-! ## What each call does to the rights -/

namespace Tracked

open Machine

variable {t t' : Tracked} {m' : Machine} {id : SpaceId} {c : Call} {newsz va : Nat}

section Calls

variable (inv : t.machine.Inv) (preserved : t.Preserved)
include preserved

/-- A call that changes the rights of the spaces it touches. -/
theorem preserved_touched {ids : Set SpaceId} (touches : Touches t.machine m' ids)
    (others : ∀ j ∉ ids, (t.note m' c).granted j = t.granted j ∧
      (t.note m' c).wasWritable j = t.wasWritable j)
    (here : ∀ j ∈ ids, ∀ v e, v < userPages → m'.entryAt j v = some e →
      (t.note m' c).rights j v e = (t.note m' c).granted j v) : (t.note m' c).Preserved := by
  intro j v e user mapped
  rw [note_machine] at mapped
  by_cases mem : j ∈ ids
  · exact here j mem v e user mapped
  · rw [touches.entryAt mem] at mapped
    rw [rights, (others j mem).1, (others j mem).2]
    exact preserved j v e user mapped

include inv

theorem uvmalloc_preserved {xperm : Pte} (allowed : t.machine.Allows (.uvmalloc id newsz xperm))
    (stepped : t.machine.call (.uvmalloc id newsz xperm) = .ok m') :
    (t.note m' (.uvmalloc id newsz xperm)).Preserved := by
  obtain ⟨there, perms⟩ := allowed
  obtain ⟨sp, space⟩ := isSome_iff_exists.1 there
  obtain ⟨r, run⟩ := of_fst_ok stepped
  obtain ⟨k, pt, grown, rfl, touches, -⟩ := uvmalloc_touches inv perms space run
  have table := inv.table id sp space
  have plain := plainPerm_segment perms
  obtain ⟨-, what⟩ := uvmalloc_spec plain table.small table.trapframe grown (inv.owned space)
  refine preserved_grant preserved (fun j other => touches.entryAt other) fun v user => ?_
  rw [entryAt_space (put_space _), entryAt_space space]
  have lt := userPage_lt user
  rcases what with ⟨-, -, fresh, others⟩ | ⟨-, same⟩
  · by_cases new : npages sp.sz ≤ v ∧ v < npages r
    · obtain ⟨absent, -, pa, entry⟩ := fresh v new.1 new.2
      exact .inr ⟨absent, _, entry, by rw [mapEntry_cow, plain.plain]⟩
    · exact .inl (others v lt new)
  · exact .inl (same v lt)

theorem uvmfirst_preserved {src : List UInt8} (allowed : t.machine.Allows (.uvmfirst id src))
    (run : t.machine.uvmfirst id src = .ok m') : (t.note m' (.uvmfirst id src)).Preserved := by
  obtain ⟨⟨sp, space, zero⟩, room⟩ := allowed
  obtain ⟨touches, pt, mem, space', entries, -⟩ := uvmfirst_touches inv space zero room run
  refine preserved_grant preserved (fun j other => touches.entryAt other) fun v user => ?_
  rw [entryAt_space space', entryAt_space space, entries v (userPage_lt user)]
  split
  · refine .inr ⟨?_, _, rfl, ?_⟩
    · exact (inv.table id sp space).entry_above (by rw [zero]; exact Nat.zero_le v) user
    · rw [mapEntry_cow]
      decide
  · exact .inl rfl

theorem uvmdealloc_preserved (allowed : t.machine.Allows (.uvmdealloc id newsz))
    (stepped : t.machine.call (.uvmdealloc id newsz) = .ok m') :
    (t.note m' (.uvmdealloc id newsz)).Preserved := by
  obtain ⟨sp, space⟩ := isSome_iff_exists.1 allowed
  obtain ⟨r, run⟩ := of_fst_ok stepped
  obtain ⟨k, pt, shrunk, rfl, touches, -⟩ := uvmdealloc_touches inv space run
  obtain ⟨-, -, entries⟩ :=
    uvmdealloc_spec (inv.table id sp space).small shrunk (inv.owned space)
  refine preserved_sub preserved (touches.entryAt_sub fun v e user mapped => ?_)
  rw [entryAt_space (put_space _), entries v (userPage_lt user)] at mapped
  rw [entryAt_space space]
  split at mapped
  · cases mapped
  · exact mapped

theorem uvmcowpy_preserved {parent child : SpaceId}
    (allowed : t.machine.Allows (.uvmcowpy parent child))
    (stepped : t.machine.call (.uvmcowpy parent child) = .ok m') :
    (t.note m' (.uvmcowpy parent child)).Preserved := by
  obtain ⟨distinct, there, sc, empty, zero⟩ := allowed
  obtain ⟨sp, space⟩ := isSome_iff_exists.1 there
  obtain ⟨r, run⟩ := of_fst_ok stepped
  obtain ⟨k, old, new, -, made, touches, copied⟩ :=
    uvmcowpy_touches inv distinct space empty zero run
  have atChild : m'.space child = some ⟨new, sp.sz⟩ := by rw [made, put_space]
  have atParent : m'.space parent = some ⟨old, sp.sz⟩ := by
    rw [made, put_other _ distinct, put_space]
  have unmapped (v : Nat) (user : v < userPages) : sc.pagetable.entry v = none :=
    (inv.table child sc empty).entry_above (by rw [zero]; exact Nat.zero_le v) user
  refine preserved_touched preserved touches (fun j out => ?_) fun j mem v e user mapped => ?_
  · rw [Set.mem_insert_iff, Set.mem_singleton_iff, not_or] at out
    simp [note, update_of_ne out.1, update_of_ne out.2]
  have lt := userPage_lt user
  by_cases isChild : j = child
  · subst isChild
    have granted : (t.note m' (.uvmcowpy parent j)).granted j v = t.granted parent v := by
      simp [note]
    rw [entryAt_space atChild] at mapped
    -- the child's entries are those it got from the parent
    obtain ⟨e₀, before, rfl⟩ : ∃ e₀, t.machine.entryAt parent v = some e₀ ∧ e = childEntry e₀ := by
      rcases copied.child with ⟨-, all, others⟩ | ⟨-, others⟩
      · by_cases inside : v < npages sp.sz
        · obtain ⟨e₀, before, -, -, entry⟩ := all v (Nat.zero_le v) (by omega)
          rw [entry] at mapped
          exact ⟨e₀, by rw [entryAt_space space, before], by cases mapped; rfl⟩
        · rw [others v lt (by omega), unmapped v user] at mapped
          cases mapped
      · rw [others v lt, if_neg (Nat.not_lt_zero v), unmapped v user] at mapped
        cases mapped
    rw [granted, ← preserved parent v e₀ user before]
    refine rights_marked _ (childEntry_cow e₀) ?_ ?_ ?_ before (by simp [note])
    all_goals exact childEntry_keeps (by decide) (by decide) (by decide) (by decide) (by decide)
  · obtain rfl : j = parent := (Set.mem_insert_iff.1 mem).resolve_right isChild
    have granted : (t.note m' (.uvmcowpy j child)).granted j v = t.granted j v := by
      simp [note, update_of_ne isChild]
    have was : (t.note m' (.uvmcowpy j child)).wasWritable j v = t.markedWritable j v := by
      simp [note, update_of_ne isChild]
    rw [granted]
    rw [entryAt_space atParent] at mapped
    rcases copied.parent v lt with same | ⟨e₀, -, -, before, after⟩
    · rw [same, ← entryAt_space space] at mapped
      rw [← preserved j v e user mapped]
      simp only [rights, was, markedWritable, mapped]
      split <;> rfl
    · rw [after] at mapped
      cases mapped
      rw [← entryAt_space space] at before
      rw [← preserved j v e₀ user before]
      refine rights_marked _ (cowEntry_cow e₀) ?_ ?_ ?_ before was
      all_goals exact cowEntry_keeps (by decide) (by decide)

theorem uvmclear_preserved (allowed : t.machine.Allows (.uvmclear id va))
    (run : t.machine.uvmclear id va = .ok m') : (t.note m' (.uvmclear id va)).Preserved := by
  obtain ⟨there, inUser, aligned⟩ := allowed
  obtain ⟨sp, space⟩ := isSome_iff_exists.1 there
  obtain ⟨pt, cleared, rfl, touches, -⟩ := uvmclear_touches inv space inUser aligned run
  have page : va = va / pgsize * pgsize :=
    (Nat.div_mul_cancel (Nat.dvd_of_mod_eq_zero aligned)).symm
  rw [page] at cleared
  obtain ⟨-, entries, -⟩ := uvmclear_spec inUser cleared (inv.owned space)
  refine preserved_touched preserved touches (fun j out => ?_) fun j mem v e user mapped => ?_
  · simp [note, update_of_ne out]
  obtain rfl : j = id := mem
  rw [entryAt_space (put_space _), entries v (userPage_lt user)] at mapped
  by_cases here : v = va / pgsize
  · rw [if_pos here] at mapped
    obtain ⟨e₀, before, rfl⟩ := map_eq_some_iff.1 mapped
    rw [← here, ← entryAt_space space] at before
    have old := preserved j v e₀ user before
    simp only [note, here, update_self]
    rw [← here, ← old]
    simp only [rights, rightsOf, clear_has (show ~~~pteU &&& pteR = pteR by decide),
      clear_has (show ~~~pteU &&& pteW = pteW by decide),
      clear_has (show ~~~pteU &&& pteX = pteX by decide),
      clear_has (show ~~~pteU &&& pteCow = pteCow by decide),
      Pte.has_and_of_disjoint (show ~~~pteU &&& pteU = 0 by decide)]
  · rw [if_neg here, ← entryAt_space space] at mapped
    have old := preserved j v e user mapped
    simp only [note, update_self, update_of_ne here]
    exact old

theorem commit_preserved {p : Fin nproc} (allowed : t.machine.Allows (.commit p))
    (run : t.machine.commit p = .ok m') : (t.note m' (.commit p)).Preserved := by
  obtain ⟨image, made⟩ := isSome_iff_exists.1 allowed.1
  obtain ⟨touches, atProc, atImage, -, -⟩ := commit_touches inv made run
  refine preserved_touched preserved touches (fun j out => ?_) fun j mem v e user mapped => ?_
  · rw [Set.mem_insert_iff, not_or] at out
    simp [note, update_of_ne out.1]
  rcases mem with rfl | rfl
  · rw [entryAt_space atProc, ← entryAt_space made] at mapped
    have old := preserved _ v e user mapped
    simp only [note, rights, update_self]
    exact old
  · rw [entryAt_none atImage] at mapped
    cases mapped

/-- `dup_pg` keeps the rights exactly when the page it copies had all of them. -/
theorem dupPg_preserved_iff (allowed : t.machine.Allows (.dupPg id va))
    (stepped : t.machine.call (.dupPg id va) = .ok m') :
    (t.note m' (.dupPg id va)).Preserved ↔ t.Condition (.dupPg id va) := by
  obtain ⟨sp, space⟩ := isSome_iff_exists.1 allowed
  obtain ⟨r, run⟩ := of_fst_ok stepped
  obtain ⟨k, pt, dup, made, touches, -⟩ := dupPg_touches inv space run
  have atId : m'.space id = some ⟨pt, sp.sz⟩ := by rw [made, put_space]
  obtain ⟨-, ⟨-, rfl, blocked, -⟩ | ⟨e, newpa, -, copies, user, mapped, -, -, entries⟩⟩ :=
    dupPg_spec (inv.table id sp space).top dup (inv.owned space)
  · have idle : ¬ t.machine.Copies id va := by
      rintro ⟨sp', space', copies⟩
      cases space.symm.trans space'
      exact blocked copies
    refine ⟨fun _ copies => absurd copies idle, fun _ => preserved_sub preserved ?_⟩
    refine touches.entryAt_sub fun v e user mapped => ?_
    rwa [entryAt_space atId, ← entryAt_space space] at mapped
  · have new : m'.entryAt id (va / pgsize) = some (dupEntry newpa) := by
      rw [entryAt_space atId, entries _ (userPage_lt user), if_pos rfl]
    have gives (j : SpaceId) :
        (t.note m' (.dupPg id va)).rights j (va / pgsize) (dupEntry newpa) = allRights := by
      rw [← rightsOf_dupEntry newpa]
      simp only [rights, dupEntry_plain, Bool.false_eq_true, if_false]
      rfl
    constructor
    · intro after _
      rw [← gives id]
      exact (after id _ _ user new).symm
    · intro condition
      refine preserved_touched preserved touches (fun j _ => ⟨rfl, rfl⟩)
        fun j mem v e' userV at_ => ?_
      obtain rfl : j = id := mem
      by_cases here : v = va / pgsize
      · subst here
        rw [new] at at_
        cases at_
        rw [gives]
        exact (condition ⟨sp, space, copies⟩).symm
      · rw [entryAt_space atId, entries v (userPage_lt userV), if_neg here,
          ← entryAt_space space] at at_
        exact preserved j v e' userV at_

/-- One call keeps the rights exactly when it meets the condition. -/
theorem call_preserved_iff (allowed : t.machine.Allows c) (called : t.call c = .ok t') :
    t'.Preserved ↔ t.Condition c := by
  obtain ⟨m', stepped, last⟩ := of_bind_ok called
  cases last
  have unconditional (kept : (t.note m' c).Preserved) (free : t.Condition c) :
      (t.note m' c).Preserved ↔ t.Condition c := ⟨fun _ => free, fun _ => kept⟩
  cases c with
  | dupPg id va => exact dupPg_preserved_iff inv preserved allowed stepped
  | uvmfirst id src =>
    exact unconditional (uvmfirst_preserved inv preserved allowed stepped) trivial
  | uvmalloc id newsz xperm =>
    exact unconditional (uvmalloc_preserved inv preserved allowed stepped) trivial
  | uvmdealloc id newsz =>
    exact unconditional (uvmdealloc_preserved inv preserved allowed stepped) trivial
  | uvmcowpy parent child =>
    exact unconditional (uvmcowpy_preserved inv preserved allowed stepped) trivial
  | uvmclear id va =>
    exact unconditional (uvmclear_preserved inv preserved allowed stepped) trivial
  | commit p => exact unconditional (commit_preserved inv preserved allowed stepped) trivial
  | kalloc =>
    cases stepped
    refine unconditional (preserved_sub preserved fun j v e _ mapped => ?_) trivial
    have same : t.machine.kalloc.1.space = t.machine.space := (kalloc_touches inv rfl).2
    rwa [entryAt, same] at mapped
  | kfree pa =>
    refine unconditional (preserved_sub preserved fun j v e _ mapped => ?_) trivial
    rwa [entryAt, (kfree_touches inv allowed stepped).2] at mapped
  | procPagetable id trapframe =>
    obtain ⟨done, run⟩ := of_fst_ok stepped
    obtain ⟨touches, failed, made, -⟩ := procPagetable_touches inv allowed.1 run
    refine unconditional (preserved_sub preserved (touches.entryAt_sub fun v e user mapped => ?_))
      trivial
    cases done with
    | true =>
      obtain ⟨pt, atId, empty⟩ := made rfl
      rw [entryAt_space atId, empty v user] at mapped
      cases mapped
    | false =>
      rw [entryAt_none failed] at mapped
      cases mapped
  | write id va src =>
    refine unconditional (preserved_sub preserved fun j v e _ mapped => ?_) trivial
    obtain ⟨sp, got, last⟩ := of_bind_ok stepped
    cases last
    have space := get_ok got
    by_cases isId : j = id
    · subst isId
      rwa [entryAt_space (put_space _), ← entryAt_space space] at mapped
    · rwa [entryAt, put_other _ isId] at mapped
  | procFreepagetable id =>
    obtain ⟨touches, gone, -⟩ := procFreepagetable_touches inv stepped
    refine unconditional (preserved_sub preserved (touches.entryAt_sub fun v e user mapped => ?_))
      trivial
    rw [entryAt_none gone] at mapped
    cases mapped

end Calls

/-! ## Runs -/

theorem call_machine (called : t.call c = .ok t') : t.machine.call c = .ok t'.machine := by
  obtain ⟨m', stepped, last⟩ := of_bind_ok called
  cases last
  rw [note_machine, stepped]

theorem throughout_iff_meets {cs : List Call} (inv : t.machine.Inv) (preserved : t.Preserved)
    (legal : t.Legal cs) : t.Throughout Preserved cs ↔ t.Meets cs := by
  induction cs generalizing t with
  | nil => exact ⟨fun _ => trivial, fun _ => preserved⟩
  | cons c cs ih =>
    obtain ⟨allowed, legal⟩ := legal
    unfold Throughout Meets
    cases called : t.call c with
    | error e =>
      rw [called] at legal
      exact legal.elim
    | ok t' =>
      simp only [called] at legal ⊢
      have inv' := call_inv inv allowed (call_machine called)
      have step := call_preserved_iff inv preserved allowed called
      constructor
      · rintro ⟨-, later⟩
        have kept : t'.Preserved := by
          cases cs with
          | nil => exact later
          | cons _ _ => exact later.1
        exact ⟨step.1 kept, (ih inv' kept legal).1 later⟩
      · rintro ⟨condition, later⟩
        exact ⟨preserved, (ih inv' (step.2 condition) legal).2 later⟩

theorem boot_preserved (k : Kmem) : (boot k).Preserved := by
  intro id v e _ mapped
  cases mapped

end Tracked

/-- In every run of the kernel's calls from boot, all pages keep the rights they were
mapped with in every state exactly when each page that `dup_pg` copies had been mapped
with all rights. -/
theorem cow_rights_iff {kend trampoline : Nat} {mem : Mem} {k : Kmem} {cs : List Call}
    (init : kinit kend trampoline mem = .ok k) (legal : (Tracked.boot k).Legal cs) :
    (Tracked.boot k).Throughout Tracked.Preserved cs ↔ (Tracked.boot k).Meets cs :=
  Tracked.throughout_iff_meets (Machine.boot_inv init) (Tracked.boot_preserved k) legal

/-- The calls of a process that grows by writable and executable pages and forks, and of
a store of the child to the second page. -/
def growForkStoreCalls : List Call :=
  [.kalloc, .procPagetable (.proc 0) (phystop - pgsize),
    .uvmalloc (.proc 0) (2 * pgsize) (pteX ||| pteW), .kalloc,
    .procPagetable (.proc 1) (phystop - 9 * pgsize), .uvmcowpy (.proc 0) (.proc 1),
    .dupPg (.proc 1) pgsize]

theorem cow_rights_iff_grow : ∃ k, kinit (phystop - 16 * pgsize) kernbase (fun _ => 0) = .ok k ∧
    (Tracked.boot k).Meets growForkStoreCalls ∧
    (Tracked.boot k).Throughout Tracked.Preserved growForkStoreCalls := by
  have pass : yields (kinit (phystop - 16 * pgsize) kernbase fun _ => 0) (fun k =>
      decide ((Tracked.boot k).Legal growForkStoreCalls ∧
        (Tracked.boot k).Meets growForkStoreCalls)) = true := by
    decide +kernel
  obtain ⟨k, init, test⟩ := of_yields pass
  obtain ⟨legal, meets⟩ := of_decide_eq_true test
  exact ⟨k, init, meets, (cow_rights_iff init legal).2 meets⟩

/-- The calls of a process that executes a program with two pages of text and one of
data and forks, and of stores of the child to the second text page and to the data
page. -/
def execForkStoreCalls : List Call :=
  [.kalloc, .procPagetable (.proc 0) (phystop - pgsize),
    .procPagetable (.image 0) (phystop - pgsize), .uvmalloc (.image 0) (2 * pgsize) pteX,
    .uvmalloc (.image 0) (3 * pgsize) pteW, .commit 0, .kalloc,
    .procPagetable (.proc 1) (phystop - 2 * pgsize), .uvmcowpy (.proc 0) (.proc 1),
    .dupPg (.proc 1) pgsize, .dupPg (.proc 1) (2 * pgsize)]

/-- The child's text page has become writable, and its data page executable. -/
theorem cow_widens_rights : ∃ k t,
    kinit (phystop - 24 * pgsize) kernbase (fun _ => 0) = .ok k ∧
      (Tracked.boot k).Legal execForkStoreCalls ∧
      execForkStoreCalls.foldlM Tracked.call (Tracked.boot k) = .ok t ∧
      t.granted (.proc 1) 1 = ⟨true, true, false, true⟩ ∧
      (t.machine.entryAt (.proc 1) 1).map (t.rights (.proc 1) 1) = some allRights ∧
      t.granted (.proc 1) 2 = ⟨true, true, true, false⟩ ∧
      (t.machine.entryAt (.proc 1) 2).map (t.rights (.proc 1) 2) = some allRights := by
  have pass : yields (kinit (phystop - 24 * pgsize) kernbase fun _ => 0) (fun k =>
      decide ((Tracked.boot k).Legal execForkStoreCalls) &&
        yields (execForkStoreCalls.foldlM Tracked.call (Tracked.boot k)) fun t =>
          decide (t.granted (.proc 1) 1 = ⟨true, true, false, true⟩ ∧
            (t.machine.entryAt (.proc 1) 1).map (t.rights (.proc 1) 1) = some allRights ∧
            t.granted (.proc 1) 2 = ⟨true, true, true, false⟩ ∧
            (t.machine.entryAt (.proc 1) 2).map (t.rights (.proc 1) 2) = some allRights)) =
      true := by
    decide +kernel
  obtain ⟨k, init, test⟩ := of_yields pass
  obtain ⟨legal, ends⟩ := Bool.and_eq_true_iff.1 test
  obtain ⟨t, run, test⟩ := of_yields ends
  exact ⟨k, t, init, of_decide_eq_true legal, run, of_decide_eq_true test⟩

end Xv6
