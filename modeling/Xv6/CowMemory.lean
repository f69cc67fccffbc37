import Xv6.UserMemory

/-!
# Sharing pages and copying them on demand

Specifications of the copy-on-write functions.  Marking an entry turns a page from
an owned one into a shared one; `cowmappage` adds a holder; `dup_pg` trades a share
for a private copy with the same bytes.  A page without the mark has no other
mapping, so that writing to it changes what one page of one table shows.
-/

namespace Xv6

open Ownership Fallible PageTable Multiset Pte

variable {k k' k₁ : Kmem} {pt pt' old new old' new' : PageTable} {excl shared : Multiset Nat}
  {v w n va : Nat} {e : Pte} {r : Int}

/-! ## Entries -/

theorem cowEntry_has {m : Pte} (keeps : ~~~pteW &&& m = m) :
    (cowEntry e).has m = (e.has m || pteCow.has m) := by
  rw [cowEntry, has_or, has_and_of_subset keeps]

theorem cowEntry_valid (valid : e.has pteV = true) : (cowEntry e).has pteV = true := by
  rw [cowEntry_has (by decide), valid, Bool.true_or]

theorem cowEntry_cow (e : Pte) : (cowEntry e).has pteCow = true := by
  rw [cowEntry_has (by decide), show pteCow.has pteCow = true by decide, Bool.or_true]

theorem cowEntry_pa (e : Pte) : pte2pa (cowEntry e) = pte2pa e := by
  rw [cowEntry, pte2pa_or _ _ (by decide), pte2pa_and _ _ (by decide)]

theorem dupEntry_valid (pa : Nat) : (dupEntry pa).has pteV = true := by
  rw [dupEntry, has_and_of_subset (by decide)]
  simp only [has_or, Bool.or_eq_true]
  simp [show pteV.has pteV = true by decide]

theorem dupEntry_plain (pa : Nat) : (dupEntry pa).has pteCow = false :=
  has_and_of_disjoint (by decide)

theorem dupEntry_pa (aligned : v % pgsize = 0) (lt : v < 2 ^ 56) : pte2pa (dupEntry v) = v := by
  rw [dupEntry, pte2pa_and _ _ (by decide)]
  simp only [pte2pa_or _ _ (show pteU.toNat < 1024 by decide),
    pte2pa_or _ _ (show pteV.toNat < 1024 by decide),
    pte2pa_or _ _ (show pteW.toNat < 1024 by decide),
    pte2pa_or _ _ (show pteX.toNat < 1024 by decide),
    pte2pa_or _ _ (show pteR.toNat < 1024 by decide)]
  exact pte2pa_pa2pte aligned lt

/-! ## Marking and mapping -/

/-- Two page tables side by side, seen from the other one. -/
theorem Owned.swap (owned : Owned k pt (pt'.tables + (pt'.privs + excl)) (pt'.cows + shared)) :
    Owned k pt' (pt.tables + (pt.privs + excl)) (pt.cows + shared) := by
  unfold Owned at owned ⊢
  convert owned using 1 <;> abel

/-- Marking an entry makes its page a shared one, with this table as a holder. -/
theorem mark_owned (user : v < userPages) (mapped : pt.entry v = some e)
    (owned : Owned k pt excl shared) : Owned k (pt.store (v * pgsize) (cowEntry e)) excl shared ∧
      pte2pa e ∈ (pt.store (v * pgsize) (cowEntry e)).cows ∧
      (pt.store (v * pgsize) (cowEntry e)).privs + (pt.store (v * pgsize) (cowEntry e)).cows =
        pt.privs + pt.cows := by
  have found := lookup_isSome mapped
  obtain ⟨leaf, valid⟩ := entry_eq_some.1 mapped
  obtain ⟨privRest, cowRest, priv, cow, stored⟩ := split_at user found
  obtain ⟨privs', cows'⟩ := stored (cowEntry e)
  obtain ⟨notPriv, isCow⟩ := privOf_cow (cowEntry_valid valid) (cowEntry_cow e)
  rw [notPriv, zero_add] at privs'
  rw [isCow, cowEntry_pa] at cows'
  rw [leaf] at priv cow
  unfold Owned at owned ⊢
  rw [tables_store, privs', cows', priv, cow]
  rw [priv, cow] at owned
  refine ⟨?_, by simp, ?_⟩
  · rw [add_assoc, singleton_add]
    cases marked : e.has pteCow with
    | false =>
      rw [(privOf_private valid marked).1, (privOf_private valid marked).2, zero_add] at owned
      have held : Holds k (pte2pa e ::ₘ (pt.tables + (privRest + excl))) (cowRest + shared) := by
        convert owned using 1
        rw [← singleton_add]
        abel
      exact Ledger.share held
    | true =>
      rw [(privOf_cow valid marked).1, (privOf_cow valid marked).2, zero_add, add_assoc,
        singleton_add] at owned
      exact owned
  · cases marked : e.has pteCow with
    | false =>
      rw [(privOf_private valid marked).1, (privOf_private valid marked).2]
      abel
    | true =>
      rw [(privOf_cow valid marked).1, (privOf_cow valid marked).2]
      abel

/-- Marking an entry moves no page. -/
theorem mark_leaf (user : v < userPages) (mapped : pt.entry v = some e) (lt : w * pgsize < maxva) :
    (pt.store (v * pgsize) (cowEntry e)).entry w =
        (if w = v then some (cowEntry e) else pt.entry w) ∧
      pte2pa ((pt.store (v * pgsize) (cowEntry e)).leaf w) = pte2pa (pt.leaf w) := by
  have found := lookup_isSome mapped
  obtain ⟨leaf, valid⟩ := entry_eq_some.1 mapped
  have ltV := userPage_lt user
  refine ⟨entry_store ltV lt found (cowEntry_valid valid), ?_⟩
  rw [leaf_store _ ltV lt found]
  split
  · rename_i here
    rw [here, leaf, cowEntry_pa]
  · rfl

/-- The permissions `uvmcowpy` passes on. -/
theorem cowFlags (e : Pte) : (pteFlags (cowEntry e) ||| pteCow).toNat < 1024 ∧
    (pteFlags (cowEntry e) ||| pteCow).has pteCow = true := by
  constructor
  · have small := pteFlags_lt (cowEntry e)
    rw [BitVec.toNat_or]
    exact Nat.or_lt_two_pow (n := 10) small (by decide)
  · rw [has_or, show pteCow.has pteCow = true by decide, Bool.or_true]

theorem cowmappage_cases {pa : Nat} {perm : Pte} (lt : v * pgsize < maxva)
    (run : cowmappage k pt (v * pgsize) pgsize pa perm = .ok (k', pt', r)) :
    ∃ k₁ found, mapOne k pt (v * pgsize) pa (perm ||| pteCow) = .ok (k₁, pt', found) ∧
      ((found = true ∧ r = 0 ∧ k' = k₁.setRefs pa (k₁.refs pa + 1)) ∨
        (found = false ∧ r = -1 ∧ k' = k₁)) := by
  unfold cowmappage at run
  split at run
  · cases run
  · rw [mappages_page lt] at run
    obtain ⟨⟨k₁, pt₁, r₁⟩, mapped, rest⟩ := of_bind_ok run
    obtain ⟨⟨k₂, pt₂, found⟩, one, last⟩ := of_bind_ok mapped
    cases last
    cases found with
    | true =>
      cases rest
      exact ⟨_, true, one, .inl ⟨rfl, rfl, rfl⟩⟩
    | false =>
      cases rest
      exact ⟨_, false, one, .inr ⟨rfl, rfl, rfl⟩⟩

theorem cowLoop_cases {r : Nat}
    (run : cowLoop (n + 1) k old new (v * pgsize) = .ok (k', old', new', r)) :
    ∃ e k₁ new₁, v * pgsize < maxva ∧ old.entry v = some e ∧
      ((cowmappage k new (v * pgsize) pgsize (pte2pa e) (pteFlags (cowEntry e)) =
          .ok (k₁, new₁, 0) ∧
        cowLoop n k₁ (old.store (v * pgsize) (cowEntry e)) new₁ ((v + 1) * pgsize) =
          .ok (k', old', new', r)) ∨
      (cowmappage k new (v * pgsize) pgsize (pte2pa e) (pteFlags (cowEntry e)) =
          .ok (k₁, new₁, -1) ∧
        uvmunmap k₁ new₁ 0 v true = .ok (k', new') ∧
        old' = old.store (v * pgsize) (cowEntry e) ∧ r = negOne)) := by
  unfold cowLoop at run
  obtain ⟨found, walked, run⟩ := of_bind_ok run
  unfold walk at walked
  split at walked
  · cases walked
  · rename_i below
    cases walked
    have lt := Nat.lt_of_not_le below
    cases look : old.lookup (v * pgsize) with
    | none =>
      rw [look] at run
      cases run
    | some e =>
      rw [look] at run
      simp only at run
      split at run
      · cases run
      · rename_i valid
        have leaf := leaf_of_lookup look
        rw [page_div] at leaf
        obtain ⟨⟨k₁, new₁, r₁⟩, mapped, rest⟩ := of_bind_ok run
        have next : v * pgsize + pgsize = (v + 1) * pgsize := by ring
        rw [cowEntry_pa] at mapped
        refine ⟨e, k₁, new₁, lt, entry_of_valid (by simpa using valid) leaf, ?_⟩
        obtain ⟨k₂, found, -, ⟨-, rfl, -⟩ | ⟨-, rfl, -⟩⟩ := cowmappage_cases lt mapped
        · rw [if_neg (by simp), next] at rest
          exact .inl ⟨mapped, rest⟩
        · rw [if_pos (by simp), page_div] at rest
          obtain ⟨⟨k₃, new₃⟩, unmapped, last⟩ := of_bind_ok rest
          cases last
          exact .inr ⟨mapped, unmapped, rfl, rfl⟩

/-- The entry that the child gets for a parent's entry. -/
def childEntry (e : Pte) : Pte := mapEntry (pte2pa e) (pteFlags (cowEntry e) ||| pteCow)

/-- The pages held next to `excl` and `shared` by two page tables, the tables of `new`
apart. -/
abbrev pairKept (old new : PageTable) (excl shared : Multiset Nat) : Multiset Nat :=
  new.kept (old.tables + (old.privs + excl)) (old.cows + shared)

/-- Two page tables next to the rest of the system. -/
abbrev PairOwned (k : Kmem) (old new : PageTable) (excl shared : Multiset Nat) : Prop :=
  Owned k new (old.tables + (old.privs + excl)) (old.cows + shared)

theorem pairKept_eq (old new : PageTable) (excl shared : Multiset Nat) :
    pairKept old new excl shared =
      (old.privs + old.cows) + ((new.privs + new.cows) + (old.tables + (excl + shared))) := by
  unfold pairKept kept
  abel

/-- One page of `uvmcowpy`: the parent's entry is marked and, unless a table page is
missing, the child gets the page too. -/
theorem cowRound_spec {new₁ : PageTable} (user : v < userPages) (mapped : old.entry v = some e)
    (run : cowmappage k new (v * pgsize) pgsize (pte2pa e) (pteFlags (cowEntry e)) =
      .ok (k₁, new₁, r)) (owned : PairOwned k old new excl shared) :
    PairOwned k₁ (old.store (v * pgsize) (cowEntry e)) new₁ excl shared ∧
      Passes k k₁ (pairKept old new excl shared)
        (pairKept (old.store (v * pgsize) (cowEntry e)) new₁ excl shared) ∧
      ((r = 0 ∧ new.entry v = none ∧ ∀ w, w * pgsize < maxva →
          new₁.entry w = if w = v then some (childEntry e) else new.entry w) ∨
        (r = -1 ∧ ∀ w, new₁.leaf w = new.leaf w)) := by
  have lt := userPage_lt user
  obtain ⟨marked, holder, pages⟩ := mark_owned user mapped owned.swap
  have tables := tables_store old (v * pgsize) (cowEntry e)
  have keeps : pairKept (old.store (v * pgsize) (cowEntry e)) new excl shared =
      pairKept old new excl shared := by
    rw [pairKept_eq, pairKept_eq, pages, tables]
  obtain ⟨k₂, found, one, ⟨rfl, rfl, rfl⟩ | ⟨rfl, rfl, rfl⟩⟩ := cowmappage_cases lt run
  · obtain ⟨flags, cow⟩ := cowFlags e
    obtain ⟨owned₁, framed, privs, cows⟩ := mapOne_cow user one flags cow marked.swap
      (mem_add.2 (.inl holder))
    have sub : ∀ pa ∈ pairKept (old.store (v * pgsize) (cowEntry e)) new₁ excl shared,
        pa ∈ pairKept (old.store (v * pgsize) (cowEntry e)) new excl shared := by
      intro pa mem
      rw [pairKept_eq, privs, cows, add_cons, cons_add, add_cons, ← pairKept_eq] at mem
      rcases mem_cons.1 mem with rfl | mem
      · rw [pairKept_eq]
        exact mem_add.2 (.inl (mem_add.2 (.inr holder)))
      · exact mem
    refine ⟨owned₁, by rw [← keeps]; exact ⟨framed.mono sub, sub⟩, .inl ⟨rfl, ?_⟩⟩
    · obtain ⟨no, -⟩ | ⟨-, invalid, leaf⟩ := mapOne_leaf lt one
      · cases no
      · refine ⟨entry_eq_none.2 invalid, fun w ltW => ?_⟩
        have here := leaf w ltW
        split at here
        · rename_i same
          rw [if_pos same]
          exact entry_of_valid (mapEntry_valid _ _) here
        · rename_i other
          rw [if_neg other]
          exact entry_congr here
  · obtain ⟨owned₁, framed⟩ := mapOne_null one marked.swap
    obtain ⟨-, leaf⟩ | ⟨yes, -⟩ := mapOne_leaf lt one
    · have privs : new₁.privs = new.privs := mapped_congr leaf
      have cows : new₁.cows = new.cows := mapped_congr leaf
      have same : pairKept (old.store (v * pgsize) (cowEntry e)) new₁ excl shared =
          pairKept (old.store (v * pgsize) (cowEntry e)) new excl shared := by
        rw [pairKept_eq, pairKept_eq, privs, cows]
      refine ⟨owned₁, ?_, .inr ⟨rfl, leaf⟩⟩
      rw [same, ← keeps]
      exact ⟨framed, fun _ mem => mem⟩
    · cases yes

/-- What the loop of `uvmcowpy` over the pages from `v` to `v + n` leaves: the parent's
entries marked as far as it came, and the child with all of these pages or, after a
failure, with none of the pages below. -/
structure CowCopied (k : Kmem) (old new : PageTable) (k' : Kmem) (old' new' : PageTable)
    (v n r : Nat) (excl shared : Multiset Nat) : Prop where
  owned : PairOwned k' old' new' excl shared
  passes : Passes k k' (pairKept old new excl shared) (pairKept old' new' excl shared)
  parent : ∀ w, w * pgsize < maxva → old'.entry w = old.entry w ∨
    ∃ e, v ≤ w ∧ w < v + n ∧ old.entry w = some e ∧ old'.entry w = some (cowEntry e)
  child : (r = 0 ∧ (∀ w, v ≤ w → w < v + n → ∃ e, old.entry w = some e ∧
      old'.entry w = some (cowEntry e) ∧ new.entry w = none ∧
      new'.entry w = some (childEntry e)) ∧
      ∀ w, w * pgsize < maxva → ¬ (v ≤ w ∧ w < v + n) → new'.entry w = new.entry w) ∨
    (r = negOne ∧ ∀ w, w * pgsize < maxva → new'.entry w = if w < v then none else new.entry w)

theorem cowLoop_spec {r : Nat} (user : v + n ≤ userPages)
    (run : cowLoop n k old new (v * pgsize) = .ok (k', old', new', r))
    (owned : PairOwned k old new excl shared) :
    CowCopied k old new k' old' new' v n r excl shared := by
  induction n generalizing k old new v with
  | zero =>
    cases run
    exact ⟨owned, .refl _ _, fun _ _ => .inl rfl,
      .inl ⟨rfl, fun w low high => by omega, fun _ _ _ => rfl⟩⟩
  | succ n ih =>
    have userV : v < userPages := by omega
    obtain ⟨e, k₁, new₁, lt, mapped, ⟨one, rest⟩ | ⟨one, unmapped, rfl, rfl⟩⟩ :=
      cowLoop_cases run
    · obtain ⟨owned₁, passes₁, ⟨-, absent, entries⟩ | ⟨no, -⟩⟩ :=
        cowRound_spec userV mapped one owned
      · have later := ih (by omega) rest owned₁
        refine ⟨later.owned, passes₁.trans later.passes, fun w ltW => ?_, ?_⟩
        · have mark := (mark_leaf userV mapped ltW).1
          rcases later.parent w ltW with same | ⟨e', low, high, before, after⟩
          · rw [mark] at same
            by_cases here : w = v
            · rw [if_pos here] at same
              exact .inr ⟨e, by omega, by omega, by rw [here, mapped], same⟩
            · rw [if_neg here] at same
              exact .inl same
          · rw [mark, if_neg (by omega)] at before
            exact .inr ⟨e', by omega, by omega, before, after⟩
        · rcases later.child with ⟨zero, all, others⟩ | ⟨failed, others⟩
          · refine .inl ⟨zero, fun w low high => ?_, fun w ltW outside => ?_⟩
            · have ltW := userPage_lt (show w < userPages by omega)
              have mark := (mark_leaf userV mapped ltW).1
              by_cases here : w = v
              · subst here
                rw [if_pos rfl] at mark
                refine ⟨e, mapped, ?_, absent, ?_⟩
                · rcases later.parent w ltW with same | ⟨e', low', -⟩
                  · rw [same, mark]
                  · omega
                · rw [others w ltW (by omega), entries w ltW, if_pos rfl]
              · obtain ⟨e', before, after, none, entry⟩ := all w (by omega) (by omega)
                rw [mark, if_neg here] at before
                rw [entries w ltW, if_neg here] at none
                exact ⟨e', before, after, none, entry⟩
            · rw [others w ltW (by omega), entries w ltW, if_neg (by omega)]
          · refine .inr ⟨failed, fun w ltW => ?_⟩
            rw [others w ltW, entries w ltW]
            by_cases here : w = v
            · subst here
              rw [if_pos (by omega), if_neg (by omega), absent]
            · by_cases below : w < v
              · rw [if_pos (by omega), if_pos below]
              · rw [if_neg (by omega), if_neg below, if_neg here]
      · cases no
    · obtain ⟨owned₁, passes₁, ⟨no, -⟩ | ⟨-, leaf⟩⟩ :=
        cowRound_spec userV mapped one owned
      · cases no
      · rw [uvmunmap, if_neg (by decide)] at unmapped
        have loop : unmapLoop true v k₁ new₁ (0 * pgsize) = .ok (k', new') := by
          rw [Nat.zero_mul]
          exact unmapped
        obtain ⟨owned₂, passes₂⟩ := unmapLoop_owned (by omega) loop owned₁
        obtain ⟨-, leaves, -⟩ := unmapLoop_leaf loop
        refine ⟨owned₂, passes₁.trans passes₂, fun w ltW => ?_, .inr ⟨rfl, fun w ltW => ?_⟩⟩
        · rw [(mark_leaf userV mapped ltW).1]
          by_cases here : w = v
          · rw [if_pos here]
            exact .inr ⟨e, by omega, by omega, by rw [here, mapped], rfl⟩
          · rw [if_neg here]
            exact .inl rfl
        · have here := leaves w ltW
          by_cases below : w < v
          · rw [if_pos (by omega)] at here
            rw [if_pos below]
            exact entry_zero_leaf here
          · rw [if_neg (by omega), leaf] at here
            rw [if_neg below]
            exact entry_congr here

/-- A user page of the parent is held and untouched by the loop. -/
theorem CowCopied.samePage {r : Nat} (copied : CowCopied k old new k' old' new' v n r excl shared)
    (user : w < userPages) (mapped : old'.entry w = some e) : SamePage k.mem k'.mem (pte2pa e) := by
  refine copied.passes.framed.same _ ?_
  have mem := mem_kept_of_entry excl shared user mapped
  rw [pairKept_eq]
  simp only [kept, mem_add] at mem ⊢
  rcases mem with (mem | mem) | mem | mem
  · exact .inl (.inl mem)
  · exact .inr (.inr (.inr (.inl mem)))
  · exact .inl (.inr mem)
  · exact .inr (.inr (.inr (.inr mem)))

/-- The parent sees the same bytes. -/
theorem CowCopied.parent_bytes {r : Nat}
    (copied : CowCopied k old new k' old' new' v n r excl shared) (user : w < userPages)
    (mapped : (old.entry w).isSome) : SameBytes k old k' old' w := by
  obtain ⟨e, before⟩ := Option.isSome_iff_exists.1 mapped
  have leaf := (entry_eq_some.1 before).1
  obtain ⟨e', after, address⟩ : ∃ e', old'.entry w = some e' ∧ pte2pa e' = pte2pa e := by
    rcases copied.parent w (userPage_lt user) with same | ⟨e₁, -, -, before', after⟩
    · exact ⟨e, by rw [same, before], rfl⟩
    · rw [before] at before'
      cases before'
      exact ⟨_, after, cowEntry_pa e⟩
  intro o small
  rw [(entry_eq_some.1 after).1, leaf, ← address]
  exact copied.samePage user after o small

theorem childEntry_pa (page : k.IsPage (pte2pa e)) : pte2pa (childEntry e) = pte2pa e :=
  mapEntry_pa page.aligned page.lt (cowFlags e).1

/-- The child sees the parent's bytes. -/
theorem CowCopied.child_bytes (copied : CowCopied k old new k' old' new' v n 0 excl shared)
    (user : v + n ≤ userPages) (low : v ≤ w) (high : w < v + n) : SameBytes k old k' new' w := by
  obtain ⟨-, all, -⟩ | ⟨no, -⟩ := copied.child
  · obtain ⟨e, before, after, -, entry⟩ := all w low high
    have leaf := (entry_eq_some.1 before).1
    have userW : w < userPages := by omega
    have page : k'.IsPage (pte2pa e) := by
      have held := copied.owned.swap.isPage_leaf userW
      rw [(entry_eq_some.1 after).1, cowEntry_pa] at held
      exact held (entry_eq_some.1 after).2
    intro o small
    rw [(entry_eq_some.1 entry).1, leaf, childEntry_pa page]
    have same := copied.samePage userW after o small
    rwa [cowEntry_pa] at same
  · exact absurd no (by decide)

/-! ## Copying a page on demand -/

/-- `dup_pg` gets as far as copying the page of `va`: it is mapped for the user with the
mark, and there is a free page. -/
def Duplicates (k : Kmem) (pt : PageTable) (va : Nat) : Prop :=
  va ≠ 0 ∧ va < maxva ∧ k.freelist ≠ [] ∧
    (pt.entry (va / pgsize)).any fun e => e.has pteCow && e.has pteU

instance (k : Kmem) (pt : PageTable) (va : Nat) : Decidable (Duplicates k pt va) :=
  inferInstanceAs (Decidable (_ ∧ _ ∧ _ ∧ _))

/-- `dup_pg` refuses the address. -/
def Refused (pt : PageTable) (va : Nat) : Prop :=
  va = 0 ∨ maxva ≤ va ∨ pt.lookup va = none ∨
    (pt.leaf (va / pgsize)).has pteCow = true ∧
      ((pt.leaf (va / pgsize)).has pteU = false ∨ (pt.leaf (va / pgsize)).has pteV = false)

/-- How a call of `dup_pg` ends: it refuses the address, finds no mark, finds no memory, or gives
the user a private copy of a marked page. -/
inductive Duped (k : Kmem) (pt : PageTable) (va : Nat) : Kmem → PageTable → Int → Prop
  | refused (closed : Refused pt va) : Duped k pt va k pt (-1)
  | plain (accepted : ¬Refused pt va) (plain : (pt.leaf (va / pgsize)).has pteCow = false) :
    Duped k pt va k pt 0
  | empty (accepted : ¬Refused pt va) (marked : (pt.leaf (va / pgsize)).has pteCow = true)
    (empty : k.freelist = []) : Duped k pt va k pt (-2)
  | copied {e : Pte} {k₁ k' : Kmem} {newpa : Nat} (accepted : ¬Refused pt va)
    (mapped : pt.entry (va / pgsize) = some e) (marked : e.has pteCow = true)
    (user : e.has pteU = true) (alloc : kalloc k = (k₁, some newpa))
    (freed : kfree { k₁ with mem := memmove k₁.mem newpa (pte2pa e) pgsize } (pte2pa e) = .ok k') :
    Duped k pt va k' (pt.store va (dupEntry newpa)) 0

theorem accepted_lt (accepted : ¬Refused pt va) : va ≠ 0 ∧ va < maxva :=
  ⟨fun zero => accepted (.inl zero), Nat.lt_of_not_le fun above => accepted (.inr (.inl above))⟩

theorem kalloc_nonempty {newpa : Nat} (alloc : kalloc k = (k₁, some newpa)) :
    k.freelist ≠ [] := by
  intro empty
  rw [kalloc, empty] at alloc
  cases alloc

theorem duplicates_iff : Duplicates k pt va ↔
    ¬Refused pt va ∧ (pt.leaf (va / pgsize)).has pteCow = true ∧ k.freelist ≠ [] := by
  constructor
  · rintro ⟨nonzero, lt, free, there⟩
    obtain ⟨e, mapped, flags⟩ := (Option.any_eq_true _ _).1 there
    obtain ⟨leaf, valid⟩ := entry_eq_some.1 mapped
    rw [Bool.and_eq_true] at flags
    rw [Refused, leaf, flags.1, flags.2, valid, lookup_page, lookup_of_entry mapped]
    refine ⟨?_, rfl, free⟩
    rintro (zero | above | absent | ⟨-, system | invalid⟩)
    · exact nonzero zero
    · omega
    · cases absent
    · cases system
    · cases invalid
  · rintro ⟨accepted, marked, free⟩
    refine ⟨(accepted_lt accepted).1, (accepted_lt accepted).2, free, ?_⟩
    simp only [Refused, not_or, not_and, Bool.not_eq_false] at accepted
    obtain ⟨user, valid⟩ := accepted.2.2.2 marked
    rw [entry_of_valid valid rfl]
    simp [marked, user]

theorem dupPg_ends (run : dupPg k pt va = .ok (k', pt', r)) : Duped k pt va k' pt' r := by
  unfold dupPg at run
  split at run
  · rename_i range
    cases run
    exact .refused (range.symm.imp_right .inl)
  · rename_i range
    obtain ⟨found, walked, run⟩ := of_bind_ok run
    rw [walk, if_neg (by omega)] at walked
    cases walked
    cases look : pt.lookup va with
    | none =>
      rw [look] at run
      cases run
      exact .refused (.inr (.inr (.inl look)))
    | some e =>
      have leaf := leaf_of_lookup look
      have refused : Refused pt va ↔
          e.has pteCow = true ∧ (e.has pteU = false ∨ e.has pteV = false) := by
        rw [Refused, look, leaf]
        simp only [reduceCtorEq, false_or]
        refine ⟨fun closed => ?_, fun closed => .inr (.inr closed)⟩
        rcases closed with zero | above | closed
        · omega
        · omega
        · exact closed
      rw [look] at run
      simp only [Bool.not_eq_true'] at run
      split at run
      · rename_i plain
        cases run
        exact .plain (by simp [refused, plain]) (by rwa [leaf])
      · rename_i marked
        simp only [Bool.not_eq_false] at marked
        split at run
        · rename_i system
          cases run
          exact .refused (refused.2 ⟨marked, .inl system⟩)
        · rename_i user
          split at run
          · rename_i invalid
            cases run
            exact .refused (refused.2 ⟨marked, .inr invalid⟩)
          · rename_i valid
            simp only [Bool.not_eq_false] at user valid
            have accepted : ¬Refused pt va := by simp [refused, user, valid]
            cases alloc : kalloc k with
            | mk k₁ new =>
              rw [alloc] at run
              cases new with
              | none =>
                cases run
                obtain ⟨rfl, empty⟩ := kalloc_none alloc
                exact .empty accepted (by rwa [leaf]) empty
              | some newpa =>
                obtain ⟨k₂, freed, last⟩ := of_bind_ok run
                cases last
                exact .copied accepted (entry_of_valid valid leaf) marked user alloc freed

/-- Entries above user memory do not carry the mark, and are closed to the user. -/
def TopPlain (pt : PageTable) : Prop :=
  ∀ v e, userPages ≤ v → v * pgsize < maxva → pt.entry v = some e →
    e.has pteCow = false ∧ e.has pteU = false

/-- Trading a share of a page for a fresh copy of it. -/
theorem dup_spec {newpa : Nat} (user : v < userPages) (mapped : pt.entry v = some e)
    (marked : e.has pteCow = true) (alloc : kalloc k = (k₁, some newpa))
    (freed : kfree { k₁ with mem := memmove k₁.mem newpa (pte2pa e) pgsize } (pte2pa e) = .ok k')
    (owned : Owned k pt excl shared) :
    Evolves k pt k' (pt.store (v * pgsize) (dupEntry newpa)) excl shared ∧
      ∀ w, w * pgsize < maxva → (pt.store (v * pgsize) (dupEntry newpa)).entry w =
        if w = v then some (dupEntry newpa) else pt.entry w := by
  have lt := userPage_lt user
  obtain ⟨leaf, valid⟩ := entry_eq_some.1 mapped
  have found := lookup_isSome mapped
  obtain ⟨owned₁, framed₁, page, fresh⟩ := kalloc_owned owned alloc
  obtain ⟨privRest, cowRest, priv, cow, stored⟩ := split_at user found
  obtain ⟨privs', cows'⟩ := stored (dupEntry newpa)
  obtain ⟨isPriv, notCow⟩ := privOf_private (dupEntry_valid newpa) (dupEntry_plain newpa)
  obtain ⟨wasPriv, wasCow⟩ := privOf_cow valid marked
  rw [dupEntry_pa page.aligned page.lt] at isPriv
  rw [isPriv] at privs'
  rw [notCow, zero_add] at cows'
  rw [leaf, wasPriv, zero_add] at priv
  rw [leaf, wasCow] at cow
  have entries (w : Nat) (ltW : w * pgsize < maxva) :=
    entry_store lt ltW found (dupEntry_valid newpa)
  -- the copy is written, and the old page loses a holder
  have copied : Framed k₁ { k₁ with mem := memmove k₁.mem newpa (pte2pa e) pgsize }
      (pt.kept excl shared) := by
    refine ⟨rfl, rfl, fun pb held => ?_⟩
    refine SamePage.memmove (owned.isPage_kept held).aligned page.aligned ?_ le_rfl
    rintro rfl
    exact fresh held
  have held : Holds { k₁ with mem := memmove k₁.mem newpa (pte2pa e) pgsize }
      (pt.tables + (privRest + newpa ::ₘ excl)) (pte2pa e ::ₘ (cowRest + shared)) := by
    unfold Owned at owned₁
    rw [priv, cow, add_assoc, singleton_add] at owned₁
    exact owned₁.setMem _
  obtain ⟨k₂, freed', holds, framed₂⟩ := kfree_shared held
  rw [freed] at freed'
  cases freed'
  have owned' : Owned k' (pt.store (v * pgsize) (dupEntry newpa)) excl shared := by
    unfold Owned
    rw [tables_store, privs', cows']
    convert holds using 1
    rw [← singleton_add]
    abel
  have kept : ∀ pb ∈ (pt.store (v * pgsize) (dupEntry newpa)).kept excl shared,
      pb ∈ (pt.tables + (privRest + newpa ::ₘ excl)) + (cowRest + shared) := by
    intro pb mem
    rw [kept, privs', cows'] at mem
    simp only [mem_add, mem_cons, mem_singleton] at mem ⊢
    rcases mem with ((mem | mem) | mem) | mem
    · exact .inl (.inr (.inr (.inl mem)))
    · exact .inl (.inr (.inl mem))
    · exact .inl (.inr (.inr (.inr mem)))
    · exact .inr mem
  have rest : ∀ pb ∈ excl + shared,
      pb ∈ (pt.store (v * pgsize) (dupEntry newpa)).kept excl shared :=
    fun pb => rest_kept _
  refine ⟨⟨owned', ((framed₁.trans copied).mono fun pb => rest_kept _).trans
    (framed₂.mono fun pb mem => kept pb (rest pb mem)), fun w userW before after o small => ?_⟩,
    entries⟩
  have leafW := leaf_store (dupEntry newpa) lt (userPage_lt userW) found
  by_cases here : w = v
  · subst here
    have new : newpa ∈ (pt.tables + (privRest + newpa ::ₘ excl)) + (cowRest + shared) := by simp
    have old := mem_kept_of_entry excl shared userW mapped
    rw [leafW, if_pos rfl, dupEntry_pa page.aligned page.lt, framed₂.same _ new o small, leaf,
      ← framed₁.same _ old o small]
    simp only [memmove]
    rw [if_pos (by omega), Nat.add_sub_cancel_left]
  · obtain ⟨e', entry⟩ := Option.isSome_iff_exists.1 before
    have old := mem_kept_of_entry excl shared userW entry
    have entry' := entries w (userPage_lt userW)
    rw [if_neg here, entry] at entry'
    have new := kept _ (mem_kept_of_entry excl shared userW entry')
    rw [leafW, if_neg here, (entry_eq_some.1 entry).1, framed₂.same _ new o small]
    exact (framed₁.trans copied).same _ old o small

/-- `dup_pg` on any address. -/
theorem dupPg_spec (top : TopPlain pt) (run : dupPg k pt va = .ok (k', pt', r))
    (owned : Owned k pt excl shared) : Evolves k pt k' pt' excl shared ∧
      ((k' = k ∧ pt' = pt ∧ ¬ Duplicates k pt va ∧ (r = -1 ∨ r = -2 ∨
        (r = 0 ∧ va < maxva ∧ va ≠ 0 ∧ (pt.leaf (va / pgsize)).has pteCow = false))) ∨
      ∃ e newpa, r = 0 ∧ Duplicates k pt va ∧ va / pgsize < userPages ∧
        pt.entry (va / pgsize) = some e ∧
        e.has pteCow = true ∧ e.has pteU = true ∧
        ∀ w, w * pgsize < maxva →
          pt'.entry w = if w = va / pgsize then some (dupEntry newpa) else pt.entry w) := by
  cases dupPg_ends run with
  | refused closed =>
    exact ⟨.refl owned, .inl ⟨rfl, rfl, fun copies => (duplicates_iff.1 copies).1 closed, .inl rfl⟩⟩
  | plain accepted plain =>
    refine ⟨.refl owned, .inl ⟨rfl, rfl, fun copies => ?_, .inr (.inr ⟨rfl, ?_⟩)⟩⟩
    · rw [duplicates_iff, plain] at copies
      exact Bool.false_ne_true copies.2.1
    · exact ⟨(accepted_lt accepted).2, (accepted_lt accepted).1, plain⟩
  | empty _ _ empty =>
    exact ⟨.refl owned, .inl ⟨rfl, rfl, fun copies => copies.2.2.1 empty, .inr (.inl rfl)⟩⟩
  | @copied e _ _ newpa accepted mapped marked user alloc freed =>
    have ltV : va / pgsize * pgsize < maxva :=
      (Nat.div_mul_le_self _ _).trans_lt (accepted_lt accepted).2
    have userV : va / pgsize < userPages := by
      by_contra above
      rw [(top _ e (Nat.le_of_not_lt above) ltV mapped).1] at marked
      cases marked
    have copies : Duplicates k pt va := duplicates_iff.2
      ⟨accepted, by rwa [(entry_eq_some.1 mapped).1], kalloc_nonempty alloc⟩
    rw [store_page]
    obtain ⟨evolves, entries⟩ := dup_spec userV mapped marked alloc freed owned
    exact ⟨evolves, .inr ⟨e, newpa, rfl, copies, userV, mapped, marked, user, entries⟩⟩

/-! ## Writing to a private page -/

/-- A page without the mark is mapped once. -/
theorem Owned.alone {e' : Pte} (owned : Owned k pt excl shared) (user : v < userPages)
    (mapped : pt.entry v = some e) (plain : e.has pteCow = false) (userW : w < userPages)
    (other : w ≠ v) (mappedW : pt.entry w = some e') : pte2pa e' ≠ pte2pa e := by
  intro same
  obtain ⟨leaf, valid⟩ := entry_eq_some.1 mapped
  obtain ⟨leafW, validW⟩ := entry_eq_some.1 mappedW
  have found := lookup_isSome mapped
  obtain ⟨privRest, cowRest, priv, cow, stored⟩ := split_at user found
  obtain ⟨isPriv, notCow⟩ := privOf_private valid plain
  have without := leaf_store 0 (userPage_lt user) (userPage_lt userW) found
  rw [if_neg other, leafW] at without
  rw [leaf, isPriv] at priv
  have heldV : pte2pa e ∈ pt.tables + (pt.privs + excl) := by simp [priv]
  unfold Owned at owned
  cases marked : e'.has pteCow with
  | false =>
    have inRest : pte2pa e ∈ privRest := by
      obtain ⟨gone, -⟩ := stored 0
      rw [privOf_invalid (by decide), zero_add] at gone
      rw [← gone]
      refine mem_mapped userW ?_
      rw [without, (privOf_private validW marked).1, same]
      exact mem_singleton_self _
    have once := Ledger.excl_nodup owned
    rw [priv, add_assoc, singleton_add, add_cons, nodup_cons] at once
    exact once.1 (by simp [inRest])
  | true =>
    refine Ledger.not_shared_of_excl owned heldV (mem_add.2 (.inl ?_))
    refine mem_mapped userW ?_
    rw [leafW, (privOf_cow validW marked).2, same]
    exact mem_singleton_self _

/-- Writing to a page without the mark changes what that page shows, and nothing else. -/
theorem write_spec {off : Nat} {src : List UInt8} (user : v < userPages)
    (mapped : pt.entry v = some e) (plain : e.has pteCow = false) (fits : off + src.length ≤ pgsize)
    (owned : Owned k pt excl shared) :
    Owned { k with mem := memput k.mem (pte2pa e + off) src } pt excl shared ∧
      Framed k { k with mem := memput k.mem (pte2pa e + off) src } (excl + shared) ∧
      ∀ w < userPages, w ≠ v → (pt.entry w).isSome →
        SameBytes k pt { k with mem := memput k.mem (pte2pa e + off) src } pt w := by
  obtain ⟨leaf, valid⟩ := entry_eq_some.1 mapped
  have page : k.IsPage (pte2pa e) := owned.isPage_kept (mem_kept_of_entry excl shared user mapped)
  refine ⟨owned.setMem _, ⟨rfl, rfl, fun pb mem => ?_⟩, fun w userW other before o small => ?_⟩
  · have isPage : k.IsPage pb := owned.isPage_kept (rest_kept _ mem)
    refine SamePage.memput isPage.aligned page.aligned ?_ fits
    rintro rfl
    have inPrivs : pte2pa e ∈ pt.privs := by
      refine mem_mapped user ?_
      rw [leaf, (privOf_private valid plain).1]
      exact mem_singleton_self _
    rcases mem_add.1 mem with mem | mem
    · have once := nodup_iff_count_le_one.1 (Ledger.excl_nodup owned) (pte2pa e)
      have first := count_pos.2 inPrivs
      have second := count_pos.2 mem
      rw [count_add, count_add] at once
      omega
    · exact Ledger.not_shared_of_excl owned (mem_add.2 (.inr (mem_add.2 (.inl inPrivs))))
        (mem_add.2 (.inr mem))
  · obtain ⟨e', entry⟩ := Option.isSome_iff_exists.1 before
    have isPage : k.IsPage (pte2pa e') := owned.isPage_kept
      (mem_kept_of_entry excl shared userW entry)
    rw [(entry_eq_some.1 entry).1]
    exact SamePage.memput isPage.aligned page.aligned
      (owned.alone user mapped plain userW other entry) fits o small

end Xv6
