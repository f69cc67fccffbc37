import Xv6.Radix.Walk

/-!
# Translations added and removed

The loops of `mappages` and `uvmunmap` on the tree in memory, described by what `walk` finds
afterwards: `entry` changes at the pages that the loop has gone through, and nowhere else.
-/

namespace Xv6.Radix

open Ownership Fallible Nat

variable {k k' k₁ : Kmem} {pt pt' : PageTable} {excl shared excl' shared' : Multiset Nat}
  {root va v w a pa n : Nat} {e perm : Pte} {r : Int} {doFree : Bool}

theorem valid_zero : valid 0 = none := rfl

theorem valid_of_has (has : e.has pteV = true) : valid e = some e := if_pos has

theorem valid_eq_none : valid e = none ↔ e.has pteV = false := by
  unfold valid
  cases e.has pteV with
  | false => simp
  | true => simp

theorem valid_eq_some {e' : Pte} : valid e = some e' ↔ e.has pteV = true ∧ e = e' := by
  unfold valid
  cases e.has pteV with
  | false => simp
  | true => simp

/-- Addresses from `MAXVA` on have no entry. -/
theorem entry_ge (ge : maxva ≤ v * pgsize) : entry k root v = none := by
  unfold entry walk
  rw [if_pos ge]

theorem entry_lt (mapped : entry k root v = some e) : v * pgsize < maxva := by
  by_contra ge
  rw [entry_ge (Nat.le_of_not_lt ge)] at mapped
  cases mapped

theorem entry_valid (mapped : entry k root v = some e) : e.has pteV = true := by
  unfold entry at mapped
  split at mapped
  · obtain ⟨has, rfl⟩ := valid_eq_some.1 mapped
    exact has
  · cases mapped

namespace Tree

theorem entry_eq (tree : Tree k root pt excl shared) (lt : v * pgsize < maxva) :
    entry k root v = valid (pt.leaf v) := by
  unfold entry
  rw [tree.walk_read lt, PageTable.leaf, lookup_eq tree.rep]
  cases pteAddr pt (v * pgsize) with
  | none => exact valid_zero.symm
  | some a => rfl

/-- Two trees with the same leaves translate the same way. -/
theorem entry_congr (tree : Tree k root pt excl shared) (tree' : Tree k' root pt' excl' shared')
    (same : ∀ v, pt'.leaf v = pt.leaf v) (v : Nat) : entry k' root v = entry k root v := by
  rcases lt_or_ge (v * pgsize) maxva with lt | ge
  · rw [tree.entry_eq lt, tree'.entry_eq lt, same]
  · rw [entry_ge ge, entry_ge ge]

section

variable (tree : Tree k root pt excl shared) (lt : v * pgsize < maxva)
  (found : pteAddr pt (v * pgsize) = some a)
include tree lt found

/-- The word at the address of an entry is what `walk` finds for its page. -/
theorem reads : valid (readPte k.mem a) = entry k root v := by
  rw [tree.entry_eq lt, PageTable.leaf, lookup_eq tree.rep, found]
  rfl

/-- A write to the address of an entry changes what `walk` finds for its page only. -/
theorem writes (e : Pte) (w : Nat) : entry { k with mem := writePte k.mem a e } root w =
      if w = v then valid e else entry k root w := by
  have tree' := tree.write found e
  rcases lt_or_ge (w * pgsize) maxva with ltW | ge
  · have some' : (pt.lookup (v * pgsize)).isSome := by
      rw [lookup_eq tree.rep, found]
      rfl
    rw [tree.entry_eq ltW, tree'.entry_eq ltW, PageTable.leaf_store e lt ltW some']
    split <;> rfl
  · have other : w ≠ v := by
      rintro rfl
      omega
    rw [entry_ge ge, entry_ge ge, if_neg other]

/-- `*pte = 0`. -/
theorem clears (w : Nat) :
    entry { k with mem := writePte k.mem a 0 } root w = if w = v then none else entry k root w := by
  rw [tree.writes lt found 0 w, valid_zero]

end

/-- `walk` with allocation finds a place for the entry or runs out of pages, and changes no
translation. -/
theorem alloc (tree : Tree k root pt excl shared) (lt : va < maxva) :
    ∃ k₁ pt₁ r, walk k root va true = .ok (k₁, r) ∧ Tree k₁ root pt₁ excl shared ∧
      (∀ w, entry k₁ root w = entry k root w) ∧ ∀ a, r = some a → pteAddr pt₁ va = some a := by
  obtain ⟨k₁, pt₁, found, ka, run, spec, tree₁, -⟩ := tree.walk_alloc lt
  refine ⟨k₁, pt₁, _, run, tree₁, tree.entry_congr tree₁ (walkAlloc_leaf spec), fun a at' => ?_⟩
  cases found with
  | false => cases at'
  | true => exact at'

/-! ## `mappages` -/

/-- What a run of the loop of `mappages` has done when it returns: it has mapped `j` pages. -/
structure Mapped (k k' : Kmem) (root v j pa : Nat) (perm : Pte) : Prop where
  below : ∀ w, v ≤ w → w < v + j → w * pgsize < maxva
  absent : ∀ w, v ≤ w → w < v + j → entry k root w = none
  entries : ∀ w, entry k' root w = if v ≤ w ∧ w < v + j then
    some (mapEntry (pa + (w - v) * pgsize) perm) else entry k root w

theorem mapped_none (same : ∀ w, entry k' root w = entry k root w) :
    Mapped k k' root v 0 pa perm := by
  refine ⟨fun w low high => ?_, fun w low high => ?_, fun w => ?_⟩
  · omega
  · omega
  · rw [same, if_neg (by omega)]

theorem mapped_cons {j : Nat} (lt : v * pgsize < maxva) (absent : entry k root v = none)
    (first : ∀ w, entry k₁ root w = if w = v then some (mapEntry pa perm) else entry k root w)
    (rest : Mapped k₁ k' root (v + 1) j (pa + pgsize) perm) :
    Mapped k k' root v (j + 1) pa perm := by
  refine ⟨fun w low high => ?_, fun w low high => ?_, fun w => ?_⟩
  · by_cases here : w = v
    · rw [here]
      exact lt
    · exact rest.below w (by omega) (by omega)
  · by_cases here : w = v
    · rw [here]
      exact absent
    · have later := rest.absent w (by omega) (by omega)
      rwa [first, if_neg here] at later
  · rw [rest.entries, first]
    by_cases here : w = v
    · subst here
      rw [if_neg (by omega), if_pos rfl, if_pos (by omega), Nat.sub_self, Nat.zero_mul,
        Nat.add_zero]
    · rw [if_neg here]
      by_cases within : v + 1 ≤ w ∧ w < v + 1 + j
      · rw [if_pos within, if_pos (by omega)]
        have shift : pa + pgsize + (w - (v + 1)) * pgsize = pa + (w - v) * pgsize := by
          have split : w - v = w - (v + 1) + 1 := by omega
          rw [split, succ_mul]
          omega
        rw [shift]
      · rw [if_neg within, if_neg (by omega)]

/-- `walk` and the write of one round of `mappages`: there is no page for a table, or the entry
is there to be written. -/
theorem map_round (tree : Tree k root pt excl shared) (lt : v * pgsize < maxva) (pa : Nat)
    (perm : Pte) :
    (∃ k₁ pt₁, walk k root (v * pgsize) true = .ok (k₁, none) ∧ Tree k₁ root pt₁ excl shared ∧
      ∀ w, entry k₁ root w = entry k root w) ∨
    ∃ k₁ pt₁ a, walk k root (v * pgsize) true = .ok (k₁, some a) ∧
      valid (readPte k₁.mem a) = entry k root v ∧
      Tree { k₁ with mem := writePte k₁.mem a (mapEntry pa perm) } root pt₁ excl shared ∧
      ∀ w, entry { k₁ with mem := writePte k₁.mem a (mapEntry pa perm) } root w =
        if w = v then some (mapEntry pa perm) else entry k root w := by
  obtain ⟨k₁, pt₁, r, run, tree₁, same, at'⟩ := tree.alloc lt
  cases r with
  | none => exact .inl ⟨k₁, pt₁, run, tree₁, same⟩
  | some a =>
    have found := at' a rfl
    refine .inr ⟨k₁, _, a, run, ?_, tree₁.write found _, fun w => ?_⟩
    · rw [tree₁.reads lt found, same]
    · rw [tree₁.writes lt found, same, valid_of_has (mapEntry_valid pa perm)]

/-- The loop of `mappages` after `walk` has found the place of an entry. -/
theorem mapLoop_some (walked : walk k root (v * pgsize) true = .ok (k₁, some a))
    (invalid : (readPte k₁.mem a).has pteV = false) : mapLoop root perm n k (v * pgsize) pa =
      match n with
      | 0 => .ok ({ k₁ with mem := writePte k₁.mem a (mapEntry pa perm) }, 0)
      | n + 1 => mapLoop root perm n { k₁ with mem := writePte k₁.mem a (mapEntry pa perm) }
          ((v + 1) * pgsize) (pa + pgsize) := by
  have next : (v + 1) * pgsize = v * pgsize + pgsize := succ_mul v pgsize
  rw [next]
  cases n with
  | zero =>
    unfold mapLoop
    simp only [walked, invalid, bind, Except.bind, Bool.false_eq_true, if_false]
  | succ n =>
    conv_lhs => unfold mapLoop
    simp only [walked, invalid, bind, Except.bind, Bool.false_eq_true, if_false]

theorem mapLoop_none (walked : walk k root (v * pgsize) true = .ok (k₁, none)) :
    mapLoop root perm n k (v * pgsize) pa = .ok (k₁, -1) := by
  unfold mapLoop
  simp only [walked, bind, Except.bind]

theorem mapLoop_remap (walked : walk k root (v * pgsize) true = .ok (k₁, some a))
    (valid : (readPte k₁.mem a).has pteV = true) :
    mapLoop root perm n k (v * pgsize) pa = .error "mappages: remap" := by
  unfold mapLoop
  simp only [walked, valid, bind, Except.bind]
  rfl

theorem mapLoop_ge (ge : maxva ≤ v * pgsize) :
    mapLoop root perm n k (v * pgsize) pa = .error "walk" := by
  unfold mapLoop walk
  rw [if_pos ge]
  rfl

section

variable (tree : Tree k root pt excl shared)
  (run : mapLoop root perm n k (v * pgsize) pa = .ok (k', r))
include tree run

/-- How a run of the loop that returns begins. -/
theorem mapLoop_first :
    (r = -1 ∧ ∃ pt', Tree k' root pt' excl shared ∧ ∀ w, entry k' root w = entry k root w) ∨
    ∃ k₁ pt₁, v * pgsize < maxva ∧ entry k root v = none ∧ Tree k₁ root pt₁ excl shared ∧
      (∀ w, entry k₁ root w = if w = v then some (mapEntry pa perm) else entry k root w) ∧
      match n with
      | 0 => k' = k₁ ∧ r = 0
      | n + 1 => mapLoop root perm n k₁ ((v + 1) * pgsize) (pa + pgsize) = .ok (k', r) := by
  rcases lt_or_ge (v * pgsize) maxva with lt | ge
  · rcases tree.map_round lt pa perm with ⟨k₁, pt₁, walked, tree₁, same⟩ |
      ⟨k₁, pt₁, a, walked, old, tree₁, entries⟩
    · rw [mapLoop_none walked] at run
      cases run
      exact .inl ⟨rfl, pt₁, tree₁, same⟩
    · cases has : (readPte k₁.mem a).has pteV with
      | true =>
        rw [mapLoop_remap walked has] at run
        cases run
      | false =>
        rw [mapLoop_some walked has] at run
        refine .inr ⟨_, pt₁, lt, ?_, tree₁, entries, ?_⟩
        · rw [← old]
          exact valid_eq_none.2 has
        · cases n with
          | zero =>
            cases run
            exact ⟨rfl, rfl⟩
          | succ n => exact run
  · rw [mapLoop_ge ge] at run
    cases run

/-- The loop of `mappages`, with `n` pages after the first. -/
theorem mapLoop_mapped :
    ∃ pt' j, Tree k' root pt' excl shared ∧ (r = 0 ∧ j = n + 1 ∨ r = -1 ∧ j ≤ n) ∧
      Mapped k k' root v j pa perm := by
  induction n generalizing k pt v pa with
  | zero =>
    rcases tree.mapLoop_first run with ⟨rfl, pt', tree', same⟩ |
      ⟨k₁, pt₁, lt, absent, tree₁, entries, rfl, rfl⟩
    · exact ⟨pt', 0, tree', .inr ⟨rfl, le_rfl⟩, mapped_none same⟩
    · exact ⟨pt₁, 1, tree₁, .inl ⟨rfl, rfl⟩, mapped_cons lt absent entries
        (mapped_none fun _ => rfl)⟩
  | succ n ih =>
    rcases tree.mapLoop_first run with ⟨rfl, pt', tree', same⟩ |
      ⟨k₁, pt₁, lt, absent, tree₁, entries, rest⟩
    · exact ⟨pt', 0, tree', .inr ⟨rfl, zero_le _⟩, mapped_none same⟩
    · obtain ⟨pt', j, tree', ended, mapped⟩ := ih tree₁ rest
      exact ⟨pt', j + 1, tree', by omega, mapped_cons lt absent entries mapped⟩

end

/-- The loop of `mappages` returns if its pages are below `MAXVA` and not mapped. -/
theorem mapLoop_succeeds (tree : Tree k root pt excl shared)
    (below : ∀ w, v ≤ w → w ≤ v + n → w * pgsize < maxva)
    (absent : ∀ w, v ≤ w → w ≤ v + n → entry k root w = none) :
    Succeeds (mapLoop root perm n k (v * pgsize) pa) := by
  induction n generalizing k pt v pa with
  | zero =>
    rcases tree.map_round (below v le_rfl le_rfl) pa perm with ⟨k₁, pt₁, walked, tree₁, same⟩ |
      ⟨k₁, pt₁, a, walked, old, tree₁, entries⟩
    · exact ⟨_, mapLoop_none walked⟩
    · rw [absent v le_rfl le_rfl, valid_eq_none] at old
      exact ⟨_, mapLoop_some walked old⟩
  | succ n ih =>
    rcases tree.map_round (below v le_rfl (by omega)) pa perm with
      ⟨k₁, pt₁, walked, tree₁, same⟩ | ⟨k₁, pt₁, a, walked, old, tree₁, entries⟩
    · exact ⟨_, mapLoop_none walked⟩
    · rw [absent v le_rfl (by omega), valid_eq_none] at old
      rw [mapLoop_some walked old]
      refine ih tree₁ (fun w low high => below w (by omega) (by omega)) fun w low high => ?_
      rw [entries, if_neg (by omega)]
      exact absent w (by omega) (by omega)

end Tree

/-! ## `uvmunmap` -/

/-- The pages `fs` leave their holders: some were owned, the others shared. -/
def Released (fs : List Nat) (excl shared excl' shared' : Multiset Nat) : Prop :=
  ∃ owned held : Multiset Nat, owned + held = ↑fs ∧ excl = owned + excl' ∧ shared = held + shared'

theorem Released.nil (released : Released [] excl shared excl' shared') :
    excl = excl' ∧ shared = shared' := by
  obtain ⟨owned, held, none, rfl, rfl⟩ := released
  rw [Multiset.coe_nil, add_eq_zero] at none
  rw [none.1, none.2, zero_add, zero_add]
  exact ⟨rfl, rfl⟩

namespace Tree

/-- `kfree` of a page that the tree only maps. -/
theorem release {fs : List Nat} (tree : Tree k root pt excl shared)
    (released : Released (pa :: fs) excl shared excl' shared') :
    ∃ k₁ excl₁ shared₁, kfree k pa = .ok k₁ ∧ Tree k₁ root pt excl₁ shared₁ ∧
      Released fs excl₁ shared₁ excl' shared' := by
  obtain ⟨owned, held, all, rfl, rfl⟩ := released
  have mem : pa ∈ owned + held := by
    rw [all]
    exact Multiset.mem_coe.2 List.mem_cons_self
  rcases Multiset.mem_add.1 mem with mem | mem
  · obtain ⟨owned, rfl⟩ := Multiset.exists_cons_of_mem mem
    have holds := tree.holds
    rw [Multiset.cons_add, Multiset.add_cons] at holds
    obtain ⟨k₁, freed, holds₁, framed, -⟩ := kfree_excl holds
    refine ⟨k₁, _, _, freed, tree.pass holds₁ fun pb table => framed.same pb ?_, owned, held, ?_,
      rfl, rfl⟩
    · simp only [Multiset.mem_add]
      tauto
    · rw [Multiset.cons_add, ← Multiset.cons_coe] at all
      exact (Multiset.cons_inj_right pa).1 all
  · obtain ⟨held, rfl⟩ := Multiset.exists_cons_of_mem mem
    have holds := tree.holds
    rw [Multiset.cons_add] at holds
    obtain ⟨k₁, freed, holds₁, framed⟩ := kfree_shared holds
    refine ⟨k₁, _, _, freed, tree.pass holds₁ fun pb table => framed.same pb ?_, owned, held, ?_,
      rfl, rfl⟩
    · simp only [Multiset.mem_add]
      tauto
    · rw [Multiset.add_cons, ← Multiset.cons_coe] at all
      exact (Multiset.cons_inj_right pa).1 all

/-- One round of `uvmunmap` at a page that is mapped. -/
theorem unmap_round (tree : Tree k root pt excl shared) (mapped : entry k root v = some e)
    (released :
      Released (if doFree then frames k root v (n + 1) else []) excl shared excl' shared') :
    ∃ k₁ k₂ pt₂ a excl₁ shared₁, walk k root (v * pgsize) false = .ok (k, some a) ∧
      readPte k.mem a = e ∧ kfreeIf doFree k (pte2pa e) = .ok k₁ ∧
      k₂ = { k₁ with mem := writePte k₁.mem a 0 } ∧ Tree k₂ root pt₂ excl₁ shared₁ ∧
      (∀ w, entry k₂ root w = if w = v then none else entry k root w) ∧
      Released (if doFree then frames k₂ root (v + 1) n else []) excl₁ shared₁ excl' shared' := by
  have lt := entry_lt mapped
  obtain ⟨a, found⟩ : ∃ a, pteAddr pt (v * pgsize) = some a := by
    cases found : pteAddr pt (v * pgsize) with
    | none =>
      rw [tree.entry_eq lt, PageTable.leaf, lookup_eq tree.rep, found] at mapped
      change valid 0 = some e at mapped
      rw [valid_zero] at mapped
      cases mapped
    | some a => exact ⟨a, rfl⟩
  have word := tree.reads lt found
  rw [mapped, valid_eq_some] at word
  have walked : walk k root (v * pgsize) false = .ok (k, some a) := by
    rw [tree.walk_read lt, found]
  have later {k₂ : Kmem} (same : ∀ w, entry k₂ root w = if w = v then none else entry k root w) :
      frames k₂ root (v + 1) n = frames k root (v + 1) n := by
    unfold frames
    refine List.filterMap_congr fun w mem => ?_
    rw [same, if_neg]
    have := List.mem_range'_1.1 mem
    omega
  cases doFree with
  | false =>
    rw [if_neg Bool.false_ne_true] at released
    refine ⟨k, _, _, a, excl, shared, walked, word.2, rfl, rfl, tree.write found 0,
      tree.clears lt found, ?_⟩
    rw [if_neg Bool.false_ne_true]
    exact released
  | true =>
    simp only [if_true, frames, List.range'_succ, List.filterMap_cons, mapped, Option.map_some]
      at released
    obtain ⟨k₁, excl₁, shared₁, freed, tree₁, rest⟩ := tree.release released
    have cleared : ∀ w, entry { k₁ with mem := writePte k₁.mem a 0 } root w =
        if w = v then none else entry k root w := by
      intro w
      rw [tree₁.clears lt found, tree.entry_congr tree₁ fun _ => rfl]
    refine ⟨k₁, _, _, a, excl₁, shared₁, walked, word.2, freed, rfl, tree₁.write found 0, cleared,
      ?_⟩
    rw [if_pos rfl, later cleared]
    exact rest

/-- The loop of `uvmunmap` at a page that is mapped. -/
theorem unmapLoop_some (walked : walk k root (v * pgsize) false = .ok (k, some a))
    (mapped : (readPte k.mem a).has pteV = true) (leaf : pteFlags (readPte k.mem a) ≠ pteV)
    (freed : kfreeIf doFree k (pte2pa (readPte k.mem a)) = .ok k₁) :
    unmapLoop root doFree (n + 1) k (v * pgsize) =
      unmapLoop root doFree n { k₁ with mem := writePte k₁.mem a 0 } ((v + 1) * pgsize) := by
  have next : (v + 1) * pgsize = v * pgsize + pgsize := succ_mul v pgsize
  rw [next]
  conv_lhs => unfold unmapLoop
  simp only [walked, mapped, leaf, freed, bind, Except.bind, Bool.not_true, Bool.false_eq_true,
    if_false]

section

variable (tree : Tree k root pt excl shared)
include tree

/-- The loop of `uvmunmap` stops with a panic at a page that is not mapped. -/
theorem unmapLoop_ok (run : unmapLoop root doFree (n + 1) k (v * pgsize) = .ok k') :
    ∃ e, entry k root v = some e ∧ pteFlags e ≠ pteV := by
  unfold unmapLoop at run
  rcases lt_or_ge (v * pgsize) maxva with lt | ge
  · rw [tree.walk_read lt] at run
    cases found : pteAddr pt (v * pgsize) with
    | none =>
      rw [found] at run
      cases run
    | some a =>
      have word := tree.reads lt found
      simp only [found, bind, Except.bind] at run
      cases has : (readPte k.mem a).has pteV with
      | false =>
        simp only [has] at run
        cases run
      | true =>
        simp only [has, Bool.not_true, Bool.false_eq_true, if_false] at run
        split at run
        · cases run
        · rename_i leaf
          exact ⟨_, by rw [← word, valid_of_has has], leaf⟩
  · unfold walk at run
    rw [if_pos ge] at run
    cases run

/-- The loop of `uvmunmap` removes the pages it goes through, and no others. -/
theorem unmapLoop_unmapped (run : unmapLoop root doFree n k (v * pgsize) = .ok k')
    (released : Released (if doFree then frames k root v n else []) excl shared excl' shared') :
    (∃ pt', Tree k' root pt' excl' shared') ∧
      ∀ w, entry k' root w = if v ≤ w ∧ w < v + n then none else entry k root w := by
  induction n generalizing k pt v excl shared with
  | zero =>
    have nothing : (if doFree then frames k root v 0 else []) = [] := by cases doFree <;> rfl
    rw [nothing] at released
    cases run
    obtain ⟨rfl, rfl⟩ := released.nil
    refine ⟨⟨pt, tree⟩, fun w => ?_⟩
    rw [if_neg (by omega)]
  | succ n ih =>
    obtain ⟨e, mapped, leaf⟩ := tree.unmapLoop_ok run
    obtain ⟨k₁, k₂, pt₂, a, excl₁, shared₁, walked, word, freed, at₂, tree₂, entries, rest⟩ :=
      tree.unmap_round mapped released
    have has : (readPte k.mem a).has pteV = true := by
      rw [word]
      exact entry_valid mapped
    rw [unmapLoop_some walked has (word ▸ leaf) (word ▸ freed), ← at₂] at run
    obtain ⟨tree', after⟩ := ih tree₂ run rest
    refine ⟨tree', fun w => ?_⟩
    rw [after, entries]
    by_cases here : w = v
    · rw [if_neg (by omega), if_pos here, if_pos (by omega)]
    · by_cases within : v + 1 ≤ w ∧ w < v + 1 + n
      · rw [if_pos within, if_pos (by omega)]
      · rw [if_neg within, if_neg here, if_neg (by omega)]

/-- The loop of `uvmunmap` returns if its pages are mapped. -/
theorem unmapLoop_succeeds
    (mapped : ∀ w, v ≤ w → w < v + n → ∃ e, entry k root w = some e ∧ pteFlags e ≠ pteV)
    (released : Released (if doFree then frames k root v n else []) excl shared excl' shared') :
    Succeeds (unmapLoop root doFree n k (v * pgsize)) := by
  induction n generalizing k pt v excl shared with
  | zero => exact .ok k
  | succ n ih =>
    obtain ⟨e, here, leaf⟩ := mapped v le_rfl (by omega)
    obtain ⟨k₁, k₂, pt₂, a, excl₁, shared₁, walked, word, freed, at₂, tree₂, entries, rest⟩ :=
      tree.unmap_round here released
    have has : (readPte k.mem a).has pteV = true := by
      rw [word]
      exact entry_valid here
    rw [unmapLoop_some walked has (word ▸ leaf) (word ▸ freed), ← at₂]
    refine ih tree₂ (fun w low high => ?_) rest
    rw [entries, if_neg (by omega)]
    exact mapped w (by omega) (by omega)

end

end Tree

end Xv6.Radix
