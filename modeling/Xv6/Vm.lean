import Xv6.PageTable

/-!
# User memory

The user-memory functions of `vm.c` and the copy-on-write functions of
`kalloc.c`.  A function takes the allocator and the page tables it works on and
returns them as it leaves them, with its result: `0`, `-1` and `-2` where the
source returns an `int`, a natural number where it returns a `uint64`.
-/

namespace Xv6

/-- `uvmcreate`. -/
def uvmcreate (k : Kmem) : Kmem × Option PageTable := newTable k none

/-- `uvmdealloc`. -/
def uvmdealloc (k : Kmem) (pt : PageTable) (oldsz newsz : Nat) :
    Except String (Kmem × PageTable × Nat) :=
  if oldsz ≤ newsz then .ok (k, pt, oldsz)
  else if pgroundup newsz < pgroundup oldsz then do
    let npages := (pgroundup oldsz - pgroundup newsz) / pgsize
    let (k, pt) ← uvmunmap k pt (pgroundup newsz) npages true
    .ok (k, pt, newsz)
  else .ok (k, pt, newsz)

/-- The loop of `uvmalloc`, with `n` pages to go from `a` on; the flag says whether
memory sufficed. -/
def growLoop (oldsz : Nat) (xperm : Pte) :
    Nat → Kmem → PageTable → Nat → Except String (Kmem × PageTable × Bool)
  | 0, k, pt, _ => .ok (k, pt, true)
  | n + 1, k, pt, a =>
    match kalloc k with
    | (k, none) => do
        let (k, pt, _) ← uvmdealloc k pt a oldsz
        .ok (k, pt, false)
    | (k, some mem) => do
        let k := { k with mem := memset k.mem mem 0 pgsize }
        let (k, pt, r) ← mappages k pt a pgsize mem (pteR ||| pteU ||| xperm)
        if r ≠ 0 then do
          let k ← kfree k mem
          let (k, pt, _) ← uvmdealloc k pt a oldsz
          .ok (k, pt, false)
        else growLoop oldsz xperm n k pt (a + pgsize)

/-- `uvmalloc`. -/
def uvmalloc (k : Kmem) (pt : PageTable) (oldsz newsz : Nat) (xperm : Pte) :
    Except String (Kmem × PageTable × Nat) :=
  if newsz < oldsz then .ok (k, pt, oldsz)
  else do
    let oldsz := pgroundup oldsz
    let (k, pt, done) ← growLoop oldsz xperm (npages (newsz - oldsz)) k pt oldsz
    .ok (k, pt, if done then newsz else 0)

/-- `uvmfree`. -/
def uvmfree (k : Kmem) (pt : PageTable) (sz : Nat) : Except String Kmem :=
  if 0 < sz then do
    let (k, pt) ← uvmunmap k pt 0 (pgroundup sz / pgsize) true
    freewalk k pt
  else freewalk k pt

/-- `uvmfirst`.  The result of `mappages` is ignored, as in the source; a failed `kalloc`
makes the kernel write to address zero, and trap. -/
def uvmfirst (k : Kmem) (pt : PageTable) (src : List UInt8) :
    Except String (Kmem × PageTable) :=
  if pgsize ≤ src.length then .error "uvmfirst: more than a page"
  else
    match kalloc k with
    | (_, none) => .error "kerneltrap"
    | (k, some mem) => do
        let k := { k with mem := memset k.mem mem 0 pgsize }
        let (k, pt, _) ← mappages k pt 0 pgsize mem (pteW ||| pteR ||| pteX ||| pteU)
        .ok ({ k with mem := memput k.mem mem src }, pt)

/-- `uvmclear`: mark a page inaccessible to the user. -/
def uvmclear (pt : PageTable) (va : Nat) : Except String PageTable := do
  match ← walk pt va with
  | none => .error "uvmclear"
  | some pte => .ok (pt.store va (pte &&& ~~~pteU))

/-- `walkaddr`; zero when the page is not mapped for the user. -/
def walkaddr (pt : PageTable) (va : Nat) : Except String Nat :=
  if maxva ≤ va then .ok 0
  else do
    match ← walk pt va with
    | none => .ok 0
    | some pte =>
      if !pte.has pteV then .ok 0
      else if !pte.has pteU then .ok 0
      else .ok (pte2pa pte)

/-! ## Copy-on-write -/

/-- `cowmappage`. -/
def cowmappage (k : Kmem) (pt : PageTable) (va size pa : Nat) (perm : Pte) :
    Except String (Kmem × PageTable × Int) :=
  if pa % pgsize ≠ 0 ∨ pa < k.kend ∨ phystop ≤ pa then
    .error "cowmappage: invalid physical address"
  else do
    let (k, pt, r) ← mappages k pt va size pa (perm ||| pteCow)
    if r = 0 then .ok (k.setRefs pa (k.refs pa + 1), pt, r) else .ok (k, pt, r)

/-- `-1` as a `uint64`. -/
def negOne : Nat := 2 ^ 64 - 1

/-- An entry as `uvmcowpy` leaves it in the parent. -/
def cowEntry (pte : Pte) : Pte := (pte &&& ~~~pteW) ||| pteCow

/-- The loop of `uvmcowpy`, with `n` pages to go from `i` on. -/
def cowLoop : Nat → Kmem → PageTable → PageTable → Nat →
    Except String (Kmem × PageTable × PageTable × Nat)
  | 0, k, old, new, _ => .ok (k, old, new, 0)
  | n + 1, k, old, new, i => do
      match ← walk old i with
      | none => .error "uvmreadonly: pte should exist"
      | some pte =>
        if !pte.has pteV then .error "uvmreadonly: page not present"
        else do
          let pte := cowEntry pte
          let old := old.store i pte
          let (k, new, r) ← cowmappage k new i pgsize (pte2pa pte) (pteFlags pte)
          if r < 0 then do
            let (k, new) ← uvmunmap k new 0 (i / pgsize) true
            .ok (k, old, new, negOne)
          else cowLoop n k old new (i + pgsize)

/-- `uvmcowpy`, whose result is a `uint64`. -/
def uvmcowpy (k : Kmem) (old new : PageTable) (sz : Nat) :
    Except String (Kmem × PageTable × PageTable × Nat) :=
  cowLoop (npages sz) k old new 0

/-- The entry `dup_pg` writes for a page it has copied to `newpa`. -/
def dupEntry (newpa : Nat) : Pte :=
  (pa2pte newpa ||| pteU ||| pteV ||| pteW ||| pteX ||| pteR) &&& ~~~pteCow

/-- `dup_pg`. -/
def dupPg (k : Kmem) (pt : PageTable) (va : Nat) : Except String (Kmem × PageTable × Int) :=
  if maxva ≤ va ∨ va = 0 then .ok (k, pt, -1)
  else do
    match ← walk pt va with
    | none => .ok (k, pt, -1)
    | some pte =>
      if !pte.has pteCow then .ok (k, pt, 0)
      else if !pte.has pteU then .ok (k, pt, -1)
      else if !pte.has pteV then .ok (k, pt, -1)
      else
        match kalloc k with
        | (k, none) => .ok (k, pt, -2)
        | (k, some newpa) => do
            let k := { k with mem := memmove k.mem newpa (pte2pa pte) pgsize }
            let k ← kfree k (pte2pa pte)
            .ok (k, pt.store va (dupEntry newpa), 0)

/-- The loop of `copyout`: `src` are the bytes still to copy.  Each round copies at
least one, so that `fuel` rounds are enough for `fuel` bytes. -/
def copyoutLoop : Nat → Kmem → PageTable → Nat → List UInt8 →
    Except String (Kmem × PageTable × Int)
  | 0, k, pt, _, _ => .ok (k, pt, 0)
  | fuel + 1, k, pt, dstva, src =>
    if src.length = 0 then .ok (k, pt, 0)
    else do
      let va0 := pgrounddown dstva
      let (k, pt, r) ← dupPg k pt va0
      if r < 0 then .ok (k, pt, -1)
      else do
        let pa0 ← walkaddr pt va0
        if pa0 = 0 then .ok (k, pt, -1)
        else
          let n := min (pgsize - (dstva - va0)) src.length
          let k := { k with mem := memput k.mem (pa0 + (dstva - va0)) (src.take n) }
          copyoutLoop fuel k pt (va0 + pgsize) (src.drop n)

/-- `copyout(pagetable, dstva, src, len)`, with the `len` bytes at `src` as a list. -/
def copyout (k : Kmem) (pt : PageTable) (dstva : Nat) (src : List UInt8) :
    Except String (Kmem × PageTable × Int) :=
  copyoutLoop src.length k pt dstva src

/-! ## The page table of a process -/

/-- `proc_pagetable`, for a process with this trapframe page. -/
def procPagetable (k : Kmem) (trapframe : Nat) : Except String (Kmem × Option PageTable) :=
  match uvmcreate k with
  | (k, none) => .ok (k, none)
  | (k, some pt) => do
      let (k, pt, r) ← mappages k pt trampolineVa pgsize k.trampoline (pteR ||| pteX)
      if r < 0 then do
        let k ← uvmfree k pt 0
        .ok (k, none)
      else do
        let (k, pt, r) ← mappages k pt trapframeVa pgsize trapframe (pteR ||| pteW)
        if r < 0 then do
          let (k, pt) ← uvmunmap k pt trampolineVa 1 false
          let k ← uvmfree k pt 0
          .ok (k, none)
        else .ok (k, some pt)

/-- `proc_freepagetable`. -/
def procFreepagetable (k : Kmem) (pt : PageTable) (sz : Nat) : Except String Kmem := do
  let (k, pt) ← uvmunmap k pt trampolineVa 1 false
  let (k, pt) ← uvmunmap k pt trapframeVa 1 false
  uvmfree k pt sz

end Xv6
