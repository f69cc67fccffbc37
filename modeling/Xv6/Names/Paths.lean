import Xv6.Names.References

/-!
# Paths and their components

`namex` takes a path apart in place, one `skipelem` at a time, and sees that an element is the
last one by the end of the string after it.  Here the loop runs on the string itself, and is
compared with splitting the path at its slashes and following the pieces.  `wp_namex` says that
the kernel's `namex`, with its references and locks, returns the same.
-/

namespace Xv6.Names

open List

/-- The maximal runs of characters other than a slash, each cut to `DIRSIZ` characters. -/
def components (path : List UInt8) : List Name :=
  ((path.splitOn slash).filter (· ≠ [])).map (List.take dirsiz)

namespace Disk

/-- What `dirlookup` finds in a directory. -/
def dirlookup (d : Disk) (dp : Nat) (name : Name) : Option Nat :=
  (findEntry name 0 (d.node dp).entries).map Prod.snd

/-- The loop of `namex`, no result if it has not ended after the given number of rounds. -/
def namexLoop (d : Disk) (parent : Bool) :
    Nat → Nat → List UInt8 → Name → Option (Option (Nat × Name))
  | 0, _, _, _ => none
  | rounds + 1, ip, path, name =>
    match skipelem path with
    | none => some (if parent then none else some (ip, name))
    | some (name, path) =>
      if (d.node ip).type = some .dir then
        if parent ∧ path = [] then some (some (ip, name))
        else
          match d.dirlookup ip name with
          | none => some none
          | some next => namexLoop d parent rounds next path name
      else some none

/-- Where a path starts. -/
def start (cwd : Nat) (path : List UInt8) : Nat :=
  if path.head? = some slash then rootino else cwd

/-- A path is shorter by an element at least after each round, which bounds their number. -/
def namex (d : Disk) (cwd : Nat) (path : List UInt8) (parent : Bool) :
    Option (Option (Nat × Name)) :=
  d.namexLoop parent (path.length + 1) (start cwd path) path []

def namei (d : Disk) (cwd : Nat) (path : List UInt8) : Option (Option Nat) :=
  (d.namex cwd path false).map (Option.map Prod.fst)

def nameiparent (d : Disk) (cwd : Nat) (path : List UInt8) : Option (Option (Nat × Name)) :=
  d.namex cwd path true

/-- One component looked up in what must be a directory. -/
def enter (d : Disk) (ip : Nat) (name : Name) : Option Nat :=
  if (d.node ip).type = some .dir then d.dirlookup ip name else none

/-- The components looked up one after another. -/
def follow (d : Disk) (ip : Nat) (names : List Name) : Option Nat :=
  names.foldlM d.enter ip

/-- All components but the last looked up; they must end at a directory. -/
def followParent (d : Disk) (ip : Nat) (names : List Name) : Option (Nat × Name) := do
  let name ← names.getLast?
  let dp ← d.follow ip names.dropLast
  guard ((d.node dp).type = some .dir)
  return (dp, name)

end Disk

/-! ## Splitting a path -/

theorem components_slash (path : List UInt8) : components (slash :: path) = components path := by
  have split := splitOn_append_cons_self_of_not_mem (not_mem_nil (a := slash)) path
  rw [nil_append] at split
  simp [components, split]

theorem components_dropWhile (path : List UInt8) :
    components (path.dropWhile (· == slash)) = components path := by
  induction path with
  | nil => rfl
  | cons c rest ih =>
    by_cases eq : c = slash
    · subst eq
      rw [dropWhile_cons_of_pos (by simp), components_slash, ih]
    · rw [dropWhile_cons_of_neg (by simpa using eq)]

theorem components_run {run : List UInt8} (ne : run ≠ []) (plain : slash ∉ run) :
    components run = [run.take dirsiz] ∧
      ∀ rest, components (run ++ slash :: rest) = run.take dirsiz :: components rest := by
  constructor
  · simp [components, splitOn_eq_singleton plain, ne]
  · intro rest
    simp [components, splitOn_append_cons_self_of_not_mem plain, ne]

/-- `skipelem` takes the first component. -/
theorem components_eq (path : List UInt8) : components path =
      match skipelem path with
      | none => []
      | some (name, rest) => name :: components rest := by
  rw [← components_dropWhile path, skipelem]
  cases stripped : path.dropWhile (· == slash) with
  | nil => rfl
  | cons c cs =>
    have first : c ≠ slash := by
      have := head?_dropWhile_not (fun x : UInt8 => x == slash) path
      simpa [stripped] using this
    have ne : (c :: cs).takeWhile (· != slash) ≠ [] := by
      simp [first]
    have plain : slash ∉ (c :: cs).takeWhile (· != slash) := fun mem => by
      simpa using mem_takeWhile_imp mem
    have run := components_run ne plain
    simp only [components_dropWhile]
    cases rest : (c :: cs).dropWhile (· != slash) with
    | nil =>
      have whole := takeWhile_append_dropWhile (p := (· != slash)) (l := c :: cs)
      rw [rest, append_nil] at whole
      rw [whole] at run ⊢
      exact run.1
    | cons s rest' =>
      obtain rfl : s = slash := by
        have := head?_dropWhile_not (fun x : UInt8 => x != slash) (c :: cs)
        simpa [rest] using this
      rw [components_slash, ← run.2, ← rest, takeWhile_append_dropWhile]

/-- What repeated calls of `skipelem` take from a path are its components. -/
theorem elements_eq_components (path : List UInt8) : elements path = components path := by
  generalize len : path.length = n
  induction n using Nat.strong_induction_on generalizing path with
  | h n ih =>
    rw [elements_eq, components_eq]
    cases next : skipelem path with
    | none => rfl
    | some elem =>
      have shorter := skipelem_length next
      exact congrArg (elem.1 :: ·) (ih _ (by omega) _ rfl)

/-- The path that `skipelem` leaves has no leading slash: it is empty or has an element. -/
theorem elements_rest {path rest : List UInt8} {name : Name}
    (next : skipelem path = some (name, rest)) : elements rest = [] ↔ rest = [] := by
  refine ⟨fun empty => ?_, fun empty => by rw [empty]; rfl⟩
  unfold skipelem at next
  cases stripped : path.dropWhile (· == slash) with
  | nil => simp [stripped] at next
  | cons c cs =>
    rw [stripped] at next
    simp only [Option.some.injEq, Prod.mk.injEq] at next
    rw [elements_eq, skipelem, ← next.2, dropWhile_idempotent, next.2] at empty
    cases rest with
    | nil => rfl
    | cons s rest => simp at empty

/-! ## The loop of `namex` -/

namespace Disk

variable {d : Disk} {name : Name} {ip : Nat}

/-- The loop ends within as many rounds as the path has characters, and one more. -/
theorem namexLoop_eq {parent : Bool} {rounds : Nat} {path : List UInt8}
    (enough : path.length < rounds) : d.namexLoop parent rounds ip path name =
      some (resolveFrom d parent ip (elements path) name) := by
  induction rounds generalizing ip path name with
  | zero => omega
  | succ rounds ih =>
    rw [namexLoop, elements_eq]
    cases next : skipelem path with
    | none => rfl
    | some elem =>
      obtain ⟨name, rest⟩ := elem
      have shorter := skipelem_length next
      simp only [resolveFrom, dirlookup, elements_rest next]
      split_ifs
      · rfl
      · cases findEntry name 0 (d.node ip).entries with
        | none => rfl
        | some found => exact ih (by omega)
      · rfl

theorem resolveFrom_follow (ip : Nat) (names : List Name) (last : Name) :
    (resolveFrom d false ip names last).map Prod.fst = d.follow ip names := by
  induction names generalizing ip last with
  | nil => rfl
  | cons name rest ih =>
    rw [resolveFrom, follow, foldlM_cons, enter, dirlookup]
    split_ifs with dir found
    · simp at found
    · cases findEntry name 0 (d.node ip).entries with
      | none => rfl
      | some found => exact ih _ _
    · rfl

theorem resolveFrom_followParent (ip : Nat) (names : List Name) (last : Name) :
    resolveFrom d true ip names last = d.followParent ip names := by
  induction names generalizing ip last with
  | nil => rfl
  | cons name rest ih =>
    cases rest with
    | nil =>
      by_cases dir : (d.node ip).type = some .dir <;> simp [resolveFrom, followParent, follow, dir]
    | cons name' rest =>
      rw [resolveFrom]
      simp only [followParent, follow, dropLast_cons_cons, foldlM_cons, enter, dirlookup,
        getLast?_cons_cons]
      split_ifs with dir found
      · simp at found
      · cases findEntry name 0 (d.node ip).entries with
        | none => simp
        | some found => exact ih _ _
      · simp

/-- Following a path is looking its last component up in the directory before it. -/
theorem follow_of_followParent {dp : Nat} {names : List Name}
    (parent : d.followParent ip names = some (dp, name)) :
    d.follow ip names = d.dirlookup dp name := by
  simp only [followParent, Option.bind_eq_bind, Option.bind_eq_some_iff, Option.pure_def] at parent
  obtain ⟨last, eq, dp', walk, _, dir, pair⟩ := parent
  obtain ⟨rfl, rfl⟩ : dp' = dp ∧ last = name := by simpa using pair
  have isDir : (d.node dp').type = some .dir := by
    by_contra not
    simp [not] at dir
  rw [follow, ← dropLast_append_getLast? last eq, foldlM_append]
  rw [follow] at walk
  simp [walk, enter, isDir]

/-- Path resolution follows the components of the path, and `namei` is `dirlookup` in what
`nameiparent` returns. -/
theorem path_resolution (d : Disk) (cwd : Nat) (path : List UInt8) :
    d.namei cwd path = some (d.follow (start cwd path) (components path)) ∧
      d.nameiparent cwd path = some (d.followParent (start cwd path) (components path)) ∧
      (components path = [] → d.nameiparent cwd path = some none) ∧
      ∀ dp name, d.nameiparent cwd path = some (some (dp, name)) →
        d.namei cwd path = some (d.dirlookup dp name) := by
  have whole : d.namei cwd path = some (d.follow (start cwd path) (components path)) := by
    rw [namei, namex, namexLoop_eq (Nat.lt_succ_self _), Option.map_some, resolveFrom_follow,
      elements_eq_components]
  have upper :
      d.nameiparent cwd path = some (d.followParent (start cwd path) (components path)) := by
    rw [nameiparent, namex, namexLoop_eq (Nat.lt_succ_self _), resolveFrom_followParent,
      elements_eq_components]
  refine ⟨whole, upper, fun empty => ?_, fun dp name found => ?_⟩
  · rw [upper, empty]
    rfl
  · rw [upper] at found
    rw [whole, follow_of_followParent (Option.some.inj found)]

end Disk

end Xv6.Names
