import Xv6.Names.Effects

/-!
# The tree of names

A directory is live while its link count is not zero.  `Exact` says of a name space that its live
directories form a tree below the root, that every link count is the number of entries in live
directories that name the inode (an entry `..` counts for the parent, `.` for nobody, and the
root has one link more), and that removed directories are empty.

Making, linking and removing names keep this, and so does freeing inodes without links, as long
as nothing is entered in a removed directory and no link count runs over.
-/

namespace Xv6.Names

open BitVec Finset Disk

variable {n : Nat} {v v' : Nat → Node} {d dp ip x i slot : Nat} {name : Name} {kind : Kind}
  {de e : Dirent} {l : List Dirent} {b : BitVec 16}

/-! ## Slots -/

theorem emptySlot_cons (used : de.inum ≠ 0) : emptySlot (de :: l) = emptySlot l + 1 := by
  simp [emptySlot, List.findIdx_cons, used]

theorem put_succ : put (slot + 1) e (de :: l) = de :: put slot e l := by
  unfold put
  by_cases inside : slot < l.length
  · rw [if_pos (by simpa using inside), if_pos inside, List.set_cons_succ]
  · rw [if_neg (by simpa using inside), if_neg inside, List.cons_append]

/-- Filling an empty slot adds one entry. -/
theorem countP_fill (nonzero : i ≠ 0) : (put (emptySlot l) e l).countP (fun de => de.inum = i) =
      l.countP (fun de => de.inum = i) + if e.inum = i then 1 else 0 := by
  induction l with
  | nil => simp [put, List.countP_cons]
  | cons de l ih =>
    by_cases empty : de.inum = 0
    · have first : emptySlot (de :: l) = 0 := by simp [emptySlot, List.findIdx_cons, empty]
      have other : ¬de.inum = i := fun eq => nonzero (eq.symm.trans empty)
      rw [first]
      simp [put, List.countP_cons, other]
    · rw [emptySlot_cons empty, put_succ, List.countP_cons, List.countP_cons, ih]
      omega

/-- Clearing a slot takes its entry away. -/
theorem countP_clear (nonzero : i ≠ 0) (at_slot : l[slot]? = some de) :
    (put slot ⟨0, []⟩ l).countP (fun e => e.inum = i) + (if de.inum = i then 1 else 0) =
      l.countP (fun e => e.inum = i) := by
  induction l generalizing slot with
  | nil => simp at at_slot
  | cons first l ih =>
    cases slot with
    | zero =>
      obtain rfl : first = de := by simpa using at_slot
      simp [put, List.countP_cons, Ne.symm nonzero]
    | succ slot =>
      rw [put_succ, List.countP_cons, List.countP_cons]
      have rest := @ih slot (by simpa using at_slot)
      omega

/-! ## Directories -/

/-- A directory that is in the tree. -/
def LiveDir (v : Nat → Node) (d : Nat) : Prop := (v d).type = some .dir ∧ (v d).nlink ≠ 0

instance : Decidable (LiveDir v d) :=
  inferInstanceAs (Decidable ((v d).type = some .dir ∧ (v d).nlink ≠ 0))

/-- The entries after `.` and `..`. -/
def children (v : Nat → Node) (d : Nat) : List Dirent := (v d).entries.drop 2

/-- What `..` names. -/
def parentOf (v : Nat → Node) (d : Nat) : Nat := ((v d).entries[1]?.map Dirent.inum).getD 0

/-- The entries of one directory that name an inode. -/
def naming (v : Nat → Node) (d i : Nat) : Nat :=
  if LiveDir v d then (children v d).countP (fun de => de.inum = i) else 0

/-- Whether the entry `..` of a directory names an inode. -/
def upward (v : Nat → Node) (d i : Nat) : Nat :=
  if LiveDir v d ∧ d ≠ rootino ∧ parentOf v d = i then 1 else 0

def named (n : Nat) (v : Nat → Node) (i : Nat) : Nat := ∑ d ∈ Finset.range n, naming v d i

def subdirs (n : Nat) (v : Nat → Node) (i : Nat) : Nat := ∑ d ∈ Finset.range n, upward v d i

/-- The links an inode should have. -/
def links (n : Nat) (v : Nat → Node) (i : Nat) : Nat :=
  named n v i + subdirs n v i + if i = rootino then 1 else 0

structure Exact (n : Nat) (v : Nat → Node) : Prop where
  bound : ∀ i, (v i).type ≠ none → 1 ≤ i ∧ i < n
  root : LiveDir v rootino
  top : parentOf v rootino = rootino
  dots : ∀ d, (v d).type = some .dir → ∃ par,
    (v d).entries = ⟨d, dot⟩ :: ⟨par, dotdot⟩ :: children v d
  proper : ∀ d, (v d).type = some .dir → ∀ de ∈ children v d, de.inum ≠ 0 →
    de.name ≠ dot ∧ de.name ≠ dotdot
  removed : ∀ d, (v d).type = some .dir → (v d).nlink = 0 → ∀ de ∈ children v d, de.inum = 0
  child : ∀ d, LiveDir v d → ∀ de ∈ children v d, de.inum ≠ 0 → (v de.inum).type ≠ none
  up : ∀ d, LiveDir v d → LiveDir v (parentOf v d) ∧
    (d ≠ rootino → ∃ de ∈ children v (parentOf v d), de.inum = d)
  counted : ∀ i, (v i).type ≠ none → (v i).nlink.toNat = links n v i
  few : ∀ i, (v i).type ≠ none → (v i).nlink.toNat ≤ 32767
  once : ∀ d, (v d).type = some .dir → named n v d + (if d = rootino then 1 else 0) ≤ 1

section

variable (same : v' d = v d)
include same

theorem liveDir_congr : LiveDir v' d ↔ LiveDir v d := by
  rw [LiveDir, LiveDir, same]

theorem children_congr : children v' d = children v d := by
  rw [children, children, same]

theorem parentOf_congr : parentOf v' d = parentOf v d := by
  rw [parentOf, parentOf, same]

theorem naming_congr : naming v' d i = naming v d i := by
  simp only [naming, liveDir_congr same, children_congr same]

theorem upward_congr : upward v' d i = upward v d i := by
  simp only [upward, liveDir_congr same, parentOf_congr same]

end

theorem named_change (mem : d < n) (agree : ∀ e, e ≠ d → naming v' e i = naming v e i) :
    named n v' i + naming v d i = named n v i + naming v' d i :=
  Ownership.sum_change (mem_range.2 mem) fun e _ ne => agree e ne

theorem subdirs_change (mem : d < n) (agree : ∀ e, e ≠ d → upward v' e i = upward v e i) :
    subdirs n v' i + upward v d i = subdirs n v i + upward v' d i :=
  Ownership.sum_change (mem_range.2 mem) fun e _ ne => agree e ne

theorem naming_pos (live : LiveDir v d) (mem : de ∈ children v d) : 0 < naming v d de.inum := by
  rw [naming, if_pos live, List.countP_pos_iff]
  exact ⟨de, mem, by simp⟩

theorem naming_le_named (mem : d < n) : naming v d i ≤ named n v i :=
  single_le_sum (f := fun d => naming v d i) (fun _ _ => Nat.zero_le _) (mem_range.2 mem)

theorem upward_le_subdirs (mem : d < n) : upward v d i ≤ subdirs n v i :=
  single_le_sum (f := fun d => upward v d i) (fun _ _ => Nat.zero_le _) (mem_range.2 mem)

theorem naming_zero (dead : ¬LiveDir v d) : naming v d i = 0 := if_neg dead

theorem upward_zero (dead : ¬LiveDir v d) : upward v d i = 0 := if_neg fun up => dead up.1

theorem LiveDir.typed (live : LiveDir v d) : (v d).type ≠ none := by
  rw [live.1]
  simp

namespace Exact

section

variable (exact : Exact n v)
include exact

theorem live_bound (live : LiveDir v d) : d < n := (exact.bound d live.typed).2

/-- What a live directory names has links. -/
theorem child_linked (live : LiveDir v d) (mem : de ∈ children v d) (used : de.inum ≠ 0) :
    (v de.inum).nlink ≠ 0 := by
  intro none
  have counted := exact.counted _ (exact.child d live de mem used)
  have pos := naming_pos live mem
  have le : naming v d de.inum ≤ named n v de.inum := naming_le_named (exact.live_bound live)
  rw [none] at counted
  simp only [links, ofNat_eq_ofNat, toNat_ofNat, Nat.zero_mod] at counted
  omega

/-- No live directory names a free inode. -/
theorem unnamed (free : (v x).type = none) (nonzero : x ≠ 0) :
    named n v x = 0 ∧ subdirs n v x = 0 := by
  constructor
  · refine sum_eq_zero fun d _ => ?_
    by_cases live : LiveDir v d
    · rw [naming, if_pos live, List.countP_eq_zero]
      intro de mem eq
      have eq : de.inum = x := of_decide_eq_true eq
      have := exact.child d live de mem (by rw [eq]; exact nonzero)
      rw [eq] at this
      exact this free
    · exact naming_zero live
  · refine sum_eq_zero fun d _ => if_neg fun ⟨live, _, eq⟩ => ?_
    have := (exact.up d live).1.typed
    rw [eq] at this
    exact this free

/-- The entries of a directory. -/
theorem entries (dir : (v d).type = some .dir) :
    (v d).entries = ⟨d, dot⟩ :: ⟨parentOf v d, dotdot⟩ :: children v d := by
  obtain ⟨par, eq⟩ := exact.dots d dir
  have : parentOf v d = par := by simp [parentOf, eq]
  rw [this]
  exact eq

theorem parent_pos (live : LiveDir v d) : parentOf v d ≠ 0 := by
  have := exact.bound _ (exact.up d live).1.typed
  omega

/-- Freeing inodes without links. -/
theorem frees (frees : Frees v v') : Exact n v' := by
  have kept (i : Nat) (linked : (v i).nlink ≠ 0) : v' i = v i := frees.linked linked
  have same (i : Nat) (typed : (v' i).type ≠ none) : v' i = v i := by
    rcases frees i with eq | ⟨-, eq⟩
    · exact eq
    · rw [eq] at typed
      exact absurd rfl typed
  have live (d : Nat) : LiveDir v' d ↔ LiveDir v d := by
    constructor
    · intro live
      have eq := same d live.typed
      exact ⟨by rw [← eq]; exact live.1, by rw [← eq]; exact live.2⟩
    · intro live
      have eq := kept d live.2
      exact ⟨by rw [eq]; exact live.1, by rw [eq]; exact live.2⟩
  have counts (d i : Nat) : naming v' d i = naming v d i ∧ upward v' d i = upward v d i := by
    by_cases here : LiveDir v d
    · have eq := kept d here.2
      exact ⟨naming_congr eq, upward_congr eq⟩
    · have there : ¬LiveDir v' d := fun live' => here ((live d).1 live')
      rw [naming_zero here, naming_zero there, upward_zero here, upward_zero there]
      exact ⟨rfl, rfl⟩
  have named_eq (i : Nat) : named n v' i = named n v i :=
    sum_congr rfl fun d _ => (counts d i).1
  have subdirs_eq (i : Nat) : subdirs n v' i = subdirs n v i :=
    sum_congr rfl fun d _ => (counts d i).2
  exact
    { bound := fun i typed => exact.bound i (by rw [← same i typed]; exact typed)
      root := (live rootino).2 exact.root
      top := by
        rw [parentOf_congr (kept _ exact.root.2)]
        exact exact.top
      dots := fun d dir => by
        have eq := same d (by rw [dir]; simp)
        rw [children_congr eq, eq]
        exact exact.dots d (by rw [← eq]; exact dir)
      proper := fun d dir => by
        have eq := same d (by rw [dir]; simp)
        rw [children_congr eq]
        exact exact.proper d (by rw [← eq]; exact dir)
      removed := fun d dir none => by
        have eq := same d (by rw [dir]; simp)
        rw [children_congr eq]
        exact exact.removed d (by rw [← eq]; exact dir) (by rw [← eq]; exact none)
      child := fun d live' de mem used => by
        have here := (live d).1 live'
        rw [children_congr (kept d here.2)] at mem
        rw [kept _ (exact.child_linked here mem used)]
        exact exact.child d here de mem used
      up := fun d live' => by
        have here := (live d).1 live'
        obtain ⟨parent, below⟩ := exact.up d here
        rw [parentOf_congr (kept d here.2), children_congr (kept _ parent.2)]
        exact ⟨(live _).2 parent, below⟩
      counted := fun i typed => by
        have eq := same i typed
        rw [links, named_eq, subdirs_eq, eq]
        exact exact.counted i (by rw [← eq]; exact typed)
      few := fun i typed => by
        have eq := same i typed
        rw [eq]
        exact exact.few i (by rw [← eq]; exact typed)
      once := fun d dir => by
        have eq := same d (by rw [dir]; simp)
        rw [named_eq]
        exact exact.once d (by rw [← eq]; exact dir) }

end

end Exact

/-! ## Changing one directory and one inode that it names -/

/-- A directory below `dp` that has no entries of its own. -/
structure Leaf (v : Nat → Node) (dp x : Nat) : Prop where
  below : x ≠ rootino
  entries : (v x).entries = ⟨x, dot⟩ :: ⟨dp, dotdot⟩ :: children v x
  empty : ∀ de ∈ children v x, de.inum = 0

theorem Leaf.parent (leaf : Leaf v dp x) : parentOf v x = dp := by
  simp [parentOf, leaf.entries]

theorem Leaf.naming (leaf : Leaf v dp x) (nonzero : i ≠ 0) : naming v x i = 0 := by
  rw [Names.naming]
  split
  · rw [List.countP_eq_zero]
    intro de mem eq
    exact nonzero ((of_decide_eq_true eq).symm.trans (leaf.empty de mem))
  · rfl

/-- Only `dp` and `x` are changed, in `dp` only entries for `x`. -/
structure Edit (v v' : Nat → Node) (dp x : Nat) : Prop where
  ne : x ≠ dp
  live : LiveDir v dp
  live' : LiveDir v' dp
  others : ∀ i, i ≠ x → i ≠ dp → v' i = v i
  dots : (v' dp).entries = ⟨dp, dot⟩ :: ⟨parentOf v dp, dotdot⟩ :: children v' dp
  count : ∀ i, i ≠ 0 → i ≠ x → (children v' dp).countP (fun de => de.inum = i) =
    (children v dp).countP (fun de => de.inum = i)
  before : LiveDir v x → Leaf v dp x
  after : (v' x).type = some .dir → Leaf v' dp x

namespace Edit

section

variable (edit : Edit v v' dp x)
include edit

theorem parent (ne : d ≠ x) : parentOf v' d = parentOf v d := by
  by_cases eq : d = dp
  · subst eq
    simp [parentOf, edit.dots]
  · exact parentOf_congr (edit.others d ne eq)

theorem live_iff (ne : d ≠ x) : LiveDir v' d ↔ LiveDir v d := by
  by_cases eq : d = dp
  · subst eq
    exact iff_of_true edit.live' edit.live
  · exact liveDir_congr (edit.others d ne eq)

/-- What holds of the two inodes that change and of those that do not. -/
theorem cases {P : Nat → Prop} (self : P x) (parent : P dp)
    (rest : ∀ i, i ≠ x → i ≠ dp → v' i = v i → P i) (i : Nat) : P i := by
  by_cases here : i = x
  · rwa [here]
  · by_cases above : i = dp
    · rwa [above]
    · exact rest i here above (edit.others i here above)

theorem naming_self (nonzero : i ≠ 0) : naming v' x i = naming v x i := by
  have old : naming v x i = 0 := by
    by_cases live : LiveDir v x
    · exact (edit.before live).naming nonzero
    · exact naming_zero live
  have new : naming v' x i = 0 := by
    by_cases live : LiveDir v' x
    · exact (edit.after live.1).naming nonzero
    · exact naming_zero live
  rw [old, new]

theorem naming_ne (nonzero : i ≠ 0) (ne : i ≠ x) : naming v' d i = naming v d i := by
  by_cases self : d = x
  · subst self
    exact edit.naming_self nonzero
  · by_cases eq : d = dp
    · subst eq
      rw [naming, naming, if_pos edit.live, if_pos edit.live']
      exact edit.count i nonzero ne
    · exact naming_congr (edit.others d self eq)

theorem named_ne (nonzero : i ≠ 0) (ne : i ≠ x) : named n v' i = named n v i :=
  sum_congr rfl fun _ _ => edit.naming_ne nonzero ne

theorem named_self (below : dp < n) (nonzero : x ≠ 0) :
    named n v' x + naming v dp x = named n v x + naming v' dp x := by
  refine named_change below fun e ne => ?_
  by_cases self : e = x
  · subst self
    exact edit.naming_self nonzero
  · exact naming_congr (edit.others e self ne)

theorem upward_ne (ne : d ≠ x) : upward v' d i = upward v d i := by
  simp only [upward, edit.live_iff ne, edit.parent ne]

theorem upward_self (ne : i ≠ dp) : upward v' x i = upward v x i := by
  have old : upward v x i = 0 :=
    if_neg fun ⟨live, _, eq⟩ => ne (eq.symm.trans (edit.before live).parent)
  have new : upward v' x i = 0 :=
    if_neg fun ⟨live, _, eq⟩ => ne (eq.symm.trans (edit.after live.1).parent)
  rw [old, new]

theorem subdirs_ne (ne : i ≠ dp) : subdirs n v' i = subdirs n v i := by
  refine sum_congr rfl fun d _ => ?_
  by_cases self : d = x
  · subst self
    exact edit.upward_self ne
  · exact edit.upward_ne self

theorem subdirs_parent (below : x < n) :
    subdirs n v' dp + upward v x dp = subdirs n v dp + upward v' x dp :=
  subdirs_change below fun _ ne => edit.upward_ne ne

/-- Entries for other inodes stay. -/
theorem child_iff (nonzero : i ≠ 0) (ne : i ≠ x) (other : d ≠ x) :
    (∃ de ∈ children v' d, de.inum = i) ↔ ∃ de ∈ children v d, de.inum = i := by
  by_cases eq : d = dp
  · subst eq
    have count := edit.count i nonzero ne
    have iff {l : List Dirent} :
        (∃ de ∈ l, de.inum = i) ↔ 0 < l.countP (fun de => de.inum = i) := by
      simp [List.countP_pos_iff]
    rw [iff, iff, count]
  · rw [children_congr (edit.others d other eq)]

end

end Edit

/-- No live directory but `x` itself is below a directory without entries. -/
theorem Exact.parent_ne (exact : Exact n v) (edit : Edit v v' dp x) (live : LiveDir v d)
    (ne : d ≠ x) : parentOf v d ≠ x := by
  intro eq
  obtain ⟨parent, below⟩ := exact.up d live
  rw [eq] at parent below
  have leaf := edit.before parent
  have other : d ≠ rootino := by
    rintro rfl
    exact leaf.below (eq.symm.trans exact.top)
  obtain ⟨de, mem, named⟩ := below other
  have := (exact.bound d live.typed).1
  have := leaf.empty de mem
  omega

/-- An edit keeps the name space exact when the two link counts follow the entries. -/
theorem Exact.edit (exact : Exact n v) (edit : Edit v v' dp x) (low : 1 ≤ x) (high : x < n)
    (proper : ∀ de ∈ children v' dp, de.inum ≠ 0 → de.name ≠ dot ∧ de.name ≠ dotdot)
    (typed : (v' x).type ≠ none) (entered : LiveDir v' x → 0 < naming v' dp x)
    (counted : (v x).nlink.toNat = links n v x)
    (links_x : (v' x).nlink.toNat + naming v dp x = (v x).nlink.toNat + naming v' dp x)
    (links_dp : (v' dp).nlink.toNat + upward v x dp = (v dp).nlink.toNat + upward v' x dp)
    (few_x : (v' x).nlink.toNat ≤ 32767) (few_dp : (v' dp).nlink.toNat ≤ 32767)
    (once : (v' x).type = some .dir → named n v' x ≤ 1) : Exact n v' := by
  have below : dp < n := exact.live_bound edit.live
  have nonzero : dp ≠ 0 := by
    have := (exact.bound dp edit.live.typed).1
    omega
  have root_ne : rootino ≠ x := fun eq => (edit.before (eq ▸ exact.root)).below eq.symm
  -- a directory other than `x` was one before
  have old_dir (d : Nat) (other : d ≠ x) (dir : (v' d).type = some .dir) :
      (v d).type = some .dir := by
    by_cases eq : d = dp
    · subst eq
      exact edit.live.1
    · rw [← edit.others d other eq]
      exact dir
  have up (d : Nat) (live : LiveDir v' d) (other : d ≠ x) : LiveDir v' (parentOf v' d) ∧
      (d ≠ rootino → ∃ de ∈ children v' (parentOf v' d), de.inum = d) := by
    have here := (edit.live_iff other).1 live
    have ne := exact.parent_ne edit here other
    obtain ⟨parent, above⟩ := exact.up d here
    have d_nonzero : d ≠ 0 := by
      have := (exact.bound d here.typed).1
      omega
    rw [edit.parent other]
    exact ⟨(edit.live_iff ne).2 parent, fun h =>
      (edit.child_iff d_nonzero other ne).2 (above h)⟩
  exact
    { bound := edit.cases (fun _ => ⟨low, high⟩) (fun _ => exact.bound dp edit.live.typed)
        fun i _ _ same typed' => exact.bound i (by rwa [← same])
      root := (edit.live_iff root_ne).2 exact.root
      top := by
        rw [edit.parent root_ne]
        exact exact.top
      dots := edit.cases (fun dir => ⟨dp, (edit.after dir).entries⟩) (fun _ => ⟨_, edit.dots⟩)
        fun d self _ same dir => by
          obtain ⟨par, entries⟩ := exact.dots d (old_dir d self dir)
          exact ⟨par, by rw [children_congr same, same]; exact entries⟩
      proper := edit.cases (fun dir de mem used => absurd ((edit.after dir).empty de mem) used)
        (fun _ => proper) fun d self _ same dir de mem used => by
          rw [children_congr same] at mem
          exact exact.proper d (old_dir d self dir) de mem used
      removed := edit.cases (fun dir _ => (edit.after dir).empty)
        (fun _ none => absurd none edit.live'.2) fun d self _ same dir none de mem => by
          rw [children_congr same] at mem
          exact exact.removed d (old_dir d self dir) (by rw [← same]; exact none) de mem
      child := fun d live de mem used => by
        by_cases self : d = x
        · subst self
          exact absurd ((edit.after live.1).empty de mem) used
        · by_cases new : de.inum = x
          · rw [new]
            exact typed
          · obtain ⟨de', mem', eq⟩ := (edit.child_iff used new self).1 ⟨de, mem, rfl⟩
            have kept :=
              exact.child d ((edit.live_iff self).1 live) de' mem' (by rw [eq]; exact used)
            rw [eq] at kept
            by_cases parent : de.inum = dp
            · rw [parent]
              exact edit.live'.typed
            · rw [edit.others _ new parent]
              exact kept
      up := fun d live => by
        by_cases self : d = x
        · subst self
          rw [(edit.after live.1).parent]
          have pos := entered live
          rw [naming, if_pos edit.live', List.countP_pos_iff] at pos
          obtain ⟨de, mem, eq⟩ := pos
          exact ⟨edit.live', fun _ => ⟨de, mem, of_decide_eq_true eq⟩⟩
        · exact up d live self
      counted := edit.cases (fun _ => by
          have named := edit.named_self below (by omega)
          have subdirs : subdirs n v' x = _ := edit.subdirs_ne edit.ne
          rw [links] at counted ⊢
          omega) (fun _ => by
          have named : named n v' dp = _ := edit.named_ne nonzero edit.ne.symm
          have subdirs := edit.subdirs_parent high
          have counted := exact.counted dp edit.live.typed
          rw [links] at counted ⊢
          omega) fun i self eq same typed' => by
          rw [same] at typed'
          have pos := exact.bound i typed'
          rw [links, edit.named_ne (by omega) self, edit.subdirs_ne eq, same]
          exact exact.counted i typed'
      few := edit.cases (fun _ => few_x) (fun _ => few_dp) fun i _ _ same typed' => by
        rw [same] at typed' ⊢
        exact exact.few i typed'
      once := fun d dir => by
        by_cases self : d = x
        · subst self
          rw [if_neg (edit.after dir).below]
          exact once dir
        · have dir' := old_dir d self dir
          have pos := exact.bound d (by rw [dir']; simp)
          rw [edit.named_ne (by omega) self]
          exact exact.once d dir' }

/-! ## Making, linking and removing names -/

theorem toNat_add_one (few : b.toNat < 32767) : (b + 1).toNat = b.toNat + 1 := by
  bv_omega

theorem toNat_sub_one (linked : b ≠ 0) : (b + -1).toNat + 1 = b.toNat := by
  bv_omega

namespace Exact

section

variable (exact : Exact n v)
include exact

/-- An entry that is added to a directory comes after `.` and `..`. -/
theorem fill (live : LiveDir v dp) :
    put (emptySlot (v dp).entries) e (v dp).entries = ⟨dp, dot⟩ :: ⟨parentOf v dp, dotdot⟩ ::
        put (emptySlot (children v dp)) e (children v dp) := by
  have low := (exact.bound dp live.typed).1
  have up := exact.parent_pos live
  rw [exact.entries live.1, emptySlot_cons (show dp ≠ 0 by omega), emptySlot_cons up, put_succ,
    put_succ]

/-- A name that a directory lacks is not `.` or `..`. -/
theorem absent_proper (live : LiveDir v dp) (absent : findEntry name 0 (v dp).entries = none) :
    name ≠ dot ∧ name ≠ dotdot := by
  rw [findEntry_none, exact.entries live.1] at absent
  have low := (exact.bound dp live.typed).1
  have self := absent ⟨dp, dot⟩ (by simp) (show dp ≠ 0 by omega)
  have up := absent ⟨parentOf v dp, dotdot⟩ (by simp) (exact.parent_pos live)
  exact ⟨Ne.symm self, Ne.symm up⟩

theorem fill_proper (live : LiveDir v dp) (proper : name ≠ dot ∧ name ≠ dotdot)
    (mem : de ∈ put (emptySlot (children v dp)) ⟨x, name⟩ (children v dp)) (used : de.inum ≠ 0) :
    de.name ≠ dot ∧ de.name ≠ dotdot := by
  rcases mem_put mem with rfl | old
  · exact proper
  · exact exact.proper dp live.1 de old used

/-- A free inode has the links it should have, none. -/
theorem counted_free (free : v x = ⟨none, 0, []⟩) (low : 1 ≤ x) :
    (v x).nlink.toNat = links n v x := by
  have type : (v x).type = none := by rw [free]
  obtain ⟨named, subdirs⟩ := exact.unnamed type (by omega)
  have other : x ≠ rootino := by
    rintro rfl
    exact exact.root.typed type
  rw [links, named, subdirs, if_neg other, free]
  rfl

section

variable (live : LiveDir v dp) (absent : findEntry name 0 (v dp).entries = none)
include live absent

theorem created (free : v x = ⟨none, 0, []⟩) (low : 1 ≤ x) (high : x < n)
    (room : kind = .dir → (v dp).nlink.toNat < 32767) :
    Edit v (created v x dp kind name) dp x ∧ Exact n (created v x dp kind name) := by
  have type : (v x).type = none := by rw [free]
  have ne : x ≠ dp := by
    rintro rfl
    exact live.typed type
  have proper := exact.absent_proper live absent
  set v' := Names.created v x dp kind name with def_v'
  have at_x : v' x = ⟨some kind, 1, if kind = .dir then [⟨x, dot⟩, ⟨dp, dotdot⟩] else []⟩ :=
    created_new ne
  have at_dp : v' dp = ⟨(v dp).type, (v dp).nlink + (if kind = .dir then 1 else 0),
      put (emptySlot (v dp).entries) ⟨x, name⟩ (v dp).entries⟩ := by
    by_cases dir : kind = .dir <;>
      simp [def_v', Names.created, dir, addLinks, enter, make, Ne.symm ne]
  have others (i : Nat) (other : i ≠ x) (i_ne : i ≠ dp) : v' i = v i := by
    by_cases dir : kind = .dir <;>
      simp [def_v', Names.created, dir, addLinks, enter, make, other, i_ne]
  have kids : children v' dp =
      put (emptySlot (children v dp)) ⟨x, name⟩ (children v dp) := by
    rw [children, at_dp, exact.fill live]
    rfl
  have nlink_dp : (v' dp).nlink.toNat = (v dp).nlink.toNat + if kind = .dir then 1 else 0 := by
    rw [at_dp]
    by_cases dir : kind = .dir
    · simp only [dir, if_true]
      exact toNat_add_one (room dir)
    · simp [dir]
  have live' : LiveDir v' dp := by
    refine ⟨by rw [at_dp]; exact live.1, fun none => live.2 (eq_of_toNat_eq ?_)⟩
    rw [none] at nlink_dp
    simp only [ofNat_eq_ofNat, toNat_ofNat, Nat.zero_mod] at nlink_dp ⊢
    omega
  have dead : ¬LiveDir v x := fun live => live.typed type
  have new : naming v' dp x = naming v dp x + 1 := by
    rw [naming, naming, if_pos live, if_pos live', kids, countP_fill (by omega)]
    simp
  have edit : Edit v v' dp x :=
    { ne := ne
      live := live
      live' := live'
      others := others
      dots := by
        rw [kids, at_dp]
        exact exact.fill live
      count := fun i nonzero other => by
        rw [kids, countP_fill nonzero]
        simp [Ne.symm other]
      before := fun live => absurd live dead
      after := fun dir => by
        rw [at_x] at dir
        obtain rfl : kind = .dir := by simpa using dir
        have none : children v' x = [] := by simp [children, at_x]
        exact
          { below := fun eq => exact.root.typed (eq ▸ type)
            entries := by simp [none, at_x]
            empty := by simp [none] } }
  have up : upward v' x dp = if kind = .dir then 1 else 0 := by
    by_cases dir : kind = .dir
    · have leaf := edit.after (by rw [at_x, dir])
      rw [upward, if_pos ⟨⟨by rw [at_x, dir], by rw [at_x]; simp⟩, leaf.below, leaf.parent⟩,
        if_pos dir]
    · rw [upward_zero fun live => dir (by simpa [at_x] using live.1), if_neg dir]
  have counted := exact.counted_free free low
  refine ⟨edit, exact.edit edit low high (fun de mem used => ?_) (by rw [at_x]; simp)
    (fun _ => by omega)
    counted ?_ ?_ (by rw [at_x]; simp) ?_ fun dir => ?_⟩
  · rw [kids] at mem
    exact exact.fill_proper live proper mem used
  · rw [new, at_x, free]
    show 1 + naming v dp x = 0 + (naming v dp x + 1)
    omega
  · rw [nlink_dp, up, upward_zero dead]
    rfl
  · rw [nlink_dp]
    have few := exact.few dp live.typed
    split
    · next dir => exact room dir
    · exact few
  · have named := edit.named_self (exact.live_bound live) (by omega)
    rw [(exact.unnamed type (by omega)).1] at named
    omega

theorem linked (typed : (v ip).type ≠ none) (plain : (v ip).type ≠ some .dir)
    (room : (v ip).nlink.toNat < 32767) :
    Edit v (linked v ip dp name) dp ip ∧ Exact n (linked v ip dp name) := by
  have ne : ip ≠ dp := by
    rintro rfl
    exact plain live.1
  have proper := exact.absent_proper live absent
  obtain ⟨low, high⟩ := exact.bound ip typed
  set v' := Names.linked v ip dp name with def_v'
  have at_ip : v' ip = ⟨(v ip).type, (v ip).nlink + 1, (v ip).entries⟩ := by
    simp [def_v', Names.linked, addLinks, enter, ne]
  have at_dp : v' dp = ⟨(v dp).type, (v dp).nlink,
      put (emptySlot (v dp).entries) ⟨ip, name⟩ (v dp).entries⟩ := by
    simp [def_v', Names.linked, addLinks, enter, Ne.symm ne]
  have others (i : Nat) (other : i ≠ ip) (i_ne : i ≠ dp) : v' i = v i := by
    simp [def_v', Names.linked, addLinks, enter, other, i_ne]
  have kids : children v' dp =
      put (emptySlot (children v dp)) ⟨ip, name⟩ (children v dp) := by
    rw [children, at_dp, exact.fill live]
    rfl
  have live' : LiveDir v' dp := by
    rw [LiveDir, at_dp]
    exact live
  have plain' : ¬(v' ip).type = some .dir := by
    rw [at_ip]
    exact plain
  have new : naming v' dp ip = naming v dp ip + 1 := by
    rw [naming, naming, if_pos live, if_pos live', kids, countP_fill (by omega)]
    simp
  have edit : Edit v v' dp ip :=
    { ne := ne
      live := live
      live' := live'
      others := others
      dots := by
        rw [kids, at_dp]
        exact exact.fill live
      count := fun i nonzero other => by
        rw [kids, countP_fill nonzero]
        simp [Ne.symm other]
      before := fun live => absurd live.1 plain
      after := fun dir => absurd dir plain' }
  refine ⟨edit, exact.edit edit low high (fun de mem used => ?_) (by rw [at_ip]; exact typed)
    (fun live => absurd live.1 plain') (exact.counted ip typed) ?_ ?_ ?_ ?_
    fun dir => absurd dir plain'⟩
  · rw [kids] at mem
    exact exact.fill_proper live proper mem used
  · rw [new, at_ip, toNat_add_one room]
    omega
  · rw [at_dp, upward_zero fun live => plain live.1, upward_zero fun live => plain' live.1]
  · rw [at_ip, toNat_add_one room]
    omega
  · rw [at_dp]
    exact exact.few dp live.typed

end

/-- A live directory has a name, unless it is the root. -/
theorem rooted (live : LiveDir v d) : 1 ≤ named n v d + if d = rootino then 1 else 0 := by
  by_cases root : d = rootino
  · rw [if_pos root]
    omega
  · obtain ⟨parent, below⟩ := exact.up d live
    obtain ⟨de, mem, eq⟩ := below root
    have pos := naming_pos parent mem
    have le : naming v (parentOf v d) d ≤ named n v d :=
      naming_le_named (exact.live_bound parent)
    rw [eq] at pos
    omega

/-- A directory is named in its parent only. -/
theorem parent_eq (live : LiveDir v dp) (mem : ⟨x, name⟩ ∈ children v dp) (dir : LiveDir v x) :
    parentOf v x = dp ∧ x ≠ rootino ∧ named n v x = 1 := by
  have here : 0 < naming v dp x := naming_pos live mem
  have le : naming v dp x ≤ named n v x := naming_le_named (exact.live_bound live)
  have once := exact.once x dir.1
  have below : x ≠ rootino := by
    intro eq
    rw [if_pos eq] at once
    omega
  refine ⟨?_, below, by omega⟩
  obtain ⟨parent, above⟩ := exact.up x dir
  obtain ⟨de, mem', eq⟩ := above below
  have there := naming_pos parent mem'
  rw [eq] at there
  by_contra ne
  have two : naming v (parentOf v x) x + naming v dp x ≤ named n v x := by
    rw [← sum_pair (f := fun d => naming v d x) ne]
    refine sum_le_sum_of_subset fun d mem => mem_range.2 ?_
    rcases mem_insert.1 mem with rfl | mem
    · exact exact.live_bound parent
    · rw [mem_singleton.1 mem]
      exact exact.live_bound live
  omega

/-- A directory without entries has no directories below it. -/
theorem subdirs_leaf (leaf : Leaf v dp x) : subdirs n v x = 0 := by
  refine sum_eq_zero fun d _ => if_neg fun ⟨live, below, eq⟩ => ?_
  obtain ⟨de, mem, named⟩ := (exact.up d live).2 below
  rw [eq] at mem
  have := (exact.bound d live.typed).1
  have := leaf.empty de mem
  omega

section

variable (live : LiveDir v dp) (not_dot : name ≠ dot) (not_dotdot : name ≠ dotdot)
  (found : findEntry name 0 (v dp).entries = some (slot, ip))
include live not_dot not_dotdot found

/-- A name other than `.` and `..` is found after these two. -/
theorem found_child : ∃ k, slot = k + 2 ∧ (children v dp)[k]? = some ⟨ip, name⟩ ∧ ip ≠ 0 := by
  obtain ⟨j, rfl, at_j, nonzero⟩ := findEntry_some found
  rw [exact.entries live.1] at at_j
  match j with
  | 0 => exact absurd (congrArg Dirent.name (Option.some.inj at_j)) (Ne.symm not_dot)
  | 1 => exact absurd (congrArg Dirent.name (Option.some.inj at_j)) (Ne.symm not_dotdot)
  | k + 2 => exact ⟨k, by omega, by simpa using at_j, nonzero⟩

theorem unlinked (ne : ip ≠ dp)
    (empty : (v ip).type = some .dir → isdirempty (v ip).entries = true) :
    Edit v (unlinked v dp slot ip) dp ip ∧ Exact n (unlinked v dp slot ip) := by
  obtain ⟨k, rfl, at_k, nonzero⟩ := exact.found_child live not_dot not_dotdot found
  have mem := List.mem_of_getElem? at_k
  have typed := exact.child dp live _ mem nonzero
  have has_link : (v ip).nlink ≠ 0 := exact.child_linked live mem nonzero
  obtain ⟨low, high⟩ := exact.bound ip typed
  set v' := Names.unlinked v dp (k + 2) ip with def_v'
  have at_ip : v' ip = ⟨(v ip).type, (v ip).nlink + -1, (v ip).entries⟩ := by
    by_cases dir : (v ip).type = some .dir <;>
      simp [def_v', Names.unlinked, addLinks, clear, dir, ne]
  have at_dp : v' dp = ⟨(v dp).type, (v dp).nlink + (if (v ip).type = some .dir then -1 else 0),
      put (k + 2) ⟨0, []⟩ (v dp).entries⟩ := by
    by_cases dir : (v ip).type = some .dir <;>
      simp [def_v', Names.unlinked, addLinks, clear, dir, Ne.symm ne]
  have others (i : Nat) (other : i ≠ ip) (i_ne : i ≠ dp) : v' i = v i := by
    by_cases dir : (v ip).type = some .dir <;>
      simp [def_v', Names.unlinked, addLinks, clear, dir, other, i_ne]
  have entries : (v' dp).entries = ⟨dp, dot⟩ :: ⟨parentOf v dp, dotdot⟩ ::
      put k ⟨0, []⟩ (children v dp) := by
    rw [at_dp, exact.entries live.1]
    simp only [put_succ]
  have kids : children v' dp = put k ⟨0, []⟩ (children v dp) := by
    rw [children, entries]
    rfl
  have nlink_ip : (v' ip).nlink.toNat + 1 = (v ip).nlink.toNat := by
    rw [at_ip]
    exact toNat_sub_one has_link
  -- a directory that is removed loses its only link
  have leaf (dir : (v ip).type = some .dir) : Leaf v dp ip := by
    obtain ⟨parent, below, -⟩ := exact.parent_eq live mem ⟨dir, has_link⟩
    exact
      { below := below
        entries := by
          rw [← parent]
          exact exact.entries dir
        empty := fun de mem => by
          have all := empty dir
          rw [isdirempty, List.all_eq_true] at all
          exact of_decide_eq_true (all de mem) }
  have dead (dir : (v ip).type = some .dir) : (v' ip).nlink = 0 := by
    obtain ⟨-, below, once⟩ := exact.parent_eq live mem ⟨dir, has_link⟩
    have counted := exact.counted ip typed
    rw [links, once, exact.subdirs_leaf (leaf dir), if_neg below] at counted
    exact eq_of_toNat_eq (by simpa using (by omega : (v' ip).nlink.toNat = 0))
  have not_live : ¬LiveDir v' ip := fun live => live.2 (dead (by simpa [at_ip] using live.1))
  have up : upward v ip dp = if (v ip).type = some .dir then 1 else 0 := by
    by_cases dir : (v ip).type = some .dir
    · rw [upward, if_pos ⟨⟨dir, has_link⟩, (leaf dir).below, (leaf dir).parent⟩, if_pos dir]
    · rw [upward_zero fun live => dir live.1, if_neg dir]
  have nlink_dp : (v' dp).nlink.toNat + (if (v ip).type = some .dir then 1 else 0) =
      (v dp).nlink.toNat := by
    rw [at_dp]
    by_cases dir : (v ip).type = some .dir
    · simp only [dir, if_true]
      exact toNat_sub_one live.2
    · simp [dir]
  have live' : LiveDir v' dp := by
    refine ⟨by rw [at_dp]; exact live.1, fun none => ?_⟩
    have counted := exact.counted dp live.typed
    have rooted := exact.rooted live
    have below : upward v ip dp ≤ subdirs n v dp := upward_le_subdirs high
    rw [none] at nlink_dp
    simp only [ofNat_eq_ofNat, toNat_ofNat, Nat.zero_mod] at nlink_dp
    rw [links] at counted
    omega
  have count (i : Nat) (i_nonzero : i ≠ 0) :=
    countP_clear (i := i) i_nonzero at_k
  have lost : naming v' dp ip + 1 = naming v dp ip := by
    rw [naming, naming, if_pos live, if_pos live', kids]
    simpa using count ip nonzero
  have edit : Edit v v' dp ip :=
    { ne := ne
      live := live
      live' := live'
      others := others
      dots := by rw [kids, entries]
      count := fun i i_nonzero other => by
        rw [kids]
        simpa [Ne.symm other] using count i i_nonzero
      before := fun live => leaf live.1
      after := fun dir => by
        have dir : (v ip).type = some .dir := by simpa [at_ip] using dir
        have same : (v' ip).entries = (v ip).entries := by rw [at_ip]
        have kids : children v' ip = children v ip := by rw [children, children, same]
        exact
          { below := (leaf dir).below
            entries := by
              rw [same, kids]
              exact (leaf dir).entries
            empty := by
              rw [kids]
              exact (leaf dir).empty } }
  have few := exact.few ip typed
  have few_dp := exact.few dp live.typed
  refine ⟨edit, exact.edit edit low high (fun de mem used => ?_) (by rw [at_ip]; exact typed)
    (fun live => absurd live not_live) (exact.counted ip typed) (by omega) ?_ (by omega)
    (by omega) fun dir => ?_⟩
  · rw [kids] at mem
    rcases mem_put mem with rfl | old
    · exact absurd rfl used
    · exact exact.proper dp live.1 de old used
  · rw [up, upward_zero not_live]
    exact nlink_dp
  · have named := edit.named_self (exact.live_bound live) (by omega)
    have once := exact.once ip (by simpa [at_ip] using dir)
    omega

end

end

end Exact

end Xv6.Names
