import Xv6.Names.Image
import Xv6.Names.Tree

/-!
# Link counts along runs

Every call keeps the name space exact, unless it enters a name in a directory that has been
removed or adds a link to an inode that has 32767 of them.  Both can happen: a removed directory
stays usable as a current directory, and what is made in it keeps its link when the directory
is freed; and the sixteen bits of a link count run over.
-/

namespace Xv6.Names

open Program Transitions State Finset

variable {P : Type} [DecidableEq P] {lost : Set Nat} {d : Disk} {s t : State P} {init p : P}
  {call : Call P} {calls : List (P × Call P)} {v : Nat → Node} {i n dir : Nat} {path : List UInt8}

/-- The path at which a call makes an entry. -/
def Call.target : Call P → Option (List UInt8)
  | .open (some path) omode => if omode &&& oCreate ≠ 0 then some path else none
  | .mkdir (some path) | .mknod (some path) _ _ | .link _ (some path) => some path
  | _ => none

/-- The path of the inode, or with `true` of the directory, to which a call adds a link. -/
def Call.grows : Call P → Option (List UInt8 × Bool)
  | .link (some old) _ => some (old, false)
  | .mkdir (some path) => some (path, true)
  | _ => none

/-- The directory in which the call makes an entry has not been removed. -/
def State.InTree (s : State P) (p : P) (call : Call P) : Prop :=
  ∀ path ∈ call.target, ∀ r ∈ s.resolve p path true, (s.disk.node r.1).nlink ≠ 0

/-- The call adds a link only where the count has room for it. -/
def State.NoOverflow (s : State P) (p : P) (call : Call P) : Prop :=
  ∀ g ∈ call.grows, ∀ r ∈ s.resolve p g.1 g.2, (s.disk.node r.1).nlink ≠ 32767

instance : Decidable (s.InTree p call) :=
  inferInstanceAs (Decidable (∀ path ∈ call.target, ∀ r ∈ s.resolve p path true, _))

instance : Decidable (s.NoOverflow p call) :=
  inferInstanceAs (Decidable (∀ g ∈ call.grows, ∀ r ∈ s.resolve p g.1 g.2, _))

omit [DecidableEq P] in
theorem Call.target_of_makes {kind : Kind} (makes : call.makes = some (path, kind)) :
    call.target = some path := by
  unfold Call.makes at makes
  split at makes
  · next path' omode =>
      by_cases creating : omode &&& oCreate ≠ 0
      · rw [if_pos creating] at makes
        cases makes
        exact if_pos creating
      · rw [if_neg creating] at makes
        cases makes
  · cases makes
    rfl
  · cases makes
    rfl
  · cases makes

omit [DecidableEq P] in
theorem Call.grows_of_makes (makes : call.makes = some (path, .dir)) :
    call.grows = some (path, true) := by
  unfold Call.makes at makes
  split at makes
  · split at makes
    · cases makes
    · cases makes
  · cases makes
    rfl
  · cases makes
  · cases makes

/-- A link count that is not at its limit is below it. -/
theorem Exact.below (exact : Exact n v) (typed : (v i).type ≠ none) (room : (v i).nlink ≠ 32767) :
    (v i).nlink.toNat < 32767 := by
  refine lt_of_le_of_ne (exact.few i typed) fun eq => room (BitVec.eq_of_toNat_eq ?_)
  rw [eq]
  rfl

/-- A removed directory has no names to remove. -/
theorem Exact.found_live {dp slot ip : Nat} {name : Name} (exact : Exact n v)
    (dir : (v dp).type = some .dir) (not_dot : name ≠ dot) (not_dotdot : name ≠ dotdot)
    (found : findEntry name 0 (v dp).entries = some (slot, ip)) : LiveDir v dp := by
  refine ⟨dir, fun removed => ?_⟩
  obtain ⟨mem, nonzero⟩ := findEntry_mem found
  rw [exact.entries dir, List.mem_cons, List.mem_cons] at mem
  rcases mem with self | up | child
  · exact not_dot (congrArg Dirent.name self)
  · exact not_dotdot (congrArg Dirent.name up)
  · exact nonzero (exact.removed dp dir removed _ child)

section runs

variable [Fintype P]

omit [DecidableEq P] in
/-- A change keeps the name space exact, and a live directory live unless it is removed. -/
theorem Change.exact (exact : Exact s.disk.ninodes s.disk.node) (sane : Sane lost s [] [])
    (change : Change s p call v) (tree : s.InTree p call) (room : s.NoOverflow p call) :
    Exact s.disk.ninodes v ∧ ∀ dir, LiveDir s.disk.node dir → LiveDir v dir ∨
      ∃ path, call = .unlink (some path) ∧ ∃ r ∈ s.resolve p path true,
        ∃ slot, findEntry r.2 0 (s.disk.node r.1).entries = some (slot, dir) := by
  cases change with
  | same => exact ⟨exact, fun _ live => .inl live⟩
  | @create _ path kind dp x name makes found absent free =>
    have dir := resolve_dir found
    have live := tree _ (Call.target_of_makes makes) _ found
    have fits (directory : kind = .dir) : (s.disk.node dp).nlink.toNat < 32767 := by
      subst directory
      exact exact.below (by rw [dir]; simp) (room _ (Call.grows_of_makes makes) _ found)
    obtain ⟨unused, low, high⟩ := Disk.freeInode_some free
    obtain ⟨edit, exact'⟩ :=
      exact.created ⟨dir, live⟩ absent (sane.blank _ unused) low high fits
    refine ⟨exact', fun dir live => .inl ((edit.live_iff ?_).2 live)⟩
    rintro rfl
    exact live.typed unused
  | link source typed plain found absent =>
    have live := tree _ rfl _ found
    obtain ⟨edit, exact'⟩ := exact.linked ⟨resolve_dir found, live⟩ absent typed plain
      (exact.below typed (room _ rfl _ source))
    refine ⟨exact', fun dir live => .inl ((edit.live_iff ?_).2 live)⟩
    rintro rfl
    exact plain live.1
  | @unlink path dp ip slot name found not_dot not_dotdot entry ne linked empty =>
    have live := exact.found_live (resolve_dir found) not_dot not_dotdot entry
    obtain ⟨edit, exact'⟩ := exact.unlinked live not_dot not_dotdot entry ne empty
    refine ⟨exact', fun dir live => ?_⟩
    by_cases removed : dir = ip
    · subst removed
      exact .inr ⟨_, rfl, _, found, _, entry⟩
    · exact .inl ((edit.live_iff removed).2 live)

omit [DecidableEq P] in
/-- A call keeps the name space exact. -/
theorem Performed.exact {r : Int} (done : Performed lost s p call r t)
    (exact : Exact s.disk.ninodes s.disk.node) (sane : Sane lost s [] []) (tree : s.InTree p call)
    (room : s.NoOverflow p call) : Exact t.disk.ninodes t.disk.node := by
  obtain ⟨v, change, frees⟩ := done.names
  rw [done.ninodes]
  exact (change.exact exact sane tree room).1.frees frees

/-- The names and counts of a state that calls lead to. -/
structure Sound (s : State P) : Prop where
  sane : Sane ∅ s [] []
  exact : Exact s.disk.ninodes s.disk.node

theorem step_sound (sound : Sound s) (step : s.step (p, call) = some t)
    (tree : s.InTree p call) (room : s.NoOverflow p call) : Sound t := by
  obtain ⟨can, r, ok⟩ := step_ok step
  have done := perform_ok sound.sane can ok
  exact ⟨done.sane, done.exact sound.exact sound.sane tree room⟩

theorem boot_sound (image : Image ∅ d) (exact : Exact d.ninodes d.node) :
    Sound (boot d init) := ⟨boot_sane image, exact⟩

end runs

/-! ## Counting entries -/

/-- The entries that name an inode in the allocated directories, without the entries `.` and
the `..` of the root, and one more for the root. -/
def Disk.nameCount (d : Disk) (i : Nat) : Nat :=
  (∑ dir ∈ Finset.range d.ninodes, if (d.node dir).type = some .dir then
    (d.node dir).entries.countP (fun de =>
      de.inum = i ∧ de.name ≠ dot ∧ ¬(dir = rootino ∧ de.name = dotdot)) else 0) +
  if i = rootino then 1 else 0

/-- The entries of a directory that count. -/
theorem Exact.countP_entries (exact : Exact n v) (live : LiveDir v dir) (nonzero : i ≠ 0) :
    (v dir).entries.countP (fun de =>
      de.inum = i ∧ de.name ≠ dot ∧ ¬(dir = rootino ∧ de.name = dotdot)) =
      naming v dir i + upward v dir i := by
  have child : (children v dir).countP (fun de =>
      decide (de.inum = i ∧ de.name ≠ dot ∧ ¬(dir = rootino ∧ de.name = dotdot))) =
      (children v dir).countP (fun de => de.inum = i) := by
    refine List.countP_congr fun de mem => ?_
    rw [decide_eq_true_eq, decide_eq_true_eq]
    refine ⟨fun counts => counts.1, fun eq => ?_⟩
    obtain ⟨not_dot, not_dotdot⟩ := exact.proper dir live.1 de mem (by rw [eq]; exact nonzero)
    exact ⟨eq, not_dot, fun up => not_dotdot up.2⟩
  rw [exact.entries live.1, List.countP_cons, List.countP_cons, child, naming, if_pos live, upward]
  by_cases root : dir = rootino
  · simp [root]
  · by_cases up : parentOf v dir = i
    · simp [root, up, live, dot, dotdot]
    · simp [root, up]

theorem Exact.links_le (exact : Exact d.ninodes d.node) (nonzero : i ≠ 0) :
    links d.ninodes d.node i ≤ d.nameCount i := by
  rw [links, named, subdirs, ← sum_add_distrib, Disk.nameCount]
  refine Nat.add_le_add_right (sum_le_sum fun dir _ => ?_) _
  by_cases live : LiveDir d.node dir
  · rw [if_pos live.1, exact.countP_entries live nonzero]
  · rw [naming_zero live, upward_zero live]
    exact Nat.zero_le _

theorem Exact.links_eq (exact : Exact d.ninodes d.node) (nonzero : i ≠ 0)
    (live : ∀ dir, (d.node dir).type = some .dir → (d.node dir).nlink ≠ 0) :
    links d.ninodes d.node i = d.nameCount i := by
  rw [links, named, subdirs, ← sum_add_distrib, Disk.nameCount]
  congr 1
  refine sum_congr rfl fun dir _ => ?_
  by_cases type : (d.node dir).type = some .dir
  · rw [if_pos type, exact.countP_entries ⟨type, live dir type⟩ nonzero]
  · rw [if_neg type, naming_zero fun live => type live.1, upward_zero fun live => type live.1]

theorem Exact.toInt_eq (exact : Exact n v) (typed : (v i).type ≠ none) :
    (v i).nlink.toInt = (v i).nlink.toNat := by
  have := exact.few i typed
  rw [BitVec.toInt_eq_toNat_cond, if_pos (by omega)]

/-- What a live directory names has a link, and a removed one names nothing. -/
theorem Exact.entry_linked {de : Dirent} (exact : Exact n v) (type : (v dir).type = some .dir)
    (mem : de ∈ (v dir).entries) (used : de.inum ≠ 0) (not_dot : de.name ≠ dot)
    (not_dotdot : de.name ≠ dotdot) : 1 ≤ (v de.inum).nlink.toInt := by
  rw [exact.entries type, List.mem_cons, List.mem_cons] at mem
  rcases mem with self | up | child
  · exact absurd (congrArg Dirent.name self) not_dot
  · exact absurd (congrArg Dirent.name up) not_dotdot
  · have live : LiveDir v dir :=
      ⟨type, fun removed => used (exact.removed dir type removed de child)⟩
    have linked := exact.child_linked live child used
    rw [exact.toInt_eq (exact.child dir live de child used)]
    have : (v de.inum).nlink.toNat ≠ 0 :=
      fun zero => linked (BitVec.eq_of_toNat_eq (by simpa using zero))
    omega

/-! ## The image that `mkfs` builds -/

section image

variable {ninodes free : Nat} {names : List Name}

/-- The entries that `mkfs` makes for files numbered from `k`. -/
theorem countP_zipIdx (k : Nat) :
    ((names.zipIdx k).map fun file => (⟨file.2, file.1⟩ : Dirent)).countP (fun de => de.inum = i) =
      if k ≤ i ∧ i < k + names.length then 1 else 0 := by
  induction names generalizing k with
  | nil =>
    rw [if_neg (by simp)]
    rfl
  | cons name names ih =>
    rw [List.zipIdx_cons, List.map_cons, List.countP_cons, ih]
    by_cases eq : k = i
    · subst eq
      rw [if_neg (by omega), if_pos (by simp), if_pos (by simp)]
    · have : (k + 1 ≤ i ∧ i < k + 1 + names.length) ↔
          (k ≤ i ∧ i < k + (name :: names).length) := by
        simp only [List.length_cons]
        omega
      simp only [this, eq, decide_false, Bool.false_eq_true, if_false, Nat.add_zero]

theorem mkfs_children : children (mkfs ninodes free names).node rootino =
    ((names.zipIdx (rootino + 1)).map fun file => ⟨file.2, file.1⟩) ++
      List.replicate (64 - (names.length + 2) % 64) ⟨0, []⟩ := by
  rw [children, mkfs_node, if_pos rfl]
  simp [rootEntries]

theorem mkfs_liveDir : LiveDir (mkfs ninodes free names).node dir ↔ dir = rootino := by
  rw [LiveDir, mkfs_node]
  by_cases root : dir = rootino
  · simp [root]
  · rw [if_neg root]
    split
    · simp [root]
    · simp [root]

theorem mkfs_naming (nonzero : i ≠ 0) : naming (mkfs ninodes free names).node rootino i =
    if rootino < i ∧ i ≤ rootino + names.length then 1 else 0 := by
  have none : (List.replicate (64 - (names.length + 2) % 64) (⟨0, []⟩ : Dirent)).countP
      (fun de => de.inum = i) = 0 := by
    rw [List.countP_replicate, if_neg (by simpa using Ne.symm nonzero)]
  rw [naming, if_pos (mkfs_liveDir.2 rfl), mkfs_children, List.countP_append, countP_zipIdx, none,
    Nat.add_zero]
  have : (rootino + 1 ≤ i ∧ i < rootino + 1 + names.length) ↔
      (rootino < i ∧ i ≤ rootino + names.length) := by
    omega
  simp only [this]

/-- The image that `mkfs` builds is exact. -/
theorem mkfs_exact (fit : rootino + names.length < ninodes)
    (proper : ∀ name ∈ names, name ≠ dot ∧ name ≠ dotdot) :
    Exact ninodes (mkfs ninodes free names).node := by
  set v := (mkfs ninodes free names).node with def_v
  have in_range : rootino ∈ range ninodes := mem_range.2 (by omega)
  have live (dir : Nat) : LiveDir v dir ↔ dir = rootino := mkfs_liveDir
  have dir_root {dir : Nat} (type : (v dir).type = some .dir) : dir = rootino := by
    rw [def_v, mkfs_node] at type
    by_contra other
    rw [if_neg other] at type
    split at type
    · cases type
    · cases type
  have typed {j : Nat} (used : (v j).type ≠ none) :
      j = rootino ∨ rootino < j ∧ j ≤ rootino + names.length := by
    rw [def_v, mkfs_node] at used
    by_contra other
    push Not at other
    rw [if_neg other.1, if_neg (by omega)] at used
    exact used rfl
  have at_root : v rootino = ⟨some .dir, 1, rootEntries names⟩ := by
    rw [def_v, mkfs_node, if_pos rfl]
  have entries : (v rootino).entries =
      ⟨rootino, dot⟩ :: ⟨rootino, dotdot⟩ :: children v rootino := by
    rw [children, at_root]
    rfl
  have top : parentOf v rootino = rootino := by simp [parentOf, entries]
  have named_eq {j : Nat} (nonzero : j ≠ 0) :
      named ninodes v j = if rootino < j ∧ j ≤ rootino + names.length then 1 else 0 := by
    rw [named, sum_eq_single_of_mem rootino in_range fun dir _ other =>
      naming_zero fun here => other ((live dir).1 here)]
    exact mkfs_naming nonzero
  have subdirs_eq {j : Nat} : subdirs ninodes v j = 0 :=
    sum_eq_zero fun dir _ => if_neg fun up => up.2.1 ((live dir).1 up.1)
  have nlink {j : Nat} (used : (v j).type ≠ none) : (v j).nlink = 1 := by
    rw [def_v, mkfs_node]
    rcases typed used with rfl | file
    · rw [if_pos rfl]
    · rw [if_neg (by omega), if_pos file]
  -- the entries of the root are those of the files and empty slots
  have child {de : Dirent} (mem : de ∈ children v rootino) (used : de.inum ≠ 0) :
      (rootino < de.inum ∧ de.inum ≤ rootino + names.length) ∧ de.name ∈ names := by
    rw [def_v, mkfs_children, List.mem_append] at mem
    rcases mem with file | empty
    · obtain ⟨⟨name, j⟩, at_j, rfl⟩ := List.mem_map.1 file
      obtain ⟨low, high, eq⟩ := List.mem_zipIdx at_j
      exact ⟨⟨low, show j ≤ _ by omega⟩, by rw [eq]; exact List.getElem_mem _⟩
    · rw [List.eq_of_mem_replicate empty] at used
      exact absurd rfl used
  exact
    { bound := fun j used => by
        rcases typed used with rfl | file
        · exact ⟨le_rfl, by omega⟩
        · exact ⟨by omega, by omega⟩
      root := (live rootino).2 rfl
      top := top
      dots := fun dir type => by
        obtain rfl := dir_root type
        exact ⟨rootino, entries⟩
      proper := fun dir type de mem used => by
        obtain rfl := dir_root type
        exact proper _ (child mem used).2
      removed := fun dir type none => by
        obtain rfl := dir_root type
        exact absurd none ((live rootino).2 rfl).2
      child := fun dir here de mem used => by
        obtain rfl := (live dir).1 here
        have file := (child mem used).1
        rw [def_v, mkfs_node, if_neg (by omega), if_pos file]
        simp
      up := fun dir here => by
        obtain rfl := (live dir).1 here
        rw [top]
        exact ⟨here, fun other => absurd rfl other⟩
      counted := fun j used => by
        have pos : j ≠ 0 := by
          rcases typed used with rfl | file
          · decide
          · omega
        rw [links, named_eq pos, subdirs_eq, nlink used]
        rcases typed used with rfl | file
        · simp
        · rw [if_pos file, if_neg (by omega)]
          rfl
      few := fun j used => by
        rw [nlink used]
        decide
      once := fun dir type => by
        obtain rfl := dir_root type
        rw [named_eq (by decide)]
        simp }

end image

section runs

variable [Fintype P]

/-- No process is in a removed directory or has one open. -/
def State.LeftRemoved (s : State P) : Prop :=
  ∀ dir, (s.disk.node dir).type = some .dir → 0 < s.cwds dir + s.opens dir →
    (s.disk.node dir).nlink ≠ 0

omit [DecidableEq P] in
/-- Between calls an inode without links is held by a process or free. -/
theorem Sound.held (sound : Sound s) (typed : (s.disk.node i).type ≠ none)
    (unlinked : (s.disk.node i).nlink = 0) : 0 < s.cwds i + s.opens i := by
  have pos := (sound.sane.kept i id typed unlinked).1
  rw [sound.sane.counted] at pos
  simpa using pos

theorem Sound.unlink_safe (sound : Sound s) (can : s.CanCall p call) :
    perform p call s ≠ .error "unlink: nlink < 1" := by
  intro panics
  have running := canCall_running can
  have safe : Safe (· ≠ "unlink: nlink < 1") ∅ (fun _ => True) s p :=
    { walk := ⟨fun _ _ => .inr (by decide), fun _ _ => id, fun _ _ _ _ _ => trivial⟩
      root := trivial
      here := trivial
      running := running
      links := .inr fun dir _ type de mem used not_dot not_dotdot =>
        sound.exact.entry_linked type mem used not_dot not_dotdot
      deadlock := by decide
      writei := by decide
      exiting := by decide }
  exact of_error (wp_perform sound.sane can safe (.inr (by decide))) panics rfl

/-- Runs whose calls make entries only in directories that are not removed, and add links only
where the count has room for them. -/
def Careful (s : State P) (calls : List (P × Call P)) : Prop :=
  Meets step (fun s l => s.InTree l.1 l.2 ∧ s.NoOverflow l.1 l.2) s calls

theorem run_sound (image : Image ∅ d) (exact : Exact d.ninodes d.node)
    (careful : Careful (boot d init) calls)
    (run : exec step (boot d init) calls = some s) : Sound s :=
  run_meets_invariant Sound (fun _ _ _ sound cond step => step_sound sound step cond.1 cond.2)
    (boot_sound image exact) careful run

/-- In a careful run the link counts are the numbers of names, they are never negative, `unlink`
does not panic, and an inode without a name and without a reference is free. -/
theorem link_counts (image : Image ∅ d) (exact : Exact d.ninodes d.node)
    (careful : Careful (boot d init) calls)
    (run : exec step (boot d init) calls = some s) :
    (s.LeftRemoved → ∀ i, (s.disk.node i).type ≠ none →
      (s.disk.node i).nlink.toNat = s.disk.nameCount i) ∧
    (∀ i, (s.disk.node i).type ≠ none → 0 ≤ (s.disk.node i).nlink.toInt) ∧
    (∀ p call, s.CanCall p call → perform p call s ≠ .error "unlink: nlink < 1") ∧
    ∀ i, s.disk.nameCount i = 0 → s.cwds i + s.opens i = 0 → (s.disk.node i).type = none := by
  have sound := run_sound image exact careful run
  refine ⟨fun left i typed => ?_, fun i typed => ?_, fun p call can => sound.unlink_safe can,
    fun i unnamed unheld => ?_⟩
  · have low := (sound.exact.bound i typed).1
    rw [sound.exact.counted i typed, sound.exact.links_eq (by omega)]
    intro dir type removed
    exact left dir type (sound.held (by rw [type]; simp) removed) removed
  · rw [sound.exact.toInt_eq typed]
    omega
  · by_contra typed
    have low := (sound.exact.bound i typed).1
    have le := sound.exact.links_le (i := i) (by omega)
    rw [← sound.exact.counted i typed, unnamed] at le
    have zero : (s.disk.node i).nlink = 0 :=
      BitVec.eq_of_toNat_eq (by simpa using Nat.le_zero.1 le)
    have := sound.held typed zero
    omega

/-- The first process makes a directory, goes there and makes a file. -/
def makeInside (p : P) : List (P × Call P) :=
  [(p, .mkdir (some [97])), (p, .chdir (some [97])), (p, .open (some [98]) oCreate)]

/-- The same in a directory that it removes first, and which it leaves in the end. -/
def makeInRemoved (p : P) : List (P × Call P) :=
  [(p, .mkdir (some [97])), (p, .chdir (some [97])), (p, .unlink (some [47, 97])),
    (p, .open (some [98]) oCreate), (p, .close 0), (p, .chdir (some [47]))]

end runs

theorem mkfs_empty : Image ∅ (mkfs 200 1000 []) ∧ Exact 200 (mkfs 200 1000 []).node :=
  ⟨mkfs_image (by decide), mkfs_exact (by decide) (by simp)⟩

theorem link_counts_inside : ∃ s : State (Fin 1),
    exec step (boot (mkfs 200 1000 []) 0) (makeInside 0) = some s ∧
    (s.disk.node 3).type = some .file ∧ (s.disk.node 3).nlink.toNat = s.disk.nameCount 3 := by
  obtain ⟨image, exact⟩ := mkfs_empty
  have careful : Careful (boot (mkfs 200 1000 []) (0 : Fin 1)) (makeInside 0) := by
    unfold Careful
    decide +kernel
  refine exists_exec (fun s => (s.disk.node 3).type = some .file ∧ s.disk.ninodes = 200 ∧
    ∀ dir < 200, (s.disk.node dir).type = some .dir → (s.disk.node dir).nlink ≠ 0)
    (by decide +kernel) fun s run ⟨file, ninodes, linked⟩ => ⟨file, ?_⟩
  have left : s.LeftRemoved := fun dir type _ => by
    have bound := (run_sound image exact careful run).exact.bound dir (by rw [type]; simp)
    exact linked dir (by omega) type
  exact (link_counts image exact careful run).1 left 3 (by rw [file]; simp)

/-- The file made in the removed directory is allocated and has a link, but no entry names it and
no process has it open. -/
theorem removed_directory_strands : ∃ s : State (Fin 1),
    exec step (boot (mkfs 200 1000 []) 0) (makeInRemoved 0) = some s ∧
    s.LeftRemoved ∧ s.disk.node 3 = ⟨some .file, 1, []⟩ ∧ s.disk.nameCount 3 = 0 ∧
    s.cwds 3 + s.opens 3 = 0 := by
  refine exists_exec (fun s => s.disk.node 3 = ⟨some .file, 1, []⟩ ∧ s.disk.nameCount 3 = 0 ∧
    s.cwds 3 + s.opens 3 = 0 ∧ s.itable = [rootino] ∧ (s.disk.node rootino).nlink ≠ 0)
    (by decide +kernel) fun s run ⟨file, unnamed, unheld, table, root⟩ =>
      ⟨fun dir _ held => ?_, file, unnamed, unheld⟩
  have sane := run_sane (mkfs_image (by decide)) run
  have listed := (sane.listed dir).2 (by rw [sane.counted]; omega)
  rw [table, List.mem_singleton] at listed
  rw [listed]
  exact root

end Xv6.Names
