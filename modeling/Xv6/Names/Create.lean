import Xv6.Names.Updates

/-!
# Making a name

`create` looks up the directory of a path, takes a free inode, and enters it in the directory.
When it runs out of inodes or blocks on the way it gives back what it has taken, and the name
space is what it was.
-/

namespace Xv6.Names

open Program Function Disk

variable {P : Type} {F : String → Prop} {lost : Set Nat} {s t u : State P} {d d' : Disk}
  {l l' : List Nat} {m : List (Fin nfile)} {p : P} {i dp ip x : Nat} {name last : Name}
  {parent : Bool} {path : List UInt8} {good : Nat → Prop} {kind : Kind} {names : List Name}
  {v : Nat → Node} {major minor : BitVec 16}

/-! ## The name space -/

/-- The name space with one more entry in a directory. -/
def enter (v : Nat → Node) (dp : Nat) (name : Name) (i : Nat) : Nat → Node :=
  Function.update v dp ⟨(v dp).type, (v dp).nlink,
    Disk.put (emptySlot (v dp).entries) ⟨i, name⟩ (v dp).entries⟩

/-- The name space with another link count. -/
def addLinks (v : Nat → Node) (i : Nat) (n : BitVec 16) : Nat → Node :=
  Function.update v i ⟨(v i).type, (v i).nlink + n, (v i).entries⟩

/-- The name space with a new inode, to be entered in a directory. -/
def make (v : Nat → Node) (x dp : Nat) (kind : Kind) : Nat → Node :=
  Function.update v x
    ⟨some kind, 1, if kind = .dir then [⟨x, dot⟩, ⟨dp, dotdot⟩] else []⟩

/-- The name space after `create`. -/
def created (v : Nat → Node) (x dp : Nat) (kind : Kind) (name : Name) : Nat → Node :=
  let v := enter (make v x dp kind) dp name x
  if kind = .dir then addLinks v dp 1 else v

/-! ## Lookup -/

theorem resolveFrom_dir {d : Disk} (found : resolveFrom d true ip names last = some (i, name)) :
    (d.node i).type = some .dir := by
  induction names generalizing ip last with
  | nil => simp [resolveFrom] at found
  | cons e rest ih =>
    rw [resolveFrom] at found
    split at found
    · next dir =>
        split at found
        · cases found
          exact dir
        · split at found
          · cases found
          · exact ih found
    · cases found

theorem resolve_dir (found : s.resolve p path true = some (i, name)) :
    (s.disk.node i).type = some .dir := resolveFrom_dir found

/-- Lookup depends on types and entries only. -/
theorem resolveFrom_congr {d : Disk}
    (same : ∀ i, (d'.node i).type = (d.node i).type ∧ (d'.node i).entries = (d.node i).entries) :
    resolveFrom d' parent i names last = resolveFrom d parent i names last := by
  induction names generalizing i last with
  | nil => rfl
  | cons e rest ih => simp only [resolveFrom, (same i).1, (same i).2, ih]

theorem Walkable.congr {d : Disk} (walk : Walkable F lost d good)
    (same : ∀ i, (d'.node i).type = (d.node i).type ∧ (d'.node i).entries = (d.node i).entries) :
    Walkable F lost d' good where
  alive i h := by
    rw [(same i).1]
    exact walk.alive i h
  avoids := walk.avoids
  entry i h := by
    rw [(same i).2]
    exact walk.entry i h

/-- The path makes a new file: its directory exists and has no such name, and an inode and room
for the entry are free. -/
def State.creates (s : State P) (p : P) (path : List UInt8) : Bool :=
  match s.resolve p path true with
  | none => false
  | some (dp, name) =>
    (findEntry name 0 (s.disk.node dp).entries).isNone && s.disk.freeInode.isSome &&
      s.disk.fits dp (emptySlot (s.disk.node dp).entries)

/-! ## Entries -/

/-- Entering a name that the directory does not have. -/
theorem wp_dirlink {Q : Int → State P → Prop} (hold : Holding s l t)
    (dir : (s.disk.node dp).type = some .dir)
    (absent : findEntry name 0 (s.disk.node dp).entries = none)
    (done : t.disk.fits dp (emptySlot (s.disk.node dp).entries) = true →
      Q 0 (t.on (t.disk.writei dp (emptySlot (s.disk.node dp).entries) ⟨i, name⟩).2))
    (full : t.disk.fits dp (emptySlot (s.disk.node dp).entries) = false →
      Q (-1) (t.on (t.disk.writei dp (emptySlot (s.disk.node dp).entries) ⟨i, name⟩).2)) :
    wp F (dirlink dp name i) Q t := by
  have entries : (t.disk.inode dp).entries = (s.disk.node dp).entries := by
    rw [← hold.node]
    rfl
  simp only [dirlink, wp_bind]
  refine wp_dirlookup hold dir (fun hit => absurd absent hit) (fun _ => ?_)
    fun slot ip t' hit _ => by rw [absent] at hit; cases hit
  simp only [wp_bind, wp_get, writeDirent, wp_set, wp_pure]
  rw [entries]
  cases room : t.disk.fits dp (emptySlot (s.disk.node dp).entries) with
  | true =>
    rw [if_pos (writei_of_fits _ room).1]
    exact done room
  | false =>
    have few := (writei_of_full ⟨i, name⟩ room).1
    have : ¬(t.disk.writei dp (emptySlot (s.disk.node dp).entries) ⟨i, name⟩).1 =
        (direntSize : Int) := by
      intro eq
      rw [eq] at few
      exact absurd few (by decide)
    rw [if_neg this]
    exact full room

section create

variable [Fintype P] {Q : Option Nat → State P → Prop}

/-- The state after a `create` that gives up. -/
structure GaveUp (lost : Set Nat) (s t : State P) : Prop where
  sane : Sane lost t [] []
  hold : Holding (s.on t.disk) [] t
  node : t.disk.node = s.disk.node
  ninodes : t.disk.ninodes = s.disk.ninodes

/-- The state after a `create` that has entered inode `x` in directory `dp`. -/
structure Made (lost : Set Nat) (s : State P) (x dp : Nat) (kind : Kind) (name : Name)
    (t : State P) : Prop where
  sane : Sane lost t [x] []
  proc : t.proc = s.proc
  ftable : t.ftable = s.ftable
  initproc : t.initproc = s.initproc
  ninodes : t.disk.ninodes = s.disk.ninodes
  frees : Frees (created s.disk.node x dp kind name) t.disk.node

/-- A free inode is not in use. -/
theorem Sane.ref_free (sane : Sane lost s [] m) (free : (s.disk.node x).type = none) :
    s.ref x = 0 := by
  have unheld : ¬0 < s.cwds x + s.opens x := fun pos => sane.held x pos free
  have counted := sane.counted x
  rw [List.count_nil] at counted
  omega

/-- A name the directory has is not entered again. -/
theorem wp_dirlink_taken {Q : Int → State P → Prop} {slot : Nat} (sane : Sane lost s l' m)
    (hold : Holding s l t) (dir : (s.disk.node dp).type = some .dir)
    (taken : findEntry name 0 (s.disk.node dp).entries = some (slot, i)) (out : dp ∉ lost)
    (room : t.itable.length < ninode ∨ F "iget: no inodes")
    (post : ∀ t', Holding s l t' → Q (-1) t') : wp F (dirlink dp name ip) Q t := by
  simp only [dirlink, wp_bind]
  refine wp_dirlookup hold dir (fun _ => room) (fun miss => ?_) fun slot' ip' t' hit hold' => ?_
  · rw [taken] at miss
    cases miss
  · simp only [wp_bind, wp_pure]
    obtain ⟨mem, nonzero⟩ := findEntry_mem hit
    exact wp_iput_found sane (sane.apart dp out _ mem nonzero) hold' post

/-- The label `fail` of `create`: the new inode is freed again. -/
theorem wp_create_fail {n : BitVec 16} {e : List Dirent} (sane : Sane lost s [] [])
    (hold : Holding s [dp] t) (out : dp ∉ lost) (free : (s.disk.node x).type = none) (ne : x ≠ dp)
    (new : Holding (t.on d) [x] u) (valid : u.valid x) (ninodes : d.ninodes = s.disk.ninodes)
    (node : d.node = update s.disk.node x ⟨some kind, n, e⟩)
    (post : ∀ t', GaveUp lost s t' → Q none t') : wp F (do
      modify fun s => s.setNlink x 0
      iput x
      iput dp
      return none) Q u := by
  have idle : t.ref x = 0 := by
    rw [hold.ref, sane.ref_free free]
    simp [Ne.symm ne]
  have last : u.ref x = 1 := by
    have : u.ref x = t.ref x + _ := new.ref x
    rw [this, idle]
    simp
  have disk : u.disk = d := new.disk
  simp only [wp_bind, wp_modify, iput]
  have freed : (u.setNlink x 0).iput x =
      ((u.setNlink x 0).ifree x).unref x :=
    iput_eq_free last valid (by simp [State.setNlink, setNlink_node])
  rw [freed]
  generalize eq : (u.setNlink x 0).ifree x = w
  -- the inode is as it was before `ialloc`
  have restored : w.disk.node = s.disk.node := by
    have : w.disk = (u.disk.setNlink x 0).ifree x := by
      rw [← eq]
      rfl
    rw [this, ifree_node, setNlink_node, disk, node, update_self,
      update_idem, update_idem, update_self]
    exact (congrArg (update s.disk.node x) (sane.blank x free)).symm.trans
      (update_eq_self x _)
  have valid_ne {j : Nat} (ne : j ≠ x) : w.valid j = u.valid j := by
    rw [← eq]
    exact update_of_ne ne ..
  have given : Holding (t.on w.disk) [x] w :=
    { disk := rfl
      proc := by rw [← eq]; exact new.proc
      ftable := by rw [← eq]; exact new.ftable
      initproc := by rw [← eq]; exact new.initproc
      ref := by rw [← eq]; exact new.ref
      valid := fun j pos valid => by
        have pos : 0 < t.ref j := pos
        have away : j ≠ x := by
          rintro rfl
          omega
        rw [valid_ne away]
        exact new.valid j pos valid
      nodup := by rw [← eq]; exact new.nodup
      listed := by rw [← eq]; exact new.listed
      cached := fun j marked => by
        by_cases away : j = x
        · subst away
          rw [← eq] at marked
          simp [State.ifree, State.setValid] at marked
        · rw [valid_ne away] at marked
          have typed := new.cached j marked
          rw [disk, node, update_of_ne away] at typed
          rw [restored]
          exact typed }
  have counts : w.disk.ninodes = s.disk.ninodes := by
    have : w.disk.ninodes = u.disk.ninodes := by
      rw [← eq]
      rfl
    rw [this, disk, ninodes]
  have base : Sane lost (s.on w.disk) [] [] := sane.same_nodes counts restored
  have looked : Holding (s.on w.disk) [dp] (t.on w.disk) := hold.on fun j valid => by
    rw [restored, ← hold.disk]
    exact hold.cached j valid
  have back : Holding (s.on w.disk) [dp] (w.unref x) := looked.trans given.unref
  have put := wp_iput_found (F := F) (Q := fun _ t' => Q none t') base out back fun t' hold' =>
    post t' ⟨base.hold hold' (by simp), by rw [hold'.disk]; exact hold',
      by rw [hold'.disk]; exact restored, by rw [hold'.disk]; exact counts⟩
  exact put

omit [Fintype P] in
/-- The disk changes at an inode the call holds. -/
theorem Holding.edit {n n' : Node} (hold : Holding (t.on d) l u) (node : d.node = update v x n)
    (node' : d'.node = update v x n') (typed : n'.type ≠ none) : Holding (t.on d') l (u.on d') := by
  refine Holding.on (s := t.on d) hold fun i valid => ?_
  rw [node']
  by_cases eq : i = x
  · subst eq
    rw [update_self]
    exact typed
  · have before := hold.cached i valid
    rw [hold.disk] at before
    change (d.node i).type ≠ none at before
    rw [node, update_of_ne eq] at before
    rw [update_of_ne eq]
    exact before

omit [Fintype P] in
theorem wp_linkDots {Q : Int → State P → Prop} (new : Holding (t.on d) [x] u) (pos : x ≠ 0)
    (node : d.node = update v x ⟨some kind, 1, []⟩)
    (done : ∀ d', d'.ninodes = d.ninodes → d'.node = make v x dp kind → (kind ≠ .dir → d' = d) →
      Q 0 (u.on d')) (full : ∀ d' e, d'.ninodes = d.ninodes →
      d'.node = update v x ⟨some kind, 1, e⟩ → kind = .dir → Q (-1) (u.on d')) :
    wp F (linkDots x dp kind) Q u := by
  have disk : u.disk = d := new.disk
  by_cases directory : kind = .dir
  · subst directory
    have at_x : (t.on d).disk.node x = ⟨some .dir, 1, []⟩ := by
      show d.node x = _
      rw [node, update_self]
    simp only [linkDots, if_true, wp_bind, wp_ite, wp_pure]
    refine wp_dirlink new (by rw [at_x]) (by rw [at_x]; rfl) (fun room => ?_) fun none => ?_
    · rw [at_x, disk] at room ⊢
      obtain ⟨-, ninodes₁, written⟩ := writei_of_fits ⟨x, dot⟩ room
      generalize (d.writei x (emptySlot []) ⟨x, dot⟩).2 = d₁ at ninodes₁ written
      have node₁ : d₁.node = update v x ⟨some .dir, 1, [⟨x, dot⟩]⟩ := by
        rw [written, node, update_self, update_idem]
        rfl
      have new₁ := new.edit node node₁ (by simp)
      have at_x₁ : (t.on d₁).disk.node x = ⟨some .dir, 1, [⟨x, dot⟩]⟩ := by
        show d₁.node x = _
        rw [node₁, update_self]
      refine ⟨fun neg => absurd neg (by decide), fun _ => ?_⟩
      have other : findEntry dotdot 0 [⟨x, dot⟩] = none := by simp [findEntry, dot, dotdot]
      refine wp_dirlink new₁ (by rw [at_x₁]) (by rw [at_x₁]; exact other) (fun room => ?_)
        fun none => ?_
      · rw [at_x₁] at room ⊢
        obtain ⟨-, ninodes₂, written⟩ := writei_of_fits ⟨dp, dotdot⟩ room
        refine done _ (ninodes₂.trans ninodes₁) ?_ (fun no => absurd rfl no)
        have second : emptySlot [⟨x, dot⟩] = 1 := by simp [emptySlot, pos]
        rw [written, second]
        change update d₁.node x _ = _
        rw [node₁, update_idem, make, if_pos rfl]
        change update v x ⟨(d₁.node x).type, (d₁.node x).nlink,
          put 1 ⟨dp, dotdot⟩ (d₁.node x).entries⟩ = _
        rw [node₁, update_self]
        rfl
      · rw [at_x₁] at none ⊢
        obtain ⟨-, ninodes₂, written⟩ := writei_of_full ⟨dp, dotdot⟩ none
        exact full _ [⟨x, dot⟩] (ninodes₂.trans ninodes₁) (written.trans node₁) rfl
    · rw [at_x, disk] at none ⊢
      obtain ⟨-, ninodes₁, written⟩ := writei_of_full ⟨x, dot⟩ none
      exact ⟨fun _ => full _ [] ninodes₁ (written.trans node) rfl, fun no => absurd (by decide) no⟩
  · simp only [linkDots, directory, if_false, wp_pure]
    have same : u.on d = u := by rw [← disk]; rfl
    rw [← same]
    refine done d rfl ?_ fun _ => rfl
    rw [node, make, if_neg directory]

section

variable (sane : Sane lost s [] []) (hold : Holding s [dp] t) (valid : t.valid dp) (out : dp ∉ lost)
  (dir : (s.disk.node dp).type = some .dir)
include sane hold valid out dir

/-- The end of `create` when the name has been entered. -/
theorem wp_create_done (fresh : x ∉ lost) (new : Holding (t.on d) [x] u) (ne : x ≠ dp)
    (ninodes : d.ninodes = s.disk.ninodes)
    (node : d.node = enter (make s.disk.node x dp kind) dp name x)
    (post : ∀ t', Made lost s x dp kind name t' → Q (some x) t') : wp F (do
      if kind = .dir then
        modify fun s => s.setNlink dp ((s.disk.inode dp).nlink + 1)
      iput dp
      return some x) Q u := by
  have disk : u.disk = d := new.disk
  have at_dp : d.node dp = ⟨(s.disk.node dp).type, (s.disk.node dp).nlink,
      put (emptySlot (s.disk.node dp).entries) ⟨x, name⟩ (s.disk.node dp).entries⟩ := by
    have : make s.disk.node x dp kind dp = s.disk.node dp :=
      update_of_ne (Ne.symm ne) ..
    rw [node, enter, update_self, this]
  have at_x : d.node x = ⟨some kind, 1, if kind = .dir then [⟨x, dot⟩, ⟨dp, dotdot⟩] else []⟩ := by
    rw [node, enter, update_of_ne ne, make, update_self]
  have elsewhere {i : Nat} (ne_x : i ≠ x) (ne_dp : i ≠ dp) : d.node i = t.disk.node i := by
    rw [node, enter, update_of_ne ne_dp, make, update_of_ne ne_x, hold.disk]
  have held : Sane lost t [dp] [] := sane.hold hold (by simpa using out)
  have pos : 0 < t.ref dp := hold.ref_pos
  -- whatever the directory's link count has become, the state is sane
  have changed {d' : Disk} {n : BitVec 16} (ninodes : d'.ninodes = d.ninodes)
      (node : d'.node = update d.node dp ⟨(d.node dp).type, n, (d.node dp).entries⟩) :
      Sane lost (u.on d') [dp, x] [] := by
    have new' : Holding (t.on d') [x] (u.on d') :=
      new.edit (update_eq_self dp d.node).symm node (by rw [at_dp, dir]; simp)
    refine (held.change new' (by simpa using fresh) (by rw [ninodes, hold.disk]; assumption)
      fun i => ?_).perm (.swap ..)
    by_cases here : i = dp
    · subst here
      rw [node, update_self, at_dp]
      refine .inr ⟨out, by rw [dir]; simp, fun _ => ⟨?_, ?_⟩, fun plain => absurd dir plain, ?_⟩
      · have : (u.on d').ref i = t.ref i + _ := new'.ref i
        omega
      · exact new'.valid i pos valid
      · intro de mem nonzero
        rcases mem_put mem with rfl | old
        · exact fresh
        · exact sane.apart i out de old nonzero
    · rw [node, update_of_ne here]
      by_cases new_one : i = x
      · subst new_one
        rw [at_x]
        refine .inr ⟨fresh, by simp, fun none =>
          absurd none (show ¬((1 : BitVec 16) = 0) by decide),
          fun plain => ?_, ?_⟩
        · have : kind ≠ .dir := fun eq => plain (by rw [eq])
          simp only [this, if_false]
        · intro de mem nonzero
          split at mem
          · simp only [List.mem_cons, List.not_mem_nil, or_false] at mem
            rcases mem with rfl | rfl
            · exact fresh
            · exact out
          · cases mem
      · exact .inl (elsewhere new_one here)
  have finish {d' : Disk} {n : BitVec 16} (ninodes' : d'.ninodes = d.ninodes)
      (node' : d'.node = update d.node dp ⟨(d.node dp).type, n, (d.node dp).entries⟩)
      (eq : d'.node = created s.disk.node x dp kind name) :
      Q (some x) ((u.on d').iput dp) := by
    have done := (changed ninodes' node').iput
    obtain ⟨proc, ftable, initproc, ninodes''⟩ := iput_holders (t := u.on d') (i := dp)
    refine post _ ⟨done, proc.trans (new.proc.trans hold.proc),
      ftable.trans (new.ftable.trans hold.ftable),
      initproc.trans (new.initproc.trans hold.initproc),
      ninodes''.trans (ninodes'.trans ninodes), ?_⟩
    rw [← eq]
    exact iput_frees
  simp only [wp_bind, wp_ite, wp_modify, wp_pure, iput]
  refine ⟨fun directory => ?_, fun plain => ?_⟩
  · have as_on : u.setNlink dp ((u.disk.inode dp).nlink + 1) =
        u.on (d.setNlink dp ((d.node dp).nlink + 1)) := by
      rw [State.setNlink, disk]
      rfl
    rw [as_on]
    refine finish rfl (setNlink_node _) ?_
    rw [setNlink_node, created, if_pos directory, addLinks, node]
  · have as_on : u = u.on d := by
      rw [← disk]
      rfl
    rw [as_on]
    refine finish rfl (n := (d.node dp).nlink) (update_eq_self dp d.node).symm ?_
    rw [created, if_neg plain, node]

/-- `create` of a name the directory does not have, once `ialloc` has found an inode. -/
theorem wp_createNew (absent : findEntry name 0 (s.disk.node dp).entries = none)
    (free : (s.disk.node x).type = none) (pos : x ≠ 0) (new : Holding (t.on d) [x] u)
    (ninodes : d.ninodes = s.disk.ninodes) (node : d.node = update s.disk.node x ⟨some kind, 0, []⟩)
    (same : d.inode dp = s.disk.inode dp ∧ d.free = s.disk.free)
    (fail : (kind ≠ .dir → s.disk.fits dp (emptySlot (s.disk.node dp).entries) = false) →
      ∀ t', GaveUp lost s t' → Q none t')
    (done : (kind ≠ .dir → s.disk.fits dp (emptySlot (s.disk.node dp).entries) = true) →
      ∀ t', Made lost s x dp kind name t' → Q (some x) t') :
    wp F (createNew dp x name kind major minor) Q u := by
  have ne : x ≠ dp := by
    rintro rfl
    rw [free] at dir
    cases dir
  have fresh : x ∉ lost := fun mem => sane.lost x mem free
  have at_x : (t.on d).disk.node x = ⟨some kind, 0, []⟩ := by
    show d.node x = _
    rw [node, update_self]
  simp only [createNew, wp_bind, wp_modify]
  refine wp_ilock new new.ref_pos (.inl (by rw [at_x]; simp)) fun u₁ new₁ valid₁ _ => ?_
  have disk₁ : u₁.disk = d := new₁.disk
  rw [State.setInode, disk₁]
  generalize eq : d.setInode x ((d.inode x).init major minor) = d₂
  have ninodes₂ : d₂.ninodes = s.disk.ninodes := by rw [← eq]; exact ninodes
  have node₂ : d₂.node = update s.disk.node x ⟨some kind, 1, []⟩ := by
    rw [← eq, setInode_node, node, update_idem]
    change update s.disk.node x ⟨(d.node x).type, 1, (d.node x).entries⟩ = _
    rw [node, update_self]
  have same₂ : d₂.inode dp = s.disk.inode dp ∧ d₂.free = s.disk.free := by
    rw [← eq]
    exact ⟨(update_of_ne (Ne.symm ne) ..).trans same.1, same.2⟩
  have new₂ : Holding (t.on d₂) [x] (u₁.on d₂) := new₁.edit node node₂ (by simp)
  refine wp_linkDots new₂ pos node₂ (fun d₃ ninodes₃ node₃ same₃ => ?_) fun d₃ e ninodes₃ node₃
    directory => ?_
  · have ninodes₃ : d₃.ninodes = s.disk.ninodes := ninodes₃.trans ninodes₂
    have new₃ : Holding (t.on d₃) [x] (u₁.on d₃) := new₂.edit node₂ node₃ (by simp)
    have at_dp : (t.on d₃).disk.node dp = s.disk.node dp := by
      show d₃.node dp = _
      rw [node₃, make, update_of_ne (Ne.symm ne)]
    simp only [lt_irrefl, if_false]
    have fits (plain : kind ≠ .dir) (slot : Nat) : d₃.fits dp slot = s.disk.fits dp slot := by
      rw [same₃ plain]
      exact fits_congr same₂.1 same₂.2
    rw [wp_bind]
    refine wp_dirlink new₃ (by rw [at_dp]; exact dir) (by rw [at_dp]; exact absent)
      (fun room => ?_) fun none => ?_
    · rw [at_dp] at room ⊢
      change d₃.fits dp _ = true at room
      obtain ⟨-, ninodes₄, written⟩ := writei_of_fits ⟨x, name⟩ room
      have entered : (d₃.writei dp (emptySlot (s.disk.node dp).entries) ⟨x, name⟩).2.node =
          enter (make s.disk.node x dp kind) dp name x := by
        rw [written, node₃, enter]
        have : make s.disk.node x dp kind dp = s.disk.node dp :=
          update_of_ne (Ne.symm ne) ..
        rw [this]
      simp only [lt_irrefl, if_false]
      refine wp_create_done sane hold valid out dir fresh ?_ ne (ninodes₄.trans ninodes₃)
        entered (done fun plain => by rw [← fits plain]; exact room)
      have typed : (d₃.node dp).type ≠ none := by
        change ((t.on d₃).disk.node dp).type ≠ none
        rw [at_dp, dir]
        simp
      exact new₃.edit (update_eq_self dp d₃.node).symm written typed
    · rw [at_dp] at none ⊢
      change d₃.fits dp _ = false at none
      obtain ⟨-, ninodes₄, written⟩ := writei_of_full ⟨x, name⟩ none
      simp only [Int.reduceNeg, Int.reduceLT, if_true]
      have node₄ := written.trans node₃
      exact wp_create_fail sane hold out free ne (new₃.edit node₃ node₄ (by simp)) valid₁
        (ninodes₄.trans ninodes₃) node₄ (fail fun plain => by rw [← fits plain]; exact none)
  · simp only [Int.reduceNeg, Int.reduceLT, if_true]
    exact wp_create_fail sane hold out free ne (new₂.edit node₂ node₃ (by simp)) valid₁
      (ninodes₃.trans ninodes₂) node₃ (fail fun plain => absurd directory plain)

end

theorem wp_create (sane : Sane lost s [] []) (walk : Walkable F lost s.disk good)
    (root : good rootino) (here : good (s.cwd p)) (running : (s.proc p).isSome)
    (room : s.itable.length + 2 ≤ ninode ∨ F "iget: no inodes")
    (fail : ¬(kind = .file ∧ s.creates p path = true) → ∀ t', GaveUp lost s t' → Q none t')
    (old : ∀ ip t', kind = .file → s.creates p path = false → good ip → Holding s [ip] t' →
      (s.disk.node ip).type = some .file ∨ (s.disk.node ip).type = some .device → Q (some ip) t')
    (new : ∀ dp name x t', (kind = .file → s.creates p path = true) →
      s.resolve p path true = some (dp, name) →
      findEntry name 0 (s.disk.node dp).entries = none → s.disk.freeInode = some x →
      Made lost s x dp kind name t' → Q (some x) t') :
    wp F (create p path kind major minor) Q s := by
  -- giving up before anything has changed
  have unchanged (no : ¬(kind = .file ∧ s.creates p path = true)) {t' : State P}
      (hold : Holding s [] t') : Q none t' :=
    fail no t' ⟨sane.hold hold (by simp), by rw [hold.disk]; exact hold, by rw [hold.disk],
      by rw [hold.disk]⟩
  rw [create, nameiparent, wp_bind]
  refine wp_namex sane walk root here running room (fun none t' hold => ?_)
    fun dp name t hold_found found hold => ?_
  · exact unchanged (fun made => by simp [State.creates, none] at made) hold
  · have dir := resolve_dir hold_found
    have out := walk.avoids dp found
    have creates : s.creates p path =
        ((findEntry name 0 (s.disk.node dp).entries).isNone && s.disk.freeInode.isSome &&
          s.disk.fits dp (emptySlot (s.disk.node dp).entries)) := by
      simp [State.creates, hold_found]
    simp only [wp_bind]
    refine wp_ilock hold hold.ref_pos (walk.alive dp found) fun t₁ hold₁ valid₁ _ => ?_
    refine wp_dirlookup hold₁ dir (fun _ => sane.room hold₁ room (by simp)) (fun miss => ?_)
      fun slot ip t₂ hit hold₂ => ?_
    · simp only [ialloc, wp_bind, wp_get, hold₁.disk]
      cases inode : s.disk.freeInode with
      | none =>
        simp only [wp_pure, wp_bind]
        refine wp_iput_found sane out hold₁ fun t₂ hold₂ => unchanged ?_ hold₂
        simp [creates, inode]
      | some x =>
        obtain ⟨free, low, -⟩ := freeInode_some inode
        simp only [wp_bind, wp_set, wp_pure]
        have node : (s.disk.setInode x { Dinode.zero with type := some kind }).node =
            update s.disk.node x ⟨some kind, 0, []⟩ := setInode_node _
        have start : Holding (t₁.on (s.disk.setInode x { Dinode.zero with type := some kind })) []
            (t₁.on (s.disk.setInode x { Dinode.zero with type := some kind })) := by
          have held := (sane.hold hold₁ (by simpa using out)).holding
          have same : t₁ = t₁.on s.disk := by
            rw [← hold₁.disk]
            rfl
          rw [same] at held
          exact held.edit (update_eq_self x s.disk.node).symm node (by simp)
        have as_on : t₁.setInode x { Dinode.zero with type := some kind } =
            t₁.on (s.disk.setInode x { Dinode.zero with type := some kind }) := by
          rw [State.setInode, hold₁.disk]
          rfl
        have space : t₁.itable.length < ninode ∨ F "iget: no inodes" :=
          sane.room hold₁ room (by simp)
        rw [as_on]
        refine wp_iget start space fun t₂ hold₂ => ?_
        have ne : dp ≠ x := by
          rintro rfl
          rw [free] at dir
          cases dir
        refine wp_createNew sane hold₁ valid₁ out dir miss free (by omega) hold₂ rfl node
          ⟨update_of_ne ne .., rfl⟩ (fun full => ?_) fun done t' => ?_
        · refine fail fun made => ?_
          obtain ⟨file, yes⟩ := made
          rw [creates, full (by rw [file]; decide)] at yes
          simp at yes
        · refine new dp name x t' (fun file => ?_) hold_found miss inode
          rw [creates, miss, inode, done (by rw [file]; decide)]
          rfl
    · have not_created : s.creates p path = false := by rw [creates, hit]; rfl
      have good_ip : good ip := by
        obtain ⟨mem, nonzero⟩ := findEntry_mem hit
        exact walk.entry dp found _ mem nonzero
      simp only [wp_bind]
      refine wp_iput_found sane out (hold₂.perm (.swap ..)) fun t₃ hold₃ => ?_
      refine wp_ilock hold₃ hold₃.ref_pos (walk.alive ip good_ip) fun t₄ hold₄ _ _ => ?_
      have type : (t₄.disk.inode ip).type = (s.disk.node ip).type := by
        rw [← hold₄.node]
        rfl
      simp only [wp_get, type, wp_ite, wp_pure, wp_bind]
      refine ⟨fun found => old ip t₄ found.1 not_created good_ip hold₄ found.2, fun _ => ?_⟩
      exact wp_iput_found sane (walk.avoids ip good_ip) hold₄ fun t₅ hold₅ =>
        unchanged (by simp [not_created]) hold₅

end create

end Xv6.Names
