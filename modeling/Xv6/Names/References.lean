import Xv6.Lib.Ownership
import Xv6.Names.Calls

/-!
# References to inodes and path lookup

`Sane` is what every state of the kernel has in common: reference counts are the numbers of
open files, current directories and calls in progress that hold an inode, and an inode without
links is in memory or free.  Inodes in `lost` are allocated on the disk but out of reach; a
crash leaves such inodes behind.

`Holding s l t` says that a call has only looked around: `t` is `s` with the references `l` more.
`wp_namex` shows that of path lookup, whose result is the function `resolve` of the disk.
-/

namespace Xv6.Names

open Program Function State List

variable {P : Type} {name : Name} {slot k : Nat} {entries : List Dirent}

/-! ## Path lookup as a function of the disk -/

/-- The inode at the end of a path, or with `parent` the directory of its last element. -/
def resolveFrom (d : Disk) (parent : Bool) : Nat → List Name → Name → Option (Nat × Name)
  | ip, [], name => if parent then none else some (ip, name)
  | ip, name :: rest, _ =>
    if (d.node ip).type = some .dir then
      if parent ∧ rest = [] then some (ip, name)
      else
        match findEntry name 0 (d.node ip).entries with
        | none => none
        | some (_, next) => resolveFrom d parent next rest name
    else none

def State.resolve (s : State P) (p : P) (path : List UInt8) (parent : Bool) :
    Option (Nat × Name) :=
  resolveFrom s.disk parent (if path.head? = some slash then rootino else s.cwd p)
    (elements path) []

theorem findEntry_some {i : Nat} (found : findEntry name slot entries = some (k, i)) :
    ∃ j, k = slot + j ∧ entries[j]? = some ⟨i, name⟩ ∧ i ≠ 0 := by
  induction entries generalizing slot with
  | nil => simp [findEntry] at found
  | cons de rest ih =>
    rw [findEntry] at found
    split at found
    · next hit =>
        cases found
        exact ⟨0, rfl, by simp [← hit.2], hit.1⟩
    · obtain ⟨j, rfl, at_j, nonzero⟩ := ih found
      exact ⟨j + 1, by omega, by simpa using at_j, nonzero⟩

theorem findEntry_mem {i : Nat} (found : findEntry name slot entries = some (k, i)) :
    (⟨i, name⟩ : Dirent) ∈ entries ∧ i ≠ 0 := by
  obtain ⟨j, -, at_j, nonzero⟩ := findEntry_some found
  exact ⟨mem_of_getElem? at_j, nonzero⟩

theorem findEntry_none :
    findEntry name slot entries = none ↔ ∀ de ∈ entries, de.inum ≠ 0 → de.name ≠ name := by
  induction entries generalizing slot with
  | nil => simp [findEntry]
  | cons de rest ih =>
    rw [findEntry]
    split
    · next hit => simpa using fun h => absurd hit.2 (h hit.1)
    · next miss =>
        rw [ih, forall_mem_cons]
        exact ⟨fun h => ⟨fun nonzero same => miss ⟨nonzero, same⟩, h⟩, fun h => h.2⟩

/-! ## The references a state accounts for -/

section counts

variable [Fintype P] (s : State P)

/-- The processes in a directory. -/
def State.cwds (i : Nat) : Nat := ∑ p, if (s.proc p).map Proc.cwd = some i then 1 else 0

/-- The open files of an inode. -/
def State.opens (i : Nat) : Nat :=
  ∑ f, if (s.ftable f).type ≠ .none ∧ (s.ftable f).ip = i then 1 else 0

/-- The descriptors of a file. -/
def State.fds (f : Fin nfile) : Nat := ∑ p, ∑ fd, if s.ofile p fd = some f then 1 else 0

end counts

/-- `s` with `l` references and `m` files in the hands of the call in progress. -/
structure Sane [Fintype P] (lost : Set Nat) (s : State P) (l : List Nat) (m : List (Fin nfile)) :
    Prop where
  nodup : s.itable.Nodup
  listed : ∀ i, i ∈ s.itable ↔ 0 < s.ref i
  counted : ∀ i, s.ref i = s.cwds i + s.opens i + l.count i
  files : ∀ f, (s.ftable f).ref = s.fds f + m.count f
  closed : ∀ f, (s.ftable f).ref = 0 → (s.ftable f).type = .none
  cached : ∀ i, s.valid i → (s.disk.node i).type ≠ none
  kept : ∀ i, i ∉ lost → (s.disk.node i).type ≠ none → (s.disk.node i).nlink = 0 →
    0 < s.ref i ∧ s.valid i
  held : ∀ i, 0 < s.cwds i + s.opens i → (s.disk.node i).type ≠ none
  reached : ∀ i, 0 < s.ref i → i ∉ lost
  blank : ∀ i, (s.disk.node i).type = none → s.disk.node i = ⟨none, 0, []⟩
  plain : ∀ i, (s.disk.node i).type ≠ some .dir → (s.disk.node i).entries = []
  apart : ∀ d, d ∉ lost → ∀ de ∈ (s.disk.node d).entries, de.inum ≠ 0 → de.inum ∉ lost
  root : rootino ∉ lost
  lost : ∀ i ∈ lost, (s.disk.node i).type ≠ none
  small : s.disk.ninodes ≤ 2 ^ 16

/-- The state `t` is `s` with the references `l` more, and possibly more inodes read in. -/
structure Holding (s : State P) (l : List Nat) (t : State P) : Prop where
  disk : t.disk = s.disk
  proc : t.proc = s.proc
  ftable : t.ftable = s.ftable
  initproc : t.initproc = s.initproc
  ref : ∀ i, t.ref i = s.ref i + l.count i
  valid : ∀ i, 0 < s.ref i → s.valid i → t.valid i
  nodup : t.itable.Nodup
  listed : ∀ i, i ∈ t.itable ↔ 0 < t.ref i
  cached : ∀ i, t.valid i → (t.disk.node i).type ≠ none

variable {F : String → Prop} {lost : Set Nat} {s t : State P} {l l' : List Nat}
  {m : List (Fin nfile)} {p : P} {i : Nat} {Q : Unit → State P → Prop} {good : Nat → Prop}
  {parent : Bool}

namespace Holding

section

variable (hold : Holding s l t)
include hold

theorem ofile (p : P) (fd : Fin nofile) : t.ofile p fd = s.ofile p fd := by
  simp only [State.ofile, hold.proc]

theorem node (i : Nat) : t.disk.node i = s.disk.node i := by
  rw [hold.disk]

theorem cwds [Fintype P] (i : Nat) : t.cwds i = s.cwds i := by
  simp only [State.cwds, hold.proc]

theorem opens [Fintype P] (i : Nat) : t.opens i = s.opens i := by
  simp only [State.opens, hold.ftable]

theorem fds [Fintype P] (f : Fin nfile) : t.fds f = s.fds f := by
  simp only [State.fds, hold.ofile]

end

theorem ref_pos (hold : Holding s (i :: l) t) : 0 < t.ref i := by
  have := hold.ref i
  rw [count_cons_self] at this
  omega

theorem trans {u : State P} (first : Holding s l t) (rest : Holding t l' u) :
    Holding s (l' ++ l) u where
  disk := rest.disk.trans first.disk
  proc := rest.proc.trans first.proc
  ftable := rest.ftable.trans first.ftable
  initproc := rest.initproc.trans first.initproc
  ref i := by
    rw [rest.ref, first.ref, count_append]
    omega
  valid i pos valid := rest.valid i (by rw [first.ref]; omega) (first.valid i pos valid)
  __ := rest

/-- References are a multiset. -/
theorem perm (hold : Holding s l t) (same : l.Perm l') : Holding s l' t where
  __ := hold
  ref i := by rw [hold.ref, same.count_eq]

end Holding

/-! ## Looking around -/

theorem wp_iget (hold : Holding s l t) (room : t.itable.length < ninode ∨ F "iget: no inodes")
    (post : ∀ t', Holding s (i :: l) t' → Q () t') : wp F (iget i) Q t := by
  simp only [iget, wp_bind, wp_get, wp_ite, wp_set, wp_throw]
  refine ⟨fun pos => post _ ?_, fun zero => ⟨fun space => post _ ?_, fun full => ?_⟩⟩
  · exact
      { __ := hold
        ref := fun j => by
          by_cases eq : j = i
          · subst eq
            have := hold.ref j
            simp only [setRef, update_self, count_cons_self]
            omega
          · simp only [setRef, update_of_ne eq,
              count_cons_of_ne (Ne.symm eq)]
            exact hold.ref j
        listed := fun j => by
          by_cases eq : j = i
          · subst eq
            simp only [setRef, update_self]
            exact iff_of_true ((hold.listed j).2 pos) (by omega)
          · simp only [setRef, update_of_ne eq]
            exact hold.listed j }
  · have absent : i ∉ t.itable := fun mem => zero ((hold.listed i).1 mem)
    have fresh : s.ref i = 0 ∧ l.count i = 0 := by
      have := hold.ref i
      omega
    exact
      { __ := hold
        ref := fun j => by
          by_cases eq : j = i
          · subst eq
            simp only [setRef, setValid, update_self, count_cons_self]
            omega
          · simp only [setRef, setValid, update_of_ne eq,
              count_cons_of_ne (Ne.symm eq)]
            exact hold.ref j
        valid := fun j pos valid => by
          have eq : j ≠ i := by
            rintro rfl
            omega
          simp only [setRef, setValid, update_of_ne eq]
          exact hold.valid j pos valid
        nodup := nodup_cons.2 ⟨absent, hold.nodup⟩
        listed := fun j => by
          by_cases eq : j = i
          · subst eq
            simp [setRef, setValid]
          · simp only [setRef, setValid, update_of_ne eq, mem_cons, eq,
              false_or]
            exact hold.listed j
        cached := fun j valid => by
          by_cases eq : j = i
          · subst eq
            simp [setRef, setValid] at valid
          · simp only [setRef, setValid, update_of_ne eq] at valid
            exact hold.cached j valid }
  · exact room.resolve_left full

theorem wp_idup (hold : Holding s l t) (pos : 0 < t.ref i)
    (post : ∀ t', Holding s (i :: l) t' → Q () t') : wp F (idup i) Q t := by
  simp only [idup, wp_modify]
  have again : wp (fun _ => True) (iget i) Q t := wp_iget hold (.inr trivial) post
  simp only [iget, wp_bind, wp_get, wp_ite, wp_set, wp_throw] at again
  exact again.1 pos

theorem wp_ilock (hold : Holding s l t) (pos : 0 < t.ref i)
    (typed : (s.disk.node i).type ≠ none ∨ F "ilock: no type")
    (post : ∀ t', Holding s l t' → t'.valid i → (s.disk.node i).type ≠ none → Q () t') :
    wp F (ilock i) Q t := by
  simp only [ilock, wp_bind, wp_get, wp_ite, wp_set, wp_throw, wp_pure]
  refine ⟨fun none => by omega, fun _ => ⟨fun valid => ?_, fun _ => ⟨fun free => ?_, fun typed =>
    post _ ?_ ?_ ?_⟩⟩⟩
  · refine post t hold valid ?_
    rw [← hold.node]
    exact hold.cached i valid
  · exact typed.resolve_left (fun ne => ne (by rw [← hold.node]; exact free))
  · exact
      { __ := hold
        valid := fun j pos valid => by
          by_cases eq : j = i
          · subst eq
            simp [setValid]
          · simp only [setValid, update_of_ne eq]
            exact hold.valid j pos valid
        cached := fun j valid => by
          by_cases eq : j = i
          · subst eq
            exact typed
          · simp only [setValid, update_of_ne eq] at valid
            exact hold.cached j valid }
  · simp [setValid]
  · rw [← hold.node]
    exact typed

/-- A reference taken is given back. -/
theorem Holding.unref (hold : Holding s (i :: l) t) : Holding s l (t.unref i) where
  __ := hold
  ref j := by
    have := hold.ref j
    by_cases eq : j = i
    · subst eq
      rw [count_cons_self] at this
      simp only [unref, setRef, update_self]
      omega
    · rw [count_cons_of_ne (Ne.symm eq)] at this
      simpa only [State.unref, State.setRef, update_of_ne eq] using this
  nodup := by
    simp only [State.unref, State.setRef]
    split
    · exact hold.nodup.erase i
    · exact hold.nodup
  listed j := by
    have pos := hold.ref_pos
    simp only [State.unref, State.setRef]
    by_cases eq : j = i
    · subst eq
      rw [update_self]
      split
      · next last =>
          exact iff_of_false hold.nodup.not_mem_erase (by omega)
      · next more =>
          exact iff_of_true ((hold.listed j).2 pos) (by omega)
    · rw [update_of_ne eq]
      split
      · rw [mem_erase_of_ne eq]
        exact hold.listed j
      · exact hold.listed j

theorem wp_dirlookup {dp : Nat} {Q : Option (Nat × Nat) → State P → Prop} (hold : Holding s l t)
    (dir : (s.disk.node dp).type = some .dir)
    (room : findEntry name 0 (s.disk.node dp).entries ≠ none →
      t.itable.length < ninode ∨ F "iget: no inodes")
    (miss : findEntry name 0 (s.disk.node dp).entries = none → Q none t)
    (hit : ∀ slot ip t', findEntry name 0 (s.disk.node dp).entries = some (slot, ip) →
      Holding s (ip :: l) t' → Q (some (slot, ip)) t') : wp F (dirlookup dp name) Q t := by
  simp only [dirlookup, wp_bind, wp_get, wp_ite, wp_throw]
  have typed : (t.disk.inode dp).type = some .dir := by
    have := hold.node dp
    rw [← dir, ← this]
    rfl
  refine ⟨fun _ => ?_, fun no => absurd typed no⟩
  have entries : (t.disk.inode dp).entries = (s.disk.node dp).entries := by
    rw [← hold.node]
    rfl
  rw [entries]
  cases found : findEntry name 0 (s.disk.node dp).entries with
  | none => exact miss found
  | some entry =>
    simp only [wp_bind, wp_pure]
    exact wp_iget hold (room (by rw [found]; exact Option.some_ne_none _)) fun t' hold' =>
      hit entry.1 entry.2 t' found hold'

section sane

variable [Fintype P]

namespace Sane

section

variable (sane : Sane lost s l m)
include sane

theorem holding : Holding s [] s where
  disk := rfl
  proc := rfl
  ftable := rfl
  initproc := rfl
  ref i := by simp
  valid _ _ valid := valid
  __ := sane

/-- Looking around keeps a state sane. -/
theorem hold (hold : Holding s l' t) (found : ∀ i ∈ l', i ∉ lost) : Sane lost t (l' ++ l) m where
  __ := hold
  counted i := by
    rw [hold.ref, sane.counted, count_append, hold.cwds, hold.opens]
    omega
  files f := by
    rw [hold.fds, hold.ftable]
    exact sane.files f
  closed f := by
    rw [hold.ftable]
    exact sane.closed f
  kept i kept alloc unlinked := by
    rw [hold.node] at alloc unlinked
    obtain ⟨pos, valid⟩ := sane.kept i kept alloc unlinked
    exact ⟨by rw [hold.ref]; omega, hold.valid i pos valid⟩
  held i := by
    rw [hold.node, hold.cwds, hold.opens]
    exact sane.held i
  reached i pos := by
    rw [hold.ref] at pos
    by_cases mem : i ∈ l'
    · exact found i mem
    · rw [count_eq_zero.2 mem] at pos
      exact sane.reached i pos
  blank i := by
    rw [hold.node]
    exact sane.blank i
  plain i := by
    rw [hold.node]
    exact sane.plain i
  apart d := by
    rw [hold.node]
    exact sane.apart d
  root := sane.root
  lost i := by
    rw [hold.node]
    exact sane.lost i
  small := by
    rw [hold.disk]
    exact sane.small

theorem perm (same : l.Perm l') : Sane lost s l' m :=
  { sane with counted := fun i => by rw [sane.counted, same.count_eq] }

/-- The table has an entry for each inode with a reference. -/
theorem length_le (hold : Holding s l' t) : t.itable.length ≤ s.itable.length + l'.length := by
  have sub : t.itable ⊆ s.itable ++ l' := by
    intro i mem
    have pos := (hold.listed i).1 mem
    rw [hold.ref] at pos
    by_cases known : 0 < s.ref i
    · exact mem_append_left _ ((sane.listed i).2 known)
    · exact mem_append_right _ (count_pos_iff.1 (by omega))
  simpa using (hold.nodup.subperm sub).length_le

end

theorem cwds_pos {pr : Proc} (running : s.proc p = some pr) : 0 < s.cwds pr.cwd := by
  have counted : (if (s.proc p).map Proc.cwd = some pr.cwd then 1 else 0) ≤ s.cwds pr.cwd :=
    Finset.single_le_sum (f := fun q => if (s.proc q).map Proc.cwd = some pr.cwd then 1 else 0)
      (fun _ _ => Nat.zero_le _) (Finset.mem_univ p)
  simpa [running, Nat.succ_le_iff] using counted

theorem cwd_ref (sane : Sane lost s l m) (running : (s.proc p).isSome) : 0 < s.ref (s.cwd p) := by
  obtain ⟨pr, eq⟩ := Option.isSome_iff_exists.1 running
  have pos := cwds_pos eq
  have counted := sane.counted (s.cwd p)
  simp only [cwd, eq, Option.map_some, Option.getD_some] at counted ⊢
  omega

end Sane

/-- Giving back an inode that a lookup found never frees it. -/
theorem wp_iput_found (sane : Sane lost s l' m) (found : i ∉ lost) (hold : Holding s (i :: l) t)
    (post : ∀ t', Holding s l t' → Q () t') : wp F (iput i) Q t := by
  simp only [iput, wp_modify]
  rw [State.iput, if_neg]
  · exact post _ hold.unref
  · rintro ⟨last, valid, unlinked⟩
    have alloc := hold.cached i valid
    rw [hold.node] at alloc
    have nlink : (s.disk.node i).nlink = 0 := by
      rw [← hold.node]
      exact unlinked
    have pos := (sane.kept i found alloc nlink).1
    have := hold.ref i
    rw [count_cons_self] at this
    omega

/-- A set of inodes that lookups do not leave, on which the next `ilock` succeeds. -/
structure Walkable (F : String → Prop) (lost : Set Nat) (d : Disk) (good : Nat → Prop) :
    Prop where
  alive : ∀ i, good i → (d.node i).type ≠ none ∨ F "ilock: no type"
  avoids : ∀ i, good i → i ∉ lost
  entry : ∀ i, good i → ∀ de ∈ (d.node i).entries, de.inum ≠ 0 → good de.inum

theorem Sane.room (sane : Sane lost s l m) (hold : Holding s l' t)
    (room : s.itable.length + k ≤ ninode ∨ F "iget: no inodes") (few : l'.length < k) :
    t.itable.length < ninode ∨ F "iget: no inodes" := by
  have := sane.length_le hold
  exact room.imp_left fun _ => by omega

section

variable (sane : Sane lost s l m) (walk : Walkable F lost s.disk good)

include sane walk

theorem wp_namexLoop {ip : Nat} {path : List Name} {last : Name}
    {Q : Option (Nat × Name) → State P → Prop}
    (here : good ip)
    (room : s.itable.length + 2 ≤ ninode ∨ F "iget: no inodes") (hold : Holding s [ip] t)
    (none : resolveFrom s.disk parent ip path last = none → ∀ t', Holding s [] t' → Q none t')
    (some : ∀ i name t', resolveFrom s.disk parent ip path last = some (i, name) → good i →
      Holding s [i] t' → Q (some (i, name)) t') : wp F (namexLoop parent ip path last) Q t := by
  -- the loop holds one inode between rounds, and `dirlookup` one more
  induction path generalizing ip last t with
  | nil =>
    cases parent with
    | true =>
      simp only [namexLoop, if_true, wp_bind, wp_pure]
      exact wp_iput_found sane (walk.avoids ip here) hold (none rfl)
    | false => exact some ip last t rfl here hold
  | cons name rest ih =>
    rw [namexLoop]
    simp only [wp_bind, wp_get]
    refine wp_ilock hold hold.ref_pos (walk.alive ip here) fun t₁ hold₁ _ _ => ?_
    have type₁ : (t₁.disk.inode ip).type = (s.disk.node ip).type := by
      rw [← hold₁.node]
      rfl
    rw [type₁]
    simp only [wp_ite, wp_bind, wp_pure]
    refine ⟨fun dir => ⟨fun final => ?_, fun more => ?_⟩, fun other => ?_⟩
    · exact some ip name t₁ (by simp [resolveFrom, dir, final]) here hold₁
    · have step : resolveFrom s.disk parent ip (name :: rest) last =
          match findEntry name 0 (s.disk.node ip).entries with
          | .none => .none
          | .some (_, next) => resolveFrom s.disk parent next rest name := by
        simp only [resolveFrom, dir, more, if_true, if_false]
      rw [step] at none some
      refine wp_dirlookup hold₁ dir (fun _ => sane.room hold₁ room (by simp)) (fun miss => ?_)
        fun slot next t₂ hit hold₂ => ?_
      · simp only [wp_bind, wp_pure]
        exact wp_iput_found sane (walk.avoids ip here) hold₁ (none (by rw [miss]))
      · simp only [wp_bind]
        have there : good next := by
          obtain ⟨mem, nonzero⟩ := findEntry_mem hit
          exact walk.entry ip here _ mem nonzero
        rw [hit] at none some
        refine wp_iput_found sane (walk.avoids ip here) (hold₂.perm (.swap ..)) fun t₃ hold₃ => ?_
        exact ih there hold₃ none some
    · exact wp_iput_found sane (walk.avoids ip here) hold₁ (none (by simp [resolveFrom, other]))

theorem wp_namex {path : List UInt8} {Q : Option (Nat × Name) → State P → Prop}
    (root : good rootino)
    (here : good (s.cwd p)) (running : (s.proc p).isSome)
    (room : s.itable.length + 2 ≤ ninode ∨ F "iget: no inodes")
    (none : s.resolve p path parent = none → ∀ t', Holding s [] t' → Q none t')
    (some : ∀ i name t', s.resolve p path parent = some (i, name) → good i →
      Holding s [i] t' → Q (some (i, name)) t') : wp F (namex p path parent) Q s := by
  have start := sane.holding
  simp only [namex, wp_ite, wp_bind, wp_get]
  refine ⟨fun absolute => ?_, fun relative => ?_⟩
  · simp only [resolve, absolute, if_true] at none some
    refine wp_iget start (sane.room start room (by simp)) fun t hold => ?_
    exact wp_namexLoop sane walk root room hold none some
  · simp only [resolve, relative, if_false] at none some
    refine wp_idup start (sane.cwd_ref running) fun t hold => ?_
    exact wp_namexLoop sane walk here room hold none some

end

end sane

end Xv6.Names
