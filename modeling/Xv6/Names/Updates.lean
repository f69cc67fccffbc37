import Xv6.Names.References

/-!
# Changing inodes, files and processes

How a sane state stays sane when a call edits inodes it holds, gives back an inode, which may
free it, and moves its references into files and processes or out of them.
-/

namespace Xv6.Names

open Program Function State List Option Finset

variable {P : Type} {F : String → Prop} {lost : Set Nat} {s t : State P} {d : Disk}
  {l l' : List Nat} {m m' : List (Fin nfile)} {p : P} {i j : Nat} {f : Fin nfile}
  {Q : Unit → State P → Prop}

/-! ## Editing inodes -/

/-- The same references over another disk. -/
def State.on (s : State P) (d : Disk) : State P := { s with disk := d }

theorem Holding.on (hold : Holding s l t) (cached : ∀ i, t.valid i → (d.node i).type ≠ none) :
    Holding (s.on d) l (t.on d) where
  disk := rfl
  __ := hold
  cached := cached

/-- What a call may make of an inode it holds. -/
structure Edited (lost : Set Nat) (t : State P) (i : Nat) (n : Node) : Prop where
  found : i ∉ lost
  typed : n.type ≠ none
  kept : n.nlink = 0 → 0 < t.ref i ∧ t.valid i
  plain : n.type ≠ some .dir → n.entries = []
  apart : ∀ de ∈ n.entries, de.inum ≠ 0 → de.inum ∉ lost

section counts

variable [Fintype P]

theorem Sane.change (sane : Sane lost s l m) (hold : Holding (s.on d) l' t)
    (found : ∀ i ∈ l', i ∉ lost) (ninodes : d.ninodes = s.disk.ninodes)
    (nodes : ∀ i, d.node i = s.disk.node i ∨ Edited lost t i (d.node i)) :
    Sane lost t (l' ++ l) m := by
  have disk : t.disk = d := hold.disk
  have cwds (i) : t.cwds i = s.cwds i := hold.cwds i
  have opens (i) : t.opens i = s.opens i := hold.opens i
  have ref (i) : t.ref i = s.ref i + l'.count i := hold.ref i
  exact
    { __ := hold
      counted := fun i => by
        rw [ref, sane.counted, count_append, cwds, opens]
        omega
      files := fun f => by
        rw [hold.fds, hold.ftable]
        exact sane.files f
      closed := fun f => by
        rw [hold.ftable]
        exact sane.closed f
      kept := fun i kept alloc unlinked => by
        rw [disk] at alloc unlinked
        rcases nodes i with same | edited
        · rw [same] at alloc unlinked
          obtain ⟨pos, valid⟩ := sane.kept i kept alloc unlinked
          exact ⟨by rw [ref]; omega, hold.valid i pos valid⟩
        · exact edited.kept unlinked
      held := fun i pos => by
        rw [disk]
        rw [cwds, opens] at pos
        rcases nodes i with same | edited
        · rw [same]
          exact sane.held i pos
        · exact edited.typed
      reached := fun i pos => by
        rw [ref] at pos
        by_cases mem : i ∈ l'
        · exact found i mem
        · rw [count_eq_zero.2 mem] at pos
          exact sane.reached i pos
      blank := fun i free => by
        rw [disk] at free ⊢
        rcases nodes i with same | edited
        · rw [same] at free ⊢
          exact sane.blank i free
        · exact absurd free edited.typed
      plain := fun i other => by
        rw [disk] at other ⊢
        rcases nodes i with same | edited
        · rw [same] at other ⊢
          exact sane.plain i other
        · exact edited.plain other
      apart := fun i out => by
        rw [disk]
        rcases nodes i with same | edited
        · rw [same]
          exact sane.apart i out
        · exact edited.apart
      root := sane.root
      lost := fun i mem => by
        rw [disk]
        rcases nodes i with same | edited
        · rw [same]
          exact sane.lost i mem
        · exact edited.typed
      small := by
        rw [disk, ninodes]
        exact sane.small }

/-- Blocks do not matter. -/
theorem Sane.same_nodes (sane : Sane lost s l m) (ninodes : d.ninodes = s.disk.ninodes)
    (same : d.node = s.disk.node) : Sane lost (s.on d) l m := by
  have hold := sane.holding.on (d := d) fun i valid => by
    rw [same]
    exact sane.cached i valid
  exact sane.change hold (by simp) ninodes fun i => .inl (congrFun same i)

theorem Sane.setNlink {n : BitVec 16} (sane : Sane lost t l m) (out : i ∉ lost)
    (typed : (t.disk.node i).type ≠ none) (kept : n = 0 → 0 < t.ref i ∧ t.valid i) :
    Sane lost (t.setNlink i n) l m := by
  have node := Disk.setNlink_node (d := t.disk) (i := i) n
  have hold : Holding (t.on (t.disk.setNlink i n)) [] (t.setNlink i n) :=
    sane.holding.on fun j valid => by
      rw [node]
      by_cases eq : j = i
      · subst eq
        rw [update_self]
        exact typed
      · rw [update_of_ne eq]
        exact sane.cached j valid
  refine sane.change hold (by simp) rfl fun j => ?_
  rw [node]
  by_cases eq : j = i
  · subst eq
    rw [update_self]
    exact .inr ⟨out, typed, kept, sane.plain j, sane.apart j out⟩
  · exact .inl (update_of_ne eq ..)

/-! ## Giving back an inode -/

/-- Some inodes without links have been freed. -/
def Frees (v v' : Nat → Node) : Prop :=
  ∀ i, v' i = v i ∨ (v i).nlink = 0 ∧ v' i = ⟨none, 0, []⟩

theorem Frees.refl (v : Nat → Node) : Frees v v := fun _ => .inl rfl

theorem Frees.trans {v v' v'' : Nat → Node} (first : Frees v v') (rest : Frees v' v'') :
    Frees v v'' := by
  intro i
  rcases rest i with same | ⟨unlinked, freed⟩
  · rw [same]
    exact first i
  · rcases first i with same | ⟨unlinked', -⟩
    · rw [same] at unlinked
      exact .inr ⟨unlinked, freed⟩
    · exact .inr ⟨unlinked', freed⟩

section

omit [Fintype P]

theorem iput_eq_unref (stays : (t.disk.node i).nlink ≠ 0 ∨ t.ref i ≠ 1) : t.iput i = t.unref i := by
  rw [State.iput, if_neg]
  rintro ⟨last, -, unlinked⟩
  exact stays.elim (fun ne => ne unlinked) (fun ne => ne last)

theorem iput_eq_free (last : t.ref i = 1) (valid : t.valid i)
    (unlinked : (t.disk.node i).nlink = 0) : t.iput i = (t.ifree i).unref i :=
  if_pos ⟨last, valid, unlinked⟩

theorem iput_frees : Frees t.disk.node (t.iput i).disk.node := by
  unfold State.iput
  split
  · next last =>
      intro j
      have nodes : ((t.ifree i).unref i).disk.node = (t.disk.ifree i).node := rfl
      rw [nodes, Disk.ifree_node]
      by_cases eq : j = i
      · subst eq
        have unlinked : (t.disk.node j).nlink = 0 := last.2.2
        rw [update_self, unlinked]
        exact .inr ⟨rfl, rfl⟩
      · exact .inl (update_of_ne eq ..)
  · exact Frees.refl _

theorem iput_ne (ne : j ≠ i) :
    (t.iput i).valid j = t.valid j ∧ (t.iput i).disk.node j = t.disk.node j := by
  unfold State.iput
  split
  · refine ⟨update_of_ne ne .., ?_⟩
    have nodes : ((t.ifree i).unref i).disk.node = (t.disk.ifree i).node := rfl
    rw [nodes, Disk.ifree_node, update_of_ne ne]
  · exact ⟨rfl, rfl⟩

theorem iput_holders :
    (t.iput i).proc = t.proc ∧ (t.iput i).ftable = t.ftable ∧ (t.iput i).initproc = t.initproc ∧
      (t.iput i).disk.ninodes = t.disk.ninodes := by
  unfold State.iput
  split
  · exact ⟨rfl, rfl, rfl, rfl⟩
  · exact ⟨rfl, rfl, rfl, rfl⟩

end

/-- Giving back an inode that is not freed by it. -/
theorem Sane.unref (sane : Sane lost t (i :: l) m)
    (stays : (t.disk.node i).type ≠ none → (t.disk.node i).nlink = 0 → t.ref i ≠ 1) :
    Sane lost (t.unref i) l m := by
  have hold := sane.holding
  -- the reference given back is one that the call holds
  have ref (j) : (t.unref i).ref j + [i].count j = t.ref j := by
    have pos := sane.counted i
    rw [count_cons_self] at pos
    by_cases eq : j = i
    · subst eq
      simp only [unref, setRef, update_self, count_singleton_self]
      omega
    · simp [State.unref, State.setRef, eq, Ne.symm eq]
  have cons (j) : (i :: l).count j = l.count j + [i].count j := by
    rw [show i :: l = [i] ++ l from rfl, count_append, Nat.add_comm]
  have pos : 0 < t.ref i := by
    have := sane.counted i
    rw [count_cons_self] at this
    omega
  exact
    { nodup := by
        simp only [State.unref, State.setRef]
        split
        · exact sane.nodup.erase i
        · exact sane.nodup
      listed := fun j => by
        simp only [State.unref, State.setRef]
        by_cases eq : j = i
        · subst eq
          rw [update_self]
          split
          · exact iff_of_false sane.nodup.not_mem_erase (by omega)
          · exact iff_of_true ((sane.listed j).2 pos) (by omega)
        · rw [update_of_ne eq]
          split
          · rw [mem_erase_of_ne eq]
            exact sane.listed j
          · exact sane.listed j
      counted := fun j => by
        have before := sane.counted j
        have after := ref j
        rw [cons] at before
        show _ = t.cwds j + t.opens j + _
        omega
      __ := sane
      kept := fun j kept alloc unlinked => by
        have before := sane.kept j kept alloc unlinked
        refine ⟨?_, before.2⟩
        have after := ref j
        by_cases eq : j = i
        · subst eq
          have := stays alloc unlinked
          rw [count_singleton_self] at after
          omega
        · simp only [count_singleton, beq_iff_eq, Ne.symm eq, if_false] at after
          omega
      reached := fun j pos => sane.reached j (by have := ref j; omega) }

/-- A state in which a call gives back an inode, which may free it. -/
theorem Sane.iput (sane : Sane lost t (i :: l) m) : Sane lost (t.iput i) l m := by
  have counted := sane.counted i
  rw [count_cons_self] at counted
  unfold State.iput
  split
  · next last =>
      obtain ⟨last, valid, unlinked⟩ := last
      have node : (t.ifree i).disk.node = update t.disk.node i ⟨none, 0, []⟩ := by
        show (t.disk.ifree i).node = _
        rw [Disk.ifree_node]
        have : (t.disk.node i).nlink = 0 := unlinked
        rw [this]
      have at_i : (t.ifree i).disk.node i = ⟨none, 0, []⟩ := by rw [node, update_self]
      have at_ne {j} (eq : j ≠ i) : (t.ifree i).disk.node j = t.disk.node j := by
        rw [node, update_of_ne eq]
      have valid_ne {j} (eq : j ≠ i) : (t.ifree i).valid j = t.valid j := update_of_ne eq ..
      have out : i ∉ lost := sane.reached i (by omega)
      -- freed, the inode is like any other that is not in use
      have freed : Sane lost (t.ifree i) (i :: l) m :=
        { __ := sane
          cached := fun j valid => by
            by_cases eq : j = i
            · subst eq
              simp [ifree, setValid] at valid
            · rw [at_ne eq]
              rw [valid_ne eq] at valid
              exact sane.cached j valid
          kept := fun j kept alloc unlinked => by
            by_cases eq : j = i
            · subst eq
              rw [at_i] at alloc
              exact absurd rfl alloc
            · rw [at_ne eq] at alloc unlinked
              rw [valid_ne eq]
              exact sane.kept j kept alloc unlinked
          held := fun j pos => by
            have eq : j ≠ i := by
              rintro rfl
              have pos : 0 < t.cwds j + t.opens j := pos
              omega
            rw [at_ne eq]
            exact sane.held j pos
          blank := fun j free => by
            by_cases eq : j = i
            · subst eq
              exact at_i
            · rw [at_ne eq] at free ⊢
              exact sane.blank j free
          plain := fun j other => by
            by_cases eq : j = i
            · subst eq
              rw [at_i]
            · rw [at_ne eq] at other ⊢
              exact sane.plain j other
          apart := fun j kept => by
            by_cases eq : j = i
            · subst eq
              rw [at_i]
              simp
            · rw [at_ne eq]
              exact sane.apart j kept
          lost := fun j mem => by
            rw [at_ne (fun eq => out (eq ▸ mem))]
            exact sane.lost j mem }
      exact freed.unref fun alloc => absurd (by rw [at_i]) alloc
  · next more =>
      refine sane.unref fun alloc unlinked last => more ⟨last, ?_, unlinked⟩
      exact (sane.kept i (sane.reached i (by omega)) alloc unlinked).2

/-! ## Files -/

omit [Fintype P] in
theorem opens_setFile (file : File) : (s.setFile f file).opens i +
        (if (s.ftable f).type ≠ .none ∧ (s.ftable f).ip = i then 1 else 0) =
      s.opens i + if file.type ≠ .none ∧ file.ip = i then 1 else 0 := by
  have change := Ownership.sum_change
    (f := fun g => if (s.ftable g).type ≠ .none ∧ (s.ftable g).ip = i then 1 else 0)
    (g := fun g => if ((s.setFile f file).ftable g).type ≠ .none ∧
      ((s.setFile f file).ftable g).ip = i then 1 else 0)
    (mem_univ f) (fun g _ ne => by simp [setFile, ne])
  simpa only [opens, setFile, update_self] using change

omit [Fintype P] in
theorem opens_withRef (n : Nat) : (s.setFile f ((s.ftable f).withRef n)).opens i = s.opens i := by
  refine sum_congr rfl fun g _ => ?_
  by_cases eq : g = f
  · subst eq
    simp [setFile, File.withRef]
  · simp [setFile, eq]

section

variable (sane : Sane lost s l m)
include sane

/-- A file changes, and with it what the call in progress holds. -/
theorem Sane.setFile {file : File}
    (refs : ∀ i, (s.setFile f file).opens i + l'.count i = s.opens i + l.count i)
    (count : file.ref = s.fds f + m'.count f) (others : ∀ g, g ≠ f → m'.count g = m.count g)
    (closed : file.ref = 0 → file.type = .none)
    (typed : file.type ≠ .none → (s.disk.node file.ip).type ≠ none) :
    Sane lost (s.setFile f file) l' m' where
  __ := sane
  counted i := by
    have before := sane.counted i
    have after := refs i
    show s.ref i = s.cwds i + _ + _
    omega
  files g := by
    show ((s.setFile f file).ftable g).ref = s.fds g + _
    by_cases eq : g = f
    · subst eq
      simpa [setFile] using count
    · simpa [State.setFile, eq, others g eq] using sane.files g
  closed g := by
    by_cases eq : g = f
    · subst eq
      simpa [setFile] using closed
    · simpa [State.setFile, eq] using sane.closed g
  held i pos := by
    have change := opens_setFile (s := s) (f := f) (i := i) file
    by_cases opened : file.type ≠ .none ∧ file.ip = i
    · obtain ⟨type, rfl⟩ := opened
      exact typed type
    · rw [if_neg opened] at change
      have pos : 0 < s.cwds i + (s.setFile f file).opens i := pos
      exact sane.held i (by omega)

/-- The inode of an open file is allocated. -/
theorem Sane.opened (opened : (s.ftable f).type ≠ .none) :
    (s.disk.node (s.ftable f).ip).type ≠ none := by
  refine sane.held _ ?_
  have counted : (if (s.ftable f).type ≠ .none ∧ (s.ftable f).ip = (s.ftable f).ip then 1
      else 0) ≤ s.opens (s.ftable f).ip :=
    single_le_sum (f := fun g => if (s.ftable g).type ≠ .none ∧
      (s.ftable g).ip = (s.ftable f).ip then 1 else 0) (fun _ _ => Nat.zero_le _)
      (mem_univ f)
  rw [if_pos ⟨opened, rfl⟩] at counted
  omega

theorem wp_filealloc {Q : Option (Fin nfile) → State P → Prop}
    (full : (∀ f, (s.ftable f).ref ≠ 0) → Q none s)
    (free : ∀ f, (s.ftable f).ref = 0 → Sane lost (s.setFile f ((s.ftable f).withRef 1)) l
      (f :: m) → Q (some f) (s.setFile f ((s.ftable f).withRef 1))) : wp F filealloc Q s := by
  simp only [filealloc, wp_bind, wp_get]
  cases found : (finRange nfile).find? fun f => (s.ftable f).ref = 0 with
  | none =>
    refine full fun f => ?_
    have := find?_eq_none.1 found f (mem_finRange f)
    simpa using this
  | some f =>
    have empty : (s.ftable f).ref = 0 := by simpa using find?_some found
    have unused := sane.files f
    have type := sane.closed f empty
    simp only [wp_bind, wp_set, wp_pure]
    refine free f empty (sane.setFile (fun i => ?_) ?_ (fun g ne => ?_) (by simp [File.withRef]) ?_)
    · rw [opens_withRef]
    · rw [count_cons_self]
      show 1 = _
      omega
    · rw [count_cons_of_ne (Ne.symm ne)]
    · exact fun opened => absurd type opened

theorem wp_filedup (pos : 0 < (s.ftable f).ref)
    (post : Sane lost (s.setFile f ((s.ftable f).withRef ((s.ftable f).ref + 1))) l (f :: m) →
      Q () (s.setFile f ((s.ftable f).withRef ((s.ftable f).ref + 1)))) : wp F (filedup f) Q s := by
  simp only [filedup, wp_bind, wp_get, wp_ite, wp_throw, wp_set]
  refine ⟨fun none => by omega, fun _ => post (sane.setFile (fun i => ?_) ?_ (fun g ne => ?_)
    (by simp [File.withRef]) fun opened => ?_)⟩
  · rw [opens_withRef]
  · have := sane.files f
    rw [count_cons_self]
    show (s.ftable f).ref + 1 = _
    omega
  · rw [count_cons_of_ne (Ne.symm ne)]
  · exact sane.opened opened

end

/-- Closing a file gives back its inode with the last descriptor. -/
theorem wp_fileclose (sane : Sane lost s l (f :: m))
    (post : ∀ t, Sane lost t l m → t.proc = s.proc → t.initproc = s.initproc →
      t.disk.ninodes = s.disk.ninodes → Frees s.disk.node t.disk.node →
      ((s.ftable f).type = .none → t.disk = s.disk ∧ t.ref = s.ref) → Q () t) :
    wp F (fileclose f) Q s := by
  have counted := sane.files f
  rw [count_cons_self] at counted
  simp only [fileclose, wp_bind, wp_get, wp_ite, wp_throw, wp_set, wp_pure]
  refine ⟨fun none => by omega, fun _ => ⟨fun more => ?_, fun last => ⟨fun unused => ?_,
    fun opened => ?_⟩⟩⟩
  · refine post _ (sane.setFile (fun i => ?_) ?_ (fun g ne => ?_) (fun zero => ?_)
      fun opened => ?_) rfl rfl rfl (Frees.refl _) fun _ => ⟨rfl, rfl⟩
    · rw [opens_withRef]
    · show (s.ftable f).ref - 1 = _
      omega
    · rw [count_cons_of_ne (Ne.symm ne)]
    · have zero : (s.ftable f).ref - 1 = 0 := zero
      omega
    · exact sane.opened opened
  · refine post _ (sane.setFile (fun i => ?_) ?_ (fun g ne => ?_) (fun _ => rfl)
      fun opened => absurd rfl opened) rfl rfl rfl (Frees.refl _) fun _ => ⟨rfl, rfl⟩
    · have change := opens_setFile (s := s) (f := f) (i := i) ⟨0, .none, (s.ftable f).ip⟩
      simp only [unused, ne_eq, not_true_eq_false, false_and, if_false] at change
      omega
    · show 0 = _
      omega
    · rw [count_cons_of_ne (Ne.symm ne)]
  · simp only [iput, wp_modify]
    -- the file's reference passes to the call, which gives it back
    have taken : Sane lost (s.setFile f ⟨0, .none, (s.ftable f).ip⟩) ((s.ftable f).ip :: l) m := by
      refine sane.setFile (fun i => ?_) ?_ (fun g ne => ?_) (fun _ => rfl)
        fun opened => absurd rfl opened
      · have change := opens_setFile (s := s) (f := f) (i := i) ⟨0, .none, (s.ftable f).ip⟩
        simp only [opened, ne_eq, not_true_eq_false, false_and, if_false, not_false_eq_true,
          true_and] at change
        rw [count_cons]
        simp only [beq_iff_eq]
        omega
      · show 0 = _
        omega
      · rw [count_cons_of_ne (Ne.symm ne)]
    obtain ⟨proc, -, initproc, ninodes⟩ := iput_holders
      (t := s.setFile f ⟨0, .none, (s.ftable f).ip⟩) (i := (s.ftable f).ip)
    exact post _ taken.iput proc initproc ninodes iput_frees fun unused => absurd unused opened

end counts

/-! ## Processes -/

section processes

variable [DecidableEq P] [Fintype P]

theorem cwds_setProc (new : Option Proc) :
    (s.setProc p new).cwds i + (if (s.proc p).map Proc.cwd = some i then 1 else 0) =
      s.cwds i + if new.map Proc.cwd = some i then 1 else 0 := by
  have change := Ownership.sum_change
    (f := fun q => if (s.proc q).map Proc.cwd = some i then 1 else 0)
    (g := fun q => if ((s.setProc p new).proc q).map Proc.cwd = some i then 1 else 0)
    (mem_univ p) (fun q _ ne => by simp [setProc, ne])
  simpa only [cwds, setProc, update_self] using change

/-- The descriptors of one process for a file. -/
def Proc.fds (pr : Option Proc) (f : Fin nfile) : Nat :=
  ∑ fd, if (pr.bind fun pr => pr.ofile fd) = some f then 1 else 0

theorem fds_setProc (new : Option Proc) :
    (s.setProc p new).fds f + Proc.fds (s.proc p) f = s.fds f + Proc.fds new f := by
  have change := Ownership.sum_change (f := fun q => Proc.fds (s.proc q) f)
    (g := fun q => Proc.fds ((s.setProc p new).proc q) f)
    (mem_univ p) (fun q _ ne => by simp [setProc, ne])
  simp only [setProc, update_self] at change
  exact change

/-- A process changes, and with it what the call in progress holds. -/
theorem Sane.setProc (sane : Sane lost s l m) {new : Option Proc}
    (refs : ∀ i, (s.setProc p new).cwds i + l'.count i = s.cwds i + l.count i)
    (counts : ∀ f, (s.setProc p new).fds f + m'.count f = s.fds f + m.count f)
    (typed : ∀ pr, new = some pr → (s.disk.node pr.cwd).type ≠ none) :
    Sane lost (s.setProc p new) l' m' where
  __ := sane
  counted i := by
    have before := sane.counted i
    have after := refs i
    show s.ref i = _ + s.opens i + _
    omega
  files g := by
    have before := sane.files g
    have after := counts g
    show (s.ftable g).ref = _
    omega
  held i pos := by
    have change := cwds_setProc (s := s) (p := p) (i := i) new
    by_cases there : new.map Proc.cwd = some i
    · obtain ⟨pr, eq, rfl⟩ := map_eq_some_iff.1 there
      exact typed pr eq
    · rw [if_neg there] at change
      have pos : 0 < (s.setProc p new).cwds i + s.opens i := pos
      exact sane.held i (by omega)

omit [Fintype P] in
/-- Moving a descriptor. -/
theorem Proc.fds_update (f : Fin nfile) (pr : Proc) (fd : Fin nofile) (new : Option (Fin nfile)) :
    Proc.fds (some { pr with ofile := update pr.ofile fd new }) f +
        (if pr.ofile fd = some f then 1 else 0) =
      Proc.fds (some pr) f + if new = some f then 1 else 0 := by
  have change := Ownership.sum_change (f := fun k => if pr.ofile k = some f then 1 else 0)
    (g := fun k => if (update pr.ofile fd new) k = some f then 1 else 0)
    (mem_univ fd) (fun k _ ne => by simp [ne])
  simpa only [Proc.fds, bind_some, update_self] using change

/-- A descriptor gets a file from the call in progress, or gives one to it. -/
theorem Sane.setOfile (sane : Sane lost s l m) {fd : Fin nofile} {new : Option (Fin nfile)}
    (running : (s.proc p).isSome) (counts : ∀ f, (if new = some f then 1 else 0) + m'.count f =
      (if s.ofile p fd = some f then 1 else 0) + m.count f) :
    Sane lost (s.setOfile p fd new) l m' := by
  obtain ⟨pr, eq⟩ := isSome_iff_exists.1 running
  have cwd_held : (s.disk.node pr.cwd).type ≠ none := by
    have := Sane.cwds_pos eq
    exact sane.held _ (by omega)
  have as_proc : s.setOfile p fd new =
      s.setProc p (some { pr with ofile := update pr.ofile fd new }) := by
    simp [State.setOfile, State.setProc, eq]
  rw [as_proc]
  refine sane.setProc (fun i => ?_) (fun f => ?_) fun pr' same => ?_
  · have change := cwds_setProc (s := s) (p := p) (i := i)
      (some { pr with ofile := update pr.ofile fd new })
    rw [eq] at change
    simp only [map_some] at change
    omega
  · have change := fds_setProc (s := s) (p := p) (f := f)
      (some { pr with ofile := update pr.ofile fd new })
    have moved := Proc.fds_update f pr fd new
    have balance := counts f
    have at_fd : s.ofile p fd = pr.ofile fd := by simp [ofile, eq]
    rw [eq] at change
    rw [at_fd] at balance
    omega
  · cases same
    exact cwd_held

/-- The current directory of a process changes. -/
theorem Sane.setCwd (sane : Sane lost s (i :: l) m) (running : (s.proc p).isSome)
    (typed : (s.disk.node i).type ≠ none) : Sane lost (s.setCwd p i) (s.cwd p :: l) m := by
  obtain ⟨pr, eq⟩ := isSome_iff_exists.1 running
  have as_proc : s.setCwd p i = s.setProc p (some { pr with cwd := i }) := by
    simp [State.setCwd, State.setProc, eq]
  have cwd : s.cwd p = pr.cwd := by simp [cwd, eq]
  rw [as_proc, cwd]
  refine sane.setProc (fun j => ?_) (fun f => ?_) fun pr' same => ?_
  · have change := cwds_setProc (s := s) (p := p) (i := j) (some { pr with cwd := i })
    rw [eq] at change
    simp only [map_some, some.injEq] at change
    simp only [count_cons, beq_iff_eq]
    omega
  · have change := fds_setProc (s := s) (p := p) (f := f) (some { pr with cwd := i })
    have same : Proc.fds (some { pr with cwd := i }) f = Proc.fds (some pr) f := rfl
    rw [eq, same] at change
    omega
  · cases same
    exact typed

theorem wp_fdalloc {Q : Option (Fin nofile) → State P → Prop} (sane : Sane lost s l (f :: m))
    (running : (s.proc p).isSome) (full : (∀ fd, (s.ofile p fd).isSome) → Q none s)
    (free : ∀ fd, s.ofile p fd = none → Sane lost (s.setOfile p fd (some f)) l m →
      Q (some fd) (s.setOfile p fd (some f))) : wp F (fdalloc p f) Q s := by
  simp only [fdalloc, wp_bind, wp_get]
  cases found : (finRange nofile).find? fun fd => (s.ofile p fd).isNone with
  | none =>
    refine full fun fd => ?_
    have := find?_eq_none.1 found fd (mem_finRange fd)
    simpa [isSome_iff_ne_none] using this
  | some fd =>
    have empty : s.ofile p fd = none := by simpa using find?_some found
    simp only [wp_bind, wp_set, wp_pure]
    refine free fd empty (sane.setOfile running fun g => ?_)
    rw [empty, count_cons]
    simp only [some.injEq, beq_iff_eq, reduceCtorEq, if_false]
    omega

end processes

end Xv6.Names
