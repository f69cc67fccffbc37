import Xv6.Names.Create

/-!
# What the calls do to the name space

Every call keeps the state sane.  What it makes of the name space is one of three operations,
`created`, `linked` and `unlinked`, or nothing, after which inodes without links that nobody
holds may have been freed.  A call that returns -1 leaves the name space alone, with one
exception: `open` that has made a file and then finds no free file or descriptor.
-/

namespace Xv6.Names

open Program Function

variable {P : Type} {F : String → Prop} {lost : Set Nat} {s t : State P} {d : Disk}
  {l l' : List Nat} {m : List (Fin nfile)} {p : P} {i dp ip x : Nat} {name : Name}
  {path : List UInt8} {good : Nat → Prop} {omode : BitVec 32} {call : Call P} {r : Int}
  {v : Nat → Node} {file : Option (List UInt8)}

/-- The name space after `link`. -/
def linked (v : Nat → Node) (ip dp : Nat) (name : Name) : Nat → Node :=
  enter (addLinks v ip 1) dp name ip

/-- The name space without the entry in a slot. -/
def clear (v : Nat → Node) (dp slot : Nat) : Nat → Node :=
  Function.update v dp ⟨(v dp).type, (v dp).nlink, Disk.put slot ⟨0, []⟩ (v dp).entries⟩

/-- The name space after `unlink`. -/
def unlinked (v : Nat → Node) (dp slot ip : Nat) : Nat → Node :=
  let w := clear v dp slot
  addLinks (if (v ip).type = some .dir then addLinks w dp (-1) else w) ip (-1)

/-- The path and the type of inode that a call makes. -/
def Call.makes : Call P → Option (List UInt8 × Kind)
  | .open (some path) omode => if omode &&& oCreate ≠ 0 then some (path, .file) else none
  | .mkdir (some path) => some (path, .dir)
  | .mknod (some path) _ _ => some (path, .device)
  | _ => none

/-- The operations on the name space. -/
inductive Change (s : State P) (p : P) : Call P → (Nat → Node) → Prop
  | same {call : Call P} : Change s p call s.disk.node
  | create {call : Call P} {path : List UInt8} {kind : Kind} {dp x : Nat} {name : Name}
      (makes : call.makes = some (path, kind))
      (found : s.resolve p path true = some (dp, name))
      (absent : findEntry name 0 (s.disk.node dp).entries = none)
      (free : s.disk.freeInode = some x) :
      Change s p call (created s.disk.node x dp kind name)
  | link {old new : List UInt8} {ip dp : Nat} {last name : Name}
      (source : s.resolve p old false = some (ip, last))
      (typed : (s.disk.node ip).type ≠ none) (plain : (s.disk.node ip).type ≠ some .dir)
      (found : s.resolve p new true = some (dp, name))
      (absent : findEntry name 0 (s.disk.node dp).entries = none) :
      Change s p (.link (some old) (some new)) (linked s.disk.node ip dp name)
  | unlink {path : List UInt8} {dp ip slot : Nat} {name : Name}
      (found : s.resolve p path true = some (dp, name)) (not_dot : name ≠ dot)
      (not_dotdot : name ≠ dotdot)
      (entry : findEntry name 0 (s.disk.node dp).entries = some (slot, ip)) (ne : ip ≠ dp)
      (linked : 1 ≤ (s.disk.node ip).nlink.toInt)
      (empty : (s.disk.node ip).type = some .dir → isdirempty (s.disk.node ip).entries = true) :
      Change s p (.unlink (some path)) (unlinked s.disk.node dp slot ip)

/-- The call makes a file and then has no file structure or no descriptor to open it with. -/
def State.Strands (s : State P) (p : P) : Call P → Prop
  | .open (some path) omode => omode &&& oCreate ≠ 0 ∧ s.creates p path = true ∧
      ((∀ f, (s.ftable f).ref ≠ 0) ∨ ∀ fd, (s.ofile p fd).isSome)
  | _ => False

/-- What is known after a call. -/
structure Performed [Fintype P] (lost : Set Nat) (s : State P) (p : P) (call : Call P) (r : Int)
    (t : State P) : Prop where
  sane : Sane lost t [] []
  initproc : t.initproc = s.initproc
  ninodes : t.disk.ninodes = s.disk.ninodes
  names : ∃ v, Change s p call v ∧ Frees v t.disk.node
  cwds : ∀ q pr, t.proc q = some pr → (∃ q' pr', s.proc q' = some pr' ∧ pr'.cwd = pr.cwd) ∨
    ∃ path last, call = .chdir (some path) ∧ s.resolve p path false = some (pr.cwd, last) ∧
      (s.disk.node pr.cwd).type = some .dir
  failed : r = -1 → t.disk.node = s.disk.node ∧ ¬s.Strands p call ∨
    s.Strands p call ∧ ∃ x, (s.disk.node x).type = none ∧ (t.disk.node x).type ≠ none

/-- What the calls rely on: lookups stay among `good` inodes, and the errors that the state does
not exclude are allowed. -/
structure Safe (F : String → Prop) (lost : Set Nat) (good : Nat → Prop) (s : State P) (p : P) :
    Prop where
  walk : Walkable F lost s.disk good
  root : good rootino
  here : good (s.cwd p)
  running : (s.proc p).isSome
  links : F "unlink: nlink < 1" ∨ ∀ d, good d → (s.disk.node d).type = some .dir →
    ∀ de ∈ (s.disk.node d).entries, de.inum ≠ 0 → de.name ≠ dot → de.name ≠ dotdot →
      1 ≤ (s.disk.node de.inum).nlink.toInt
  deadlock : F "deadlock"
  writei : F "unlink: writei"
  exiting : F "init exiting"

/-- Inode-table entries a call may need at once. -/
def Call.needs : Call P → Nat
  | .link _ _ => 3
  | .close _ | .dup _ | .fork _ | .exit => 0
  | _ => 2

section performed

variable [Fintype P]

omit [Fintype P] in
theorem Performed.cwds_of_proc (same : ∀ q, (t.proc q).map Proc.cwd = (s.proc q).map Proc.cwd)
    (q : P) (pr : Proc) (running : t.proc q = some pr) :
    ∃ q' pr', s.proc q' = some pr' ∧ pr'.cwd = pr.cwd := by
  have eq := same q
  rw [running] at eq
  obtain ⟨pr', eq, cwd⟩ := Option.map_eq_some_iff.1 eq.symm
  exact ⟨q, pr', eq, cwd⟩

section

variable (sane : Sane lost t [] []) (cwds : ∀ q, (t.proc q).map Proc.cwd = (s.proc q).map Proc.cwd)
  (initproc : t.initproc = s.initproc) (ninodes : t.disk.ninodes = s.disk.ninodes)
include sane cwds initproc ninodes

/-- A call after which everybody is where it was. -/
theorem Performed.changed (change : Change s p call v) (frees : Frees v t.disk.node) (ok : r ≠ -1) :
    Performed lost s p call r t :=
  ⟨sane, initproc, ninodes, ⟨v, change, frees⟩,
    fun q pr running => .inl (cwds_of_proc cwds q pr running), fun neg => absurd neg ok⟩

/-- The same when the names are what they were. -/
theorem Performed.unchanged (node : t.disk.node = s.disk.node) (strands : ¬s.Strands p call) :
    Performed lost s p call r t :=
  ⟨sane, initproc, ninodes, ⟨_, .same, by rw [node]; exact Frees.refl _⟩,
    fun q pr running => .inl (cwds_of_proc cwds q pr running), fun _ => .inl ⟨node, strands⟩⟩

end

/-- A call that only looked around. -/
theorem Performed.looked (sane : Sane lost s [] []) (strands : ¬s.Strands p call)
    (hold : Holding s [] t) : Performed lost s p call r t :=
  .unchanged (sane.hold hold (by simp)) (fun q => by rw [hold.proc]) hold.initproc
    (by rw [hold.disk]) (by rw [hold.disk]) strands

/-- The end of `sys_open`. -/
theorem wp_openInode [DecidableEq P] {Q : Int → State P → Prop} (sane : Sane lost t [ip] [])
    (running : (t.proc p).isSome) (typed : (t.disk.node ip).type ≠ none)
    (stays : (t.disk.node ip).nlink ≠ 0 ∨ t.ref ip ≠ 1)
    (fail : ((t.disk.node ip).type = some .device ∨ (∀ f, (t.ftable f).ref ≠ 0) ∨
        ∀ fd, (t.ofile p fd).isSome) →
      ∀ t', Sane lost t' [] [] → t'.disk = t.disk → t'.proc = t.proc →
      t'.initproc = t.initproc → Q (-1) t')
    (done : ∀ (fd : Fin nofile) t', Sane lost t' [] [] → t'.disk.node = t.disk.node →
      t'.disk.ninodes = t.disk.ninodes → t'.initproc = t.initproc →
      (∀ q, (t'.proc q).map Proc.cwd = (t.proc q).map Proc.cwd) → Q fd t') :
    wp F (openInode p ip omode) Q t := by
  simp only [openInode, wp_bind, wp_get, wp_ite, iput, wp_modify, wp_pure]
  have back : (t.iput ip).disk = t.disk := by rw [iput_eq_unref stays]; rfl
  obtain ⟨proc, -, initproc, -⟩ := iput_holders (t := t) (i := ip)
  refine ⟨fun device => fail (.inl device.1) _ sane.iput back proc initproc, fun _ => ?_⟩
  refine wp_filealloc sane (fun none => fail (.inr (.inl none)) _ sane.iput back proc initproc)
    fun f empty sane₁ => ?_
  have type := sane.closed f empty
  refine wp_bind.2 (wp_fdalloc sane₁ running (fun full => ?_) fun fd free sane₂ => ?_)
  · refine wp_bind.2 (wp_fileclose sane₁ fun t₂ sane₂ proc₂ initproc₂ _ _ same => ?_)
    obtain ⟨disk₂, ref₂⟩ := same (by simpa [State.setFile, File.withRef] using type)
    simp only [wp_bind, wp_modify, wp_pure]
    have stays₂ : (t₂.disk.node ip).nlink ≠ 0 ∨ t₂.ref ip ≠ 1 := by
      rw [disk₂, ref₂]
      exact stays
    obtain ⟨proc₃, -, initproc₃, -⟩ := iput_holders (t := t₂) (i := ip)
    refine fail (.inr (.inr full)) _ sane₂.iput ?_ (proc₃.trans proc₂) (initproc₃.trans initproc₂)
    rw [iput_eq_unref stays₂]
    exact disk₂
  · set t₁ := t.setFile f ((t.ftable f).withRef 1) with eq₁
    set t₂ := t₁.setOfile p fd (some f) with eq₂
    have file₂ : t₂.ftable f = (t.ftable f).withRef 1 := update_self ..
    have type₂ : (t₂.ftable f).type = .none := by
      rw [file₂]
      exact type
    have kind (c : Prop) [Decidable c] :
        (if c then FileType.device else FileType.inode) ≠ .none := by
      split
      · simp
      · simp
    simp only [wp_bind, wp_modify]
    generalize kind' : (if (t.disk.inode ip).type = some .device then FileType.device
      else FileType.inode) = k
    have opened : k ≠ .none := by
      rw [← kind']
      exact kind _
    -- the call's reference passes to the open file
    have sane₃ : Sane lost (t₂.setFile f ⟨(t₂.ftable f).ref, k, ip⟩) [] [] := by
      refine sane₂.setFile (fun i => ?_) ?_ (fun _ _ => rfl) (fun zero => ?_) fun _ => typed
      · have change := opens_setFile (s := t₂) (f := f) (i := i) ⟨(t₂.ftable f).ref, k, ip⟩
        simp only [type₂, opened, ne_eq, not_true_eq_false, not_false_eq_true, false_and,
          true_and, if_false] at change
        rw [List.count_nil, List.count_singleton]
        simp only [beq_iff_eq]
        omega
      · exact sane₂.files f
      · rw [file₂] at zero
        cases zero
    have cwds (q : P) : (t₂.proc q).map Proc.cwd = (t.proc q).map Proc.cwd := by
      by_cases eq : q = p
      · subst eq
        simp only [eq₂, eq₁, State.setOfile, State.setFile, update_self, Option.map_map]
        rfl
      · simp only [eq₂, eq₁, State.setOfile, State.setFile, update_of_ne eq]
    simp only [wp_ite, wp_bind, wp_modify, wp_pure]
    refine ⟨fun trunc => ?_, fun _ => done fd _ sane₃ rfl rfl rfl cwds⟩
    have node : (t.disk.itrunc ip).node = t.disk.node := by
      rw [Disk.itrunc_node, ← sane.plain ip (fun dir => by
        have file : (t.disk.node ip).type = some .file := trunc.2
        rw [dir] at file
        cases file)]
      exact update_eq_self ip _
    exact done fd _ (sane₃.same_nodes rfl node) node rfl rfl cwds

theorem wp_namei {Q : Option Nat → State P → Prop} (sane : Sane lost s l m)
    (safe : Safe F lost good s p) (room : s.itable.length + 2 ≤ ninode ∨ F "iget: no inodes")
    (none : s.resolve p path false = none → ∀ t', Holding s [] t' → Q none t')
    (some : ∀ i name t', s.resolve p path false = some (i, name) → good i →
      Holding s [i] t' → Q (some i) t') : wp F (namei p path) Q s := by
  rw [namei, wp_bind]
  exact wp_namex sane safe.walk safe.root safe.here safe.running room none some

/-- An inode that a lookup found is not freed when the call gives it back. -/
theorem Sane.stays (sane : Sane lost s l m) (out : ip ∉ lost) (typed : (s.disk.node ip).type ≠ none)
    (hold : Holding s (ip :: l') t) : (t.disk.node ip).nlink ≠ 0 ∨ t.ref ip ≠ 1 := by
  rw [hold.node]
  by_cases unlinked : (s.disk.node ip).nlink = 0
  · have pos := (sane.kept ip out typed unlinked).1
    have := hold.ref ip
    rw [List.count_cons_self] at this
    exact .inr (by omega)
  · exact .inl unlinked

/-- The end of `sys_open` for a file that exists. -/
theorem wp_open_found [DecidableEq P] (sane : Sane lost s [] []) (out : ip ∉ lost)
    (typed : (s.disk.node ip).type ≠ none) (strands : ¬s.Strands p (.open file omode))
    (running : (s.proc p).isSome) (hold : Holding s [ip] t) :
    wp F (openInode p ip omode) (Performed lost s p (.open file omode)) t := by
  refine wp_openInode (sane.hold hold (by simpa using out)) (by rw [hold.proc]; exact running)
    (by rw [hold.node]; exact typed) (sane.stays out typed hold)
    (fun _ t' sane' disk proc initproc => ?_) fun fd t' sane' node ninodes initproc cwds => ?_
  · rw [hold.disk] at disk
    exact .unchanged sane' (fun q => by rw [proc, hold.proc]) (initproc.trans hold.initproc)
      (by rw [disk]) (by rw [disk]) strands
  · rw [hold.disk] at node ninodes
    exact .unchanged sane' (fun q => by rw [cwds, hold.proc]) (initproc.trans hold.initproc)
      ninodes node strands

theorem created_new {kind : Kind} (ne : x ≠ dp) : created v x dp kind name x =
      ⟨some kind, 1, if kind = .dir then [⟨x, dot⟩, ⟨dp, dotdot⟩] else []⟩ := by
  have entered : enter (make v x dp kind) dp name x x = make v x dp kind x :=
    update_of_ne ne ..
  by_cases directory : kind = .dir
  · rw [created, if_pos directory, addLinks, update_of_ne ne, entered, make, update_self]
  · rw [created, if_neg directory, entered, make, update_self]

theorem Frees.linked {v' : Nat → Node} (frees : Frees v v') (linked : (v i).nlink ≠ 0) :
    v' i = v i :=
  (frees i).resolve_right fun freed => linked freed.1

theorem wp_sysOpen [DecidableEq P] (sane : Sane lost s [] []) (safe : Safe F lost good s p)
    (room : s.itable.length + 2 ≤ ninode ∨ F "iget: no inodes") :
    wp F (sysOpen p file omode) (Performed lost s p (.open file omode)) s := by
  cases file with
  | none =>
    rw [sysOpen]
    exact .looked sane (fun no => no) sane.holding
  | some path =>
    rw [sysOpen]
    simp only [wp_ite]
    refine ⟨fun creating => ?_, fun existing => ?_⟩
    · rw [wp_bind]
      refine wp_create sane safe.walk safe.root safe.here safe.running room
        (fun no t' old => ?_) (fun ip t' _ no found hold typed => ?_)
        fun dp name x t' yes found absent free made => ?_
      · exact .unchanged old.sane (fun q => by rw [old.hold.proc]; rfl) old.hold.initproc
          old.ninodes old.node fun strands => no ⟨rfl, strands.2.1⟩
      · refine wp_open_found sane (safe.walk.avoids ip found) ?_ (fun strands => ?_)
          safe.running hold
        · rcases typed with typed | typed <;> simp [typed]
        · have yes : s.creates p path = true := strands.2.1
          rw [no] at yes
          cases yes
      · have dir := resolve_dir found
        have unused := (Disk.freeInode_some free).1
        have ne : x ≠ dp := by
          rintro rfl
          rw [unused] at dir
          cases dir
        have at_x : t'.disk.node x = ⟨some .file, 1, []⟩ := by
          rw [made.frees.linked (by rw [created_new ne]; simp), created_new ne]
          rfl
        obtain ⟨sane', proc, ftable, initproc, ninodes, frees⟩ := made
        refine wp_openInode sane' (by rw [proc]; exact safe.running) (by rw [at_x]; simp)
          (.inl (by rw [at_x]; simp)) (fun why t'' sane'' disk proc' initproc' => ?_)
          fun fd t'' sane'' node ninodes' initproc' cwds => ?_
        · exact
            { sane := sane''
              initproc := initproc'.trans initproc
              ninodes := by rw [disk, ninodes]
              names := ⟨_, .create (if_pos creating) found absent free,
                by rw [disk]; exact frees⟩
              cwds := fun q pr running => .inl (Performed.cwds_of_proc
                (fun q => by rw [proc', proc]) q pr running)
              failed := fun _ => .inr ⟨⟨creating, yes rfl, by
                rw [at_x, ftable] at why
                simpa [State.ofile, proc] using why⟩, x, unused, by rw [disk, at_x]; simp⟩ }
        · exact .changed sane'' (fun q => by rw [cwds, proc]) (initproc'.trans initproc)
            (by rw [ninodes', ninodes]) (.create (if_pos creating) found absent free)
            (by rw [node]; exact frees) (by omega)
    · have strands : ¬s.Strands p (.open (some path) omode) := fun strands =>
        existing strands.1
      rw [wp_bind]
      refine wp_namei sane safe room (fun _ t hold => .looked sane strands hold)
        fun ip name t _ found hold => ?_
      simp only [wp_bind]
      refine wp_ilock hold hold.ref_pos (safe.walk.alive ip found) fun t₁ hold₁ _ typed => ?_
      have out := safe.walk.avoids ip found
      simp only [wp_get, wp_ite, wp_bind, wp_pure]
      exact ⟨fun _ => wp_iput_found sane out hold₁ fun t₂ hold₂ => .looked sane strands hold₂,
        fun _ => wp_open_found sane out typed strands safe.running hold₁⟩

end performed

end Xv6.Names
