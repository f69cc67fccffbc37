import Xv6.Names.LinkCalls

/-!
# The calls on processes and descriptors, and all calls together

`chdir`, `close`, `dup`, `exec`, `fork` and `exit` change no name; they take and give back
references, the last of which may free an inode.  `wp_perform` is the specification of every
call.
-/

namespace Xv6.Names

open Program Function State Option List

variable {P : Type} [DecidableEq P] {F : String → Prop} {lost : Set Nat} {s t u : State P}
  {l : List Nat} {m : List (Fin nfile)} {p child : P} {i j : Nat} {f : Fin nfile} {fd : Fin nofile}
  {good : Nat → Prop} {call : Call P} {new : Option (Fin nfile)} {n : Int}

/-! ## Processes and the inode table are apart -/

theorem iput_setProc (pr : Option Proc) : (t.setProc p pr).iput i = (t.iput i).setProc p pr := by
  by_cases last : t.ref i = 1 ∧ t.valid i ∧ (t.disk.inode i).nlink = 0
  · have here : t.iput i = (t.ifree i).unref i := if_pos last
    have there : (t.setProc p pr).iput i = ((t.setProc p pr).ifree i).unref i := if_pos last
    rw [here, there]
    rfl
  · have here : t.iput i = t.unref i := if_neg last
    have there : (t.setProc p pr).iput i = (t.setProc p pr).unref i := if_neg last
    rw [here, there]
    rfl

theorem iput_setCwd : (t.iput j).setCwd p i = (t.setCwd p i).iput j := by
  have proc := (iput_holders (t := t) (i := j)).1
  change (t.iput j).setProc p (((t.iput j).proc p).map _) = (t.setProc p ((t.proc p).map _)).iput j
  rw [iput_setProc, proc]

theorem iput_setOfile : (t.iput j).setOfile p fd new = (t.setOfile p fd new).iput j := by
  have proc := (iput_holders (t := t) (i := j)).1
  change (t.iput j).setProc p (((t.iput j).proc p).map _) = (t.setProc p ((t.proc p).map _)).iput j
  rw [iput_setProc, proc]

/-- Closing a file before or after its descriptor is cleared. -/
theorem wp_fileclose_setOfile {R : State P → Prop}
    (after : wp F (fileclose f) (fun _ t => R t) (s.setOfile p fd new)) :
    wp F (fileclose f) (fun _ t => R (t.setOfile p fd new)) s := by
  simp only [fileclose, wp_bind, wp_get, wp_ite, wp_throw, wp_set, wp_pure, iput, wp_modify]
    at after ⊢
  obtain ⟨none, some⟩ := after
  refine ⟨none, fun pos => ⟨(some pos).1, fun last => ⟨((some pos).2 last).1, fun opened => ?_⟩⟩⟩
  have := ((some pos).2 last).2 opened
  rw [iput_setOfile]
  exact this

theorem setOfile_cwds (q : P) :
    ((s.setOfile p fd new).proc q).map Proc.cwd = (s.proc q).map Proc.cwd := by
  by_cases eq : q = p
  · subst eq
    simp only [setOfile, update_self, Option.map_map]
    rfl
  · simp only [setOfile, update_of_ne eq]

theorem setOfile_ofile (running : (s.proc p).isSome) (k : Fin nofile) :
    (s.setOfile p fd new).ofile p k = if k = fd then new else s.ofile p k := by
  obtain ⟨pr, eq⟩ := isSome_iff_exists.1 running
  simp only [ofile, setOfile, update_self, eq, map_some, bind_some]
  split
  · next same =>
      subst same
      rw [update_self]
  · next ne => rw [update_of_ne ne]

/-! ## Descriptors -/

omit [DecidableEq P] in
theorem argfd_some (arg : argfd s p n = some (fd, f)) : s.ofile p fd = some f := by
  unfold argfd at arg
  split at arg
  · obtain ⟨g, at_fd, eq⟩ := map_eq_some_iff.1 arg
    cases eq
    exact at_fd
  · cases arg

variable [Fintype P] {file : Option (List UInt8)} {fds : List (Fin nofile)}

omit [DecidableEq P] in
/-- A file with a descriptor is in use. -/
theorem Sane.file_pos (sane : Sane lost s l m) (desc : s.ofile p fd = some f) :
    0 < (s.ftable f).ref := by
  have inner : (if s.ofile p fd = some f then 1 else 0) ≤
      ∑ k, if s.ofile p k = some f then 1 else 0 :=
    Finset.single_le_sum (f := fun k => if s.ofile p k = some f then 1 else 0)
      (fun _ _ => Nat.zero_le _) (Finset.mem_univ fd)
  have outer : (∑ k, if s.ofile p k = some f then 1 else 0) ≤ s.fds f :=
    Finset.single_le_sum (f := fun q => ∑ k, if s.ofile q k = some f then 1 else 0)
      (fun _ _ => Nat.zero_le _) (Finset.mem_univ p)
  rw [if_pos desc] at inner
  have := sane.files f
  omega

theorem wp_sysClose (sane : Sane lost s [] []) (running : (s.proc p).isSome) :
    wp F (sysClose p n) (Performed lost s p (.close n)) s := by
  have strands : ¬s.Strands p (.close n) := fun no => no
  simp only [sysClose, wp_bind, wp_get]
  cases arg : argfd s p n with
  | none => exact .looked sane strands sane.holding
  | some desc =>
    obtain ⟨fd, f⟩ := desc
    have at_fd := argfd_some arg
    have cleared : Sane lost (s.setOfile p fd none) [] [f] := sane.setOfile running fun g => by
      rw [at_fd, count_singleton]
      simp
    simp only [wp_bind, wp_set, wp_pure]
    exact wp_fileclose cleared fun t sane' proc initproc ninodes frees _ =>
      .changed sane' (fun q => by rw [proc, setOfile_cwds]) initproc ninodes .same frees (by decide)

theorem wp_sysDup (sane : Sane lost s [] []) (running : (s.proc p).isSome) :
    wp F (sysDup p n) (Performed lost s p (.dup n)) s := by
  have strands : ¬s.Strands p (.dup n) := fun no => no
  simp only [sysDup, wp_bind, wp_get]
  cases arg : argfd s p n with
  | none => exact .looked sane strands sane.holding
  | some desc =>
    obtain ⟨fd, f⟩ := desc
    have pos := sane.file_pos (argfd_some arg)
    -- the order of `fdalloc` and `filedup` does not matter
    have dup : wp F (filedup f) (fun _ t => wp F (fdalloc p f) (fun r t =>
        ∀ k : Fin nofile, r = some k → Performed lost s p (.dup n) (k : Nat) t) t) s := by
      refine wp_filedup sane pos fun more => wp_fdalloc more running (fun _ => ?_)
        fun k free done => ?_
      · intro k no
        cases no
      · intro k' eq
        cases eq
        exact .changed done (fun q => by rw [setOfile_cwds]; rfl) rfl rfl .same (Frees.refl _)
          (by omega)
    simp only [fdalloc, filedup, wp_bind, wp_get, wp_ite, wp_throw, wp_set] at dup ⊢
    have more := dup.2 (by omega)
    cases found : (finRange nofile).find? fun fd => (s.ofile p fd).isNone with
    | none => exact .looked sane strands sane.holding
    | some k =>
      have same : ((finRange nofile).find? fun fd =>
          ((s.setFile f ((s.ftable f).withRef ((s.ftable f).ref + 1))).ofile p fd).isNone) =
          some k := found
      rw [same] at more
      simp only [wp_bind, wp_set, wp_pure, wp_ite, wp_throw] at more ⊢
      refine ⟨fun none => ?_, fun _ => more k rfl⟩
      change (s.ftable f).ref < 1 at none
      omega

section

variable (sane : Sane lost s [] []) (safe : Safe F lost good s p)
  (room : s.itable.length + 2 ≤ ninode ∨ F "iget: no inodes")
include sane safe room

theorem wp_sysChdir : wp F (sysChdir p file) (Performed lost s p (.chdir file)) s := by
  have strands : ¬s.Strands p (.chdir file) := fun no => no
  cases file with
  | none => exact .looked sane strands sane.holding
  | some path =>
    rw [sysChdir, wp_bind]
    refine wp_namei sane safe room (fun _ t hold => .looked sane strands hold)
      fun ip last t target found hold => ?_
    have out := safe.walk.avoids ip found
    simp only [wp_bind]
    refine wp_ilock hold hold.ref_pos (safe.walk.alive ip found) fun t₁ hold₁ _ typed => ?_
    have type : (t₁.disk.inode ip).type = (s.disk.node ip).type := by
      rw [← hold₁.node]
      rfl
    simp only [wp_get, type, wp_ite, wp_bind, wp_pure, wp_modify]
    refine ⟨fun dir => ?_, fun _ =>
      wp_iput_found sane out hold₁ fun t₂ hold₂ => .looked sane strands hold₂⟩
    have running : (t₁.proc p).isSome := by
      rw [hold₁.proc]
      exact safe.running
    have moved := (sane.hold hold₁ (by simpa using out)).setCwd running
      (by rw [hold₁.node]; exact typed)
    simp only [iput, wp_modify]
    rw [iput_setCwd]
    obtain ⟨proc, -, initproc, ninodes⟩ := iput_holders (t := t₁.setCwd p ip) (i := t₁.cwd p)
    exact
      { sane := moved.iput
        initproc := initproc.trans hold₁.initproc
        ninodes := ninodes.trans (congrArg Disk.ninodes hold₁.disk)
        names := ⟨_, .same, by
          rw [← hold₁.disk]
          exact iput_frees⟩
        cwds := fun q pr running' => by
          rw [proc] at running'
          obtain ⟨pr₀, eq⟩ := isSome_iff_exists.1 running
          by_cases here : q = p
          · subst here
            simp only [setCwd, update_self, eq, map_some, some.injEq] at running'
            subst running'
            exact .inr ⟨path, last, rfl, target, dir⟩
          · simp only [setCwd, update_of_ne here] at running'
            rw [hold₁.proc] at running'
            exact .inl ⟨q, pr, running', rfl⟩
        failed := fun neg => absurd neg (by decide) }

omit [DecidableEq P] in
theorem wp_sysExec : wp F (sysExec p file) (Performed lost s p (.exec file)) s := by
  have strands : ¬s.Strands p (.exec file) := fun no => no
  cases file with
  | none => exact .looked sane strands sane.holding
  | some path =>
    rw [sysExec, wp_bind]
    refine wp_namei sane safe room (fun _ t hold => .looked sane strands hold)
      fun ip last t target found hold => ?_
    simp only [wp_bind]
    refine wp_ilock hold hold.ref_pos (safe.walk.alive ip found) fun t₁ hold₁ _ _ => ?_
    exact wp_iput_found sane (safe.walk.avoids ip found) hold₁ fun t₂ hold₂ =>
      .looked sane strands hold₂

end

/-! ## `exit` -/

/-- What the loop of `exit` leaves. -/
structure Closed (lost : Set Nat) (s : State P) (p : P) (fds : List (Fin nofile)) (t : State P) :
    Prop where
  sane : Sane lost t [] []
  initproc : t.initproc = s.initproc
  ninodes : t.disk.ninodes = s.disk.ninodes
  frees : Frees s.disk.node t.disk.node
  cwds : ∀ q, (t.proc q).map Proc.cwd = (s.proc q).map Proc.cwd
  closed : ∀ fd ∈ fds, t.ofile p fd = none
  stay : ∀ fd, s.ofile p fd = none → t.ofile p fd = none

omit [Fintype P] [DecidableEq P] in
theorem isSome_of_cwds (same : ∀ q, (t.proc q).map Proc.cwd = (s.proc q).map Proc.cwd)
    (running : (s.proc p).isSome) : (t.proc p).isSome := by
  have := congrArg isSome (same p)
  simpa [running] using this

theorem wp_closeAll (sane : Sane lost s [] []) (running : (s.proc p).isSome) :
    wp F (closeAll p fds) (fun _ t => Closed lost s p fds t) s := by
  induction fds generalizing s with
  | nil => exact ⟨sane, rfl, rfl, Frees.refl _, fun _ => rfl, by simp, fun _ none => none⟩
  | cons fd rest ih =>
    simp only [closeAll, wp_bind, wp_get]
    cases desc : s.ofile p fd with
    | none =>
      refine wp_mono (fun _ t done => ?_) (ih sane running)
      refine ⟨done.sane, done.initproc, done.ninodes, done.frees, done.cwds, ?_, done.stay⟩
      rintro k mem
      rcases mem_cons.1 mem with rfl | later
      · exact done.stay k desc
      · exact done.closed k later
    | some f =>
      simp only [wp_bind, wp_modify]
      refine wp_fileclose_setOfile (R := fun t => wp F (closeAll p rest)
        (fun _ t => Closed lost s p (fd :: rest) t) t) ?_
      have cleared : Sane lost (s.setOfile p fd none) [] [f] := sane.setOfile running fun g => by
        rw [desc, count_singleton]
        simp
      refine wp_fileclose cleared fun t sane' proc initproc ninodes frees _ => ?_
      have cwds (q : P) : (t.proc q).map Proc.cwd = (s.proc q).map Proc.cwd := by
        rw [proc, setOfile_cwds]
      have ofile (k : Fin nofile) : t.ofile p k = if k = fd then none else s.ofile p k := by
        rw [← setOfile_ofile running]
        simp only [ofile, proc]
      refine wp_mono (fun _ u done => ?_) (ih sane' (isSome_of_cwds cwds running))
      refine ⟨done.sane, done.initproc.trans initproc, done.ninodes.trans ninodes,
        frees.trans done.frees, fun q => (done.cwds q).trans (cwds q), ?_, fun k none => ?_⟩
      · rintro k mem
        rcases mem_cons.1 mem with rfl | later
        · exact done.stay k (by rw [ofile, if_pos rfl])
        · exact done.closed k later
      · refine done.stay k ?_
        rw [ofile, none, ite_self]

theorem wp_sysExit (sane : Sane lost s [] []) (running : (s.proc p).isSome)
    (exiting : F "init exiting") : wp F (sysExit p) (Performed lost s p .exit) s := by
  simp only [sysExit, wp_bind, wp_get, wp_ite, wp_throw]
  refine ⟨fun _ => exiting, fun _ => wp_mono (fun _ t done => ?_) (wp_closeAll sane running)⟩
  obtain ⟨pr, eq⟩ := isSome_iff_exists.1 (isSome_of_cwds done.cwds running)
  have cwd : t.cwd p = pr.cwd := by simp [cwd, eq]
  have gone : Sane lost (t.setProc p none) [pr.cwd] [] := by
    refine done.sane.setProc (fun i => ?_) (fun f => ?_) fun pr' no => by cases no
    · have change := cwds_setProc (s := t) (p := p) (i := i) none
      rw [eq] at change
      simp only [map_some, some.injEq, map_none, reduceCtorEq,
        if_false] at change
      simp only [count_singleton, beq_iff_eq, count_nil]
      omega
    · have change := fds_setProc (s := t) (p := p) (f := f) none
      have empty : Proc.fds (t.proc p) f = 0 := by
        refine Finset.sum_eq_zero fun k _ => if_neg ?_
        have := done.closed k (mem_finRange k)
        rw [ofile] at this
        rw [this]
        simp
      have none : Proc.fds none f = 0 := Finset.sum_eq_zero fun k _ => if_neg (by simp)
      omega
  simp only [iput, wp_modify, wp_pure]
  rw [cwd, ← iput_setProc]
  obtain ⟨proc, -, initproc, ninodes⟩ := iput_holders (t := t.setProc p none) (i := pr.cwd)
  exact
    { sane := gone.iput
      initproc := initproc.trans done.initproc
      ninodes := ninodes.trans done.ninodes
      names := ⟨_, .same, done.frees.trans iput_frees⟩
      cwds := fun q pr' running' => by
        rw [proc] at running'
        by_cases here : q = p
        · subst here
          simp [setProc] at running'
        · simp only [setProc, update_of_ne here] at running'
          exact .inl (Performed.cwds_of_proc done.cwds q pr' running')
      failed := fun neg => absurd neg (by decide) }

/-! ## `fork` -/

omit [DecidableEq P] in
theorem wp_dupAll (sane : Sane lost s [] m) :
    wp F (dupAll p fds) (fun _ t => ∃ m', Sane lost t [] m' ∧
      (∀ f, m'.count f = (fds.filterMap (s.ofile p)).count f + m.count f) ∧ t.proc = s.proc ∧
      t.initproc = s.initproc ∧ t.disk = s.disk) s := by
  induction fds generalizing s m with
  | nil => exact ⟨m, sane, by simp, rfl, rfl, rfl⟩
  | cons fd rest ih =>
    simp only [dupAll, wp_bind, wp_get]
    cases desc : s.ofile p fd with
    | none =>
      rw [filterMap_cons_none desc]
      exact ih sane
    | some f =>
      rw [filterMap_cons_some desc]
      simp only [wp_bind]
      refine wp_filedup sane (sane.file_pos desc) fun more => wp_mono ?_ (ih more)
      rintro _ t ⟨m', sane', counts, proc, initproc, disk⟩
      refine ⟨m', sane', fun g => ?_, proc, initproc, disk⟩
      rw [counts, count_cons, count_cons]
      have same : (s.setFile f ((s.ftable f).withRef ((s.ftable f).ref + 1))).ofile p =
          s.ofile p := rfl
      rw [same]
      omega

theorem Proc.fds_eq_count (pr : Proc) (f : Fin nfile) :
    Proc.fds (some pr) f = ((finRange nofile).filterMap pr.ofile).count f := by
  have list (fds : List (Fin nofile)) : (fds.filterMap pr.ofile).count f =
      (fds.map fun k => if pr.ofile k = some f then 1 else 0).sum := by
    induction fds with
    | nil => rfl
    | cons fd rest ih =>
      rw [map_cons, sum_cons, ← ih]
      cases desc : pr.ofile fd with
      | none => simp [filterMap_cons_none desc]
      | some g =>
        rw [filterMap_cons_some desc, count_cons]
        simp only [some.injEq, beq_iff_eq]
        omega
  rw [list, Proc.fds, Fin.sum_univ_def]
  rfl

theorem wp_sysFork (sane : Sane lost s [] []) (running : (s.proc p).isSome)
    (free : s.proc child = none) : wp F (sysFork p child) (Performed lost s p (.fork child)) s := by
  simp only [sysFork, wp_bind, wp_get, wp_modify, wp_pure]
  refine wp_mono ?_ (wp_dupAll sane)
  rintro _ t ⟨m, sane', counts, proc, initproc, disk⟩
  have running' : (t.proc p).isSome := by
    rw [proc]
    exact running
  refine wp_idup sane'.holding (sane'.cwd_ref running') fun t₁ hold₁ => ?_
  have out : t.cwd p ∉ lost := sane'.reached _ (sane'.cwd_ref running')
  have sane₁ : Sane lost t₁ [t.cwd p] m := sane'.hold hold₁ (by simpa using out)
  obtain ⟨pr, eq⟩ := isSome_iff_exists.1 running'
  have eq₁ : t₁.proc p = some pr := by
    rw [hold₁.proc]
    exact eq
  have cwd₁ : t₁.cwd p = pr.cwd := by simp [cwd, eq₁]
  have cwd : t.cwd p = pr.cwd := by simp [cwd, eq]
  have free₁ : t₁.proc child = none := by
    rw [hold₁.proc, proc]
    exact free
  have born : Sane lost (t₁.setProc child (some ⟨t₁.cwd p, t₁.ofile p⟩)) [] [] := by
    refine sane₁.setProc (fun i => ?_) (fun f => ?_) fun pr' same => ?_
    · have change := cwds_setProc (s := t₁) (p := child) (i := i) (some ⟨t₁.cwd p, t₁.ofile p⟩)
      rw [free₁] at change
      simp only [map_some, some.injEq, map_none, reduceCtorEq, if_false, cwd₁] at change
      rw [cwd₁]
      simp only [cwd, count_singleton, beq_iff_eq, count_nil]
      omega
    · have change := fds_setProc (s := t₁) (p := child) (f := f) (some ⟨t₁.cwd p, t₁.ofile p⟩)
      have none : Proc.fds none f = 0 := Finset.sum_eq_zero fun k _ => if_neg (by simp)
      rw [free₁, none, Proc.fds_eq_count] at change
      have same : t₁.ofile p = s.ofile p := by
        funext k
        simp only [ofile, hold₁.proc, proc]
      have taken := counts f
      rw [count_nil, ← same] at taken
      change _ = t₁.fds f + ((finRange nofile).filterMap (t₁.ofile p)).count f at change
      rw [count_nil]
      omega
    · cases same
      change (t₁.disk.node (t₁.cwd p)).type ≠ none
      have pos := Sane.cwds_pos eq₁
      rw [cwd₁]
      exact sane₁.held _ (by omega)
  have disk₁ : t₁.disk = s.disk := hold₁.disk.trans disk
  exact
    { sane := born
      initproc := hold₁.initproc.trans initproc
      ninodes := congrArg Disk.ninodes disk₁
      names := ⟨_, .same, by
        change Frees _ t₁.disk.node
        rw [disk₁]
        exact Frees.refl _⟩
      cwds := fun q pr' running'' => by
        by_cases here : q = child
        · subst here
          simp only [setProc, update_self, some.injEq] at running''
          subst running''
          refine .inl ⟨p, pr, ?_, cwd₁.symm⟩
          rw [← proc]
          exact eq
        · simp only [setProc, update_of_ne here] at running''
          rw [hold₁.proc, proc] at running''
          exact .inl ⟨q, pr', running'', rfl⟩
      failed := fun neg => absurd neg (by decide) }

/-! ## All calls -/

/-- Every call, from a sane state. -/
theorem wp_perform (sane : Sane lost s [] []) (can : s.CanCall p call) (safe : Safe F lost good s p)
    (room : s.itable.length + call.needs ≤ ninode ∨ F "iget: no inodes") :
    wp F (perform p call) (Performed lost s p call) s := by
  cases call with
  | «open» file omode => exact wp_sysOpen sane safe room
  | mkdir | mknod =>
    exact wp_sysCreate sane safe room (by decide) (by rintro _ rfl; rfl) fun no => no
  | link old new => exact wp_sysLink sane safe room
  | unlink file => exact wp_sysUnlink sane safe room
  | chdir file => exact wp_sysChdir sane safe room
  | close n => exact wp_sysClose sane safe.running
  | dup n => exact wp_sysDup sane safe.running
  | exec file => exact wp_sysExec sane safe room
  | fork child =>
    exact wp_sysFork sane safe.running (isNone_iff_eq_none.1 can.2)
  | exit => exact wp_sysExit sane safe.running safe.exiting

end Xv6.Names
