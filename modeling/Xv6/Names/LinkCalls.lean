import Xv6.Names.Effects

/-!
# `mkdir`, `mknod`, `link` and `unlink`

The calls that make and remove names without opening a file.
-/

namespace Xv6.Names

open Program Function Disk

variable {P : Type} [Fintype P] {F : String → Prop} {lost : Set Nat} {s t u : State P} {d : Disk}
  {p : P} {i dp ip x : Nat} {name : Name} {path : List UInt8} {good : Nat → Prop} {call : Call P}
  {file : Option (List UInt8)}

section

variable (sane : Sane lost s [] [])
include sane

theorem wp_sysCreate {kind : Kind} {major minor : BitVec 16} (safe : Safe F lost good s p)
    (room : s.itable.length + 2 ≤ ninode ∨ F "iget: no inodes") (other : kind ≠ .file)
    (makes : ∀ path, file = some path → call.makes = some (path, kind))
    (strands : ¬s.Strands p call) :
    wp F (sysCreate p file kind major minor) (Performed lost s p call) s := by
  cases file with
  | none => exact .looked sane strands sane.holding
  | some path =>
    rw [sysCreate, wp_bind]
    refine wp_create sane safe.walk safe.root safe.here safe.running room
      (fun _ t' old => ?_) (fun ip t' file _ _ _ _ => absurd file other)
      fun dp name x t' _ found absent free made => ?_
    · exact .unchanged old.sane (fun q => by rw [old.hold.proc]; rfl) old.hold.initproc old.ninodes
        old.node strands
    · simp only [wp_bind, wp_modify, wp_pure, iput]
      obtain ⟨proc', -, initproc', ninodes'⟩ := iput_holders (t := t') (i := x)
      exact .changed made.sane.iput (fun q => by rw [proc', made.proc])
        (initproc'.trans made.initproc) (ninodes'.trans made.ninodes)
        (.create (makes path rfl) found absent free) (made.frees.trans iput_frees) (by decide)

/-! ## `link` -/

/-- The label `bad` of `sys_link`: the link count is what it was. -/
theorem wp_linkBad (out : ip ∉ lost) (typed : (s.disk.node ip).type ≠ none)
    (strands : ¬s.Strands p call) (hold : Holding s [ip] t)
    (node : d.node = addLinks s.disk.node ip 1) (ninodes : d.ninodes = s.disk.ninodes)
    (hold' : Holding (t.on d) [] u) : wp F (linkBad ip) (Performed lost s p call) u := by
  have at_ip : (t.on d).disk.node ip =
      ⟨(s.disk.node ip).type, (s.disk.node ip).nlink + 1, (s.disk.node ip).entries⟩ := by
    change d.node ip = _
    rw [node, addLinks, update_self]
  simp only [linkBad, wp_bind, wp_modify, wp_pure]
  have pos : 0 < u.ref ip := by
    have before := hold.ref_pos
    have : u.ref ip = t.ref ip + _ := hold'.ref ip
    omega
  refine wp_ilock hold' pos (.inl (by rw [at_ip]; exact typed)) fun w hold'' _ _ => ?_
  have disk : w.disk = d := hold''.disk
  set d₂ := d.setNlink ip ((d.node ip).nlink - 1) with eq₂
  have node₂ : d₂.node = s.disk.node := by
    rw [eq₂, setNlink_node, node, addLinks, update_self, update_idem]
    change update s.disk.node ip ⟨_, (s.disk.node ip).nlink + 1 - 1, _⟩ = _
    rw [add_sub_cancel_right]
    exact update_eq_self ip _
  have as_on : w.setNlink ip ((w.disk.inode ip).nlink - 1) = w.on d₂ := by
    rw [State.setNlink, disk]
    rfl
  have same := (update_eq_self ip s.disk.node).symm
  have first : Holding (s.on d) [ip] (t.on d) :=
    Holding.edit (t := s) (d := s.disk) hold same node typed
  have both : Holding (s.on d₂) [ip] (w.on d₂) :=
    (first.trans hold'').edit node (node₂.trans same) typed
  have base : Sane lost (s.on d₂) [] [] := sane.same_nodes ninodes node₂
  rw [as_on]
  exact wp_iput_found base out both fun t' hold₃ => .unchanged (base.hold hold₃ (by simp))
    (fun q => by rw [hold₃.proc]; rfl) hold₃.initproc (by rw [hold₃.disk]; exact ninodes)
    (by rw [hold₃.disk]; exact node₂) strands

theorem wp_sysLink {old new : Option (List UInt8)}
    (safe : Safe F lost good s p) (room : s.itable.length + 3 ≤ ninode ∨ F "iget: no inodes") :
    wp F (sysLink p old new) (Performed lost s p (.link old new)) s := by
  have strands : ¬s.Strands p (.link old new) := fun no => no
  cases old with
  | none => exact .looked sane strands sane.holding
  | some old =>
  cases new with
  | none => exact .looked sane strands sane.holding
  | some new =>
    have room₂ : s.itable.length + 2 ≤ ninode ∨ F "iget: no inodes" :=
      room.imp_left fun _ => by omega
    simp only [sysLink, wp_bind]
    refine wp_namei sane safe room₂ (fun _ t hold => .looked sane strands hold)
      fun ip last t source found hold => ?_
    have out := safe.walk.avoids ip found
    simp only [wp_bind]
    refine wp_ilock hold hold.ref_pos (safe.walk.alive ip found) fun t₁ hold₁ valid₁ typed => ?_
    have type : (t₁.disk.inode ip).type = (s.disk.node ip).type := by
      rw [← hold₁.node]
      rfl
    simp only [wp_get, type, wp_ite, wp_bind, wp_pure, wp_modify]
    refine ⟨fun _ => wp_iput_found sane out hold₁ fun t₂ hold₂ => .looked sane strands hold₂,
      fun plain => ?_⟩
    have nlink : (t₁.disk.inode ip).nlink = (s.disk.node ip).nlink := by
      rw [← hold₁.node]
      rfl
    rw [nlink]
    set t₂ := t₁.setNlink ip ((s.disk.node ip).nlink + 1) with eq₂
    have node₂ : t₂.disk.node = addLinks s.disk.node ip 1 := by
      change (t₁.disk.setNlink ip _).node = _
      rw [setNlink_node, hold₁.disk]
      rfl
    have ninodes₂ : t₂.disk.ninodes = s.disk.ninodes := by
      change t₁.disk.ninodes = _
      rw [hold₁.disk]
    have same (i : Nat) : (t₂.disk.node i).type = (s.disk.node i).type ∧
        (t₂.disk.node i).entries = (s.disk.node i).entries := by
      rw [node₂, addLinks]
      by_cases eq : i = ip
      · subst eq
        rw [update_self]
        exact ⟨rfl, rfl⟩
      · rw [update_of_ne eq]
        exact ⟨rfl, rfl⟩
    have sane₁ : Sane lost t₁ [ip] [] := sane.hold hold₁ (by simpa using out)
    have sane₂ : Sane lost t₂ [ip] [] := by
      refine sane₁.setNlink out ?_ fun _ => ⟨hold₁.ref_pos, valid₁⟩
      rw [hold₁.node]
      exact typed
    have proc₂ : t₂.proc = s.proc := hold₁.proc
    have cwd₂ : t₂.cwd p = s.cwd p := by simp only [State.cwd, proc₂]
    have resolve₂ : t₂.resolve p new true = s.resolve p new true := by
      rw [State.resolve, State.resolve, cwd₂]
      exact resolveFrom_congr same
    have walk₂ := safe.walk.congr same
    have room₃ : t₂.itable.length + 2 ≤ ninode ∨ F "iget: no inodes" := by
      have := sane.length_le hold₁
      have : t₂.itable.length ≤ s.itable.length + 1 := this
      exact room.imp_left fun _ => by omega
    refine wp_namex sane₂ walk₂ safe.root (by rw [cwd₂]; exact safe.here)
      (by rw [proc₂]; exact safe.running) room₃ (fun _ t₃ hold₃ => ?_)
      fun dp name t₃ target found_dp hold₃ => ?_
    · exact wp_linkBad (d := t₂.disk) sane out typed strands hold₁ node₂ ninodes₂ hold₃
    · rw [resolve₂] at target
      have out_dp := safe.walk.avoids dp found_dp
      have dir : (t₂.disk.node dp).type = some .dir := by
        rw [(same dp).1]
        exact resolve_dir target
      simp only [wp_bind]
      refine wp_ilock hold₃ hold₃.ref_pos (walk₂.alive dp found_dp) fun t₄ hold₄ valid₄ _ => ?_
      have space := sane₂.room hold₄ room₃ (by simp)
      cases entry : findEntry name 0 (t₂.disk.node dp).entries with
      | some hit =>
        refine wp_dirlink_taken sane₂ hold₄ dir entry out_dp space fun t₅ hold₅ => ?_
        simp only [wp_ite, wp_bind, wp_pure]
        refine ⟨fun _ => ?_, fun no => absurd (by decide) no⟩
        exact wp_iput_found sane₂ out_dp hold₅ fun t₆ hold₆ =>
          wp_linkBad (d := t₂.disk) sane out typed strands hold₁ node₂ ninodes₂ hold₆
      | none =>
        have disk₄ : t₄.disk = t₂.disk := hold₄.disk
        refine wp_dirlink hold₄ dir entry (fun fits => ?_) fun full => ?_
        · rw [disk₄] at fits ⊢
          obtain ⟨-, ninodes₅, written⟩ := writei_of_fits ⟨ip, name⟩ fits
          set d₅ := (t₂.disk.writei dp (emptySlot (t₂.disk.node dp).entries) ⟨ip, name⟩).2
          have node₅ : d₅.node = linked s.disk.node ip dp name := by
            rw [written, node₂]
            rfl
          have entered : Holding (t₂.on d₅) [dp] (t₄.on d₅) :=
            Holding.edit (t := t₂) (d := t₂.disk) hold₄
              (update_eq_self dp t₂.disk.node).symm written (by rw [dir]; simp)
          have sane₅ : Sane lost (t₄.on d₅) [dp, ip] [] := by
            refine sane₂.change entered (by simpa using out_dp) ninodes₅ fun i => ?_
            rw [written]
            by_cases eq : i = dp
            · subst eq
              rw [update_self]
              refine .inr ⟨out_dp, by rw [dir]; simp, fun _ => ⟨hold₄.ref_pos, valid₄⟩,
                fun plain => absurd dir plain, fun de mem nonzero => ?_⟩
              rcases mem_put mem with rfl | old
              · exact out
              · exact sane₂.apart i out_dp de old nonzero
            · exact .inl (update_of_ne eq ..)
          simp only [lt_irrefl, if_false, wp_bind, wp_modify, wp_pure, iput]
          obtain ⟨proc₆, -, initproc₆, ninodes₆⟩ := iput_holders (t := t₄.on d₅) (i := dp)
          obtain ⟨proc₇, -, initproc₇, ninodes₇⟩ :=
            iput_holders (t := (t₄.on d₅).iput dp) (i := ip)
          have proc₄ : t₄.proc = s.proc := hold₄.proc.trans proc₂
          refine .changed sane₅.iput.iput
            (fun q => by rw [proc₇, proc₆]; exact congrArg _ (congrFun proc₄ q))
            (initproc₇.trans (initproc₆.trans (hold₄.initproc.trans hold₁.initproc)))
            (ninodes₇.trans (ninodes₆.trans (ninodes₅.trans ninodes₂)))
            (.link source typed plain target (by rw [← (same dp).2]; exact entry)) ?_ (by decide)
          rw [← node₅]
          exact iput_frees.trans iput_frees
        · rw [disk₄] at full ⊢
          obtain ⟨-, ninodes₅, written⟩ := writei_of_full ⟨ip, name⟩ full
          set d₅ := (t₂.disk.writei dp (emptySlot (t₂.disk.node dp).entries) ⟨ip, name⟩).2
          have base : Sane lost (t₂.on d₅) [ip] [] := sane₂.same_nodes ninodes₅ written
          have kept : Holding (t₂.on d₅) [dp] (t₄.on d₅) := hold₄.on fun j valid => by
            rw [written, ← disk₄]
            exact hold₄.cached j valid
          simp only [wp_ite, wp_bind, wp_pure]
          refine ⟨fun _ => ?_, fun no => absurd (by decide) no⟩
          exact wp_iput_found base out_dp kept fun t₆ hold₆ =>
            wp_linkBad (d := d₅) sane out typed strands hold₁ (written.trans node₂)
              (ninodes₅.trans ninodes₂) hold₆

/-! ## `unlink` -/

/-- The end of `sys_unlink`, when the entry has been cleared. -/
theorem wp_unlink_done (hold : Holding s [dp] t) (valid : t.valid dp) (out : dp ∉ lost)
    (dir : (s.disk.node dp).type = some .dir) (ne : ip ≠ dp) (out' : ip ∉ lost)
    (typed : (s.disk.node ip).type ≠ none) {slot : Nat} (hold' : Holding t [ip] u)
    (valid' : u.valid ip) (node : d.node = clear s.disk.node dp slot)
    (ninodes : d.ninodes = s.disk.ninodes)
    (change : Change s p call (unlinked s.disk.node dp slot ip)) : wp F (do
      let s ← get
      if (s.disk.inode ip).type = some .dir then
        modify fun s => s.setNlink dp ((s.disk.inode dp).nlink - 1)
      iput dp
      modify fun s => s.setNlink ip ((s.disk.inode ip).nlink - 1)
      iput ip
      return 0) (Performed lost s p call) (u.on d) := by
  have held : Sane lost t [dp] [] := sane.hold hold (by simpa using out)
  have at_dp : d.node dp = ⟨(s.disk.node dp).type, (s.disk.node dp).nlink,
      put slot ⟨0, []⟩ (s.disk.node dp).entries⟩ := by
    rw [node, clear, update_self]
  have at_ip : d.node ip = s.disk.node ip := by rw [node, clear, update_of_ne ne]
  have elsewhere {i : Nat} (ne : i ≠ dp) : d.node i = t.disk.node i := by
    rw [node, clear, update_of_ne ne, hold.disk]
  -- whatever the directory's link count has become, the state is sane
  have changed {d' : Disk} {n : BitVec 16} (ninodes' : d'.ninodes = d.ninodes)
      (node' : d'.node = update d.node dp ⟨(d.node dp).type, n, (d.node dp).entries⟩) :
      Sane lost (u.on d') [dp, ip] [] := by
    have again : d'.node = update t.disk.node dp ⟨(d.node dp).type, n, (d.node dp).entries⟩ := by
      rw [node', node, clear, update_idem, hold.disk]
    have before : Holding (t.on d') [ip] (u.on d') := Holding.edit (t := t) (d := t.disk) hold'
      (update_eq_self dp _).symm again (by rw [at_dp, dir]; simp)
    have small : d'.ninodes = t.disk.ninodes := by
      rw [hold.disk]
      exact ninodes'.trans ninodes
    refine (held.change before (by simpa using out') small fun i => ?_).perm (.swap ..)
    rw [node']
    by_cases eq : i = dp
    · subst eq
      rw [update_self, at_dp]
      refine .inr ⟨out, by rw [dir]; simp, fun _ => ⟨?_, before.valid i hold.ref_pos valid⟩,
        fun plain => absurd dir plain, fun de mem nonzero => ?_⟩
      · have := before.ref i
        have pos := hold.ref_pos
        change u.ref i = t.ref i + _ at this
        change 0 < u.ref i
        omega
      · rcases mem_put mem with rfl | old
        · exact absurd rfl nonzero
        · exact sane.apart i out de old nonzero
    · exact .inl ((update_of_ne eq ..).trans (elsewhere eq))
  have finish {d' : Disk} {n : BitVec 16} (ninodes' : d'.ninodes = d.ninodes)
      (node' : d'.node = update d.node dp ⟨(d.node dp).type, n, (d.node dp).entries⟩)
      (eq : addLinks d'.node ip (-1) = unlinked s.disk.node dp slot ip) :
      Performed lost s p call 0 ((((u.on d').iput dp).setNlink ip
          ((((u.on d').iput dp).disk.inode ip).nlink - 1)).iput ip) := by
    have sane₁ := (changed ninodes' node').iput
    obtain ⟨proc₁, -, initproc₁, ninodes₁⟩ := iput_holders (t := u.on d') (i := dp)
    obtain ⟨valid₁, node₁⟩ := iput_ne (t := u.on d') ne
    have frees₁ := iput_frees (t := u.on d') (i := dp)
    generalize (u.on d').iput dp = w at sane₁ proc₁ initproc₁ ninodes₁ valid₁ node₁ frees₁
    have at_ip' : w.disk.node ip = s.disk.node ip := by
      rw [node₁, ← at_ip]
      change d'.node ip = _
      rw [node', update_of_ne ne]
    have pos : 0 < w.ref ip := by
      have := sane₁.counted ip
      rw [List.count_singleton_self] at this
      omega
    have sane₂ : Sane lost (w.setNlink ip ((w.disk.inode ip).nlink - 1)) [ip] [] :=
      sane₁.setNlink out' (by rw [at_ip']; exact typed) fun _ =>
        ⟨pos, by rw [valid₁]; exact valid'⟩
    obtain ⟨proc₂, -, initproc₂, ninodes₂⟩ :=
      iput_holders (t := w.setNlink ip ((w.disk.inode ip).nlink - 1)) (i := ip)
    have frees₂ : Frees (unlinked s.disk.node dp slot ip)
        (w.setNlink ip ((w.disk.inode ip).nlink - 1)).disk.node := by
      have node₂ : (w.setNlink ip ((w.disk.inode ip).nlink - 1)).disk.node =
          addLinks w.disk.node ip (-1) := by
        change (w.disk.setNlink ip _).node = _
        rw [setNlink_node, addLinks, ← sub_eq_add_neg]
        rfl
      rw [node₂, ← eq]
      intro i
      by_cases here : i = ip
      · subst here
        left
        rw [addLinks, addLinks, update_self, update_self, node₁]
        rfl
      · rw [addLinks, addLinks, update_of_ne here, update_of_ne here]
        exact frees₁ i
    refine .changed sane₂.iput (fun q => ?_)
      (initproc₂.trans (initproc₁.trans (hold'.initproc.trans hold.initproc)))
      (ninodes₂.trans (ninodes₁.trans (ninodes'.trans ninodes))) change (frees₂.trans iput_frees)
      (by decide)
    rw [proc₂]
    change (w.proc q).map Proc.cwd = _
    rw [proc₁]
    change (u.proc q).map Proc.cwd = _
    rw [hold'.proc, hold.proc]
  have type : ((u.on d).disk.inode ip).type = (s.disk.node ip).type := by
    rw [← at_ip]
    rfl
  simp only [wp_bind, wp_get, type, wp_ite, wp_modify, wp_pure, iput]
  refine ⟨fun directory => ?_, fun plain => ?_⟩
  · have as_on : (u.on d).setNlink dp (((u.on d).disk.inode dp).nlink - 1) =
        u.on (d.setNlink dp ((d.node dp).nlink - 1)) := rfl
    rw [as_on]
    refine finish rfl (setNlink_node _) ?_
    rw [unlinked, if_pos directory, setNlink_node, ← node, addLinks, addLinks,
      addLinks, sub_eq_add_neg]
  · refine finish rfl (n := (d.node dp).nlink) (update_eq_self dp d.node).symm ?_
    rw [unlinked, if_neg plain, node]

theorem wp_sysUnlink (safe : Safe F lost good s p)
    (room : s.itable.length + 2 ≤ ninode ∨ F "iget: no inodes") :
    wp F (sysUnlink p file) (Performed lost s p (.unlink file)) s := by
  have strands : ¬s.Strands p (.unlink file) := fun no => no
  cases file with
  | none => exact .looked sane strands sane.holding
  | some path =>
    simp only [sysUnlink, nameiparent, wp_bind]
    refine wp_namex sane safe.walk safe.root safe.here safe.running room
      (fun _ t hold => .looked sane strands hold) fun dp name t target found hold => ?_
    have out := safe.walk.avoids dp found
    have dir := resolve_dir target
    simp only [wp_bind]
    refine wp_ilock hold hold.ref_pos (safe.walk.alive dp found) fun t₁ hold₁ valid₁ _ => ?_
    simp only [wp_ite, wp_bind, wp_pure]
    refine ⟨fun _ => wp_iput_found sane out hold₁ fun t₂ hold₂ => .looked sane strands hold₂,
      fun named => ?_⟩
    have start : Holding t₁ [] t₁ := (sane.hold hold₁ (by simpa using out)).holding
    refine wp_dirlookup start (by rw [hold₁.node]; exact dir)
      (fun _ => sane.room hold₁ room (by simp)) (fun _ => ?_) fun slot ip t₂ entry inner₂ => ?_
    · simp only [wp_bind, wp_pure]
      exact wp_iput_found sane out hold₁ fun t₂ hold₂ => .looked sane strands hold₂
    · rw [hold₁.node] at entry
      obtain ⟨mem, nonzero⟩ := findEntry_mem entry
      have found' := safe.walk.entry dp found _ mem nonzero
      have out' := safe.walk.avoids ip found'
      simp only [wp_ite, wp_bind, wp_throw, wp_pure]
      refine ⟨fun _ => safe.deadlock, fun ne => ?_⟩
      refine wp_ilock inner₂ inner₂.ref_pos (by rw [hold₁.node]; exact safe.walk.alive ip found')
        fun t₃ inner valid₃ typed => ?_
      rw [hold₁.node] at typed
      have hold₃ : Holding s [ip, dp] t₃ := hold₁.trans inner
      have node₃ : t₃.disk.node ip = s.disk.node ip := hold₃.node ip
      simp only [wp_get]
      refine ⟨fun few => ?_, fun linked => ⟨fun full => ?_, fun empty => ?_⟩⟩
      · refine safe.links.resolve_right fun links => ?_
        have : 1 ≤ (s.disk.node ip).nlink.toInt :=
          links dp found dir _ mem nonzero (fun eq => named (.inl eq)) fun eq => named (.inr eq)
        have nlink : (t₃.disk.inode ip).nlink = (s.disk.node ip).nlink :=
          congrArg Node.nlink node₃
        rw [nlink] at few
        omega
      · exact wp_iput_found sane out' hold₃ fun t₄ hold₄ =>
          wp_iput_found sane out hold₄ fun t₅ hold₅ => .looked sane strands hold₅
      · have disk₃ : t₃.disk = s.disk := hold₃.disk
        simp only [writeDirent, wp_bind, wp_get, wp_set, wp_pure]
        refine ⟨fun _ => safe.writei, fun wrote => ?_⟩
        have fits : t₃.disk.fits dp slot = true := by
          by_contra full
          have few := (writei_of_full ⟨0, []⟩ (Bool.eq_false_of_not_eq_true full)).1
          rw [not_not.1 wrote] at few
          exact absurd few (by decide)
        obtain ⟨-, ninodes, written⟩ := writei_of_fits ⟨0, []⟩ fits
        rw [disk₃] at ninodes written
        have done := wp_unlink_done (F := F) (d := (t₃.disk.writei dp slot ⟨0, []⟩).2) sane hold₁
          valid₁ out dir ne out' typed inner valid₃ (by rw [disk₃]; exact written)
          (by rw [disk₃]; exact ninodes)
          (Change.unlink target (fun eq => named (.inl eq)) (fun eq => named (.inr eq)) entry ne (by
              have nlink : (t₃.disk.inode ip).nlink = (s.disk.node ip).nlink :=
                congrArg Node.nlink node₃
              rw [nlink] at linked
              omega)
            fun isdir => by
              have type : (t₃.disk.inode ip).type = (s.disk.node ip).type :=
                congrArg Node.type node₃
              have entries : (t₃.disk.inode ip).entries = (s.disk.node ip).entries :=
                congrArg Node.entries node₃
              by_contra full
              exact empty ⟨type.trans isdir, by rw [entries]; simpa using full⟩)
        simp only [wp_bind, wp_get, wp_ite] at done
        exact done

end

end Xv6.Names
