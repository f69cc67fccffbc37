import Xv6.Names.LinkCounts

/-!
# Orphans after a crash

The last `iput` frees an inode without links.  A crash prevents it: the disk keeps the inode
with its type and its blocks, and neither recovery nor `fsinit` looks for it, so it stays
allocated without a name.  When no process holds such an inode at a crash, all allocated inodes
are named after the reboot.

Between transactions the log is empty and recovery changes nothing, so that the machine comes up
again with the disk it had.
-/

namespace Xv6.Names

open Program Transitions State

variable {P : Type} [DecidableEq P] {d : Disk} {s t : State P} {init p : P} {v : Nat → Node}
  {i n : Nat} {events : List (Option (P × Call P))}

/-- A call, or with no call a crash and the reboot after it. -/
def State.event (s : State P) : Option (P × Call P) → Option (State P)
  | some l => s.step l
  | none => some (boot s.disk s.initproc)

/-- Every allocated inode but the root has an entry in an allocated directory that is not `.` or
`..`. -/
def AllNamed (v : Nat → Node) : Prop :=
  ∀ i, (v i).type ≠ none → i ≠ rootino → ∃ dir, (v dir).type = some .dir ∧
    ∃ de ∈ (v dir).entries, de.inum = i ∧ de.name ≠ dot ∧ de.name ≠ dotdot

/-- An inode with a link has a name. -/
theorem Exact.named_of_link (exact : Exact n v) (typed : (v i).type ≠ none)
    (linked : (v i).nlink ≠ 0) (other : i ≠ rootino) : 0 < named n v i := by
  by_cases dir : (v i).type = some .dir
  · have rooted := exact.rooted ⟨dir, linked⟩
    rw [if_neg other] at rooted
    omega
  · have none : subdirs n v i = 0 := by
      refine Finset.sum_eq_zero fun d _ => if_neg fun ⟨live, _, eq⟩ => dir ?_
      rw [← eq]
      exact (exact.up d live).1.1
    have counted := exact.counted i typed
    rw [links, none, if_neg other] at counted
    have pos : (v i).nlink.toNat ≠ 0 := fun zero =>
      linked (BitVec.eq_of_toNat_eq (by simpa using zero))
    omega

theorem Exact.allNamed (exact : Exact n v)
    (linked : ∀ i, (v i).type ≠ none → (v i).nlink ≠ 0) : AllNamed v := by
  intro i typed other
  have pos := exact.named_of_link typed (linked i typed) other
  obtain ⟨dir, -, here⟩ := Finset.exists_ne_zero_of_sum_ne_zero (Nat.pos_iff_ne_zero.1 pos)
  rw [naming] at here
  split at here
  · next live =>
      obtain ⟨de, mem, eq⟩ := List.countP_pos_iff.1 (Nat.pos_of_ne_zero here)
      have eq : de.inum = i := of_decide_eq_true eq
      have used : de.inum ≠ 0 := by
        have := (exact.bound i typed).1
        omega
      refine ⟨dir, live.1, de, ?_, eq, exact.proper dir live.1 de mem used⟩
      rw [exact.entries live.1]
      exact List.mem_cons_of_mem _ (List.mem_cons_of_mem _ mem)
  · exact absurd rfl here

section runs

variable [Fintype P] {calls : List (P × Call P)}

/-- No process is in a removed directory or has a file open that has been unlinked. -/
def State.HoldsLinked (s : State P) : Prop :=
  ∀ i, 0 < s.cwds i + s.opens i → (s.disk.node i).nlink ≠ 0

/-- What a run must meet: calls make entries only in directories that are not removed and add
links only where the count has room, and at a crash no process holds an inode without links. -/
def State.Allows (s : State P) : Option (P × Call P) → Prop
  | some (p, call) => s.InTree p call ∧ s.NoOverflow p call
  | none => s.HoldsLinked

omit [DecidableEq P] in
theorem Sound.linked (sound : Sound s) (holds : s.HoldsLinked)
    (typed : (s.disk.node i).type ≠ none) : (s.disk.node i).nlink ≠ 0 :=
  fun unlinked => holds i (sound.held typed unlinked) unlinked

omit [DecidableEq P] in
/-- The disk that such a crash leaves is one to boot from. -/
theorem Sound.image (sound : Sound s) (holds : s.HoldsLinked) : Image ∅ s.disk where
  linked _ _ typed := sound.linked holds typed
  blank := sound.sane.blank
  plain := sound.sane.plain
  apart _ _ _ _ _ := id
  root := id
  rootdir := sound.exact.root.typed
  lost _ no := no.elim
  small := sound.sane.small

theorem event_sound (sound : Sound s) {l : Option (P × Call P)} (allows : s.Allows l)
    (event : s.event l = some t) : Sound t := by
  cases l with
  | some l => exact step_sound sound event allows.1 allows.2
  | none =>
    cases event
    exact boot_sound (sound.image allows) sound.exact

theorem run_events_sound (image : Image ∅ d) (exact : Exact d.ninodes d.node)
    (allows : Meets event Allows (boot d init) events)
    (run : exec event (boot d init) events = some s) : Sound s :=
  run_meets_invariant Sound (fun _ _ _ sound allows event => event_sound sound allows event)
    (boot_sound image exact) allows run

/-- If at a crash every inode in use has a link, the disk that is booted afterwards has a name for
every allocated inode. -/
theorem crash_leaks_nothing (image : Image ∅ d) (exact : Exact d.ninodes d.node)
    (allows : Meets event State.Allows (boot d init) events)
    (run : exec event (boot d init) events = some s) (crash : s.HoldsLinked)
    (reboot : s.event none = some t) : AllNamed t.disk.node := by
  have sound := run_events_sound image exact allows run
  cases reboot
  exact sound.exact.allNamed fun _ typed => sound.linked crash typed

omit [Fintype P] in
theorem exec_calls : exec event s (calls.map some) = exec step s calls := by
  induction calls generalizing s with
  | nil => rfl
  | cons l calls ih =>
    show (s.step l).bind _ = (s.step l).bind _
    exact congrArg _ (funext fun _ => ih)

theorem meets_calls (careful : Careful s calls) : Meets event Allows s (calls.map some) := by
  induction calls generalizing s with
  | nil => trivial
  | cons l calls ih => exact ⟨careful.1, fun t event => ih (careful.2 t event)⟩

/-- A file is made and stays open. -/
def makeFile (p : P) : List (P × Call P) := [(p, .open (some [97]) oCreate)]

/-- It is unlinked as well. -/
def unlinkOpen (p : P) : List (P × Call P) := makeFile p ++ [(p, .unlink (some [97]))]

end runs

theorem crash_leaks_nothing_open : ∃ s t : State (Fin 1),
    exec event (boot (mkfs 200 1000 []) 0) ((makeFile 0).map some) = some s ∧
    (s.disk.node 2).type = some .file ∧ 0 < s.opens 2 ∧
    s.event none = some t ∧ AllNamed t.disk.node := by
  obtain ⟨image, exact⟩ := mkfs_empty
  have careful : Careful (boot (mkfs 200 1000 []) (0 : Fin 1)) (makeFile 0) := by
    unfold Careful
    decide +kernel
  obtain ⟨s, run, file, opened, linked⟩ : ∃ s, exec step (boot (mkfs 200 1000 []) (0 : Fin 1))
      (makeFile 0) = some s ∧ (s.disk.node 2).type = some .file ∧ 0 < s.opens 2 ∧
        ∀ i ∈ s.itable, (s.disk.node i).nlink ≠ 0 :=
    exists_exec _ (by decide +kernel) fun _ _ => id
  have holds : s.HoldsLinked := fun i held => by
    have sane := run_sane image run
    exact linked i ((sane.listed i).2 (by rw [sane.counted]; omega))
  rw [← exec_calls] at run
  exact ⟨s, _, run, file, opened, rfl,
    crash_leaks_nothing image exact (meets_calls careful) run holds rfl⟩

/-- After a crash with the unlinked file open its inode stays allocated, although nobody holds it
and no entry names it. -/
theorem crash_leaks_file : ∃ s t : State (Fin 1),
    exec event (boot (mkfs 200 1000 []) 0) ((unlinkOpen 0).map some) = some s ∧
    s.event none = some t ∧ t.disk.node 2 = ⟨some .file, 0, []⟩ ∧ t.ref 2 = 0 ∧
    ¬AllNamed t.disk.node := by
  obtain ⟨image, exact⟩ := mkfs_empty
  have careful : Careful (boot (mkfs 200 1000 []) (0 : Fin 1)) (unlinkOpen 0) := by
    unfold Careful
    decide +kernel
  have pass : (exec step (boot (mkfs 200 1000 []) (0 : Fin 1)) (unlinkOpen 0)).any
      (fun s => s.disk.node 2 = ⟨some .file, 0, []⟩ ∧ s.disk.ninodes = 200 ∧
        ∀ dir < 200, ∀ de ∈ (s.disk.node dir).entries, de.inum ≠ 2) = true := by
    decide +kernel
  obtain ⟨s, run, test⟩ := (Option.any_eq_true _ _).1 pass
  obtain ⟨file, ninodes, unnamed⟩ := of_decide_eq_true test
  refine ⟨s, _, by rw [exec_calls]; exact run, rfl, file, rfl, fun named => ?_⟩
  obtain ⟨dir, type, de, mem, eq, -⟩ :=
    named 2 (show (s.disk.node 2).type ≠ none by rw [file]; simp) (by decide)
  have type : (s.disk.node dir).type = some .dir := type
  have bound := (run_sound image exact careful run).exact.bound dir (by rw [type]; simp)
  exact unnamed dir (by omega) de mem eq

end Xv6.Names
