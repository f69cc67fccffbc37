import Xv6.Names.ProcCalls

/-!
# Images, and the states a system reaches from them

`Image` is what a disk needs for the kernel to boot from it.  Every sequence of calls from such
a disk leads to a sane state: whatever the calls are and however they fail, the reference counts
are exact, and no allocated inode that is not held is without links.
-/

namespace Xv6.Names

open Program Transitions State Finset

variable {P : Type} [DecidableEq P] {lost : Set Nat} {d : Disk} {s t : State P} {init p : P}
  {call : Call P} {calls : List (P × Call P)} {i ninodes free : Nat} {names : List Name}

/-- A disk to boot from.  The inodes in `lost` are those that earlier crashes have left without
a name. -/
structure Image (lost : Set Nat) (d : Disk) : Prop where
  linked : ∀ i, i ∉ lost → (d.node i).type ≠ none → (d.node i).nlink ≠ 0
  blank : ∀ i, (d.node i).type = none → d.node i = ⟨none, 0, []⟩
  plain : ∀ i, (d.node i).type ≠ some .dir → (d.node i).entries = []
  apart : ∀ i, i ∉ lost → ∀ de ∈ (d.node i).entries, de.inum ≠ 0 → de.inum ∉ lost
  root : rootino ∉ lost
  rootdir : (d.node rootino).type ≠ none
  lost : ∀ i ∈ lost, (d.node i).type ≠ none
  small : d.ninodes ≤ 2 ^ 16

section boot

theorem boot_opens : (boot d init).opens i = 0 :=
  sum_eq_zero fun _ _ => if_neg fun opened => opened.1 rfl

theorem step_ok (step : s.step (p, call) = some t) :
    s.CanCall p call ∧ ∃ r, perform p call s = .ok (r, t) := by
  unfold State.step at step
  split at step
  · next can =>
      refine ⟨can, ?_⟩
      cases result : perform p call s with
      | error e =>
        rw [result] at step
        cases step
      | ok out =>
        rw [result] at step
        obtain ⟨r, t'⟩ := out
        cases step
        exact ⟨r, rfl⟩
  · cases step

variable [Fintype P]

theorem boot_cwds : (boot d init).cwds i = if i = rootino then 1 else 0 := by
  have at_init : (boot d init).cwds i =
      ∑ p, if p = init then (if i = rootino then 1 else 0) else 0 := by
    refine sum_congr rfl fun p _ => ?_
    by_cases eq : p = init
    · subst eq
      simp [boot, eq_comm]
    · simp [boot, eq]
  rw [at_init, sum_ite_eq' univ init]
  simp

theorem boot_fds (f : Fin nfile) : (boot d init).fds f = 0 := by
  refine sum_eq_zero fun p _ => sum_eq_zero fun k _ => if_neg ?_
  by_cases eq : p = init
  · subst eq
    simp [boot, ofile]
  · simp [boot, ofile, eq]

theorem boot_sane (image : Image lost d) : Sane lost (boot d init) [] [] where
  nodup := List.nodup_singleton rootino
  listed i := by
    by_cases eq : i = rootino
    · subst eq
      simp [boot]
    · simp [boot, eq]
  counted i := by
    rw [boot_cwds, boot_opens]
    by_cases eq : i = rootino
    · subst eq
      simp [boot]
    · simp [boot, eq]
  files f := by
    rw [boot_fds]
    rfl
  closed _ _ := rfl
  cached _ valid := by cases valid
  kept i out typed unlinked := absurd unlinked (image.linked i out typed)
  held i pos := by
    rw [boot_cwds, boot_opens] at pos
    split at pos
    · next eq =>
        subst eq
        exact image.rootdir
    · omega
  reached i pos := by
    by_cases eq : i = rootino
    · subst eq
      exact image.root
    · simp [boot, eq] at pos
  __ := image

omit [DecidableEq P] in
/-- Lookups never reach a lost inode. -/
theorem Sane.safe {F : String → Prop} (sane : Sane lost s [] []) (running : (s.proc p).isSome)
    (typed : F "ilock: no type") (links : F "unlink: nlink < 1") (deadlock : F "deadlock")
    (writei : F "unlink: writei") (exiting : F "init exiting") :
    Safe F lost (fun i => i ∉ lost) s p where
  walk := ⟨fun _ _ => .inr typed, fun _ out => out, sane.apart⟩
  root := sane.root
  here := sane.reached _ (sane.cwd_ref running)
  running := running
  links := .inl links
  deadlock := deadlock
  writei := writei
  exiting := exiting

omit [Fintype P] [DecidableEq P] in
theorem canCall_running (can : s.CanCall p call) : (s.proc p).isSome := by
  cases call with
  | fork child => exact can.1
  | «open» => exact can
  | mkdir => exact can
  | mknod => exact can
  | link => exact can
  | unlink => exact can
  | chdir => exact can
  | close => exact can
  | dup => exact can
  | exec => exact can
  | exit => exact can

/-- What a call that returns has done. -/
theorem perform_ok {r : Int} (sane : Sane lost s [] []) (can : s.CanCall p call)
    (ok : perform p call s = .ok (r, t)) : Performed lost s p call r t :=
  of_ok (wp_perform (F := fun _ => True) sane can
    (sane.safe (canCall_running can) trivial trivial trivial trivial trivial) (.inr trivial)) ok

/-- Every state that calls lead to is sane. -/
theorem run_sane (image : Image lost d)
    (run : exec step (boot d init) calls = some s) : Sane lost s [] [] := by
  refine run_invariant (fun s => Sane lost s [] []) (fun s l t sane step => ?_)
    (boot_sane image) run
  obtain ⟨can, r, ok⟩ := step_ok step
  exact (perform_ok sane can ok).sane

end boot

/-! ## The image that `mkfs` builds -/

/-- The root directory: `.`, `..` and the files in the order of their inode numbers, and empty
slots up to the end of the block. -/
def rootEntries (names : List Name) : List Dirent :=
  let used := ⟨rootino, dot⟩ :: ⟨rootino, dotdot⟩ ::
    (names.zipIdx (rootino + 1)).map fun file => ⟨file.2, file.1⟩
  used ++ List.replicate (64 - used.length % 64) ⟨0, []⟩

/-- The names that `mkfs` puts on a disk, with a number of inodes and of free blocks. -/
def mkfs (ninodes free : Nat) (names : List Name) : Disk where
  ninodes := ninodes
  inode i :=
    if i = rootino then ⟨⟨some .dir, 1, rootEntries names⟩, 0, 0, (names.length + 65) / 64, false⟩
    else if rootino < i ∧ i ≤ rootino + names.length then ⟨⟨some .file, 1, []⟩, 0, 0, 0, false⟩
    else Dinode.zero
  free := free

theorem mkfs_node : (mkfs ninodes free names).node i =
      if i = rootino then ⟨some .dir, 1, rootEntries names⟩
      else if rootino < i ∧ i ≤ rootino + names.length then ⟨some .file, 1, []⟩
      else ⟨none, 0, []⟩ := by
  simp only [Disk.node, mkfs]
  split
  · rfl
  · split
    · rfl
    · rfl

theorem mkfs_image (small : ninodes ≤ 2 ^ 16) : Image ∅ (mkfs ninodes free names) where
  linked i _ typed := by
    rw [mkfs_node] at typed ⊢
    split
    · simp
    · next ne =>
        rw [if_neg ne] at typed
        split
        · simp
        · next unused =>
            rw [if_neg unused] at typed
            exact absurd rfl typed
  blank i free := by
    rw [mkfs_node] at free ⊢
    split
    · next eq =>
        rw [if_pos eq] at free
        cases free
    · next ne =>
        rw [if_neg ne] at free
        split
        · next used =>
            rw [if_pos used] at free
            cases free
        · rfl
  plain i other := by
    rw [mkfs_node] at other ⊢
    split
    · next eq =>
        rw [if_pos eq] at other
        exact absurd rfl other
    · split
      · rfl
      · rfl
  apart _ _ _ _ _ := id
  root := id
  rootdir := by
    rw [mkfs_node, if_pos rfl]
    simp
  lost _ no := no.elim
  small := small

end Xv6.Names
