import Xv6.Lib.Fallible
import Xv6.Names.LinkCounts

/-!
# Dangling entries

A directory that is removed while a process is in it keeps its entry `..`, and the directory
above may be removed and freed after it: then a lookup of `..` reaches a free inode and `ilock`
panics.  As long as no current directory is removed (and no link count runs over), processes stay
in live directories, and every entry they can reach names an allocated inode.
-/

namespace Xv6.Names

open Program Transitions State

variable {P : Type} [DecidableEq P] {d : Disk} {s t : State P} {init p : P} {call : Call P}
  {calls : List (P × Call P)} {v : Nat → Node} {i n dir : Nat} {parent : Bool} {name : Name}

/-- The inodes that a process can reach, from the root or from its current directory. -/
inductive State.Reaches (s : State P) : Nat → Prop
  | root : s.Reaches rootino
  | cwd {p : P} (running : (s.proc p).isSome) : s.Reaches (s.cwd p)
  | entry {dir : Nat} {de : Dirent} (here : s.Reaches dir) (mem : de ∈ (s.disk.node dir).entries)
      (used : de.inum ≠ 0) : s.Reaches de.inum

/-- `unlink` does not remove the current directory of a process. -/
def State.KeepsCwds (s : State P) (p : P) : Call P → Prop
  | .unlink (some path) => ∀ r ∈ s.resolve p path true,
      ∀ e ∈ findEntry r.2 0 (s.disk.node r.1).entries, ∀ q, (s.proc q).map Proc.cwd ≠ some e.2
  | _ => True

instance [Fintype P] : (call : Call P) → Decidable (s.KeepsCwds p call)
  | .unlink (some path) => inferInstanceAs (Decidable (∀ r ∈ s.resolve p path true,
      ∀ e ∈ findEntry r.2 0 (s.disk.node r.1).entries, ∀ q, (s.proc q).map Proc.cwd ≠ some e.2))
  | .unlink none | .open .. | .mkdir _ | .mknod .. | .link .. | .chdir _ | .close _ | .dup _
  | .exec _ | .fork _ | .exit => isTrue trivial

/-- An inode with a link. -/
def Linked (v : Nat → Node) (i : Nat) : Prop := (v i).type ≠ none ∧ (v i).nlink ≠ 0

theorem LiveDir.linked (live : LiveDir v dir) : Linked v dir := ⟨live.typed, live.2⟩

/-- Entries of linked inodes name linked inodes. -/
theorem Exact.linked_entry {de : Dirent} (exact : Exact n v)
    (plain : ∀ i, (v i).type ≠ some .dir → (v i).entries = []) (linked : Linked v dir)
    (mem : de ∈ (v dir).entries) (used : de.inum ≠ 0) : Linked v de.inum := by
  by_cases type : (v dir).type = some .dir
  · have live : LiveDir v dir := ⟨type, linked.2⟩
    rw [exact.entries type, List.mem_cons, List.mem_cons] at mem
    rcases mem with rfl | rfl | child
    · exact linked
    · exact (exact.up dir live).1.linked
    · exact ⟨exact.child dir live de child used, exact.child_linked live child used⟩
  · rw [plain dir type] at mem
    cases mem

/-- Lookups do not leave a set that is closed under entries. -/
theorem resolveFrom_good {good : Nat → Prop} {ip : Nat} {names : List Name} {last : Name}
    (closed : ∀ i, good i → ∀ de ∈ (d.node i).entries, de.inum ≠ 0 → good de.inum) (here : good ip)
    (found : resolveFrom d parent ip names last = some (i, name)) : good i := by
  induction names generalizing ip last with
  | nil =>
    simp only [resolveFrom] at found
    split at found
    · cases found
    · cases found
      exact here
  | cons e rest ih =>
    rw [resolveFrom] at found
    split at found
    · split at found
      · cases found
        exact here
      · split at found
        · cases found
        · next next hit =>
            obtain ⟨mem, used⟩ := findEntry_mem hit
            exact ih (closed _ here _ mem used) found
    · cases found

section runs

variable [Fintype P]

/-- The names and counts are right, and every process is in a live directory. -/
structure Settled (s : State P) : Prop extends Sound s where
  cwd : ∀ q pr, s.proc q = some pr → LiveDir s.disk.node pr.cwd

namespace Settled

omit [DecidableEq P]

section

variable (settled : Settled s) (running : (s.proc p).isSome)
include settled running

theorem cwd_live : LiveDir s.disk.node (s.cwd p) := by
  obtain ⟨pr, eq⟩ := Option.isSome_iff_exists.1 running
  have : s.cwd p = pr.cwd := by simp [State.cwd, eq]
  rw [this]
  exact settled.cwd p pr eq

theorem resolve_linked {path : List UInt8}
    (found : s.resolve p path parent = some (i, name)) : Linked s.disk.node i := by
  refine resolveFrom_good (fun i linked de mem used =>
    settled.exact.linked_entry settled.sane.plain linked mem used) ?_ found
  split
  · exact settled.exact.root.linked
  · exact (settled.cwd_live running).linked

/-- Processes that are in live directories make entries in live directories. -/
theorem inTree : s.InTree p call :=
  fun _ _ _ found => (settled.resolve_linked running found).2

end

theorem reaches (settled : Settled s) (reach : s.Reaches dir) : Linked s.disk.node dir := by
  induction reach with
  | root => exact settled.exact.root.linked
  | cwd running => exact (settled.cwd_live running).linked
  | entry _ mem used ih => exact settled.exact.linked_entry settled.sane.plain ih mem used

end Settled

omit [DecidableEq P] in
theorem Performed.settled {r : Int} (done : Performed ∅ s p call r t) (settled : Settled s)
    (running : (s.proc p).isSome) (keeps : s.KeepsCwds p call) (room : s.NoOverflow p call) :
    Settled t := by
  have tree : s.InTree p call := settled.inTree running
  refine ⟨⟨done.sane, done.exact settled.exact settled.sane tree room⟩, fun q pr now => ?_⟩
  obtain ⟨v, change, frees⟩ := done.names
  obtain ⟨-, kept⟩ := change.exact settled.exact settled.sane tree room
  -- a directory that a process was in, or goes to, is live and stays so
  have stays (live : LiveDir s.disk.node pr.cwd)
      (unremoved : ∀ path, call = .unlink (some path) → ∀ r ∈ s.resolve p path true, ∀ slot,
        findEntry r.2 0 (s.disk.node r.1).entries ≠ some (slot, pr.cwd)) :
      LiveDir t.disk.node pr.cwd := by
    rcases kept pr.cwd live with live | ⟨path, eq, r, found, slot, entry⟩
    · exact (liveDir_congr (frees.linked live.2)).2 live
    · exact absurd entry (unremoved path eq r found slot)
  rcases done.cwds q pr now with ⟨q', pr', old, eq⟩ | ⟨path, last, rfl, found, dir⟩
  · refine stays (by rw [← eq]; exact settled.cwd q' pr' old)
      fun path unlink r found slot entry => ?_
    subst unlink
    exact keeps r found _ entry q' (by rw [old, Option.map_some, eq])
  · exact stays ⟨dir, (settled.resolve_linked running found).2⟩ fun _ no => by cases no

/-- A run in which no current directory is removed and no link count runs over. -/
def Tidy (s : State P) (calls : List (P × Call P)) : Prop :=
  Meets step (fun s l => s.KeepsCwds l.1 l.2 ∧ s.NoOverflow l.1 l.2) s calls

theorem run_settled (image : Image ∅ d) (exact : Exact d.ninodes d.node)
    (tidy : Tidy (boot d init) calls)
    (run : exec step (boot d init) calls = some s) : Settled s := by
  refine run_meets_invariant Settled (fun s l t settled cond step => ?_)
    ⟨boot_sound image exact, fun q pr running => ?_⟩ tidy run
  · obtain ⟨can, r, ok⟩ := step_ok step
    exact (perform_ok settled.sane can ok).settled settled (canCall_running can) cond.1 cond.2
  · by_cases eq : q = init
    · subst eq
      obtain rfl : (⟨rootino, fun _ => none⟩ : Proc) = pr := by simpa [boot] using running
      exact exact.root
    · simp [boot, eq] at running

/-- While no current directory is removed and no link count runs over, every entry of a reachable
directory names an allocated inode, and no call panics in `ilock`. -/
theorem no_dangling (image : Image ∅ d) (exact : Exact d.ninodes d.node)
    (tidy : Tidy (boot d init) calls)
    (run : exec step (boot d init) calls = some s) :
    (∀ dir, s.Reaches dir → ∀ de ∈ (s.disk.node dir).entries, de.inum ≠ 0 →
      (s.disk.node de.inum).type ≠ none) ∧
    ∀ p call, s.CanCall p call → perform p call s ≠ .error "ilock: no type" := by
  have settled := run_settled image exact tidy run
  refine ⟨fun dir reach de mem used => (settled.reaches (.entry reach mem used)).1,
    fun p call can panics => ?_⟩
  have running := canCall_running can
  have safe : Safe (· ≠ "ilock: no type") ∅ (Linked s.disk.node) s p :=
    { walk := ⟨fun _ linked => .inl linked.1, fun _ _ => id, fun _ linked _ mem used =>
        settled.exact.linked_entry settled.sane.plain linked mem used⟩
      root := settled.exact.root.linked
      here := (settled.cwd_live running).linked
      running := running
      links := .inl (by decide)
      deadlock := by decide
      writei := by decide
      exiting := by decide }
  exact of_error (wp_perform settled.sane can safe (.inr (by decide))) panics rfl

/-- The first process goes to the directory `a/b`. -/
def goDown (p : P) : List (P × Call P) :=
  [(p, .mkdir (some [97])), (p, .mkdir (some [97, 47, 98])), (p, .chdir (some [97, 47, 98]))]

/-- It removes the directory it is in and the one above. -/
def removeAbove (p : P) : List (P × Call P) :=
  goDown p ++ [(p, .unlink (some [47, 97, 47, 98])), (p, .unlink (some [47, 97]))]

end runs

theorem no_dangling_below : ∃ s : State (Fin 1),
    exec step (boot (mkfs 200 1000 []) 0) (goDown 0) = some s ∧
    s.CanCall 0 (.chdir (some [46, 46])) ∧
    perform 0 (.chdir (some [46, 46])) s ≠ .error "ilock: no type" := by
  obtain ⟨image, exact⟩ := mkfs_empty
  have tidy : Tidy (boot (mkfs 200 1000 []) (0 : Fin 1)) (goDown 0) := by
    unfold Tidy
    decide +kernel
  exact exists_exec (fun s => s.CanCall 0 (.chdir (some [46, 46]))) (by decide +kernel)
    fun s run can => ⟨can, (no_dangling image exact tidy run).2 0 _ can⟩

/-- From a removed directory whose parent has been removed as well, `..` leads to a free inode. -/
theorem parent_dangles : ∃ s : State (Fin 1),
    exec step (boot (mkfs 200 1000 []) 0) (removeAbove 0) = some s ∧
    s.Reaches 3 ∧ (⟨2, dotdot⟩ : Dirent) ∈ (s.disk.node 3).entries ∧
    (s.disk.node 2).type = none ∧ s.CanCall 0 (.chdir (some [46, 46])) ∧
    perform 0 (.chdir (some [46, 46])) s = .error "ilock: no type" := by
  refine exists_exec (fun s => (s.proc 0).isSome ∧ s.cwd 0 = 3 ∧
    (⟨2, dotdot⟩ : Dirent) ∈ (s.disk.node 3).entries ∧ (s.disk.node 2).type = none ∧
    s.CanCall 0 (.chdir (some [46, 46])) ∧
    Fallible.raises (perform 0 (.chdir (some [46, 46])) s) "ilock: no type") (by decide +kernel)
    fun s _ ⟨running, cwd, mem, free, can, panics⟩ =>
      ⟨?_, mem, free, can, Fallible.of_raises panics⟩
  rw [← cwd]
  exact .cwd running

end Xv6.Names
