import Xv6.Lib.Fallible
import Xv6.Names.Image

/-!
# Running out of inode-table entries

The table has an entry for every inode that is open or a current directory, and a call takes up
to three more while it walks paths.  With `NFILE` open files allowed and only `NINODE` entries, a
few processes can fill the table with distinct files, and the next call that needs an entry
panics in `iget`.  No call does while the entries it may need are free.
-/

namespace Xv6.Names

open Program Transitions

variable {P : Type} [DecidableEq P] [Fintype P] {lost : Set Nat} {d : Disk} {s : State P}
  {init p : P} {call : Call P} {calls : List (P × Call P)}

/-- A call for which the inode table has room does not panic in `iget`. -/
theorem iget_has_room (image : Image lost d)
    (run : exec State.step (State.boot d init) calls = some s) (can : s.CanCall p call)
    (room : s.itable.length + call.needs ≤ ninode) :
    perform p call s ≠ .error "iget: no inodes" := by
  intro panics
  have sane := run_sane image run
  have safe : Safe (· ≠ "iget: no inodes") lost (fun i => i ∉ lost) s p :=
    sane.safe (canCall_running can) (by decide) (by decide) (by decide) (by decide) (by decide)
  exact of_error (wp_perform sane can safe (.inl room)) panics rfl

/-- A one-letter name. -/
def letter (i : Nat) : Name := [UInt8.ofNat (48 + i)]

/-- Four processes open 49 files. -/
def openAll (p q r s : P) : List (P × Call P) :=
  [(p, .fork q), (p, .fork r), (p, .fork s)] ++
    (List.range 49).map fun i =>
      (if i < 13 then p else if i < 26 then q else if i < 39 then r else s,
        .open (some (letter i)) 0)

/-- After 47 of the files are open two entries are free, as many as the next `open` needs. -/
theorem iget_has_room_last : ∃ s : State (Fin 4),
    exec State.step (State.boot (mkfs 200 1000 ((List.range 50).map letter)) 0)
      ((openAll 0 1 2 3).take 50) = some s ∧
    s.itable.length + (Call.open (some (letter 49)) 0 : Call (Fin 4)).needs = ninode ∧
    perform 0 (.open (some (letter 49)) 0) s ≠ .error "iget: no inodes" := by
  have image : Image ∅ (mkfs 200 1000 ((List.range 50).map letter)) := mkfs_image (by decide)
  exact exists_exec
    (fun s => s.CanCall 0 (.open (some (letter 49)) 0) ∧ s.itable.length + 2 = ninode)
    (by decide +kernel) fun s run ⟨can, room⟩ => ⟨room, iget_has_room image run can room.le⟩

/-- With a file open for each of the other entries of the inode table, one more `open` panics. -/
theorem iget_panics : ∃ s : State (Fin 4),
    exec State.step (State.boot (mkfs 200 1000 ((List.range 50).map letter)) 0)
      (openAll 0 1 2 3) = some s ∧ s.CanCall 0 (.open (some (letter 49)) 0) ∧
    (∃ f, (s.ftable f).ref = 0) ∧ (∃ fd, (s.ofile 0 fd).isNone) ∧
    perform 0 (.open (some (letter 49)) 0) s = .error "iget: no inodes" := by
  exact exists_exec (fun s => s.CanCall 0 (.open (some (letter 49)) 0) ∧
    (∃ f, (s.ftable f).ref = 0) ∧ (∃ fd, (s.ofile 0 fd).isNone) ∧
    Fallible.raises (perform 0 (.open (some (letter 49)) 0) s) "iget: no inodes")
    (by decide +kernel) fun s _ ⟨can, file, desc, panics⟩ =>
      ⟨can, file, desc, Fallible.of_raises panics⟩

end Xv6.Names
