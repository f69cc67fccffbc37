import Xv6.Lib.Fallible
import Xv6.Names.Image

/-!
# Calls that fail

`create` and `link` undo what they have done when they run out of inodes or blocks, so a call that
returns -1 has changed no name.  The exception is `open` with `O_CREATE`: it makes the file first
and looks for a file structure and a descriptor afterwards, and when there is none it returns -1
and leaves the file it has made.
-/

namespace Xv6.Names

open Program Transitions State

variable {P : Type} [DecidableEq P] {lost : Set Nat} {s t : State P} {p : P} {call : Call P}

/-- The same inodes are allocated, with the same link counts, and every directory maps the same
names to the same inodes. -/
def SameNames (s t : State P) : Prop :=
  ∀ i, ((t.disk.node i).type = none ↔ (s.disk.node i).type = none) ∧
    (t.disk.node i).nlink = (s.disk.node i).nlink ∧
    ∀ name, (findEntry name 0 (t.disk.node i).entries).map Prod.snd =
      (findEntry name 0 (s.disk.node i).entries).map Prod.snd

/-- A call that returns `-1` leaves all names as they were, unless it is an `open` that has made a
file and finds no descriptor for it. -/
theorem failed_call_names [Fintype P] (sane : Sane lost s [] []) (can : s.CanCall p call)
    (fails : perform p call s = .ok (-1, t)) : SameNames s t ↔ ¬s.Strands p call := by
  rcases (perform_ok sane can fails).failed rfl with ⟨same, kept⟩ | ⟨strands, x, free, used⟩
  · refine iff_of_true (fun i => ?_) kept
    rw [same]
    exact ⟨Iff.rfl, rfl, fun _ => rfl⟩
  · exact iff_of_false (fun same => used ((same x).1.2 free)) (not_not.2 strands)

/-- A file is made and opened once more for every descriptor. -/
def fillDescriptors (p : P) : List (P × Call P) :=
  (p, .open (some [97]) oCreate) :: List.replicate 15 (p, .dup 0)

/-- With every descriptor in use, `open("b", O_CREATE)` returns -1 and leaves a file `b`. -/
theorem open_strands_file : ∃ s t : State (Fin 1),
    exec step (boot (mkfs 200 1000 []) 0) (fillDescriptors 0) = some s ∧
    perform 0 (.open (some [98]) oCreate) s = .ok (-1, t) ∧
    s.resolve 0 [98] false = none ∧ t.resolve 0 [98] false = some (3, [98]) ∧
    (s.disk.node 3).type = none ∧ t.disk.node 3 = ⟨some .file, 1, []⟩ ∧ ¬SameNames s t := by
  have pass : (exec step (boot (mkfs 200 1000 []) (0 : Fin 1))
      (fillDescriptors 0)).any (fun s => Fallible.yields (perform 0 (.open (some [98]) oCreate) s)
        fun out => out.1 = -1 ∧ s.resolve 0 [98] false = none ∧
          out.2.resolve 0 [98] false = some (3, [98]) ∧ (s.disk.node 3).type = none ∧
          out.2.disk.node 3 = ⟨some .file, 1, []⟩) = true := by
    decide +kernel
  obtain ⟨s, run, test⟩ := (Option.any_eq_true _ _).1 pass
  obtain ⟨⟨r, t⟩, result, test⟩ := Fallible.of_yields test
  obtain ⟨rfl, before, after, free, used⟩ := of_decide_eq_true test
  refine ⟨s, t, run, result, before, after, free, used, fun same => ?_⟩
  have := (same 3).1.2 free
  rw [used] at this
  cases this

/-- A second link with the same name fails after the link count has been raised, and the count is
lowered again. -/
theorem failed_call_names_link : ∃ s t : State (Fin 1),
    exec step (boot (mkfs 200 1000 []) 0) [(0, .open (some [97]) oCreate)] = some s ∧
    perform 0 (.link (some [97]) (some [97])) s = .ok (-1, t) ∧
    (SameNames s t ↔ ¬s.Strands 0 (.link (some [97]) (some [97]))) := by
  have pass : (exec step (boot (mkfs 200 1000 []) (0 : Fin 1))
      [(0, .open (some [97]) oCreate)]).any (fun s => decide (s.CanCall 0
        (.link (some [97]) (some [97]))) && Fallible.yields
          (perform 0 (.link (some [97]) (some [97])) s) fun out => decide (out.1 = -1)) = true := by
    decide +kernel
  obtain ⟨s, run, test⟩ := (Option.any_eq_true _ _).1 pass
  obtain ⟨can, test⟩ := Bool.and_eq_true_iff.1 test
  obtain ⟨⟨r, t⟩, result, test⟩ := Fallible.of_yields test
  obtain rfl := of_decide_eq_true test
  have image : Image ∅ (mkfs 200 1000 []) := mkfs_image (by decide)
  exact ⟨s, t, run, result,
    failed_call_names (run_sane image run) (of_decide_eq_true can) result⟩

end Xv6.Names
