import Xv6.ContiguousRun

/-!
# The argument stack of exec

`exec` moves the stack pointer down from the end of the image, string by string and then by
the array of pointers, rounding it to sixteen bytes after each move and comparing it with the
bottom of the stack page.  The stack page lies above the guard page, so that a string shorter
than a page cannot make the pointer wrap around: the comparison sees every overflow.
-/

namespace Xv6

open Ownership Fallible Machine List Nat

/-- The bytes that a memory has from `a` on. -/
def Reads (byteAt : Nat → Option UInt8) (a : Nat) (bytes : List UInt8) : Prop :=
  ∀ j < bytes.length, byteAt (a + j) = bytes[j]?

/-- The stack pointer after `i` strings, which is where the last of them lies. -/
def argTop (sz : Nat) (argv : List (List UInt8)) (i : Nat) : Nat :=
  (argv.take i).foldl (fun sp arg => push sp (arg.length + 1)) sz

/-- `n` rounded up to a multiple of sixteen. -/
def align16 (n : Nat) : Nat := (n + 15) / 16 * 16

/-- The room that the strings take. -/
def stringRoom (argv : List (List UInt8)) : Nat :=
  (argv.map fun arg => align16 (arg.length + 1)).sum

/-- The room that the strings and the array of pointers take. -/
def argRoom (argv : List (List UInt8)) : Nat :=
  stringRoom argv + align16 ((argv.length + 1) * 8)

/-- The arguments in the memory of a program of size `sz` that starts with stack pointer `sp`:
the array of pointers at `sp`, ending with a null pointer, and the strings above it, each of
them below the one before.  Every one of these addresses is in the stack page, and every
subtraction that led to it stayed above zero. -/
structure ArgumentStack (byteAt : Nat → Option UInt8) (sz sp : Nat) (argv : List (List UInt8)) :
    Prop where
  aligned : sp % 16 = 0
  inPage : stackbase sz ≤ sp
  words : ∀ i < argv.length, Reads byteAt (sp + i * 8) (uint64Bytes (argTop sz argv (i + 1)))
  null : Reads byteAt (sp + argv.length * 8) (uint64Bytes 0)
  strings : ∀ i (lt : i < argv.length), Reads byteAt (argTop sz argv (i + 1)) (argv[i] ++ [0])
  below : ∀ i (lt : i < argv.length),
    argTop sz argv (i + 1) + (argv[i].length + 1) ≤ argTop sz argv i
  array : sp + (argv.length + 1) * 8 ≤ argTop sz argv argv.length

/-! ## Pushing -/

/-- A push that does not wrap around. -/
theorem push_add {sp len : Nat} (aligned : sp % 16 = 0) (le : len ≤ sp) (small : sp < 2 ^ 64) :
    push sp len + align16 len = sp := by
  simp only [push, sub64, align16]
  omega

theorem le_align16 (n : Nat) : n ≤ align16 n := by
  unfold align16
  omega

theorem align16_mod (n : Nat) : align16 n % 16 = 0 := mul_mod_left _ _

/-- The guard page is below the stack page. -/
theorem stackbase_above (sz : Nat) : pgsize ≤ stackbase (sz + 2 * pgsize) := by
  unfold stackbase
  generalize pgsize = page
  omega

theorem argTop_zero (sz : Nat) (argv : List (List UInt8)) : argTop sz argv 0 = sz := rfl

theorem argTop_cons (sz : Nat) (arg : List UInt8) (argv : List (List UInt8)) (i : Nat) :
    argTop sz (arg :: argv) (i + 1) = argTop (push sz (arg.length + 1)) argv i := rfl

/-- What the loop over the strings leaves. -/
structure StringsPushed (im im' : Image) (base sp sp' : Nat) (args : List (List UInt8)) : Prop where
  size : im'.sz = im.sz
  top : sp' = argTop sp args args.length
  aligned : sp' % 16 = 0
  above : base ≤ sp'
  room : sp' + stringRoom args = sp
  frame : ∀ a, a < sp' ∨ sp ≤ a → im'.mem a = im.mem a
  below : ∀ i (lt : i < args.length), argTop sp args (i + 1) + (args[i].length + 1) ≤
    argTop sp args i
  strings : ∀ i (lt : i < args.length), ∀ j < (args[i] ++ [0]).length,
    some (im'.mem (argTop sp args (i + 1) + j)) = (args[i] ++ [0])[j]?

theorem memput_at {mem : Mem} {dst j : Nat} {src : List UInt8} (lt : j < src.length) :
    some (memput mem dst src (dst + j)) = src[j]? := by
  unfold memput
  rw [if_pos (by omega), Nat.add_sub_cancel_left, getD_eq_getElem _ _ lt, getElem?_eq_getElem lt]

theorem memput_outside {mem : Mem} {dst a : Nat} {src : List UInt8}
    (out : a < dst ∨ dst + src.length ≤ a) : memput mem dst src a = mem a := by
  unfold memput
  rw [if_neg (by omega)]

namespace Image

/-- The loop over the strings, from a stack pointer in the stack page. -/
theorem pushStrings_pushed {base sp sp' : Nat} {args : List (List UInt8)} {im im' : Image}
    {ustack ustack' : List Nat} (low : pgsize ≤ base) (above : base ≤ sp) (aligned : sp % 16 = 0)
    (small : sp < 2 ^ 64) (short : ∀ arg ∈ args, arg.length < pgsize)
    (run : pushStrings base args im sp ustack = some (im', sp', ustack')) :
    StringsPushed im im' base sp sp' args ∧
      ustack' = ustack ++ (range args.length).map fun i => argTop sp args (i + 1) := by
  induction args generalizing im sp ustack with
  | nil =>
    cases run
    refine ⟨⟨rfl, rfl, aligned, above, rfl, fun _ _ => rfl, ?_, ?_⟩, ?_⟩
    · rintro i ⟨⟩
    · rintro i ⟨⟩
    · rw [length_nil, range_zero, map_nil, append_nil]
  | cons arg args ih =>
    unfold pushStrings at run
    simp only at run
    split at run
    · cases run
    · rename_i fits
      have len := short arg mem_cons_self
      have moved := push_add aligned (show arg.length + 1 ≤ sp by omega) small
      have larger := le_align16 (arg.length + 1)
      have multiple := align16_mod (arg.length + 1)
      obtain ⟨pushed, pointers⟩ := ih (by omega) (by omega) (by omega)
        (fun other mem => short other (mem_cons_of_mem _ mem)) run
      have room := pushed.room
      have lower : sp' ≤ push sp (arg.length + 1) := by omega
      have bytes : (arg ++ [0]).length = arg.length + 1 := length_append
      refine ⟨⟨pushed.size, pushed.top, pushed.aligned, pushed.above, ?_, fun a out => ?_, ?_, ?_⟩,
        ?_⟩
      · simp only [stringRoom, map_cons, sum_cons] at room ⊢
        omega
      · rw [pushed.frame a (by omega)]
        exact memput_outside (by omega)
      · intro i lt
        cases i with
        | zero =>
          simp only [argTop_cons, argTop_zero, getElem_cons_zero]
          omega
        | succ i => exact pushed.below i (lt_of_succ_lt_succ lt)
      · intro i lt j inside
        cases i with
        | zero =>
          -- the strings below leave this one alone
          simp only [argTop_cons, argTop_zero, getElem_cons_zero] at inside ⊢
          rw [pushed.frame _ (by omega)]
          exact memput_at inside
        | succ i => exact pushed.strings i (lt_of_succ_lt_succ lt) j inside
      · rw [pointers, append_assoc, length_cons, range_succ_eq_map, map_cons, map_map]
        rfl

end Image

theorem uint64Bytes_length (n : Nat) : (uint64Bytes n).length = 8 := by
  simp [uint64Bytes]

theorem flatMap_length (words : List Nat) :
    (words.flatMap uint64Bytes).length = words.length * 8 := by
  induction words with
  | nil => rfl
  | cons word words ih =>
    rw [flatMap_cons, length_append, ih, uint64Bytes_length, length_cons]
    omega

/-- The bytes of the `i`-th word of an array. -/
theorem flatMap_word {words : List Nat} {i j : Nat} (lt : i < words.length) (byte : j < 8) :
    (words.flatMap uint64Bytes)[i * 8 + j]? = (uint64Bytes words[i])[j]? := by
  induction words generalizing i with
  | nil => cases lt
  | cons word words ih =>
    rw [flatMap_cons]
    cases i with
    | zero =>
      rw [getElem?_append_left (by rw [uint64Bytes_length]; omega), zero_mul, zero_add]
      rfl
    | succ i =>
      rw [getElem?_append_right (by rw [uint64Bytes_length]; omega), uint64Bytes_length,
        show (i + 1) * 8 + j - 8 = i * 8 + j by omega]
      exact ih (lt_of_succ_lt_succ lt)

namespace Image

variable {im im' : Image} {argv : List (List UInt8)} {sp top : Nat}

/-- A memory that agrees with an image shows the arguments. -/
theorem ArgumentStack.of_pushed {pushed : Image} {byteAt : Nat → Option UInt8}
    (strings : StringsPushed im pushed (stackbase im.sz) im.sz top argv)
    (few : argv.length < maxarg)
    (low : pgsize ≤ stackbase im.sz) (small : im.sz < 2 ^ 64)
    (fits : ¬ push top ((argv.length + 1) * 8) < stackbase im.sz)
    (same : ∀ a < im.sz, byteAt a = some ((pushed.write (push top ((argv.length + 1) * 8))
      (((range argv.length).map (fun i => argTop im.sz argv (i + 1)) ++ [0]).flatMap
        uint64Bytes)).mem a)) :
    ArgumentStack byteAt im.sz (push top ((argv.length + 1) * 8)) argv ∧ argRoom argv ≤ pgsize := by
  have room := strings.room
  have above := strings.above
  have moved := push_add strings.aligned
    (show (argv.length + 1) * 8 ≤ top by simp only [maxarg, pgsize] at few low; omega) (by omega)
  have larger := le_align16 ((argv.length + 1) * 8)
  have multiple := align16_mod ((argv.length + 1) * 8)
  have aligned := strings.aligned
  generalize start : push top ((argv.length + 1) * 8) = sp at *
  generalize pointers : (range argv.length).map (fun i => argTop im.sz argv (i + 1)) ++ [0] =
    ws at *
  have count : ws.length = argv.length + 1 := by
    rw [← pointers, length_append, length_map, length_range, length_singleton]
  have word (i : Nat) (lt : i < ws.length) : Reads byteAt (sp + i * 8) (uint64Bytes ws[i]) := by
    intro j byte
    rw [uint64Bytes_length] at byte
    have inside : i * 8 + j < (ws.flatMap uint64Bytes).length := by
      rw [flatMap_length]
      omega
    rw [same _ (by omega), add_assoc, ← flatMap_word lt byte]
    exact memput_at inside
  have higher (i : Nat) (le : i ≤ argv.length) : top ≤ argTop im.sz argv i ∧
      argTop im.sz argv i ≤ im.sz := by
    constructor
    · induction le using decreasingInduction with
      | self => exact strings.top.le
      | of_succ k lt ih =>
        have := strings.below k lt
        omega
    · induction i with
      | zero => exact le_rfl
      | succ i ih =>
        have := strings.below i le
        have := ih (by omega)
        omega
  refine ⟨⟨by omega, by omega, fun i lt => ?_, ?_, fun i lt j inside => ?_, strings.below, ?_⟩, ?_⟩
  · have bound : i < ws.length := by
      rw [count]
      exact lt_succ_of_lt lt
    have here : ws[i] = argTop im.sz argv (i + 1) := by
      simp only [← pointers]
      rw [getElem_append_left (by simpa using lt), getElem_map, getElem_range]
    rw [← here]
    exact word i bound
  · have bound : argv.length < ws.length := by
      rw [count]
      exact lt_succ_self _
    have last : ws[argv.length] = 0 := by
      simp only [← pointers]
      rw [getElem_append_right (by simp)]
      simp
    rw [← last]
    exact word argv.length bound
  · have bytes : (argv[i] ++ [0]).length = argv[i].length + 1 := length_append
    have := strings.below i lt
    have := higher (i + 1) lt
    have := higher i (by omega)
    rw [same _ (by omega), ← strings.strings i lt j inside]
    exact congrArg some (memput_outside (by rw [flatMap_length, count]; omega))
  · have := strings.top
    omega
  · unfold argRoom stackbase at *
    omega

/-- The arguments that are pushed in the stack page of an image. -/
theorem Pushes.stack (pushes : im.Pushes argv im' top) (few : argv.length < maxarg)
    (short : ∀ arg ∈ argv, arg.length < pgsize) (aligned : im.sz % 16 = 0)
    (low : pgsize ≤ stackbase im.sz) (small : im.sz < 2 ^ 64) :
    argRoom argv ≤ pgsize ∧ im'.sz = im.sz ∧ ArgumentStack im'.byteAt im.sz top argv := by
  obtain ⟨im₁, sp, ustack, strings, written, rfl⟩ := pushes
  obtain ⟨strings, pointers⟩ :=
    pushStrings_pushed low (sub_le _ _) aligned small short strings
  unfold pushPointers at written
  simp only at written
  split at written
  · cases written
  · rename_i fits
    cases written
    rw [nil_append] at pointers
    have size : (im₁.write (push sp ((argv.length + 1) * 8))
        ((ustack ++ [0]).flatMap uint64Bytes)).sz = im.sz := strings.size
    obtain ⟨stack, room⟩ := @ArgumentStack.of_pushed _ _ _ _ (byteAt _) strings few low small fits
      (fun a lt => by rw [← pointers, byteAt, if_pos (by rw [size]; exact lt)])
    exact ⟨room, size, stack⟩

end Image

namespace Kernel

variable {s : Kernel} {p : Fin nproc}

/-- `exec` of at most `MAXARG - 1` strings that are shorter than a page: it returns their number
with the arguments laid out in the stack page, or `-1`; and `-1` if they do not fit in a page. -/
theorem exec_argument_stack (path : List UInt8) {file : Option (List UInt8)}
    {argv : List (List UInt8)} (inv : s.Inv) (sound : s.machine.SoundOn {.proc p, .image p})
    (linked : 0 < s.machine.kmem.kend) (used : (s.proc p).state ≠ .unused)
    (uint : ∀ f, file = some f → f.length < 2 ^ 32) (few : argv.length < maxarg)
    (short : ∀ arg ∈ argv, arg.length < pgsize) :
    ∃ s' r, s.exec p path file argv = .ok (s', r) ∧ (r = -1 ∨ r = argv.length) ∧
      (pgsize < argRoom argv → r = -1) ∧
      (r = argv.length → ∃ sp, s'.machine.space (.proc p) = some sp ∧ GuardedStack sp ∧
        (s'.proc p).frame.a1 = (s'.proc p).frame.sp ∧
        ArgumentStack (s'.byteAt p) sp.sz (s'.proc p).frame.sp argv) := by
  have keeps : KeepsOn {.proc p, .image p} s.machine s.machine :=
    ⟨inv.machine, sound, rfl⟩
  obtain ⟨⟨s', r⟩, run, -⟩ :=
    exec_keeps path file argv inv keeps linked (by simp) (by simp) used uint
  have failed : (-1 : Int) ≠ argv.length := by omega
  refine ⟨s', r, run, ?_⟩
  unfold exec at run
  cases file with
  | none =>
    cases run
    exact ⟨.inl rfl, fun _ => rfl, fun eq => absurd eq failed⟩
  | some f =>
    obtain ⟨trapframe, isFrame⟩ := Option.isSome_iff_exists.1 (inv.inUse p used).2
    simp only [isFrame] at run
    obtain ⟨⟨m₁, r₁⟩, built, run⟩ := of_bind_ok run
    cases r₁ with
    | none =>
      obtain ⟨m₂, -, last⟩ := of_bind_ok run
      cases last
      exact ⟨.inl rfl, fun _ => rfl, fun eq => absurd eq failed⟩
    | some result =>
      obtain ⟨elf, top⟩ := result
      obtain ⟨works, shown⟩ := buildImage_shows inv.machine (inv.image p) (uint f rfl) built
      obtain ⟨im, -, shows, im₀, small, pushes⟩ := shown elf top rfl
      have aligned : im₀.round.sz % pgsize = 0 := mul_mod_left _ _
      obtain ⟨room, size, stack⟩ := pushes.stack few short
        (by rw [stack_size]; simp only [pgsize] at aligned ⊢; omega)
        (by rw [stack_size]; exact stackbase_above _)
        (by rw [stack_size]; exact small.trans_lt (by decide))
      obtain ⟨-, guarded⟩ := (buildImage_keeps trapframe f argv keeps linked (by simp)
        (inv.image p)).result built
      obtain ⟨sp, space, guarded⟩ := guarded rfl
      obtain ⟨m₂, committed, last⟩ := of_bind_ok run
      cases last
      obtain ⟨-, proc, -⟩ := commit_touches works.touches.inv space committed
      obtain ⟨-, shows', -⟩ := commit_shows works.touches.inv shows committed
      refine ⟨.inr rfl, fun large => by omega, fun _ => ⟨sp, proc, guarded, ?_, ?_⟩⟩
      · rw [modify_proc_self]
      · rw [modify_proc_self]
        have whole : sp.sz = im.sz := by
          obtain ⟨pt, sz, space', shown⟩ := shows
          rw [space] at space'
          cases space'
          exact shown.size
        have same : byteAt (modify { s with machine := m₂ } p fun q => { q with
            name := programName path
            frame := { q.frame with a1 := top, epc := elf.entry, sp := top } }) p = im.byteAt :=
          funext (byteAt_of_shows shows')
        rw [whole, size, same]
        exact stack

/-- A program without segments: an ELF header alone. -/
def emptyProgram : List UInt8 := [0x7F, 0x45, 0x4C, 0x46] ++ List.replicate 60 0

/-- The first process executes it with the arguments `ls` and `-l`. -/
theorem exec_two_arguments : ∃ (s s' : Kernel) (sp : Space), s.Booted ∧
    s.exec 0 [] (some emptyProgram) [[108, 115], [45, 108]] = .ok (s', 2) ∧
      s'.machine.space (.proc 0) = some sp ∧ GuardedStack sp ∧
      ArgumentStack (s'.byteAt 0) sp.sz (s'.proc 0).frame.sp [[108, 115], [45, 108]] := by
  have pass : Kernel.boots 24 (fun s =>
      decide (0 < s.machine.kmem.kend ∧ (s.proc 0).state = .runnable) &&
        yields (s.exec 0 [] (some emptyProgram) [[108, 115], [45, 108]]) fun done =>
          decide (done.2 = 2)) = true := by
    decide +kernel
  obtain ⟨s, booted, test⟩ := Kernel.of_boots pass
  obtain ⟨ready, test⟩ := Bool.and_eq_true_iff.1 test
  obtain ⟨⟨s', r⟩, executed, two⟩ := of_yields test
  obtain ⟨linked, runnable⟩ := of_decide_eq_true ready
  have two : r = 2 := of_decide_eq_true two
  have used : (s.proc 0).state ≠ .unused := by
    rw [runnable]
    rintro ⟨⟩
  obtain ⟨s₁, r₁, run, -, -, laid⟩ := @exec_argument_stack _ _ [] (some emptyProgram)
    [[108, 115], [45, 108]] (booted_simulates booted).1
    (fun id _ => booted_sound booted id trivial) linked used
    (fun f eq => by cases eq; decide) (by decide) (by decide)
  rw [executed] at run
  cases run
  obtain ⟨sp, space, guarded, -, stack⟩ := laid two
  rw [two] at executed
  exact ⟨s, s', sp, booted, executed, space, guarded, stack⟩

end Kernel

end Xv6
