import Xv6.User.Regexp

/-!
# `grep`

The loop over the input in a buffer of 1024 bytes.  A call of `read` returns some of the bytes
that are left, as many as it likes but at least one when there is room and input; `sizes` says how
many in each round.  The bytes `buf[0..m)` are a list, and the bytes from `p` on another.

What `grep` prints are the accepted lines before the first one that does not fit into the buffer
with its newline or has none.
-/

namespace Xv6.User

open List

/-- `sizeof(buf)` -/
def bufSize : Nat := 1024

/-- `'\n'` -/
def newline : UInt8 := 10

/-- `strchr(p, '\n')` in a buffer that a NUL ends: the bytes before the newline and after it. -/
def strchr : List UInt8 → Option (List UInt8 × List UInt8)
  | [] => none
  | c :: p =>
    if c = 0 then none
    else if c = newline then some ([], p)
    else (strchr p).map fun (line, q) => (c :: line, q)

/-- The inner loop: what is written, and the bytes from `p` on at its end.  Each round drops a
newline, so that there are at most as many rounds as bytes. -/
def grepLines (pattern : List UInt8) : Nat → List UInt8 → List UInt8 × List UInt8
  | 0, p => ([], p)
  | rounds + 1, p =>
    match strchr p with
    | none => ([], p)
    | some (line, q) =>
      let (out, rest) := grepLines pattern rounds q
      ((if match_ pattern line then line ++ [newline] else []) ++ out, rest)

/-- `read` of at most `size` bytes: those it returns, and those left of the input. -/
def read (k size : Nat) (input : List UInt8) : List UInt8 × List UInt8 :=
  input.splitAt (min (k + 1) size)

/-- The outer loop with the bytes `buf[0..m)`; `none` if it has not ended after so many rounds. -/
def grepLoop (pattern : List UInt8) (sizes : Nat → Nat) :
    Nat → List UInt8 → List UInt8 → Option (List UInt8)
  | 0, _, _ => none
  | rounds + 1, buf, input =>
    let (piece, input) := read (sizes rounds) (bufSize - buf.length - 1) input
    if piece = [] then some []
    else
      let (out, rest) := grepLines pattern (buf ++ piece).length (buf ++ piece)
      (grepLoop pattern sizes rounds rest input).map (out ++ ·)

/-- What `grep(pattern, fd)` writes.  Every round but the last reads a byte. -/
def grep (pattern : List UInt8) (sizes : Nat → Nat) (input : List UInt8) : Option (List UInt8) :=
  grepLoop pattern sizes (input.length + 1) [] input

/-! ## Lines -/

/-- The lines of a text, each with its newline; the last one may have none. -/
def linesOf : List UInt8 → List (List UInt8)
  | [] => []
  | c :: s =>
    if c = newline then [newline] :: linesOf s
    else
      match linesOf s with
      | [] => [[c]]
      | line :: lines => (c :: line) :: lines

/-- `match` accepts a line; it does not see the newline. -/
def accepted (pattern line : List UInt8) : Bool := match_ pattern (line.takeWhile (· ≠ newline))

/-- A line that the buffer holds with its newline. -/
def complete (line : List UInt8) : Bool := newline ∈ line ∧ line.length < bufSize

/-- The accepted lines before the first one that is not complete. -/
def printed (pattern input : List UInt8) : List UInt8 :=
  (((linesOf input).takeWhile complete).filter (accepted pattern)).flatten

variable {pattern line p q buf input s : List UInt8} {rounds : Nat}

/-- `strchr` finds the first newline. -/
theorem strchr_spec (nonzero : 0 ∉ p) : strchr p = none ∧ newline ∉ p ∨
      ∃ line q, strchr p = some (line, q) ∧ p = line ++ newline :: q ∧ newline ∉ line := by
  induction p with
  | nil => exact .inl ⟨rfl, not_mem_nil⟩
  | cons c p ih =>
    rw [mem_cons, not_or] at nonzero
    rw [strchr, if_neg (Ne.symm nonzero.1)]
    split_ifs with same
    · exact .inr ⟨[], p, rfl, by rw [same]; rfl, not_mem_nil⟩
    · obtain ⟨none, plain⟩ | ⟨line, q, found, rfl, plain⟩ := ih nonzero.2
      · exact .inl ⟨by rw [none]; rfl, by simp [plain, Ne.symm same]⟩
      · exact .inr ⟨c :: line, q, by rw [found]; rfl, rfl, by simp [plain, Ne.symm same]⟩

theorem linesOf_line (plain : newline ∉ line) (s : List UInt8) :
    linesOf (line ++ newline :: s) = (line ++ [newline]) :: linesOf s := by
  induction line with
  | nil => simp [linesOf]
  | cons c line ih =>
    rw [mem_cons, not_or] at plain
    simp [linesOf, ih plain.2, Ne.symm plain.1]

theorem linesOf_rest (plain : newline ∉ line) (some_ : line ≠ []) : linesOf line = [line] := by
  induction line with
  | nil => exact absurd rfl some_
  | cons c line ih =>
    rw [mem_cons, not_or] at plain
    cases line with
    | nil => simp [linesOf, Ne.symm plain.1]
    | cons d line => rw [linesOf, if_neg (Ne.symm plain.1), ih plain.2 (by simp)]

theorem ne_nil_of_mem_linesOf (mem : line ∈ linesOf s) : line ≠ [] := by
  induction s generalizing line with
  | nil => cases mem
  | cons c s ih =>
    rw [linesOf] at mem
    split_ifs at mem
    · rcases mem_cons.1 mem with rfl | mem
      · simp
      · exact ih mem
    · cases eq : linesOf s with
      | nil => simp_all
      | cons first lines =>
        rw [eq] at mem ih
        rcases mem_cons.1 mem with rfl | mem
        · simp
        · exact ih (mem_cons_of_mem _ mem)

/-- A line that the buffer holds is printed when it is accepted. -/
theorem printed_line (plain : newline ∉ line) (fits : line.length + 1 < bufSize) (s : List UInt8) :
    printed pattern (line ++ newline :: s) =
      (if match_ pattern line then line ++ [newline] else []) ++ printed pattern s := by
  have whole : (line ++ [newline]).takeWhile (· ≠ newline) = line := by
    rw [takeWhile_append_of_pos fun c mem => ?_]
    · simp
    · simpa using fun same : c = newline => plain (same ▸ mem)
  rw [printed, linesOf_line plain, takeWhile_cons_of_pos (by simp [complete, fits]),
    filter_cons, accepted, whole]
  split_ifs with match_ <;> simp [printed]

/-- Nothing is printed from a line on that does not end in the buffer. -/
theorem printed_stop (plain : newline ∉ buf) (stops : s = [] ∨ bufSize ≤ buf.length + 1) :
    printed pattern (buf ++ s) = [] := by
  have first (line : List UInt8) (lines : List (List UInt8))
      (eq : linesOf (buf ++ s) = line :: lines)
      (long : complete line = false) : printed pattern (buf ++ s) = [] := by
    rw [printed, eq, takeWhile_cons_of_neg (by simp [long])]
    rfl
  by_cases mem : newline ∈ s
  · obtain ⟨line, rest, rfl, before⟩ := eq_append_cons_of_mem mem
    have long := stops.resolve_left (by simp)
    have none : newline ∉ buf ++ line := by simp [plain, before]
    have split := linesOf_line none rest
    rw [append_assoc] at split
    refine first _ _ split ?_
    simp only [complete, length_append, length_singleton]
    exact decide_eq_false fun both => by omega
  · by_cases empty : buf ++ s = []
    · rw [empty]
      rfl
    · have none : newline ∉ buf ++ s := by simp [plain, mem]
      exact first _ _ (linesOf_rest none empty) (by simp [complete, plain, mem])

/-- The inner loop prints the accepted lines of the buffer and leaves what is after the last
newline. -/
theorem grepLines_spec (nonzero : 0 ∉ p) (enough : p.length ≤ rounds) (fits : p.length < bufSize) :
    ∃ out rest, grepLines pattern rounds p = (out, rest) ∧
      newline ∉ rest ∧ rest <:+ p ∧
      ∀ s, printed pattern (p ++ s) = out ++ printed pattern (rest ++ s) := by
  induction rounds generalizing p with
  | zero =>
    obtain rfl := eq_nil_of_length_eq_zero (Nat.le_zero.1 enough)
    exact ⟨[], [], rfl, not_mem_nil, suffix_rfl, fun s => rfl⟩
  | succ rounds ih =>
    obtain ⟨none, plain⟩ | ⟨line, q, found, rfl, plain⟩ := strchr_spec nonzero
    · exact ⟨[], p, by rw [grepLines, none], plain, suffix_rfl, fun s => rfl⟩
    · simp only [length_append, length_cons] at enough fits
      obtain ⟨out, rest, run, plain', suffix, prints⟩ :=
        ih (p := q) (fun mem => nonzero (by simp [mem])) (by omega) (by omega)
      refine ⟨_, rest, by rw [grepLines, found]; simp only [run]; rfl, plain',
        suffix.trans ⟨line ++ [newline], by simp⟩, fun s => ?_⟩
      rw [append_assoc, cons_append, printed_line plain (by omega), prints, append_assoc]

/-- The outer loop, with an unfinished line in the buffer. -/
theorem grepLoop_spec {sizes : Nat → Nat} (enough : input.length < rounds) (plain : newline ∉ buf)
    (fits : buf.length < bufSize) (nonzero : 0 ∉ buf ++ input) :
    grepLoop pattern sizes rounds buf input = some (printed pattern (buf ++ input)) := by
  induction rounds generalizing buf input with
  | zero => exact absurd enough (Nat.not_lt_zero _)
  | succ rounds ih =>
    rw [grepLoop]
    simp only [read, splitAt_eq]
    set k := min (sizes rounds + 1) (bufSize - buf.length - 1) with size
    split_ifs with done
    · rw [printed_stop plain]
      rcases take_eq_nil_iff.1 done with zero | empty
      · exact .inr (by omega)
      · exact .inl empty
    · have split : buf ++ input = (buf ++ input.take k) ++ input.drop k := by
        rw [append_assoc, take_append_drop]
      rw [split] at nonzero ⊢
      have length : (buf ++ input.take k).length < bufSize := by
        rw [length_append, length_take]
        omega
      obtain ⟨out, rest, run, plain', suffix, prints⟩ :=
        grepLines_spec (p := buf ++ input.take k)
          (fun mem => nonzero (mem_append_left _ mem)) le_rfl length
      have more : 0 < k ∧ 0 < input.length := by
        rw [take_eq_nil_iff, not_or] at done
        exact ⟨Nat.pos_of_ne_zero done.1, length_pos_iff.2 done.2⟩
      rw [run]
      simp only
      rw [ih (by rw [length_drop]; omega) plain' (suffix.length_le.trans_lt length), prints]
      · rfl
      · intro mem
        refine nonzero ?_
        rw [mem_append] at mem ⊢
        exact mem.imp_left (suffix.subset ·)

/-- `grep` prints the accepted lines of its input exactly when it accepts no line from the first
one on that has no newline or does not fit into the buffer, however `read` splits the input. -/
theorem grep_prints_iff (pattern : List UInt8) (sizes : Nat → Nat) (nonzero : 0 ∉ input) :
    grep pattern sizes input = some (((linesOf input).filter (accepted pattern)).flatten) ↔
      ∀ line ∈ (linesOf input).dropWhile complete, accepted pattern line = false := by
  rw [grep, grepLoop_spec (by omega) not_mem_nil (by decide) nonzero, nil_append, printed,
    Option.some_inj]
  nth_rewrite 2 [← takeWhile_append_dropWhile (p := complete) (l := linesOf input)]
  rw [filter_append, flatten_append, self_eq_append_right, flatten_eq_nil_iff]
  constructor
  · intro none line mem
    by_contra accept
    have written := none line (mem_filter.2 ⟨mem, by simpa using accept⟩)
    exact ne_nil_of_mem_linesOf ((dropWhile_suffix _).subset mem) written
  · intro none line mem
    obtain ⟨mem, accept⟩ := mem_filter.1 mem
    rw [none line mem] at accept
    cases accept

/-- A last line without a newline. -/
theorem grep_drops_last : (0 : UInt8) ∉ [97] ∧
    grep [97] (fun _ => 0) [97] ≠ some (((linesOf [97]).filter (accepted [97])).flatten) := by
  decide

/-- Two lines, one of them accepted, that `read` returns byte by byte. -/
theorem grep_prints_two : (0 : UInt8) ∉ [97, 10, 98, 10] ∧
    grep [97] (fun _ => 0) [97, 10, 98, 10] =
      some (((linesOf [97, 10, 98, 10]).filter (accepted [97])).flatten) :=
  ⟨by decide, (grep_prints_iff [97] (fun _ => 0) (by decide)).2 (by decide)⟩

end Xv6.User
