import Mathlib.Computability.Language

/-!
# The matcher of `grep`

A C string is the list of its characters before the NUL, so that `*text == '\0'` says that the
list is empty.  `matchstar(c, re, text)` calls `matchhere(re, ·)` and nothing else of `matchhere`;
it is defined for any function in its place, so that `matchhere` recurses on what is left of the
pattern and `matchstar` on what is left of the text.

The meaning of a pattern is given apart from the code, as a language: a product of single
characters and of stars of single characters.
-/

namespace Xv6.User

/-- `'^'`, `'.'`, `'*'` and `'$'`. -/
def caret : UInt8 := 94
def dot : UInt8 := 46
def star : UInt8 := 42
def dollar : UInt8 := 36

/-- The loop of `matchstar`, with `here` for `matchhere(re, ·)`. -/
def matchstarLoop (here : List UInt8 → Bool) (c : UInt8) : List UInt8 → Bool
  | [] => here []
  | t :: text => here (t :: text) || (t = c || c = dot) && matchstarLoop here c text

/-- The last two lines of `matchhere`: one character, then `next` for `matchhere(re + 1, ·)`. -/
def matchone (next : List UInt8 → Bool) (c : UInt8) : List UInt8 → Bool
  | [] => false
  | t :: text => (c = dot || c = t) && next text

def matchhere : List UInt8 → List UInt8 → Bool
  | [], _ => true
  | [c], text => if c = dollar then text.isEmpty else matchone (matchhere []) c text
  | c :: d :: re, text =>
    if d = star then matchstarLoop (matchhere re) c text else matchone (matchhere (d :: re)) c text

def matchstar (c : UInt8) (re text : List UInt8) : Bool := matchstarLoop (matchhere re) c text

/-- The loop of `match`. -/
def matchLoop (re : List UInt8) : List UInt8 → Bool
  | [] => matchhere re []
  | t :: text => matchhere re (t :: text) || matchLoop re text

/-- `match(re, text)`. -/
def match_ (re text : List UInt8) : Bool :=
  if re.head? = some caret then matchhere re.tail text else matchLoop re text

/-! ## The meaning of a pattern -/

/-- A character of a pattern, and whether a `*` follows it. -/
structure Item where
  c : UInt8
  starred : Bool
deriving DecidableEq

/-- The texts of one character that a character of a pattern stands for. -/
def single (c : UInt8) : Language UInt8 := { w | ∃ t, (c = dot ∨ c = t) ∧ w = [t] }

def Item.language (i : Item) : Language UInt8 :=
  if i.starred then KStar.kstar (single i.c) else single i.c

/-- A pattern, read from left to right. -/
structure Pattern where
  items : List Item
  /-- It ends with a `$`. -/
  final : Bool
deriving DecidableEq

def Pattern.cons (i : Item) (p : Pattern) : Pattern := { p with items := i :: p.items }

/-- The items of a pattern after the `^`: a `*` belongs to the character before it, and a `$` is
one for the end of the text when it is the last character. -/
def Pattern.parse : List UInt8 → Pattern
  | [] => ⟨[], false⟩
  | [c] => if c = dollar then ⟨[], true⟩ else ⟨[⟨c, false⟩], false⟩
  | c :: d :: re =>
    if d = star then (parse re).cons ⟨c, true⟩ else (parse (d :: re)).cons ⟨c, false⟩

def Pattern.language (p : Pattern) : Language UInt8 := (p.items.map Item.language).prod

/-- A text starts with a word of the language, and ends with it if it has to. -/
def Starts (final : Bool) (l : Language UInt8) (text : List UInt8) : Prop :=
  ∃ w rest, text = w ++ rest ∧ w ∈ l ∧ (final = true → rest = [])

variable {final : Bool} {l m : Language UInt8} {c : UInt8} {text : List UInt8}

theorem starts_one : Starts final 1 text ↔ (final = true → text = []) := by
  constructor
  · rintro ⟨w, rest, rfl, rfl, ends⟩
    exact ends
  · exact fun ends => ⟨[], text, rfl, rfl, ends⟩

theorem starts_add : Starts final (l + m) text ↔ Starts final l text ∨ Starts final m text := by
  simp only [Starts, Language.mem_add, or_and_right, and_or_left, exists_or]

/-- A text starts with a character, and the rest with a word. -/
theorem starts_single_mul : Starts final (single c * l) text ↔
    ∃ t rest, text = t :: rest ∧ (c = dot ∨ c = t) ∧ Starts final l rest := by
  constructor
  · rintro ⟨w, rest, rfl, ⟨u, ⟨t, fits, rfl⟩, v, mem, rfl⟩, ends⟩
    exact ⟨t, v ++ rest, rfl, fits, v, rest, rfl, mem, ends⟩
  · rintro ⟨t, _, rfl, fits, w, rest, rfl, mem, ends⟩
    exact ⟨t :: w, rest, rfl, ⟨[t], ⟨t, fits, rfl⟩, w, mem, rfl⟩, ends⟩

/-- A star is left out, or taken once more. -/
theorem starts_kstar_mul (text : List UInt8) : Starts final (KStar.kstar (single c) * l) text ↔
    Starts final l text ∨
      ∃ t rest, text = t :: rest ∧ (c = dot ∨ c = t) ∧
        Starts final (KStar.kstar (single c) * l) rest := by
  rw [← starts_single_mul, ← mul_assoc, ← starts_add]
  nth_rewrite 1 [← Language.one_add_self_mul_kstar_eq_kstar]
  rw [add_mul, one_mul]

theorem matchstarLoop_iff {here : List UInt8 → Bool}
    (spec : ∀ text, here text = true ↔ Starts final l text) (c : UInt8) (text : List UInt8) :
    matchstarLoop here c text = true ↔ Starts final (KStar.kstar (single c) * l) text := by
  induction text with
  | nil =>
    rw [matchstarLoop, spec, starts_kstar_mul]
    simp
  | cons t text ih =>
    rw [matchstarLoop, Bool.or_eq_true, Bool.and_eq_true, spec, ih, starts_kstar_mul (t :: text)]
    refine or_congr_right ⟨fun ⟨fits, starts⟩ => ⟨t, text, rfl, by grind, starts⟩, ?_⟩
    rintro ⟨_, _, ⟨⟩, fits, starts⟩
    exact ⟨by grind, starts⟩

theorem matchone_iff {next : List UInt8 → Bool}
    (spec : ∀ text, next text = true ↔ Starts final l text) (c : UInt8) (text : List UInt8) :
    matchone next c text = true ↔ Starts final (single c * l) text := by
  rw [starts_single_mul]
  cases text with
  | nil => simp [matchone]
  | cons t text => simp [matchone, spec]

theorem matchhere_iff (re text : List UInt8) : matchhere re text = true ↔
    Starts (Pattern.parse re).final (Pattern.parse re).language text := by
  induction re using Pattern.parse.induct generalizing text with
  | case1 =>
    rw [matchhere, Pattern.parse, Pattern.language, List.map_nil, List.prod_nil, starts_one]
    simp
  | case2 =>
    rw [matchhere, if_pos rfl, Pattern.parse, if_pos rfl, Pattern.language, List.map_nil,
      List.prod_nil, starts_one]
    simp
  | case3 c other =>
    have spec (text : List UInt8) : matchhere [] text = true ↔ Starts false 1 text := by
      rw [matchhere, starts_one]
      simp
    rw [matchhere, if_neg other, Pattern.parse, if_neg other, matchone_iff spec]
    simp [Pattern.language, Item.language]
  | case4 c re ih =>
    rw [matchhere, if_pos rfl, Pattern.parse, if_pos rfl, matchstarLoop_iff ih]
    simp [Pattern.cons, Pattern.language, Item.language]
  | case5 c d re other ih =>
    rw [matchhere, if_neg other, Pattern.parse, if_neg other, matchone_iff ih]
    simp [Pattern.cons, Pattern.language, Item.language]

theorem matchLoop_iff (re text : List UInt8) : matchLoop re text = true ↔
    ∃ before after, text = before ++ after ∧ matchhere re after = true := by
  induction text with
  | nil => simp [matchLoop]
  | cons t text ih =>
    rw [matchLoop, Bool.or_eq_true, ih]
    constructor
    · rintro (here | ⟨before, after, rfl, later⟩)
      · exact ⟨[], t :: text, rfl, here⟩
      · exact ⟨t :: before, after, rfl, later⟩
    · rintro ⟨before, after, split, here⟩
      cases before with
      | nil => exact .inl (by rwa [split])
      | cons _ before =>
        obtain ⟨-, rfl⟩ := List.cons.inj split
        exact .inr ⟨before, after, rfl, here⟩

/-- `match(re, text)` is 1 exactly when a part of the text is in the language of the pattern: a
first part if the pattern begins with `^`, and a last one if it ends with `$`. -/
theorem match_language (re text : List UInt8) :
    match_ re text = true ↔ ∃ before w after, text = before ++ (w ++ after) ∧
      w ∈ (Pattern.parse (if re.head? = some caret then re.tail else re)).language ∧
      (re.head? = some caret → before = []) ∧
      ((Pattern.parse (if re.head? = some caret then re.tail else re)).final = true →
        after = []) := by
  unfold match_
  split_ifs with anchored
  · rw [matchhere_iff]
    constructor
    · rintro ⟨w, rest, rfl, mem, ends⟩
      exact ⟨[], w, rest, rfl, mem, fun _ => rfl, ends⟩
    · rintro ⟨before, w, after, rfl, mem, starts, ends⟩
      rw [starts anchored]
      exact ⟨w, after, rfl, mem, ends⟩
  · rw [matchLoop_iff]
    constructor
    · rintro ⟨before, _, rfl, here⟩
      obtain ⟨w, rest, rfl, mem, ends⟩ := (matchhere_iff _ _).1 here
      exact ⟨before, w, rest, rfl, mem, fun first => absurd first anchored, ends⟩
    · rintro ⟨before, w, after, rfl, mem, -, ends⟩
      exact ⟨before, w ++ after, rfl, (matchhere_iff _ _).2 ⟨w, after, rfl, mem, ends⟩⟩

/-- `b*$` in "abb". -/
example : match_ [98, 42, 36] [97, 98, 98] = true := by decide

end Xv6.User
