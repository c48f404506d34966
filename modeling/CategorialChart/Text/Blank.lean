/-!
# Blanks and lines

White space is the Unicode property `White_Space`: 25 characters in ten ranges, unchanged since
Unicode 6.3.

* `isBlank`: the property. It holds of every character that `Char.isWhitespace` accepts.
* `trim`: a text without the blanks at its two ends.
* `splitLines`: the pieces of a text between line feeds. A carriage return stays at the end of its
  piece; it is a blank, so trimming takes it.
-/

namespace CategorialChart.Text

/-- The ranges of white space, ascending. -/
def blankRanges : List (Nat × Nat) :=
  [(0x09, 0x0D), (0x20, 0x20), (0x85, 0x85), (0xA0, 0xA0), (0x1680, 0x1680), (0x2000, 0x200A),
    (0x2028, 0x2029), (0x202F, 0x202F), (0x205F, 0x205F), (0x3000, 0x3000)]

/-- Whether a character is white space. -/
def isBlank (c : Char) : Bool :=
  blankRanges.any fun r => r.1 ≤ c.toNat && c.toNat ≤ r.2

theorem isBlank_of_isWhitespace {c : Char} (h : c.isWhitespace = true) : isBlank c = true := by
  simp only [Char.isWhitespace, Bool.or_eq_true, decide_eq_true_eq] at h
  rcases h with ((h | h) | h) | h <;> subst h <;> decide

/-- The text without the blanks at its ends. -/
def trim (cs : List Char) : List Char :=
  ((cs.dropWhile isBlank).reverse.dropWhile isBlank).reverse

/-- The pieces between line feeds; a text without one is a single piece. -/
def splitLines : List Char → List (List Char)
  | [] => [[]]
  | c :: cs =>
    match splitLines cs with
    | [] => [[c]]
    | line :: lines => if c = '\n' then [] :: line :: lines else (c :: line) :: lines

end CategorialChart.Text
