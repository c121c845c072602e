/-!
# Character classes

The two classes of characters that the reader of Jack source tells apart:
blanks, which separate, and word characters, which make up names, keywords and
numbers.  No character is in both classes.
-/

namespace JackTree.Text

/-- The characters with the Unicode property `White_Space`. -/
def isBlank (c : Char) : Bool :=
  let n := c.toNat
  (0x09 ≤ n && n ≤ 0x0D) || n == 0x20 || n == 0x85 || n == 0xA0 || n == 0x1680
    || (0x2000 ≤ n && n ≤ 0x200A) || n == 0x2028 || n == 0x2029 || n == 0x202F
    || n == 0x205F || n == 0x3000

/-- ASCII letters, ASCII digits and the underscore. -/
def isWordChar (c : Char) : Bool :=
  c.isAlphanum || c == '_'

/-- The character that opens and closes a string constant. -/
def quoteMark : Char := '"'

theorem isBlank_quoteMark : isBlank quoteMark = false := by decide

theorem isWordChar_quoteMark : isWordChar quoteMark = false := by decide

theorem isBlank_space : isBlank ' ' = true := by decide

theorem isWordChar_eq_false_of_isBlank {c : Char} (hblank : isBlank c = true) :
    isWordChar c = false := by
  cases hword : isWordChar c with
  | false => rfl
  | true =>
    unfold isWordChar Char.isAlphanum Char.isAlpha Char.isUpper Char.isLower Char.isDigit at hword
    simp only [Bool.or_eq_true, Bool.and_eq_true, decide_eq_true_eq, beq_iff_eq,
      UInt32.le_iff_toNat_le, ge_iff_le] at hword
    simp only [isBlank, Bool.or_eq_true, Bool.and_eq_true, decide_eq_true_eq,
      beq_iff_eq] at hblank
    change ((((65 ≤ c.toNat ∧ c.toNat ≤ 90) ∨ (97 ≤ c.toNat ∧ c.toNat ≤ 122)) ∨
      (48 ≤ c.toNat ∧ c.toNat ≤ 57)) ∨ c = '_') at hword
    rcases hword with hword | rfl
    · omega
    · revert hblank
      decide

end JackTree.Text
