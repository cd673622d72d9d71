import Mathlib

/-! The EBCDIC character set and the `ctype.h` tables the library reads.

The source is written with character literals; the compiler turns them into
EBCDIC (code page 037). `ebcdic` is that translation, for the characters the
source names. Plain `char` is unsigned. -/
namespace Libc370

/-- A character literal of the source. The letters come in three runs. -/
def ebcdic (c : Char) : UInt8 :=
  let n := c.toNat
  if '0' ≤ c ∧ c ≤ '9' then UInt8.ofNat (0xF0 + (n - 48))
  else if 'A' ≤ c ∧ c ≤ 'I' then UInt8.ofNat (0xC1 + (n - 65))
  else if 'J' ≤ c ∧ c ≤ 'R' then UInt8.ofNat (0xD1 + (n - 74))
  else if 'S' ≤ c ∧ c ≤ 'Z' then UInt8.ofNat (0xE2 + (n - 83))
  else if 'a' ≤ c ∧ c ≤ 'i' then UInt8.ofNat (0x81 + (n - 97))
  else if 'j' ≤ c ∧ c ≤ 'r' then UInt8.ofNat (0x91 + (n - 106))
  else if 's' ≤ c ∧ c ≤ 'z' then UInt8.ofNat (0xA2 + (n - 115))
  else
    match c with
    | '\n' => 0x15 | ' ' => 0x40 | '.' => 0x4B | '(' => 0x4D | '+' => 0x4E
    | '*' => 0x5C | ')' => 0x5D | ';' => 0x5E | '-' => 0x60 | '/' => 0x61 | ',' => 0x6B
    | '%' => 0x6C | ':' => 0x7A | '#' => 0x7B | '=' => 0x7E
    | '^' => 0xB0 | '[' => 0xBA | ']' => 0xBB
    | _ => 0x6F

/-- The bytes of a C string up to its NUL. -/
abbrev CString := {s : List UInt8 // 0 ∉ s}

/-- A string literal of the source. -/
def literal (s : String) : List UInt8 := s.toList.map ebcdic

/-- `isspace()` as `__isbuf` has it: HT, VT, FF, CR, NL and blank; EOF is none of them. -/
def isspace (ch : Int) : Bool :=
  ch == 0x05 || ch == 0x0B || ch == 0x0C || ch == 0x0D || ch == 0x15 || ch == 0x40

/-- `isdigit()`. -/
def isdigit (ch : Int) : Bool := 0xF0 ≤ ch && ch ≤ 0xF9

/-- `tolower()`: the capital letters are 0x40 above the small ones. -/
def tolower (ch : Int) : Int :=
  if (0xC1 ≤ ch ∧ ch ≤ 0xC9) ∨ (0xD1 ≤ ch ∧ ch ≤ 0xD9) ∨ (0xE2 ≤ ch ∧ ch ≤ 0xE9) then ch - 0x40 else ch

/-- `toupper()` on a character. -/
def toupper (c : UInt8) : UInt8 :=
  if (0x81 ≤ c ∧ c ≤ 0x89) ∨ (0x91 ≤ c ∧ c ≤ 0x99) ∨ (0xA2 ≤ c ∧ c ≤ 0xA9) then c + 0x40 else c

/-- The digits up to base 36, in order. -/
def digits : List UInt8 := literal "0123456789abcdefghijklmnopqrstuvwxyz"

/-- `__digval()`: the value of a digit, or 36 when the character is no digit. -/
def digval (ch : Int) : Nat := digits.findIdx (fun c => (c.toNat : Int) == tolower ch)

@[simp] theorem isspace_eof : isspace (-1) = false := rfl

@[simp] theorem isspace_nul : isspace 0 = false := rfl

/-- The white space that the tables name. -/
theorem isspace_iff {ch : Int} :
    isspace ch = true ↔ ch = 0x05 ∨ ch = 0x0B ∨ ch = 0x0C ∨ ch = 0x0D ∨ ch = 0x15 ∨ ch = 0x40 := by
  simp [isspace, or_assoc]

theorem isdigit_iff {ch : Int} : isdigit ch = true ↔ 0xF0 ≤ ch ∧ ch ≤ 0xF9 := by
  simp [isdigit]

theorem digits_eq : digits = [0xF0, 0xF1, 0xF2, 0xF3, 0xF4, 0xF5, 0xF6, 0xF7, 0xF8, 0xF9, 0x81, 0x82, 0x83, 0x84, 0x85,
      0x86, 0x87, 0x88, 0x89, 0x91, 0x92, 0x93, 0x94, 0x95, 0x96, 0x97, 0x98, 0x99, 0xA2, 0xA3, 0xA4, 0xA5, 0xA6, 0xA7,
      0xA8, 0xA9] := by decide

/-- The values of the characters: the digits and six runs of letters have one. -/
theorem digval_cases (c : UInt8) :
    (0xF0 ≤ c.toNat ∧ c.toNat ≤ 0xF9 ∧ digval c.toNat = c.toNat - 0xF0) ∨
      (0x81 ≤ c.toNat ∧ c.toNat ≤ 0x89 ∧ digval c.toNat = c.toNat - 0x81 + 10) ∨
      (0x91 ≤ c.toNat ∧ c.toNat ≤ 0x99 ∧ digval c.toNat = c.toNat - 0x91 + 19) ∨
      (0xA2 ≤ c.toNat ∧ c.toNat ≤ 0xA9 ∧ digval c.toNat = c.toNat - 0xA2 + 28) ∨
      (0xC1 ≤ c.toNat ∧ c.toNat ≤ 0xC9 ∧ digval c.toNat = c.toNat - 0xC1 + 10) ∨
      (0xD1 ≤ c.toNat ∧ c.toNat ≤ 0xD9 ∧ digval c.toNat = c.toNat - 0xD1 + 19) ∨
      (0xE2 ≤ c.toNat ∧ c.toNat ≤ 0xE9 ∧ digval c.toNat = c.toNat - 0xE2 + 28) ∨
      (c.toNat < 0x81 ∨ 0x89 < c.toNat ∧ c.toNat < 0x91 ∨ 0x99 < c.toNat ∧ c.toNat < 0xA2 ∨
        0xA9 < c.toNat ∧ c.toNat < 0xC1 ∨ 0xC9 < c.toNat ∧ c.toNat < 0xD1 ∨ 0xD9 < c.toNat ∧ c.toNat < 0xE2 ∨
        0xE9 < c.toNat ∧ c.toNat < 0xF0 ∨ 0xF9 < c.toNat) ∧ digval c.toNat = 36 := by
  have hall : ∀ n : Fin 256, (0xF0 ≤ n.val ∧ n.val ≤ 0xF9 ∧ digval n.val = n.val - 0xF0) ∨
      (0x81 ≤ n.val ∧ n.val ≤ 0x89 ∧ digval n.val = n.val - 0x81 + 10) ∨
      (0x91 ≤ n.val ∧ n.val ≤ 0x99 ∧ digval n.val = n.val - 0x91 + 19) ∨
      (0xA2 ≤ n.val ∧ n.val ≤ 0xA9 ∧ digval n.val = n.val - 0xA2 + 28) ∨
      (0xC1 ≤ n.val ∧ n.val ≤ 0xC9 ∧ digval n.val = n.val - 0xC1 + 10) ∨
      (0xD1 ≤ n.val ∧ n.val ≤ 0xD9 ∧ digval n.val = n.val - 0xD1 + 19) ∨
      (0xE2 ≤ n.val ∧ n.val ≤ 0xE9 ∧ digval n.val = n.val - 0xE2 + 28) ∨
      (n.val < 0x81 ∨ 0x89 < n.val ∧ n.val < 0x91 ∨ 0x99 < n.val ∧ n.val < 0xA2 ∨
        0xA9 < n.val ∧ n.val < 0xC1 ∨ 0xC9 < n.val ∧ n.val < 0xD1 ∨ 0xD9 < n.val ∧ n.val < 0xE2 ∨
        0xE9 < n.val ∧ n.val < 0xF0 ∨ 0xF9 < n.val) ∧ digval n.val = 36 := by
    simp only [digval, digits_eq]
    decide +kernel
  exact hall ⟨c.toNat, c.toNat_lt⟩
theorem digval_lt_ten {c : UInt8} : digval c.toNat < 10 ↔ isdigit c.toNat = true := by
  have hc := digval_cases c
  rw [isdigit_iff]
  omega

end Libc370
