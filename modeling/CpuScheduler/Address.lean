import CpuScheduler.Structs
import Mathlib.Tactic

/-!
# Request addresses

`parse_hexa_address` of `MMU/mmu_functions.c`, over the C library's `strtoul`. A
string is the list of its characters up to the terminating `NUL`.

`strtoul` skips white space, reads an optional sign and, in base 16, an optional
`0x`, and then the longest run of digits; a value that does not fit in 64 bits
saturates, and a minus sign negates modulo `2 ^ 64`. The caller truncates the
result to a 32-bit `unsigned int`, so the page – the upper 28 bits – is never
negative.
-/

namespace CpuScheduler

/-- `isspace` in the C locale. -/
def isSpace (c : Char) : Bool :=
  c = ' ' || c = '\t' || c = '\n' || c = '\r' || c = Char.ofNat 11 || c = Char.ofNat 12

/-- The value of a digit, if the character is one in the base. -/
def digitVal (base : ℕ) (c : Char) : Option ℕ :=
  let v :=
    if '0' ≤ c ∧ c ≤ '9' then some (c.toNat - '0'.toNat)
    else if 'a' ≤ c ∧ c ≤ 'z' then some (c.toNat - 'a'.toNat + 10)
    else if 'A' ≤ c ∧ c ≤ 'Z' then some (c.toNat - 'A'.toNat + 10)
    else none
  v.filter (· < base)

/-- The value of the longest run of digits a string starts with. -/
def readDigits (base : ℕ) : ℕ → List Char → ℕ
  | acc, [] => acc
  | acc, c :: s => match digitVal base c with
    | none => acc
    | some d => readDigits base (acc * base + d) s

/-- An optional `0x` in front of the digits, in base 16. -/
def skipPrefix (base : ℕ) : List Char → List Char
  | c :: d :: s => if base = 16 ∧ c = '0' ∧ (d = 'x' ∨ d = 'X') then s else c :: d :: s
  | s => s

/-- The magnitude and the sign of a number in front of a string. -/
def readSigned (base : ℕ) : List Char → ℕ × Bool
  | '-' :: s => (readDigits base 0 (skipPrefix base s), true)
  | '+' :: s => (readDigits base 0 (skipPrefix base s), false)
  | s => (readDigits base 0 (skipPrefix base s), false)

/-- `strtoul` with a 64-bit `unsigned long`. -/
def strtoul (s : List Char) (base : ℕ) : ℕ :=
  let (v, neg) := readSigned base (s.dropWhile isSpace)
  if 2 ^ 64 ≤ v then 2 ^ 64 - 1
  else if neg then (2 ^ 64 - v) % 2 ^ 64
  else v

/-- The base `parse_hexa_address` reads a string in. -/
def addressBase : List Char → ℕ
  | '0' :: 'x' :: _ => 16
  | '0' :: 'X' :: _ => 16
  | _ => 10

/-- `parse_hexa_address`. -/
def parseHexaAddress (address : List Char) : VirtualAddress :=
  if address = [] then { page := 0, offset := 0 }
  else
    let addr := strtoul address (addressBase address) % 2 ^ 32
    { page := (addr / 16 : ℕ), offset := (addr % 16 : ℕ) }

/-- **A parsed page is never negative**, and fits in 28 bits. -/
theorem parseHexaAddress_page (address : List Char) :
    0 ≤ (parseHexaAddress address).page ∧ (parseHexaAddress address).page < 2 ^ 28 := by
  unfold parseHexaAddress
  split_ifs
  · exact ⟨le_refl _, by norm_num⟩
  · have h : strtoul address (addressBase address) % 2 ^ 32 < 2 ^ 32 :=
      Nat.mod_lt _ (by norm_num)
    constructor
    · exact Int.natCast_nonneg _
    · change ((strtoul address (addressBase address) % 2 ^ 32 / 16 : ℕ) : ℤ) < 2 ^ 28
      have := Nat.div_lt_of_lt_mul (show _ < 16 * 2 ^ 28 by simpa using h)
      exact_mod_cast this

example : parseHexaAddress "0x1F".toList = { page := 1, offset := 15 } := by decide

end CpuScheduler
