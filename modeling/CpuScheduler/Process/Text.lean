import CpuScheduler.Address
import Mathlib.Data.List.TakeWhile

/-!
# Numbers as text

A scheduler hands numbers to a child as text: it prints them with `snprintf` and `%d`,
and the child reads them back with `to_int` of `headers.h`, over the C library's
`strtol`. The one result here is that the two fit together
(`CpuScheduler.toInt_showInt`).

A string is the list of its characters up to the terminating `NUL`; `int` has 32 bits and
`long` has 64.
-/

namespace CpuScheduler

/-- The values of an `int`. -/
def IsInt (n : ℤ) : Prop := -2 ^ 31 ≤ n ∧ n < 2 ^ 31

instance : DecidablePred IsInt := fun _ => inferInstanceAs (Decidable (_ ∧ _))

/-- `%d`. -/
def showInt (n : ℤ) : List Char :=
  if n < 0 then '-' :: Nat.toDigits 10 n.natAbs else Nat.toDigits 10 n.natAbs

/-- A number in front of a string: its sign, its digits and what follows them. -/
def splitInt (s : List Char) : Bool × List Char × List Char :=
  match s.dropWhile isSpace with
  | '-' :: t => (true, t.takeWhile Char.isDigit, t.dropWhile Char.isDigit)
  | '+' :: t => (false, t.takeWhile Char.isDigit, t.dropWhile Char.isDigit)
  | t => (false, t.takeWhile Char.isDigit, t.dropWhile Char.isDigit)

/-- The value of a sign and digits. -/
def signed (neg : Bool) (digits : List Char) : ℤ :=
  if neg then -(Nat.ofDigitChars 10 digits 0 : ℕ) else (Nat.ofDigitChars 10 digits 0 : ℕ)

/-- A value that does not fit in a `long` saturates. -/
def clampLong (v : ℤ) : ℤ := max (-2 ^ 63) (min v (2 ^ 63 - 1))

/-- `strtol` in base 10: the value, whether it was out of range, and the rest of the string;
nothing if there is no digit. -/
def strtol (s : List Char) : Option (ℤ × Bool × List Char) :=
  let (neg, digits, rest) := splitInt s
  if digits = [] then none
  else
    let v := signed neg digits
    some (clampLong v, v ≠ clampLong v, rest)

/-- `to_int`. -/
def toInt (s : List Char) : Option ℤ :=
  match strtol s with
  | none => none
  | some (sl, erange, rest) =>
    if rest ≠ [] then none
    else if (sl = -2 ^ 63 ∨ sl = 2 ^ 63 - 1) ∧ erange then none
    else if sl > 2 ^ 31 - 1 then none
    else if sl < -2 ^ 31 then none
    else some sl

/-- A digit is neither a space nor a sign. -/
theorem isDigit_ne {c : Char} (h : c.isDigit = true) :
    isSpace c = false ∧ c ≠ '-' ∧ c ≠ '+' := by
  have hne : ∀ d : Char, d.isDigit = false → c ≠ d := by
    rintro d hd rfl
    exact nomatch hd.symm.trans h
  refine ⟨?_, hne _ (by decide), hne _ (by decide)⟩
  simp only [isSpace, hne ' ' (by decide), hne '\t' (by decide), hne '\n' (by decide),
    hne '\r' (by decide), hne (Char.ofNat 11) (by decide), hne (Char.ofNat 12) (by decide),
    decide_false, Bool.or_false]

/-- The number that is printed is split into its sign and its digits. -/
theorem splitInt_showInt (n : ℤ) :
    splitInt (showInt n) = (decide (n < 0), Nat.toDigits 10 n.natAbs, []) := by
  have hdigits : ∀ c ∈ Nat.toDigits 10 n.natAbs, c.isDigit = true := fun c hc =>
    Nat.isDigit_of_mem_toDigits (by decide) (by decide) hc
  have htake : (Nat.toDigits 10 n.natAbs).takeWhile Char.isDigit = Nat.toDigits 10 n.natAbs :=
    List.takeWhile_eq_self_iff.mpr hdigits
  have hdrop : (Nat.toDigits 10 n.natAbs).dropWhile Char.isDigit = [] :=
    List.dropWhile_eq_nil_iff.mpr hdigits
  by_cases hn : n < 0
  · rw [showInt, if_pos hn, splitInt, List.dropWhile_cons_of_neg (by decide), decide_eq_true hn]
    exact congrArg₂ (fun a b => (true, a, b)) htake hdrop
  · rw [showInt, if_neg hn, decide_eq_false hn]
    generalize Nat.toDigits 10 n.natAbs = l at hdigits htake hdrop ⊢
    cases l with
    | nil => rfl
    | cons c t =>
      obtain ⟨hspace, hminus, hplus⟩ := isDigit_ne (hdigits c List.mem_cons_self)
      rw [splitInt, List.dropWhile_cons_of_neg (Bool.eq_false_iff.mp hspace)]
      split
      · rename_i heq
        exact absurd (List.cons.inj heq).1 hminus
      · rename_i heq
        exact absurd (List.cons.inj heq).1 hplus
      · rw [htake, hdrop]

theorem signed_toDigits (n : ℤ) : signed (decide (n < 0)) (Nat.toDigits 10 n.natAbs) = n := by
  rw [signed, Nat.ofDigitChars_ten_toDigits]
  by_cases hn : n < 0
  · rw [if_pos (decide_eq_true hn)]
    omega
  · rw [if_neg (by rw [decide_eq_false hn]; exact Bool.false_ne_true)]
    omega

/-- **What is printed is read back.** -/
theorem toInt_showInt {n : ℤ} (h : IsInt n) : toInt (showInt n) = some n := by
  have hclamp : clampLong n = n := by
    obtain ⟨hlo, hhi⟩ := h
    rw [clampLong]
    omega
  obtain ⟨hlo, hhi⟩ := h
  have hne : Nat.toDigits 10 n.natAbs ≠ [] := Nat.toDigits_ne_nil
  rw [toInt, strtol, splitInt_showInt]
  dsimp only
  rw [if_neg hne, signed_toDigits, hclamp]
  dsimp only
  rw [if_neg (by simp), if_neg (by simp), if_neg (by omega), if_neg (by omega)]

end CpuScheduler
