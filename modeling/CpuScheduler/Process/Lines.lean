import CpuScheduler.Process.RequestFile

/-!
# Files of lines

What the loops over `fgets` see of a file, when its lines are shorter than the buffer
(`CpuScheduler.filterMap_fgetsAll`), and what the conversion `%d` of `sscanf` reads from a
number between blanks (`CpuScheduler.strtol_showInt`). The formats of the two kinds of input
files are built from these.
-/

namespace CpuScheduler

/-! ### Lines -/

/-- The contents of a file, by lines. A file whose last line is empty ends in a line break. -/
def joinLines : List (List Char) → List Char
  | [] => []
  | [l] => l
  | l :: m :: ls => l ++ '\n' :: joinLines (m :: ls)

theorem joinLines_cons {l : List Char} {ls : List (List Char)} (h : ls ≠ []) :
    joinLines (l :: ls) = l ++ '\n' :: joinLines ls := by
  cases ls with
  | nil => exact absurd rfl h
  | cons m ls => rfl

/-- A line that `fgets` reads in one piece, and that is a string. -/
structure PlainLine (l : List Char) : Prop where
  newline : '\n' ∉ l
  nul : Char.ofNat 0 ∉ l
  short : l.length ≤ 1022

variable {β : Type} {l l' rest : List Char} {ls : List (List Char)}

theorem fgetsAll_break (hn : '\n' ∉ l) : ∀ {acc : List Char}, acc.length + l.length ≤ 1022 →
    fgetsAll (l ++ '\n' :: rest) acc = (acc ++ l ++ ['\n']) :: fgetsAll rest [] := by
  induction l with
  | nil =>
    intro acc _
    rw [List.nil_append, fgetsAll, if_pos (Or.inl rfl), List.append_nil]
  | cons c l ih =>
    intro acc hlen
    rw [List.length_cons] at hlen
    obtain ⟨hc, hn⟩ := not_or.mp (mt List.mem_cons.mpr hn)
    have hgo : ¬(c = '\n' ∨ acc.length + 1 = 1023) := by
      rintro (he | he)
      · exact hc he.symm
      · omega
    rw [List.cons_append, fgetsAll, if_neg hgo, ih hn (by
      rw [List.length_append, List.length_singleton]
      omega)]
    simp only [List.append_assoc, List.singleton_append]

theorem fgetsAll_end (hn : '\n' ∉ l) : ∀ {acc : List Char}, acc.length + l.length ≤ 1022 →
    fgetsAll l acc = if acc ++ l = [] then [] else [acc ++ l] := by
  induction l with
  | nil =>
    intro acc _
    rw [fgetsAll, List.append_nil]
  | cons c l ih =>
    intro acc hlen
    rw [List.length_cons] at hlen
    obtain ⟨hc, hn⟩ := not_or.mp (mt List.mem_cons.mpr hn)
    have hgo : ¬(c = '\n' ∨ acc.length + 1 = 1023) := by
      rintro (he | he)
      · exact hc he.symm
      · omega
    rw [fgetsAll, if_neg hgo, ih hn (by
      rw [List.length_append, List.length_singleton]
      omega)]
    simp only [List.append_assoc, List.singleton_append]

theorem cString_eq (h : Char.ofNat 0 ∉ l) : cString l = l :=
  List.takeWhile_eq_self_iff.mpr fun _ hc => decide_eq_true fun he => h (he ▸ hc)

theorem PlainLine.cString_break (h : PlainLine l) : cString (l ++ ['\n']) = l ++ ['\n'] :=
  cString_eq fun hc => (List.mem_append.mp hc).elim h.nul fun he =>
    absurd (List.mem_singleton.mp he) (by decide)

/-- What the calls of `fgets` return for these lines. -/
def brokenLines : List (List Char) → List (List Char)
  | [] => []
  | [l] => if l = [] then [] else [l]
  | l :: m :: ls => (l ++ ['\n']) :: brokenLines (m :: ls)

theorem fgetsAll_joinLines (hl : ∀ l ∈ ls, PlainLine l) :
    fgetsAll (joinLines ls) [] = brokenLines ls := by
  induction ls with
  | nil => rfl
  | cons l ls ih =>
    have hp := hl l List.mem_cons_self
    have hshort : ([] : List Char).length + l.length ≤ 1022 := by
      rw [List.length_nil, Nat.zero_add]
      exact hp.short
    cases ls with
    | nil => rw [joinLines, fgetsAll_end hp.newline hshort, List.nil_append, brokenLines]
    | cons m ls =>
      rw [joinLines, fgetsAll_break hp.newline hshort, List.nil_append,
        ih fun l hm => hl l (List.mem_cons_of_mem _ hm), brokenLines]

/-- Each line, with its line break or without it. -/
theorem mem_brokenLines (h : l ∈ brokenLines ls) :
    ∃ m ∈ ls, l = m ∨ l = m ++ ['\n'] := by
  induction ls with
  | nil => exact absurd h List.not_mem_nil
  | cons m ls ih =>
    cases ls with
    | nil =>
      rw [brokenLines] at h
      split_ifs at h
      · exact absurd h List.not_mem_nil
      · exact ⟨m, List.mem_cons_self, Or.inl (List.mem_singleton.mp h)⟩
    | cons k ls =>
      rcases List.mem_cons.mp h with rfl | h
      · exact ⟨m, List.mem_cons_self, Or.inr rfl⟩
      · obtain ⟨n, hn, he⟩ := ih h
        exact ⟨n, List.mem_cons_of_mem _ hn, he⟩

/-- **A loop over the lines of a file**, which looks at each line by itself, does not see where
the line breaks are. -/
theorem filterMap_fgetsAll {f : List Char → Option β} (hnil : f [] = none)
    (hbreak : ∀ l ∈ ls, f (l ++ ['\n']) = f l) (hl : ∀ l ∈ ls, PlainLine l) :
    (fgetsAll (joinLines ls) []).filterMap (fun line => f (cString line)) = ls.filterMap f := by
  rw [fgetsAll_joinLines hl]
  induction ls with
  | nil => rfl
  | cons l ls ih =>
    have hp := hl l List.mem_cons_self
    cases ls with
    | nil =>
      rw [brokenLines]
      split_ifs with hempty
      · rw [List.filterMap_nil, hempty, List.filterMap_cons_none hnil, List.filterMap_nil]
      · rw [List.filterMap_cons, List.filterMap_cons, List.filterMap_nil, List.filterMap_nil,
          cString_eq hp.nul]
    | cons m ls =>
      have ih := ih (fun l hm => hbreak l (List.mem_cons_of_mem _ hm))
        fun l hm => hl l (List.mem_cons_of_mem _ hm)
      rw [brokenLines, List.filterMap_cons, hp.cString_break, hbreak l List.mem_cons_self, ih,
        ← List.filterMap_cons]

/-! ### Numbers -/

/-- Spaces and tabs. -/
def Blank (g : List Char) : Prop := ∀ c ∈ g, c = ' ' ∨ c = '\t'

theorem Blank.space {g : List Char} (h : Blank g) : ∀ c ∈ g, isSpace c = true := by
  intro c hc
  rcases h c hc with rfl | rfl <;> rfl

theorem dropWhile_spaces {g : List Char} (h : ∀ c ∈ g, isSpace c = true) (s : List Char) :
    (g ++ s).dropWhile isSpace = s.dropWhile isSpace := by
  rw [List.dropWhile_append_of_pos h]

/-- What a digit does not continue. -/
def NoDigit (s : List Char) : Prop := ∀ c ∈ s.head?, c.isDigit = false

theorem takeWhile_digits {d s : List Char} (hd : ∀ c ∈ d, c.isDigit = true) (hs : NoDigit s) :
    (d ++ s).takeWhile Char.isDigit = d ∧ (d ++ s).dropWhile Char.isDigit = s := by
  rw [List.takeWhile_append_of_pos hd, List.dropWhile_append_of_pos hd]
  cases s with
  | nil => exact ⟨List.append_nil d, rfl⟩
  | cons c s =>
    have hc : ¬c.isDigit = true := by
      rw [hs c rfl]
      simp
    rw [List.takeWhile_cons_of_neg hc, List.dropWhile_cons_of_neg hc, List.append_nil]
    exact ⟨rfl, rfl⟩

/-- A number that is printed is split off what follows it. -/
theorem splitInt_append (n : ℤ) (hs : NoDigit rest) : splitInt (showInt n ++ rest) =
    (decide (n < 0), Nat.toDigits 10 n.natAbs, rest) := by
  have hdigits : ∀ c ∈ Nat.toDigits 10 n.natAbs, c.isDigit = true := fun c hc =>
    Nat.isDigit_of_mem_toDigits (by decide) (by decide) hc
  obtain ⟨htake, hdrop⟩ := takeWhile_digits hdigits hs
  have hne : Nat.toDigits 10 n.natAbs ≠ [] := Nat.toDigits_ne_nil
  by_cases hn : n < 0
  · rw [showInt, if_pos hn, splitInt, List.cons_append, List.dropWhile_cons_of_neg (by decide),
      decide_eq_true hn]
    exact congrArg₂ (fun a b => (true, a, b)) htake hdrop
  · rw [showInt, if_neg hn, decide_eq_false hn]
    generalize Nat.toDigits 10 n.natAbs = d at hdigits htake hdrop hne ⊢
    cases d with
    | nil => exact absurd rfl hne
    | cons c t =>
      obtain ⟨hspace, hminus, hplus⟩ := isDigit_ne (hdigits c List.mem_cons_self)
      rw [splitInt, List.cons_append, List.dropWhile_cons_of_neg (Bool.eq_false_iff.mp hspace)]
      split
      · rename_i heq
        exact absurd (List.cons.inj heq).1 hminus
      · rename_i heq
        exact absurd (List.cons.inj heq).1 hplus
      · rw [← List.cons_append, htake, hdrop]

/-- **`%d` reads what was printed**, after blanks. -/
theorem strtol_showInt {n : ℤ} (h : IsInt n) {g : List Char} (hg : ∀ c ∈ g, isSpace c = true)
    (hs : NoDigit rest) : strtol (g ++ showInt n ++ rest) = some (n, false, rest) := by
  have hclamp : clampLong n = n := by
    obtain ⟨hlo, hhi⟩ := h
    rw [clampLong]
    omega
  have hsplit : splitInt (g ++ showInt n ++ rest) = splitInt (showInt n ++ rest) := by
    rw [splitInt, splitInt, List.append_assoc, dropWhile_spaces hg]
  rw [strtol, hsplit, splitInt_append n hs]
  dsimp only
  rw [if_neg Nat.toDigits_ne_nil, signed_toDigits, hclamp, decide_eq_false (not_not_intro rfl)]

/-- Without a number, nothing is read. -/
theorem strtol_spaces {g : List Char} (hg : ∀ c ∈ g, isSpace c = true) : strtol g = none := by
  have hnil : g.dropWhile isSpace = [] := List.dropWhile_eq_nil_iff.mpr hg
  have hsplit : splitInt g = (false, [], []) := by
    rw [splitInt, hnil]
    rfl
  rw [strtol, hsplit]
  rfl

theorem truncInt_eq {n : ℤ} (h : IsInt n) : truncInt n = n := by
  obtain ⟨hlo, hhi⟩ := h
  rw [truncInt, Int.bmod_eq_of_le] <;> omega

theorem showInt_ne_nil (n : ℤ) : showInt n ≠ [] := by
  rw [showInt]
  split_ifs
  · exact List.cons_ne_nil _ _
  · exact Nat.toDigits_ne_nil

theorem length_showInt_le {n : ℤ} (h : IsInt n) : (showInt n).length ≤ 11 := by
  obtain ⟨hlo, hhi⟩ := h
  have hdigits : (Nat.toDigits 10 n.natAbs).length ≤ 10 :=
    (Nat.length_toDigits_le_iff (by decide) (by decide)).mpr (by omega)
  rw [showInt]
  split_ifs
  · rw [List.length_cons]
    omega
  · omega

/-- No digit and no sign is a space, a comment or a line break. -/
theorem showInt_chars {n : ℤ} {c : Char} (h : c ∈ showInt n) : c = '-' ∨ c.isDigit = true := by
  rw [showInt] at h
  split_ifs at h
  · rcases List.mem_cons.mp h with rfl | h
    · exact Or.inl rfl
    · exact Or.inr (Nat.isDigit_of_mem_toDigits (by decide) (by decide) h)
  · exact Or.inr (Nat.isDigit_of_mem_toDigits (by decide) (by decide) h)

/-- A line that begins with a number is no comment, and it is not empty. -/
theorem head_number {g : List Char} (hg : Blank g) (n : ℤ) {c : Char}
    (h : (g ++ showInt n ++ rest).head? = some c) : c ≠ '#' ∧ c ≠ '\n' := by
  have hne : g ++ showInt n ≠ [] := fun hnil =>
    showInt_ne_nil n (List.append_eq_nil_iff.mp hnil).2
  rw [List.head?_append_of_ne_nil _ hne] at h
  rcases List.mem_append.mp (List.mem_of_mem_head? h) with hc | hc
  · rcases hg c hc with rfl | rfl <;> decide
  · rcases showInt_chars hc with rfl | hd
    · decide
    · constructor
      · rintro rfl
        exact absurd hd (by decide)
      · rintro rfl
        exact absurd hd (by decide)

end CpuScheduler
