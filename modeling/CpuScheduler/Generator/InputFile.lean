import CpuScheduler.Generator.Dispatch
import CpuScheduler.Process.Lines

/-!
# The input file

The loop of `process_generator/process_generator.c` that reads the input file
(`CpuScheduler.Generator.readInput`): `fgets` into a buffer of 1024 characters, and `sscanf` with
six times `%d`. A line is skipped if it is empty, a comment, or does not begin with six numbers.
What such a file says is read (`CpuScheduler.Generator.readInput_file`), whatever blanks stand
between the columns.

`test_generator/test_generator.c` writes an input file with random processes
(`CpuScheduler.Generator.testFile`). It writes four columns, those without the two that the memory
needs, and so nothing is read of any file that it writes
(`CpuScheduler.Generator.readInput_testFile`).
-/

namespace CpuScheduler

namespace Generator

open World

/-- As many conversions `%d` of `sscanf`, up to the first that fails. -/
def scanInts : ℕ → List Char → List ℤ
  | 0, _ => []
  | n + 1, s =>
    match strtol s with
    | none => []
    | some (v, _, rest) => truncInt v :: scanInts n rest

/-- The process, if `sscanf` has returned 6. -/
def processOf : List ℤ → Option ProcessData
  | [id, arrival, runtime, priority, base, limit] =>
    some { mtype := 1, id, arrival, runtime, priority, base, limit }
  | _ => none

/-- The two tests on a line. -/
def scanLine (line : List Char) : Option ProcessData :=
  if line.head? = some '#' ∨ line.head? = some '\n' then none else processOf (scanInts 6 line)

/-- The loop over the lines. -/
def readFrom : List (List Char) → List ProcessData → List ProcessData
  | [], q => q
  | line :: lines, q =>
    match scanLine (cString line) with
    | none => readFrom lines q
    | some p => readFrom lines (if p.runtime > 0 then pgEnqueue q p else q)

/-- The queue after the input file has been read. -/
def readInput (content : List Char) : List ProcessData := readFrom (fgetsAll content []) []

/-- The loop in terms of the processes on the lines. -/
theorem readInput_eq (content : List Char) : readInput content =
    ((fgetsAll content []).filterMap fun line => scanLine (cString line)).filter
      fun p => p.runtime > 0 := by
  have hfrom : ∀ (lines : List (List Char)) (q : List ProcessData), readFrom lines q =
      q ++ (lines.filterMap fun line => scanLine (cString line)).filter fun p => p.runtime > 0 := by
    intro lines
    induction lines with
    | nil => exact fun q => (List.append_nil q).symm
    | cons line lines ih =>
      intro q
      rw [readFrom, List.filterMap_cons]
      cases scanLine (cString line) with
      | none => exact ih q
      | some p =>
        show readFrom lines (if p.runtime > 0 then pgEnqueue q p else q) = _
        rw [ih]
        by_cases hpos : p.runtime > 0
        · rw [if_pos hpos, List.filter_cons_of_pos (by simpa using hpos), pgEnqueue, Queue.enqueue,
            List.append_assoc]
          rfl
        · rw [if_neg hpos, List.filter_cons_of_neg (by simpa using hpos)]
  exact (hfrom _ []).trans (List.nil_append _)

/-! ### The format -/

/-- The columns of a line, each after its gap, and the gap at the end. -/
def columns (gap : ℕ → List Char) : ℕ → List ℤ → List Char
  | i, [] => gap i
  | i, v :: vs => gap i ++ showInt v ++ columns gap (i + 1) vs

/-- A line of an input file. -/
inductive InputLine
  | comment (text : List Char)
  | empty
  | row (values : List ℤ) (gap : ℕ → List Char)

namespace InputLine

/-- The characters of a line. -/
def text : InputLine → List Char
  | comment text => '#' :: text
  | empty => []
  | row values gap => columns gap 0 values

/-- The process on a line: the first six columns. -/
def process : InputLine → Option ProcessData
  | row values _ => processOf (values.take 6)
  | _ => none

/-- The columns are of type `int`, there are blanks between them, and the line fits in the buffer
of `fgets`. -/
def WellFormed : InputLine → Prop
  | comment text => PlainLine ('#' :: text)
  | empty => True
  | row values gap => (∀ v ∈ values, IsInt v) ∧ (∀ i, Blank (gap i)) ∧
    (∀ i, 0 < i → i < values.length → gap i ≠ []) ∧ (columns gap 0 values).length ≤ 1022

end InputLine

variable {gap : ℕ → List Char} {values : List ℤ} {l : InputLine} {ls : List InputLine}

theorem columns_chars (hgap : ∀ i, Blank (gap i)) {c : Char} :
    ∀ {vs : List ℤ} {k : ℕ}, c ∈ columns gap k vs → isSpace c = true ∧ c ≠ '\n' ∨ c = '-' ∨
      c.isDigit = true := by
  have hblank : ∀ {k : ℕ}, c ∈ gap k → isSpace c = true ∧ c ≠ '\n' := fun {k} hc =>
    ⟨(hgap k).space c hc, by rcases hgap k c hc with rfl | rfl <;> decide⟩
  intro vs
  induction vs with
  | nil => exact fun hc => Or.inl (hblank hc)
  | cons v vs ih =>
    intro k hc
    rcases List.mem_append.mp hc with hc | hc
    · rcases List.mem_append.mp hc with hc | hc
      · exact Or.inl (hblank hc)
      · exact Or.inr (showInt_chars hc)
    · exact ih hc

/-- The columns are a line. -/
theorem columns_plain (hgap : ∀ i, Blank (gap i)) (hlen : (columns gap 0 values).length ≤ 1022) :
    PlainLine (columns gap 0 values) := by
  refine ⟨fun hc => ?_, fun hc => ?_, hlen⟩
  · rcases columns_chars hgap hc with ⟨-, hne⟩ | hne | hd
    · exact hne rfl
    · exact absurd hne (by decide)
    · exact absurd hd (by decide)
  · rcases columns_chars hgap hc with ⟨hs, -⟩ | hne | hd
    · exact absurd hs (by decide)
    · exact absurd hne (by decide)
    · exact absurd hd (by decide)

/-- **`sscanf` reads the columns**, one after the other. -/
theorem scanInts_columns {tail : List Char} (hgap : ∀ i, Blank (gap i))
    (htail : ∀ c ∈ tail, isSpace c = true) : ∀ {vs : List ℤ} {k n : ℕ}, (∀ v ∈ vs, IsInt v) →
      (∀ i, k < i → i < k + vs.length → gap i ≠ []) →
      scanInts n (columns gap k vs ++ tail) = vs.take n := by
  have hspaces : ∀ k, ∀ c ∈ gap k ++ tail, isSpace c = true := fun k c hc =>
    (List.mem_append.mp hc).elim ((hgap k).space c) (htail c)
  have hnodigit : ∀ s : List Char, (∀ c ∈ s, isSpace c = true) → NoDigit s := by
    intro s hs c hc
    by_contra hd
    have hmem : c ∈ s := List.mem_of_mem_head? hc
    exact absurd ((hs c hmem).symm.trans (isDigit_ne (Bool.not_eq_false _ ▸ hd)).1) (by simp)
  intro vs
  induction vs with
  | nil =>
    intro k n _ _
    cases n with
    | zero => rfl
    | succ n =>
      rw [scanInts, columns, strtol_spaces (hspaces k)]
      rfl
  | cons v vs ih =>
    intro k n hint hsep
    cases n with
    | zero => rfl
    | succ n =>
      have hrest : NoDigit (columns gap (k + 1) vs ++ tail) := by
        cases vs with
        | nil => exact hnodigit _ (hspaces (k + 1))
        | cons u vs =>
          have hne : gap (k + 1) ≠ [] := hsep (k + 1) (by omega) (by
            simp only [List.length_cons]
            omega)
          intro c hc
          have hhead : c ∈ (gap (k + 1)).head? := by
            rw [columns, List.append_assoc, List.append_assoc,
              List.head?_append_of_ne_nil _ hne] at hc
            exact hc
          exact hnodigit _ ((hgap (k + 1)).space) c hhead
      have ih := ih (k := k + 1) (n := n) (fun u hu => hint u (List.mem_cons_of_mem _ hu))
        fun i hi hlt => hsep i (by omega) (by
          simp only [List.length_cons]
          omega)
      rw [scanInts, columns, List.append_assoc, strtol_showInt (hint v List.mem_cons_self)
        (hgap k).space hrest]
      show truncInt v :: scanInts n _ = _
      rw [truncInt_eq (hint v List.mem_cons_self), ih, List.take_succ_cons]

/-- What is read of a line, with its line break or without it. -/
theorem scanLine_text (h : l.WellFormed) (tail : List Char) (htail : ∀ c ∈ tail, c = '\n') :
    scanLine (l.text ++ tail) = l.process := by
  have hspace : ∀ c ∈ tail, isSpace c = true := fun c hc => htail c hc ▸ rfl
  cases l with
  | comment text => exact if_pos (Or.inl rfl)
  | empty =>
    rw [InputLine.text, List.nil_append, scanLine]
    split_ifs with hskip
    · rfl
    · rw [scanInts, strtol_spaces hspace]
      rfl
  | row values gap =>
    obtain ⟨hint, hgap, hsep, -⟩ := h
    have hscan : scanInts 6 (columns gap 0 values ++ tail) = values.take 6 :=
      scanInts_columns hgap hspace hint fun i hi hlt => hsep i hi (by omega)
    rw [InputLine.text, scanLine, hscan, InputLine.process]
    split_ifs with hskip
    · -- a row does not begin like a comment, and if it is empty there is no process on it
      cases values with
      | nil => rfl
      | cons v vs =>
        rw [columns, List.append_assoc] at hskip
        rcases hskip with hc | hc
        · exact absurd rfl (head_number (hgap 0) v hc).1
        · exact absurd rfl (head_number (hgap 0) v hc).2
    · rfl

theorem scanLine_line (h : l.WellFormed) : scanLine l.text = l.process := by
  have := scanLine_text h [] (List.forall_mem_nil _)
  rwa [List.append_nil] at this

theorem InputLine.WellFormed.plain (h : l.WellFormed) : PlainLine l.text := by
  cases l with
  | comment text => exact h
  | empty => exact ⟨List.not_mem_nil, List.not_mem_nil, Nat.zero_le _⟩
  | row values gap => exact columns_plain h.2.1 h.2.2.2

/-- Well-formed lines are read one by one. -/
theorem readInput_joinLines (h : ∀ l ∈ ls, l.WellFormed) :
    readInput (joinLines (ls.map InputLine.text)) =
      ((ls.map InputLine.text).filterMap scanLine).filter fun p => p.runtime > 0 := by
  have hbreak : ∀ s ∈ ls.map InputLine.text, scanLine (s ++ ['\n']) = scanLine s := by
    intro s hs
    obtain ⟨l, hl, rfl⟩ := List.mem_map.mp hs
    rw [scanLine_text (h l hl) _ fun c hc => List.mem_singleton.mp hc, scanLine_line (h l hl)]
  have hplain : ∀ s ∈ ls.map InputLine.text, PlainLine s := by
    intro s hs
    obtain ⟨l, hl, rfl⟩ := List.mem_map.mp hs
    exact (h l hl).plain
  rw [readInput_eq, filterMap_fgetsAll (f := scanLine) rfl hbreak hplain]

/-- **What an input file says is read**: the processes of the lines with six columns, or more, and
a positive runtime, in the order of the lines. -/
theorem readInput_file (h : ∀ l ∈ ls, l.WellFormed) :
    readInput (joinLines (ls.map InputLine.text)) =
      (ls.filterMap InputLine.process).filter fun p => p.runtime > 0 := by
  rw [readInput_joinLines h, List.filterMap_map]
  congr 1
  exact List.filterMap_congr fun l hl => scanLine_line (h l hl)

/-- The gaps of a line of `n` columns that is written with tabs. -/
def tabs (n : ℕ) (i : ℕ) : List Char := if i = 0 ∨ n ≤ i then [] else ['\t']

theorem length_columns_le (hgap : ∀ i, (gap i).length ≤ 1) : ∀ {vs : List ℤ} {k : ℕ},
    (∀ v ∈ vs, IsInt v) → (columns gap k vs).length ≤ 12 * vs.length + 1 := by
  intro vs
  induction vs with
  | nil => exact fun {k} _ => (hgap k).trans (Nat.le_add_left _ _)
  | cons v vs ih =>
    intro k hint
    have hv := length_showInt_le (hint v List.mem_cons_self)
    have hk := hgap k
    have := ih (k := k + 1) fun u hu => hint u (List.mem_cons_of_mem _ hu)
    rw [columns, List.length_append, List.length_append, List.length_cons]
    omega

/-- A line that is written with tabs. -/
theorem wellFormed_tabs (hint : ∀ v ∈ values, IsInt v) (hlen : values.length ≤ 85) :
    (InputLine.row values (tabs values.length)).WellFormed := by
  have hone : ∀ i, (tabs values.length i).length ≤ 1 := fun i => by
    rw [tabs]
    split_ifs
    · exact Nat.zero_le 1
    · exact le_rfl
  refine ⟨hint, fun i c hc => ?_, fun i hpos hlt => ?_, ?_⟩
  · rw [tabs] at hc
    split_ifs at hc
    · exact absurd hc List.not_mem_nil
    · exact Or.inr (List.mem_singleton.mp hc)
  · rw [tabs, if_neg (by omega)]
    exact List.cons_ne_nil _ _
  · have := length_columns_le hone hint (k := 0)
    omega

/-- A comment, a process, one that does not execute, and a line with four columns. -/
theorem readInput_file_columns :
    readInput "#id\n1\t2\t3\t4\t0\t8\n2\t2\t0\t4\t0\t8\n3\t2\t1\t4".toList =
      [{ mtype := 1, id := 1, arrival := 2, runtime := 3, priority := 4, base := 0,
         limit := 8 }] := by
  have hlines : ∀ l ∈ [InputLine.comment "id".toList, .row [1, 2, 3, 4, 0, 8] (tabs 6),
      .row [2, 2, 0, 4, 0, 8] (tabs 6), .row [3, 2, 1, 4] (tabs 4)], l.WellFormed := by
    refine List.forall_mem_cons.mpr ⟨⟨by decide, by decide, by decide⟩, ?_⟩
    refine List.forall_mem_cons.mpr ⟨wellFormed_tabs (by decide) (by decide), ?_⟩
    refine List.forall_mem_cons.mpr ⟨wellFormed_tabs (by decide) (by decide), ?_⟩
    exact List.forall_mem_singleton.mpr (wellFormed_tabs (by decide) (by decide))
  exact readInput_file hlines

/-! ### The file of the test generator -/

/-- The line that `test_generator` writes for a process. -/
def testRow (id arrivaltime runningtime priority : ℤ) : List Char :=
  showInt id ++ '\t' :: showInt arrivaltime ++ '\t' :: showInt runningtime ++
    '\t' :: showInt priority ++ ['\n']

/-- The loop of `test_generator`; for each process, the three values that `rand` returns. -/
def testRows : ℤ → ℤ → List (ℕ × ℕ × ℕ) → List Char
  | _, _, [] => []
  | i, arrivaltime, (r₁, r₂, r₃) :: rands =>
    let arrivaltime := arrivaltime + (r₁ % 11 : ℕ)
    testRow i arrivaltime (r₂ % 30 : ℕ) (r₃ % 11 : ℕ) ++ testRows (i + 1) arrivaltime rands

/-- The input file that `test_generator` writes. -/
def testFile (rands : List (ℕ × ℕ × ℕ)) : List Char :=
  "#id arrival runtime priority\n".toList ++ testRows 1 1 rands

/-- Its first line. -/
def testHeader : InputLine := .comment "id arrival runtime priority".toList

theorem testHeader_text : "#id arrival runtime priority\n".toList = testHeader.text ++ ['\n'] := by
  decide

theorem testHeader_wellFormed : testHeader.WellFormed := ⟨by decide, by decide, by decide⟩

/-- The lines after it. -/
def testLines : ℤ → ℤ → List (ℕ × ℕ × ℕ) → List InputLine
  | _, _, [] => [.empty]
  | i, arrivaltime, (r₁, r₂, r₃) :: rands =>
    let arrivaltime := arrivaltime + (r₁ % 11 : ℕ)
    .row [i, arrivaltime, (r₂ % 30 : ℕ), (r₃ % 11 : ℕ)] (tabs 4) ::
      testLines (i + 1) arrivaltime rands

theorem testLines_ne_nil (i a : ℤ) (rands : List (ℕ × ℕ × ℕ)) : testLines i a rands ≠ [] := by
  cases rands <;> exact List.cons_ne_nil _ _

theorem testRows_eq (rands : List (ℕ × ℕ × ℕ)) : ∀ i a : ℤ,
    testRows i a rands = joinLines ((testLines i a rands).map InputLine.text) := by
  induction rands with
  | nil => exact fun _ _ => rfl
  | cons r rands ih =>
    intro i a
    rw [testRows, testLines, List.map_cons, joinLines_cons
      (mt List.map_eq_nil_iff.mp (testLines_ne_nil _ _ _)), ih]
    simp only [testRow, InputLine.text, columns, tabs, List.append_assoc, List.cons_append,
      List.nil_append]
    rfl

theorem testLines_wellFormed (rands : List (ℕ × ℕ × ℕ)) : ∀ i a : ℤ, 0 ≤ i → 0 ≤ a →
    i + rands.length ≤ 2 ^ 31 → a + 10 * rands.length < 2 ^ 31 →
    ∀ l ∈ testLines i a rands, l.WellFormed ∧ l.process = none := by
  induction rands with
  | nil => exact fun _ _ _ _ _ _ => List.forall_mem_singleton.mpr ⟨trivial, rfl⟩
  | cons r rands ih =>
    intro i a hi ha hids harr
    rw [List.length_cons] at hids harr
    push_cast at hids harr
    have hr₁ : r.1 % 11 < 11 := Nat.mod_lt _ (by decide)
    have hr₂ : r.2.1 % 30 < 30 := Nat.mod_lt _ (by decide)
    have hr₃ : r.2.2 % 11 < 11 := Nat.mod_lt _ (by decide)
    rw [testLines]
    refine List.forall_mem_cons.mpr ⟨⟨wellFormed_tabs ?_ (by simp), rfl⟩,
      ih _ _ (by omega) (by omega) (by omega) (by omega)⟩
    simp only [List.forall_mem_cons, IsInt]
    refine ⟨?_, ?_, ?_, ?_, List.forall_mem_nil _⟩ <;> omega

/-- **Nothing is read of a file that `test_generator` writes**: its lines have four columns. So
the scheduler that is started receives the last message and nothing else. The arrival times fit
in an `int`. -/
theorem readInput_testFile {rands : List (ℕ × ℕ × ℕ)} (h : 1 + 10 * rands.length < 2 ^ 31) :
    readInput (testFile rands) = [] ∧
      ∀ ts, run (-1) (readInput (testFile rands)) ts = [(-1, lastMsg)] := by
  have hlines : ∀ l ∈ testHeader :: testLines 1 1 rands, l.WellFormed ∧ l.process = none :=
    List.forall_mem_cons.mpr ⟨⟨testHeader_wellFormed, rfl⟩,
      testLines_wellFormed rands 1 1 (by decide) (by decide) (by omega) (by omega)⟩
  have hfile : testFile rands =
      joinLines ((testHeader :: testLines 1 1 rands).map InputLine.text) := by
    rw [List.map_cons, joinLines_cons (mt List.map_eq_nil_iff.mp (testLines_ne_nil _ _ _)),
      ← testRows_eq]
    exact (congrArg (· ++ testRows 1 1 rands) testHeader_text).trans (by
      rw [List.append_assoc, List.singleton_append])
  have hnil : readInput (testFile rands) = [] := by
    have hnone : ∀ s ∈ (testHeader :: testLines 1 1 rands).map InputLine.text,
        scanLine s = none := by
      intro s hs
      obtain ⟨l, hl, rfl⟩ := List.mem_map.mp hs
      rw [scanLine_line (hlines l hl).1, (hlines l hl).2]
    rw [hfile, readInput_joinLines fun l hl => (hlines l hl).1,
      List.filterMap_eq_nil_iff.mpr hnone, List.filter_nil]
  refine ⟨hnil, fun ts => ?_⟩
  rw [hnil, run]

theorem readInput_testFile_two :
    readInput (testFile [(3, 31, 8), (12, 4, 11)]) = [] ∧
      ∀ ts, run (-1) (readInput (testFile [(3, 31, 8), (12, 4, 11)])) ts = [(-1, lastMsg)] :=
  readInput_testFile (by decide)

end Generator

end CpuScheduler
