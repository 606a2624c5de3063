import CpuScheduler.Process.Lines

/-!
# The format of a request file

What a request file says is what a child reads of it (`CpuScheduler.readRequests_file`): the first
100 requests, with any blanks between the three columns, and whatever stands behind the
operation.
-/

namespace CpuScheduler

open Fallible

/-- A line of a request file. -/
inductive RequestLine
  | comment (text : List Char)
  | empty
  /-- The three columns, with the gap in front of each, and the rest of the line. -/
  | entry (tick : ℤ) (address : List Char) (operation : Char) (gap₁ gap₂ gap₃ rest : List Char)

namespace RequestLine

/-- The characters of a line. -/
def text : RequestLine → List Char
  | comment text => '#' :: text
  | empty => []
  | entry tick address operation gap₁ gap₂ gap₃ rest =>
    gap₁ ++ showInt tick ++ (gap₂ ++ (address ++ (gap₃ ++ operation :: rest)))

/-- The request on a line. -/
def request : RequestLine → Option Request
  | entry tick address operation _ _ _ _ => some { mtype := 1, tick, address, operation }
  | _ => none

/-- The tick is of type `int`, the address fits in its buffer, there are blanks between the
columns, and the line fits in the buffer of `fgets`. -/
inductive WellFormed : RequestLine → Prop
  | comment {text : List Char} (h : PlainLine ('#' :: text)) : WellFormed (comment text)
  | empty : WellFormed empty
  | entry {tick : ℤ} {address : List Char} {operation : Char} {gap₁ gap₂ gap₃ rest : List Char}
      (htick : IsInt tick) (hshort : address.length < 10) (hne : address ≠ [])
      (haddr : ∀ c ∈ address, isSpace c = false) (hop : isSpace operation = false)
      (hgap₁ : Blank gap₁) (hgap₂ : Blank gap₂) (hgap₃ : Blank gap₃)
      (hsep₂ : gap₂ ≠ []) (hsep₃ : gap₃ ≠ [])
      (hline : PlainLine (entry tick address operation gap₁ gap₂ gap₃ rest).text) :
      WellFormed (entry tick address operation gap₁ gap₂ gap₃ rest)

end RequestLine

variable {l : RequestLine} {ls : List RequestLine}

theorem RequestLine.WellFormed.plain (h : l.WellFormed) : PlainLine l.text := by
  cases h with
  | comment h => exact h
  | empty => exact ⟨List.not_mem_nil, List.not_mem_nil, Nat.zero_le _⟩
  | entry _ _ _ _ _ _ _ _ _ _ hline => exact hline

/-- What stands in front of something that is not a space. -/
theorem dropWhile_blank {g s : List Char} {c : Char} (hg : Blank g) (hc : isSpace c = false) :
    (g ++ c :: s).dropWhile isSpace = c :: s := by
  rw [dropWhile_spaces hg.space, List.dropWhile_cons_of_neg (by rw [hc]; simp)]

/-- `sscanf` on the three columns. -/
theorem scanRequest_entry {tick : ℤ} {address : List Char} {operation : Char}
    {gap₁ gap₂ gap₃ rest : List Char} (htick : IsInt tick) (hshort : address.length < 10)
    (hne : address ≠ []) (haddr : ∀ c ∈ address, isSpace c = false)
    (hop : isSpace operation = false) (hgap₁ : Blank gap₁) (hgap₂ : Blank gap₂)
    (hgap₃ : Blank gap₃) (hsep₂ : gap₂ ≠ []) (hsep₃ : gap₃ ≠ []) :
    scanRequest (gap₁ ++ showInt tick ++ (gap₂ ++ (address ++ (gap₃ ++ operation :: rest)))) =
      .ok (some { mtype := 1, tick, address, operation }) := by
  obtain ⟨g, gap₂', rfl⟩ := List.exists_cons_of_ne_nil hsep₂
  obtain ⟨k, gap₃', rfl⟩ := List.exists_cons_of_ne_nil hsep₃
  have hg : isSpace g = true := hgap₂.space g List.mem_cons_self
  have hk : isSpace k = true := hgap₃.space k List.mem_cons_self
  have hnodigit : NoDigit (g :: gap₂' ++ (address ++ (k :: gap₃' ++ operation :: rest))) := by
    intro c hc
    obtain rfl : g = c := Option.some.inj hc
    by_contra hd
    exact absurd (hg.symm.trans (isDigit_ne (Bool.not_eq_false _ ▸ hd)).1) (by simp)
  have htake : (address ++ (k :: gap₃' ++ operation :: rest)).takeWhile (fun c => !isSpace c) =
      address := by
    rw [List.takeWhile_append_of_pos fun c hc => by rw [haddr c hc]; rfl, List.cons_append,
      List.takeWhile_cons_of_neg (by rw [hk]; simp), List.append_nil]
  have hdrop : (address ++ (k :: gap₃' ++ operation :: rest)).dropWhile (fun c => !isSpace c) =
      k :: gap₃' ++ operation :: rest := by
    rw [List.dropWhile_append_of_pos fun c hc => by rw [haddr c hc]; rfl, List.cons_append,
      List.dropWhile_cons_of_neg (by rw [hk]; simp)]
  have hskip : (g :: gap₂' ++ (address ++ (k :: gap₃' ++ operation :: rest))).dropWhile isSpace =
      address ++ (k :: gap₃' ++ operation :: rest) := by
    cases address with
    | nil => exact absurd rfl hne
    | cons a address => exact dropWhile_blank hgap₂ (haddr a List.mem_cons_self)
  rw [scanRequest, strtol_showInt htick hgap₁.space hnodigit]
  dsimp only
  rw [hskip, htake, hdrop, if_neg hne, if_neg (by omega), dropWhile_blank hgap₃ hop,
    truncInt_eq htick]

/-- The tests on a line, and `sscanf`. -/
def scanned (line : List Char) : Except Fault (Option Request) :=
  if line.head? = some '#' ∨ line.head? = some '\n' then .ok none else scanRequest line

/-- What is read of a line, with its line break or without it. -/
theorem scanned_text (h : l.WellFormed) (tail : List Char) (htail : ∀ c ∈ tail, c = '\n') :
    scanned (l.text ++ tail) = .ok l.request := by
  cases h with
  | comment h => exact if_pos (Or.inl rfl)
  | empty =>
    rw [RequestLine.text, List.nil_append, scanned]
    split_ifs
    · rfl
    · rw [scanRequest, strtol_spaces fun c hc => htail c hc ▸ rfl]
      rfl
  | @entry tick address operation gap₁ gap₂ gap₃ rest htick hshort hne haddr hop hgap₁ hgap₂ hgap₃
      hsep₂ hsep₃ hline =>
    have hscan : scanRequest (gap₁ ++ showInt tick ++
        (gap₂ ++ (address ++ (gap₃ ++ operation :: (rest ++ tail))))) =
          .ok (some { mtype := 1, tick, address, operation }) :=
      scanRequest_entry htick hshort hne haddr hop hgap₁ hgap₂ hgap₃ hsep₂ hsep₃
    have htext : (RequestLine.entry tick address operation gap₁ gap₂ gap₃ rest).text ++ tail =
        gap₁ ++ showInt tick ++ (gap₂ ++ (address ++ (gap₃ ++ operation :: (rest ++ tail)))) := by
      simp only [RequestLine.text, List.append_assoc, List.cons_append]
    have hskip : ¬((gap₁ ++ showInt tick ++
        (gap₂ ++ (address ++ (gap₃ ++ operation :: (rest ++ tail))))).head? = some '#' ∨
        (gap₁ ++ showInt tick ++
          (gap₂ ++ (address ++ (gap₃ ++ operation :: (rest ++ tail))))).head? = some '\n') := by
      rintro (hc | hc)
      · exact (head_number hgap₁ tick hc).1 rfl
      · exact (head_number hgap₁ tick hc).2 rfl
    rw [htext, scanned, if_neg hskip, hscan, RequestLine.request]

/-- The request that is read of a line, if nothing goes wrong. -/
def requestIn (line : List Char) : Option Request := (scanned line).toOption.join

/-- The loop over lines on which nothing goes wrong. -/
theorem readLines_eq {lines : List (List Char)}
    (h : ∀ line ∈ lines, ∃ r, scanned (cString line) = .ok r) : ∀ reqs : List Request,
      readLines lines reqs = .ok (reqs ++
        (lines.filterMap fun line => requestIn (cString line)).take (100 - reqs.length)) := by
  induction lines with
  | nil =>
    intro reqs
    rw [readLines, List.filterMap_nil, List.take_nil, List.append_nil]
  | cons line lines ih =>
    intro reqs
    have ih := ih fun l hl => h l (List.mem_cons_of_mem _ hl)
    obtain ⟨r, hr⟩ := h line List.mem_cons_self
    have hin : requestIn (cString line) = r := by
      rw [requestIn, hr]
      rfl
    rw [readLines, List.filterMap_cons, hin]
    rw [scanned] at hr
    split_ifs at hr ⊢ with hskip hfull
    · obtain rfl := Except.ok.inj hr
      exact ih reqs
    · rw [Nat.sub_eq_zero_of_le hfull, List.take_zero, List.append_nil]
    · rw [hr, ok_bind]
      cases r with
      | none => exact ih reqs
      | some req =>
        have hlen : 100 - reqs.length = (100 - (reqs.length + 1)) + 1 := by omega
        show readLines lines (reqs ++ [req]) = _
        rw [ih, List.length_append, List.length_singleton, hlen, List.take_succ_cons,
          List.append_assoc, List.singleton_append]

/-- **What a request file says is what is read of it**: the first 100 requests, in order. -/
theorem readRequests_file (h : ∀ l ∈ ls, l.WellFormed) :
    readRequests (joinLines (ls.map RequestLine.text)) =
      .ok ((ls.filterMap RequestLine.request).take 100) := by
  have hline : ∀ l ∈ ls, requestIn l.text = l.request := fun l hl => by
    have := scanned_text (h l hl) [] (List.forall_mem_nil _)
    rw [List.append_nil] at this
    rw [requestIn, this]
    rfl
  have hbreak : ∀ s ∈ ls.map RequestLine.text, requestIn (s ++ ['\n']) = requestIn s := by
    intro s hs
    obtain ⟨l, hl, rfl⟩ := List.mem_map.mp hs
    rw [hline l hl, requestIn, scanned_text (h l hl) _ fun c hc => List.mem_singleton.mp hc]
    rfl
  have hplain : ∀ s ∈ ls.map RequestLine.text, PlainLine s := by
    intro s hs
    obtain ⟨l, hl, rfl⟩ := List.mem_map.mp hs
    exact (h l hl).plain
  have hok : ∀ line ∈ fgetsAll (joinLines (ls.map RequestLine.text)) [],
      ∃ r, scanned (cString line) = .ok r := by
    intro line hline
    rw [fgetsAll_joinLines hplain] at hline
    obtain ⟨s, hs, hline⟩ := mem_brokenLines hline
    obtain ⟨l, hl, rfl⟩ := List.mem_map.mp hs
    rcases hline with rfl | rfl
    · rw [cString_eq (h l hl).plain.nul, ← List.append_nil l.text]
      exact ⟨_, scanned_text (h l hl) [] (List.forall_mem_nil _)⟩
    · rw [(h l hl).plain.cString_break]
      exact ⟨_, scanned_text (h l hl) _ fun c hc => List.mem_singleton.mp hc⟩
  rw [readRequests, readLines_eq hok, filterMap_fgetsAll (f := requestIn) rfl hbreak hplain,
    List.filterMap_map, List.nil_append, List.length_nil, Nat.sub_zero,
    List.filterMap_congr (f := requestIn ∘ RequestLine.text) hline]

/-- A comment, two requests with an empty line between them, and something behind the last. -/
def twoRequests : List RequestLine :=
  [.comment ['t', 'i', 'c', 'k'], .entry 1 ['7'] 'r' [] ['\t'] [' '] [], .empty,
    .entry 2 ['8'] 'w' [] [' '] ['\t'] [' ', '#']]

theorem readRequests_file_two :
    readRequests (joinLines (twoRequests.map RequestLine.text)) =
      .ok [⟨1, 1, ['7'], 'r'⟩, ⟨1, 2, ['8'], 'w'⟩] := by
  have hnone : Blank [] := List.forall_mem_nil _
  have hspace : Blank [' '] := List.forall_mem_singleton.mpr (Or.inl rfl)
  have htab : Blank ['\t'] := List.forall_mem_singleton.mpr (Or.inr rfl)
  have hwf : ∀ l ∈ twoRequests, l.WellFormed := by
    refine List.forall_mem_cons.mpr ⟨.comment ⟨by decide, by decide, by decide⟩, ?_⟩
    refine List.forall_mem_cons.mpr ⟨?_, List.forall_mem_cons.mpr
      ⟨.empty, List.forall_mem_singleton.mpr ?_⟩⟩
    · exact .entry (by decide) (by decide) (by decide) (List.forall_mem_singleton.mpr rfl)
        (by decide) hnone htab hspace (by decide) (by decide) ⟨by decide, by decide, by decide⟩
    · exact .entry (by decide) (by decide) (by decide) (List.forall_mem_singleton.mpr rfl)
        (by decide) hnone hspace htab (by decide) (by decide) ⟨by decide, by decide, by decide⟩
  exact readRequests_file hwf

end CpuScheduler
