import CpuScheduler.Process.Text
import CpuScheduler.Lib.Fallible

/-!
# Request files

The part of `process/RR_process.c` that opens the request file of a process and reads it:
`fopen` on two paths, `fgets` into a buffer of 1024 characters, and `sscanf` with
`"%d %s %c"`. A line is skipped if it is empty or a comment, and if it is malformed, and
after 100 requests the rest of the file is ignored.

The address of a request is a `char[10]`, and `%s` writes as many characters as it finds:
a longer address is a `CpuScheduler.Fault`.
-/

namespace CpuScheduler

/-- The contents of the files, by path. -/
abbrev InputDir := List Char → Option (List Char)

/-- The first path that is tried. -/
def requestPath (id : ℤ) : List Char :=
  "../input/requests_".toList ++ showInt id ++ ".txt".toList

/-- The second. -/
def requestPathNested (id : ℤ) : List Char :=
  "../input/requests/requests_".toList ++ showInt id ++ ".txt".toList

/-- The two calls of `fopen`. -/
def openRequests (dir : InputDir) (id : ℤ) : Option (List Char) :=
  (dir (requestPath id)).or (dir (requestPathNested id))

/-- What the calls of `fgets` return one after the other: a line, or 1023 characters of it.
The second argument is what has been read of a line. -/
def fgetsAll : List Char → List Char → List (List Char)
  | [], line => if line = [] then [] else [line]
  | c :: s, line =>
    if c = '\n' ∨ line.length + 1 = 1023 then (line ++ [c]) :: fgetsAll s []
    else fgetsAll s (line ++ [c])

/-- The string in a buffer, which ends at the first `NUL`. -/
def cString (line : List Char) : List Char := line.takeWhile (· ≠ Char.ofNat 0)

/-- A `long` that is stored in an `int`. -/
def truncInt (v : ℤ) : ℤ := Int.bmod v (2 ^ 32)

/-- `sscanf` with `"%d %s %c"`: the request, if all three could be read. -/
def scanRequest (s : List Char) : Except Fault (Option Request) :=
  match strtol s with
  | none => .ok none
  | some (tick, _, rest) =>
    let rest := rest.dropWhile isSpace
    let address := rest.takeWhile fun c => !isSpace c
    if address = [] then .ok none
    else if address.length ≥ 10 then .error .outOfBounds
    else
      match (rest.dropWhile fun c => !isSpace c).dropWhile isSpace with
      | [] => .ok none
      | operation :: _ =>
        .ok (some { mtype := 1, tick := truncInt tick, address := address, operation := operation })

/-- The loop over the lines, with the requests read so far. -/
def readLines : List (List Char) → List Request → Except Fault (List Request)
  | [], reqs => .ok reqs
  | line :: lines, reqs => do
    let line := cString line
    if line.head? = some '#' ∨ line.head? = some '\n' then readLines lines reqs
    else if reqs.length ≥ 100 then .ok reqs
    else
      match ← scanRequest line with
      | none => readLines lines reqs
      | some req => readLines lines (reqs ++ [req])

/-- The requests in a file. -/
def readRequests (content : List Char) : Except Fault (List Request) :=
  readLines (fgetsAll content []) []

open Fallible in
/-- **A child has at most 100 requests.** -/
theorem readRequests_length {content : List Char} {reqs : List Request}
    (h : readRequests content = .ok reqs) : reqs.length ≤ 100 := by
  have hlines : ∀ {lines acc}, acc.length ≤ 100 → readLines lines acc = .ok reqs →
      reqs.length ≤ 100 := by
    intro lines
    induction lines with
    | nil =>
      intro acc hacc he
      exact Except.ok.inj he ▸ hacc
    | cons line lines ih =>
      intro acc hacc he
      rw [readLines] at he
      split_ifs at he with hskip hfull
      · exact ih hacc he
      · exact Except.ok.inj he ▸ hacc
      · obtain ⟨r, -, he⟩ := bind_eq_ok.mp he
        cases r with
        | none => exact ih hacc he
        | some req =>
          refine ih ?_ he
          rw [List.length_append, List.length_singleton]
          omega
  exact hlines (Nat.zero_le _) h

example : readRequests "# tick address op\n0 0x10 r\n\nx\n2 33 w\n".toList = .ok
    [⟨1, 0, "0x10".toList, 'r'⟩, ⟨1, 2, "33".toList, 'w'⟩] := by decide +kernel

end CpuScheduler
