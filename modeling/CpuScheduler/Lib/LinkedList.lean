import Mathlib.Data.List.Nodup
import Mathlib.Logic.Function.Basic

/-!
# Linked lists in a heap

Nodes with a value and a `next` pointer, in a heap that maps the addresses in use to their
nodes. Nothing here depends on what the values are or on how the list is used.

* `CpuScheduler.Linked.Path` – the cells that are met from one pointer to another;
* `CpuScheduler.Linked.Path.unique`, `CpuScheduler.Linked.Path.nodup` – a path that ends in
  the null pointer is the only one, and it does not meet an address twice;
* `CpuScheduler.Linked.Path.reaches_iff` – its addresses are the reachable ones;
* `CpuScheduler.Linked.Path.replace` – **the frame rule**: a stretch of a path may be
  replaced where the rest of the heap stays as it is. Putting a cell in
  (`CpuScheduler.Linked.Path.insertAfter`) and taking one out
  (`CpuScheduler.Linked.Path.removeAfter`) are instances of it;
* `CpuScheduler.Linked.Chain` – a list that ends, in a heap that is otherwise as it was; it
  is kept by a cell that goes in or comes out, at the front or behind another one.
-/

namespace CpuScheduler

namespace Linked

universe u v

/-- A node: a value and the pointer to the next node. -/
structure Node (A : Type u) (α : Type v) where
  val : α
  next : Option A
deriving DecidableEq, Repr

/-- The nodes in use, by address. -/
abbrev Heap (A : Type u) (α : Type v) := A → Option (Node A α)

variable {A : Type u} {α : Type v} {h h' : Heap A α} {p r : Option A}
  {l l₁ l₂ : List (A × α)} {c d : A × α} {a : A}

/-- From `p`, following `next` meets these cells and then `r`. -/
def Path (h : Heap A α) : Option A → List (A × α) → Option A → Prop
  | p, [], r => p = r
  | p, c :: l, r => ∃ next, p = some c.1 ∧ h c.1 = some ⟨c.2, next⟩ ∧ Path h next l r

/-- From `p`, following `next` comes to `a`. -/
inductive Reaches (h : Heap A α) : Option A → A → Prop
  | here {a : A} : Reaches h (some a) a
  | next {a b : A} {n : Node A α} (hn : h a = some n) (hb : Reaches h n.next b) :
      Reaches h (some a) b

/-! ### Paths -/

@[simp] theorem path_nil : Path h p [] r ↔ p = r := Iff.rfl

/-- A path is one stretch after another. -/
theorem path_append : Path h p (l₁ ++ l₂) r ↔ ∃ s, Path h p l₁ s ∧ Path h s l₂ r := by
  induction l₁ generalizing p with
  | nil =>
    constructor
    · intro hl
      exact ⟨p, rfl, hl⟩
    · rintro ⟨s, rfl, hl⟩
      exact hl
  | cons c l₁ ih =>
    constructor
    · rintro ⟨next, hp, hc, hl⟩
      obtain ⟨s, h₁, h₂⟩ := ih.mp hl
      exact ⟨s, ⟨next, hp, hc, h₁⟩, h₂⟩
    · rintro ⟨s, ⟨next, hp, hc, h₁⟩, h₂⟩
      exact ⟨next, hp, hc, ih.mpr ⟨s, h₁, h₂⟩⟩

theorem path_singleton : Path h p [c] r ↔ p = some c.1 ∧ h c.1 = some ⟨c.2, r⟩ := by
  constructor
  · rintro ⟨next, hp, hc, rfl⟩
    exact ⟨hp, hc⟩
  · rintro ⟨hp, hc⟩
    exact ⟨r, hp, hc, rfl⟩

/-- A path depends on its own cells only. -/
theorem Path.congr (hl : Path h p l r) (hh : ∀ c ∈ l, h' c.1 = h c.1) : Path h' p l r := by
  induction l generalizing p with
  | nil => exact hl
  | cons c l ih =>
    obtain ⟨next, hp, hc, hl⟩ := hl
    refine ⟨next, hp, ?_, ih hl fun d hd => hh d (List.mem_cons_of_mem _ hd)⟩
    rw [hh c List.mem_cons_self, hc]

/-- The cells of a path are in use. -/
theorem Path.allocated (hl : Path h p l r) (hc : c ∈ l) :
    ∃ next, h c.1 = some ⟨c.2, next⟩ := by
  obtain ⟨l₁, l₂, rfl⟩ := List.append_of_mem hc
  obtain ⟨s, -, next, -, hc, -⟩ := path_append.mp hl
  exact ⟨next, hc⟩

/-- **There is one way to the end.** -/
theorem Path.unique (h₁ : Path h p l₁ none) (h₂ : Path h p l₂ none) : l₁ = l₂ := by
  induction l₁ generalizing p l₂ with
  | nil =>
    obtain rfl : p = none := h₁
    cases l₂ with
    | nil => rfl
    | cons d l₂ =>
      obtain ⟨next, hp, -⟩ := h₂
      exact nomatch hp
  | cons c l₁ ih =>
    obtain ⟨next, rfl, hc, h₁⟩ := h₁
    cases l₂ with
    | nil => exact nomatch (show some c.1 = none from h₂)
    | cons d l₂ =>
      obtain ⟨next', hp, hd, h₂⟩ := h₂
      have hcd : c.1 = d.1 := Option.some.inj hp
      rw [← hcd, hc] at hd
      obtain ⟨hv, rfl⟩ := Node.mk.inj (Option.some.inj hd)
      rw [ih h₁ h₂, Prod.ext hcd hv]

/-- **A path that ends does not come back to an address.** -/
theorem Path.nodup (hl : Path h p l none) : (l.map Prod.fst).Nodup := by
  induction l generalizing p with
  | nil => exact List.nodup_nil
  | cons c l ih =>
    have hl' := hl
    obtain ⟨next, rfl, hc, hl⟩ := hl
    refine List.nodup_cons.mpr ⟨fun hmem => ?_, ih hl⟩
    -- from the second visit the path would go on as it did from the first
    obtain ⟨d, hd, hdc⟩ := List.mem_map.mp hmem
    obtain ⟨l₁, l₂, rfl⟩ := List.append_of_mem hd
    obtain ⟨s, -, hs⟩ := path_append.mp hl
    obtain ⟨next', rfl, hd', hs'⟩ := id hs
    rw [hdc] at hs
    have hlen := congrArg List.length (hl'.unique hs)
    simp only [List.length_cons, List.length_append] at hlen
    omega

/-- **What is reachable is on the path.** -/
theorem Path.reaches_iff (hl : Path h p l none) : Reaches h p a ↔ a ∈ l.map Prod.fst := by
  induction l generalizing p with
  | nil =>
    obtain rfl : p = none := hl
    constructor
    · intro ha
      exact nomatch ha
    · intro ha
      exact nomatch ha
  | cons c l ih =>
    obtain ⟨next, rfl, hc, hl⟩ := hl
    rw [List.map_cons, List.mem_cons, ← ih hl]
    constructor
    · intro ha
      cases ha with
      | here => exact Or.inl rfl
      | next hn hb =>
        rw [hc] at hn
        cases hn
        exact Or.inr hb
    · rintro (rfl | ha)
      · exact .here
      · exact .next hc ha

/-! ### Updates -/

/-- **The frame rule.** A stretch of a path may be replaced, where the cells before and
behind it stay as they are. -/
theorem Path.replace (m₁ m₂ : List (A × α)) (hl : Path h p (l₁ ++ (m₁ ++ l₂)) r)
    (hh : ∀ c ∈ l₁ ++ l₂, h' c.1 = h c.1)
    (hm : ∀ s t, Path h s m₁ t → Path h' s m₂ t) : Path h' p (l₁ ++ (m₂ ++ l₂)) r := by
  obtain ⟨s, hs, hl⟩ := path_append.mp hl
  obtain ⟨t, ht, hl⟩ := path_append.mp hl
  refine path_append.mpr ⟨s, hs.congr fun c hc => hh c (List.mem_append_left _ hc), ?_⟩
  exact path_append.mpr ⟨t, hm s t ht, hl.congr fun c hc => hh c (List.mem_append_right _ hc)⟩

/-- The cells before and behind a cell are at other addresses. -/
theorem Path.ne_of_mem (hl : Path h p (l₁ ++ c :: l₂) none) (hd : d ∈ l₁ ++ l₂) :
    d.1 ≠ c.1 := by
  have hnd := hl.nodup
  rw [List.map_append, List.map_cons] at hnd
  have hc := (List.nodup_middle.mp hnd).notMem
  intro he
  rw [← List.map_append, ← he] at hc
  exact hc (List.mem_map_of_mem hd)

/-- A path that has cells in front of a cell does not start there. -/
theorem Path.start_ne (hl : Path h p (l₁ ++ c :: l₂) none) (hne : l₁ ≠ []) :
    p ≠ some c.1 := by
  cases l₁ with
  | nil => exact absurd rfl hne
  | cons d l₁ =>
    have hd : d.1 ≠ c.1 := hl.ne_of_mem (List.mem_append_left _ List.mem_cons_self)
    obtain ⟨next, rfl, -⟩ := hl
    exact fun he => hd (Option.some.inj he)

variable [DecidableEq A] {x : α}

/-- A cell that is not in use goes in behind another one. -/
theorem Path.insertAfter (hl : Path h p (l₁ ++ c :: l₂) none) (ha : h a = none) :
    ∃ next, h c.1 = some ⟨c.2, next⟩ ∧
      Path (Function.update (Function.update h a (some ⟨x, next⟩)) c.1 (some ⟨c.2, some a⟩)) p
        (l₁ ++ c :: (a, x) :: l₂) none := by
  obtain ⟨next, hc⟩ := hl.allocated (List.mem_append_right l₁ List.mem_cons_self)
  have hac : a ≠ c.1 := by
    rintro rfl
    rw [ha] at hc
    exact nomatch hc
  refine ⟨next, hc, Path.replace [c] [c, (a, x)] hl (fun d hd => ?_) ?_⟩
  · -- neither of the two nodes that are written is among the others
    have hda : d.1 ≠ a := by
      rintro rfl
      obtain ⟨n, hn⟩ := hl.allocated (c := d)
        (List.mem_append.mpr ((List.mem_append.mp hd).imp_right (List.mem_cons_of_mem _)))
      rw [ha] at hn
      exact nomatch hn
    rw [Function.update_of_ne (hl.ne_of_mem hd), Function.update_of_ne hda]
  · intro s t hst
    obtain ⟨rfl, hc'⟩ := path_singleton.mp hst
    rw [hc] at hc'
    obtain rfl : next = t := (Node.mk.inj (Option.some.inj hc')).2
    refine ⟨some a, rfl, Function.update_self _ _ _, next, rfl, ?_, rfl⟩
    rw [Function.update_of_ne hac, Function.update_self]

/-- The cell behind another one is taken out. -/
theorem Path.removeAfter (hl : Path h p (l₁ ++ c :: d :: l₂) none) :
    ∃ next, h c.1 = some ⟨c.2, some d.1⟩ ∧ h d.1 = some ⟨d.2, next⟩ ∧
      Path (Function.update (Function.update h c.1 (some ⟨c.2, next⟩)) d.1 none) p
        (l₁ ++ c :: l₂) none := by
  obtain ⟨s, -, n, -, hc, next, rfl, hd, -⟩ := path_append.mp hl
  have hl' : Path h p ((l₁ ++ [c]) ++ d :: l₂) none := by
    rwa [List.append_assoc]
  have hcd : c.1 ≠ d.1 := hl'.ne_of_mem (by simp)
  refine ⟨next, hc, hd, Path.replace [c, d] [c] hl (fun e he => ?_) ?_⟩
  · have hed : e.1 ≠ d.1 := by
      refine hl'.ne_of_mem ?_
      rcases List.mem_append.mp he with he | he
      · simp [he]
      · simp [he]
    have hec : e.1 ≠ c.1 := by
      refine hl.ne_of_mem ?_
      rcases List.mem_append.mp he with he | he
      · simp [he]
      · simp [he]
    rw [Function.update_of_ne hed, Function.update_of_ne hec]
  · rintro s t ⟨n', rfl, hc', n'', -, hd', rfl⟩
    rw [hd] at hd'
    obtain rfl : next = n'' := (Node.mk.inj (Option.some.inj hd')).2
    refine ⟨next, rfl, ?_, rfl⟩
    rw [Function.update_of_ne hcd, Function.update_self]

/-- A cell that is not in use goes in at the front. -/
theorem Path.push (hl : Path h p l none) (ha : h a = none) :
    Path (Function.update h a (some ⟨x, p⟩)) (some a) ((a, x) :: l) none := by
  refine ⟨p, rfl, Function.update_self _ _ _, hl.congr fun c hc => ?_⟩
  refine Function.update_of_ne ?_ _ _
  rintro rfl
  obtain ⟨n, hn⟩ := hl.allocated hc
  rw [ha] at hn
  exact nomatch hn

/-- The cell at the front is taken out. -/
theorem Path.pop (hl : Path h p (c :: l) none) :
    ∃ next, p = some c.1 ∧ h c.1 = some ⟨c.2, next⟩ ∧
      Path (Function.update h c.1 none) next l none := by
  have hl' : Path h p ([] ++ c :: l) none := hl
  have hne : ∀ d ∈ l, d.1 ≠ c.1 := fun d hd => hl'.ne_of_mem hd
  obtain ⟨next, hp, hc, hl⟩ := hl
  exact ⟨next, hp, hc, hl.congr fun d hd => Function.update_of_ne (hne d hd) _ _⟩

/-! ### Lists that own their cells -/

/-- The cells from `p` to the end, in a heap that is `h₀` everywhere else: no cell is in use
in `h₀`, and no other address differs from it. -/
structure Chain (h₀ h : Heap A α) (p : Option A) (l : List (A × α)) : Prop where
  path : Path h p l none
  fresh : ∀ c ∈ l, h₀ c.1 = none
  frame : ∀ a, a ∉ l.map Prod.fst → h a = h₀ a

variable {h₀ : Heap A α}

omit [DecidableEq A] in
/-- The list without cells. -/
theorem chain_nil : Chain h₀ h₀ none [] where
  path := rfl
  fresh := fun _ hc => nomatch hc
  frame := fun _ _ => rfl

omit [DecidableEq A] in
/-- An address that is not in use is not in the list, and was not in use before. -/
theorem Chain.of_unused (hl : Chain h₀ h p l) (ha : h a = none) :
    a ∉ l.map Prod.fst ∧ h₀ a = none := by
  have hmem : a ∉ l.map Prod.fst := by
    intro hmem
    obtain ⟨c, hc, rfl⟩ := List.mem_map.mp hmem
    obtain ⟨n, hn⟩ := hl.path.allocated hc
    rw [ha] at hn
    exact nomatch hn
  exact ⟨hmem, by rw [← hl.frame a hmem, ha]⟩

/-- A cell that is not in use goes in at the front. -/
theorem Chain.push (hl : Chain h₀ h p l) (ha : h a = none) :
    Chain h₀ (Function.update h a (some ⟨x, p⟩)) (some a) ((a, x) :: l) where
  path := hl.path.push ha
  fresh := by
    intro c hc
    rcases List.mem_cons.mp hc with rfl | hc
    · exact (hl.of_unused ha).2
    · exact hl.fresh c hc
  frame := by
    intro b hb
    rw [List.map_cons, List.mem_cons, not_or] at hb
    rw [Function.update_of_ne hb.1, hl.frame b hb.2]

/-- The cell at the front is taken out, and given back. -/
theorem Chain.pop (hl : Chain h₀ h p (c :: l)) :
    ∃ next, p = some c.1 ∧ h c.1 = some ⟨c.2, next⟩ ∧
      Chain h₀ (Function.update h c.1 none) next l := by
  obtain ⟨next, hp, hc, hpath⟩ := hl.path.pop
  refine ⟨next, hp, hc, hpath, fun d hd => hl.fresh d (List.mem_cons_of_mem _ hd), ?_⟩
  intro b hb
  by_cases he : b = c.1
  · rw [he, Function.update_self, hl.fresh c List.mem_cons_self]
  · rw [Function.update_of_ne he, hl.frame b]
    exact fun hmem => (List.mem_cons.mp hmem).elim he hb

/-- A cell that is not in use goes in behind another one. -/
theorem Chain.insertAfter (hl : Chain h₀ h p (l₁ ++ c :: l₂)) (ha : h a = none) :
    ∃ next, h c.1 = some ⟨c.2, next⟩ ∧ Path h next l₂ none ∧
      Chain h₀
        (Function.update (Function.update h a (some ⟨x, next⟩)) c.1 (some ⟨c.2, some a⟩)) p
        (l₁ ++ c :: (a, x) :: l₂) := by
  obtain ⟨next, hc, hpath⟩ := hl.path.insertAfter (x := x) ha
  obtain ⟨s, -, next', -, hc', hnext⟩ := path_append.mp hl.path
  rw [hc] at hc'
  obtain rfl : next = next' := (Node.mk.inj (Option.some.inj hc')).2
  refine ⟨next, hc, hnext, hpath, ?_, ?_⟩
  · intro d hd
    have hd' : d = (a, x) ∨ d ∈ l₁ ++ c :: l₂ := by
      simp only [List.mem_append, List.mem_cons] at hd ⊢
      tauto
    rcases hd' with rfl | hd
    · exact (hl.of_unused ha).2
    · exact hl.fresh d hd
  · intro b hb
    simp only [List.map_append, List.map_cons, List.mem_append, List.mem_cons, not_or] at hb
    rw [Function.update_of_ne hb.2.1, Function.update_of_ne hb.2.2.1, hl.frame b]
    simp only [List.map_append, List.map_cons, List.mem_append, List.mem_cons, not_or]
    exact ⟨hb.1, hb.2.1, hb.2.2.2⟩

/-- The cell behind another one is taken out, and given back. -/
theorem Chain.removeAfter (hl : Chain h₀ h p (l₁ ++ c :: d :: l₂)) :
    ∃ next, h c.1 = some ⟨c.2, some d.1⟩ ∧ h d.1 = some ⟨d.2, next⟩ ∧
      Chain h₀ (Function.update (Function.update h c.1 (some ⟨c.2, next⟩)) d.1 none) p
        (l₁ ++ c :: l₂) := by
  obtain ⟨next, hc, hd, hpath⟩ := hl.path.removeAfter
  refine ⟨next, hc, hd, hpath, fun e he => hl.fresh e ?_, ?_⟩
  · simp only [List.mem_append, List.mem_cons] at he ⊢
    tauto
  · intro b hb
    by_cases he : b = d.1
    · rw [he, Function.update_self, hl.fresh d (by simp)]
    · simp only [List.map_append, List.map_cons, List.mem_append, List.mem_cons, not_or] at hb
      rw [Function.update_of_ne he, Function.update_of_ne hb.2.1, hl.frame b]
      simp only [List.map_append, List.map_cons, List.mem_append, List.mem_cons, not_or]
      exact ⟨hb.1, hb.2.1, he, hb.2.2⟩

end Linked

end CpuScheduler
