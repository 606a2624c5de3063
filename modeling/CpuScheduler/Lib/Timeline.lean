import Mathlib.Data.List.Chain
import Mathlib.Data.List.Induction
import Mathlib.Logic.Function.Basic

/-!
# One processor

A processor executes one job at a time. A job is started once, may be stopped and resumed, and
is finished at the end (`CpuScheduler.Timeline.Cpu.step`); a record of such acts is *legal* if
the processor can make them one after the other (`CpuScheduler.Timeline.replay`).

What a legal record looks like is seen in two ways.

| of | what is known | theorem |
|---|---|---|
| one job | a start, stops and resumptions in turn, the finish | `Timeline.replay_course` |
| two jobs | one is let go of before the other one is taken up | `Timeline.replay_exclusive` |

What is done next may be subject to a discipline (`CpuScheduler.Timeline.Obeys`).

A processor that does not preempt leaves a record of one job after the other
(`CpuScheduler.Timeline.Serial`). It need not be legal: whether a job is stopped or resumed may be
up to somebody else, who does not know whether it is executed at the moment.

Nothing is assumed of the jobs, and the record may go on after it.
-/

namespace CpuScheduler

namespace Timeline

universe u

variable {ι : Type u}

/-- What is done with a job. -/
inductive Act
  | start | resume | stop | finish
deriving DecidableEq, Repr

/-- The act gives the processor to the job. -/
def Act.takes : Act → Bool
  | .start | .resume => true
  | .stop | .finish => false

/-- How far a job has come. -/
inductive Stage
  | fresh | begun | done
deriving DecidableEq, Repr

/-- The job that has the processor, and how far the jobs have come. -/
@[ext]
structure Cpu (ι : Type u) where
  running : Option ι
  stage : ι → Stage

/-- Nothing has happened. -/
def idle : Cpu ι where
  running := none
  stage := fun _ => .fresh

variable {i j : ι} {a b : Act} {l m r : List (Act × ι)}

/-! ### One job after the other -/

/-- What may come next when nobody is preempted: a start behind a finish, and behind anything else
an act on the same job that is not done twice in a row. A job may be resumed that was not
stopped, and finished while it is stopped. -/
def Follows (e f : Act × ι) : Prop :=
  (f.1 = .start ↔ e.1 = .finish) ∧ (f.1 ≠ .start → f.2 = e.2) ∧ f.1 ≠ e.1

/-- **A record without preemption.** -/
structure Serial (l : List (Act × ι)) : Prop where
  chain : l.IsChain Follows
  first : ∀ e ∈ l.head?, e.1 = .start

/-- The jobs that an act is done to, in order. -/
def jobs (a : Act) (l : List (Act × ι)) : List ι := (l.filter fun e => e.1 = a).map Prod.snd

/-- The job that has been started and not finished. -/
def openJob (l : List (Act × ι)) : Option ι :=
  (l.getLast?.filter fun e => e.1 ≠ .finish).map Prod.snd

theorem serial_nil : Serial ([] : List (Act × ι)) := ⟨List.isChain_nil, by simp⟩

theorem jobs_concat (a b : Act) (l : List (Act × ι)) (i : ι) :
    jobs a (l ++ [(b, i)]) = jobs a l ++ if b = a then [i] else [] := by
  by_cases h : b = a
  · simp [jobs, h]
  · simp [jobs, h]

theorem openJob_concat (a : Act) (l : List (Act × ι)) (i : ι) :
    openJob (l ++ [(a, i)]) = if a = .finish then none else some i := by
  by_cases h : a = .finish
  · simp [openJob, h]
  · simp [openJob, h]

/-- What the last act says about the job. -/
theorem openJob_of_getLast {e : Act × ι} (h : l.getLast? = some e) :
    openJob l = if e.1 = .finish then none else some e.2 := by
  obtain ⟨k, rfl⟩ := List.getLast?_eq_some_iff.mp h
  exact openJob_concat e.1 k e.2

/-- **One more act.** -/
theorem serial_concat : Serial (l ++ [(a, i)]) ↔ Serial l ∧ (a = .start → openJob l = none) ∧
    (a ≠ .start → openJob l = some i) ∧ ∀ e ∈ l.getLast?, e.1 ≠ a := by
  constructor
  · intro h
    obtain ⟨hchain, -, hlast⟩ := List.isChain_append.mp h.chain
    have hfollows : ∀ e ∈ l.getLast?, Follows e (a, i) := fun e he => hlast e he _ rfl
    have hserial : Serial l := by
      refine ⟨hchain, fun e he => h.first e ?_⟩
      rw [List.head?_append, he]
      rfl
    cases he : l.getLast? with
    | none =>
      obtain rfl := List.getLast?_eq_none_iff.mp he
      have ha : a = .start := h.first (a, i) rfl
      exact ⟨hserial, fun _ => rfl, fun hs => absurd ha hs, by simp⟩
    | some e =>
      obtain ⟨hfin, hid, hne⟩ := hfollows e he
      rw [openJob_of_getLast he]
      refine ⟨hserial, fun hs => if_pos (hfin.mp hs), fun hs => ?_, fun f hf => ?_⟩
      · rw [if_neg fun hf => hs (hfin.mpr hf)]
        exact congrArg some (hid hs).symm
      · obtain rfl := Option.some.inj hf
        exact Ne.symm hne
  · rintro ⟨h, hnew, hold, hne⟩
    constructor
    · refine List.isChain_append.mpr ⟨h.chain, List.isChain_singleton _, fun e he f hf => ?_⟩
      obtain rfl : (a, i) = f := Option.some.inj hf
      have hopen := openJob_of_getLast he
      refine ⟨⟨fun hs => ?_, fun hf => ?_⟩, fun hs => ?_, (hne e he).symm⟩
      · rw [hnew hs] at hopen
        by_contra hc
        rw [if_neg hc] at hopen
        exact absurd hopen (by simp)
      · by_contra hs
        rw [hold hs, if_pos hf] at hopen
        exact absurd hopen (by simp)
      · rw [hold hs] at hopen
        split_ifs at hopen
        exact Option.some.inj hopen
    · cases l with
      | nil =>
        intro e he
        obtain rfl : (a, i) = e := Option.some.inj he
        by_contra hs
        exact absurd (hold hs) (by simp [openJob])
      | cons f l => exact h.first

/-- The jobs are started and finished in the same order, and at most one is open. -/
theorem Serial.jobs_start (h : Serial l) :
    jobs .start l = jobs .finish l ++ (openJob l).toList := by
  induction l using List.reverseRecOn with
  | nil => rfl
  | append_singleton l e ih =>
    obtain ⟨a, i⟩ := e
    obtain ⟨h, hnew, hold, -⟩ := serial_concat.mp h
    rw [jobs_concat, jobs_concat, openJob_concat, ih h]
    cases a with
    | start => simp [hnew rfl]
    | resume | stop | finish => simp [hold (by simp)]

/-- **Nobody is interrupted**: between two acts on different jobs the first one is finished. -/
def Uninterrupted (l : List (Act × ι)) : Prop :=
  ∀ k a i m b j r, l = k ++ (a, i) :: (m ++ (b, j) :: r) → i ≠ j → (.finish, i) ∈ (a, i) :: m

theorem Serial.uninterrupted (h : Serial l) : Uninterrupted l := by
  rintro k a i m b j r rfl hij
  have hchain := (List.isChain_append.mp h.chain).2.1
  clear h
  induction m generalizing a with
  | nil =>
    obtain ⟨hfin, hid, -⟩ := (List.isChain_cons_cons.mp hchain).1
    have hb : b = .start := by
      by_contra hb
      exact hij (hid hb).symm
    obtain rfl : a = .finish := hfin.mp hb
    exact List.mem_cons_self
  | cons f m ih =>
    obtain ⟨c, n⟩ := f
    obtain ⟨⟨hfin, hid, -⟩, hrest⟩ := List.isChain_cons_cons.mp hchain
    by_cases hn : n = i
    · subst hn
      exact List.mem_cons_of_mem _ (ih c hrest)
    · have hc : c = .start := by
        by_contra hc
        exact hn (hid hc)
      obtain rfl : a = .finish := hfin.mp hc
      exact List.mem_cons_self

/-! ### One job at a time -/

variable [DecidableEq ι] {c c' : Cpu ι}

/-- **The rules.** -/
def Cpu.step (c : Cpu ι) : Act × ι → Option (Cpu ι)
  | (.start, i) =>
    if c.running = none ∧ c.stage i = .fresh then
      some { running := some i, stage := Function.update c.stage i .begun } else none
  | (.resume, i) =>
    if c.running = none ∧ c.stage i = .begun then some { c with running := some i } else none
  | (.stop, i) => if c.running = some i then some { c with running := none } else none
  | (.finish, i) =>
    if c.running = some i then
      some { running := none, stage := Function.update c.stage i .done } else none

/-- The acts, one after the other. -/
def replay (l : List (Act × ι)) : Option (Cpu ι) := l.foldlM Cpu.step idle

theorem foldlM_singleton (c : Cpu ι) (e : Act × ι) : [e].foldlM Cpu.step c = c.step e := by
  simp

theorem replay_nil : replay ([] : List (Act × ι)) = some idle := rfl

theorem replay_append : replay (l ++ m) = (replay l).bind fun c => m.foldlM Cpu.step c :=
  List.foldlM_append

theorem replay_concat : replay (l ++ [(a, i)]) = (replay l).bind fun c => c.step (a, i) := by
  rw [replay_append]
  congr 1
  funext c
  exact foldlM_singleton c _

/-! ### The acts one by one -/

theorem Cpu.step_start : c.step (.start, i) = some c' ↔ (c.running = none ∧ c.stage i = .fresh) ∧
    { running := some i, stage := Function.update c.stage i .begun } = c' := by
  rw [step, Option.ite_none_right_eq_some, Option.some.injEq]

theorem Cpu.step_resume : c.step (.resume, i) = some c' ↔
    (c.running = none ∧ c.stage i = .begun) ∧ { c with running := some i } = c' := by
  rw [step, Option.ite_none_right_eq_some, Option.some.injEq]

theorem Cpu.step_stop : c.step (.stop, i) = some c' ↔
    c.running = some i ∧ { c with running := none } = c' := by
  rw [step, Option.ite_none_right_eq_some, Option.some.injEq]

theorem Cpu.step_finish : c.step (.finish, i) = some c' ↔ c.running = some i ∧
    { running := none, stage := Function.update c.stage i .done } = c' := by
  rw [step, Option.ite_none_right_eq_some, Option.some.injEq]

/-- An act gives the processor to its job, or takes it from there. -/
theorem Cpu.step_cases (h : c.step (a, i) = some c') :
    (a.takes = true ∧ c.running = none ∧ c'.running = some i) ∨
      (a.takes = false ∧ c.running = some i ∧ c'.running = none) := by
  cases a with
  | start =>
    obtain ⟨⟨hrun, -⟩, rfl⟩ := Cpu.step_start.mp h
    exact Or.inl ⟨rfl, hrun, rfl⟩
  | resume =>
    obtain ⟨⟨hrun, -⟩, rfl⟩ := Cpu.step_resume.mp h
    exact Or.inl ⟨rfl, hrun, rfl⟩
  | stop =>
    obtain ⟨hrun, rfl⟩ := Cpu.step_stop.mp h
    exact Or.inr ⟨rfl, hrun, rfl⟩
  | finish =>
    obtain ⟨hrun, rfl⟩ := Cpu.step_finish.mp h
    exact Or.inr ⟨rfl, hrun, rfl⟩

/-- The other jobs are left alone. -/
theorem Cpu.step_other (h : c.step (a, i) = some c') (hj : j ≠ i) :
    c'.stage j = c.stage j ∧ c.running ≠ some j ∧ c'.running ≠ some j := by
  have hne : (some i : Option ι) ≠ some j := fun he => hj (Option.some.inj he).symm
  cases a with
  | start =>
    obtain ⟨⟨hrun, -⟩, rfl⟩ := Cpu.step_start.mp h
    exact ⟨Function.update_of_ne hj _ _, by simp [hrun], hne⟩
  | resume =>
    obtain ⟨⟨hrun, -⟩, rfl⟩ := Cpu.step_resume.mp h
    exact ⟨rfl, by simp [hrun], hne⟩
  | stop =>
    obtain ⟨hrun, rfl⟩ := Cpu.step_stop.mp h
    exact ⟨rfl, hrun ▸ hne, by simp⟩
  | finish =>
    obtain ⟨hrun, rfl⟩ := Cpu.step_finish.mp h
    exact ⟨Function.update_of_ne hj _ _, hrun ▸ hne, by simp⟩

/-- Behind a stop, the processor is free. -/
theorem running_of_getLast (h : replay l = some c) (hl : l.getLast? = some (.stop, i)) :
    c.running = none := by
  obtain ⟨k, rfl⟩ := List.getLast?_eq_some_iff.mp hl
  rw [replay_concat] at h
  obtain ⟨c₀, -, hst⟩ := Option.bind_eq_some_iff.mp h
  obtain ⟨-, rfl⟩ := Cpu.step_stop.mp hst
  rfl

/-! ### One job -/

/-- What is done with a job, in a record. -/
def own (i : ι) (l : List (Act × ι)) : List Act := (l.filter fun e => e.2 = i).map Prod.fst

theorem own_concat_self : own i (l ++ [(a, i)]) = own i l ++ [a] := by
  simp [own]

theorem own_concat_of_ne (h : j ≠ i) : own i (l ++ [(a, j)]) = own i l := by
  simp [own, h]

theorem mem_own {e : Act × ι} (h : e ∈ l) : e.1 ∈ own e.2 l :=
  List.mem_map_of_mem (List.mem_filter.mpr ⟨h, decide_eq_true rfl⟩)

/-- **The course of a job**: how far it has come, whether it has the processor, and what has been
done with it. -/
inductive Course : Stage → Bool → List Act → Prop
  | fresh : Course .fresh false []
  | start : Course .begun true [.start]
  | stop {acts : List Act} (h : Course .begun true acts) : Course .begun false (acts ++ [.stop])
  | resume {acts : List Act} (h : Course .begun false acts) :
      Course .begun true (acts ++ [.resume])
  | finish {acts : List Act} (h : Course .begun true acts) : Course .done false (acts ++ [.finish])

variable {st : Stage} {run : Bool} {acts : List Act}

theorem Course.fresh_eq_nil (h : Course .fresh run acts) : acts = [] := by
  cases h
  rfl

theorem Course.running_begun (h : Course st true acts) : st = .begun := by
  cases h <;> rfl

/-- **Each job runs its course.** -/
theorem replay_course (h : replay l = some c) (i : ι) :
    Course (c.stage i) (c.running = some i) (own i l) := by
  induction l using List.reverseRecOn generalizing c with
  | nil =>
    obtain rfl := Option.some.inj h
    exact .fresh
  | append_singleton l e ih =>
    obtain ⟨a, j⟩ := e
    rw [replay_concat] at h
    obtain ⟨c₀, h₀, hst⟩ := Option.bind_eq_some_iff.mp h
    have ih := ih h₀
    by_cases hj : j = i
    · subst hj
      rw [own_concat_self]
      cases a with
      | start =>
        obtain ⟨⟨hrun, hi⟩, rfl⟩ := Cpu.step_start.mp hst
        rw [hi] at ih
        rw [ih.fresh_eq_nil]
        show Course (Function.update c₀.stage j .begun j) (decide (some j = some j)) _
        rw [Function.update_self, decide_eq_true rfl]
        exact .start
      | resume =>
        obtain ⟨⟨hrun, hi⟩, rfl⟩ := Cpu.step_resume.mp hst
        rw [hi, hrun, decide_eq_false (by simp)] at ih
        show Course (c₀.stage j) (decide (some j = some j)) _
        rw [hi, decide_eq_true rfl]
        exact .resume ih
      | stop =>
        obtain ⟨hrun, rfl⟩ := Cpu.step_stop.mp hst
        rw [hrun, decide_eq_true rfl] at ih
        have hbegun := ih.running_begun
        rw [hbegun] at ih
        show Course (c₀.stage j) (decide (none = some j)) _
        rw [hbegun, decide_eq_false (by simp)]
        exact .stop ih
      | finish =>
        obtain ⟨hrun, rfl⟩ := Cpu.step_finish.mp hst
        rw [hrun, decide_eq_true rfl] at ih
        show Course (Function.update c₀.stage j .done j) (decide (none = some j)) _
        rw [ih.running_begun] at ih
        rw [Function.update_self, decide_eq_false (by simp)]
        exact .finish ih
    · obtain ⟨hstage, hno, hno'⟩ := Cpu.step_other hst (Ne.symm hj)
      rw [own_concat_of_ne hj, hstage, decide_eq_false hno']
      rwa [decide_eq_false hno] at ih

/-! ### Two jobs -/

/-- The acts, from a state on. -/
theorem foldlM_running (h : m.foldlM Cpu.step c = some c') (hi : c.running = some i) :
    c'.running = some i ∨ ∃ e ∈ m, e.1.takes = false ∧ e.2 = i := by
  induction m using List.reverseRecOn generalizing c' with
  | nil =>
    obtain rfl := Option.some.inj h
    exact Or.inl hi
  | append_singleton m e ih =>
    obtain ⟨a, j⟩ := e
    rw [List.foldlM_append] at h
    obtain ⟨c₁, h₁, hst⟩ := Option.bind_eq_some_iff.mp h
    rw [foldlM_singleton] at hst
    rcases ih h₁ with hrun | ⟨e, he, htakes, hei⟩
    · rcases Cpu.step_cases hst with ⟨-, hnone, -⟩ | ⟨htakes, hrun', -⟩
      · rw [hrun] at hnone
        exact absurd hnone (by simp)
      · obtain rfl : i = j := Option.some.inj (hrun.symm.trans hrun')
        exact Or.inr ⟨(a, i), List.mem_append_right _ (List.mem_singleton.mpr rfl), htakes, rfl⟩
    · exact Or.inr ⟨e, List.mem_append_left _ he, htakes, hei⟩

/-- **One job at a time**: between two acts that give the processor away, it is taken from the job
that had it. -/
def Exclusive (l : List (Act × ι)) : Prop :=
  ∀ k a i m b j r, l = k ++ (a, i) :: (m ++ (b, j) :: r) → a.takes = true → b.takes = true →
    ∃ e ∈ m, e.1.takes = false ∧ e.2 = i

theorem replay_exclusive (h : replay l = some c) : Exclusive l := by
  rintro k a i m b j r rfl ha hb
  rw [replay_append] at h
  obtain ⟨c₀, -, h⟩ := Option.bind_eq_some_iff.mp h
  rw [List.foldlM_cons] at h
  obtain ⟨c₁, h₁, h⟩ := Option.bind_eq_some_iff.mp h
  rw [List.foldlM_append] at h
  obtain ⟨c₂, h₂, h⟩ := Option.bind_eq_some_iff.mp h
  rw [List.foldlM_cons] at h
  obtain ⟨c₃, h₃, -⟩ := Option.bind_eq_some_iff.mp h
  have hrun : c₁.running = some i := by
    rcases Cpu.step_cases h₁ with ⟨-, -, hrun⟩ | ⟨hno, -⟩
    · exact hrun
    · exact absurd (ha.symm.trans hno) (by simp)
  refine (foldlM_running h₂ hrun).resolve_left fun hi => ?_
  rcases Cpu.step_cases h₃ with ⟨-, hnone, -⟩ | ⟨hno, -⟩
  · rw [hi] at hnone
    exact absurd hnone (by simp)
  · exact absurd (hb.symm.trans hno) (by simp)

/-! ### A discipline -/

variable {R R' : Cpu ι → Act × ι → Prop} {e : Act × ι}

/-- **The acts of a record obey a discipline**, which says what may be done next. -/
def Obeys (R : Cpu ι → Act × ι → Prop) (l : List (Act × ι)) : Prop :=
  ∀ k e r, l = k ++ e :: r → ∀ c, replay k = some c → R c e

theorem obeys_nil : Obeys R [] := fun _ _ _ h => absurd h (by simp)

theorem Obeys.concat (h : Obeys R l) (he : ∀ c, replay l = some c → R c e) :
    Obeys R (l ++ [e]) := by
  intro k f r hl
  rcases List.eq_nil_or_concat r with rfl | ⟨r, g, rfl⟩
  · obtain ⟨rfl, hf⟩ := List.append_inj' hl rfl
    obtain rfl := List.singleton_inj.mp hf
    exact he
  · rw [List.concat_eq_append, ← List.cons_append, ← List.append_assoc] at hl
    exact h k f r (List.append_inj' hl rfl).1

theorem Obeys.mono (h : Obeys R l) (hR : ∀ c e, R c e → R' c e) : Obeys R' l :=
  fun k e r hl c hc => hR c e (h k e r hl c hc)

end Timeline

end CpuScheduler
